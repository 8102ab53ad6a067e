import Xv6.Console.Model

/-! The console refines its line discipline, however often the indices wrap. -/
namespace Xv6.Console
open RingBuffer Transition List Function
attribute [local simp] Line.total
variable {P : Type} {c : Cons} {l : Line} {x : UInt8} {q pend : List UInt8}

/-- The cells from `r` to `w` hold the committed characters and those from `w` to `e` the line. -/
@[grind cases] structure Holds (c : Cons) (l : Line) : Prop where
  w : c.w = c.r + BitVec.ofNat 32 l.committed.length
  e : c.e = c.r + BitVec.ofNat 32 l.total
  bound : l.total ≤ inputBufSize
  data : ∀ k y, (l.committed ++ l.pending)[k]? = some y → c.buf (cell (c.r + BitVec.ofNat 32 k)) = y
  line : newline ∉ l.pending

private theorem cell_add (r : BitVec 32) (k : ℕ) :
    (cell (r + BitVec.ofNat 32 k) : Fin inputBufSize) = Fin.ofNat inputBufSize (r.toNat + k) := by
  apply Fin.ext
  simp only [cell, Fin.val_ofNat, BitVec.toNat_add, BitVec.toNat_ofNat, Nat.add_mod_mod]
  exact Nat.mod_mod_of_dvd _ (by decide)

theorem cell_add_ne (r : BitVec 32) {k n : ℕ} (hk : k < n) (hn : n < inputBufSize) :
    (cell (r + BitVec.ofNat 32 k) : Fin inputBufSize) ≠ cell (r + BitVec.ofNat 32 n) := by
  rw [cell_add, cell_add]
  intro h
  have hv := congrArg Fin.val h
  simp only [Fin.val_ofNat, inputBufSize] at hv hn
  omega

private theorem ofNat_inj_of_le {a b : ℕ} (ha : a ≤ inputBufSize) (hb : b ≤ inputBufSize) :
    BitVec.ofNat 32 a = BitVec.ofNat 32 b ↔ a = b := by
  constructor
  · intro h
    have hv := congrArg BitVec.toNat h
    grind
  · exact congrArg _

namespace Holds

section
variable (h : Holds c l)
include h

theorem committed_le : l.committed.length ≤ inputBufSize :=
  (Nat.le_add_right _ _).trans h.bound

theorem toNat_sub : (c.e - c.r).toNat = l.total := by grind

theorem toNat_sub_committed : (c.w - c.r).toNat = l.committed.length := by
  have hb := h.committed_le
  grind

theorem e_eq_w : c.e = c.w ↔ l.pending = [] := by
  rw [h.e, h.w, BitVec.add_right_inj, ofNat_inj_of_le h.bound h.committed_le]
  simp

theorem r_eq_w : c.r = c.w ↔ l.committed = [] := by
  have hzero : c.r = c.r + BitVec.ofNat 32 0 := by simp
  rw [h.w, ← length_eq_zero_iff]
  nth_rewrite 1 [hzero]
  rw [BitVec.add_right_inj, ofNat_inj_of_le (Nat.zero_le _) h.committed_le]
  exact eq_comm

end

section
variable (h : Holds c ⟨q, pend ++ [x]⟩)
include h

theorem pred_e : c.e - 1 = c.r + BitVec.ofNat 32 (q.length + pend.length) := by
  have he : c.e = c.r + BitVec.ofNat 32 (q.length + pend.length) + 1 := by
    rw [h.e]
    simp [← Nat.add_assoc, BitVec.ofNat_add, BitVec.add_assoc]
  rw [he, BitVec.add_sub_cancel]

theorem last : c.buf (cell (c.e - 1)) = x := by
  rw [h.pred_e]
  exact h.data _ x (by simp)

theorem erase : Holds { c with e := c.e - 1 } ⟨q, pend⟩ where
  w := h.w
  e := h.pred_e
  bound := by
    have hb := h.bound
    simp only [Line.total, length_append, length_singleton] at hb ⊢
    omega
  data k y hk := by grind
  line hn := h.line (mem_append_left _ hn)

end

theorem killLoop (n : ℕ) : ∀ {c : Cons} {pend : List UInt8}, pend.length ≤ n →
    Holds c ⟨q, pend⟩ → Holds (Cons.killLoop n c) ⟨q, []⟩ := by
  induction n with
  | zero => grind
  | succ n ih =>
    intro c pend hn h
    unfold Cons.killLoop
    rcases eq_nil_or_concat pend with rfl | ⟨pend, x, rfl⟩
    · rw [if_neg fun hc => hc.1 (h.e_eq_w.mpr rfl)]
      exact h
    rw [concat_eq_append] at h hn
    have hx : x ≠ newline := by
      rintro rfl
      exact h.line (by simp)
    have hne : c.e ≠ c.w := fun he => absurd (h.e_eq_w.mp he) (by simp)
    rw [if_pos ⟨hne, by rwa [h.last]⟩]
    exact ih (by simpa using hn) h.erase

section
variable (h : Holds c l)
include h

theorem data_store (hlt : l.total < inputBufSize) (k : ℕ) (y : UInt8)
    (hk : (l.committed ++ l.pending ++ [x])[k]? = some y) :
    (c.store x).buf (cell (c.r + BitVec.ofNat 32 k)) = y := by
  simp only [Cons.store]
  by_cases hlast : k < l.total
  · rw [h.e, update_of_ne (cell_add_ne _ hlast hlt)]
    rw [List.getElem?_append_left (by simpa using hlast)] at hk
    exact h.data k y hk
  have hlen : k = l.total := by
    have hle := (List.getElem?_eq_some_iff.mp hk).1
    simp only [Line.total, length_append, length_singleton] at hle hlast ⊢
    omega
  rw [hlen, h.e, update_self]
  simpa [hlen] using hk

theorem e_store : (c.store x).e = c.r + BitVec.ofNat 32 (l.total + 1) := by
  simp [Cons.store, h.e, BitVec.ofNat_add, BitVec.add_assoc]

theorem store (hlt : l.total < inputBufSize) (hx : x ≠ newline) :
    Holds (c.store x) ⟨l.committed, l.pending ++ [x]⟩ where
  w := h.w
  e := by
    rw [h.e_store]
    simp [Cons.store, Nat.add_assoc]
  bound := by
    simp only [Line.total, length_append, length_singleton] at hlt ⊢
    omega
  data k y hk := by
    rw [← append_assoc] at hk
    exact h.data_store hlt k y hk
  line := by simp [h.line, hx.symm]

/-- A character that ends the line is stored, and all of it is committed. -/
theorem storeEnd (hlt : l.total < inputBufSize) :
    Holds { c.store x with w := (c.store x).e } ⟨l.committed ++ (l.pending ++ [x]), []⟩ where
  w := by
    rw [h.e_store]
    simp [Cons.store, Nat.add_assoc]
  e := by
    rw [h.e_store]
    simp [Cons.store, Nat.add_assoc]
  bound := by
    simp only [Line.total, length_append, length_singleton, length_nil] at hlt ⊢
    omega
  data k y hk := by
    rw [append_nil, ← append_assoc] at hk
    exact h.data_store hlt k y hk
  line := not_mem_nil

theorem intr (x : UInt8) : Holds (c.consoleintr x) (l.intr x) := by
  unfold Cons.consoleintr Line.intr
  split
  · exact h
  split
  · have hlen : (c.e - c.w).toNat = l.pending.length := by
      have hb := h.bound
      rw [h.e, h.w, Line.total, BitVec.ofNat_add, ← BitVec.add_assoc, BitVec.add_comm,
        BitVec.add_sub_cancel, BitVec.toNat_ofNat]
      simp only [Line.total, inputBufSize] at hb
      omega
    exact h.killLoop _ hlen.ge
  split
  · rcases eq_nil_or_concat l.pending with hp | ⟨pend, y, hp⟩
    · have hl : (⟨l.committed, []⟩ : Line) = l := by rw [← hp]
      rw [if_neg (not_not.mpr (h.e_eq_w.mpr hp)), hp, dropLast_nil, hl]
      exact h
    rw [concat_eq_append] at hp
    have hl : l = ⟨l.committed, pend ++ [y]⟩ := by rw [← hp]
    rw [if_pos fun he => absurd (h.e_eq_w.mp he) (by simp [hp]), hp, dropLast_concat]
    rw [hl] at h
    exact h.erase
  · unfold Line.type
    rw [h.toNat_sub]
    split
    next hlt =>
      have hfull : ∀ y, ((c.store y).e - (c.store y).r).toNat = inputBufSize ↔
          l.total + 1 = inputBufSize := by
        intro y
        have hb := hlt.2
        rw [h.e_store, show (c.store y).r = c.r from rfl, BitVec.add_comm, BitVec.add_sub_cancel,
          BitVec.toNat_ofNat]
        simp only [inputBufSize] at hb ⊢
        omega
      simp only [hfull]
      generalize (if x = carriageReturn then newline else x) = y
      split
      · exact h.storeEnd hlt.2
      next hno => exact h.store hlt.2 fun hx => hno (.inl hx)
    · exact h

end

theorem front (h : Holds c ⟨x :: q, pend⟩) : c.buf (cell c.r) = x := by
  have h0 := h.data 0 x rfl
  rwa [show c.r + BitVec.ofNat 32 0 = c.r by simp] at h0

theorem advance (h : Holds c ⟨x :: q, pend⟩) : Holds { c with r := c.r + 1 } ⟨q, pend⟩ := by
  have hshift k : c.r + 1 + BitVec.ofNat 32 k = c.r + BitVec.ofNat 32 (k + 1) := by
    rw [BitVec.ofNat_add, BitVec.add_assoc, BitVec.add_comm (BitVec.ofNat 32 k)]
    rfl
  have hb := h.bound
  simp only [Line.total, length_cons] at hb
  refine ⟨?_, ?_, by simp only [Line.total]; omega, fun k y hk => ?_, h.line⟩
  · rw [hshift, h.w]
    simp
  · rw [hshift, h.e]
    simp [Nat.add_right_comm]
  · rw [hshift]
    exact h.data (k + 1) y (by simpa using hk)

theorem read (target : ℕ) (n : ℕ) : ∀ {c : Cons} {q : List UInt8} (got : List UInt8),
    Holds c ⟨q, pend⟩ →
      (c.consoleread target n got).2 = (Line.read target n q got).2 ∧
      Holds (c.consoleread target n got).1 ⟨(Line.read target n q got).1, pend⟩ := by
  induction n with
  | zero => exact fun got h => ⟨rfl, h⟩
  | succ n ih =>
    intro c q got h
    unfold Cons.consoleread
    cases q with
    | nil =>
      rw [if_pos (h.r_eq_w.mpr rfl)]
      exact ⟨rfl, h⟩
    | cons x q =>
      rw [if_neg fun hr => absurd (h.r_eq_w.mp hr) (by simp)]
      simp only [h.front, Line.read]
      split
      · refine ⟨rfl, ?_⟩
        split
        · -- `^D` goes back to where it was.
          rw [BitVec.add_sub_cancel]
          exact h
        · exact h.advance
      split
      · exact ⟨rfl, h.advance⟩
      · exact ih _ h.advance

end Holds

def Reader.bytes : Reader → List UInt8
  | .idle => []
  | .asleep _ _ got | .returned _ got => got

@[grind] def Reader.Proper : Reader → Prop
  | .idle => True
  | .asleep target n got => ctrlD ∉ got ∧ newline ∉ got ∧ got.length + n = target ∧ 0 < n
  | .returned ret got => ctrlD ∉ got ∧ newline ∉ got.dropLast ∧ ret = got.length

/-- A read that had delivered `got` has moved the first characters of `q` to the user, or a single
^D has made it return nothing. -/
@[grind] def Takes (q got q' : List UInt8) (r : Reader) : Prop :=
  ∃ taken, q = taken ++ q' ∧
    (r.bytes = got ++ taken ∨ taken = [ctrlD] ∧ got = [] ∧ r = .returned 0 [])

theorem read_takes (target n : ℕ) : ∀ q got : List UInt8, got.length + n = target →
    Takes q got (Line.read target n q got).1 (Line.read target n q got).2 := by
  induction n with
  | zero => exact fun q got _ => ⟨[], rfl, .inl (append_nil got).symm⟩
  | succ n ih =>
    intro q got hlen
    cases q with
    | nil => exact ⟨[], rfl, .inl (append_nil got).symm⟩
    | cons x q =>
      simp only [Line.read]
      split
      next hx =>
        split
        · exact ⟨[], rfl, .inl (append_nil got).symm⟩
        next hn =>
          have hgot : got = [] := length_eq_zero_iff.mp (by omega)
          grind
      · split
        · exact ⟨[x], rfl, .inl rfl⟩
        obtain ⟨taken, hq, hr⟩ := ih q (got ++ [x]) (by simp; omega)
        refine ⟨x :: taken, congrArg (x :: ·) hq, hr.imp ?_ ?_⟩
        · grind
        · intro hc
          exact absurd hc.2.1 (by simp)

theorem read_proper (target n : ℕ) : ∀ q got : List UInt8, got.length + n = target →
    ctrlD ∉ got → newline ∉ got → (Line.read target n q got).2.Proper := by
  induction n with
  | zero =>
    intro q got hlen hd hn
    exact ⟨hd, fun hmem => hn (dropLast_subset _ hmem), by omega⟩
  | succ n ih =>
    intro q got hlen hd hn
    cases q with
    | nil => exact ⟨hd, hn, hlen, Nat.succ_pos n⟩
    | cons x q =>
      simp only [Line.read]
      split
      · exact ⟨hd, fun hmem => hn (dropLast_subset _ hmem), by omega⟩
      next hx => grind

/-- The console and the line discipline after the same events. -/
@[grind cases] structure Related (s : System Cons P) (t : System Line P) : Prop where
  holds : Holds s.dev t.dev
  reader : t.reader = s.reader
  proper : ∀ p, (s.reader p).Proper

theorem related_boot (buf : Fin inputBufSize → UInt8) :
    Related (System.boot P buf) (System.fresh P) where
  holds := ⟨rfl, rfl, Nat.zero_le _, fun k y hk => by simp [System.fresh] at hk, not_mem_nil⟩
  reader := rfl
  proper _ := trivial

variable [DecidableEq P]

theorem Related.go {s : System Cons P} {t : System Line P} (h : Related s t) (p : P) {target n : ℕ}
    {got : List UInt8} (hlen : got.length + n = target) (hd : ctrlD ∉ got) (hn : newline ∉ got) :
    Related (s.go Cons.discipline p target n got) (t.go Line.discipline p target n got) := by
  obtain ⟨hres, hdev⟩ := Holds.read target n got h.holds
  refine ⟨hdev, ?_, fun q => ?_⟩
  · simp only [System.go, Cons.discipline, Line.discipline, hres, h.reader]
  · simp only [System.go, Cons.discipline, hres]
    by_cases hq : q = p
    · rw [hq, update_self]
      exact read_proper target n _ got hlen hd hn
    · rw [update_of_ne hq]
      exact h.proper q

theorem Related.next {s s' : System Cons P} {t : System Line P} {a : Act P} (h : Related s t)
    (hn : s.next Cons.discipline a = some s') :
    ∃ t', t.next Line.discipline a = some t' ∧ Related s' t' := by
  cases a with
  | intr x =>
    cases hn
    exact ⟨_, rfl, h.holds.intr x, h.reader, h.proper⟩
  | read p n =>
    simp only [System.next, h.reader] at hn ⊢
    split at hn
    · cases hn
    · cases hn
      exact ⟨_, rfl, h.go p (by simp) (by simp) (by simp)⟩
  | resume p =>
    simp only [System.next, h.reader] at hn ⊢
    split at hn
    next target n got hp =>
      cases hn
      have hproper := h.proper p
      rw [hp] at hproper
      exact ⟨_, rfl, h.go p hproper.2.2.1 hproper.1 hproper.2.1⟩
    · cases hn

/-- After any characters and reads the indices are in order, and the buffer holds the queue and the
line of the line discipline after the same characters and reads, which gives every reader the same
bytes. No ^D is among them, and a ^D that is taken makes a read return nothing. -/
theorem console_refines_line (buf : Fin inputBufSize → UInt8) (acts : List (Act P))
    {s : System Cons P} (hr : run (System.next Cons.discipline) (System.boot P buf) acts = some s) :
    (s.dev.w - s.dev.r).toNat ≤ (s.dev.e - s.dev.r).toNat ∧
      (s.dev.e - s.dev.r).toNat ≤ inputBufSize ∧
      ∃ t, run (System.next Line.discipline) (System.fresh P) acts = some t ∧
        Holds s.dev t.dev ∧ t.reader = s.reader ∧ (∀ p, (s.reader p).Proper) ∧
        ∀ target n got, got.length + n = target →
          Takes t.dev.committed got (Line.read target n t.dev.committed got).1
            (Line.read target n t.dev.committed got).2 := by
  obtain ⟨t, ht, h⟩ := run_simulation (fun _ _ _ _ h hn => h.next hn) (related_boot buf) hr
  refine ⟨?_, ?_, t, ht, h.holds, h.reader, h.proper, fun target n got => read_takes target n _ got⟩
  · rw [h.holds.toNat_sub, h.holds.toNat_sub_committed]
    exact Nat.le_add_right _ _
  · rw [h.holds.toNat_sub]
    exact h.holds.bound

def typeLine : List (Act Unit) :=
  [.read () 8, .intr 97, .intr 98, .intr ctrlH, .intr carriageReturn, .resume ()]

theorem console_refines_line_typed : ∃ s ∈ run (System.next Cons.discipline)
    (System.boot Unit fun _ => 0) typeLine, s.reader () = .returned 2 [97, newline] ∧
      (s.dev.e - s.dev.r).toNat ≤ inputBufSize := by
  have h : ∃ s ∈ run (System.next Cons.discipline) (System.boot Unit fun _ => 0) typeLine,
      s.reader () = .returned 2 [97, newline] := by decide +kernel
  obtain ⟨s, hs, hread⟩ := h
  exact ⟨s, hs, hread, (console_refines_line _ typeLine hs).2.1⟩

end Xv6.Console
