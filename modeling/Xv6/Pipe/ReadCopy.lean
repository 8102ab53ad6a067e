import Xv6.Pipe.Model
import Xv6.Vm.UserCopy

/-! The copy loop of `piperead` with the memory it copies to. A byte leaves the pipe before
`copyout` is known to succeed, so the first byte without a place in user memory is lost. -/
namespace Xv6.Pipe
open Hoare RingBuffer Transition Vm List

/-- The pipe and the memory, while the reader has `pi->lock`. -/
structure Reading where
  ring : Ring UInt8 pipesize 32
  mem : Mem

/-- The loop `for(i = 0; i < n; i++)` of `piperead`, with `rounds` rounds to go. -/
def copyLoop (pagetable addr : ℕ) : ℕ → ℕ → Prog Reading Panic ℕ
  | 0, i => return i
  | rounds + 1, i => do
    let s ← get
    if s.ring.Empty then return i
    else
      set { s with ring := s.ring.pop }
      if ← zoom Reading.mem (fun m s => { s with mem := m }) id
          (copyout pagetable (u64 (addr + i)) [s.ring.front]) then
        copyLoop pagetable addr rounds (i + 1)
      else return i

/-- `piperead(pi, addr, n)` from the end of its wait to its wakeup, all under `pi->lock`. -/
def pipereadCopy (pagetable addr : ℕ) (n : ℤ) : Prog Reading Panic ℕ :=
  copyLoop pagetable addr n.toNat 0

variable {E : Panic → Prop} {root addr : ℕ} {s t : Reading} {q : List UInt8}

theorem copyout_one {m : Mem} (ha : m.Unaliased root) {va : ℕ} (hva : va < 2 ^ 64) (ch : UInt8) :
    wp (copyout root (u64 va) [ch])
      (fun r t => Stored root va [ch] m t ∧ (r = true ↔ m.Writable root va)) E m := by
  rw [u64, Nat.mod_eq_of_lt hva]
  refine wp_post (copyoutLoop_stored 1 m va [ch] le_rfl ha) ?_
  rintro r t ⟨hst, hr⟩
  refine ⟨hst, hr.trans ⟨fun h => h 0 Nat.one_pos, fun h k hk => ?_⟩⟩
  obtain rfl : k = 0 := Nat.lt_one_iff.mp hk
  exact h

/-- What the loop has done from byte `i` on: it has stored `d` bytes, and it has taken as many if
that is all it was to do, and one more if the next address cannot be written. -/
@[grind] def Copied (root va rounds : ℕ) (q : List UInt8) (s t : Reading) (d : ℕ) : Prop :=
  (∀ k < d, s.mem.Writable root (va + k)) ∧ Stored root va (q.take d) s.mem t.mem ∧
  (d = min rounds q.length ∧ t.ring.Holds (q.drop d) ∨
    d < min rounds q.length ∧ ¬ s.mem.Writable root (va + d) ∧ t.ring.Holds (q.drop (d + 1)))

theorem copyLoop_spec (rounds : ℕ) : ∀ (i : ℕ) (s : Reading) (q : List UInt8), s.ring.Holds q →
    s.mem.Unaliased root → addr + i < 2 ^ 64 → wp (copyLoop root addr rounds i)
      (fun r t => ∃ d, r = i + d ∧ Copied root (addr + i) rounds q s t d) E s := by
  induction rounds with
  | zero =>
    intro i s q hq _ _
    exact ⟨0, rfl, fun _ hk => absurd hk (Nat.not_lt_zero _), .nil root _ s.mem,
      .inl ⟨(Nat.zero_min _).symm, hq⟩⟩
  | succ rounds ih =>
    intro i s q hq ha hlt
    unfold copyLoop
    rw [wp_bind, wp_get]
    cases q with
    | nil =>
      rw [if_pos ((hq.empty_iff (by decide)).mpr rfl)]
      exact ⟨0, rfl, fun _ hk => absurd hk (Nat.not_lt_zero _), .nil root _ s.mem, .inl ⟨rfl, hq⟩⟩
    | cons c q =>
      have hne : ¬ s.ring.Empty := by
        rw [hq.empty_iff (by decide)]
        simp
      have hmin : min (rounds + 1) (c :: q).length = min rounds q.length + 1 := by
        rw [length_cons, Nat.succ_min_succ]
      rw [if_neg hne, wp_bind, wp_set, wp_bind, wp_zoom, hq.front (by decide)]
      refine wp_post (copyout_one ha hlt c) ?_
      rintro r m ⟨hst, hr⟩
      split
      next hok =>
        have hw := hr.mp hok
        have hmax := hw.1.1
        refine wp_post (ih (i + 1) ⟨s.ring.pop, m⟩ q (hq.pop (by decide)) (hst.unaliased ha)
          (by simp only [maxva] at hmax; omega)) ?_
        rintro r t ⟨d, rfl, hwd, hrest, hend⟩
        have hback x : m.Writable root x ↔ s.mem.Writable root x := hst.writable ha
        rw [← Nat.add_assoc] at hwd hrest hend
        refine ⟨d + 1, by omega, fun k hk => ?_, ?_, ?_⟩
        · cases k with
          | zero => exact hw
          | succ k =>
            rw [show addr + i + (k + 1) = addr + i + 1 + k by omega, ← hback]
            exact hwd k (by omega)
        · refine hst.append ha hrest fun k hk => ?_
          obtain rfl : k = 0 := Nat.lt_one_iff.mp hk
          exact hw
        · rw [hmin, show addr + i + (d + 1) = addr + i + 1 + d by omega, ← hback]
          exact hend.imp (fun h => ⟨by omega, h.2⟩) fun h => ⟨by omega, h.2⟩
      next hno =>
        have hw : ¬ s.mem.Writable root (addr + i) := fun hw => hno (hr.mpr hw)
        refine ⟨0, rfl, fun _ hk => absurd hk (Nat.not_lt_zero _), ?_, .inr ⟨by omega, hw,
          hq.pop (by decide)⟩⟩
        refine ⟨hst.kernel, hst.free, fun b o hpage => ?_, fun _ k hk => absurd hk (by simp)⟩
        obtain ⟨k, hk, hwk, _⟩ := hst.page b o hpage
        obtain rfl : k = 0 := Nat.lt_one_iff.mp hk
        exact absurd hwk hw

/-- The loop makes steps of the pipe model: from the place in the loop to the wakeup behind it. -/
theorem copyLoop_steps {N : ℕ} {p : Fin N} {n : ℤ} (rounds : ℕ) : ∀ (i : ℕ) (x : State N) (m : Mem),
    rounds = n.toNat - i → x.pc p = .readCopy n i → (x.proc p).state = .running →
    wp (copyLoop root addr rounds i) (fun r t => ∃ (copies : List (Option UInt8)) (u : State N),
      run State.next x (copies.map (.step p)) = some u ∧ u.pc p = .readWake n r 0 ∧
      u.pi.ring = t.ring) (fun _ => True) ⟨x.pi.ring, m⟩ := by
  induction rounds with
  | zero =>
    intro i x m hr hpc hrun
    have hlt : ¬ (i : ℤ) < n := by omega
    refine ⟨[none], x.setPc p (.readWake n i 0), ?_, by simp, rfl⟩
    simp [run, State.next, hrun, step, hpc, hlt]
  | succ rounds ih =>
    intro i x m hr hpc hrun
    have hlt : (i : ℤ) < n := by omega
    unfold copyLoop
    rw [wp_bind, wp_get]
    split
    next he =>
      refine ⟨[none], x.setPc p (.readWake n i 0), ?_, by simp, rfl⟩
      simp [run, State.next, hrun, step, hpc, hlt, he]
    next he =>
      rw [wp_bind, wp_set, wp_bind, wp_zoom]
      refine wp_post (wp_trivial _) (fun ok m' _ => ?_)
      split
      · refine wp_post (ih (i + 1) ((x.take true).setPc p (.readCopy n (i + 1))) m' (by omega)
          (by simp) hrun) ?_
        rintro r t ⟨copies, u, hsteps, hu⟩
        refine ⟨some 0 :: copies, u, ?_, hu⟩
        rw [map_cons, run, State.next, if_pos hrun, step, hpc]
        simpa [hlt, he] using hsteps
      · refine ⟨[none], (x.take false).setPc p (.readWake n i 0), ?_, by simp, rfl⟩
        simp [run, State.next, hrun, step, hpc, hlt, he]

theorem pipereadCopy_spec (hq : s.ring.Holds q) (ha : s.mem.Unaliased root) (hlt : addr < 2 ^ 64)
    (n : ℤ) : wp (pipereadCopy root addr n) (fun i t => Copied root addr n.toNat q s t i ∧
      t.mem.userBytes root addr i = q.take i) E s := by
  refine wp_post (copyLoop_spec n.toNat 0 s q hq ha hlt) ?_
  rintro r t ⟨i, rfl, hw, hst, hend⟩
  rw [Nat.zero_add]
  refine ⟨⟨hw, hst, hend⟩, ?_⟩
  have hlen : (q.take i).length = i := length_take_of_le (by omega)
  have hbytes := hst.userBytes ha fun k hk => hw k (hlen ▸ hk)
  rwa [hlen] at hbytes

/-- Calls one after the other, with what each of them has delivered. -/
def pipereads (pagetable : ℕ) : List (ℕ × ℤ) → Prog Reading Panic (List (List UInt8))
  | [] => return []
  | (addr, n) :: calls => do
    let i ← pipereadCopy pagetable addr n
    let got := (← get).mem.userBytes pagetable addr i
    return got :: (← pipereads pagetable calls)

/-- Every byte that the calls take from a pipe with `len` bytes has its place in user memory. -/
@[grind] def Placed (m : Mem) (root : ℕ) : List (ℕ × ℤ) → ℕ → Prop
  | [], _ => True
  | (addr, n) :: calls, len => addr < 2 ^ 64 ∧
    (∀ k, k < min n.toNat len → m.Writable root (addr + k)) ∧
    Placed m root calls (len - min n.toNat len)

theorem Placed.congr {m m' : Mem} (h : ∀ x, m'.Writable root x ↔ m.Writable root x)
    (calls : List (ℕ × ℤ)) : ∀ len, Placed m root calls len → Placed m' root calls len := by
  induction calls with
  | nil => exact fun _ _ => trivial
  | cons c calls ih =>
    rintro len ⟨hlt, hw, hrest⟩
    exact ⟨hlt, fun k hk => (h _).mpr (hw k hk), ih _ hrest⟩

/-- As many bytes are delivered as taken, if each has its place. -/
theorem Copied.all {rounds va i : ℕ} (h : Copied root va rounds q s t i)
    (hw : ∀ k < min rounds q.length, s.mem.Writable root (va + k)) :
    i = min rounds q.length ∧ t.ring.Holds (q.drop i) := by
  rcases h.2.2 with h | h
  · exact h
  · exact absurd (hw i h.1) h.2.1

theorem pipereads_spec (calls : List (ℕ × ℤ)) : ∀ (s : Reading) (q : List UInt8), s.ring.Holds q →
    s.mem.Unaliased root → Placed s.mem root calls q.length →
    wp (pipereads root calls) (fun rs t => rs.flatten <+: q ∧
      t.ring.Holds (q.drop rs.flatten.length)) E s := by
  induction calls with
  | nil => exact fun s q hq _ _ => ⟨ nil_prefix, hq⟩
  | cons c calls ih =>
    obtain ⟨addr, n⟩ := c
    rintro s q hq ha ⟨hlt, hw, hrest⟩
    unfold pipereads
    refine wp_seq (pipereadCopy_spec hq ha hlt n) ?_
    rintro i t ⟨hc, hgot⟩
    obtain ⟨rfl, hring⟩ := hc.all hw
    have hst := hc.2.1
    have hlen : (q.drop (min n.toNat q.length)).length = q.length - min n.toNat q.length :=
      List.length_drop
    rw [wp_bind, wp_get, wp_bind, hgot]
    refine wp_post (ih t _ hring (hst.unaliased ha) ?_) ?_
    · rw [hlen]
      exact hrest.congr (fun _ => hst.writable ha)
    rintro rs u ⟨hpre, hring'⟩
    rw [wp_pure, flatten_cons, length_append, length_take_of_le (Nat.min_le_right _ _), ← drop_drop]
    refine ⟨?_, hring'⟩
    obtain ⟨rest, hrest'⟩ := hpre
    refine ⟨rest, ?_⟩
    rw [append_assoc, hrest', take_append_drop]

/-- `piperead` returns the number of bytes that have left the pipe exactly when every byte that it
takes has its place in user memory. The bytes it counts are at `addr` in any case, and if nothing is
lost later calls deliver the others in order. -/
theorem piperead_loses_nothing (hq : s.ring.Holds q) (ha : s.mem.Unaliased root)
    (hlt : addr < 2 ^ 64) (n : ℤ) :
    ∃ i t, pipereadCopy root addr n s = .ok (i, t) ∧
      ((t.ring.Holds (q.drop i) ∧ t.mem.userBytes root addr i = q.take i) ↔
        ∀ k, k < min n.toNat q.length → s.mem.Writable root (addr + k)) ∧
      (t.ring.Holds (q.drop i) → i = min n.toNat q.length ∧
        ∀ calls, Placed t.mem root calls (q.length - i) → ∃ rs u,
          pipereads root calls t = .ok (rs, u) ∧ rs.flatten <+: q.drop i ∧
          u.ring.Holds ((q.drop i).drop rs.flatten.length)) := by
  obtain ⟨i, t, hrun, hc, hbytes⟩ := wp_total (pipereadCopy_spec hq ha hlt n)
  -- a byte without a place has left the pipe and is not counted
  have hall (hring : t.ring.Holds (q.drop i)) : i = min n.toNat q.length := by
    rcases hc.2.2 with h | ⟨hi, _, hlost⟩
    · exact h.1
    · have hlen := (hring.toNat_sub (by decide)).symm.trans (hlost.toNat_sub (by decide))
      rw [List.length_drop, List.length_drop] at hlen
      omega
  refine ⟨i, t, hrun, ⟨fun h k hk => ?_, fun hw => ⟨(hc.all hw).2, hbytes⟩⟩, fun hring =>
    ⟨hall hring, fun calls hcalls => ?_⟩⟩
  · exact hc.1 k (hk.trans_eq (hall h.1).symm)
  · have hspec := wp_total (pipereads_spec calls t _ hring (hc.2.1.unaliased ha)
      (by rwa [List.length_drop]))
    exact hspec

def oneByte : Ring UInt8 pipesize 32 := (⟨fun _ => 0, 0, 0⟩ : Ring UInt8 pipesize 32).push 7

theorem holds_oneByte : oneByte.Holds [7] :=
  (Ring.Holds.init fun _ => 0).push (by decide) (by decide) 7

theorem piperead_loses_nothing_oneByte : ∃ i t,
    pipereadCopy 0x80010000 5 3 ⟨oneByte, onePage⟩ = .ok (i, t) ∧
    t.ring.Holds ([7].drop i) ∧ t.mem.userBytes 0x80010000 5 i = [7].take i := by
  obtain ⟨_, _, hspace, _⟩ := space_onePage
  have hw : ∀ k, k < min (3 : ℤ).toNat [(7 : UInt8)].length →
      onePage.Writable 0x80010000 (5 + k) := by decide +kernel
  obtain ⟨i, t, hrun, hiff, _⟩ := piperead_loses_nothing (s := ⟨oneByte, onePage⟩)
    holds_oneByte hspace.unaliased (show 5 < 2 ^ 64 by norm_num) 3
  exact ⟨i, t, hrun, hiff.mpr hw⟩

/-- Page 1 is not mapped: the call returns 0 and the byte is gone. -/
theorem piperead_loses_byte : ∃ t,
    pipereadCopy 0x80010000 pgsize 1 ⟨oneByte, onePage⟩ = .ok (0, t) ∧ oneByte.Holds [7] ∧
    t.ring.Empty := by
  have hrun : ∃ p ∈ (pipereadCopy 0x80010000 pgsize 1 ⟨oneByte, onePage⟩).toOption,
      p.1 = 0 ∧ p.2.ring.Empty := by decide +kernel
  obtain ⟨⟨_, t⟩, hp, rfl, hempty⟩ := hrun
  exact ⟨t, toOption_eq_some.mp hp, holds_oneByte, hempty⟩

end Xv6.Pipe
