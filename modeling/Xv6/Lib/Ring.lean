import Mathlib.Tactic

/-! A ring buffer whose two counters count modulo a power of two and never reset. The capacity
divides the modulus, so a counter names the same cell before and after it wraps. -/
namespace RingBuffer
open Function List

structure Ring (α : Type) (cap w : ℕ) where
  data : Fin cap → α
  head : BitVec w
  tail : BitVec w

variable {α : Type} {cap w : ℕ} [NeZero cap]

def cell (c : BitVec w) : Fin cap := Fin.ofNat cap c.toNat

namespace Ring

def Full (r : Ring α cap w) : Prop := r.tail = r.head + BitVec.ofNat w cap

def Empty (r : Ring α cap w) : Prop := r.head = r.tail

instance (r : Ring α cap w) : Decidable r.Full := inferInstanceAs (Decidable (_ = _))

instance (r : Ring α cap w) : Decidable r.Empty := inferInstanceAs (Decidable (_ = _))

def push (r : Ring α cap w) (a : α) : Ring α cap w where
  data := update r.data (cell r.tail) a
  head := r.head
  tail := r.tail + 1

/-- The first half of `push`: the element is in its cell and does not count yet. -/
@[simps -fullyApplied] def store (r : Ring α cap w) (a : α) : Ring α cap w :=
  { r with data := update r.data (cell r.tail) a }

@[simps -fullyApplied]
def advance (r : Ring α cap w) : Ring α cap w := { r with tail := r.tail + 1 }

def front (r : Ring α cap w) : α := r.data (cell r.head)

def pop (r : Ring α cap w) : Ring α cap w := { r with head := r.head + 1 }

/-- All of `hist` has been pushed, and the first `n` elements of it have been popped. -/
structure Tracks (r : Ring α cap w) (hist : List α) (n : ℕ) : Prop where
  head : r.head = BitVec.ofNat w n
  tail : r.tail = BitVec.ofNat w hist.length
  le : n ≤ hist.length
  bound : hist.length ≤ n + cap
  data : ∀ k, n ≤ k → ∀ h : k < hist.length, r.data (Fin.ofNat cap k) = hist.get ⟨k, h⟩

namespace Tracks
variable {r : Ring α cap w} {hist : List α} {n : ℕ}

theorem init (data : Fin cap → α) : Tracks (⟨data, 0, 0⟩ : Ring α cap w) [] 0 where
  head := rfl
  tail := rfl
  le := le_rfl
  bound := Nat.zero_le _
  data _ _ h := absurd h (Nat.not_lt_zero _)

theorem cell_ofNat (hd : cap ∣ 2 ^ w) (k : ℕ) :
    (cell (BitVec.ofNat w k) : Fin cap) = Fin.ofNat cap k := by
  apply Fin.ext
  simp only [cell, Fin.val_ofNat, BitVec.toNat_ofNat]
  exact Nat.mod_mod_of_dvd k hd

/-- Below a whole turn the counters tell how much has been pushed and popped. -/
theorem ofNat_inj {k l : ℕ} (h : BitVec.ofNat w (n + k) = BitVec.ofNat w (n + l)) (hk : k < 2 ^ w)
    (hl : l < 2 ^ w) : k = l := by
  have hmod : (n + k) % 2 ^ w = (n + l) % 2 ^ w := by simpa using congrArg BitVec.toNat h
  have hcongr : k ≡ l [MOD 2 ^ w] := Nat.ModEq.add_left_cancel' n hmod
  rwa [Nat.ModEq, Nat.mod_eq_of_lt hk, Nat.mod_eq_of_lt hl] at hcongr

section
variable (h : r.Tracks hist n) (hc : cap < 2 ^ w)
include h hc

theorem full_iff : r.Full ↔ hist.length = n + cap := by
  have hle := h.le
  have hb := h.bound
  unfold Full
  rw [h.head, h.tail, ← BitVec.ofNat_add]
  refine ⟨fun he => ?_, fun he => by rw [he]⟩
  rw [← Nat.add_sub_cancel' hle] at he ⊢
  rw [ofNat_inj he (by omega) hc]

theorem empty_iff : r.Empty ↔ hist.length = n := by
  have hle := h.le
  have hb := h.bound
  unfold Empty
  rw [h.head, h.tail]
  refine ⟨fun he => ?_, fun he => by rw [he]⟩
  rw [← Nat.add_sub_cancel' hle] at he ⊢
  rw [← ofNat_inj (k := 0) he (by omega) (by omega)]
  rfl

theorem toNat_sub : (r.tail - r.head).toNat = hist.length - n := by
  have hle := h.le
  have hb := h.bound
  have hsub : r.tail - r.head = BitVec.ofNat w (hist.length - n) := by
    rw [h.head, h.tail]
    nth_rewrite 1 [← Nat.add_sub_cancel' hle]
    rw [BitVec.ofNat_add, BitVec.add_comm, BitVec.add_sub_cancel]
  rw [hsub, BitVec.toNat_ofNat, Nat.mod_eq_of_lt (by omega)]

end

/-- Counters that are less than a turn apart name different cells. -/
theorem cell_ne {k l : ℕ} (hlt : l < n + cap) (hk : n ≤ k) (hkl : k < l) :
    (Fin.ofNat cap k : Fin cap) ≠ Fin.ofNat cap l := by
  intro he
  have hmod : k % cap = l % cap := by simpa using congrArg Fin.val he
  have hdvd := (Nat.modEq_iff_dvd' (by omega)).mp hmod
  have := Nat.le_of_dvd (by omega) hdvd
  omega

variable (h : r.Tracks hist n)
include h

theorem store (hd : cap ∣ 2 ^ w) (hlt : hist.length < n + cap) (a : α) :
    (r.store a).Tracks hist n where
  head := h.head
  tail := h.tail
  le := h.le
  bound := h.bound
  data k hk hkl := by
    rw [store_data, h.tail, cell_ofNat hd, update_of_ne (cell_ne hlt hk hkl)]
    exact h.data k hk hkl

theorem advance (hd : cap ∣ 2 ^ w) (hlt : hist.length < n + cap) :
    r.advance.Tracks (hist ++ [r.data (cell r.tail)]) n where
  head := h.head
  tail := by simp [h.tail, BitVec.ofNat_add]
  le := by
    have := h.le
    simp only [length_append, length_singleton]
    omega
  bound := by
    simp only [length_append, length_singleton]
    omega
  data k hk hkl := by
    have hkl' : k < hist.length + 1 := by simpa using hkl
    obtain rfl | he := eq_or_ne k hist.length
    · simp [h.tail, cell_ofNat hd]
    · rw [advance_data, h.data k hk (by omega)]
      simp [getElem_append_left (show k < hist.length by omega)]

theorem push (hc : cap < 2 ^ w) (hd : cap ∣ 2 ^ w) (hf : ¬ r.Full) (a : α) :
    (r.push a).Tracks (hist ++ [a]) n := by
  have hb := h.bound
  rw [h.full_iff hc] at hf
  have hlt : hist.length < n + cap := by omega
  have hadv := (h.store hd hlt a).advance hd hlt
  rw [store_data, store_tail, update_self] at hadv
  exact hadv

theorem front (hd : cap ∣ 2 ^ w) (hlt : n < hist.length) : r.front = hist.get ⟨n, hlt⟩ := by
  rw [Ring.front, h.head, cell_ofNat hd]
  exact h.data n le_rfl hlt

theorem pop (hc : cap < 2 ^ w) (he : ¬ r.Empty) : r.pop.Tracks hist (n + 1) := by
  have hle := h.le
  have hb := h.bound
  rw [h.empty_iff hc] at he
  refine ⟨?_, h.tail, by omega, by omega, fun k hk => h.data k (by omega)⟩
  simp [Ring.pop, h.head, BitVec.ofNat_add]

end Tracks

def Holds (r : Ring α cap w) (q : List α) : Prop := ∃ hist n, r.Tracks hist n ∧ hist.drop n = q

namespace Holds
variable {r : Ring α cap w} {q : List α} {a : α}

theorem init (data : Fin cap → α) : Holds (⟨data, 0, 0⟩ : Ring α cap w) [] :=
  ⟨[], 0, .init data, rfl⟩

theorem length_drop {r : Ring α cap w} {hist : List α} {n : ℕ} (h : r.Tracks hist n)
    (hq : (hist.drop n).length < cap) : hist.length < n + cap := by
  rw [List.length_drop] at hq
  have := h.le
  omega

section
variable (h : r.Holds q)
include h

theorem toNat_sub (hc : cap < 2 ^ w) : (r.tail - r.head).toNat = q.length := by
  obtain ⟨hist, n, ht, rfl⟩ := h
  rw [ht.toNat_sub hc, List.length_drop]

theorem empty_iff (hc : cap < 2 ^ w) : r.Empty ↔ q = [] := by
  obtain ⟨hist, n, ht, rfl⟩ := h
  rw [ht.empty_iff hc, drop_eq_nil_iff]
  have := ht.le
  omega

theorem cell_ne_tail (hd : cap ∣ 2 ^ w) (hlt : q.length < cap) {k : ℕ}
    (hk : k < q.length) : (cell (r.head + BitVec.ofNat w k) : Fin cap) ≠ cell r.tail := by
  obtain ⟨hist, n, ht, rfl⟩ := h
  rw [List.length_drop] at hk
  rw [ht.head, ht.tail, ← BitVec.ofNat_add, Tracks.cell_ofNat hd, Tracks.cell_ofNat hd]
  exact Tracks.cell_ne (length_drop ht hlt) (by omega) (by omega)

theorem store (hd : cap ∣ 2 ^ w) (hlt : q.length < cap) (a : α) : (r.store a).Holds q := by
  obtain ⟨hist, n, ht, rfl⟩ := h
  exact ⟨hist, n, ht.store hd (length_drop ht hlt) a, rfl⟩

theorem advance (hd : cap ∣ 2 ^ w) (hlt : q.length < cap)
    (ha : r.data (cell r.tail) = a) : r.advance.Holds (q ++ [a]) := by
  obtain ⟨hist, n, ht, rfl⟩ := h
  refine ⟨_, n, ht.advance hd (length_drop ht hlt), ?_⟩
  rw [ha, drop_append_of_le_length ht.le]

theorem push (hd : cap ∣ 2 ^ w) (hlt : q.length < cap) (a : α) : (r.push a).Holds (q ++ [a]) := by
  refine (h.store hd hlt a).advance hd hlt ?_
  rw [store_data, store_tail, update_self]

end

theorem front (h : r.Holds (a :: q)) (hd : cap ∣ 2 ^ w) : r.front = a := by
  obtain ⟨hist, n, ht, hq⟩ := h
  have hlt : n < hist.length := by
    by_contra hn
    rw [drop_eq_nil_of_le (by omega)] at hq
    cases hq
  rw [drop_eq_getElem_cons hlt] at hq
  rw [ht.front hd hlt]
  exact (List.cons.inj hq).1

theorem pop (h : r.Holds (a :: q)) (hc : cap < 2 ^ w) : r.pop.Holds q := by
  have hne : ¬ r.Empty := by
    rw [h.empty_iff hc]
    simp
  obtain ⟨hist, n, ht, hq⟩ := h
  refine ⟨hist, n + 1, ht.pop hc hne, ?_⟩
  rw [← tail_drop, hq, tail_cons]

end Holds
end Ring
end RingBuffer
