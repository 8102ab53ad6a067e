import Mathlib.Tactic

/-! Sums over finitely many threads, and how they change when one thread moves. -/
namespace Counting
variable {P β : Type*} [Fintype P]

def total (g : β → ℕ) (f : P → β) : ℕ := ∑ p, g (f p)

theorem total_update [DecidableEq P] (g : β → ℕ) (f : P → β) (p : P) (v : β) :
    total g (Function.update f p v) + g (f p) = total g f + g v := by
  unfold total
  have hp := Finset.mem_univ p
  rw [← Finset.add_sum_erase _ _ hp, ← Finset.add_sum_erase _ (fun q => g (f q)) hp,
    Function.update_self]
  have hrest : ∑ q ∈ Finset.univ.erase p, g (Function.update f p v q) =
      ∑ q ∈ Finset.univ.erase p, g (f q) := by
    apply Finset.sum_congr rfl
    intro q hq
    rw [Function.update_of_ne (Finset.ne_of_mem_erase hq)]
  rw [hrest]
  omega

theorem le_total (g : β → ℕ) (f : P → β) (p : P) : g (f p) ≤ total g f :=
  Finset.single_le_sum (f := fun q => g (f q)) (fun _ _ => Nat.zero_le _) (Finset.mem_univ p)

theorem total_eq_zero {g : β → ℕ} {f : P → β} : total g f = 0 ↔ ∀ p, g (f p) = 0 := by
  unfold total
  simp [Finset.sum_eq_zero_iff]

theorem total_congr {g : β → ℕ} {f f' : P → β} (h : ∀ p, g (f p) = g (f' p)) :
    total g f = total g f' := Finset.sum_congr rfl fun p _ => h p

theorem add_le_total [DecidableEq P] (g : β → ℕ) (f : P → β) {p q : P} (h : p ≠ q) :
    g (f p) + g (f q) ≤ total g f := by
  unfold total
  rw [← Finset.add_sum_erase _ _ (Finset.mem_univ p)]
  have hq := Finset.single_le_sum (f := fun r => g (f r)) (fun _ _ => Nat.zero_le _)
    (Finset.mem_erase.mpr ⟨h.symm, Finset.mem_univ q⟩)
  exact Nat.add_le_add_left hq _

end Counting
