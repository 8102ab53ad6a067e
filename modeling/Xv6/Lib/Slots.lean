import Mathlib.Tactic

/-! A table of slots, each free or with a key and a value, as a finite map. -/
namespace Slots
open Function
variable {ι κ β : Type*} {e : ι → Option (κ × β)} {m : κ → Option β} {i : ι} {k : κ} {v : β}

/-- The table stands for the map `m`: no two slots have the same key, and `m` has the values. -/
structure Maps (e : ι → Option (κ × β)) (m : κ → Option β) : Prop where
  unique : ∀ i j k v w, e i = some (k, v) → e j = some (k, w) → i = j
  value : ∀ k v, m k = some v ↔ ∃ i, e i = some (k, v)

namespace Maps

theorem eq_none_iff (h : Maps e m) : m k = none ↔ ∀ i v, e i ≠ some (k, v) := by
  rw [Option.eq_none_iff_forall_ne_some]
  constructor
  · intro hn i v he
    exact hn v ((h.value k v).mpr ⟨i, he⟩)
  · intro hn v hv
    obtain ⟨i, he⟩ := (h.value k v).mp hv
    exact hn i v he

variable [DecidableEq ι]

theorem update_other {x : Option (κ × β)} (hold : ∀ k' w, e i = some (k', w) → k' = k)
    (hnew : ∀ k' w, x = some (k', w) → k' = k) {k' : κ} (hne : k' ≠ k) (a : ι) (w : β) :
    update e i x a = some (k', w) ↔ e a = some (k', w) := by
  obtain rfl | hai := eq_or_ne a i
  · rw [update_self]
    exact ⟨fun hx => absurd (hnew k' w hx) hne, fun he => absurd (hold k' w he) hne⟩
  · rw [update_of_ne hai]

variable [DecidableEq κ]

theorem put (h : Maps e m) (hi : e i = none) (hk : m k = none) (v : β) :
    Maps (update e i (some (k, v))) (update m k (some v)) := by
  have hno := h.eq_none_iff.mp hk
  constructor
  · intro a b k' x y ha hb
    by_cases hai : a = i
    · by_cases hbi : b = i
      · rw [hai, hbi]
      subst hai
      rw [update_self] at ha
      rw [update_of_ne hbi] at hb
      cases ha
      exact absurd hb (hno b y)
    · rw [update_of_ne hai] at ha
      obtain rfl | hbi := eq_or_ne b i
      · rw [update_self] at hb
        cases hb
        exact absurd ha (hno a x)
      · rw [update_of_ne hbi] at hb
        exact h.unique a b k' x y ha hb
  · intro k' w
    by_cases hk' : k' = k
    · subst hk'
      rw [update_self]
      constructor
      · intro hw
        cases hw
        exact ⟨i, update_self ..⟩
      · rintro ⟨a, ha⟩
        obtain rfl | hai := eq_or_ne a i
        · rw [update_self] at ha
          cases ha
          rfl
        · rw [update_of_ne hai] at ha
          exact absurd ha (hno a w)
    · rw [update_of_ne hk', h.value]
      constructor
      · rintro ⟨a, ha⟩
        refine ⟨a, ?_⟩
        rw [update_of_ne, ha]
        rintro rfl
        rw [hi] at ha
        cases ha
      · rintro ⟨a, ha⟩
        obtain rfl | hai := eq_or_ne a i
        · rw [update_self] at ha
          cases ha
          exact absurd rfl hk'
        · rw [update_of_ne hai] at ha
          exact ⟨a, ha⟩

theorem erase (h : Maps e m) (hi : e i = some (k, v)) :
    Maps (update e i none) (update m k none) := by
  have hkeep a x (ha : update e i none a = some x) : a ≠ i ∧ e a = some x := by
    obtain rfl | hai := eq_or_ne a i
    · rw [update_self] at ha
      cases ha
    · rw [update_of_ne hai] at ha
      exact ⟨hai, ha⟩
  constructor
  · intro a b k' x y ha hb
    exact h.unique a b k' x y (hkeep a _ ha).2 (hkeep b _ hb).2
  · intro k' w
    by_cases hk' : k' = k
    · subst hk'
      rw [update_self]
      constructor
      · nofun
      · rintro ⟨a, ha⟩
        obtain ⟨hne, ha⟩ := hkeep a _ ha
        exact absurd (h.unique a i k' w v ha hi) hne
    · rw [update_of_ne hk', h.value]
      constructor
      · rintro ⟨a, ha⟩
        refine ⟨a, ?_⟩
        rw [update_of_ne, ha]
        rintro rfl
        rw [hi] at ha
        cases ha
        exact hk' rfl
      · rintro ⟨a, ha⟩
        exact ⟨a, (hkeep a _ ha).2⟩

end Maps
end Slots
