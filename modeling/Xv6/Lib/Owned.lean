import Mathlib.Tactic

/-! Resources with exactly one owner. A slot holds a resource or `null`; the live resources are
those that some slot holds, and no two slots hold the same one. -/
namespace Ownership
variable {σ β : Type} {null : β} {live live' : β → Prop} {slot slot' : σ → β}

structure Owned (null : β) (live : β → Prop) (slot : σ → β) : Prop where
  live_slot : ∀ x, slot x ≠ null → live (slot x)
  inj : ∀ x y, slot x ≠ null → slot x = slot y → x = y
  owner : ∀ b, live b → ∃ x, slot x = b ∧ slot x ≠ null

namespace Owned
variable (h : Owned null live slot)
include h

theorem congr (hl : ∀ b, live' b ↔ live b)
    (hs : ∀ x, slot' x = slot x) : Owned null live' slot' := by
  have hlive : live' = live := funext fun b => propext (hl b)
  have hslot : slot' = slot := funext hs
  rw [hlive, hslot]
  exact h

theorem live_iff {b : β} (hb : b ≠ null) : live b ↔ ∃! x, slot x = b := by
  constructor
  · intro hl
    obtain ⟨x, hx, hn⟩ := h.owner b hl
    refine ⟨x, hx, fun y hy => ?_⟩
    exact (h.inj x y hn (hx.trans hy.symm)).symm
  · rintro ⟨x, hx, _⟩
    rw [← hx]
    exact h.live_slot x (hx ▸ hb)

theorem slot_ne {b : β} (hb : ¬ live b) (hn : b ≠ null) (x : σ) : slot x ≠ b := by
  rintro rfl
  exact hb (h.live_slot x hn)

theorem claim {x : σ} {b : β} (hx : slot x = null) (hb : ¬ live b)
    (hn : b ≠ null) (hself : slot' x = b) (hother : ∀ y ≠ x, slot' y = slot y)
    (hl : ∀ c, live' c ↔ c = b ∨ live c) : Owned null live' slot' where
  live_slot y hy := by
    rw [hl]
    by_cases hyx : y = x
    · rw [hyx]
      exact .inl hself
    · rw [hother y hyx] at hy ⊢
      exact .inr (h.live_slot y hy)
  inj y z hy hyz := by
    by_cases hyx : y = x
    · by_cases hzx : z = x
      · rw [hyx, hzx]
      · rw [hyx, hself, hother z hzx] at hyz
        exact absurd hyz.symm (h.slot_ne hb hn z)
    rw [hother y hyx] at hy hyz
    by_cases hzx : z = x
    · rw [hzx, hself] at hyz
      exact absurd hyz (h.slot_ne hb hn y)
    · rw [hother z hzx] at hyz
      exact h.inj y z hy hyz
  owner c hc := by
    rcases (hl c).mp hc with rfl | hc
    · exact ⟨x, hself, by rwa [hself]⟩
    obtain ⟨y, hy, hyn⟩ := h.owner c hc
    have hyx : y ≠ x := by
      rintro rfl
      exact hyn hx
    exact ⟨y, by rw [hother y hyx, hy], by rwa [hother y hyx]⟩

theorem release (S : σ → Prop) (hself : ∀ x, S x → slot' x = null)
    (hother : ∀ x, ¬ S x → slot' x = slot x)
    (hl : ∀ c, live' c ↔ live c ∧ ∀ x, S x → slot x ≠ c) : Owned null live' slot' := by
  have hkept : ∀ x, slot' x ≠ null → ¬ S x := fun x hx hs => hx (hself x hs)
  refine ⟨?_, ?_, ?_⟩
  · intro x hx
    have hs := hkept x hx
    rw [hother x hs] at hx ⊢
    refine (hl _).mpr ⟨h.live_slot x hx, fun y hy he => hs ?_⟩
    rwa [h.inj x y hx he.symm]
  · intro x y hx hxy
    have hs := hkept x hx
    have ht := hkept y (hxy ▸ hx)
    rw [hother x hs] at hx hxy
    rw [hother y ht] at hxy
    exact h.inj x y hx hxy
  · intro c hc
    obtain ⟨hc, hout⟩ := (hl c).mp hc
    obtain ⟨x, hx, hn⟩ := h.owner c hc
    have hs : ¬ S x := fun hs => hout x hs hx
    exact ⟨x, by rw [hother x hs, hx], by rwa [hother x hs]⟩

end Owned

section Held
variable {P : Type} {has has' : P → List β}

/-- The live resources are those that some party holds, and each is held once. -/
structure Held (live : β → Prop) (has : P → List β) : Prop where
  live_of_mem : ∀ p b, b ∈ has p → live b
  nodup : ∀ p, (has p).Nodup
  disjoint : ∀ p q b, b ∈ has p → b ∈ has q → p = q
  holder : ∀ b, live b → ∃ p, b ∈ has p

namespace Held

theorem init (hl : ∀ b, ¬ live b) : Held live fun _ : P => [] where
  live_of_mem _ _ hb := absurd hb List.not_mem_nil
  nodup _ := List.nodup_nil
  disjoint _ _ _ hb := absurd hb List.not_mem_nil
  holder b hb := absurd hb (hl b)

theorem live_iff (h : Held live has) {b : β} : live b ↔ ∃! p, b ∈ has p := by
  constructor
  · intro hb
    obtain ⟨p, hp⟩ := h.holder b hb
    exact ⟨p, hp, fun q hq => h.disjoint q p b hq hp⟩
  · rintro ⟨p, hp, _⟩
    exact h.live_of_mem p b hp

theorem take (h : Held live has) {p : P} {l : List β} (hp : has p = []) (hn : l.Nodup)
    (hfree : ∀ b ∈ l, ¬ live b) (hself : has' p = l) (hother : ∀ q ≠ p, has' q = has q)
    (hl : ∀ b, live' b ↔ b ∈ l ∨ live b) : Held live' has' where
  live_of_mem q b hb := by
    rw [hl]
    by_cases hq : q = p
    · rw [hq, hself] at hb
      exact .inl hb
    · rw [hother q hq] at hb
      exact .inr (h.live_of_mem q b hb)
  nodup q := by
    by_cases hq : q = p
    · rwa [hq, hself]
    · rw [hother q hq]
      exact h.nodup q
  disjoint q r b hq hr := by
    by_cases hqp : q = p <;> by_cases hrp : r = p
    · rw [hqp, hrp]
    · rw [hqp, hself] at hq
      rw [hother r hrp] at hr
      exact absurd (h.live_of_mem r b hr) (hfree b hq)
    · rw [hrp, hself] at hr
      rw [hother q hqp] at hq
      exact absurd (h.live_of_mem q b hq) (hfree b hr)
    · rw [hother q hqp] at hq
      rw [hother r hrp] at hr
      exact h.disjoint q r b hq hr
  holder b hb := by
    rcases (hl b).mp hb with hb | hb
    · exact ⟨p, by rwa [hself]⟩
    obtain ⟨q, hq⟩ := h.holder b hb
    have hqp : q ≠ p := by
      rintro rfl
      simp [hp] at hq
    exact ⟨q, by rwa [hother q hqp]⟩

theorem give (h : Held live has) {p : P} (hself : has' p = []) (hother : ∀ q ≠ p, has' q = has q)
    (hl : ∀ b, live' b ↔ live b ∧ b ∉ has p) : Held live' has' := by
  have hkept q b (hb : b ∈ has' q) : q ≠ p ∧ b ∈ has q := by
    have hq : q ≠ p := by
      rintro rfl
      simp [hself] at hb
    exact ⟨hq, by rwa [hother q hq] at hb⟩
  refine ⟨fun q b hb => ?_, fun q => ?_, fun q r b hq hr => ?_, fun b hb => ?_⟩
  · obtain ⟨hq, hb⟩ := hkept q b hb
    exact (hl b).mpr ⟨h.live_of_mem q b hb, fun hp => hq (h.disjoint q p b hb hp)⟩
  · by_cases hq : q = p
    · rw [hq, hself]
      exact List.nodup_nil
    · rw [hother q hq]
      exact h.nodup q
  · exact h.disjoint q r b (hkept q b hq).2 (hkept r b hr).2
  obtain ⟨hb, hp⟩ := (hl b).mp hb
  obtain ⟨q, hq⟩ := h.holder b hb
  have hqp : q ≠ p := by
    rintro rfl
    exact hp hq
  exact ⟨q, by rwa [hother q hqp]⟩

end Held
end Held
end Ownership
