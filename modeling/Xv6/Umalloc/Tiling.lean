import Xv6.Umalloc.Model

/-! Blocks that tile the memory obtained: they are disjoint and cover each byte. Blocks can be
joined and split, and the order in which they are listed does not matter. -/
namespace Xv6.Umalloc
open List
variable {size size' : ℕ → ℕ} {B B' : List ℕ} {R : List (ℕ × ℕ)} {a b k : ℕ}

def Apart (size : ℕ → ℕ) (a b : ℕ) : Prop := a + hdr * size a ≤ b ∨ b + hdr * size b ≤ a

theorem Apart.symm (h : Apart size a b) : Apart size b a := Or.symm h

private theorem apart_congr (hs : ∀ a ∈ B, size' a = size a) (h : B.Pairwise (Apart size)) :
    B.Pairwise (Apart size') := by
  refine List.Pairwise.imp_of_mem (fun {a b} ha hb hab => ?_) h
  rw [Apart, hs a ha, hs b hb]
  exact hab

private theorem cover_congr (hs : ∀ a ∈ B, size' a = size a) (x : ℕ) :
    (∃ a ∈ B, a ≤ x ∧ x < a + hdr * size' a) ↔ ∃ a ∈ B, a ≤ x ∧ x < a + hdr * size a := by
  constructor
  · rintro ⟨a, ha, hx⟩
    exact ⟨a, ha, by rwa [hs a ha] at hx⟩
  · rintro ⟨a, ha, hx⟩
    exact ⟨a, ha, by rwa [hs a ha]⟩

structure Tiling (size : ℕ → ℕ) (B : List ℕ) (R : List (ℕ × ℕ)) : Prop where
  pos : ∀ a ∈ B, 0 < size a
  apart : B.Pairwise (Apart size)
  cover : ∀ x, (∃ a ∈ B, a ≤ x ∧ x < a + hdr * size a) ↔ ∃ r ∈ R, r.1 ≤ x ∧ x < r.1 + hdr * r.2
  total : (B.map size).sum = (R.map Prod.snd).sum

namespace Tiling

theorem nil : Tiling size [] [] := ⟨by simp, List.Pairwise.nil, by simp, rfl⟩

theorem perm (h : Tiling size B R) (hp : B.Perm B') : Tiling size B' R where
  pos a ha := h.pos a (hp.mem_iff.mpr ha)
  apart := hp.pairwise h.apart fun hab => hab.symm
  cover x := by
    rw [← h.cover x]
    simp only [hp.mem_iff]
  total := by rw [← h.total, (hp.map size).sum_eq]

theorem congr (h : Tiling size B R) (hs : ∀ a ∈ B, size' a = size a) : Tiling size' B R where
  pos a ha := hs a ha ▸ h.pos a ha
  apart := apart_congr hs h.apart
  cover x := (cover_congr hs x).trans (h.cover x)
  total := by rw [← h.total, map_congr_left hs]

theorem not_mem (h : Tiling size (a :: B) R) : a ∉ B := by
  intro ha
  have hp := h.pos a (.head _)
  have hc := rel_of_pairwise_cons h.apart ha
  simp only [Apart, hdr] at hc
  omega

theorem size_le (h : Tiling size B R) (ha : a ∈ B) : size a ≤ (R.map Prod.snd).sum := by
  rw [← h.total]
  exact single_le_sum (fun _ _ => Nat.zero_le _) _ (mem_map_of_mem ha)

theorem size_add_le (h : Tiling size (a :: b :: B) R) : size a + size b ≤ (R.map Prod.snd).sum := by
  rw [← h.total]
  simp only [map_cons, sum_cons]
  omega

theorem join (h : Tiling size (a :: b :: B) R) (hab : a + hdr * size a = b)
    (hs : ∀ x ∈ B, size' x = size x) (hself : size' a = size a + size b) :
    Tiling size' (a :: B) R := by
  have hpa := h.pos a (.head _)
  have hrest := (pairwise_cons.mp h.apart).2
  have htail := (pairwise_cons.mp hrest).2
  refine ⟨fun x hx => ?_, pairwise_cons.mpr ⟨fun x hx => ?_, ?_⟩, fun x => ?_, ?_⟩
  · rcases mem_cons.mp hx with rfl | hx
    · omega
    · rw [hs x hx]
      exact h.pos x (.tail _ (.tail _ hx))
  · have h1 := rel_of_pairwise_cons h.apart (.tail b hx)
    have h2 := rel_of_pairwise_cons hrest hx
    have hpx := h.pos x (.tail _ (.tail _ hx))
    have hpb := h.pos b (.tail _ (.head _))
    unfold Apart at h1 h2 ⊢
    rw [hs x hx, hself]
    simp only [hdr] at *
    omega
  · exact apart_congr hs htail
  · rw [← h.cover x]
    simp only [mem_cons, exists_eq_or_imp, hself]
    rw [cover_congr hs x, ← or_assoc]
    refine or_congr ?_ Iff.rfl
    simp only [hdr] at *
    omega
  · have ht := h.total
    simp only [map_cons, sum_cons] at ht ⊢
    rw [map_congr_left hs, hself, ← ht]
    omega

theorem split (h : Tiling size (a :: B) R) (hk : 0 < k) (hlt : k < size a)
    (hb : b = a + hdr * (size a - k)) (hs : ∀ x ∈ B, size' x = size x)
    (hself : size' a = size a - k) (hnew : size' b = k) : Tiling size' (a :: b :: B) R := by
  have htail := (pairwise_cons.mp h.apart).2
  have hcross : ∀ x ∈ B, Apart size' a x ∧ Apart size' b x := by
    intro x hx
    have h1 := rel_of_pairwise_cons h.apart hx
    have hpx := h.pos x (.tail _ hx)
    unfold Apart at h1 ⊢
    rw [hs x hx, hself, hnew]
    simp only [hdr] at *
    omega
  refine ⟨fun x hx => ?_, pairwise_cons.mpr ⟨fun x hx => ?_, pairwise_cons.mpr
    ⟨fun x hx => (hcross x hx).2, ?_⟩⟩, fun x => ?_, ?_⟩
  · rcases mem_cons.mp hx with rfl | hx
    · omega
    rcases mem_cons.mp hx with rfl | hx
    · omega
    · rw [hs x hx]
      exact h.pos x (.tail _ hx)
  · rcases mem_cons.mp hx with rfl | hx
    · unfold Apart
      rw [hself]
      omega
    · exact (hcross x hx).1
  · exact apart_congr hs htail
  · rw [← h.cover x]
    simp only [mem_cons, exists_eq_or_imp, hself, hnew]
    rw [cover_congr hs x, ← or_assoc]
    refine or_congr ?_ Iff.rfl
    simp only [hdr] at *
    omega
  · have ht := h.total
    simp only [map_cons, sum_cons] at ht ⊢
    rw [map_congr_left hs, hself, hnew, ← ht]
    omega

theorem add (h : Tiling size B R) (hk : 0 < k) (hfar : ∀ x ∈ B, x + hdr * size x ≤ a)
    (hs : ∀ x ∈ B, size' x = size x) (hself : size' a = k) :
    Tiling size' (a :: B) ((a, k) :: R) := by
  have h' := h.congr hs
  refine ⟨fun x hx => ?_, pairwise_cons.mpr ⟨fun x hx => ?_, h'.apart⟩, fun x => ?_, ?_⟩
  · rcases mem_cons.mp hx with rfl | hx
    · omega
    · exact h'.pos x hx
  · right
    rw [hs x hx]
    exact hfar x hx
  · have hc := h'.cover x
    simp only [mem_cons, exists_eq_or_imp, hself, hc]
  · simp only [map_cons, sum_cons, hself, h'.total]

end Tiling
end Xv6.Umalloc
