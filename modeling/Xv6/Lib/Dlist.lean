import Mathlib.Tactic

/-! Circular doubly linked lists by pointers. The nodes are those of a type and a head `none`,
which is linked to the first and to the last node. -/
namespace Dlist
open Function List
variable {α : Type*}

structure Links (α : Type*) where
  prev : Option α → Option α
  next : Option α → Option α

variable {L : Links α} {x y : Option α} {a b : α} {l l₁ l₂ : List α}

/-- From node `x` the pointers lead through `l` to node `y`, and back. -/
def Seg (L : Links α) : Option α → List α → Option α → Prop
  | x, [], y => L.next x = y ∧ L.prev y = x
  | x, a :: l, y => L.next x = some a ∧ L.prev (some a) = x ∧ Seg L (some a) l y

def Linked (L : Links α) (l : List α) : Prop := Seg L none l none

theorem seg_append_cons :
    Seg L x (l₁ ++ a :: l₂) y ↔ Seg L x l₁ (some a) ∧ Seg L (some a) l₂ y := by
  induction l₁ generalizing x with
  | nil => exact and_assoc.symm
  | cons c l₁ ih => simp only [cons_append, Seg, ih, and_assoc]

def Links.empty : Links α := ⟨fun _ => none, fun _ => none⟩

theorem linked_empty : Linked (.empty : Links α) [] := ⟨rfl, rfl⟩

theorem Seg.prev_mem (h : Seg L x (l₁ ++ b :: l₂) y) : L.prev (some b) ∈ x :: l₁.map some := by
  induction l₁ generalizing x with
  | nil =>
    rw [h.2.1]
    exact mem_cons_self
  | cons c l₁ ih => exact mem_cons_of_mem x (ih h.2.2)

theorem Seg.next_mem (h : Seg L (some b) l₂ y) : L.next (some b) ∈ l₂.map some ++ [y] := by
  cases l₂ with
  | nil | cons c l₂ => simp [h.1]

/-- A loop along the pointers `go` from a node on, for a node that satisfies `p`. -/
def scan (go : Option α → Option α) (p : α → Bool) : ℕ → Option α → Option α
  | 0, _ => none
  | _, none => none
  | fuel + 1, some a => if p a then some a else scan go p fuel (go (some a))

theorem scan_none (go : Option α → Option α) (p : α → Bool) (fuel : ℕ) :
    scan go p fuel none = none := by
  cases fuel <;> rfl

theorem scan_next (p : α → Bool) {fuel : ℕ} (h : Seg L x l none) (hf : l.length ≤ fuel) :
    scan L.next p fuel (L.next x) = l.find? p := by
  induction l generalizing x fuel with
  | nil => rw [h.1, scan_none, List.find?_nil]
  | cons a l ih =>
    obtain ⟨fuel, rfl⟩ : ∃ k, fuel = k + 1 := ⟨fuel - 1, by simp only [length_cons] at hf; omega⟩
    rw [h.1, scan, List.find?_cons, ih h.2.2 (Nat.le_of_succ_le_succ hf)]
    cases p a <;> rfl

theorem Seg.reverse (h : Seg L x l y) : Seg ⟨L.next, L.prev⟩ y l.reverse x := by
  induction l generalizing x with
  | nil => exact ⟨h.2, h.1⟩
  | cons a l ih =>
    rw [reverse_cons]
    exact seg_append_cons.mpr ⟨ih h.2.2, h.2.1, h.1⟩

theorem scan_prev (p : α → Bool) {fuel : ℕ} (h : Linked L l) (hf : l.length ≤ fuel) :
    scan L.prev p fuel (L.prev none) = l.reverse.find? p :=
  scan_next p h.reverse (by rwa [length_reverse])

variable [DecidableEq α]

namespace Links

@[simps -fullyApplied] def setPrev (L : Links α) (x y : Option α) : Links α :=
  { L with prev := update L.prev x y }

@[simps -fullyApplied] def setNext (L : Links α) (x y : Option α) : Links α :=
  { L with next := update L.next x y }

end Links

theorem Seg.setPrev {z : Option α} (h : Seg L x l y) (hz : z ∉ l.map some) (hy : z ≠ y)
    (w : Option α) : Seg (L.setPrev z w) x l y := by
  induction l generalizing x with
  | nil => exact ⟨h.1, by rw [Links.setPrev_prev, update_of_ne hy.symm]; exact h.2⟩
  | cons a l ih =>
    rw [map_cons, mem_cons, not_or] at hz
    refine ⟨h.1, ?_, ih h.2.2 hz.2⟩
    rw [Links.setPrev_prev, update_of_ne (Ne.symm hz.1)]
    exact h.2.1

theorem Seg.setNext {z : Option α} (h : Seg L x l y) (hx : z ≠ x) (hz : z ∉ l.map some)
    (w : Option α) : Seg (L.setNext z w) x l y := by
  induction l generalizing x with
  | nil => exact ⟨by rw [Links.setNext_next, update_of_ne hx.symm]; exact h.1, h.2⟩
  | cons a l ih =>
    rw [map_cons, mem_cons, not_or] at hz
    refine ⟨?_, h.2.1, ih h.2.2 hz.1 hz.2⟩
    rw [Links.setNext_next, update_of_ne hx.symm]
    exact h.1

def Links.pushFront (L : Links α) (b : α) : Links α :=
  let L := L.setNext (some b) (L.next none)
  let L := L.setPrev (some b) none
  let L := L.setPrev (L.next none) (some b)
  L.setNext none (some b)

attribute [local simp] Links.pushFront

def Links.unlink (L : Links α) (b : α) : Links α :=
  let L := L.setPrev (L.next (some b)) (L.prev (some b))
  L.setNext (L.prev (some b)) (L.next (some b))

theorem Linked.pushFront (h : Linked L l) (hb : b ∉ l) (hl : l.Nodup) :
    Linked (L.pushFront b) (b :: l) := by
  cases l with
  | nil =>
    obtain ⟨h1, h2⟩ := h
    refine ⟨?_, ?_, ?_, ?_⟩ <;> simp [h1]
  | cons c l =>
    obtain ⟨h1, h2, h3⟩ := h
    have hcb : c ≠ b := fun hc => hb (hc ▸ mem_cons_self)
    have hbl : b ∉ l := fun hc => hb (mem_cons_of_mem c hc)
    have hcl : c ∉ l := (nodup_cons.mp hl).1
    refine ⟨?_, ?_, ?_, ?_, ?_⟩
    · simp
    · simp [h1, hcb.symm]
    · simp [h1]
    · simp [h1]
    · have hs := (((h3.setNext (z := some b) (by simp [hcb.symm]) (by simp [hbl])
        (L.next none)).setPrev (z := some b) (by simp [hbl]) (by simp) none).setPrev
        (z := some c) (by simp [hcl]) (by simp) (some b)).setNext (z := none)
        (by simp) (by simp) (some b)
      have heq : L.pushFront b =
          ((((L.setNext (some b) (L.next none)).setPrev (some b) none).setPrev
          (some c) (some b)).setNext none (some b)) := by
        simp [h1]
      rw [heq]
      exact hs

theorem Seg.unlink (h : Seg L x (l₁ ++ b :: l₂) none) (hl : (l₁ ++ b :: l₂).Nodup)
    (hx : x ∉ (l₁ ++ b :: l₂).map some) : Seg (L.unlink b) x (l₁ ++ l₂) none := by
  have hnext := (seg_append_cons.mp h).2.next_mem
  have hself : L.next (some b) ≠ some b := by
    intro hc
    rw [hc] at hnext
    have hbl := (nodup_cons.mp (nodup_append.mp hl).2.1).1
    simp [hbl] at hnext
  have heq : L.unlink b = (L.setPrev (L.next (some b)) (L.prev (some b))).setNext
      (L.prev (some b)) (L.next (some b)) := by
    simp [Links.unlink, hself.symm]
  rw [heq]
  induction l₁ generalizing x with
  | nil =>
    obtain ⟨h1, h2, h3⟩ := h
    rw [nil_append] at hl hx ⊢
    rw [h2]
    cases l₂ with
    | nil =>
      rw [h3.1]
      exact ⟨by simp, by simp⟩
    | cons c l₂ =>
      obtain ⟨h4, h5, h6⟩ := h3
      simp only [map_cons, mem_cons, not_or] at hx
      have hc := (nodup_cons.mp (nodup_cons.mp hl).2).1
      rw [h4]
      refine ⟨by simp, by simp, ?_⟩
      exact (h6.setPrev (by simpa using hc) (by simp) x).setNext hx.2.1 hx.2.2 (some c)
  | cons a l₁ ih =>
    obtain ⟨h1, h2, h3⟩ := h
    have hprev := h3.prev_mem
    rw [cons_append] at hl hx
    have hnd := nodup_cons.mp hl
    rw [map_cons, mem_cons, not_or] at hx
    have ha : some a ∉ (l₁ ++ b :: l₂).map some := by simpa using hnd.1
    refine ⟨?_, ?_, ih h3 hnd.2 ha⟩
    · rw [Links.setNext_next, update_of_ne]
      · exact h1
      · intro hc
        rw [← hc] at hprev
        rcases mem_cons.mp hprev with hp | hp
        · exact hx.1 hp
        · exact hx.2 (by rw [map_append]; exact mem_append_left _ hp)
    · rw [Links.setNext_prev, Links.setPrev_prev, update_of_ne]
      · exact h2
      · intro hc
        rw [← hc] at hnext
        apply hnd.1
        rcases mem_append.mp hnext with hn | hn
        · simp only [mem_map, Option.some.injEq, exists_eq_right] at hn
          simp [hn]
        · simp at hn

theorem Linked.unlink (h : Linked L (l₁ ++ b :: l₂)) (hl : (l₁ ++ b :: l₂).Nodup) :
    Linked (L.unlink b) (l₁ ++ l₂) := Seg.unlink h hl (by simp)

end Dlist
