import Mathlib.Tactic

/-! Stores updated by lists of writes. A write list is applied from its head; a crash
keeps a prefix of it. -/
namespace Writes
open Function List
variable {α β : Type*} [DecidableEq α]

def applyWrites (d : α → β) (ws : List (α × β)) : α → β :=
  ws.foldl (fun d w => update d w.1 w.2) d

@[simp] theorem applyWrites_nil (d : α → β) : applyWrites d [] = d := rfl

@[simp] theorem applyWrites_cons (d : α → β) (w : α × β) (ws : List (α × β)) :
    applyWrites d (w :: ws) = applyWrites (update d w.1 w.2) ws := rfl

theorem applyWrites_append (d : α → β) (ws vs : List (α × β)) :
    applyWrites d (ws ++ vs) = applyWrites (applyWrites d ws) vs := foldl_append ..

theorem applyWrites_concat (d : α → β) (ws : List (α × β)) (w : α × β) :
    applyWrites d (ws ++ [w]) = update (applyWrites d ws) w.1 w.2 := by
  rw [applyWrites_append]
  rfl

theorem applyWrites_of_notMem {ws : List (α × β)} {a : α} (h : a ∉ ws.map Prod.fst)
    (d : α → β) : applyWrites d ws a = d a := by
  induction ws generalizing d with
  | nil => rfl
  | cons w ws ih =>
    simp only [map_cons, mem_cons, not_or] at h
    rw [applyWrites_cons, ih h.2, update_of_ne h.1]

/-- When all writes to an address agree, that address ends with their common value. -/
theorem applyWrites_of_mem {ws : List (α × β)} {a : α} {v : β} (h : a ∈ ws.map Prod.fst)
    (hv : ∀ w ∈ ws, w.1 = a → w.2 = v) (d : α → β) : applyWrites d ws a = v := by
  induction ws generalizing d with
  | nil => simp at h
  | cons w ws ih =>
    have htail : ∀ u ∈ ws, u.1 = a → u.2 = v := fun u hu => hv u (mem_cons_of_mem _ hu)
    by_cases ha : a ∈ ws.map Prod.fst
    · exact ih ha htail _
    have hw : w.1 = a := by
      rw [map_cons, mem_cons] at h
      exact (h.resolve_right ha).symm
    rw [applyWrites_cons, applyWrites_of_notMem ha, ← hw, update_self, hv w mem_cons_self hw]

/-- A property kept by every write of a list holds after any prefix of it. -/
theorem applyWrites_take_induction {P : (α → β) → Prop} {ws : List (α × β)}
    (hstep : ∀ d, P d → ∀ w ∈ ws, P (update d w.1 w.2)) (k : ℕ) :
    ∀ d, P d → P (applyWrites d (ws.take k)) := by
  induction ws generalizing k with
  | nil => simp
  | cons w ws ih =>
    intro d hd
    cases k with
    | zero => simpa using hd
    | succ k =>
      rw [take_succ_cons, applyWrites_cons]
      exact ih (fun d hd u hu => hstep d hd u (mem_cons_of_mem _ hu)) k _
        (hstep d hd w mem_cons_self)

/-- A prefix of two write lists in sequence either stays in the first or has all of it. -/
theorem applyWrites_take_append (d : α → β) (ws vs : List (α × β)) (k : ℕ) :
    applyWrites d ((ws ++ vs).take k) =
      if k ≤ ws.length then applyWrites d (ws.take k)
      else applyWrites (applyWrites d ws) (vs.take (k - ws.length)) := by
  split
  next h => rw [take_append_of_le_length h]
  next h =>
    rw [take_append, take_of_length_le (by omega), applyWrites_append]

end Writes
