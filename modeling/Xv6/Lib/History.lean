import Mathlib.Tactic

/-! Histories of a store that is read and written at single addresses, and what it means that a
history is one of a plain array. -/
namespace History
variable {α β : Type*} [DecidableEq α]

inductive Event (α β : Type*) where
  | read (a : α) (v : β)
  | write (a : α) (v : β)

/-- The array after the events, when it starts as `d`: each address holds its last write. -/
def replay (d : α → β) : List (Event α β) → α → β
  | [] => d
  | .read _ _ :: es => replay d es
  | .write a v :: es => replay (Function.update d a v) es

/-- Every read returns what a plain array that starts as `d` holds at that moment. -/
def Legal (d : α → β) : List (Event α β) → Prop
  | [] => True
  | .read a v :: es => v = d a ∧ Legal d es
  | .write a v :: es => Legal (Function.update d a v) es

@[simp] theorem replay_append_read (d : α → β) (es : List (Event α β)) (a : α) (v : β) :
    replay d (es ++ [.read a v]) = replay d es := by
  induction es generalizing d with
  | nil => rfl
  | cons e es ih => cases e <;> exact ih _

@[simp] theorem replay_append_write (d : α → β) (es : List (Event α β)) (a : α) (v : β) :
    replay d (es ++ [.write a v]) = Function.update (replay d es) a v := by
  induction es generalizing d with
  | nil => rfl
  | cons e es ih => cases e <;> exact ih _

theorem legal_append_read {d : α → β} {es : List (Event α β)} {a : α} {v : β} :
    Legal d (es ++ [.read a v]) ↔ Legal d es ∧ v = replay d es a := by
  induction es generalizing d with
  | nil => simp [Legal, replay]
  | cons e es ih =>
    cases e with
    | read b w => simp only [List.cons_append, Legal, replay, ih, and_assoc]
    | write b w => exact ih

theorem legal_append_write {d : α → β} {es : List (Event α β)} {a : α} {v : β} :
    Legal d (es ++ [.write a v]) ↔ Legal d es := by
  induction es generalizing d with
  | nil => simp [Legal]
  | cons e es ih =>
    cases e with
    | read b w => simp only [List.cons_append, Legal, ih]
    | write b w => exact ih

end History
