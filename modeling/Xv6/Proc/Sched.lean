import Xv6.Params

/-! Sleeping and waking, after `proc.c`. What `sleep`, `wakeup`, `kill` and the scheduler do to one
entry of the process table is one critical section under its lock. -/
namespace Xv6.Proc

inductive ProcState where
  | unused
  | used
  | sleeping
  | runnable
  | running
  | zombie
  deriving DecidableEq

/-- The fields of `struct proc` for scheduling; `C` is the type of the channels. -/
structure Sched (C : Type) where
  state : ProcState
  chan : Option C
  killed : Bool
  deriving DecidableEq

namespace Sched
variable {C : Type}

@[grind] def SleepsOn (p : Sched C) (c : C) : Prop := p.state = .sleeping ∧ p.chan = some c

instance [DecidableEq C] (p : Sched C) (c : C) : Decidable (p.SleepsOn c) :=
  inferInstanceAs (Decidable (_ ∧ _))

@[simps, grind]
def sleep (p : Sched C) (c : C) : Sched C := { p with state := .sleeping, chan := some c }

@[grind] def wakeup [DecidableEq C] (p : Sched C) (c : C) : Sched C :=
  if p.SleepsOn c then { p with state := .runnable } else p

@[simps, grind] def kill (p : Sched C) : Sched C :=
  { p with killed := true, state := if p.state = .sleeping then .runnable else p.state }

/-- The scheduler switches to the process, which leaves `sleep` or `yield` and gives its lock
back. -/
@[simps, grind] def resume (p : Sched C) : Sched C := { p with state := .running, chan := none }

@[simps, grind] def yield (p : Sched C) : Sched C := { p with state := .runnable }

theorem sleepsOn_sleep {p : Sched C} {c d : C} : (p.sleep c).SleepsOn d ↔ d = c := by
  simp [SleepsOn, eq_comm]

theorem sleepsOn_wakeup [DecidableEq C] {p : Sched C} {c d : C} :
    (p.wakeup c).SleepsOn d ↔ p.SleepsOn d ∧ d ≠ c := by
  unfold wakeup
  split
  next hc =>
    simp only [SleepsOn, reduceCtorEq, false_and, false_iff, not_and, not_not]
    rintro ⟨_, hd⟩
    rw [hc.2] at hd
    cases hd
    rfl
  next hc =>
    refine ⟨fun hd => ⟨hd, ?_⟩, fun hd => hd.1⟩
    rintro rfl
    exact hc hd

@[simp] theorem wakeup_killed [DecidableEq C] (p : Sched C) (c : C) :
    (p.wakeup c).killed = p.killed := by
  unfold wakeup
  split <;> rfl

@[simp] theorem wakeup_chan [DecidableEq C] (p : Sched C) (c : C) :
    (p.wakeup c).chan = p.chan := by
  unfold wakeup
  split <;> rfl

theorem not_sleepsOn_kill {p : Sched C} {c : C} : ¬ p.kill.SleepsOn c := by
  unfold SleepsOn
  rw [kill_state]
  split <;> simp_all

end Sched

/-- One round of the loop in `wakeup(chan)`, called by `me`: the process in slot `k`. -/
def wakeupAt {C : Type} [DecidableEq C] {N : ℕ} (procs : Fin N → Sched C) (me : Fin N) (c : C)
    (k : ℕ) : Fin N → Sched C :=
  fun q => if q.val = k ∧ q ≠ me then (procs q).wakeup c else procs q

theorem sleepsOn_wakeupAt {C : Type} [DecidableEq C] {N : ℕ} {procs : Fin N → Sched C}
    {me q : Fin N} {c d : C} {k : ℕ} : (wakeupAt procs me c k q).SleepsOn d ↔
      (procs q).SleepsOn d ∧ ¬ (q.val = k ∧ q ≠ me ∧ d = c) := by
  unfold wakeupAt
  split
  next h =>
    rw [Sched.sleepsOn_wakeup]
    simp [h.1, h.2]
  next h =>
    refine ⟨fun hs => ⟨hs, fun hc => h ⟨hc.1, hc.2.1⟩⟩, fun hs => hs.1⟩

@[simp] theorem wakeupAt_killed {C : Type} [DecidableEq C] {N : ℕ} (procs : Fin N → Sched C)
    (me q : Fin N) (c : C) (k : ℕ) : (wakeupAt procs me c k q).killed = (procs q).killed := by
  unfold wakeupAt
  split <;> simp

theorem wakeupAt_state {C : Type} [DecidableEq C] {N : ℕ} (procs : Fin N → Sched C)
    (me q : Fin N) (c : C) (k : ℕ) : (wakeupAt procs me c k q).state = (procs q).state ∨
      (procs q).state = .sleeping ∧ (wakeupAt procs me c k q).state = .runnable := by
  unfold wakeupAt
  split
  · unfold Sched.wakeup
    split
    next hs => exact .inr ⟨hs.1, rfl⟩
    · exact .inl rfl
  · exact .inl rfl

@[simp] theorem wakeupAt_chan {C : Type} [DecidableEq C] {N : ℕ} (procs : Fin N → Sched C)
    (me q : Fin N) (c : C) (k : ℕ) : (wakeupAt procs me c k q).chan = (procs q).chan := by
  unfold wakeupAt
  split <;> simp

end Xv6.Proc
