import Xv6.Lib.Transition
import Xv6.Proc.Sched

/-! The life of a process, after `proc.c`: `fork`, `exit`, `wait` and `kill`. A step is one critical
section under `wait_lock` or the lock of a process; while a process holds `wait_lock` others can
still take the locks of processes. -/
namespace Xv6.Proc
open Function

def toInt (x : ℤ) : ℤ := x.bmod (2 ^ 32)

/-- Where a process is in the kernel. The arguments are the local variables that are still needed;
`k` is the slot that `wakeup` looks at next, `j` the slot of a loop under `wait_lock`, and `addr`
says whether the argument of `wait` is not zero. -/
inductive Pc (N : ℕ) where
  | user
  /-- No kernel thread: an unused slot, one being set up, or a zombie. -/
  | none
  | forkScan (k : ℕ)
  /-- `np->lock` has been released. -/
  | forkParent (np : Fin N)
  | forkRunnable (np : Fin N)
  | exitLock (status : ℤ)
  | reparent (status : ℤ) (j : ℕ)
  /-- `wakeup(initproc)` in `reparent`. -/
  | reparentWake (status : ℤ) (j k : ℕ)
  | exitWake (status : ℤ) (k : ℕ)
  | exitZombie (status : ℤ)
  | waitLock (addr : Bool)
  | waitScan (addr : Bool) (j : ℕ) (havekids : Bool)
  /-- `if(!havekids || killed(p))`. -/
  | waitTest (addr havekids : Bool)
  | waitSleep (addr : Bool)
  /-- In `sleep`, without `wait_lock`. -/
  | waitAsleep (addr : Bool)
  | killScan (pid : ℤ) (k : ℕ)
  deriving DecidableEq

namespace Pc
variable {N : ℕ}

/-- The program points between `acquire(&wait_lock)` and `release(&wait_lock)`. -/
def holds : Pc N → Bool
  | reparent _ _ | reparentWake _ _ _ | exitWake _ _ | exitZombie _ | waitScan _ _ _ | waitTest _ _
  | waitSleep _ => true
  | _ => false

def exits : Pc N → Bool
  | exitLock _ | reparent _ _ | reparentWake _ _ _ | exitWake _ _ | exitZombie _ => true
  | _ => false

def child : Pc N → Option (Fin N)
  | forkParent np | forkRunnable np => some np
  | _ => Option.none

end Pc

/-- The fields of `struct proc` that the four calls use. The channel of `wait` is the process. -/
structure Slot (N : ℕ) where
  sched : Sched (Fin N)
  pid : ℤ
  xstate : ℤ
  parent : Option (Fin N)

/-- What the history of a run records of a process: the slot, and how many processes have had it. -/
inductive Event (N : ℕ) where
  | exited (p : Fin N) (gen : ℕ) (status : ℤ)
  | reaped (p : Fin N) (gen : ℕ) (status : ℤ) (parent : Option (Fin N)) (reaper : Fin N)
  deriving DecidableEq

structure State (N : ℕ) where
  slot : Fin N → Slot N
  initproc : Fin N
  nextpid : ℤ
  waitLock : Option (Fin N)
  pc : Fin N → Pc N
  /-- What the last call returned, `none` for -1. -/
  ret : Fin N → Option ℤ
  gen : Fin N → ℕ
  events : List (Event N)

variable {N : ℕ}

def Slot.free : Slot N := ⟨⟨.unused, none, false⟩, 0, 0, none⟩

namespace State

@[simps -fullyApplied, grind] def setPc (s : State N) (p : Fin N) (c : Pc N) : State N :=
  { s with pc := update s.pc p c }

@[simps -fullyApplied, grind]
def setSched (s : State N) (p : Fin N) (x : Sched (Fin N)) : State N :=
  { s with slot := update s.slot p { s.slot p with sched := x } }

@[simps -fullyApplied, grind]
def setParent (s : State N) (q : Fin N) (p : Option (Fin N)) : State N :=
  { s with slot := update s.slot q { s.slot q with parent := p } }

@[simps -fullyApplied, grind] def acquire (s : State N) (p : Fin N) : State N :=
  { s with waitLock := some p }

@[simps -fullyApplied, grind] def release (s : State N) : State N := { s with waitLock := none }

@[simps -fullyApplied, grind] def leave (s : State N) (p : Fin N) (r : Option ℤ) : State N :=
  { s with pc := update s.pc p .user, ret := update s.ret p r }

/-- One round of the loop in `wakeup(chan)`, called by `p`. -/
@[simps -fullyApplied, grind]
def wakeupAt (s : State N) (p : Fin N) (chan : Option (Fin N)) (k : ℕ) : State N :=
  { s with slot := fun q => match chan with
      | none => s.slot q
      | some c => { s.slot q with sched := Proc.wakeupAt (fun r => (s.slot r).sched) p c k q } }

/-- `allocproc` has found slot `np` unused: a new pid, and the state `USED`. -/
@[simps -fullyApplied, grind] def alloc (s : State N) (np : Fin N) : State N :=
  { s with
    slot := update s.slot np
      { s.slot np with sched := { (s.slot np).sched with state := .used }, pid := s.nextpid }
    nextpid := toInt (s.nextpid + 1)
    gen := update s.gen np (s.gen np + 1) }

/-- `allocproc` or `uvmcopy` runs out of memory, and `freeproc` clears the slot. -/
@[simps -fullyApplied, grind] def allocFails (s : State N) (np : Fin N) : State N :=
  { s with slot := update s.slot np .free, nextpid := toInt (s.nextpid + 1) }

@[simps -fullyApplied, grind] def zombie (s : State N) (p : Fin N) (status : ℤ) : State N :=
  { s with
    slot := update s.slot p
      { s.slot p with xstate := status, sched := { (s.slot p).sched with state := .zombie } }
    waitLock := none
    pc := update s.pc p .none
    events := .exited p (s.gen p) status :: s.events }

/-- `wait` of process `p` frees its zombie child `q`. -/
@[simps -fullyApplied, grind] def reap (s : State N) (p q : Fin N) : State N :=
  { s with
    slot := update s.slot q .free
    waitLock := none
    events := .reaped q (s.gen q) (s.slot q).xstate (s.slot q).parent p :: s.events }

end State

/-- One step of process `p`; `ok` is the outcome of the allocations in `fork` and of the `copyout`
in `wait`. -/
def step (s : State N) (p : Fin N) (ok : Bool) : Option (State N) :=
  match s.pc p with
  | .user | .none => none
  | .forkScan k =>
    if h : k < N then
      if (s.slot ⟨k, h⟩).sched.state = .unused then
        if ok then some ((s.alloc ⟨k, h⟩).setPc p (.forkParent ⟨k, h⟩))
        else some ((s.allocFails ⟨k, h⟩).leave p none)
      else some (s.setPc p (.forkScan (k + 1)))
    else some (s.leave p none)
  | .forkParent np =>
    if s.waitLock = none then some ((s.setParent np (some p)).setPc p (.forkRunnable np)) else none
  | .forkRunnable np =>
    some (((s.setSched np { (s.slot np).sched with state := .runnable }).setPc np .user).leave p
      (some (s.slot np).pid))
  | .exitLock status =>
    if s.waitLock = none then some ((s.acquire p).setPc p (.reparent status 0)) else none
  | .reparent status j =>
    if h : j < N then
      if (s.slot ⟨j, h⟩).parent = some p then
        some ((s.setParent ⟨j, h⟩ (some s.initproc)).setPc p (.reparentWake status j 0))
      else some (s.setPc p (.reparent status (j + 1)))
    else some (s.setPc p (.exitWake status 0))
  | .reparentWake status j k =>
    if k < N then
      some ((s.wakeupAt p (some s.initproc) k).setPc p (.reparentWake status j (k + 1)))
    else some (s.setPc p (.reparent status (j + 1)))
  | .exitWake status k =>
    if k < N then some ((s.wakeupAt p (s.slot p).parent k).setPc p (.exitWake status (k + 1)))
    else some (s.setPc p (.exitZombie status))
  | .exitZombie status => some (s.zombie p status)
  | .waitLock addr =>
    if s.waitLock = none then some ((s.acquire p).setPc p (.waitScan addr 0 false)) else none
  | .waitScan addr j havekids =>
    if h : j < N then
      if (s.slot ⟨j, h⟩).parent = some p then
        if (s.slot ⟨j, h⟩).sched.state = .zombie then
          if addr = true ∧ ok = false then some (s.release.leave p none)
          else some ((s.reap p ⟨j, h⟩).leave p (some (s.slot ⟨j, h⟩).pid))
        else some (s.setPc p (.waitScan addr (j + 1) true))
      else some (s.setPc p (.waitScan addr (j + 1) havekids))
    else some (s.setPc p (.waitTest addr havekids))
  | .waitTest addr havekids =>
    if havekids = false ∨ (s.slot p).sched.killed = true then some (s.release.leave p none)
    else some (s.setPc p (.waitSleep addr))
  | .waitSleep addr =>
    some ((s.release.setSched p ((s.slot p).sched.sleep p)).setPc p (.waitAsleep addr))
  | .waitAsleep addr =>
    if s.waitLock = none then some ((s.acquire p).setPc p (.waitScan addr 0 false)) else none
  | .killScan pid k =>
    if h : k < N then
      if (s.slot ⟨k, h⟩).pid = pid then
        some ((s.setSched ⟨k, h⟩ (s.slot ⟨k, h⟩).sched.kill).leave p (some 0))
      else some (s.setPc p (.killScan pid (k + 1)))
    else some (s.leave p none)

inductive Act (N : ℕ) where
  | fork (p : Fin N)
  | exit (p : Fin N) (status : ℤ)
  | wait (p : Fin N) (addr : Bool)
  | kill (p : Fin N) (pid : ℤ)
  | step (p : Fin N) (ok : Bool)
  /-- `setkilled(p)` in `usertrap`. -/
  | fault (p : Fin N)
  /-- The scheduler gives a CPU to a runnable process. -/
  | resume (p : Fin N)
  /-- A timer interrupt; interrupts are off while a lock is held. -/
  | yield (p : Fin N)

@[grind] def State.CanCall (s : State N) (p : Fin N) : Prop :=
  s.pc p = .user ∧ (s.slot p).sched.state = .running

instance (s : State N) (p : Fin N) : Decidable (s.CanCall p) :=
  inferInstanceAs (Decidable (_ ∧ _))

def State.next (s : State N) : Act N → Option (State N)
  | .fork p => if s.CanCall p then some (s.setPc p (.forkScan 0)) else none
  | .exit p status =>
    if s.CanCall p ∧ p ≠ s.initproc then some (s.setPc p (.exitLock status)) else none
  | .wait p addr => if s.CanCall p then some (s.setPc p (.waitLock addr)) else none
  | .kill p pid => if s.CanCall p then some (s.setPc p (.killScan pid 0)) else none
  | .step p ok => if (s.slot p).sched.state = .running then Proc.step s p ok else none
  | .fault p =>
    if s.CanCall p then some (s.setSched p { (s.slot p).sched with killed := true }) else none
  | .resume p =>
    if (s.slot p).sched.state = .runnable then some (s.setSched p (s.slot p).sched.resume) else none
  | .yield p =>
    if (s.slot p).sched.state = .running ∧ (s.pc p).holds = false then
      some (s.setSched p (s.slot p).sched.yield)
    else none

def State.boot (N : ℕ) (init : Fin N) : State N where
  slot := fun q => if q = init then ⟨⟨.runnable, none, false⟩, 1, 0, none⟩ else .free
  initproc := init
  nextpid := 2
  waitLock := none
  pc := fun q => if q = init then .user else .none
  ret := fun _ => none
  gen := fun _ => 0
  events := []

end Xv6.Proc
