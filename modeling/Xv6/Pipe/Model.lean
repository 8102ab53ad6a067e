import Xv6.Lib.Ring
import Xv6.Lib.Transition
import Xv6.Proc.Sched

/-! A pipe and the processes that use it, after `pipe.c`. A step is what one process does between
two points where another can act: under `pi->lock` others still take the locks of processes, so
`killed(pr)` and every round of `wakeup` are steps of their own. -/
namespace Xv6.Pipe
open Function RingBuffer Proc

abbrev pipesize : ℕ := 1024

instance neZeroPipesize : NeZero pipesize := ⟨by decide⟩

inductive Chan where
  | nread
  | nwrite
  deriving DecidableEq

/-- Where a process is. The first argument is `n`, the second `i`; the last argument of a `...Wake`
is the slot that `wakeup` looks at next. -/
inductive Pc where
  | idle
  /-- `while(i < n)` and the test of `pi->readopen` and `killed(pr)`. -/
  | writeTest (n : ℤ) (i : ℕ)
  | writeBody (n : ℤ) (i : ℕ)
  | fullWake (n : ℤ) (i k : ℕ)
  | writeSleep (n : ℤ) (i : ℕ)
  /-- In `sleep`, without `pi->lock`. -/
  | writeAsleep (n : ℤ) (i : ℕ)
  | writeWake (i k : ℕ)
  /-- `while(pi->nread == pi->nwrite && pi->writeopen)` and the test of `killed(pr)`. -/
  | readTest (n : ℤ)
  | readSleep (n : ℤ)
  | readAsleep (n : ℤ)
  | readCopy (n : ℤ) (i : ℕ)
  | readWake (n : ℤ) (i k : ℕ)
  | closeWake (writable : Bool) (k : ℕ)
  deriving DecidableEq

/-- The program points between `acquire(&pi->lock)` and `release(&pi->lock)`. -/
def Pc.holds : Pc → Bool
  | idle | writeAsleep _ _ | readAsleep _ => false
  | _ => true

/-- `struct pipe` without its lock; `head` is `nread` and `tail` is `nwrite`. -/
structure PipeStruct where
  ring : Ring UInt8 pipesize 32
  readopen : Bool
  writeopen : Bool

structure State (N : ℕ) where
  pi : PipeStruct
  lock : Option (Fin N)
  /-- Both ends are closed and the page has gone back to the allocator. -/
  freed : Bool
  proc : Fin N → Sched Chan
  pc : Fin N → Pc
  /-- What the last call returned to the process. -/
  ret : Fin N → ℤ
  stored : List UInt8
  delivered : List UInt8

variable {N : ℕ}

namespace State

@[simps -fullyApplied, grind] def setPc (s : State N) (p : Fin N) (c : Pc) : State N :=
  { s with pc := update s.pc p c }

@[simps -fullyApplied, grind] def setProc (s : State N) (p : Fin N) (x : Sched Chan) : State N :=
  { s with proc := update s.proc p x }

@[simps -fullyApplied, grind]
def acquire (s : State N) (p : Fin N) : State N := { s with lock := some p }

@[simps -fullyApplied, grind] def sleep (s : State N) (p : Fin N) (c : Chan) : State N :=
  { s with lock := none, proc := update s.proc p ((s.proc p).sleep c) }

/-- `release(&pi->lock)` and the return of value `r`. -/
@[simps -fullyApplied, grind] def leave (s : State N) (p : Fin N) (r : ℤ) : State N :=
  { s with lock := none, pc := update s.pc p .idle, ret := update s.ret p r }

@[simps -fullyApplied, grind] def wakeupAt (s : State N) (p : Fin N) (c : Chan) (k : ℕ) : State N :=
  { s with proc := Proc.wakeupAt s.proc p c k }

/-- `pi->data[pi->nwrite++ % PIPESIZE] = ch`. -/
@[simps -fullyApplied, grind] def store (s : State N) (ch : UInt8) : State N :=
  { s with pi := { s.pi with ring := s.pi.ring.push ch }, stored := s.stored ++ [ch] }

/-- `ch = pi->data[pi->nread++ % PIPESIZE]` and `copyout`, which may fail. -/
@[simps -fullyApplied, grind] def take (s : State N) (ok : Bool) : State N :=
  { s with pi := { s.pi with ring := s.pi.ring.pop },
           delivered := s.delivered ++ if ok then [s.pi.ring.front] else [] }

@[simps -fullyApplied, grind] def closeEnd (s : State N) (writable : Bool) : State N :=
  { s with pi := { s.pi with readopen := s.pi.readopen && writable,
                             writeopen := s.pi.writeopen && !writable } }

end State

def closeChan (writable : Bool) : Chan := if writable then .nread else .nwrite

/-- One step of process `p`. The outcome of a copy from or to user memory is `copy`: the byte that
`copyin` gets, or `none` when `copyin` or `copyout` fails. -/
def step (s : State N) (p : Fin N) (copy : Option UInt8) : Option (State N) :=
  match s.pc p with
  | .idle => none
  | .writeTest n i =>
    if (i : ℤ) < n then
      if s.pi.readopen = false ∨ (s.proc p).killed = true then some (s.leave p (-1))
      else some (s.setPc p (.writeBody n i))
    else some (s.setPc p (.writeWake i 0))
  | .writeBody n i =>
    if s.pi.ring.Full then some (s.setPc p (.fullWake n i 0))
    else match copy with
      | none => some (s.setPc p (.writeWake i 0))
      | some ch => some ((s.store ch).setPc p (.writeTest n (i + 1)))
  | .fullWake n i k =>
    if k < N then some ((s.wakeupAt p .nread k).setPc p (.fullWake n i (k + 1)))
    else some (s.setPc p (.writeSleep n i))
  | .writeSleep n i => some ((s.sleep p .nwrite).setPc p (.writeAsleep n i))
  | .writeAsleep n i =>
    if s.lock = none ∧ s.freed = false then some ((s.acquire p).setPc p (.writeTest n i)) else none
  | .writeWake i k =>
    if k < N then some ((s.wakeupAt p .nread k).setPc p (.writeWake i (k + 1)))
    else some (s.leave p i)
  | .readTest n =>
    if s.pi.ring.Empty ∧ s.pi.writeopen = true then
      if (s.proc p).killed then some (s.leave p (-1)) else some (s.setPc p (.readSleep n))
    else some (s.setPc p (.readCopy n 0))
  | .readSleep n => some ((s.sleep p .nread).setPc p (.readAsleep n))
  | .readAsleep n =>
    if s.lock = none ∧ s.freed = false then some ((s.acquire p).setPc p (.readTest n)) else none
  | .readCopy n i =>
    if (i : ℤ) < n then
      if s.pi.ring.Empty then some (s.setPc p (.readWake n i 0))
      else if copy.isSome then some ((s.take true).setPc p (.readCopy n (i + 1)))
      else some ((s.take false).setPc p (.readWake n i 0))
    else some (s.setPc p (.readWake n i 0))
  | .readWake n i k =>
    if k < N then some ((s.wakeupAt p .nwrite k).setPc p (.readWake n i (k + 1)))
    else some (s.leave p i)
  | .closeWake writable k =>
    if k < N then
      some ((s.wakeupAt p (closeChan writable) k).setPc p (.closeWake writable (k + 1)))
    else
      some { s.leave p 0 with freed := s.pi.readopen == false && s.pi.writeopen == false }

inductive Act (N : ℕ) where
  /-- `pipewrite(pi, addr, n)` up to the loop. -/
  | write (p : Fin N) (n : ℤ)
  | read (p : Fin N) (n : ℤ)
  | close (p : Fin N) (writable : Bool)
  | step (p : Fin N) (copy : Option UInt8)
  | kill (p : Fin N)
  /-- The scheduler gives a CPU to a runnable process. -/
  | resume (p : Fin N)
  /-- A timer interrupt; interrupts are off while a lock is held. -/
  | yield (p : Fin N)

@[grind] def State.CanCall (s : State N) (p : Fin N) : Prop :=
  s.pc p = .idle ∧ (s.proc p).state = .running ∧ s.lock = none ∧ s.freed = false

instance (s : State N) (p : Fin N) : Decidable (s.CanCall p) :=
  inferInstanceAs (Decidable (_ ∧ _))

def State.next (s : State N) : Act N → Option (State N)
  | .write p n =>
    if s.CanCall p then some ((s.acquire p).setPc p (.writeTest n 0)) else none
  | .read p n =>
    if s.CanCall p then some ((s.acquire p).setPc p (.readTest n)) else none
  | .close p writable =>
    if s.CanCall p then
      some (((s.acquire p).closeEnd writable).setPc p (.closeWake writable 0))
    else none
  | .step p copy => if (s.proc p).state = .running then Pipe.step s p copy else none
  | .kill p => some (s.setProc p (s.proc p).kill)
  | .resume p =>
    if (s.proc p).state = .runnable then some (s.setProc p (s.proc p).resume) else none
  | .yield p =>
    if (s.proc p).state = .running ∧ (s.pc p).holds = false then
      some (s.setProc p (s.proc p).yield)
    else none

/-- `pipealloc`: an empty pipe with both ends open; every process can run. -/
def State.init (N : ℕ) (data : Fin pipesize → UInt8) : State N where
  pi := ⟨⟨data, 0, 0⟩, true, true⟩
  lock := none
  freed := false
  proc := fun _ => ⟨.runnable, none, false⟩
  pc := fun _ => .idle
  ret := fun _ => 0
  stored := []
  delivered := []

end Xv6.Pipe
