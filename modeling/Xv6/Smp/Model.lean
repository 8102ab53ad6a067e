import Xv6.Lib.Transition
import Xv6.Proc.Sched

/-! The CPUs and the switches between threads, after `scheduler`, `sched` and `swtch`. A step is one
acquire or release of a `p->lock`, one test or store under it, or one register in `swtch`. The loops
of `wakeup`, `kill`, `wait` and `allocproc` over the process table are seen as the rounds of their
bodies, in any order, and a thread can be preempted between two rounds. -/
namespace Xv6.Smp
open Function Proc

/-- The registers that `swtch` saves: `ra`, `sp` and `s0` to `s11`. -/
abbrev Reg := Fin 14

abbrev Context := Reg → ℕ

inductive Leave where
  | yield
  | sleep (chan : ℕ)
  | exit

structure Slot where
  sched : Sched ℕ
  pid : ℕ
  context : Context
  /-- On the kernel stack: the caller to which `swtch` returns, `none` for `forkret`. -/
  caller : Option Leave
  /-- Whether the process has been switched to since `allocproc`. -/
  ran : Bool
  /-- The registers with which the process is to go on: those it had when it called `swtch`, or
  those that `allocproc` has chosen. -/
  left : Context

/-- Where the code is that holds the lock of another process. -/
inductive Round where
  /-- The body of the loop in `wakeup`. -/
  | wake (chan : ℕ)
  /-- The body of the loop in `kill`. -/
  | kill (pid : ℕ)
  /-- The body of the loop in `wait`. -/
  | wait
  /-- `wait` is about to call `freeproc`. -/
  | reap
  /-- The body of the loop in `allocproc`. -/
  | alloc
  /-- `fork`, when `allocproc` has returned. -/
  | made
  /-- `allocproc` or `fork` is about to call `freeproc`. -/
  | drop
  /-- `fork` is about to make the child runnable. -/
  | start
  | unlock

inductive Pc (N : ℕ) where
  /-- In user code, or in the kernel with no `p->lock`. -/
  | run
  /-- `acquire(&p->lock)` in a caller of `sched`. -/
  | acquire (l : Leave)
  /-- A caller of `sched` holds `p->lock`. -/
  | leave (l : Leave)
  /-- In `swtch(&p->context, &mycpu()->context)`, with `i` instructions done. -/
  | swtch (i : ℕ)
  /-- `sched` has returned, or `forkret` begins. -/
  | resumed
  | unlock
  /-- The lock of process `q` is held. -/
  | round (q : Fin N) (r : Round)

inductive Code (N : ℕ) where
  /-- `scheduler`, before `acquire(&p->lock)`. -/
  | scan
  | test
  | picked
  /-- In `swtch(&c->context, &p->context)`, with `i` instructions done. -/
  | swtch (i : ℕ)
  | back
  | unlock
  /-- An interrupt in the scheduler: the body of the loop in `wakeup`. -/
  | intrWake (q : Fin N) (chan : ℕ)
  | intrUnlock (q : Fin N)
  | thread (p : Fin N) (pc : Pc N)

/-- `struct cpu`, with the registers and the variable `p` of `scheduler`. -/
structure Cpu (N : ℕ) where
  proc : Option (Fin N)
  context : Context
  regs : Context
  p : Fin N
  code : Code N

structure Sys (N K : ℕ) where
  slot : Fin N → Slot
  /-- The CPU that holds `p->lock`. -/
  lock : Fin N → Option (Fin K)
  cpu : Fin K → Cpu N
  /-- On the kernel stack of a process in `fork`: the child, until it is runnable. -/
  np : Fin N → Option (Fin N)
  nextpid : ℕ
  forkret : ℕ
  kstack : Fin N → ℕ

variable {N K : ℕ}

namespace Slot

@[simps -fullyApplied] def setState (x : Slot) (st : ProcState) : Slot :=
  { x with sched := { x.sched with state := st } }

@[simps -fullyApplied] def setSched (x : Slot) (sc : Sched ℕ) : Slot := { x with sched := sc }

/-- `freeproc`, without the memory of the process. -/
@[simps -fullyApplied]
def freeproc (x : Slot) : Slot := { x with sched := ⟨.unused, none, false⟩, pid := 0 }

/-- `allocproc`, up to the allocation of the trapframe. -/
@[simps -fullyApplied] def allocUsed (x : Slot) (pid : ℕ) : Slot :=
  { x with sched := { x.sched with state := .used }, pid := pid, ran := false }

@[simps -fullyApplied] def setUp (x : Slot) (ctx : Context) : Slot :=
  { x with context := ctx, left := ctx, caller := none }

/-- What the callers of `sched` do to the entry; `regs` are the registers in the call of `swtch`. -/
@[simps -fullyApplied] def leave (x : Slot) (l : Leave) (regs : Context) : Slot :=
  { x with
    sched := match l with
      | .yield => x.sched.yield
      | .sleep chan => x.sched.sleep chan
      | .exit => { x.sched with state := .zombie }
    caller := some l
    left := regs }

end Slot

namespace Sys

@[simps -fullyApplied] def setCpu (s : Sys N K) (c : Fin K) (y : Cpu N) : Sys N K :=
  { s with cpu := update s.cpu c y }

@[simps -fullyApplied] def setSlot (s : Sys N K) (q : Fin N) (x : Slot) : Sys N K :=
  { s with slot := update s.slot q x }

@[simps -fullyApplied] def setLock (s : Sys N K) (q : Fin N) (o : Option (Fin K)) : Sys N K :=
  { s with lock := update s.lock q o }

@[simps -fullyApplied] def setNp (s : Sys N K) (p : Fin N) (o : Option (Fin N)) : Sys N K :=
  { s with np := update s.np p o }

@[simps -fullyApplied] def newPid (s : Sys N K) : Sys N K := { s with nextpid := s.nextpid + 1 }

@[simps! -fullyApplied] def goto (s : Sys N K) (c : Fin K) (code : Code N) : Sys N K :=
  s.setCpu c { s.cpu c with code := code }

/-- `acquire` on CPU `c`, which spins while the lock is taken. -/
def acquire (s : Sys N K) (c : Fin K) (q : Fin N) (code : Code N) : Option (Sys N K) :=
  if s.lock q = none then some ((s.setLock q (some c)).goto c code) else none

/-- The context that `allocproc` gives to a new process: `ra` is `forkret`, `sp` the top of the
kernel stack. -/
def firstContext (s : Sys N K) (q : Fin N) : Context := fun r =>
  if r = 0 then s.forkret else if r = 1 then s.kstack q + 4096 else 0

def after (p : Fin N) : Fin N := ⟨(p.val + 1) % N, Nat.mod_lt _ p.pos⟩

/-- One step of `scheduler` or of an interrupt handler. -/
def schedStep (s : Sys N K) (c : Fin K) : Code N → Option (Sys N K)
  | .scan => s.acquire c (s.cpu c).p .test
  | .test =>
    if (s.slot (s.cpu c).p).sched.state = .runnable then
      some ((s.setSlot (s.cpu c).p ((s.slot (s.cpu c).p).setState .running)).goto c .picked)
    else some (s.goto c .unlock)
  | .picked => some (s.setCpu c { s.cpu c with proc := some (s.cpu c).p, code := .swtch 0 })
  | .swtch i =>
    if hi : i < 14 then
      let y := s.cpu c
      some (s.setCpu c { y with
        context := update y.context ⟨i, hi⟩ (y.regs ⟨i, hi⟩), code := .swtch (i + 1) })
    else if hi : i - 14 < 14 then
      let y := s.cpu c
      some (s.setCpu c { y with
        regs := update y.regs ⟨i - 14, hi⟩ ((s.slot y.p).context ⟨i - 14, hi⟩)
        code := .swtch (i + 1) })
    else
      some ((s.setSlot (s.cpu c).p { s.slot (s.cpu c).p with ran := true }).goto c
        (.thread (s.cpu c).p .resumed))
  | .back => some (s.setCpu c { s.cpu c with proc := none, code := .unlock })
  | .unlock =>
    some ((s.setLock (s.cpu c).p none).setCpu c
      { s.cpu c with p := after (s.cpu c).p, code := .scan })
  | .intrWake q chan =>
    some ((s.setSlot q ((s.slot q).setSched ((s.slot q).sched.wakeup chan))).goto c (.intrUnlock q))
  | .intrUnlock q => some ((s.setLock q none).goto c .scan)
  | .thread _ _ => none

/-- One step of process `p` while it holds the lock of process `q`; `ok` is the outcome of the
allocations in `fork` and of the `copyout` in `wait`. -/
def roundStep (s : Sys N K) (c : Fin K) (p q : Fin N) (ok : Bool) : Round → Sys N K
  | .wake chan =>
    (s.setSlot q ((s.slot q).setSched ((s.slot q).sched.wakeup chan))).goto c
      (.thread p (.round q .unlock))
  | .kill pid =>
    if (s.slot q).pid = pid then
      (s.setSlot q ((s.slot q).setSched (s.slot q).sched.kill)).goto c
        (.thread p (.round q .unlock))
    else s.goto c (.thread p (.round q .unlock))
  | .wait =>
    if (s.slot q).sched.state = .zombie ∧ ok then s.goto c (.thread p (.round q .reap))
    else s.goto c (.thread p (.round q .unlock))
  | .reap => (s.setSlot q (s.slot q).freeproc).goto c (.thread p (.round q .unlock))
  | .alloc =>
    if (s.slot q).sched.state = .unused then
      if ok then
        (((s.setSlot q (((s.slot q).allocUsed s.nextpid).setUp (s.firstContext q))).setNp p
          (some q)).newPid).goto c (.thread p (.round q .made))
      else
        ((s.setSlot q ((s.slot q).allocUsed s.nextpid)).newPid).goto c (.thread p (.round q .drop))
    else s.goto c (.thread p (.round q .unlock))
  | .made =>
    if ok then (s.setLock q none).goto c (.thread p .run)
    else s.goto c (.thread p (.round q .drop))
  | .drop =>
    ((s.setSlot q (s.slot q).freeproc).setNp p none).goto c (.thread p (.round q .unlock))
  | .start =>
    ((s.setSlot q ((s.slot q).setState .runnable)).setNp p none).goto c
      (.thread p (.round q .unlock))
  | .unlock => (s.setLock q none).goto c (.thread p .run)

/-- One step of process `p`, in the functions that take a `p->lock`. -/
def threadStep (s : Sys N K) (c : Fin K) (p : Fin N) (ok : Bool) : Pc N → Option (Sys N K)
  | .run => none
  | .acquire l => s.acquire c p (.thread p (.leave l))
  | .leave l =>
    some ((s.setSlot p ((s.slot p).leave l (s.cpu c).regs)).goto c (.thread p (.swtch 0)))
  | .swtch i =>
    if hi : i < 14 then
      let x := s.slot p
      some ((s.setSlot p { x with
        context := update x.context ⟨i, hi⟩ ((s.cpu c).regs ⟨i, hi⟩) }).goto c
          (.thread p (.swtch (i + 1))))
    else if hi : i - 14 < 14 then
      let y := s.cpu c
      some (s.setCpu c { y with
        regs := update y.regs ⟨i - 14, hi⟩ (y.context ⟨i - 14, hi⟩)
        code := .thread p (.swtch (i + 1)) })
    else some (s.goto c .back)
  | .resumed =>
    match (s.slot p).caller with
    | some (.sleep _) =>
      some ((s.setSlot p ((s.slot p).setSched { (s.slot p).sched with chan := none })).goto c
        (.thread p .unlock))
    -- `panic("zombie exit")`
    | some .exit => none
    | _ => some (s.goto c (.thread p .unlock))
  | .unlock => some ((s.setLock p none).goto c (.thread p .run))
  | .round q r => some (s.roundStep c p q ok r)

/-- What a process can begin when it holds no `p->lock`. -/
inductive Call (N : ℕ) where
  | yield
  | sleep (chan : ℕ)
  | exit
  | wake (chan : ℕ) (q : Fin N)
  | kill (pid : ℕ) (q : Fin N)
  | wait (q : Fin N)
  | fork (q : Fin N)
  | start

/-- In the middle of `fork` a process can only be interrupted. -/
def call (s : Sys N K) (c : Fin K) (p : Fin N) : Call N → Option (Sys N K)
  | .yield => some (s.goto c (.thread p (.acquire .yield)))
  | .sleep chan =>
    if s.np p = none then some (s.goto c (.thread p (.acquire (.sleep chan)))) else none
  | .exit => if s.np p = none then some (s.goto c (.thread p (.acquire .exit))) else none
  | .wake chan q => if q ≠ p then s.acquire c q (.thread p (.round q (.wake chan))) else none
  | .kill pid q =>
    if s.np p = none then s.acquire c q (.thread p (.round q (.kill pid))) else none
  | .wait q => if s.np p = none then s.acquire c q (.thread p (.round q .wait)) else none
  | .fork q => if s.np p = none then s.acquire c q (.thread p (.round q .alloc)) else none
  | .start =>
    match s.np p with
    | some q => s.acquire c q (.thread p (.round q .start))
    | none => none

inductive Act (N K : ℕ) where
  /-- The next step of what CPU `c` is in. -/
  | step (c : Fin K) (ok : Bool)
  /-- An interrupt in the scheduler calls `wakeup(chan)`. -/
  | intr (c : Fin K) (chan : ℕ) (q : Fin N)
  | call (c : Fin K) (f : Call N)
  /-- Other code of the process, which leaves `regs` in the registers. -/
  | compute (c : Fin K) (regs : Context)

def next (s : Sys N K) : Act N K → Option (Sys N K)
  | .step c ok =>
    match (s.cpu c).code with
    | .thread p pc => s.threadStep c p ok pc
    | code => s.schedStep c code
  | .intr c chan q =>
    match (s.cpu c).code with
    | .scan => s.acquire c q (.intrWake q chan)
    | _ => none
  | .call c f =>
    match (s.cpu c).code with
    | .thread p .run => s.call c p f
    | _ => none
  | .compute c regs =>
    match (s.cpu c).code with
    | .thread _ .run => some (s.setCpu c { s.cpu c with regs := regs })
    | _ => none

end Sys

namespace Cpu

@[grind] def holds (y : Cpu N) : Option (Fin N) :=
  match y.code with
  | .scan => none
  | .test | .picked | .swtch _ | .back | .unlock => some y.p
  | .intrWake q _ | .intrUnlock q => some q
  | .thread p pc =>
    match pc with
    | .run | .acquire _ => none
    | .leave _ | .swtch _ | .resumed | .unlock => some p
    | .round q _ => some q

/-- The process on whose kernel stack the CPU executes or between whose stack and its own it
switches. -/
@[grind] def uses (y : Cpu N) : Option (Fin N) :=
  match y.code with
  | .picked | .swtch _ | .back => some y.p
  | .thread p _ => some p
  | _ => none

/-- The process to which `freeproc` is about to be applied. -/
def frees (y : Cpu N) : Option (Fin N) :=
  match y.code with
  | .thread _ (.round q .reap) | .thread _ (.round q .drop) => some q
  | _ => none

end Cpu

/-- After `userinit`: every CPU begins `scheduler`, and the processes there are wait to be run. -/
structure Sys.Booted (s : Sys N K) : Prop where
  code : ∀ c, (s.cpu c).code = .scan
  proc : ∀ c, (s.cpu c).proc = none
  lock : ∀ q, s.lock q = none
  np : ∀ p, s.np p = none
  slot : ∀ q, (s.slot q).sched.state = .unused ∨
    (s.slot q).sched.state = .runnable ∧ (s.slot q).context = (s.slot q).left

end Xv6.Smp
