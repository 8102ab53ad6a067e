import Xv6.Fs.Sys
import Xv6.Lib.Counting

/-! Open files and their reference counts, after `file.c`, `pipe.c`, `sysfile.c` and `proc.c`. Of an
inode only the references that calls and open files have to it are kept; what a call finds under a
path, what `kalloc` returns and where `copyout` fails are arguments of the call. -/
namespace Xv6.Ftable
open Function Hoare

inductive Kind where
  | none
  | pipe
  | inode
  | device
  deriving DecidableEq

/-- `struct file`; `pipe` is the page of the pipe and `ip` the number of the inode. -/
structure File where
  ref : ℕ
  type : Kind
  readable : Bool
  writable : Bool
  pipe : ℕ
  ip : ℕ
  off : ℕ
  major : ℤ

/-- The fields of `struct pipe` that say which of its ends are open. -/
structure Ends where
  readopen : Bool
  writeopen : Bool
  deriving DecidableEq

/-- What the last `fileclose` of a file gives back. -/
inductive Resource where
  | pipeEnd (pi : ℕ) (writable : Bool)
  | inode (ip : ℕ)
  deriving DecidableEq

inductive Event where
  | acquired (r : Resource)
  | released (r : Resource)
  deriving DecidableEq

structure State (N : ℕ) where
  file : Fin nfile → File
  ofile : Fin N → Fin nofile → Option (Fin nfile)
  live : Fin N → Bool
  pipe : ℕ → Option Ends
  /-- `ip->ref`, as far as calls and open files go. -/
  iref : ℕ → ℤ
  /-- What each file has acquired and released so far, last first. -/
  log : Fin nfile → List Event

inductive Panic where
  /-- `filedup` -/
  | filedup
  /-- `fileclose` -/
  | fileclose
  /-- No panic of the kernel: `pipeclose` of a page that is not a pipe. -/
  | notPipe
  deriving DecidableEq

variable {N : ℕ}

abbrev FileM (N : ℕ) (α : Type) := Prog (State N) Panic α

namespace State

@[simps -fullyApplied, grind] def setFile (s : State N) (f : Fin nfile) (x : File) : State N :=
  { s with file := update s.file f x }

@[simps -fullyApplied, grind] def setSlot (s : State N) (p : Fin N) (fd : Fin nofile)
    (x : Option (Fin nfile)) : State N :=
  { s with ofile := update s.ofile p (update (s.ofile p) fd x) }

@[simps -fullyApplied, grind] def setLive (s : State N) (p : Fin N) (b : Bool) : State N :=
  { s with live := update s.live p b }

@[simps -fullyApplied, grind] def setPipe (s : State N) (pi : ℕ) (x : Option Ends) : State N :=
  { s with pipe := update s.pipe pi x }

@[simps -fullyApplied, grind] def addRef (s : State N) (ip : ℕ) (n : ℤ) : State N :=
  { s with iref := update s.iref ip (s.iref ip + n) }

@[simps -fullyApplied, grind] def record (s : State N) (f : Fin nfile) (e : Event) : State N :=
  { s with log := update s.log f (e :: s.log f) }

end State

def filealloc : FileM N (Option (Fin nfile)) := do
  let s ← get
  match (List.finRange nfile).find? fun f => (s.file f).ref = 0 with
  | none => return none
  | some f =>
    set (s.setFile f { s.file f with ref := 1 })
    return some f

def filedup (f : Fin nfile) : FileM N Unit := do
  let s ← get
  if (s.file f).ref < 1 then throw .filedup
  else set (s.setFile f { s.file f with ref := (s.file f).ref + 1 })

def iget (ip : ℕ) : FileM N Unit := modify (·.addRef ip 1)

def iput (ip : ℕ) : FileM N Unit := modify (·.addRef ip (-1))

@[grind] def Ends.close (e : Ends) (writable : Bool) : Option Ends :=
  let e := if writable then { e with writeopen := false } else { e with readopen := false }
  if e.readopen = false ∧ e.writeopen = false then none else some e

def pipeclose (pi : ℕ) (writable : Bool) : FileM N Unit := do
  match (← get).pipe pi with
  | none => throw .notPipe
  | some e => modify (·.setPipe pi (e.close writable))

def fileclose (f : Fin nfile) : FileM N Unit := do
  let s ← get
  let ff := s.file f
  if ff.ref < 1 then throw .fileclose
  else if 0 < ff.ref - 1 then set (s.setFile f { ff with ref := ff.ref - 1 })
  else
    set (s.setFile f { ff with ref := 0, type := .none })
    match ff.type with
    | .none => return ()
    | .pipe =>
      pipeclose ff.pipe ff.writable
      modify (·.record f (.released (.pipeEnd ff.pipe ff.writable)))
    | .inode | .device =>
      iput ff.ip
      modify (·.record f (.released (.inode ff.ip)))

/-- The exit `bad` of `pipealloc`, before there is a page. -/
def pipeallocBad (fs : List (Fin nfile)) : FileM N (Option (Fin nfile × Fin nfile)) := do
  fs.forM fileclose
  return none

/-- `mem` is the page that `kalloc` returns. -/
def pipealloc (mem : Option ℕ) : FileM N (Option (Fin nfile × Fin nfile)) := do
  match ← filealloc with
  | none => return none
  | some f0 =>
    match ← filealloc with
    | none => pipeallocBad [f0]
    | some f1 =>
      match mem with
      | none => pipeallocBad [f0, f1]
      | some pi =>
        modify (·.setPipe pi (some ⟨true, true⟩))
        modify fun s => (s.setFile f0 { s.file f0 with
          type := .pipe, readable := true, writable := false, pipe := pi }).record f0
            (.acquired (.pipeEnd pi false))
        modify fun s => (s.setFile f1 { s.file f1 with
          type := .pipe, readable := false, writable := true, pipe := pi }).record f1
            (.acquired (.pipeEnd pi true))
        return some (f0, f1)

def argfd (s : State N) (p : Fin N) (fd : ℤ) : Option (Fin nofile × Fin nfile) :=
  if h : 0 ≤ fd ∧ fd < nofile then
    (s.ofile p ⟨fd.toNat, by omega⟩).map fun f => (⟨fd.toNat, by omega⟩, f)
  else none

def fdalloc (p : Fin N) (f : Fin nfile) : FileM N (Option (Fin nofile)) := do
  let s ← get
  match (List.finRange nofile).find? fun fd => (s.ofile p fd).isNone with
  | none => return none
  | some fd =>
    modify (·.setSlot p fd (some f))
    return some fd

def sysDup (p : Fin N) (fd : ℤ) : FileM N (Option ℕ) := do
  match argfd (← get) p fd with
  | none => return none
  | some (_, f) =>
    match ← fdalloc p f with
    | none => return none
    | some fd' =>
      filedup f
      return some fd'

def sysClose (p : Fin N) (fd : ℤ) : FileM N (Option ℕ) := do
  match argfd (← get) p fd with
  | none => return none
  | some (fd, f) =>
    modify (·.setSlot p fd none)
    fileclose f
    return some 0

structure Found where
  ip : ℕ
  type : FileType
  major : ℤ
  deriving DecidableEq

def openBad (ip : ℕ) : FileM N (Option ℕ) := do
  iput ip
  return none

def sysOpen (p : Fin N) (omode : ℕ) (found : Option Found) : FileM N (Option ℕ) := do
  match found with
  | none => return none
  | some x =>
    iget x.ip
    if Fs.hasFlag omode Fs.oCreate = false ∧ x.type = .dir ∧ omode ≠ 0 then openBad x.ip
    else if x.type = .device ∧ (x.major < 0 ∨ ndev ≤ x.major) then openBad x.ip
    else
      match ← filealloc with
      | none => openBad x.ip
      | some f =>
        match ← fdalloc p f with
        | none =>
          fileclose f
          openBad x.ip
        | some fd =>
          modify fun s => (s.setFile f {
            s.file f with
            type := if x.type = .device then .device else .inode
            major := if x.type = .device then x.major else (s.file f).major
            off := if x.type = .device then (s.file f).off else 0
            ip := x.ip
            readable := !Fs.hasFlag omode Fs.oWronly
            writable := Fs.hasFlag omode Fs.oWronly || Fs.hasFlag omode Fs.oRdwr }).record f
              (.acquired (.inode x.ip))
          return some fd

/-- `copied` says whether both calls of `copyout` succeed. -/
def sysPipe (p : Fin N) (mem : Option ℕ) (copied : Bool) : FileM N (Option ℕ) := do
  match ← pipealloc mem with
  | none => return none
  | some (rf, wf) =>
    match ← fdalloc p rf with
    | none =>
      fileclose rf
      fileclose wf
      return none
    | some fd0 =>
      match ← fdalloc p wf with
      | none =>
        modify (·.setSlot p fd0 none)
        fileclose rf
        fileclose wf
        return none
      | some fd1 =>
        if copied then return some 0
        else
          modify (·.setSlot p fd0 none)
          modify (·.setSlot p fd1 none)
          fileclose rf
          fileclose wf
          return none

/-- The round for descriptor `fd` of the loop in `fork`: a slot of the child whose descriptor is not
open in the parent is left as it is. -/
def forkSlot (p np : Fin N) (fd : Fin nofile) : FileM N Unit := do
  match (← get).ofile p fd with
  | none => return ()
  | some f =>
    filedup f
    modify (·.setSlot np fd (some f))

/-- `fork` with `allocproc` finding slot `np`, or nothing; `copied` says whether `uvmcopy`
succeeds. -/
def fork (p : Fin N) (np : Option (Fin N)) (copied : Bool) : FileM N (Option ℕ) := do
  match np with
  | none => return none
  | some np =>
    modify (·.setLive np true)
    if copied then
      (List.finRange nofile).forM (forkSlot p np)
      return some np.val
    else
      modify (·.setLive np false)
      return none

def exitSlot (p : Fin N) (fd : Fin nofile) : FileM N Unit := do
  match (← get).ofile p fd with
  | none => return ()
  | some f =>
    fileclose f
    modify (·.setSlot p fd none)

def exit (p : Fin N) : FileM N (Option ℕ) := do
  (List.finRange nofile).forM (exitSlot p)
  modify (·.setLive p false)
  return none

/-- `exec` reads the program and drops its inode; descriptors stay open. -/
def sysExec (found : Option Found) (loads : Bool) : FileM N (Option ℕ) := do
  match found with
  | none => return none
  | some x =>
    iget x.ip
    iput x.ip
    return if loads then some 0 else none

inductive Call (N : ℕ) where
  | open (p : Fin N) (omode : ℕ) (found : Option Found)
  | dup (p : Fin N) (fd : ℤ)
  | pipe (p : Fin N) (mem : Option ℕ) (copied : Bool)
  | close (p : Fin N) (fd : ℤ)
  | fork (p : Fin N) (np : Option (Fin N)) (copied : Bool)
  | exit (p : Fin N)
  | exec (p : Fin N) (found : Option Found) (loads : Bool)

namespace Call

def caller : Call N → Fin N
  | .open p _ _ | dup p _ | pipe p _ _ | close p _ | fork p _ _ | exit p | exec p _ _ => p

def run : Call N → FileM N (Option ℕ)
  | .open p omode found => sysOpen p omode found
  | dup p fd => sysDup p fd
  | pipe p mem copied => sysPipe p mem copied
  | close p fd => sysClose p fd
  | fork p np copied => Ftable.fork p np copied
  | exit p => Ftable.exit p
  | exec _ found loads => sysExec found loads

/-- `kalloc` returns no page that is a pipe, and `allocproc` no live process. -/
def fits (s : State N) : Call N → Bool
  | pipe _ mem _ => mem.all fun pi => (s.pipe pi).isNone
  | fork _ np _ => np.all fun q => !s.live q
  | _ => true

def enabled (s : State N) (c : Call N) : Bool := s.live c.caller && c.fits s

end Call

/-- One completed call; `none` when it cannot be made or panics. -/
def State.next (s : State N) (c : Call N) : Option (State N) :=
  if c.enabled s then
    match c.run s with
    | .ok (_, t) => some t
    | .error _ => none
  else none

def State.boot (N : ℕ) (init : Fin N) : State N where
  file := fun _ => ⟨0, .none, false, false, 0, 0, 0, 0⟩
  ofile := fun _ _ => none
  live := fun p => p = init
  pipe := fun _ => none
  iref := fun _ => 0
  log := fun _ => []

end Xv6.Ftable
