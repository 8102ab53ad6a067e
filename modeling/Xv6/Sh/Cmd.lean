import Xv6.Lib.Transition
import Xv6.Params

/-! Commands of the shell `sh.c`, and the processes in which `runcmd` executes them. -/
namespace Xv6.Sh
open Function

abbrev Word := List UInt8

/-- A command. The parser sets the descriptor of a redirection to 0 or 1. -/
inductive Cmd where
  | exec (argv : List Word)
  | redir (cmd : Cmd) (file : Word) (mode : ℕ) (fd : Fin 3)
  | pipe (left right : Cmd)
  | list (left right : Cmd)
  | back (cmd : Cmd)
  deriving DecidableEq

/-- The two sides of a pipe: the left one writes, the right one reads. -/
inductive Side where
  | left
  | right
  deriving DecidableEq

/-- An open file. The files that the shell passes on are told apart by a number. -/
inductive File where
  | inherited (x : ℕ)
  | opened (name : Word) (mode : ℕ)
  | readEnd (n : ℕ)
  | writeEnd (n : ℕ)
  deriving DecidableEq

/-- The argument of `close` or `dup`: a number, or an element of the array `p`. -/
inductive Fd where
  | lit (fd : ℕ)
  | p0
  | p1
  deriving DecidableEq

/-- What a process does next. The arguments of `pipe` are kept for the record; the child of `fork`
runs `childCode`. -/
inductive Instr where
  | run (cmd : Cmd)
  | exec (argv : List Word)
  | exit
  | close (fd : Fd)
  | dup (fd : Fd)
  | open (file : Word) (mode : ℕ)
  | pipe (left right : Cmd)
  | fork (side : Option Side) (cmd : Cmd)
  | wait
  deriving DecidableEq

namespace Side

def fd : Side → ℕ
  | .left => 1
  | .right => 0

def file (n : ℕ) : Side → File
  | .left => .writeEnd n
  | .right => .readEnd n

def arg : Side → Fd
  | .left => .p1
  | .right => .p0

end Side

def runcmd : Cmd → List Instr
  | .exec argv => if argv = [] then [.exit] else [.exec argv]
  | .redir cmd file mode fd => [.close (.lit fd), .open file mode, .run cmd]
  | .list left right => [.fork none left, .wait, .run right]
  | .pipe left right =>
    [.pipe left right, .fork (some .left) left, .fork (some .right) right, .close .p0, .close .p1,
      .wait, .wait, .exit]
  | .back cmd => [.fork none cmd, .exit]

def childCode : Option Side → Cmd → List Instr
  | none, cmd => [.run cmd]
  | some side, cmd =>
    [.close (.lit side.fd), .dup side.arg, .close .p0, .close .p1, .run cmd]

abbrev Table := ℕ → Option File

def fdalloc (fds : Table) (f : File) : Option (ℕ × Table) :=
  ((List.range nofile).find? fun fd => (fds fd).isNone).map fun fd =>
    (fd, update fds fd (some f))

/-- A process. The last two fields record history: the pipe that the process has made, and the
sides of pipes inside of which it runs. -/
structure Proc where
  fds : Table
  p : ℕ × ℕ
  code : List Instr
  parent : ℕ
  made : ℕ
  inside : List (ℕ × Side)

/-- The record of a pipe: who made it for which command, and the descriptors there were before. -/
structure Node where
  pid : ℕ
  left : Cmd
  right : Cmd
  fds : Table

/-- Processes by their number; a process with nothing to do has exited. -/
structure State where
  procs : ℕ → Option Proc
  nextPid : ℕ
  nextPipe : ℕ
  node : ℕ → Option Node

namespace Proc

def fd (pr : Proc) : Fd → ℕ
  | .lit n => n
  | .p0 => pr.p.1
  | .p1 => pr.p.2

@[simps -fullyApplied] def setCode (pr : Proc) (code : List Instr) : Proc := { pr with code }

@[simps -fullyApplied] def setFds (pr : Proc) (fds : Table) : Proc := { pr with fds }

@[simps -fullyApplied] def exit (pr : Proc) : Proc := { pr with code := [], fds := fun _ => none }

/-- `dup`; the shell does not look at what it returns. -/
def dup (pr : Proc) (fd : ℕ) : Proc :=
  match pr.fds fd with
  | none => pr
  | some f =>
    match fdalloc pr.fds f with
    | none => pr
    | some (_, fds) => pr.setFds fds

def pipe (pr : Proc) (n : ℕ) : Option Proc :=
  match fdalloc pr.fds (.readEnd n) with
  | none => none
  | some (fd0, fds) =>
    match fdalloc fds (.writeEnd n) with
    | none => none
    | some (fd1, fds) => some { pr with fds, p := (fd0, fd1), made := n }

@[simps -fullyApplied] def child (pr : Proc) (pid : ℕ) (side : Option Side) (cmd : Cmd) : Proc :=
  { pr with
    code := childCode side cmd
    parent := pid
    inside := (side.map fun sd => (pr.made, sd)).toList ++ pr.inside }

end Proc

inductive Act where
  | step (pid : ℕ)
  | wait (pid child : ℕ)

namespace State

@[simps -fullyApplied] def setProc (s : State) (pid : ℕ) (pr : Proc) : State :=
  { s with procs := update s.procs pid (some pr) }

/-- The process `pid` executes its next instruction. -/
def step (s : State) (pid : ℕ) (pr : Proc) : Option State :=
  match pr.code with
  | [] => none
  | .run cmd :: _ => some (s.setProc pid (pr.setCode (runcmd cmd)))
  | .exec _ :: _ => some (s.setProc pid (pr.setCode [.exit]))
  | .exit :: _ => some (s.setProc pid pr.exit)
  | .close fd :: k =>
    some (s.setProc pid ((pr.setFds (update pr.fds (pr.fd fd) none)).setCode k))
  | .dup fd :: k => some (s.setProc pid ((pr.dup (pr.fd fd)).setCode k))
  | .open file mode :: k =>
    match fdalloc pr.fds (.opened file mode) with
    | none => some (s.setProc pid (pr.setCode [.exit]))
    | some (_, fds) => some (s.setProc pid ((pr.setFds fds).setCode k))
  | .pipe left right :: k =>
    match pr.pipe s.nextPipe with
    | none => some (s.setProc pid (pr.setCode [.exit]))
    | some pr' =>
      some { s.setProc pid (pr'.setCode k) with
        nextPipe := s.nextPipe + 1
        node := update s.node s.nextPipe (some ⟨pid, left, right, pr.fds⟩) }
  | .fork side cmd :: k =>
    some { (s.setProc pid (pr.setCode k)).setProc s.nextPid (pr.child pid side cmd) with
      nextPid := s.nextPid + 1 }
  | .wait :: _ => none

def next (s : State) : Act → Option State
  | .step pid => (s.procs pid).bind (s.step pid)
  | .wait pid child =>
    match s.procs pid, s.procs child with
    | some pr, some ch =>
      match pr.code with
      | .wait :: k =>
        if ch.parent = pid ∧ ch.code = [] ∧ child ≠ pid then
          some { s.setProc pid (pr.setCode k) with
            procs := update (update s.procs pid (some (pr.setCode k))) child none }
        else none
      | _ => none
    | _, _ => none

def start (files : ℕ → ℕ) (cmd : Cmd) : State where
  procs := fun pid => if pid = 1 then
    some ⟨fun fd => if fd < 3 then some (.inherited (files fd)) else none, (0, 0), [.run cmd],
      0, 0, []⟩
    else none
  nextPid := 2
  nextPipe := 0
  node := fun _ => none

end State
end Xv6.Sh
