import Xv6.Lib.Transition
import Xv6.Params

/-! The program `primes.c`. Process 0 is `main` and process `k + 1` is the child of process `k`;
pipe `k` leads from process `k` to process `k + 1`. A pipe holds whole numbers: every `read` and
`write` is of `sizeof(int)` bytes, which divide `PIPESIZE`, and happens under the lock of the pipe.
A write end counts for the end of file. Read ends only matter when a `write` fails, which is left
out, as are failures of `pipe` and `fork`. -/
namespace Xv6.Primes

/-- All the numbers written, the number of those that have been read, and the number of processes
that hold the write end. -/
structure Pipe where
  data : List ℕ
  nread : ℕ
  writers : ℕ
  deriving DecidableEq

namespace Pipe

def none : Pipe := ⟨[], 0, 0⟩

def opened : Pipe := ⟨[], 0, 1⟩

def dup (x : Pipe) : Pipe := ⟨x.data, x.nread, x.writers + 1⟩

def close (x : Pipe) : Pipe := ⟨x.data, x.nread, x.writers - 1⟩

def push (x : Pipe) (m : ℕ) : Pipe := ⟨x.data ++ [m], x.nread, x.writers⟩

def shift (x : Pipe) : Pipe := ⟨x.data, x.nread + 1, x.writers⟩

def taken (x : Pipe) : List ℕ := x.data.take x.nread

end Pipe

inductive PC where
  | absent
  | mainPipe
  | mainFork
  | feed (i : ℕ)
  | closeChild
  /-- `read(cur_pipe, &prime, sizeof(prime))` -/
  | first
  /-- in `printf`, with the characters that are left -/
  | print (p : ℕ) (rest : List Char)
  | pipe (p : ℕ)
  | fork (p : ℕ)
  /-- `read(cur_pipe, &num, sizeof(num))` -/
  | loop (p : ℕ)
  /-- `write(fd[1], &num, sizeof(num))` -/
  | write (p num : ℕ)
  /-- the parent at `close(fd[1])` -/
  | closeOut
  | wait
  | exited
  /-- exited at the end of file, without a child -/
  | gone
  deriving DecidableEq

def PC.over : PC → Bool
  | .absent | .exited | .gone => true
  | _ => false

def line (p : ℕ) : List Char := "prime ".toList ++ (Nat.repr p).toList ++ ['\n']

structure State where
  pc : ℕ → PC
  pipe : ℕ → Pipe
  out : List Char

namespace State

@[simps -fullyApplied, grind] def setPc (s : State) (k : ℕ) (c : PC) : State :=
  { s with pc := Function.update s.pc k c }

@[simps -fullyApplied, grind] def setPipe (s : State) (j : ℕ) (x : Pipe) : State :=
  { s with pipe := Function.update s.pipe j x }

@[simps -fullyApplied, grind]
def say (s : State) (c : Char) : State := { s with out := s.out ++ [c] }

def init : State where
  pc := fun k => if k = 0 then .mainPipe else .absent
  pipe := fun _ => .none
  out := []

/-- The number that process `k` would read from its pipe. -/
def head (s : State) (k : ℕ) : Option ℕ := (s.pipe (k - 1)).data[(s.pipe (k - 1)).nread]?

def room (s : State) (cap k : ℕ) : Bool := (s.pipe k).data.length - (s.pipe k).nread < cap

/-- One step of process `k`, for a pipe that holds `cap` numbers and the numbers up to `n`; `none`
while the process waits. -/
def step (cap n : ℕ) (s : State) (k : ℕ) : Option State :=
  match s.pc k with
  | .absent | .exited | .gone => none
  | .mainPipe => some ((s.setPipe k .opened).setPc k .mainFork)
  | .mainFork =>
    some (((s.setPipe k (s.pipe k).dup).setPc k (.feed 2)).setPc (k + 1) .closeChild)
  | .feed i =>
    if i ≤ n then
      if s.room cap k then
        some ((s.setPipe k ((s.pipe k).push i)).setPc k (.feed (i + 1)))
      else none
    else some (s.setPc k .closeOut)
  | .closeChild => some ((s.setPipe (k - 1) (s.pipe (k - 1)).close).setPc k .first)
  | .first =>
    match s.head k with
    | some p => some ((s.setPipe (k - 1) (s.pipe (k - 1)).shift).setPc k (.print p (line p)))
    | none => if (s.pipe (k - 1)).writers = 0 then some (s.setPc k .gone) else none
  | .print p (c :: rest) => some ((s.say c).setPc k (.print p rest))
  | .print p [] => some (s.setPc k (.pipe p))
  | .pipe p => some ((s.setPipe k .opened).setPc k (.fork p))
  | .fork p => some (((s.setPipe k (s.pipe k).dup).setPc k (.loop p)).setPc (k + 1) .closeChild)
  | .loop p =>
    match s.head k with
    | some num =>
      some ((s.setPipe (k - 1) (s.pipe (k - 1)).shift).setPc k
        (if num % p ≠ 0 then .write p num else .loop p))
    | none => if (s.pipe (k - 1)).writers = 0 then some (s.setPc k .closeOut) else none
  | .write p num =>
    if s.room cap k then some ((s.setPipe k ((s.pipe k).push num)).setPc k (.loop p)) else none
  | .closeOut => some ((s.setPipe k (s.pipe k).close).setPc k .wait)
  | .wait => if (s.pc (k + 1)).over then some (s.setPc k .exited) else none

@[grind] def AllExited (s : State) : Prop := ∀ k, (s.pc k).over = true

end State
end Xv6.Primes
