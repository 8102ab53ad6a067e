import Xv6.Lib.Ring
import Xv6.Lib.Transition

/-! The console input of `console.c`, and the line discipline that it implements. A reader holds
`cons.lock` from one `sleep` to the next, so what it does in between is one step. -/
namespace Xv6.Console
open RingBuffer

abbrev inputBufSize : ℕ := 128

structure Cons where
  buf : Fin inputBufSize → UInt8
  r : BitVec 32
  w : BitVec 32
  e : BitVec 32

abbrev newline : UInt8 := 10
abbrev carriageReturn : UInt8 := 13
abbrev delete : UInt8 := 127
abbrev ctrlD : UInt8 := 4
abbrev ctrlH : UInt8 := 8
abbrev ctrlP : UInt8 := 16
abbrev ctrlU : UInt8 := 21

/-- What a process does with the console. The bytes in `got` have been copied to the user; `n`
counts down from `target`. -/
inductive Reader where
  | idle
  | asleep (target n : ℕ) (got : List UInt8)
  | returned (ret : ℕ) (got : List UInt8)
  deriving DecidableEq

namespace Cons

@[grind] def killLoop : ℕ → Cons → Cons
  | 0, c => c
  | n + 1, c =>
    if c.e ≠ c.w ∧ c.buf (cell (c.e - 1)) ≠ newline then killLoop n { c with e := c.e - 1 } else c

/-- `cons.buf[cons.e++ % INPUT_BUF_SIZE] = c`. -/
@[grind] def store (c : Cons) (x : UInt8) : Cons :=
  { c with buf := Function.update c.buf (cell c.e) x, e := c.e + 1 }

def consoleintr (c : Cons) (x : UInt8) : Cons :=
  if x = ctrlP then c
  else if x = ctrlU then killLoop (c.e - c.w).toNat c
  else if x = ctrlH ∨ x = delete then if c.e ≠ c.w then { c with e := c.e - 1 } else c
  else if x ≠ 0 ∧ (c.e - c.r).toNat < inputBufSize then
    let x := if x = carriageReturn then newline else x
    let d := c.store x
    if x = newline ∨ x = ctrlD ∨ (d.e - d.r).toNat = inputBufSize then { d with w := d.e } else d
  else c

/-- The loop of `consoleread`, with `n` bytes to go, up to the next `sleep` or the return. -/
def consoleread (target : ℕ) : ℕ → Cons → List UInt8 → Cons × Reader
  | 0, c, got => (c, .returned target got)
  | n + 1, c, got =>
    if c.r = c.w then (c, .asleep target (n + 1) got)
    else
      let x := c.buf (cell c.r)
      let d := { c with r := c.r + 1 }
      if x = ctrlD then
        (if n + 1 < target then { d with r := d.r - 1 } else d, .returned (target - (n + 1)) got)
      else if x = newline then (d, .returned (target - n) (got ++ [x]))
      else consoleread target n d (got ++ [x])

end Cons

/-- The characters that can be read, and the line that is being edited. -/
structure Line where
  committed : List UInt8
  pending : List UInt8
  deriving DecidableEq

namespace Line

def total (l : Line) : ℕ := l.committed.length + l.pending.length

/-- An ordinary character is appended; the end of a line, ^D and a full buffer commit the line. -/
def type (l : Line) (x : UInt8) : Line :=
  if x ≠ 0 ∧ l.total < inputBufSize then
    let x := if x = carriageReturn then newline else x
    if x = newline ∨ x = ctrlD ∨ l.total + 1 = inputBufSize then
      ⟨l.committed ++ (l.pending ++ [x]), []⟩
    else ⟨l.committed, l.pending ++ [x]⟩
  else l

def intr (l : Line) (x : UInt8) : Line :=
  if x = ctrlP then l
  else if x = ctrlU then ⟨l.committed, []⟩
  else if x = ctrlH ∨ x = delete then ⟨l.committed, l.pending.dropLast⟩
  else l.type x

/-- A read takes committed characters up to and including a newline, or up to a ^D, which it takes
only when it has nothing else to return. -/
def read (target : ℕ) : ℕ → List UInt8 → List UInt8 → List UInt8 × Reader
  | 0, q, got => (q, .returned target got)
  | n + 1, [], got => ([], .asleep target (n + 1) got)
  | n + 1, x :: q, got =>
    if x = ctrlD then (if n + 1 < target then x :: q else q, .returned (target - (n + 1)) got)
    else if x = newline then (q, .returned (target - n) (got ++ [x]))
    else read target n q (got ++ [x])

end Line

inductive Act (P : Type) where
  /-- `consoleintr` of a character. -/
  | intr (x : UInt8)
  | read (p : P) (n : ℤ)
  | resume (p : P)

structure System (D P : Type) where
  dev : D
  reader : P → Reader

structure Discipline (D : Type) where
  intr : D → UInt8 → D
  read : ℕ → ℕ → D → List UInt8 → D × Reader

def Cons.discipline : Discipline Cons := ⟨Cons.consoleintr, Cons.consoleread⟩

def Line.discipline : Discipline Line :=
  ⟨Line.intr, fun target n l got =>
    let x := Line.read target n l.committed got
    (⟨x.1, l.pending⟩, x.2)⟩

variable {D P : Type} [DecidableEq P]

def System.go (s : System D P) (k : Discipline D) (p : P) (target n : ℕ) (got : List UInt8) :
    System D P :=
  let x := k.read target n s.dev got
  ⟨x.1, Function.update s.reader p x.2⟩

@[grind] def System.next (k : Discipline D) (s : System D P) : Act P → Option (System D P)
  | .intr x => some { s with dev := k.intr s.dev x }
  | .read p n =>
    match s.reader p with
    | .asleep _ _ _ => none
    | _ => some (s.go k p n.toNat n.toNat [])
  | .resume p =>
    match s.reader p with
    | .asleep target n got => some (s.go k p target n got)
    | _ => none

def System.boot (P : Type) (buf : Fin inputBufSize → UInt8) : System Cons P :=
  ⟨⟨buf, 0, 0, 0⟩, fun _ => .idle⟩

def System.fresh (P : Type) : System Line P := ⟨⟨[], []⟩, fun _ => .idle⟩

end Xv6.Console
