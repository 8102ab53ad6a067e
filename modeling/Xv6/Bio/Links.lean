import Xv6.Lib.Counting
import Xv6.Lib.Dlist
import Xv6.Lib.Transition
import Xv6.Params

/-! The list of the buffer cache, after `bio.c`. The buffers are linked by `prev` and `next` through
`bcache.head`; each critical section under `bcache.lock` is one step of a process. -/
namespace Xv6.Bio.Lru
open Function Counting Dlist

/-- The fields of `struct buf` that `bcache.lock` protects, and the owner of its sleep lock. -/
structure Buf (P : Type) where
  dev : ℕ
  blockno : ℕ
  valid : Bool
  refcnt : ℕ
  lock : Option P

inductive Pos where
  | idle
  | acquire (b : Fin nbuf)
  /-- `brelse`, after `releasesleep` -/
  | deref (b : Fin nbuf)
  deriving DecidableEq

/-- The last three fields record history: the number of pins of each buffer, the number of releases
so far, and the number of the last release of each buffer. -/
structure Cache (P : Type) where
  links : Links (Fin nbuf)
  buf : Fin nbuf → Buf P
  pos : P → Pos
  pins : Fin nbuf → ℕ
  clock : ℕ
  released : Fin nbuf → ℕ

variable {P : Type}

namespace Buf

@[simps -fullyApplied, grind] def setRef (b : Buf P) (n : ℕ) : Buf P := { b with refcnt := n }

@[simps -fullyApplied, grind] def setLock (b : Buf P) (o : Option P) : Buf P := { b with lock := o }

@[simps -fullyApplied] def recycle (b : Buf P) (dev blockno : ℕ) : Buf P :=
  ⟨dev, blockno, false, 1, b.lock⟩

end Buf

namespace Cache

/-- The loop of `binit` puts each buffer at the front of the list. -/
def binit : Cache P where
  links := (List.finRange nbuf).foldl Links.pushFront .empty
  buf := fun _ => ⟨0, 0, false, 0, none⟩
  pos := fun _ => .idle
  pins := fun _ => 0
  clock := 0
  released := fun _ => 0

@[simps -fullyApplied, grind] def setBuf (c : Cache P) (b : Fin nbuf) (x : Buf P) : Cache P :=
  { c with buf := update c.buf b x }

def cached (c : Cache P) (dev blockno : ℕ) : Option (Fin nbuf) :=
  scan c.links.next (fun b => (c.buf b).dev = dev ∧ (c.buf b).blockno = blockno) nbuf
    (c.links.next none)

def unused (c : Cache P) : Option (Fin nbuf) :=
  scan c.links.prev (fun b => (c.buf b).refcnt = 0) nbuf (c.links.prev none)

@[simps -fullyApplied] def deref (c : Cache P) (b : Fin nbuf) : Cache P where
  links := if (c.buf b).refcnt - 1 = 0 then (c.links.unlink b).pushFront b else c.links
  buf := update c.buf b ((c.buf b).setRef ((c.buf b).refcnt - 1))
  pos := c.pos
  pins := c.pins
  clock := c.clock + 1
  released := update c.released b (c.clock + 1)

variable [DecidableEq P]

@[simps -fullyApplied, grind] def setPos (c : Cache P) (p : P) (x : Pos) : Cache P :=
  { c with pos := update c.pos p x }

/-- `bget`, up to `acquiresleep`; `none` for the panic when there is no unused buffer. -/
@[grind] def bget (c : Cache P) (p : P) (dev blockno : ℕ) : Option (Cache P) :=
  match c.cached dev blockno with
  | some b => some ((c.setBuf b ((c.buf b).setRef ((c.buf b).refcnt + 1))).setPos p (.acquire b))
  | none =>
    match c.unused with
    | some b => some ((c.setBuf b ((c.buf b).recycle dev blockno)).setPos p (.acquire b))
    | none => none

inductive Act (P : Type) where
  | bget (p : P) (dev blockno : ℕ)
  | acquiresleep (p : P)
  | brelse (p : P) (b : Fin nbuf)
  | deref (p : P)
  | bpin (p : P) (b : Fin nbuf)
  | bunpin (p : P) (b : Fin nbuf)

def next (c : Cache P) : Act P → Option (Cache P)
  | .bget p dev blockno => if c.pos p = .idle ∧ 1 ≤ dev then c.bget p dev blockno else none
  | .acquiresleep p =>
    match c.pos p with
    | .acquire b =>
      if (c.buf b).lock = none then some ((c.setBuf b ((c.buf b).setLock (some p))).setPos p .idle)
      else none
    | _ => none
  | .brelse p b =>
    if c.pos p = .idle ∧ (c.buf b).lock = some p then
      some ((c.setBuf b ((c.buf b).setLock none)).setPos p (.deref b))
    else none
  | .deref p =>
    match c.pos p with
    | .deref b => some ((c.deref b).setPos p .idle)
    | _ => none
  | .bpin p b =>
    if c.pos p = .idle ∧ (c.buf b).lock = some p then
      some { c.setBuf b ((c.buf b).setRef ((c.buf b).refcnt + 1)) with
        pins := update c.pins b (c.pins b + 1) }
    else none
  | .bunpin p b =>
    if c.pos p = .idle ∧ (c.buf b).lock = some p ∧ 0 < c.pins b then
      some { c.setBuf b ((c.buf b).setRef ((c.buf b).refcnt - 1)) with
        pins := update c.pins b (c.pins b - 1) }
    else none

end Cache

/-- One for a call that has counted its reference to `b` and does not hold the lock. -/
def Pos.refs (b : Fin nbuf) : Pos → ℕ
  | .idle => 0
  | .acquire c | .deref c => if c = b then 1 else 0

/-- The calls between the increment of `bget` and the decrement of `brelse`. -/
def Cache.callers [Fintype P] (c : Cache P) (b : Fin nbuf) : ℕ :=
  total (Pos.refs b) c.pos + if (c.buf b).lock = none then 0 else 1

end Xv6.Bio.Lru
