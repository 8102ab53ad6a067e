import Xv6.Bio.Cache
import Xv6.Log.Commit
import Xv6.Log.Group
import Xv6.Lib.History

/-! The buffer cache and the log together. Processes read, modify, log and release buffers, inside
and outside operations, while the process that ended the last operation runs `commit` through the
same `bread`, `bwrite` and `brelse`. -/
namespace Xv6.Bio
open Function Log

inductive Panic where
  /-- "bget: no buffers" -/
  | noBuffers
  /-- "bwrite" -/
  | bwrite
  /-- "brelse" -/
  | brelse
  deriving DecidableEq

/-- Where the committing process stands inside `write_head` or one turn of the loop of `write_log`
or `install_trans`, with the buffers it has read: first the log block, then the home block. -/
inductive Job where
  | start
  | first (i : Fin nbuf)
  | both (i j : Fin nbuf)
  | moved (i j : Fin nbuf)
  | written (i j : Fin nbuf)
  | unpinned (i j : Fin nbuf)
  | last (i : Fin nbuf)
  | finish
  deriving DecidableEq

abbrev Event := History.Event ℕ Block

/-- `copied` and `unpinned` count the turns of `write_log` and `install_trans` since the log was
last erased; `events` lists what `bread` returned and `log_write` was given, in order. No step
reads these three. -/
structure System (P : Type) where
  group : GroupState P
  cache : Cache P
  job : P → Job
  panic : Option Panic
  copied : ℕ
  unpinned : ℕ
  events : List Event

inductive Action (P : Type) where
  /-- a critical section of `log.c` other than `log_write`, or a position of `commit` left -/
  | log (a : Log.Action P)
  | bread (p : P) (b : ℕ)
  | acquiresleep (p : P)
  | fill (p : P)
  | modify (p : P) (i : Fin nbuf) (v : Block)
  | logWrite (p : P) (i : Fin nbuf)
  | brelse (p : P) (i : Fin nbuf)
  | deref (p : P)
  /-- a step of the committing process at its buffers -/
  | commit (p : P)

def usesBuffers (n : ℕ) : CommitPc → Bool
  | .writeLog tail | .install tail => tail < n
  | .writeHead | .eraseHead => true
  | _ => false

variable {P : Type} [DecidableEq P]

namespace System

def init (size : ℕ) (c : Cache P) : System P :=
  { group := .init size, cache := c, job := fun _ => .start, panic := none, copied := 0,
    unpinned := 0, events := [] }

/-- Process `p` runs code outside `begin_op`, `commit`, `bread` and `brelse`. -/
def Running (s : System P) (p : P) : Prop :=
  (s.group.pc p = .user ∨ s.group.pc p = .op) ∧ s.cache.io p = .idle

instance (s : System P) (p : P) : Decidable (s.Running p) := by
  unfold Running
  infer_instance

/-- The system is at a boundary where `log.c` alone acts. -/
def AtBoundary (s : System P) : Log.Action P → Prop
  | .logWrite _ _ => False
  | .commit p c => s.cache.io p = .idle ∧
      s.job p = if usesBuffers s.group.log.lh.length c then .finish else .start
  | .callBegin p | .testLog p | .endOp p | .kill p => s.cache.io p = .idle

instance (s : System P) : ∀ a, Decidable (s.AtBoundary a)
  | .logWrite _ _ => isFalse id
  | .commit p c => inferInstanceAs (Decidable (s.cache.io p = .idle ∧
      s.job p = if usesBuffers s.group.log.lh.length c then .finish else .start))
  | .callBegin p | .testLog p | .endOp p | .kill p =>
    inferInstanceAs (Decidable (s.cache.io p = .idle))

def logStep (s : System P) (a : Log.Action P) (t : GroupState P) : System P :=
  match a with
  | .commit p .erase => { s with
      group := t, job := update s.job p .start, copied := 0, unpinned := 0 }
  | .commit p _ => { s with group := t, job := update s.job p .start }
  | _ => { s with group := t }

def startRead (s : System P) (p : P) (b : ℕ) (next : Fin nbuf → Job) : System P :=
  match s.cache.bget p rootdev b with
  | none => { s with panic := some .noBuffers }
  | some (i, c) => { s with cache := c, job := update s.job p (next i) }

def move (s : System P) (p : P) (i : Fin nbuf) (v : Block) (next : Job) : System P :=
  { s with cache := s.cache.setData i v, job := update s.job p next }

def write (s : System P) (p : P) (i : Fin nbuf) (next : Job) (copied : ℕ) : System P :=
  if (s.cache.buf i).lock = some p then
    { s with cache := s.cache.bwrite i, job := update s.job p next, copied := copied }
  else { s with panic := some .bwrite }

def release (s : System P) (p : P) (i : Fin nbuf) (next : Job) : System P :=
  if (s.cache.buf i).lock = some p then
    { s with cache := s.cache.releasesleep p i, job := update s.job p next }
  else { s with panic := some .brelse }

/-- One turn of the loop of `write_log` at index `tail`, for block `b = log.lh.block[tail]`. -/
def writeLogStep (g : LogArea) (s : System P) (p : P) (tail b : ℕ) : Option (System P) :=
  match s.job p with
  | .start => some (s.startRead p (g.start + tail + 1) .first)
  | .first i => some (s.startRead p b (.both i))
  | .both i j => some (s.move p i (s.cache.buf j).data (.moved i j))
  | .moved i j => some (s.write p i (.written i j) (tail + 1))
  | .written i j => some (s.release p j (.last i))
  | .last i => some (s.release p i .finish)
  | _ => none

def writeHeadStep (g : LogArea) (s : System P) (p : P) : Option (System P) :=
  match s.job p with
  | .start => some (s.startRead p g.start .first)
  | .first i => some (s.move p i (headBlock s.group.log.lh (s.cache.buf i).data) (.moved i i))
  | .moved i j => some (s.write p i (.written i j) s.copied)
  | .written i _ => some (s.release p i .finish)
  | _ => none

/-- One turn of the loop of `install_trans(0)` at index `tail`. -/
def installStep (g : LogArea) (s : System P) (p : P) (tail b : ℕ) : Option (System P) :=
  match s.job p with
  | .start => some (s.startRead p (g.start + tail + 1) .first)
  | .first i => some (s.startRead p b (.both i))
  | .both i j => some (s.move p j (s.cache.buf i).data (.moved i j))
  | .moved i j => some (s.write p j (.written i j) s.copied)
  | .written i j => some { s with
      cache := s.cache.bunpin j
      job := update s.job p (.unpinned i j)
      unpinned := tail + 1 }
  | .unpinned i j => some (s.release p i (.last j))
  | .last j => some (s.release p j .finish)
  | _ => none

def commitStep (g : LogArea) (s : System P) (p : P) : Option (System P) :=
  match s.group.pc p with
  | .commit (.writeLog tail) => (s.group.log.lh[tail]?).bind (writeLogStep g s p tail)
  | .commit .writeHead | .commit .eraseHead => writeHeadStep g s p
  | .commit (.install tail) => (s.group.log.lh[tail]?).bind (installStep g s p tail)
  | _ => none

/-- The caller of `log_write` passes a buffer that it holds. -/
def logWriteStep (s : System P) (p : P) (i : Fin nbuf) : System P :=
  let b := (s.cache.buf i).blockno
  match Log.logWrite s.group.log b with
  | .error e => { s with group := { s.group with panic := some e } }
  | .ok (l, added) => { s with
      group := { s.group with
        log := l
        current := update s.group.current p (s.group.current p ++ [(b, s.group.commits.length)]) }
      cache := s.cache.logWrite i added
      events := s.events ++ [.write b (s.cache.buf i).data] }

/-- The last step of `bread`; what it returns for a block outside the log area is recorded. -/
def fillStep (g : LogArea) (s : System P) (i : Fin nbuf) (c : Cache P) : System P :=
  { s with
    cache := c
    events := if g.Contains (c.buf i).blockno then s.events
      else s.events ++ [.read (c.buf i).blockno (c.buf i).data] }

/-- One step. Callers read blocks outside the log area, modify and log only buffers they hold, and
do not release a buffer that they modified and did not log since. -/
def next (g : LogArea) (s : System P) (a : Action P) : Option (System P) :=
  if s.panic.isSome ∨ s.group.panic.isSome then none else
  match a with
  | .log a => if s.AtBoundary a then (s.group.next a).map (s.logStep a) else none
  | .bread p b => if s.Running p ∧ ¬ g.Contains b then some (s.startRead p b fun _ => s.job p)
      else none
  | .acquiresleep p => (s.cache.acquiresleep p).map fun c => { s with cache := c }
  | .fill p => (s.cache.fill p).map fun r => s.fillStep g r.1 r.2
  | .modify p i v =>
    if s.Running p ∧ (s.cache.buf i).lock = some p then some { s with cache := s.cache.setData i v }
    else none
  | .logWrite p i =>
    if s.Running p ∧ (s.cache.buf i).lock = some p then some (s.logWriteStep p i) else none
  | .brelse p i =>
    if s.Running p ∧ s.cache.dirty i = false then some (s.release p i (s.job p)) else none
  | .deref p => (s.cache.deref p).map fun c => { s with cache := c }
  | .commit p => if s.cache.io p = .idle then s.commitStep g p else none

end System
end Xv6.Bio
