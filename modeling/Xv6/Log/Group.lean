import Xv6.Params
import Xv6.Lib.Transition
import Xv6.Lib.Counting

/-! Group commit: the critical sections of `begin_op`, `log_write` and `end_op`, and the system of
any number of processes that run them while one of them may be inside `commit`. -/
namespace Xv6.Log
open Function

/-- The fields of `struct log` that `log.lock` protects; `lh` lists `log.lh.block[0 ..
log.lh.n)`. -/
structure LogState where
  size : ℕ
  outstanding : ℕ
  committing : Bool
  lh : List ℕ
  deriving DecidableEq

inductive Panic where
  /-- "too big a transaction" -/
  | tooBig
  /-- "log_write outside of trans" -/
  | outsideTrans
  /-- "log.committing" -/
  | logCommitting
  deriving DecidableEq

/-- One turn of the loop of `begin_op`; `none` is `sleep(&log, &log.lock)`. -/
@[grind] def beginOp (l : LogState) : Option LogState :=
  if l.committing then none
  else if l.lh.length + (l.outstanding + 1) * maxopblocks > logsize then none
  else some { l with outstanding := l.outstanding + 1 }

/-- `log_write`. The flag tells whether the block was added, and so pinned. -/
@[grind] def logWrite (l : LogState) (b : ℕ) : Except Panic (LogState × Bool) :=
  if l.lh.length ≥ logsize ∨ l.lh.length ≥ l.size - 1 then .error .tooBig
  else if l.outstanding < 1 then .error .outsideTrans
  else if b ∈ l.lh then .ok (l, false)
  else .ok ({ l with lh := l.lh ++ [b] }, true)

/-- The first critical section of `end_op`. The flag is `do_commit`; without it the section ends
with `wakeup(&log)`. -/
@[grind] def endOp (l : LogState) : Except Panic (LogState × Bool) :=
  let l := { l with outstanding := l.outstanding - 1 }
  if l.committing then .error .logCommitting
  else if l.outstanding = 0 then .ok ({ l with committing := true }, true)
  else .ok (l, false)

/-- Positions inside `commit`, one for each block it writes and each change of `log.lh`. -/
inductive CommitPc where
  | enter
  | writeLog (tail : ℕ)
  | writeHead
  | install (tail : ℕ)
  | erase
  | eraseHead
  | done
  deriving DecidableEq

/-- The position that follows `c` when the log holds `n` blocks. -/
def CommitPc.advance (n : ℕ) : CommitPc → CommitPc
  | .enter => if n > 0 then .writeLog 0 else .done
  | .writeLog tail => if tail < n then .writeLog (tail + 1) else .writeHead
  | .writeHead => .install 0
  | .install tail => if tail < n then .install (tail + 1) else .erase
  | .erase => .eraseHead
  | .eraseHead => .done
  | .done => .done

inductive Pc where
  | user
  /-- in `begin_op`, runnable, about to test the log under `log.lock` -/
  | begin
  /-- in `begin_op`, SLEEPING on `&log` -/
  | sleep
  /-- between `begin_op` and `end_op` -/
  | op
  | commit (c : CommitPc)
  deriving DecidableEq

/-- What an operation has passed to `log_write`: each block with the number of commits entered
before the call. -/
abbrev OpRecord := List (ℕ × ℕ)

/-- The log and its processes. `current`, `finished` and `commits` only record history: the writes
of each running operation, those of the operations past `end_op`, and the contents of the log at
each entry of `commit`. -/
structure GroupState (P : Type) where
  log : LogState
  pc : P → Pc
  panic : Option Panic
  current : P → OpRecord
  finished : List OpRecord
  commits : List (List ℕ)

inductive Action (P : Type) where
  | callBegin (p : P)
  | testLog (p : P)
  | logWrite (p : P) (b : ℕ)
  | endOp (p : P)
  | commit (p : P) (c : CommitPc)
  | kill (p : P)
  deriving DecidableEq

variable {P : Type} [DecidableEq P]

def wakeup (pc : P → Pc) : P → Pc := fun p => if pc p = .sleep then .begin else pc p

namespace GroupState

def init (size : ℕ) : GroupState P :=
  { log := ⟨size, 0, false, []⟩, pc := fun _ => .user, panic := none, current := fun _ => [],
    finished := [], commits := [] }

@[grind] def setPc (s : GroupState P) (p : P) (c : Pc) : GroupState P :=
  { s with pc := update s.pc p c }

def commitStep (s : GroupState P) (p : P) (c : CommitPc) : GroupState P :=
  let pc := update s.pc p (.commit (c.advance s.log.lh.length))
  match c with
  | .enter => { s with pc := pc, commits := s.commits ++ [s.log.lh] }
  | .erase => { s with pc := pc, log := { s.log with lh := [] } }
  | .done => { s with
      log := { s.log with committing := false }
      pc := wakeup (update s.pc p .user) }
  | _ => { s with pc := pc }

/-- One step. A panic stops the system; an action that is not enabled gives `none`. -/
def next (s : GroupState P) (a : Action P) : Option (GroupState P) :=
  if s.panic.isSome then none else
  match a with
  | .callBegin p => if s.pc p = .user then some (s.setPc p .begin) else none
  | .testLog p =>
    if s.pc p = .begin then
      match beginOp s.log with
      | none => some (s.setPc p .sleep)
      | some l => some { s with
          log := l
          pc := update s.pc p .op
          current := update s.current p [] }
    else none
  | .logWrite p b =>
    if s.pc p = .op then
      match Log.logWrite s.log b with
      | .error e => some { s with panic := some e }
      | .ok (l, _) => some { s with
          log := l
          current := update s.current p (s.current p ++ [(b, s.commits.length)]) }
    else none
  | .endOp p =>
    if s.pc p = .op then
      match Log.endOp s.log with
      | .error e => some { s with panic := some e }
      | .ok (l, doCommit) => some { s with
          log := l
          pc := if doCommit then update s.pc p (.commit .enter)
            else wakeup (update s.pc p .user)
          finished := s.finished ++ [s.current p] }
    else none
  | .commit p c => if s.pc p = .commit c then some (s.commitStep p c) else none
  | .kill p => if s.pc p = .sleep then some (s.setPc p .begin) else none

end GroupState
end Xv6.Log
