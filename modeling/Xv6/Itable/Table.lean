import Xv6.Fs.Dinode
import Xv6.Lib.Transition

/-! The inode table of `fs.c` shared by any number of processes. Each critical section under
`itable.lock` is one step; the code that runs under an inode's sleep lock is split at every change
of the in-memory inode and of its on-disk copy. -/
namespace Xv6.Itable
open Function

/-- `struct inode`: `din` holds the fields copied from disk, `lock` the holder of the sleep lock. -/
structure Inode (P : Type) where
  dev : ℕ
  inum : ℕ
  ref : ℕ
  lock : Option P
  valid : Bool
  din : Dinode

inductive Panic where
  /-- "iget: no inodes" -/
  | noInodes
  /-- "ilock" -/
  | ilock
  /-- "ilock: no type" -/
  | noType
  /-- "iunlock" -/
  | iunlock
  deriving DecidableEq

inductive Pc where
  | idle
  /-- `ilock` waits for the sleep lock -/
  | lock (i : Fin ninode)
  /-- `ilock` holds the sleep lock and tests `ip->valid` -/
  | load (i : Fin ninode)
  /-- `iput` holds the sleep lock and is about to call `itrunc` -/
  | trunc (i : Fin ninode)
  | untype (i : Fin ninode)
  /-- the `iupdate` that frees the inode on disk -/
  | free (i : Fin ninode)
  | clear (i : Fin ninode)
  | unlock (i : Fin ninode)
  /-- the last critical section of `iput`, on the freeing path -/
  | drop (i : Fin ninode)
  /-- `ialloc` is about to read inode `inum` -/
  | scan (dev : ℕ) (t : FileType) (inum : ℕ)
  /-- `ialloc` has marked inode `inum` allocated and is about to call `iget` -/
  | get (dev inum : ℕ)
  deriving DecidableEq

/-- The table, the inodes on disk and the processes. `refs` counts the references that each process
holds and `changed` marks inodes modified since the last `iupdate`; both only record history. -/
structure Table (P : Type) where
  inode : Fin ninode → Inode P
  disk : ℕ → ℕ → Dinode
  pc : P → Pc
  panic : Option Panic
  refs : P → Fin ninode → ℕ
  changed : Fin ninode → Bool

inductive Action (P : Type) where
  | iget (p : P) (dev inum : ℕ)
  | idup (p : P) (i : Fin ninode)
  /-- a reference passes to another process, as with files shared by `fork` -/
  | give (p q : P) (i : Fin ninode)
  | ilock (p : P) (i : Fin ninode)
  /-- the holder of the lock assigns to fields other than `type` -/
  | modify (p : P) (i : Fin ninode) (d : Dinode)
  | iupdate (p : P) (i : Fin ninode)
  | itrunc (p : P) (i : Fin ninode)
  | iunlock (p : P) (i : Fin ninode)
  | iput (p : P) (i : Fin ninode)
  | ialloc (p : P) (dev : ℕ) (t : FileType)
  /-- the next step of a process inside `ilock`, `iput` or `ialloc` -/
  | step (p : P)
  deriving DecidableEq

variable {P : Type}

namespace Inode

def setRef (x : Inode P) (n : ℕ) : Inode P := { x with ref := n }

def setLock (x : Inode P) (o : Option P) : Inode P := { x with lock := o }

def setDin (x : Inode P) (d : Dinode) : Inode P := { x with din := d }

def load (x : Inode P) (d : Dinode) : Inode P := { x with valid := true, din := d }

def clear (x : Inode P) : Inode P := { x with valid := false }

/-- `iget` gives an unused entry to another inode. -/
def recycle (x : Inode P) (dev inum : ℕ) : Inode P :=
  { x with dev := dev, inum := inum, ref := 1, valid := false }

end Inode

namespace Table

def init (disk : ℕ → ℕ → Dinode) : Table P :=
  { inode := fun _ => ⟨0, 0, 0, none, false, .fresh .free⟩
    disk := disk
    pc := fun _ => .idle
    panic := none
    refs := fun _ _ => 0
    changed := fun _ => false }

def fail (s : Table P) (e : Panic) : Table P := { s with panic := some e }

def find (s : Table P) (dev inum : ℕ) : Option (Fin ninode) :=
  (List.finRange ninode).find? fun i =>
    decide ((s.inode i).ref > 0 ∧ (s.inode i).dev = dev ∧ (s.inode i).inum = inum)

def findEmpty (s : Table P) : Option (Fin ninode) :=
  (List.finRange ninode).find? fun i => decide ((s.inode i).ref = 0)

variable [DecidableEq P]

def setInode (s : Table P) (i : Fin ninode) (x : Inode P) : Table P :=
  { s with inode := update s.inode i x }

def setPc (s : Table P) (p : P) (c : Pc) : Table P :=
  { s with pc := update s.pc p c }

def setDisk (s : Table P) (dev inum : ℕ) (d : Dinode) : Table P :=
  { s with disk := update s.disk dev (update (s.disk dev) inum d) }

def setRefs (s : Table P) (p : P) (i : Fin ninode) (n : ℕ) : Table P :=
  { s with refs := update s.refs p (update (s.refs p) i n) }

def setChanged (s : Table P) (i : Fin ninode) (b : Bool) : Table P :=
  { s with changed := update s.changed i b }

def iget (s : Table P) (p : P) (dev inum : ℕ) : Table P :=
  match s.find dev inum with
  | some i => (s.setInode i ((s.inode i).setRef ((s.inode i).ref + 1))).setRefs p i (s.refs p i + 1)
  | none =>
    match s.findEmpty with
    | some i => (s.setInode i ((s.inode i).recycle dev inum)).setRefs p i (s.refs p i + 1)
    | none => s.fail .noInodes

def writeBack (s : Table P) (i : Fin ninode) : Table P :=
  (s.setDisk (s.inode i).dev (s.inode i).inum (s.inode i).din).setChanged i false

/-- Process `p` has a reference on `i` besides the one that goes with the lock it may hold. -/
def Spare (s : Table P) (p : P) (i : Fin ninode) : Prop :=
  (if (s.inode i).lock = some p then 1 else 0) < s.refs p i

instance (s : Table P) (p : P) (i : Fin ninode) : Decidable (s.Spare p i) := by
  unfold Spare
  infer_instance

/-- The first critical section of `iput`; on the freeing path `acquiresleep` waits while another
process holds the lock. -/
def iput (s : Table P) (p : P) (i : Fin ninode) : Option (Table P) :=
  if (s.inode i).ref = 1 ∧ (s.inode i).valid = true ∧ (s.inode i).din.nlink = 0 then
    if (s.inode i).lock = none then
      some ((s.setInode i ((s.inode i).setLock (some p))).setPc p (.trunc i))
    else none
  else some ((s.setInode i ((s.inode i).setRef ((s.inode i).ref - 1))).setRefs p i (s.refs p i - 1))

/-- The next step of a process inside `ilock`, `iput` or `ialloc`, on a disk of `n` inodes. -/
def stepOf (n : ℕ) (s : Table P) (p : P) : Option (Table P) :=
  match s.pc p with
  | .idle => none
  | .lock i =>
    if (s.inode i).lock = none then
      some ((s.setInode i ((s.inode i).setLock (some p))).setPc p (.load i))
    else none
  | .load i =>
    if (s.inode i).valid = true then some (s.setPc p .idle)
    else
      let d := s.disk (s.inode i).dev (s.inode i).inum
      let t := (s.setInode i ((s.inode i).load d)).setPc p .idle
      if d.type = .free then some (t.fail .noType) else some t
  | .trunc i =>
    some (((s.setInode i ((s.inode i).setDin (s.inode i).din.truncated)).writeBack i).setPc p
      (.untype i))
  | .untype i =>
    some ((s.setInode i ((s.inode i).setDin ((s.inode i).din.setType .free))).setPc p (.free i))
  | .free i => some ((s.writeBack i).setPc p (.clear i))
  | .clear i => some ((s.setInode i (s.inode i).clear).setPc p (.unlock i))
  | .unlock i => some ((s.setInode i ((s.inode i).setLock none)).setPc p (.drop i))
  | .drop i =>
    some (((s.setInode i ((s.inode i).setRef ((s.inode i).ref - 1))).setRefs p i
      (s.refs p i - 1)).setPc p .idle)
  | .scan dev t inum =>
    if inum < n then
      if (s.disk dev inum).type = .free then
        some ((s.setDisk dev inum (.fresh t)).setPc p (.get dev inum))
      else some (s.setPc p (.scan dev t (inum + 1)))
    else some (s.setPc p .idle)
  | .get dev inum => some ((s.iget p dev inum).setPc p .idle)

/-- One step. A process that is not inside one of the functions follows the discipline of the
callers: it uses only references it has, keeps one as long as it holds the lock, changes fields
under the lock, and calls `iupdate` before unlocking a changed inode. -/
def next (n : ℕ) (s : Table P) (a : Action P) : Option (Table P) :=
  if s.panic.isSome then none else
  match a with
  | .iget p dev inum => if s.pc p = .idle then some (s.iget p dev inum) else none
  | .idup p i =>
    if s.pc p = .idle ∧ 0 < s.refs p i then
      some ((s.setInode i ((s.inode i).setRef ((s.inode i).ref + 1))).setRefs p i (s.refs p i + 1))
    else none
  | .give p q i =>
    if s.pc p = .idle ∧ s.Spare p i ∧ p ≠ q then
      some ((s.setRefs p i (s.refs p i - 1)).setRefs q i (s.refs q i + 1))
    else none
  | .ilock p i =>
    if s.pc p = .idle ∧ s.Spare p i then
      if (s.inode i).ref < 1 then some (s.fail .ilock)
      else some (s.setPc p (.lock i))
    else none
  | .modify p i d =>
    if s.pc p = .idle ∧ (s.inode i).lock = some p ∧ d.type = (s.inode i).din.type then
      some ((s.setInode i ((s.inode i).setDin d)).setChanged i true)
    else none
  | .iupdate p i =>
    if s.pc p = .idle ∧ (s.inode i).lock = some p then some (s.writeBack i) else none
  | .itrunc p i =>
    if s.pc p = .idle ∧ (s.inode i).lock = some p then
      some ((s.setInode i ((s.inode i).setDin (s.inode i).din.truncated)).writeBack i)
    else none
  | .iunlock p i =>
    if s.pc p = .idle ∧ (s.inode i).lock = some p ∧ s.changed i = false then
      if (s.inode i).ref < 1 then some (s.fail .iunlock)
      else some (s.setInode i ((s.inode i).setLock none))
    else none
  | .iput p i => if s.pc p = .idle ∧ s.Spare p i then s.iput p i else none
  | .ialloc p dev t =>
    if s.pc p = .idle ∧ t ≠ .free then some (s.setPc p (.scan dev t 1)) else none
  | .step p => s.stepOf n p

end Table
end Xv6.Itable
