import Xv6.Block

/-! The buffer cache of `bio.c`, one definition for each critical section, with the disk behind it
and the position of each process inside `bread` and `brelse`. -/
namespace Xv6.Bio
open Function

/-- `struct buf`; `lock` is the process that holds the sleep lock. -/
structure Buf (P : Type) where
  valid : Bool
  dev : ℕ
  blockno : ℕ
  lock : Option P
  refcnt : ℕ
  data : Block

inductive Io where
  | idle
  /-- `bget` has counted the reference and waits in `acquiresleep(&b->lock)` -/
  | acquire (i : Fin nbuf)
  /-- `bread` holds the lock and tests `b->valid` -/
  | fill (i : Fin nbuf)
  /-- `brelse` has released the sleep lock and is about to drop the reference -/
  | deref (i : Fin nbuf)
  deriving DecidableEq

/-- `bcache` and the disk. `lru` runs from `head.next`, the most recently used buffer, to
`head.prev`. The last three fields record history: the contents last passed to `log_write` or
`bwrite` for each block, the buffers modified since, and the blocks that `log_write` pinned. -/
structure Cache (P : Type) where
  buf : Fin nbuf → Buf P
  lru : List (Fin nbuf)
  disk : Disk
  io : P → Io
  view : Disk
  dirty : Fin nbuf → Bool
  pinned : Finset ℕ

variable {P : Type}

namespace Buf

def incref (b : Buf P) : Buf P := { b with refcnt := b.refcnt + 1 }

def decref (b : Buf P) : Buf P := { b with refcnt := b.refcnt - 1 }

def setLock (b : Buf P) (o : Option P) : Buf P := { b with lock := o }

def setData (b : Buf P) (v : Block) : Buf P := { b with data := v }

def recycle (b : Buf P) (dev blockno : ℕ) : Buf P :=
  { b with dev := dev, blockno := blockno, valid := false, refcnt := 1 }

/-- `bread` on a locked buffer: read the disk unless the contents are valid. -/
def fill (b : Buf P) (d : Disk) : Buf P :=
  { b with data := if b.valid then b.data else d b.blockno, valid := true }

end Buf

namespace Cache

def binit (d : Disk) : Cache P :=
  { buf := fun _ => ⟨false, 0, 0, none, 0, Block.zero⟩
    lru := (List.finRange nbuf).reverse
    disk := d
    io := fun _ => .idle
    view := d
    dirty := fun _ => false
    pinned := ∅ }

def findCached (c : Cache P) (dev blockno : ℕ) : Option (Fin nbuf) :=
  c.lru.find? fun i => decide ((c.buf i).dev = dev ∧ (c.buf i).blockno = blockno)

def findUnused (c : Cache P) : Option (Fin nbuf) :=
  c.lru.reverse.find? fun i => decide ((c.buf i).refcnt = 0)

variable [DecidableEq P]

def put (c : Cache P) (i : Fin nbuf) (b : Buf P) (p : P) (v : Io) : Cache P :=
  { c with buf := update c.buf i b, io := update c.io p v }

/-- The critical section of `bget`; `none` is the panic "bget: no buffers". -/
def bget (c : Cache P) (p : P) (dev blockno : ℕ) : Option (Fin nbuf × Cache P) :=
  match c.findCached dev blockno with
  | some i => some (i, c.put i (c.buf i).incref p (.acquire i))
  | none =>
    match c.findUnused with
    | some i => some (i, c.put i ((c.buf i).recycle dev blockno) p (.acquire i))
    | none => none

def acquiresleep (c : Cache P) (p : P) : Option (Cache P) :=
  match c.io p with
  | .acquire i =>
    if (c.buf i).lock = none then some (c.put i ((c.buf i).setLock (some p)) p (.fill i)) else none
  | _ => none

def fill (c : Cache P) (p : P) : Option (Fin nbuf × Cache P) :=
  match c.io p with
  | .fill i => some (i, c.put i ((c.buf i).fill c.disk) p .idle)
  | _ => none

def setData (c : Cache P) (i : Fin nbuf) (v : Block) : Cache P :=
  { c with
    buf := update c.buf i ((c.buf i).setData v)
    dirty := update c.dirty i true }

def bwrite (c : Cache P) (i : Fin nbuf) : Cache P :=
  { c with
    disk := update c.disk (c.buf i).blockno (c.buf i).data
    view := update c.view (c.buf i).blockno (c.buf i).data
    dirty := update c.dirty i false }

/-- What `log_write` does to the cache; `added` tells whether it calls `bpin`. -/
def logWrite (c : Cache P) (i : Fin nbuf) (added : Bool) : Cache P :=
  { c with
    buf := if added then update c.buf i (c.buf i).incref else c.buf
    view := update c.view (c.buf i).blockno (c.buf i).data
    dirty := update c.dirty i false
    pinned := insert (c.buf i).blockno c.pinned }

def bunpin (c : Cache P) (i : Fin nbuf) : Cache P :=
  { c with
    buf := update c.buf i (c.buf i).decref
    pinned := c.pinned.erase (c.buf i).blockno }

def releasesleep (c : Cache P) (p : P) (i : Fin nbuf) : Cache P :=
  c.put i ((c.buf i).setLock none) p (.deref i)

/-- The critical section of `brelse`: an unused buffer moves to the head of the list. -/
def deref (c : Cache P) (p : P) : Option (Cache P) :=
  match c.io p with
  | .deref i => some { c with
      buf := update c.buf i (c.buf i).decref
      io := update c.io p .idle
      lru := if (c.buf i).refcnt - 1 = 0 then i :: c.lru.erase i else c.lru }
  | _ => none

end Cache
end Xv6.Bio
