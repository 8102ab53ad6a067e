import Xv6.Block
import Xv6.Fs.Dinode
import Xv6.Lib.Hoare

/-! The state of the file system: the disk, the inode table, the file table and the processes.
The disk is seen by areas: the bits of the free map, the inodes, and the blocks with data. -/
namespace Xv6.Fs
open Function Hoare

/-- `FSMAGIC`. -/
def fsmagic : ℕ := 0x10203040

structure Superblock where
  magic : ℕ
  size : ℕ
  nblocks : ℕ
  ninodes : ℕ
  nlog : ℕ
  logstart : ℕ
  inodestart : ℕ
  bmapstart : ℕ
  deriving DecidableEq

namespace Superblock

/-- `IBLOCK`: the block that holds inode `i`. -/
def iblock (sb : Superblock) (i : ℕ) : ℕ := i / ipb + sb.inodestart

/-- `BBLOCK`: the block of the free map that holds the bit of block `b`. -/
def bblock (sb : Superblock) (b : ℕ) : ℕ := b / bpb + sb.bmapstart

/-- The blocks before the data blocks: boot, super, log, inodes and free map. -/
def nmeta (sb : Superblock) : ℕ := sb.size - sb.nblocks

/-- The number of inodes for which there is room between `inodestart` and `bmapstart`. -/
def inodeArea (sb : Superblock) : ℕ := (sb.bmapstart - sb.inodestart) * ipb

end Superblock

@[ext] structure Volume where
  sb : Superblock
  bitmap : ℕ → Bool
  dinode : ℕ → Dinode
  data : ℕ → Block

namespace Volume

@[simps -fullyApplied] def setBit (v : Volume) (b : ℕ) (x : Bool) : Volume :=
  { v with bitmap := update v.bitmap b x }

@[simps -fullyApplied] def setDinode (v : Volume) (i : ℕ) (d : Dinode) : Volume :=
  { v with dinode := update v.dinode i d }

@[simps -fullyApplied] def setData (v : Volume) (b : ℕ) (x : Block) : Volume :=
  { v with data := update v.data b x }

end Volume

/-- `struct inode`, without its number; a sleep lock is never contended in a run of whole calls. -/
structure Inode where
  ref : ℕ
  valid : Bool
  din : Dinode

inductive FileKind where
  | none
  | inode
  | device
  deriving DecidableEq

structure File where
  ref : ℕ
  kind : FileKind
  readable : Bool
  writable : Bool
  ip : ℕ
  off : ℕ
  major : ℤ

structure Proc where
  cwd : ℕ
  ofile : Fin nofile → Option (Fin nfile)

structure State (P : Type) where
  disk : Volume
  /-- The entries of the inode table, by inode number. -/
  inode : ℕ → Inode
  /-- The number of entries with `ref > 0`. -/
  used : ℕ
  file : Fin nfile → File
  proc : P → Option Proc
  /-- Between `begin_op` and `end_op`. -/
  inOp : Bool
  /-- The blocks logged since the last `begin_op`, last first. -/
  logged : List ℕ

inductive Panic where
  /-- `log_write outside of trans` -/
  | logWrite
  /-- `freeing free block` -/
  | freeingFreeBlock
  /-- `iget: no inodes` -/
  | noInodes
  /-- `ilock` -/
  | ilock
  /-- `ilock: no type` -/
  | noType
  /-- No panic of the kernel: the inode number lies beyond the inode blocks, so that the block
  read belongs to another area of the disk. -/
  | noInodeBlock
  /-- `iunlock` -/
  | iunlock
  /-- `bmap: out of range` -/
  | bmapRange
  /-- `dirlookup not DIR` -/
  | notDir
  /-- `dirlookup read` -/
  | dirlookupRead
  /-- `dirlink read` -/
  | dirlinkRead
  /-- `isdirempty: readi` -/
  | isdirempty
  /-- `unlink: nlink < 1` -/
  | unlinkNlink
  /-- `unlink: writei` -/
  | unlinkWritei
  /-- `filedup` -/
  | filedup
  /-- `fileclose` -/
  | fileclose
  /-- `fileread` -/
  | fileread
  /-- `filewrite` -/
  | filewrite
  deriving DecidableEq

abbrev FsM (P α : Type) := Prog (State P) Panic α

variable {P : Type}

namespace State

@[simps -fullyApplied] def setDisk (s : State P) (v : Volume) : State P := { s with disk := v }

@[simps -fullyApplied] def setInode (s : State P) (i : ℕ) (x : Inode) : State P :=
  { s with inode := update s.inode i x }

@[simps -fullyApplied] def setDin (s : State P) (i : ℕ) (d : Dinode) : State P :=
  { s with inode := update s.inode i ⟨(s.inode i).ref, (s.inode i).valid, d⟩ }

@[simps -fullyApplied] def setFile (s : State P) (f : Fin nfile) (x : File) : State P :=
  { s with file := update s.file f x }

@[simps -fullyApplied]
def setProc [DecidableEq P] (s : State P) (p : P) (x : Option Proc) : State P :=
  { s with proc := update s.proc p x }

@[simps -fullyApplied] def log (s : State P) (b : ℕ) : State P := { s with logged := b :: s.logged }

@[simps -fullyApplied] def beginOp (s : State P) : State P := { s with inOp := true, logged := [] }

@[simps -fullyApplied] def endOp (s : State P) : State P := { s with inOp := false }

end State

def beginOp : FsM P Unit := modify State.beginOp

def endOp : FsM P Unit := modify State.endOp

def logWrite (b : ℕ) : FsM P Unit := do
  if (← get).inOp then modify (·.log b) else throw .logWrite

end Xv6.Fs
