import Xv6.Fs.Dir
import Xv6.Fs.Format

/-! The image builder `mkfs.c`, which writes the image sector by sector. -/
namespace Xv6.Mkfs
open Function Hoare Fs

structure Build where
  img : Disk
  freeinode : ℕ
  freeblock : ℕ

inductive Failure where
  /-- `assert(index(shortname, '/') == 0)` -/
  | slash
  /-- `assert(strlen(shortname) <= DIRSIZ)` -/
  | long
  | maxfile
  | used
  /-- `die("read")`: the sector lies beyond the end of the image -/
  | read
  deriving DecidableEq

abbrev MkM (α : Type) := Prog Build Failure α

/-- `sb`; there are two blocks before the log, 13 inode blocks and one block for the free map. -/
def superblock : Superblock :=
  ⟨fsmagic, fssize, fssize - (2 + logsize + (ninodes / ipb + 1) + (fssize / bpb + 1)), ninodes,
    logsize, 2, 2 + logsize, 2 + logsize + (ninodes / ipb + 1)⟩

/-- `xint`: the number in the byte order of the kernel. -/
def xint (x : ℕ) : List UInt8 := LittleEndian.bytes x 4

def superblockBytes : List UInt8 :=
  [superblock.magic, superblock.size, superblock.nblocks, superblock.ninodes, superblock.nlog,
    superblock.logstart, superblock.inodestart, superblock.bmapstart].flatMap xint

namespace Build

@[simps -fullyApplied] def setSector (b : Build) (sec : ℕ) (buf : Block) : Build :=
  { b with img := update b.img sec buf }

/-- All sectors are zero but that of the superblock. -/
def start : Build where
  img := update (fun _ => .zero) 1 (.ofBytes fun k => superblockBytes.getD k 0)
  freeinode := 1
  freeblock := superblock.nmeta

/-- The image as the kernel reads it. -/
def disk (b : Build) : Volume := volume b.img

end Build

def rsect (sec : ℕ) : MkM Block := do
  if fssize ≤ sec then throw .read else return (← get).img sec

def wsect (sec : ℕ) (buf : Block) : MkM Unit := modify fun b => b.setSector sec buf

def rinode (inum : ℕ) : MkM Dinode := do
  let buf ← rsect (superblock.iblock inum)
  return buf.dinode (inum % ipb)

def winode (inum : ℕ) (d : Dinode) : MkM Unit := do
  let buf ← rsect (superblock.iblock inum)
  wsect (superblock.iblock inum) (buf.setDinode (inum % ipb) d)

def ialloc (type : FileType) : MkM ℕ := do
  let inum := (← get).freeinode
  modify fun b => { b with freeinode := inum + 1 }
  winode inum ((Dinode.fresh type).setNlink 1)
  return inum

def nextBlock : MkM ℕ := do
  let x := (← get).freeblock
  modify fun b => { b with freeblock := x + 1 }
  return x

/-- `din.addrs[k]`, with a new block if it is zero. -/
def addrFor (din : Dinode) (k : ℕ) : MkM (Dinode × ℕ) := do
  if din.addr k = 0 then
    let x ← nextBlock
    return (din.setAddr k x, x)
  else return (din, din.addr k)

/-- The block with index `fbn` of a file, with new blocks where there are none. -/
def blockFor (din : Dinode) (fbn : ℕ) : MkM (Dinode × ℕ) := do
  if fbn < ndirect then addrFor din fbn
  else
    let (din, a) ← addrFor din ndirect
    let indirect ← rsect a
    if indirect.word (fbn - ndirect) = 0 then
      let x ← nextBlock
      wsect a (indirect.setWord (fbn - ndirect) x)
      return (din, x)
    else return (din, indirect.word (fbn - ndirect))

def bcopy (buf : Block) (pos : ℕ) (p : List UInt8) : Block :=
  .ofBytes fun k => if pos ≤ k then p.getD (k - pos) (buf.byte k) else buf.byte k

def appendLoop : ℕ → Dinode → ℕ → List UInt8 → MkM (Dinode × ℕ)
  | 0, din, off, _ => return (din, off)
  | fuel + 1, din, off, p => do
    if p = [] then return (din, off)
    else if maxfile ≤ off / bsize then throw .maxfile
    else
      let (din, x) ← blockFor din (off / bsize)
      let n1 := min p.length ((off / bsize + 1) * bsize - off)
      let buf ← rsect x
      wsect x (bcopy buf (off - off / bsize * bsize) (p.take n1))
      appendLoop fuel din (off + n1) (p.drop n1)

def iappend (inum : ℕ) (p : List UInt8) : MkM Unit := do
  let din ← rinode inum
  let (din, off) ← appendLoop p.length din din.size p
  winode inum (din.setSize off)

/-- A file on the command line: its path, and its contents in the pieces that `read` delivers. -/
structure Input where
  argv : List UInt8
  chunks : List (List UInt8)
  nul : 0 ∉ argv

def stripUser (argv : List UInt8) : List UInt8 :=
  if argv.take 5 = [117, 115, 101, 114, 47] then argv.drop 5 else argv

def stripUnderscore (name : List UInt8) : List UInt8 :=
  if name.head? = some 95 then name.drop 1 else name

def Input.shortname (f : Input) : List UInt8 := stripUnderscore (stripUser f.argv)

def Input.contents (f : Input) : List UInt8 := f.chunks.flatten

def direntOf (inum : ℕ) (name : List UInt8) : List UInt8 := Dirent.bytes ⟨inum, strncpy dirsiz name⟩

def addFile (f : Input) : MkM Unit := do
  if slash ∈ stripUser f.argv then throw .slash
  else if dirsiz < f.shortname.length then throw .long
  else
    let inum ← ialloc .file
    iappend rootino (direntOf inum f.shortname)
    f.chunks.forM (iappend inum)

/-- `off = ((off/BSIZE) + 1) * BSIZE` for the size of the root directory. -/
def fixRoot : MkM Unit := do
  let din ← rinode rootino
  winode rootino (din.setSize ((din.size / bsize + 1) * bsize))

/-- `buf[i/8] = buf[i/8] | (0x1 << (i%8))`. -/
def mark (buf : Block) (i : ℕ) : Block := .ofBytes fun k =>
  if k = i / 8 then UInt8.ofNat ((buf.byte k).toNat ||| 1 <<< (i % 8)) else buf.byte k

def balloc (used : ℕ) : MkM Unit := do
  if bpb ≤ used then throw .used
  else wsect superblock.bmapstart ((List.range used).foldl mark .zero)

def main (files : List Input) : MkM Unit := do
  let root ← ialloc .dir
  iappend root (direntOf root dot)
  iappend root (direntOf root dotdot)
  files.forM addFile
  fixRoot
  balloc (← get).freeblock

/-- The image for the files as the kernel reads it, if the program does not stop before its end. -/
def image (files : List Input) : Except Failure Volume :=
  (main files Build.start).map fun x => x.2.disk

end Xv6.Mkfs
