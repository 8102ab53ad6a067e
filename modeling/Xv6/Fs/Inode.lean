import Xv6.Fs.State

/-! Blocks, inodes and their contents, after `fs.c`. An inode is named by its number. -/
namespace Xv6.Fs
variable {P : Type}

def bzero (b : ℕ) : FsM P Unit := do
  modify fun s => s.setDisk (s.disk.setData b .zero)
  logWrite b

/-- The first of the `n` blocks from `b` on whose bit is clear. -/
def firstFree (bitmap : ℕ → Bool) : ℕ → ℕ → Option ℕ
  | 0, _ => none
  | n + 1, b => if bitmap b = false then some b else firstFree bitmap n (b + 1)

def balloc : FsM P ℕ := do
  let v := (← get).disk
  match firstFree v.bitmap v.sb.size 0 with
  | none => return 0
  | some b =>
    modify fun s => s.setDisk (s.disk.setBit b true)
    logWrite (v.sb.bblock b)
    bzero b
    return b

def bfree (b : ℕ) : FsM P Unit := do
  let v := (← get).disk
  if v.bitmap b = false then throw .freeingFreeBlock
  else
    modify fun s => s.setDisk (s.disk.setBit b false)
    logWrite (v.sb.bblock b)

def iget (i : ℕ) : FsM P Unit := do
  let s ← get
  if 0 < (s.inode i).ref then
    set (s.setInode i ⟨(s.inode i).ref + 1, (s.inode i).valid, (s.inode i).din⟩)
  else if s.used < ninode then
    set ({ s with used := s.used + 1 }.setInode i ⟨1, false, (s.inode i).din⟩)
  else throw .noInodes

/-- The first of the `n` inodes from `i` on that is free on disk. -/
def firstFreeInode (dinode : ℕ → Dinode) : ℕ → ℕ → Option ℕ
  | 0, _ => none
  | n + 1, i => if (dinode i).type = .free then some i else firstFreeInode dinode n (i + 1)

def ialloc (t : FileType) : FsM P (Option ℕ) := do
  let v := (← get).disk
  match firstFreeInode v.dinode (v.sb.ninodes - 1) 1 with
  | none => return none
  | some i =>
    modify fun s => s.setDisk (s.disk.setDinode i (.fresh t))
    logWrite (v.sb.iblock i)
    iget i
    return some i

def iupdate (i : ℕ) : FsM P Unit := do
  let s ← get
  set (s.setDisk (s.disk.setDinode i (s.inode i).din))
  logWrite (s.disk.sb.iblock i)

def idup (i : ℕ) : FsM P Unit :=
  modify fun s => s.setInode i ⟨(s.inode i).ref + 1, (s.inode i).valid, (s.inode i).din⟩

def ilock (i : ℕ) : FsM P Unit := do
  let s ← get
  if (s.inode i).ref < 1 then throw .ilock
  else if (s.inode i).valid then return ()
  else if s.disk.sb.inodeArea ≤ i then throw .noInodeBlock
  else
    set (s.setInode i ⟨(s.inode i).ref, true, s.disk.dinode i⟩)
    if (s.disk.dinode i).type = .free then throw .noType else return ()

def iunlock (i : ℕ) : FsM P Unit := do
  if ((← get).inode i).ref < 1 then throw .iunlock else return ()

/-- The loop of `itrunc` over `ip->addrs[0]` to `ip->addrs[NDIRECT-1]`. -/
def freeDirect (i : ℕ) : FsM P Unit :=
  (List.range ndirect).forM fun k => do
    let a := ((← get).inode i).din.addr k
    if a = 0 then return ()
    else
      bfree a
      modify fun s => s.setDin i ((s.inode i).din.setAddr k 0)

def freeIndirect (i : ℕ) : FsM P Unit := do
  let s ← get
  let a := (s.inode i).din.addr ndirect
  if a = 0 then return ()
  else
    (List.range nindirect).forM fun j =>
      if (s.disk.data a).word j = 0 then pure () else bfree ((s.disk.data a).word j)
    bfree a
    modify fun s => s.setDin i ((s.inode i).din.setAddr ndirect 0)

def itrunc (i : ℕ) : FsM P Unit := do
  freeDirect i
  freeIndirect i
  modify fun s => s.setDin i ((s.inode i).din.setSize 0)
  iupdate i

/-- `ip->ref--`. -/
def dropRef (i : ℕ) : FsM P Unit := do
  let s ← get
  let t := s.setInode i ⟨(s.inode i).ref - 1, (s.inode i).valid, (s.inode i).din⟩
  if (s.inode i).ref = 1 then set { t with used := t.used - 1 } else set t

def iput (i : ℕ) : FsM P Unit := do
  let x := (← get).inode i
  if x.ref = 1 ∧ x.valid = true ∧ x.din.nlink = 0 then
    itrunc i
    modify fun s => s.setDin i ((s.inode i).din.setType .free)
    iupdate i
    modify fun s => s.setInode i ⟨(s.inode i).ref, false, (s.inode i).din⟩
    dropRef i
  else dropRef i

def iunlockput (i : ℕ) : FsM P Unit := do
  iunlock i
  iput i

/-- The address in `ip->addrs[k]`, allocating a block if there is none. -/
def bmapAddr (i k : ℕ) : FsM P ℕ := do
  let a := ((← get).inode i).din.addr k
  if a = 0 then
    let b ← balloc
    if b = 0 then return 0
    else
      modify fun s => s.setDin i ((s.inode i).din.setAddr k b)
      return b
  else return a

/-- The address in entry `j` of the indirect block `a`, allocating a block if there is none. -/
def bmapEntry (a j : ℕ) : FsM P ℕ := do
  let w := ((← get).disk.data a).word j
  if w = 0 then
    let b ← balloc
    if b = 0 then return 0
    else
      modify fun s => s.setDisk (s.disk.setData a ((s.disk.data a).setWord j b))
      logWrite a
      return b
  else return w

def bmap (i bn : ℕ) : FsM P ℕ := do
  if bn < ndirect then bmapAddr i bn
  else if bn - ndirect < nindirect then
    let a ← bmapAddr i ndirect
    if a = 0 then return 0 else bmapEntry a (bn - ndirect)
  else throw .bmapRange

/-- The loop of `readi`; `dst` says whether bytes of the destination can be written, and the
result is `none` when one cannot. -/
def readLoop (i : ℕ) (dst : ℕ → Bool) : ℕ → ℕ → ℕ → ℕ → FsM P (Option (List UInt8))
  | 0, _, _, _ => return some []
  | fuel + 1, off, tot, n => do
    if n ≤ tot then return some []
    else
      let a ← bmap i (off / bsize)
      if a = 0 then return some []
      else
        let m := min (n - tot) (bsize - off % bsize)
        let b := (← get).disk.data a
        if (List.range m).all fun k => dst (tot + k) then
          let rest ← readLoop i dst fuel (off + m) (tot + m) n
          return rest.map (((List.range m).map fun k => b.byte (off % bsize + k)) ++ ·)
        else return none

/-- The bytes read, fewer than `n` at the end of the file or when the disk is full, or `none` for
the result -1. -/
def readi (i : ℕ) (dst : ℕ → Bool) (off n : ℕ) : FsM P (Option (List UInt8)) := do
  let size := ((← get).inode i).din.size
  if size < off ∨ 2 ^ 32 ≤ off + n then return some []
  else
    let n := if size < off + n then size - off else n
    readLoop i dst n off 0 n

abbrev Src := ℕ → Option UInt8

def Src.mapped (src : Src) (o m : ℕ) : Bool := (List.range m).all fun k => (src (o + k)).isSome

/-- What `either_copyin` leaves in a buffer: the bytes before the first that is not mapped are
copied, also when it fails. -/
def copyin (b : Block) (pos m : ℕ) (src : Src) (o : ℕ) : Block := fun k =>
  if pos ≤ k.val ∧ k.val < pos + m ∧ src.mapped o (k.val - pos + 1) = true then
    (src (o + (k.val - pos))).getD 0
  else b k

/-- The loop of `writei`; the result is the number of bytes written. -/
def writeLoop (i : ℕ) (src : Src) : ℕ → ℕ → ℕ → ℕ → FsM P ℕ
  | 0, _, tot, _ => return tot
  | fuel + 1, off, tot, n => do
    if n ≤ tot then return tot
    else
      let a ← bmap i (off / bsize)
      if a = 0 then return tot
      else
        let m := min (n - tot) (bsize - off % bsize)
        modify fun s => s.setDisk (s.disk.setData a
          (copyin (s.disk.data a) (off % bsize) m src tot))
        if src.mapped tot m then
          logWrite a
          writeLoop i src fuel (off + m) (tot + m) n
        else return tot

def writei (i : ℕ) (src : Src) (off n : ℕ) : FsM P (Option ℕ) := do
  let size := ((← get).inode i).din.size
  if size < off ∨ 2 ^ 32 ≤ off + n then return none
  else if maxfile * bsize < off + n then return none
  else
    let tot ← writeLoop i src n off 0 n
    modify fun s =>
      if (s.inode i).din.size < off + tot then s.setDin i ((s.inode i).din.setSize (off + tot))
      else s
    iupdate i
    return some tot

end Xv6.Fs
