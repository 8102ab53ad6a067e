import Xv6.Fs.Inode

/-! Directories and path names, after `fs.c`. Strings are lists of bytes without their NUL. -/
namespace Xv6.Fs
variable {P : Type}

/-- `strncmp(p, q, n) == 0`; a list that has ended reads as NUL. -/
def strncmp : ℕ → List UInt8 → List UInt8 → Bool
  | 0, _, _ => true
  | n + 1, p, q =>
    if p.headD 0 ≠ 0 ∧ p.headD 0 = q.headD 0 then strncmp n p.tail q.tail
    else p.headD 0 = q.headD 0

def namecmp (s t : List UInt8) : Bool := strncmp dirsiz s t

/-- The bytes that `strncpy` stores: the string up to `n` bytes, filled up with NULs. -/
def strncpy (n : ℕ) (t : List UInt8) : List UInt8 := (t ++ List.replicate n 0).take n

def dot : List UInt8 := [46]

def dotdot : List UInt8 := [46, 46]

/-- `struct dirent`; `name` has `DIRSIZ` bytes. -/
structure Dirent where
  inum : ℕ
  name : List UInt8
  deriving DecidableEq

namespace Dirent

def ofBytes (bs : List UInt8) : Dirent :=
  ⟨(bs.getD 0 0).toNat + 256 * (bs.getD 1 0).toNat, (bs.drop 2).take dirsiz⟩

def bytes (e : Dirent) : List UInt8 :=
  UInt8.ofNat e.inum :: UInt8.ofNat (e.inum / 256) :: e.name

def zero : Dirent := ⟨0, List.replicate dirsiz 0⟩

def src (e : Dirent) : Src := fun k => e.bytes[k]?

end Dirent

/-- Read the entry at `off`, with `err` for a short read. -/
def readDirent (err : Panic) (dp off : ℕ) : FsM P Dirent := do
  match ← readi dp (fun _ => true) off direntBytes with
  | some bs => if bs.length = direntBytes then return .ofBytes bs else throw err
  | none => throw err

def dirlookupLoop (dp : ℕ) (name : List UInt8) : ℕ → ℕ → FsM P (Option (ℕ × ℕ))
  | 0, _ => return none
  | fuel + 1, off => do
    if off < ((← get).inode dp).din.size then
      let de ← readDirent .dirlookupRead dp off
      if de.inum = 0 then dirlookupLoop dp name fuel (off + direntBytes)
      else if namecmp name de.name then
        iget de.inum
        return some (de.inum, off)
      else dirlookupLoop dp name fuel (off + direntBytes)
    else return none

def dirlookup (dp : ℕ) (name : List UInt8) : FsM P (Option (ℕ × ℕ)) := do
  let d := ((← get).inode dp).din
  if d.type ≠ .dir then throw .notDir else dirlookupLoop dp name d.size 0

/-- The loop of `dirlink` that looks for an empty entry. -/
def emptyDirent (dp : ℕ) : ℕ → ℕ → FsM P ℕ
  | 0, off => return off
  | fuel + 1, off => do
    if off < ((← get).inode dp).din.size then
      let de ← readDirent .dirlinkRead dp off
      if de.inum = 0 then return off else emptyDirent dp fuel (off + direntBytes)
    else return off

def dirlink (dp : ℕ) (name : List UInt8) (inum : ℕ) : FsM P Bool := do
  match ← dirlookup dp name with
  | some (i, _) =>
    iput i
    return false
  | none =>
    let off ← emptyDirent dp ((← get).inode dp).din.size 0
    let r ← writei dp (Dirent.src ⟨inum, strncpy dirsiz name⟩) off direntBytes
    return r = some direntBytes

def slash : UInt8 := 47

/-- The next element of a path, cut to `DIRSIZ` bytes, and the path after it. -/
def skipelem (path : List UInt8) : Option (List UInt8 × List UInt8) :=
  match path.dropWhile (· == slash) with
  | [] => none
  | c :: cs =>
    some (((c :: cs).takeWhile (· != slash)).take dirsiz,
      ((c :: cs).dropWhile (· != slash)).dropWhile (· == slash))

/-- The loop of `namex`; with `parent` the result is the inode of the directory that holds the
last element, and that element. -/
def namexLoop (parent : Bool) : ℕ → ℕ → List UInt8 → FsM P (Option (ℕ × List UInt8))
  | 0, _, _ => return none
  | fuel + 1, ip, path =>
    match skipelem path with
    | none => do
      if parent then
        iput ip
        return none
      else return some (ip, [])
    | some (name, rest) => do
      ilock ip
      if ((← get).inode ip).din.type ≠ .dir then
        iunlockput ip
        return none
      else if parent ∧ rest = [] then
        iunlock ip
        return some (ip, name)
      else
        match ← dirlookup ip name with
        | none =>
          iunlockput ip
          return none
        | some (next, _) =>
          iunlockput ip
          namexLoop parent fuel next rest

def namex (cwd : ℕ) (parent : Bool) (path : List UInt8) : FsM P (Option (ℕ × List UInt8)) := do
  if path.head? = some slash then
    iget rootino
    namexLoop parent (path.length + 1) rootino path
  else
    idup cwd
    namexLoop parent (path.length + 1) cwd path

def namei (cwd : ℕ) (path : List UInt8) : FsM P (Option ℕ) := do
  return (← namex cwd false path).map (·.1)

def nameiparent (cwd : ℕ) (path : List UInt8) : FsM P (Option (ℕ × List UInt8)) :=
  namex cwd true path

end Xv6.Fs
