import Xv6.Fs.Dir
import Xv6.Lib.Transition

/-! The file-system calls, after `file.c` and `sysfile.c`. A call that returns -1 has the result
`none`. -/
namespace Xv6.Fs
variable {P : Type} [DecidableEq P]

def filealloc : FsM P (Option (Fin nfile)) := do
  let s ← get
  match (List.finRange nfile).find? fun f => (s.file f).ref = 0 with
  | none => return none
  | some f =>
    set (s.setFile f { s.file f with ref := 1 })
    return some f

def filedup (f : Fin nfile) : FsM P Unit := do
  let s ← get
  if (s.file f).ref < 1 then throw .filedup
  else set (s.setFile f { s.file f with ref := (s.file f).ref + 1 })

def fileclose (f : Fin nfile) : FsM P Unit := do
  let s ← get
  let ff := s.file f
  if ff.ref < 1 then throw .fileclose
  else if 0 < ff.ref - 1 then set (s.setFile f { ff with ref := ff.ref - 1 })
  else
    set (s.setFile f { ff with ref := 0, kind := .none })
    if ff.kind = .none then return ()
    else
      beginOp
      iput ff.ip
      endOp

def fileread (f : Fin nfile) (dst : ℕ → Bool) (n : ℕ) : FsM P (Option ℕ) := do
  let x := (← get).file f
  if x.readable = false then return none
  else match x.kind with
    | .none => throw .fileread
    | .device => return none
    | .inode =>
      ilock x.ip
      let r ← readi x.ip dst x.off n
      modify fun s =>
        s.setFile f { s.file f with off := (s.file f).off + (r.map (·.length)).getD 0 }
      iunlock x.ip
      return r.map (·.length)

/-- `max` of `filewrite`: the bytes that one transaction writes. -/
def filewriteMax : ℕ := (maxopblocks - 1 - 1 - 2) / 2 * bsize

/-- One round of the loop of `filewrite`, from `begin_op` to `end_op`. -/
def filewriteSection (f : Fin nfile) (src : Src) (i n1 : ℕ) : FsM P Bool := do
  beginOp
  let x := (← get).file f
  ilock x.ip
  let r ← writei x.ip (fun k => src (i + k)) x.off n1
  modify fun s => s.setFile f { s.file f with off := (s.file f).off + r.getD 0 }
  iunlock x.ip
  endOp
  return r = some n1

/-- The loop of `filewrite`; the result says whether all `n` bytes were written. -/
def filewriteLoop (f : Fin nfile) (src : Src) : ℕ → ℕ → ℕ → FsM P Bool
  | 0, i, n => return n ≤ i
  | fuel + 1, i, n => do
    if n ≤ i then return true
    else
      let n1 := min (n - i) filewriteMax
      if ← filewriteSection f src i n1 then filewriteLoop f src fuel (i + n1) n else return false

def filewrite (f : Fin nfile) (src : Src) (n : ℕ) : FsM P (Option ℕ) := do
  let x := (← get).file f
  if x.writable = false then return none
  else match x.kind with
    | .none => throw .filewrite
    | .device => return none
    | .inode => return if ← filewriteLoop f src n 0 n then some n else none

def argfd (pr : Proc) (fd : ℕ) : Option (Fin nofile × Fin nfile) :=
  if h : fd < nofile then (pr.ofile ⟨fd, h⟩).map fun f => (⟨fd, h⟩, f) else none

/-- A string of the caller, `none` when it cannot be read; too long a string is refused. -/
def argstr (str : Option (List UInt8)) : Option (List UInt8) :=
  (str.map (·.takeWhile (· != 0))).filter fun path => path.length < maxpath

def fdalloc (p : P) (pr : Proc) (f : Fin nfile) : FsM P (Option (Fin nofile)) := do
  match (List.finRange nofile).find? fun fd => (pr.ofile fd).isNone with
  | none => return none
  | some fd =>
    modify (·.setProc p (some { pr with ofile := Function.update pr.ofile fd (some f) }))
    return some fd

def sysDup (p : P) (pr : Proc) (fd : ℕ) : FsM P (Option ℕ) := do
  match argfd pr fd with
  | none => return none
  | some (_, f) =>
    match ← fdalloc p pr f with
    | none => return none
    | some fd' =>
      filedup f
      return some fd'

def sysRead (pr : Proc) (fd : ℕ) (dst : ℕ → Bool) (n : ℕ) : FsM P (Option ℕ) := do
  match argfd pr fd with
  | none => return none
  | some (_, f) => fileread f dst n

def sysWrite (pr : Proc) (fd : ℕ) (src : Src) (n : ℕ) : FsM P (Option ℕ) := do
  match argfd pr fd with
  | none => return none
  | some (_, f) => filewrite f src n

def sysClose (p : P) (pr : Proc) (fd : ℕ) : FsM P (Option ℕ) := do
  match argfd pr fd with
  | none => return none
  | some (fd, f) =>
    modify (·.setProc p (some { pr with ofile := Function.update pr.ofile fd none }))
    fileclose f
    return some 0

def linkBad (ip : ℕ) : FsM P (Option ℕ) := do
  ilock ip
  modify fun s => s.setDin ip ((s.inode ip).din.setNlink (toShort ((s.inode ip).din.nlink - 1)))
  iupdate ip
  iunlockput ip
  endOp
  return none

def sysLink (pr : Proc) (old new : Option (List UInt8)) : FsM P (Option ℕ) := do
  match argstr old, argstr new with
  | some old, some new =>
    beginOp
    match ← namei pr.cwd old with
    | none =>
      endOp
      return none
    | some ip =>
      ilock ip
      if ((← get).inode ip).din.type = .dir then
        iunlockput ip
        endOp
        return none
      else
        modify fun s =>
          s.setDin ip ((s.inode ip).din.setNlink (toShort ((s.inode ip).din.nlink + 1)))
        iupdate ip
        iunlock ip
        match ← nameiparent pr.cwd new with
        | none => linkBad ip
        | some (dp, name) =>
          ilock dp
          if ← dirlink dp name ip then
            iunlockput dp
            iput ip
            endOp
            return some 0
          else
            iunlockput dp
            linkBad ip
  | _, _ => return none

def isdiremptyLoop (dp : ℕ) : ℕ → ℕ → FsM P Bool
  | 0, _ => return true
  | fuel + 1, off => do
    if off < ((← get).inode dp).din.size then
      let de ← readDirent .isdirempty dp off
      if de.inum = 0 then isdiremptyLoop dp fuel (off + direntBytes) else return false
    else return true

def isdirempty (dp : ℕ) : FsM P Bool := do
  isdiremptyLoop dp ((← get).inode dp).din.size (2 * direntBytes)

def unlinkBad (dp : ℕ) : FsM P (Option ℕ) := do
  iunlockput dp
  endOp
  return none

def sysUnlink (pr : Proc) (path : Option (List UInt8)) : FsM P (Option ℕ) := do
  match argstr path with
  | none => return none
  | some path =>
    beginOp
    match ← nameiparent pr.cwd path with
    | none =>
      endOp
      return none
    | some (dp, name) =>
      ilock dp
      if namecmp name dot ∨ namecmp name dotdot then unlinkBad dp
      else
        match ← dirlookup dp name with
        | none => unlinkBad dp
        | some (ip, off) =>
          ilock ip
          let d := ((← get).inode ip).din
          if d.nlink < 1 then throw .unlinkNlink
          else
            let empty ← if d.type = .dir then isdirempty ip else pure true
            if empty = false then
              iunlockput ip
              unlinkBad dp
            else
              let r ← writei dp Dirent.zero.src off direntBytes
              if r ≠ some direntBytes then throw .unlinkWritei
              else
                if d.type = .dir then
                  modify fun s =>
                    s.setDin dp ((s.inode dp).din.setNlink (toShort ((s.inode dp).din.nlink - 1)))
                  iupdate dp
                else pure ()
                iunlockput dp
                modify fun s =>
                  s.setDin ip ((s.inode ip).din.setNlink (toShort ((s.inode ip).din.nlink - 1)))
                iupdate ip
                iunlockput ip
                endOp
                return some 0

def createFail (dp ip : ℕ) : FsM P (Option ℕ) := do
  modify fun s => s.setDin ip ((s.inode ip).din.setNlink 0)
  iupdate ip
  iunlockput ip
  iunlockput dp
  return none

/-- The entries `.` and `..` of a new directory. -/
def createDots (t : FileType) (dp ip : ℕ) : FsM P Bool := do
  if t = .dir then
    if ← dirlink ip dot ip then dirlink ip dotdot dp else return false
  else return true

def create (cwd : ℕ) (path : List UInt8) (t : FileType) (major minor : ℤ) :
    FsM P (Option ℕ) := do
  match ← nameiparent cwd path with
  | none => return none
  | some (dp, name) =>
    ilock dp
    match ← dirlookup dp name with
    | some (ip, _) =>
      iunlockput dp
      ilock ip
      let d := ((← get).inode ip).din
      if t = .file ∧ (d.type = .file ∨ d.type = .device) then return some ip
      else
        iunlockput ip
        return none
    | none =>
      match ← ialloc t with
      | none =>
        iunlockput dp
        return none
      | some ip =>
        ilock ip
        modify fun s => s.setDin ip { (s.inode ip).din with
          major := toShort major, minor := toShort minor, nlink := 1 }
        iupdate ip
        if ← createDots t dp ip then
          if ← dirlink dp name ip then
            if t = .dir then
              modify fun s =>
                s.setDin dp ((s.inode dp).din.setNlink (toShort ((s.inode dp).din.nlink + 1)))
              iupdate dp
            else pure ()
            iunlockput dp
            return some ip
          else createFail dp ip
        else createFail dp ip

def hasFlag (omode flag : ℕ) : Bool := omode &&& flag ≠ 0

abbrev oWronly : ℕ := 0x001
abbrev oRdwr : ℕ := 0x002
abbrev oCreate : ℕ := 0x200
abbrev oTrunc : ℕ := 0x400

def openInode (cwd : ℕ) (path : List UInt8) (omode : ℕ) : FsM P (Option ℕ) := do
  if hasFlag omode oCreate then create cwd path .file 0 0
  else
    match ← namei cwd path with
    | none => return none
    | some ip =>
      ilock ip
      if ((← get).inode ip).din.type = .dir ∧ omode ≠ 0 then
        iunlockput ip
        return none
      else return some ip

/-- A failure of `sys_open` that gives the inode back. -/
def openBad (ip : ℕ) : FsM P (Option ℕ) := do
  iunlockput ip
  endOp
  return none

def sysOpen (p : P) (pr : Proc) (path : Option (List UInt8)) (omode : ℕ) :
    FsM P (Option ℕ) := do
  match argstr path with
  | none => return none
  | some path =>
    beginOp
    match ← openInode pr.cwd path omode with
    | none =>
      endOp
      return none
    | some ip =>
      let d := ((← get).inode ip).din
      if d.type = .device ∧ (d.major < 0 ∨ ndev ≤ d.major) then openBad ip
      else
        match ← filealloc with
        | none => openBad ip
        | some f =>
          match ← fdalloc p pr f with
          | none =>
            fileclose f
            openBad ip
          | some fd =>
            modify fun s => s.setFile f {
              s.file f with
              kind := if d.type = .device then .device else .inode
              major := if d.type = .device then d.major else (s.file f).major
              off := if d.type = .device then (s.file f).off else 0
              ip := ip
              readable := !hasFlag omode oWronly
              writable := hasFlag omode oWronly || hasFlag omode oRdwr }
            if hasFlag omode oTrunc ∧ d.type = .file then itrunc ip else pure ()
            iunlock ip
            endOp
            return some fd

/-- `sys_mkdir` and `sys_mknod`, which differ in the type and the device numbers. -/
def sysCreate (pr : Proc) (path : Option (List UInt8)) (t : FileType) (major minor : ℤ) :
    FsM P (Option ℕ) := do
  beginOp
  match argstr path with
  | none =>
    endOp
    return none
  | some path =>
    match ← create pr.cwd path t major minor with
    | none =>
      endOp
      return none
    | some ip =>
      iunlockput ip
      endOp
      return some 0

def sysMkdir (pr : Proc) (path : Option (List UInt8)) : FsM P (Option ℕ) :=
  sysCreate pr path .dir 0 0

def sysMknod (pr : Proc) (path : Option (List UInt8)) (major minor : ℤ) : FsM P (Option ℕ) :=
  sysCreate pr path .device major minor

def sysChdir (p : P) (pr : Proc) (path : Option (List UInt8)) : FsM P (Option ℕ) := do
  beginOp
  match argstr path with
  | none =>
    endOp
    return none
  | some path =>
    match ← namei pr.cwd path with
    | none =>
      endOp
      return none
    | some ip =>
      ilock ip
      if ((← get).inode ip).din.type ≠ .dir then
        iunlockput ip
        endOp
        return none
      else
        iunlock ip
        iput pr.cwd
        endOp
        modify (·.setProc p (some { pr with cwd := ip }))
        return some 0

/-- The part of `fork` that shares the open files and the current directory with process `q`. -/
def fork (pr : Proc) (q : P) : FsM P (Option ℕ) := do
  (List.finRange nofile).forM fun fd =>
    match pr.ofile fd with
    | none => pure ()
    | some f => filedup f
  idup pr.cwd
  modify (·.setProc q (some pr))
  return some 0

/-- The part of `exit` that closes the open files and leaves the current directory. -/
def exit (p : P) (pr : Proc) : FsM P (Option ℕ) := do
  (List.finRange nofile).forM fun fd =>
    match pr.ofile fd with
    | none => pure ()
    | some f => fileclose f
  beginOp
  iput pr.cwd
  endOp
  modify (·.setProc p none)
  return none

inductive Call (P : Type) where
  | dup (p : P) (fd : ℕ)
  | read (p : P) (fd : ℕ) (dst : ℕ → Bool) (n : ℕ)
  | write (p : P) (fd : ℕ) (src : Src) (n : ℕ)
  | close (p : P) (fd : ℕ)
  | link (p : P) (old new : Option (List UInt8))
  | unlink (p : P) (path : Option (List UInt8))
  | open (p : P) (path : Option (List UInt8)) (omode : ℕ)
  | mkdir (p : P) (path : Option (List UInt8))
  | mknod (p : P) (path : Option (List UInt8)) (major minor : ℤ)
  | chdir (p : P) (path : Option (List UInt8))
  | fork (p q : P)
  | exit (p : P)

namespace Call

def caller : Call P → P
  | dup p _ | read p _ _ _ | write p _ _ _ | close p _ | link p _ _ | unlink p _ | .open p _ _
  | mkdir p _ | mknod p _ _ _ | chdir p _ | fork p _ | exit p => p

def exec (c : Call P) (pr : Proc) : FsM P (Option ℕ) :=
  match c with
  | dup p fd => sysDup p pr fd
  | read _ fd dst n => sysRead pr fd dst n
  | write _ fd src n => sysWrite pr fd src n
  | close p fd => sysClose p pr fd
  | link _ old new => sysLink pr old new
  | unlink _ path => sysUnlink pr path
  | .open p path omode => sysOpen p pr path omode
  | mkdir _ path => sysMkdir pr path
  | mknod _ path major minor => sysMknod pr path major minor
  | chdir p path => sysChdir p pr path
  | fork _ q => Fs.fork pr q
  | exit p => Fs.exit p pr

/-- A call is made by a live process; `fork` needs an unused process. -/
def enabled (c : Call P) (s : State P) : Bool :=
  match c with
  | fork _ q => (s.proc q).isNone
  | _ => true

end Call

/-- One completed call; `none` when it cannot be made or panics. -/
def State.next (s : State P) (c : Call P) : Option (State P) :=
  match s.proc c.caller with
  | none => none
  | some pr =>
    if c.enabled s then
      match c.exec pr s with
      | .ok (_, t) => some t
      | .error _ => none
    else none

def State.Panics (s : State P) (c : Call P) (e : Panic) : Prop :=
  ∃ pr, s.proc c.caller = some pr ∧ c.enabled s = true ∧ c.exec pr s = .error e

/-- The kernel after boot: the first process is in the root directory and has no open files. -/
def State.boot (v : Volume) (p : P) : State P where
  disk := v
  inode := fun i => ⟨if i = rootino then 1 else 0, false, .fresh .free⟩
  used := 1
  file := fun _ => ⟨0, .none, false, false, 0, 0, 0⟩
  proc := fun q => if q = p then some ⟨rootino, fun _ => none⟩ else none
  inOp := false
  logged := []

end Xv6.Fs
