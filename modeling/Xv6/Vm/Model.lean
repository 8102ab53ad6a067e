import Xv6.Lib.Hoare
import Xv6.Lib.LittleEndian
import Xv6.Params

/-! Physical pages and user page tables, after `kalloc.c`, `vm.c` and `proc.c`. Addresses and words
are natural numbers; arithmetic that can leave 64 bits is reduced. -/
namespace Xv6.Vm
open Hoare

abbrev pgsize : ℕ := 4096
abbrev kernbase : ℕ := 0x80000000
abbrev phystop : ℕ := kernbase + 128 * 1024 * 1024
abbrev maxva : ℕ := 2 ^ (9 + 9 + 9 + 12 - 1)

abbrev trampoline : ℕ := maxva - pgsize
abbrev trapframe : ℕ := trampoline - pgsize

def u64 (n : ℕ) : ℕ := n % 2 ^ 64

def pgroundup (sz : ℕ) : ℕ := u64 (sz + pgsize - 1) / pgsize * pgsize

def pgrounddown (a : ℕ) : ℕ := a / pgsize * pgsize

def ofInt (n : ℕ) : ℕ := if n % 2 ^ 32 < 2 ^ 31 then n % 2 ^ 32 else n % 2 ^ 32 + (2 ^ 64 - 2 ^ 32)

abbrev pteV : ℕ := 1
abbrev pteR : ℕ := 2
abbrev pteW : ℕ := 4
abbrev pteX : ℕ := 8
abbrev pteU : ℕ := 16

def pa2pte (pa : ℕ) : ℕ := (pa >>> 12) <<< 10

def pte2pa (pte : ℕ) : ℕ := (pte >>> 10) <<< 12

def pteFlags (pte : ℕ) : ℕ := pte &&& 0x3FF

/-- `PX`: the index of `va` in a page table of the given level. -/
def px (level va : ℕ) : Fin 512 := Fin.ofNat 512 (va >>> (12 + 9 * level))

structure Mem where
  /-- `end`: the first address after the kernel. -/
  kend : ℕ
  /-- The physical address of the trampoline page. -/
  tramp : ℕ
  /-- `kmem.freelist`, from its head. -/
  free : List ℕ
  /-- Which of the next calls of `kalloc` fail even though a page is free. -/
  fail : ℕ → Bool
  /-- The byte at an offset of the page at an address. -/
  page : ℕ → ℕ → UInt8

namespace Mem

@[simps -fullyApplied] def setPage (m : Mem) (pa : ℕ) (f : ℕ → UInt8) : Mem :=
  { m with page := Function.update m.page pa f }

@[simps! -fullyApplied] def memset (m : Mem) (pa : ℕ) (c : UInt8) : Mem := m.setPage pa fun _ => c

@[simps! -fullyApplied] def memmove (m : Mem) (pa off : ℕ) (bs : List UInt8) : Mem :=
  m.setPage pa fun o => if off ≤ o then bs.getD (o - off) (m.page pa o) else m.page pa o

def pte (m : Mem) (pa : ℕ) (i : Fin 512) : ℕ :=
  LittleEndian.word (fun k => m.page pa (8 * i.val + k)) 8

@[simps! -fullyApplied] def setPte (m : Mem) (pa : ℕ) (i : Fin 512) (w : ℕ) : Mem :=
  m.setPage pa fun o =>
    if o / 8 = i.val then LittleEndian.byte w (o % 8) else m.page pa o

end Mem

inductive Panic where
  /-- `kfree` -/
  | kfree
  /-- `walk` -/
  | walk
  /-- `mappages: va not aligned` -/
  | mapVa
  /-- `mappages: size not aligned` -/
  | mapAlign
  /-- `mappages: size` -/
  | mapSize
  /-- `mappages: remap` -/
  | remap
  /-- `uvmunmap: not aligned` -/
  | unmapAlign
  /-- `uvmunmap: walk` -/
  | unmapWalk
  /-- `uvmunmap: not mapped` -/
  | notMapped
  /-- `uvmunmap: not a leaf` -/
  | notLeaf
  /-- `freewalk: leaf` -/
  | freewalk
  /-- No panic of the kernel: `freewalk` has gone below the third level. -/
  | depth
  /-- `uvmcopy: pte should exist` -/
  | copyPte
  /-- `uvmcopy: page not present` -/
  | copyPage
  /-- `uvmclear` -/
  | uvmclear
  deriving DecidableEq

abbrev VmM (α : Type) := Prog Mem Panic α

def kalloc : VmM (Option ℕ) := do
  let m ← get
  let t := { m with fail := fun n => m.fail (n + 1) }
  match m.fail 0, m.free with
  | false, a :: rest =>
    set ({ t with free := rest }.memset a 5)
    return some a
  | _, _ =>
    set t
    return none

def kfree (pa : ℕ) : VmM Unit := do
  let m ← get
  if pa % pgsize ≠ 0 ∨ pa < m.kend ∨ phystop ≤ pa then throw .kfree
  else set { m.memset pa 1 with free := pa :: m.free }

/-- The loop of `walk`, down from a level. The result is the page of the bottom level. -/
def walkLoop (va : ℕ) (alloc : Bool) : ℕ → ℕ → VmM (Option ℕ)
  | 0, pagetable => return some pagetable
  | level + 1, pagetable => do
    let pte := (← get).pte pagetable (px (level + 1) va)
    if pte &&& pteV ≠ 0 then walkLoop va alloc level (pte2pa pte)
    else if alloc = false then return none
    else
      match ← kalloc with
      | none => return none
      | some pa =>
        modify (·.memset pa 0)
        modify (·.setPte pagetable (px (level + 1) va) (pa2pte pa ||| pteV))
        walkLoop va alloc level pa

def walk (pagetable va : ℕ) (alloc : Bool) : VmM (Option (ℕ × Fin 512)) := do
  if maxva ≤ va then throw .walk
  else return (← walkLoop va alloc 2 pagetable).map fun b => (b, px 0 va)

/-- The result is zero when `va` is not mapped for the user. -/
def walkaddr (pagetable va : ℕ) : VmM ℕ := do
  if maxva ≤ va then return 0
  else
    match ← walk pagetable va false with
    | none => return 0
    | some (b, i) =>
      let pte := (← get).pte b i
      if pte &&& pteV = 0 then return 0
      else if pte &&& pteU = 0 then return 0
      else return pte2pa pte

def mapLoop (pagetable perm : ℕ) : ℕ → ℕ → ℕ → VmM Bool
  | 0, _, _ => return true
  | n + 1, a, pa => do
    match ← walk pagetable a true with
    | none => return false
    | some (b, i) =>
      if (← get).pte b i &&& pteV ≠ 0 then throw .remap
      else
        modify (·.setPte b i (pa2pte pa ||| perm ||| pteV))
        mapLoop pagetable perm n (a + pgsize) (pa + pgsize)

def mappages (pagetable va size pa perm : ℕ) : VmM Bool := do
  if va % pgsize ≠ 0 then throw .mapVa
  else if size % pgsize ≠ 0 then throw .mapAlign
  else if size = 0 then throw .mapSize
  else mapLoop pagetable perm (size / pgsize) va pa

def unmapLoop (pagetable : ℕ) (doFree : Bool) : ℕ → ℕ → VmM Unit
  | 0, _ => return ()
  | n + 1, a => do
    match ← walk pagetable a false with
    | none => throw .unmapWalk
    | some (b, i) =>
      let pte := (← get).pte b i
      if pte &&& pteV = 0 then throw .notMapped
      else if pteFlags pte = pteV then throw .notLeaf
      else
        (if doFree then kfree (pte2pa pte) else pure ())
        modify (·.setPte b i 0)
        unmapLoop pagetable doFree n (a + pgsize)

def uvmunmap (pagetable va npages : ℕ) (doFree : Bool) : VmM Unit := do
  if va % pgsize ≠ 0 then throw .unmapAlign
  else unmapLoop pagetable doFree ((u64 (va + npages * pgsize) - va) / pgsize) va

def uvmcreate : VmM (Option ℕ) := do
  match ← kalloc with
  | none => return none
  | some pagetable =>
    modify (·.memset pagetable 0)
    return some pagetable

def uvmdealloc (pagetable oldsz newsz : ℕ) : VmM ℕ := do
  if oldsz ≤ newsz then return oldsz
  else if pgroundup newsz < pgroundup oldsz then
    uvmunmap pagetable (pgroundup newsz) (ofInt ((pgroundup oldsz - pgroundup newsz) / pgsize)) true
    return newsz
  else return newsz

/-- The loop of `uvmalloc`, over `n` pages from `a` on; the pages from `oldsz` on are given back
when it fails. -/
def allocLoop (pagetable oldsz xperm : ℕ) : ℕ → ℕ → VmM Bool
  | 0, _ => return true
  | n + 1, a => do
    match ← kalloc with
    | none =>
      let _ ← uvmdealloc pagetable a oldsz
      return false
    | some mem =>
      modify (·.memset mem 0)
      if ← mappages pagetable a pgsize mem (pteR ||| pteU ||| xperm) then
        allocLoop pagetable oldsz xperm n (a + pgsize)
      else
        kfree mem
        let _ ← uvmdealloc pagetable a oldsz
        return false

def uvmalloc (pagetable oldsz newsz xperm : ℕ) : VmM ℕ := do
  if newsz < oldsz then return oldsz
  else
    let old := pgroundup oldsz
    let ok ← allocLoop pagetable old xperm ((newsz - old + pgsize - 1) / pgsize) old
    return if ok then newsz else 0

/-- The round for entry `i` of the loop of `freewalk`, with `free` for the recursive call. -/
def freeEntry (free : ℕ → VmM Unit) (pagetable : ℕ) (i : Fin 512) : VmM Unit := do
  let pte := (← get).pte pagetable i
  if pte &&& pteV ≠ 0 ∧ pte &&& (pteR ||| pteW ||| pteX) = 0 then
    free (pte2pa pte)
    modify (·.setPte pagetable i 0)
  else if pte &&& pteV ≠ 0 then throw .freewalk
  else return ()

def freewalk : ℕ → ℕ → VmM Unit
  | 0, _ => throw .depth
  | fuel + 1, pagetable => do
    (List.finRange 512).forM (freeEntry (freewalk fuel) pagetable)
    kfree pagetable

theorem freewalk_succ (fuel pagetable : ℕ) : freewalk (fuel + 1) pagetable =
    (List.finRange 512).forM (freeEntry (freewalk fuel) pagetable) >>= fun _ => kfree pagetable :=
  rfl

attribute [irreducible] freewalk

def uvmfree (pagetable sz : ℕ) : VmM Unit := do
  (if 0 < sz then uvmunmap pagetable 0 (pgroundup sz / pgsize) true else pure ())
  freewalk 3 pagetable

def uvmcopyErr (new i : ℕ) : VmM Bool := do
  uvmunmap new 0 (i / pgsize) true
  return false

/-- The loop of `uvmcopy`, over `n` pages from `i` on. -/
def copyLoop (old new : ℕ) : ℕ → ℕ → VmM Bool
  | 0, _ => return true
  | n + 1, i => do
    match ← walk old i false with
    | none => throw .copyPte
    | some (b, k) =>
      let pte := (← get).pte b k
      if pte &&& pteV = 0 then throw .copyPage
      else
        match ← kalloc with
        | none => uvmcopyErr new i
        | some mem =>
          modify fun m => m.setPage mem (m.page (pte2pa pte))
          if ← mappages new i pgsize mem (pteFlags pte) then copyLoop old new n (i + pgsize)
          else
            kfree mem
            uvmcopyErr new i

def uvmcopy (old new sz : ℕ) : VmM Bool := copyLoop old new ((sz + pgsize - 1) / pgsize) 0

def uvmclear (pagetable va : ℕ) : VmM Unit := do
  match ← walk pagetable va false with
  | none => throw .uvmclear
  | some (b, i) => modify fun m => m.setPte b i (m.pte b i &&& (2 ^ 64 - 1 - pteU))

/-- The loop of `copyout`; the result is `false` for -1. -/
def copyoutLoop (pagetable : ℕ) : ℕ → ℕ → List UInt8 → VmM Bool
  | 0, _, _ => return true
  | fuel + 1, dstva, src => do
    if src = [] then return true
    else
      let va0 := pgrounddown dstva
      if maxva ≤ va0 then return false
      else
        match ← walk pagetable va0 false with
        | none => return false
        | some (b, i) =>
          let pte := (← get).pte b i
          if pte &&& pteV = 0 ∨ pte &&& pteU = 0 ∨ pte &&& pteW = 0 then return false
          else
            let n := min (pgsize - (dstva - va0)) src.length
            modify (·.memmove (pte2pa pte) (dstva - va0) (src.take n))
            copyoutLoop pagetable fuel (u64 (va0 + pgsize)) (src.drop n)

def copyout (pagetable dstva : ℕ) (src : List UInt8) : VmM Bool :=
  copyoutLoop pagetable src.length dstva src

def Mem.bytes (m : Mem) (pa off n : ℕ) : List UInt8 :=
  (List.range n).map fun k => m.page pa (off + k)

/-- The loop of `copyin`; the result is `none` for -1. -/
def copyinLoop (pagetable : ℕ) : ℕ → ℕ → ℕ → VmM (Option (List UInt8))
  | 0, _, _ => return some []
  | fuel + 1, srcva, len => do
    if len = 0 then return some []
    else
      let va0 := pgrounddown srcva
      let pa0 ← walkaddr pagetable va0
      if pa0 = 0 then return none
      else
        let n := min (pgsize - (srcva - va0)) len
        let bs := (← get).bytes pa0 (srcva - va0) n
        let rest ← copyinLoop pagetable fuel (u64 (va0 + pgsize)) (len - n)
        return rest.map (bs ++ ·)

def copyin (pagetable srcva len : ℕ) : VmM (Option (List UInt8)) :=
  copyinLoop pagetable len srcva len

/-- The loop of `copyinstr`: the bytes that it stores, and whether the last of them is a NUL. -/
def copyinstrLoop (pagetable : ℕ) : ℕ → ℕ → ℕ → VmM (List UInt8 × Bool)
  | 0, _, _ => return ([], false)
  | fuel + 1, srcva, max => do
    if max = 0 then return ([], false)
    else
      let va0 := pgrounddown srcva
      let pa0 ← walkaddr pagetable va0
      if pa0 = 0 then return ([], false)
      else
        let n := min (pgsize - (srcva - va0)) max
        let bs := (← get).bytes pa0 (srcva - va0) n
        if 0 ∈ bs then return (bs.takeWhile (· != 0) ++ [0], true)
        else
          let rest ← copyinstrLoop pagetable fuel (u64 (va0 + pgsize)) (max - n)
          return (bs ++ rest.1, rest.2)

def copyinstr (pagetable srcva max : ℕ) : VmM (List UInt8 × Bool) :=
  copyinstrLoop pagetable max srcva max

def procPagetable (tf : ℕ) : VmM (Option ℕ) := do
  match ← uvmcreate with
  | none => return none
  | some pagetable =>
    let tramp := (← get).tramp
    if ← mappages pagetable trampoline pgsize tramp (pteR ||| pteX) then
      if ← mappages pagetable trapframe pgsize tf (pteR ||| pteW) then return some pagetable
      else
        uvmunmap pagetable trampoline 1 false
        uvmfree pagetable 0
        return none
    else
      uvmfree pagetable 0
      return none

def procFreepagetable (pagetable sz : ℕ) : VmM Unit := do
  uvmunmap pagetable trampoline 1 false
  uvmunmap pagetable trapframe 1 false
  uvmfree pagetable sz

end Xv6.Vm
