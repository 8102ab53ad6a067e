import Xv6.Proc.Model
import Xv6.Vm.Isolation

/-! `fork`, with the memory of both processes: `allocproc`, `uvmcopy` and the exits that give
everything back. -/
namespace Xv6.Fork
open Function Hoare Vm Transition List

/-- The registers of `p->context` that `allocproc` sets. -/
structure Context where
  ra : ℕ
  sp : ℕ

/-- `struct proc`; zero is the null pointer. -/
structure Process where
  state : Proc.ProcState
  pid : ℤ
  chan : ℕ
  killed : ℤ
  xstate : ℤ
  parent : Option (Fin nproc)
  kstack : ℕ
  sz : ℕ
  pagetable : ℕ
  trapframe : ℕ
  context : Context
  ofile : Fin nofile → Option (Fin nfile)
  cwd : Option (Fin ninode)
  name : List UInt8

structure Kernel where
  mem : Mem
  proc : Fin nproc → Process
  file : Fin nfile → ℕ
  inode : Fin ninode → ℕ
  nextpid : ℤ
  forkret : ℕ

@[simps -fullyApplied] def Kernel.setProc (s : Kernel) (q : Fin nproc) (x : Process) : Kernel :=
  { s with proc := update s.proc q x }

inductive Panic where
  | vm (e : Vm.Panic)
  /-- `filedup` -/
  | filedup
  /-- No panic of the kernel's: a null pointer is used. -/
  | null

abbrev ForkM (α : Type) := Prog Kernel Panic α

def onMem {α : Type} (x : VmM α) : ForkM α :=
  zoom Kernel.mem (fun t s => { s with mem := t }) Panic.vm x

/-- `safestrcpy`: at most `n - 1` characters, and a NUL after them. -/
def safestrcpy : ℕ → List UInt8 → List UInt8 → List UInt8
  | 0, s, _ => s
  | _, [], _ => []
  | n + 2, _ :: s, c :: t =>
    if c ≠ 0 then c :: safestrcpy (n + 1) s t
    else c :: s.set 0 0
  | _, _ :: s, _ => 0 :: s

def freeproc (q : Fin nproc) : ForkM Unit := do
  let p := (← get).proc q
  (if p.trapframe ≠ 0 then onMem (kfree p.trapframe) else pure ())
  modify fun s => s.setProc q { s.proc q with trapframe := 0 }
  (if p.pagetable ≠ 0 then onMem (procFreepagetable p.pagetable p.sz) else pure ())
  modify fun s => s.setProc q { s.proc q with
    pagetable := 0, sz := 0, pid := 0, parent := none, name := (s.proc q).name.set 0 0, chan := 0,
    killed := 0, xstate := 0, state := .unused }

def found (q : Fin nproc) : ForkM (Option (Fin nproc)) := do
  modify fun s => { s.setProc q { s.proc q with pid := s.nextpid, state := .used } with
    nextpid := Proc.toInt (s.nextpid + 1) }
  match ← onMem kalloc with
  | none =>
    modify fun s => s.setProc q { s.proc q with trapframe := 0 }
    freeproc q
    return none
  | some tf =>
    modify fun s => s.setProc q { s.proc q with trapframe := tf }
    match ← onMem (procPagetable tf) with
    | none =>
      modify fun s => s.setProc q { s.proc q with pagetable := 0 }
      freeproc q
      return none
    | some pagetable =>
      modify fun s => s.setProc q { s.proc q with
        pagetable := pagetable, context := ⟨s.forkret, (s.proc q).kstack + pgsize⟩ }
      return some q

def allocproc : ForkM (Option (Fin nproc)) := do
  let s ← get
  match (List.finRange nproc).find? fun q => (s.proc q).state = .unused with
  | none => return none
  | some q => found q

/-- `sizeof(struct trapframe)`, in registers, and the register `a0`. -/
abbrev tfRegs : ℕ := 36
abbrev tfA0 : Fin 512 := ⟨14, by decide⟩

/-- `*(np->trapframe) = *(p->trapframe)`, and `a0` cleared. -/
def copyTrapframe (src dst : ℕ) (m : Mem) : Mem :=
  (m.setPage dst fun o => if o < 8 * tfRegs then m.page src o else m.page dst o).setPte dst tfA0 0

def filedup (f : Fin nfile) : ForkM Unit := do
  let s ← get
  if s.file f < 1 then throw .filedup
  else set { s with file := update s.file f (s.file f + 1) }

/-- The round for descriptor `i` of the loop in `fork`. -/
def dupFile (p np : Fin nproc) (i : Fin nofile) : ForkM Unit := do
  match ((← get).proc p).ofile i with
  | none => return ()
  | some f =>
    filedup f
    modify fun s => s.setProc np { s.proc np with
      ofile := update (s.proc np).ofile i (some f) }

def idup (ip : Fin ninode) : ForkM Unit :=
  modify fun s => { s with inode := update s.inode ip (s.inode ip + 1) }

def inherit (p np : Fin nproc) : ForkM ℤ := do
  modify fun s => s.setProc np { s.proc np with sz := (s.proc p).sz }
  modify fun s => { s with
    mem := copyTrapframe (s.proc p).trapframe (s.proc np).trapframe s.mem }
  (List.finRange nofile).forM (dupFile p np)
  match ((← get).proc p).cwd with
  | none => throw .null
  | some ip =>
    idup ip
    modify fun s => s.setProc np { s.proc np with cwd := some ip }
    modify fun s => s.setProc np { s.proc np with
      name := safestrcpy 16 (s.proc np).name (s.proc p).name }
    let pid := ((← get).proc np).pid
    modify fun s => s.setProc np { s.proc np with parent := some p }
    modify fun s => s.setProc np { s.proc np with state := .runnable }
    return pid

/-- `fork` of process `p`; the result is `none` for -1. -/
def fork (p : Fin nproc) : ForkM (Option ℤ) := do
  match ← allocproc with
  | none => return none
  | some np =>
    let s ← get
    if ← onMem (uvmcopy (s.proc p).pagetable (s.proc np).pagetable (s.proc p).sz) then
      return some (← inherit p np)
    else
      freeproc np
      return none

variable {E : Panic → Prop} {s t u : Kernel} {p q np : Fin nproc} {m₀ : Mem}

theorem wp_onMem {α : Type} {x : VmM α} {Q : α → Kernel → Prop} : wp (onMem x) Q E s ↔
    wp x (fun a m => Q a { s with mem := m }) (fun e => E (.vm e)) s.mem := wp_zoom

structure Frame (q : Fin nproc) (s t : Kernel) : Prop where
  proc : ∀ q', q' ≠ q → t.proc q' = s.proc q'
  file : t.file = s.file
  inode : t.inode = s.inode

theorem Frame.trans (h : Frame q s t) (h' : Frame q t u) : Frame q s u :=
  ⟨fun q' hq => (h'.proc q' hq).trans (h.proc q' hq), h'.file.trans h.file, h'.inode.trans h.inode⟩

/-- The pages that process `x` has taken from the free list of `m₀` while it is set up. -/
inductive Holds (m₀ : Mem) (x : Process) (m : Mem) : Prop where
  | nothing (htf : x.trapframe = 0) (hpt : x.pagetable = 0) (h : Took m₀ 0 m)
  | frame (htf : x.trapframe ≠ 0) (hpt : x.pagetable = 0) (h : Took m₀ {x.trapframe} m)
  | table (htf : x.trapframe ≠ 0) (hpt : x.pagetable ≠ 0)
      (h : Built m₀ x.pagetable {x.trapframe} m)
      (hl : ∀ va, va < sv39 → m.lookup x.pagetable va = procEntry m₀.tramp x.trapframe va)

theorem freeproc_spec (hp : m₀.Pool) (hsz : (s.proc q).sz = 0) (h : Holds m₀ (s.proc q) s.mem) :
    wp (freeproc q) (fun _ t => Took m₀ 0 t.mem ∧ Frame q s t) E s := by
  unfold freeproc
  simp only [wp_bind, wp_get]
  have hend : ∀ m, Took m₀ 0 m → ∀ x y, Took m₀ 0 m ∧
      Frame q s (({ s with mem := m }.setProc q x).setProc q y) := by
    intro m hm x y
    exact ⟨hm, ⟨fun q' hq => by simp [hq], rfl, rfl⟩⟩
  cases h with
  | nothing htf hpt h =>
    rw [if_neg (not_not.mpr htf), wp_pure, wp_modify, if_neg (not_not.mpr hpt), wp_pure, wp_modify]
    exact hend s.mem h _ _
  | frame htf hpt h =>
    rw [if_pos htf, wp_onMem]
    refine wp_post (Took.kfree hp h) ?_
    rintro _ m ⟨hm, _⟩
    rw [wp_modify, if_neg (not_not.mpr hpt), wp_pure, wp_modify]
    exact hend m hm _ _
  | table htf hpt h hl =>
    rw [if_pos htf, wp_onMem]
    refine wp_post (Built.kfree hp h) ?_
    rintro _ m ⟨hm, hlook, _⟩
    rw [wp_modify, if_pos hpt, wp_onMem, hsz]
    refine wp_post (hm.procFreepagetable hp fun va hva => (hlook va).trans (hl va hva)) ?_
    intro _ m' hm'
    rw [wp_modify]
    exact ⟨hm', ⟨fun q' hq => by simp [hq], rfl, rfl⟩⟩

/-- What `fork` finds: the parent's address space is in order, its open files and its current
directory have references, and the slots that are not used hold nothing. -/
structure Ready (s : Kernel) (p : Fin nproc) : Prop where
  pool : s.mem.Pool
  kend : 0 < s.mem.kend
  live : (s.proc p).state ≠ .unused
  space : Space s.mem (s.proc p).pagetable (npages (s.proc p).sz)
  trapframe : (s.proc p).trapframe ∉ s.mem.free
  refs : ∀ i f, (s.proc p).ofile i = some f → 0 < s.file f
  cwd : (s.proc p).cwd ≠ none
  unused : ∀ q, (s.proc q).state = .unused →
    (s.proc q).pagetable = 0 ∧ (s.proc q).sz = 0 ∧ (s.proc q).ofile = fun _ => none

private theorem ne_zero_of_took {X : Multiset ℕ} {m : Mem} {a : ℕ} (hp : m₀.Pool) (hk : 0 < m₀.kend)
    (h : Took m₀ X m) (ha : a ∈ X) : a ≠ 0 := by
  have hr := (h.range hp ha).2.1
  rw [h.kernel.1] at hr
  omega

structure Fresh (s : Kernel) (q : Fin nproc) (t : Kernel) : Prop where
  frame : Frame q s t
  holds : Holds s.mem (t.proc q) t.mem
  trapframe : (t.proc q).trapframe ≠ 0
  pagetable : (t.proc q).pagetable ≠ 0
  sz : (t.proc q).sz = 0
  ofile : (t.proc q).ofile = (s.proc q).ofile

theorem found_spec (hp : s.mem.Pool) (hk : 0 < s.mem.kend) (hpt : (s.proc q).pagetable = 0)
    (hsz : (s.proc q).sz = 0) : wp (found q) (fun r t =>
      match r with
      | none => Took s.mem 0 t.mem ∧ Frame q s t
      | some np => np = q ∧ Fresh s q t) E s := by
  unfold found
  simp only [wp_bind, wp_modify, wp_onMem]
  refine wp_post (Took.refl s.mem).kalloc ?_
  intro r m hr
  cases r with
  | none =>
    simp only [wp_bind, wp_modify]
    refine wp_post (freeproc_spec hp ?_ (.nothing ?_ ?_ ?_)) ?_
    · simpa using hsz
    · simp
    · simpa using hpt
    · exact hr.1
    · rintro _ t ⟨ht, hf⟩
      refine ⟨ht, Frame.trans ?_ hf⟩
      exact ⟨fun q' hq => by simp [hq], rfl, rfl⟩
  | some tf =>
    obtain ⟨htook, _⟩ := hr
    have htf : tf ≠ 0 := ne_zero_of_took hp hk htook (Multiset.mem_cons_self _ _)
    have hrange := htook.range hp (Multiset.mem_cons_self _ _)
    simp only [wp_bind, wp_modify, wp_onMem]
    refine wp_post (htook.procPagetable hp (add_pgsize_le hrange.2.2)) ?_
    intro r m' hr
    cases r with
    | none =>
      simp only [wp_bind, wp_modify]
      refine wp_post (freeproc_spec hp ?_ (.frame ?_ ?_ ?_)) ?_
      · simpa using hsz
      · simpa using htf
      · simp
      · simpa using hr
      · rintro _ t ⟨ht, hf⟩
        refine ⟨ht, Frame.trans ?_ hf⟩
        exact ⟨fun q' hq => by simp [hq], rfl, rfl⟩
    | some root =>
      obtain ⟨hb, hl⟩ := hr
      have hroot : root ≠ 0 :=
        ne_zero_of_took hp hk hb.took (Multiset.mem_add.mpr (.inl Radix.self_mem_nodes))
      refine ⟨rfl, ⟨⟨fun q' hq => ?_, rfl, rfl⟩, .table ?_ ?_ ?_ ?_, ?_, ?_, ?_, ?_⟩⟩
      · simp [hq]
      · simpa using htf
      · simpa using hroot
      · simpa using hb
      · simpa using hl
      · simpa using htf
      · simpa using hroot
      · simpa using hsz
      · simp

/-- `allocproc` fails and gives back what it has taken, or sets up a slot that was not used. -/
theorem allocproc_spec (h : Ready s p) : wp allocproc (fun r t =>
    match r with
    | none => Took s.mem 0 t.mem ∧ t.proc p = s.proc p ∧ t.file = s.file ∧ t.inode = s.inode
    | some q => (s.proc q).state = .unused ∧ q ≠ p ∧ Fresh s q t) E s := by
  unfold allocproc
  simp only [wp_bind, wp_get]
  split
  · exact ⟨Took.refl s.mem, rfl, rfl, rfl⟩
  next q hq =>
    have hst : (s.proc q).state = .unused := by simpa using List.find?_some hq
    have hne : q ≠ p := by
      rintro rfl
      exact h.live hst
    obtain ⟨hpt, hsz, _⟩ := h.unused q hst
    refine wp_post (found_spec h.pool h.kend hpt hsz) ?_
    intro r t hr
    cases r with
    | none => exact ⟨hr.1, hr.2.proc p hne.symm, hr.2.file, hr.2.inode⟩
    | some np =>
      obtain ⟨rfl, hf⟩ := hr
      exact ⟨hst, hne, hf⟩

/-- The number of descriptors of `p` that refer to `f`. -/
def descriptors (x : Process) (l : List (Fin nofile)) (f : Fin nfile) : ℕ :=
  l.countP fun i => x.ofile i = some f

structure Dups (s : Kernel) (p np : Fin nproc) (l : List (Fin nofile)) (t : Kernel) : Prop where
  mem : t.mem = s.mem
  inode : t.inode = s.inode
  proc : ∀ q, q ≠ np → t.proc q = s.proc q
  child : t.proc np = { s.proc np with ofile := (t.proc np).ofile }
  done : ∀ i, i ∉ l → (t.proc np).ofile i = (s.proc p).ofile i
  todo : ∀ i ∈ l, (t.proc np).ofile i = none
  le : ∀ f, s.file f ≤ t.file f
  file : ∀ f, t.file f + descriptors (s.proc p) l f =
    s.file f + descriptors (s.proc p) (List.finRange nofile) f

section
variable (hne : np ≠ p) (hrefs : ∀ i f, (s.proc p).ofile i = some f → 0 < s.file f)
include hne hrefs

theorem dupFile_spec {x : Fin nofile} {l : List (Fin nofile)} (h : Dups s p np (x :: l) t)
    (hx : x ∉ l) : wp (dupFile p np x) (fun _ u => Dups s p np l u) E t := by
  have hp : t.proc p = s.proc p := h.proc p hne.symm
  unfold dupFile
  simp only [wp_bind, wp_get]
  rw [hp]
  cases hf : (s.proc p).ofile x with
  | none =>
    refine ⟨h.mem, h.inode, h.proc, h.child, fun i hi => ?_, fun i hi => ?_, h.le, fun f => ?_⟩
    · obtain rfl | hix := eq_or_ne i x
      · rw [hf]
        exact h.todo i (.head _)
      · exact h.done i (by simp [hix, hi])
    · exact h.todo i (.tail _ hi)
    · have hfile := h.file f
      simpa [descriptors, hf] using hfile
  | some f =>
    have hpos : 0 < t.file f := (hrefs x f hf).trans_le (h.le f)
    unfold filedup
    simp only [wp_bind, wp_get]
    rw [if_neg (by omega), wp_set, wp_modify]
    refine ⟨h.mem, h.inode, fun q hq => ?_, ?_, fun i hi => ?_, fun i hi => ?_, fun g => ?_,
      fun g => ?_⟩
    · simp only [Kernel.setProc_proc]
      rw [update_of_ne hq]
      exact h.proc q hq
    · simp only [Kernel.setProc_proc, update_self]
      rw [h.child]
    · simp only [Kernel.setProc_proc, update_self]
      obtain rfl | hix := eq_or_ne i x
      · rw [update_self, hf]
      · rw [update_of_ne hix]
        exact h.done i (by simp [hix, hi])
    · have hix : i ≠ x := by
        rintro rfl
        exact hx hi
      simp only [Kernel.setProc_proc, update_self]
      rw [update_of_ne hix]
      exact h.todo i (.tail _ hi)
    · simp only [Kernel.setProc_file]
      obtain rfl | hg := eq_or_ne g f
      · rw [update_self]
        exact (h.le g).trans (Nat.le_succ _)
      · rw [update_of_ne hg]
        exact h.le g
    · have hfile := h.file g
      simp only [Kernel.setProc_file]
      obtain rfl | hg := eq_or_ne g f
      · rw [update_self]
        simp only [descriptors, countP_cons, hf] at hfile ⊢
        simp only [decide_true, if_true] at hfile
        omega
      · rw [update_of_ne hg]
        have hfg : ¬ f = g := fun hc => hg hc.symm
        simpa [descriptors, countP_cons, hf, hfg] using hfile

theorem dupLoop_spec (hnone : (s.proc np).ofile = fun _ => none) :
    wp ((List.finRange nofile).forM (dupFile p np)) (fun _ t => Dups s p np [] t) E s := by
  have hstart : Dups s p np (List.finRange nofile) s :=
    ⟨rfl, rfl, fun _ _ => rfl, rfl, fun i hi => absurd (mem_finRange i) hi,
      fun i _ => by rw [hnone], fun _ => le_rfl, fun _ => rfl⟩
  have hstep : ∀ x l t, Dups s p np (x :: l) t ∧ (x :: l).Nodup →
      wp (dupFile p np x) (fun _ u => Dups s p np l u ∧ l.Nodup) E t := by
    rintro x l t ⟨h, hn⟩
    obtain ⟨hx, hl⟩ := nodup_cons.mp hn
    exact wp_post (dupFile_spec hne hrefs h hx) (fun _ _ hd => ⟨hd, hl⟩)
  exact wp_post (wp_forM (fun l t => Dups s p np l t ∧ l.Nodup) hstep (List.finRange nofile) s
    ⟨hstart, nodup_finRange _⟩) (fun _ _ h => h.1)

end

structure Inherited (s : Kernel) (p np : Fin nproc) (r : ℤ) (t : Kernel) : Prop where
  mem : t.mem = copyTrapframe (s.proc p).trapframe (s.proc np).trapframe s.mem
  proc : ∀ q, q ≠ np → t.proc q = s.proc q
  pid : (t.proc np).pid = r
  state : (t.proc np).state = .runnable
  parent : (t.proc np).parent = some p
  sz : (t.proc np).sz = (s.proc p).sz
  pagetable : (t.proc np).pagetable = (s.proc np).pagetable
  trapframe : (t.proc np).trapframe = (s.proc np).trapframe
  ofile : (t.proc np).ofile = (s.proc p).ofile
  cwd : (t.proc np).cwd = (s.proc p).cwd
  file : ∀ f, t.file f = s.file f + descriptors (s.proc p) (List.finRange nofile) f
  inode : ∀ ip, t.inode ip = s.inode ip + if (s.proc p).cwd = some ip then 1 else 0

theorem inherit_spec (hne : np ≠ p) (hrefs : ∀ i f, (s.proc p).ofile i = some f → 0 < s.file f)
    (hnone : (s.proc np).ofile = fun _ => none) (hcwd : (s.proc p).cwd ≠ none) :
    wp (inherit p np) (fun pid t => Inherited s p np pid t) E s := by
  unfold inherit
  simp only [wp_bind, wp_modify]
  refine wp_post (dupLoop_spec hne ?_ ?_) ?_
  · simpa [hne.symm] using hrefs
  · simpa using hnone
  · intro _ t h
    have hp : t.proc p = s.proc p := by
      rw [h.proc p hne.symm]
      simp [hne.symm]
    obtain ⟨ip, hip⟩ := Option.ne_none_iff_exists'.mp hcwd
    have hchild := h.child
    simp only [wp_get]
    rw [hp, hip]
    unfold idup
    simp only [wp_bind, wp_modify, wp_get, wp_pure]
    have hofile : (t.proc np).ofile = (s.proc p).ofile := by
      funext i
      have hi := h.done i not_mem_nil
      simpa [hne.symm] using hi
    refine ⟨?_, fun q hq => ?_, ?_, ?_, ?_, ?_, ?_, ?_, ?_, ?_, fun f => ?_, fun ip' => ?_⟩
    · have hmem := h.mem
      simpa [hne.symm] using hmem
    · have hq' := h.proc q hq
      simpa [hq] using hq'
    · simp
    · simp
    · simp
    · have hsz := congrArg Process.sz hchild
      simpa [hne.symm] using hsz
    · have hpt := congrArg Process.pagetable hchild
      simpa using hpt
    · have htf := congrArg Process.trapframe hchild
      simpa using htf
    · simpa using hofile
    · simp [hip]
    · have hfile := h.file f
      simpa [descriptors, hne.symm] using hfile
    · have hin := congrFun h.inode ip'
      obtain rfl | hc := eq_or_ne ip' ip
      · simpa [hip] using hin
      · have hc' : ¬ ip = ip' := fun hcc => hc hcc.symm
        simpa [hip, hc, hc'] using hin

def byte (m : Mem) (root va : ℕ) : UInt8 := m.page (m.frame root va) (va % pgsize)

/-- Address `va` has the same permissions and the same contents in both page tables. -/
def SameAt (m : Mem) (root : ℕ) (m' : Mem) (root' va : ℕ) : Prop :=
  pteFlags (m'.lookup root' va) = pteFlags (m.lookup root va) ∧ byte m' root' va = byte m root va

def Accessible (m : Mem) (root va : ℕ) : Prop :=
  m.lookup root va &&& pteV ≠ 0 ∧ m.lookup root va &&& pteU ≠ 0

private theorem sameAt_of_pages {m m' : Mem} {root root' n : ℕ} (hn : n * pgsize ≤ sv39)
    (hflags : ∀ k, k < n →
      pteFlags (m'.lookup root' (k * pgsize)) = pteFlags (m.lookup root (k * pgsize)))
    (hdata : ∀ k, k < n →
      m'.page (m'.frame root' (k * pgsize)) = m.page (m.frame root (k * pgsize))) {va : ℕ}
    (hva : va < n * pgsize) : SameAt m root m' root' va := by
  have hk : va / pgsize < n := Nat.div_lt_of_lt_mul (by rwa [Nat.mul_comm] at hva)
  have hlt : va < sv39 := hva.trans_le hn
  have hle : va / pgsize * pgsize < sv39 := (Nat.div_mul_le_self va pgsize).trans_lt hlt
  have heq : va / pgsize = va / pgsize * pgsize / pgsize :=
    (Nat.mul_div_cancel _ (by decide)).symm
  unfold SameAt byte
  rw [Mem.frame, Mem.frame, lookup_page hle hlt heq, lookup_page hle hlt heq]
  exact ⟨hflags _ hk, congrFun (hdata _ hk) _⟩

def roots (t : Kernel) (p np : Fin nproc) (c : Bool) : ℕ :=
  if c then (t.proc np).pagetable else (t.proc p).pagetable

/-- What `fork` promises when it returns the pid of a child. -/
structure Forked (s : Kernel) (p np : Fin nproc) (pid : ℤ) (t : Kernel) : Prop where
  slot : (s.proc np).state = .unused ∧ np ≠ p
  parent : t.proc p = s.proc p
  pid : (t.proc np).pid = pid
  sz : (t.proc np).sz = (s.proc p).sz
  /-- The child's memory is a copy, and the parent still has its own. -/
  memory : ∀ c va, va < npages (s.proc p).sz * pgsize →
    SameAt s.mem (s.proc p).pagetable t.mem (roots t p np c) va
  above : ∀ c va, va < sv39 → npages (s.proc p).sz ≤ va / pgsize →
    ¬ Accessible t.mem (roots t p np c) va
  registers : ∀ i : Fin 512, i.val < tfRegs → t.mem.pte (t.proc np).trapframe i =
    if i = tfA0 then 0 else s.mem.pte (s.proc p).trapframe i
  saved : t.mem.page (s.proc p).trapframe = s.mem.page (s.proc p).trapframe
  ofile : (t.proc np).ofile = (s.proc p).ofile
  cwd : (t.proc np).cwd = (s.proc p).cwd
  file : ∀ f, t.file f = s.file f + descriptors (s.proc p) (List.finRange nofile) f
  inode : ∀ ip, t.inode ip = s.inode ip + if (s.proc p).cwd = some ip then 1 else 0
  /-- After any writes by both processes, writes by one of them do not change the memory of the
  other. -/
  isolated : ∀ ws, ∃ m, run (writeNext (roots t p np)) t.mem ws = some m ∧
    ∀ c ws', (∀ w ∈ ws', w.1 = !c) → ∃ m', run (writeNext (roots t p np)) m ws' = some m' ∧
      ∀ va, va < npages (s.proc p).sz * pgsize → SameAt m (roots t p np c) m' (roots t p np c) va

structure Failed (s : Kernel) (p : Fin nproc) (t : Kernel) : Prop where
  parent : t.proc p = s.proc p
  memory : ∀ va, va < npages (s.proc p).sz * pgsize →
    SameAt s.mem (s.proc p).pagetable t.mem (s.proc p).pagetable va
  saved : t.mem.page (s.proc p).trapframe = s.mem.page (s.proc p).trapframe
  file : t.file = s.file
  inode : t.inode = s.inode
  free : t.mem.free.length = s.mem.free.length

theorem Ready.sameAt {X : Multiset ℕ} {m : Mem} (h : Ready s p) (ht : Took s.mem X m) {va : ℕ}
    (hva : va < npages (s.proc p).sz * pgsize) :
    SameAt s.mem (s.proc p).pagetable m (s.proc p).pagetable va := by
  have hle : npages (s.proc p).sz * pgsize ≤ sv39 :=
    h.space.le.trans (by norm_num [phystop, kernbase, sv39])
  refine sameAt_of_pages hle (fun k hk => ?_) (fun k hk => ?_) hva
  · rw [h.space.lookup_of_took ht]
  · rw [Mem.frame, h.space.lookup_of_took ht]
    exact h.space.page_of_took ht hk

theorem Ready.failed (h : Ready s p) (ht : Took s.mem 0 t.mem) (hp : t.proc p = s.proc p)
    (hfile : t.file = s.file) (hinode : t.inode = s.inode) : Failed s p t where
  parent := hp
  memory _ hva := h.sameAt ht hva
  saved := ht.page _ h.trapframe
  file := hfile
  inode := hinode
  free := by
    have hcard := congrArg Multiset.card ht.pages
    simpa using hcard.symm

theorem copyTrapframe_pte {m : Mem} {src dst : ℕ} {i : Fin 512} (hi : i.val < tfRegs) :
    (copyTrapframe src dst m).pte dst i = if i = tfA0 then 0 else m.pte src i := by
  unfold copyTrapframe
  split
  next heq =>
    subst heq
    exact Mem.pte_setPte_self (by norm_num)
  next hne =>
    rw [Mem.pte_setPte_slot hne]
    refine LittleEndian.word_congr fun k hk => ?_
    simp only [Mem.setPage_page, update_self]
    rw [if_pos (by simp only [tfRegs] at hi ⊢; omega)]

/-- After `uvmcopy` the child gets the rest of what `fork` promises. -/
theorem Ready.forked {m : Mem} {pid : ℤ} (h : Ready s p) (hst : (s.proc np).state = .unused)
    (hne : np ≠ p) (hf : Fresh s np t)
    (hc : Copied s.mem (s.proc p).pagetable (t.proc np).pagetable (npages (s.proc p).sz)
      {(t.proc np).trapframe} (procEntry s.mem.tramp (t.proc np).trapframe) m)
    (hi : Inherited { t with mem := m } p np pid u) : Forked s p np pid u := by
  have hp : t.proc p = s.proc p := hf.frame.proc p hne.symm
  have hup : u.proc p = s.proc p := (hi.proc p hne.symm).trans hp
  have hle : npages (s.proc p).sz * pgsize ≤ sv39 :=
    h.space.le.trans (by norm_num [phystop, kernbase, sv39])
  have hroot : roots u p np = fun c =>
      if c then (t.proc np).pagetable else (s.proc p).pagetable := by
    funext c
    unfold roots
    rw [hup, hi.pagetable]
  have hmem : u.mem = copyTrapframe (s.proc p).trapframe (t.proc np).trapframe m := by
    rw [hi.mem]
    simp only [hp]
  have hcu : Copied s.mem (s.proc p).pagetable (t.proc np).pagetable (npages (s.proc p).sz)
      {(t.proc np).trapframe} (procEntry s.mem.tramp (t.proc np).trapframe) u.mem := by
    rw [hmem]
    have hself := Multiset.mem_singleton_self (t.proc np).trapframe
    exact (hc.setPage h.pool hle hself _).setPage h.pool hle hself _
  have htook := hcu.built.took
  have hap := hcu.apart h.pool h.space
  have hboth c : ApartFrom (roots u p np) (fun _ => npages (s.proc p).sz) u.mem c := by
    unfold ApartFrom
    rw [hroot]
    cases c with
    | false => exact hap
    | true => exact hap.symm
  refine ⟨⟨hst, hne⟩, hup, hi.pid, ?_, fun c va hva => ?_, fun c va hva hn hacc => ?_,
    fun i hi' => ?_, htook.page _ h.trapframe, ?_, ?_, fun f => ?_, fun ip => ?_, fun ws => ?_⟩
  · rw [hi.sz]
    simp only [hp]
  · rw [hroot]
    cases c with
    | false => exact h.sameAt htook hva
    | true => exact sameAt_of_pages hle hcu.flags hcu.data hva
  · have hab := (hboth c).left.above va hva hn
    rcases hab with hz | hz
    · exact hacc.1 hz
    · exact hacc.2 hz
  · rw [hi.trapframe, hmem, copyTrapframe_pte hi',
      Mem.pte_of_page (hc.built.took.page _ h.trapframe)]
  · rw [hi.ofile]
    simp only [hp]
  · rw [hi.cwd]
    simp only [hp]
  · rw [hi.file f]
    simp only [hp, hf.frame.file]
  · rw [hi.inode ip]
    simp only [hp, hf.frame.inode]
  · obtain ⟨v, hr, hv⟩ := run_writes ws u.mem hboth
    refine ⟨v, hr, fun c ws' hws => ?_⟩
    obtain ⟨w, hr', _⟩ := run_writes ws' v hv
    obtain ⟨hlook, hdata⟩ := run_writes_other hws v w hv hr'
    refine ⟨w, hr', fun va hva => sameAt_of_pages hle (fun k _ => ?_) hdata hva⟩
    rw [hlook]

/-- `fork` isolates. It always returns; when it returns a pid, the child has a copy of the memory
and of the registers of its parent, shares its open files and its current directory, and no later
write to the memory of one of the two changes that of the other; when it fails, everything is as
before. -/
theorem fork_isolates (h : Ready s p) : ∃ r t, fork p s = .ok (r, t) ∧ match r with
    | none => Failed s p t
    | some pid => ∃ np, Forked s p np pid t := by
  have hspec : wp (fork p) (fun r t =>
      match r with
      | none => Failed s p t
      | some pid => ∃ np, Forked s p np pid t) (fun _ => False) s := by
    unfold fork
    refine wp_seq (allocproc_spec h) ?_
    intro r t hr
    cases r with
    | none => exact h.failed hr.1 hr.2.1 hr.2.2.1 hr.2.2.2
    | some np =>
      obtain ⟨hst, hne, hf⟩ := hr
      have hp : t.proc p = s.proc p := hf.frame.proc p hne.symm
      cases hf.holds with
      | nothing htf _ _ => exact absurd htf hf.trapframe
      | frame _ hpt _ => exact absurd hpt hf.pagetable
      | table htf hpt hb hl =>
        simp only [wp_bind, wp_get, wp_onMem]
        rw [hp]
        refine wp_post (uvmcopy_spec h.pool h.space
          (fun x _ hx => procEntry_user _ _ h.space hx) hb hl) ?_
        intro r m hr
        cases r with
        | true =>
          simp only [if_true, wp_bind, wp_pure] at hr ⊢
          refine wp_post (inherit_spec hne ?_ ?_ ?_) ?_
          · intro i f hif
            rw [hf.frame.file]
            exact h.refs i f (hp ▸ hif)
          · exact hf.ofile.trans (h.unused np hst).2.2
          · rw [hp]
            exact h.cwd
          · intro pid u hi
            exact ⟨np, h.forked hst hne hf hr hi⟩
        | false =>
          simp only [Bool.false_eq_true, if_false, wp_bind, wp_pure] at hr ⊢
          refine wp_post (freeproc_spec h.pool hf.sz (.table htf hpt hr.1 hr.2)) ?_
          rintro _ u ⟨ht, hfu⟩
          have hframe : Frame np s u := by
            refine Frame.trans hf.frame ?_
            exact ⟨hfu.proc, hfu.file, hfu.inode⟩
          exact h.failed ht (hframe.proc p hne.symm) hframe.file hframe.inode
  exact wp_total hspec

def emptySlot : Process where
  state := .unused
  pid := 0
  chan := 0
  killed := 0
  xstate := 0
  parent := none
  kstack := 0
  sz := 0
  pagetable := 0
  trapframe := 0
  context := ⟨0, 0⟩
  ofile := fun _ => none
  cwd := none
  name := List.replicate 16 0

def oneParent : Kernel where
  mem := onePage
  proc := fun q => if q = 0 then
      { emptySlot with
        state := .running, pid := 1, sz := 100, pagetable := 0x80010000, trapframe := 0x80021000,
        ofile := fun i => if i = 0 then some 0 else none, cwd := some 0 }
    else emptySlot
  file := fun _ => 1
  inode := fun _ => 1
  nextpid := 2
  forkret := 0x80001000

theorem fork_isolates_onePage : ∃ pid t np, fork 0 oneParent = .ok (some pid, t) ∧
    Forked oneParent 0 np pid t := by
  obtain ⟨hpool, hkend, hspace, htf⟩ := space_onePage
  have hready : Ready oneParent 0 := by
    refine ⟨hpool, hkend, fun hst => (by cases hst), hspace, htf, fun _ _ _ => one_pos,
      fun hcwd => (by cases hcwd), fun q hq => ?_⟩
    have hq0 : q ≠ 0 := by
      rintro rfl
      cases hq
    simp [oneParent, hq0, emptySlot]
  have hok : ((fork 0 oneParent).toOption.bind Prod.fst).isSome = true := by decide +kernel
  obtain ⟨r, t, hrun, hr⟩ := fork_isolates hready
  rw [hrun] at hok
  cases r with
  | none => cases hok
  | some pid =>
    obtain ⟨np, hnp⟩ := hr
    exact ⟨pid, t, np, hrun, hnp⟩

end Xv6.Fork
