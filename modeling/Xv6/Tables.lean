import Xv6.Bio.Coherence
import Xv6.Itable.Runs

/-! The tables of fixed size: the inode table and the buffer cache. A call that finds no entry for
what it needs panics. -/
namespace Xv6.Tables
open Transition

section Inodes
open Itable
variable {P : Type} {n : ℕ} {s t : Table P} {p : P} {dev inum : ℕ}

@[grind] def igets (s : Table P) : Itable.Action P → Option (ℕ × ℕ)
  | .iget _ dev inum => some (dev, inum)
  | .step p =>
    match s.pc p with
    | .get dev inum => some (dev, inum)
    | _ => none
  | _ => none

/-- The entries of the inodes to which processes have references. -/
def inUse [Fintype P] (s : Table P) : Finset (Fin ninode) :=
  Finset.univ.filter fun i => ∃ p, s.refs p i ≠ 0

/-- An entry is free when there are fewer inodes in use than entries. -/
theorem findEmpty_of_inUse [Fintype P] (h : Counted s) (hlt : (inUse s).card < ninode) :
    s.findEmpty ≠ none := by
  intro hnone
  have hall : inUse s = Finset.univ := by
    refine Finset.filter_true_of_mem fun i _ => ?_
    have hi := List.find?_eq_none.mp hnone i (List.mem_finRange i)
    have hr := h.refs i
    by_contra hno
    have hz : ∀ p, s.refs p i = 0 := by simpa using hno
    rw [Counting.total_eq_zero.mpr hz] at hr
    simp [hr] at hi
  rw [hall, Finset.card_univ, Fintype.card_fin] at hlt
  exact lt_irrefl _ hlt

variable [DecidableEq P]

theorem panic_of_iget (hs : s.panic ≠ some .noInodes)
    (h : (s.iget p dev inum).panic = some .noInodes) :
    s.find dev inum = none ∧ s.findEmpty = none := by
  unfold Table.iget at h
  split at h
  · exact absurd h hs
  next hf =>
    split at h
    · exact absurd h hs
    next he => exact ⟨hf, he⟩

theorem panic_of_stepOf (hs : s.panic ≠ some .noInodes) (h : s.stepOf n p = some t)
    (hp : t.panic = some .noInodes) :
    ∃ dev inum, s.pc p = .get dev inum ∧ s.find dev inum = none ∧ s.findEmpty = none := by
  unfold Table.stepOf at h
  cases hpc : s.pc p with
  | get dev inum =>
    simp only [hpc] at h
    cases h
    exact ⟨dev, inum, rfl, panic_of_iget hs hp⟩
  | load i =>
    simp only [hpc] at h
    split at h
    · cases h
      exact absurd hp hs
    split at h
    · cases h
      cases hp
    · cases h
      exact absurd hp hs
  | lock i =>
    simp only [hpc, Option.ite_none_right_eq_some] at h
    cases h.2
    exact absurd hp hs
  | scan dev ty inum =>
    simp only [hpc] at h
    split at h
    · split at h <;> cases h <;> exact absurd hp hs
    · cases h
      exact absurd hp hs
  | idle =>
    simp only [hpc] at h
    cases h
  | _ =>
    simp only [hpc] at h
    cases h
    exact absurd hp hs

/-- The panic of `iget` comes from a call that finds neither the inode nor a free entry. -/
theorem panic_of_next {a : Itable.Action P} (h : s.next n a = some t)
    (hp : t.panic = some .noInodes) :
    ∃ dev inum, igets s a = some (dev, inum) ∧ s.find dev inum = none ∧ s.findEmpty = none := by
  unfold Table.next at h
  split at h
  · cases h
  next hno =>
    have hs : s.panic ≠ some .noInodes := by
      intro hc
      rw [hc] at hno
      exact hno rfl
    cases a with
    | iget p dev inum =>
      simp only [Option.ite_none_right_eq_some] at h
      cases h.2
      exact ⟨dev, inum, rfl, panic_of_iget hs hp⟩
    | step p =>
      obtain ⟨dev, inum, hpc, hnone⟩ := panic_of_stepOf hs h hp
      exact ⟨dev, inum, by simp [igets, hpc], hnone⟩
    | ilock p i | iunlock p i =>
      simp only [Option.ite_none_right_eq_some] at h
      have h2 := h.2
      split at h2
      · cases h2
        cases hp
      · cases h2
        exact absurd hp hs
    | iput p i =>
      simp only [Option.ite_none_right_eq_some] at h
      have h2 := h.2
      unfold Table.iput at h2
      split at h2
      · simp only [Option.ite_none_right_eq_some] at h2
        cases h2.2
        exact absurd hp hs
      · cases h2
        exact absurd hp hs
    | _ =>
      simp only [Option.ite_none_right_eq_some] at h
      cases h.2
      exact absurd hp hs

end Inodes

section Buffers
open Bio Log
variable {P : Type} {g : LogArea} {s t : System P} {p : P}

def reads (g : LogArea) (s : System P) : Bio.Action P → Option ℕ
  | .bread _ b => some b
  | .commit p =>
    match s.group.pc p, s.job p with
    | .commit (.writeLog tail), .start | .commit (.install tail), .start =>
      some (g.start + tail + 1)
    | .commit (.writeLog tail), .first _ | .commit (.install tail), .first _ =>
      s.group.log.lh[tail]?
    | .commit .writeHead, .start | .commit .eraseHead, .start => some g.start
    | _, _ => none
  | _ => none

/-- The buffers that processes hold or wait for, and those that the log has pinned. -/
def busy [Fintype P] (c : Cache P) : Finset (Fin nbuf) :=
  Finset.univ.filter fun i => (c.buf i).holds ≠ 0 ∨ (∃ p, Io.waits i (c.io p) ≠ 0) ∨
    (c.buf i).pins c.pinned ≠ 0

/-- A buffer is unused when there are fewer busy buffers than buffers. -/
theorem findUnused_of_busy [Fintype P] {c : Cache P} (h : CacheInv c)
    (hlt : (busy c).card < nbuf) : c.findUnused ≠ none := by
  intro hnone
  have hall : busy c = Finset.univ := by
    refine Finset.filter_true_of_mem fun i _ => ?_
    have hi := List.find?_eq_none.mp hnone i (List.mem_reverse.mpr (h.listed i))
    have hr := h.refs i
    by_contra hno
    simp only [not_or, not_not, not_exists] at hno
    rw [hno.1, Counting.total_eq_zero.mpr hno.2.1, hno.2.2] at hr
    simp [hr] at hi
  rw [hall, Finset.card_univ, Fintype.card_fin] at hlt
  exact lt_irrefl _ hlt

variable [DecidableEq P]

section
variable (hs : s.panic ≠ some .noBuffers)
include hs

theorem panic_of_startRead {b : ℕ} {next : Fin nbuf → Job}
    (h : (s.startRead p b next).panic = some .noBuffers) :
    s.cache.findCached rootdev b = none ∧ s.cache.findUnused = none := by
  unfold System.startRead Cache.bget at h
  grind

theorem panic_of_write {i : Fin nbuf} {next : Job} {k : ℕ} :
    (s.write p i next k).panic ≠ some .noBuffers := by
  unfold System.write
  split
  · exact hs
  · nofun

theorem panic_of_release {i : Fin nbuf} {next : Job} :
    (s.release p i next).panic ≠ some .noBuffers := by
  unfold System.release
  split
  · exact hs
  · nofun

end

theorem panic_of_writeHeadStep (hread : ∀ {b next}, some (s.startRead p b next) = some t →
      s.cache.findCached rootdev b = none ∧ s.cache.findUnused = none)
    (hmove : ∀ {i v next}, t ≠ s.move p i v next)
    (hwrite : ∀ {i next k}, t ≠ s.write p i next k)
    (hrelease : ∀ {i next}, t ≠ s.release p i next)
    (hpc : s.group.pc p = .commit .writeHead ∨ s.group.pc p = .commit .eraseHead)
    (h : s.writeHeadStep g p = some t) :
    ∃ b, reads g s (.commit p) = some b ∧ s.cache.findCached rootdev b = none ∧
      s.cache.findUnused = none := by
  unfold System.writeHeadStep at h
  split at h
  next hj =>
    refine ⟨g.start, ?_, hread h⟩
    rcases hpc with hpc | hpc <;> simp [reads, hpc, hj]
  · exact absurd (Option.some.inj h).symm hmove
  · exact absurd (Option.some.inj h).symm hwrite
  · exact absurd (Option.some.inj h).symm hrelease
  · cases h

theorem panic_of_commitStep (hs : s.panic ≠ some .noBuffers) (h : s.commitStep g p = some t)
    (hp : t.panic = some .noBuffers) :
    ∃ b, reads g s (.commit p) = some b ∧ s.cache.findCached rootdev b = none ∧
      s.cache.findUnused = none := by
  have hmove : ∀ {i v next}, t ≠ s.move p i v next := by
    rintro i v next rfl
    exact hs hp
  have hwrite : ∀ {i next k}, t ≠ s.write p i next k := by
    rintro i next k rfl
    exact panic_of_write hs hp
  have hrelease : ∀ {i next}, t ≠ s.release p i next := by
    rintro i next rfl
    exact panic_of_release hs hp
  have hread : ∀ {b next}, some (s.startRead p b next) = some t →
      s.cache.findCached rootdev b = none ∧ s.cache.findUnused = none := by
    rintro b next ⟨⟩
    exact panic_of_startRead hs hp
  unfold System.commitStep at h
  split at h
  next tail hpc =>
    obtain ⟨b, hb, h⟩ := Option.bind_eq_some_iff.mp h
    unfold System.writeLogStep at h
    split at h
    next hj => exact ⟨_, by simp [reads, hpc, hj], hread h⟩
    next i hj => exact ⟨b, by simp [reads, hpc, hj, hb], hread h⟩
    · exact absurd (Option.some.inj h).symm hmove
    · exact absurd (Option.some.inj h).symm hwrite
    · exact absurd (Option.some.inj h).symm hrelease
    · exact absurd (Option.some.inj h).symm hrelease
    · cases h
  next hpc => exact panic_of_writeHeadStep hread hmove hwrite hrelease (.inl hpc) h
  next hpc => exact panic_of_writeHeadStep hread hmove hwrite hrelease (.inr hpc) h
  next tail hpc =>
    obtain ⟨b, hb, h⟩ := Option.bind_eq_some_iff.mp h
    unfold System.installStep at h
    split at h
    next hj => exact ⟨_, by simp [reads, hpc, hj], hread h⟩
    next i hj => exact ⟨b, by simp [reads, hpc, hj, hb], hread h⟩
    · exact absurd (Option.some.inj h).symm hmove
    · exact absurd (Option.some.inj h).symm hwrite
    · cases h
      exact absurd hp hs
    · exact absurd (Option.some.inj h).symm hrelease
    · exact absurd (Option.some.inj h).symm hrelease
    · cases h
  · cases h

/-- The panic of `bget` comes from a call that finds neither the block nor an unused buffer. -/
theorem panic_of_bioNext {a : Bio.Action P} (h : s.next g a = some t)
    (hp : t.panic = some .noBuffers) : ∃ b, reads g s a = some b ∧
      s.cache.findCached rootdev b = none ∧ s.cache.findUnused = none := by
  unfold System.next at h
  split at h
  · cases h
  next hno =>
    have hs : s.panic ≠ some .noBuffers := by
      intro hc
      rw [hc] at hno
      exact hno (.inl rfl)
    cases a with
    | log a =>
      obtain ⟨_, h⟩ := Option.ite_none_right_eq_some.mp h
      obtain ⟨u, _, rfl⟩ := Option.map_eq_some_iff.mp h
      unfold System.logStep at hp
      split at hp <;> exact absurd hp hs
    | bread p b =>
      obtain ⟨_, h⟩ := Option.ite_none_right_eq_some.mp h
      cases h
      exact ⟨b, rfl, panic_of_startRead hs hp⟩
    | acquiresleep p | deref p =>
      obtain ⟨c, _, rfl⟩ := Option.map_eq_some_iff.mp h
      exact absurd hp hs
    | fill p =>
      obtain ⟨r, _, rfl⟩ := Option.map_eq_some_iff.mp h
      exact absurd hp hs
    | modify p i v => grind
    | logWrite p i =>
      obtain ⟨_, h⟩ := Option.ite_none_right_eq_some.mp h
      cases h
      simp only [System.logWriteStep] at hp
      split at hp <;> exact absurd hp hs
    | brelse p i =>
      obtain ⟨_, h⟩ := Option.ite_none_right_eq_some.mp h
      cases h
      exact absurd hp (panic_of_release hs)
    | commit p =>
      obtain ⟨_, h⟩ := Option.ite_none_right_eq_some.mp h
      exact panic_of_commitStep hs h hp

end Buffers

section
open Itable Bio Log

structure Kernel (P : Type) where
  table : Table P
  system : System P

inductive Act (P : Type) where
  | inode (a : Itable.Action P)
  | buffer (a : Bio.Action P)

variable {P : Type} [DecidableEq P]

namespace Kernel

@[grind] def next (n : ℕ) (g : LogArea) (k : Kernel P) : Act P → Option (Kernel P)
  | .inode a =>
    if k.system.panic.isSome then none
    else (k.table.next n a).map fun t => { k with table := t }
  | .buffer a =>
    if k.table.panic.isSome then none
    else (k.system.next g a).map fun s => { k with system := s }

def boot (g : LogArea) (inodes : ℕ → ℕ → Dinode) (d : Disk) : Kernel P :=
  ⟨Table.init inodes, System.init g.size (Cache.binit d)⟩

variable [Fintype P]

/-- A call of `iget` or `bget` for what is not in the table comes while fewer inodes are in use, or
fewer buffers busy, than the table has entries. -/
@[grind] def HasRoom (g : LogArea) (k : Kernel P) : Act P → Prop
  | .inode a => ∀ r ∈ igets k.table a,
      k.table.find r.1 r.2 ≠ none ∨ (inUse k.table).card < ninode
  | .buffer a => ∀ b ∈ reads g k.system a,
      k.system.cache.findCached rootdev b ≠ none ∨ (busy k.system.cache).card < nbuf

instance (g : LogArea) (k : Kernel P) : ∀ a, Decidable (HasRoom g k a)
  | .inode a => inferInstanceAs (Decidable (∀ r ∈ igets k.table a,
      k.table.find r.1 r.2 ≠ none ∨ (inUse k.table).card < ninode))
  | .buffer a => inferInstanceAs (Decidable (∀ b ∈ reads g k.system a,
      k.system.cache.findCached rootdev b ≠ none ∨ (busy k.system.cache).card < nbuf))

@[grind cases] structure Inv (g : LogArea) (d : Disk) (k : Kernel P) : Prop where
  counted : Counted k.table
  system : SystemInv g d k.system
  inodes : k.table.panic ≠ some .noInodes
  buffers : k.system.panic ≠ some .noBuffers

theorem Inv.next {n : ℕ} {g : LogArea} {d : Disk} {k t : Kernel P} {a : Act P} (h : Inv g d k)
    (hroom : HasRoom g k a) (hn : k.next n g a = some t) : Inv g d t := by
  cases a with
  | inode a =>
    simp only [Kernel.next, Option.ite_none_left_eq_some, Option.map_eq_some_iff] at hn
    obtain ⟨_, u, hu, rfl⟩ := hn
    refine ⟨h.counted.step (step_of_next hu).2, h.system, fun hp => ?_, h.buffers⟩
    obtain ⟨dev, inum, hget, hfind, hempty⟩ := panic_of_next hu hp
    rcases hroom (dev, inum) hget with hsome | hlt
    · exact hsome hfind
    · exact findEmpty_of_inUse h.counted hlt hempty
  | buffer a =>
    simp only [Kernel.next, Option.ite_none_left_eq_some, Option.map_eq_some_iff] at hn
    obtain ⟨_, u, hu, rfl⟩ := hn
    refine ⟨h.counted, h.system.next hu, h.inodes, fun hp => ?_⟩
    obtain ⟨b, hread, hfind, hunused⟩ := panic_of_bioNext hu hp
    rcases hroom b hread with hsome | hlt
    · exact hsome hfind
    · exact findUnused_of_busy h.system.cache hlt hunused

end Kernel

/-- Neither table runs out in a run, by any number of processes, whose calls all come while there
is room. -/
theorem tables_suffice [Fintype P] {n : ℕ} {g : LogArea} {inodes : ℕ → ℕ → Dinode} {d : Disk}
    {as : List (Act P)} {k : Kernel P}
    (hm : Meets (Kernel.next n g) (Kernel.HasRoom g) (Kernel.boot g inodes d) as)
    (hr : run (Kernel.next n g) (Kernel.boot g inodes d) as = some k) :
    k.table.panic ≠ some .noInodes ∧ k.system.panic ≠ some .noBuffers := by
  have hboot : Kernel.Inv g d (Kernel.boot g inodes d : Kernel P) :=
    ⟨Counted.init inodes, SystemInv.init (Cache.quiet_binit d), nofun, nofun⟩
  have hi : Kernel.Inv g d k :=
    run_invariant_of_meets (fun _ _ _ h hc hn => h.next hc hn) hboot hm hr
  exact ⟨hi.inodes, hi.buffers⟩

def logArea : LogArea := ⟨2, logsize, by decide⟩

@[grind] def files (_ _ : ℕ) : Dinode := { Dinode.fresh .file with nlink := 1 }

def twoFiles : List (Act (Fin 2)) :=
  [.inode (.iget 0 1 2), .inode (.iget 1 1 3), .buffer (.bread 0 50), .buffer (.bread 1 51)]

theorem tables_suffice_twoFiles : ∃ k : Kernel (Fin 2),
    Meets (Kernel.next 200 logArea) (Kernel.HasRoom logArea)
      (Kernel.boot logArea files fun _ => .zero) twoFiles ∧
    run (Kernel.next 200 logArea) (Kernel.boot logArea files fun _ => .zero) twoFiles = some k ∧
    (inUse k.table).card = 2 ∧ (busy k.system.cache).card = 2 ∧
    k.table.panic ≠ some .noInodes ∧ k.system.panic ≠ some .noBuffers := by
  have hm : Meets (Kernel.next 200 logArea) (Kernel.HasRoom logArea)
      (Kernel.boot logArea files fun _ => .zero) twoFiles := by decide +kernel
  have h : ∃ k ∈ run (Kernel.next 200 logArea) (Kernel.boot logArea files fun _ => .zero) twoFiles,
      (inUse k.table).card = 2 ∧ (busy k.system.cache).card = 2 := by decide +kernel
  obtain ⟨k, hr, hi, hb⟩ := h
  exact ⟨k, hm, hr, hi, hb, tables_suffice hm hr⟩

def fiftyFiles : List (Act (Fin 4)) :=
  (List.range 50).map fun j => .inode (.iget ⟨j / 13 % 4, Nat.mod_lt _ (by decide)⟩ 1 (j + 2))

def manyReaders : List (Act (Fin 31)) :=
  (List.finRange 31).map fun p => .buffer (.bread p (100 + p))

/-- Four processes with at most `NOFILE` open files each, and one more `open`; and 31 processes
that are in `bread` at the same time. -/
theorem tables_run_out :
    (∃ k ∈ run (Kernel.next 200 logArea) (Kernel.boot logArea files fun _ => .zero) fiftyFiles,
      (∀ p, ∑ i, k.table.refs p i ≤ nofile) ∧ ∑ p, ∑ i, k.table.refs p i ≤ nfile ∧
      ∃ k' ∈ k.next 200 logArea (.inode (.iget 3 1 52)), k'.table.panic = some .noInodes) ∧
    ∃ k ∈ run (Kernel.next 200 logArea) (Kernel.boot logArea files fun _ => .zero) manyReaders,
      k.system.panic = some .noBuffers := by
  constructor
  · decide +kernel
  · decide +kernel

end

end Xv6.Tables
