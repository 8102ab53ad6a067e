import Xv6.Fs.Open

/-! Reading never allocates. `readi` shares the allocating `bmap` with `writei` and may run outside
a transaction; that it is harmless is an invariant of everything that writes. -/
namespace Xv6.Fs
open Hoare Transition
variable {P : Type} {E : Panic → Prop} {s t u : State P} {i dp : ℕ} {name : List UInt8}

def Quiet (s t : State P) : Prop := t.disk = s.disk ∧ t.logged = s.logged

theorem iget_quiet : wp (iget i) (fun _ => Quiet s) (· ≠ .logWrite) s := by
  unfold iget
  simp only [wp_bind, wp_get]
  split
  · exact ⟨rfl, rfl⟩
  · split
    · exact ⟨rfl, rfl⟩
    · exact fun he => by cases he

theorem ilock_quiet : wp (ilock i) (fun _ => Quiet s) (· ≠ .logWrite) s := by
  unfold ilock
  simp only [wp_bind, wp_get]
  split
  · exact fun he => by cases he
  split
  · exact ⟨rfl, rfl⟩
  split
  · exact fun he => by cases he
  · simp only [wp_bind, wp_set]
    split
    · exact fun he => by cases he
    · exact ⟨rfl, rfl⟩

section
variable (h : s.Consistent)
include h

theorem dirlookupLoop_quiet (hi : s.Locked dp) (fuel : ℕ) : ∀ off,
    wp (dirlookupLoop dp name fuel off) (fun _ => Quiet s) (· ≠ .logWrite) s := by
  induction fuel with
  | zero => exact fun _ => ⟨rfl, rfl⟩
  | succ fuel ih =>
    intro off
    unfold dirlookupLoop
    simp only [wp_bind, wp_get]
    split
    · rw [wp_bind]
      refine wp_post (readDirent_spec h hi (by decide)) ?_
      rintro de t ⟨rfl, _, _⟩
      split
      · exact ih _
      · split
        · rw [wp_bind]
          exact wp_post iget_quiet (fun _ _ hu => hu)
        · exact ih _
    · exact ⟨rfl, rfl⟩

theorem dirlookup_quiet (hi : s.Locked dp) (name : List UInt8) :
    wp (dirlookup dp name) (fun _ => Quiet s) (· ≠ .logWrite) s := by
  unfold dirlookup
  simp only [wp_bind, wp_get]
  split
  · exact fun he => by cases he
  · exact dirlookupLoop_quiet h hi _ 0

theorem ilock_locked :
    wp (ilock i) (fun _ t => t.Consistent ∧ t.Locked i) (fun _ => True) s :=
  wp_post (ilock_spec (fun _ _ _ _ => trivial) h (.inl trivial))
    (fun _ _ ht => ⟨(ht.holding h).consistent, ht.locked⟩)

theorem fileread_quiet (f : Fin nfile) (dst : ℕ → Bool) (n : ℕ) :
    wp (fileread f dst n) (fun _ => Quiet s) (· ≠ .logWrite) s := by
  unfold fileread
  simp only [wp_bind, wp_get]
  split
  · exact ⟨rfl, rfl⟩
  split
  · exact fun he => by cases he
  · exact ⟨rfl, rfl⟩
  · rw [wp_bind]
    refine wp_post (wp_and ilock_quiet (ilock_locked h)) ?_
    rintro _ t ⟨hq, hcon, hlock⟩
    refine wp_seq (readi_spec hcon hlock dst _ n) ?_
    rintro r t' ⟨rfl, _⟩
    simp only [iunlock, wp_bind, wp_modify, wp_get]
    split
    · exact fun he => by cases he
    · exact hq

end

/-- What holds of inode `i`, once it is locked, in a state where nothing has a hole. -/
structure Settled (s : State P) (i : ℕ) : Prop where
  /-- Every block below the size is there, and `bmap` only returns its address. -/
  bmap : ∀ bn, bn * bsize < (s.inode i).din.size → ∃ a, a ≠ 0 ∧ bmap i bn s = .ok (a, s)
  readi : ∀ dst off n, ∃ r, readi i dst off n s = .ok (r, s)
  dirlookup : ∀ name, wp (dirlookup i name) (fun _ => Quiet s) (· ≠ .logWrite) s

theorem State.Consistent.settled (h : s.Consistent) (hi : s.Locked i) : Settled s i where
  bmap bn hbn := by
    obtain ⟨hdin, ha⟩ := h.cached i hi
    have hflush := h.flushed_eq hi
    have hslot := h.noHole i bn ha (hdin ▸ hbn)
    obtain ⟨a, _, hrun, rfl, rfl⟩ := wp_total (bmap_of_slot (E := fun _ => False)
      (hflush ▸ ha) (hflush ▸ hslot))
    exact ⟨_, hflush ▸ hslot, hrun⟩
  readi dst off n := by
    obtain ⟨r, _, hrun, rfl, _⟩ := wp_total (readi_spec h hi dst off n)
    exact ⟨r, hrun⟩
  dirlookup name := dirlookup_quiet h hi name

theorem State.Consistent.endOp (h : s.Consistent) : s.endOp.Consistent :=
  ⟨h.sound, h.noHole, h.cached⟩

/-- A whole transaction of something that writes. The first three work on an inode to which the
caller has a reference, the others on path names from the current directory of `pr`. -/
inductive Writer where
  | writei (i : ℕ) (src : Src) (off n : ℕ)
  | itrunc (i : ℕ)
  | iput (i : ℕ)
  | create (pr : Proc) (path : List UInt8)
  | mkdir (pr : Proc) (path : Option (List UInt8))
  | mknod (pr : Proc) (path : Option (List UInt8)) (major minor : ℤ)
  | link (pr : Proc) (old new : Option (List UInt8))
  | unlink (pr : Proc) (path : Option (List UInt8))

namespace Writer

def base : Writer → ℕ
  | writei i _ _ _ | itrunc i | iput i => i
  | create pr _ | mkdir pr _ | mknod pr _ _ _ | link pr _ _ | unlink pr _ => pr.cwd

def locked {α : Type} (i : ℕ) (body : FsM P α) : FsM P Unit := do
  beginOp
  ilock i
  let _ ← body
  iunlock i
  endOp

def exec : Writer → FsM P Unit
  | writei i src off n => locked i (Fs.writei i src off n)
  | itrunc i => locked i (Fs.itrunc i)
  | iput i => do
    beginOp
    Fs.iput i
    endOp
  | create pr path => do
    beginOp
    let _ ← Fs.create pr.cwd path .file 0 0
    endOp
  | mkdir pr path => do let _ ← sysMkdir pr path
  | mknod pr path major minor => do let _ ← sysMknod pr path major minor
  | link pr old new => do let _ ← sysLink pr old new
  | unlink pr path => do let _ ← sysUnlink pr path

def next (s : State P) (w : Writer) : Option (State P) :=
  if 0 < (s.inode w.base).ref then
    match w.exec s with
    | .ok (_, t) => some t
    | .error _ => none
  else none

def Idle (s : State P) : Prop := s.Consistent ∧ s.inOp = false

theorem locked_idle {α : Type} {body : FsM P α} (h : s.Consistent)
    (hbody : ∀ t, t.Consistent → t.Locked i → wp body (fun _ u => u.Consistent) (fun _ => True) t) :
    wp (locked i body) (fun _ => Idle) (fun _ => True) s := by
  unfold locked Fs.beginOp Fs.endOp
  simp only [wp_bind, wp_modify]
  refine wp_post (ilock_locked h.beginOp) ?_
  rintro _ t ⟨ht, hl⟩
  refine wp_post (hbody t ht hl) (fun _ u hu => ?_)
  refine wp_post (iunlock_spec fun _ _ _ _ => trivial) ?_
  rintro _ v ⟨rfl, _⟩
  exact ⟨hu.endOp, rfl⟩

/-- A transaction leaves no hole, whatever it does and wherever it is cut short. -/
theorem exec_idle (w : Writer) (h : Idle s) (hpos : 0 < (s.inode w.base).ref) :
    wp w.exec (fun _ => Idle) (fun _ => True) s := by
  have hE : Lenient fun _ : Panic => True := fun _ _ _ _ => trivial
  have hhold t (ht : Holding 0 s t) : Idle t := ⟨ht.consistent, ht.inOp.trans h.2⟩
  cases w with
  | writei i src off n =>
    refine locked_idle h.1 fun t ht hl => ?_
    exact wp_post (writei_spec (hE.logs t) ht hl off n) (fun _ _ hu => hu.consistent)
  | itrunc i =>
    refine locked_idle h.1 fun t ht hl => ?_
    exact wp_post (itrunc_spec (hE.logs t) ht hl) (fun _ _ hu => hu.consistent)
  | iput i =>
    unfold exec Fs.beginOp Fs.endOp
    simp only [wp_bind, wp_modify]
    refine wp_post (iput_spec (hE.logs _) h.1.beginOp hpos) (fun _ t ht => ?_)
    exact ⟨ht.consistent.endOp, rfl⟩
  | create pr path =>
    unfold exec Fs.beginOp Fs.endOp
    simp only [wp_bind, wp_modify]
    refine wp_post (create_spec hE h.1.beginOp hpos (.inl trivial) (by decide)) (fun r t ht => ?_)
    have hcon : t.Consistent := by
      cases r with
      | none | some ip => exact ht.1.consistent
    exact ⟨hcon.endOp, rfl⟩
  | mkdir pr path | mknod pr path major minor =>
    unfold exec
    rw [wp_bind]
    exact wp_post (sysCreate_spec hE h.1 h.2 hpos (.inl trivial) (by decide) (by decide))
      (fun _ t ht => hhold t ht.1)
  | link pr old new =>
    unfold exec
    rw [wp_bind]
    exact wp_post (sysLink_spec hE h.1 h.2 hpos (.inl trivial)) (fun _ t ht => hhold t ht.1)
  | unlink pr path =>
    unfold exec
    rw [wp_bind]
    exact wp_post (sysUnlink_spec hE h.1 h.2 hpos (.inl trivial) (.inl trivial))
      (fun _ t ht => hhold t ht.1)

theorem next_idle {w : Writer} (h : Idle s) (hn : next s w = some t) : Idle t := by
  unfold next at hn
  split at hn
  next hpos =>
    split at hn
    next t' hrun =>
      cases hn
      have hidle := wp_ok (w.exec_idle h hpos) hrun
      exact hidle
    · cases hn
  · cases hn

end Writer

/-- In every state that writers reach from a consistent one no allocated inode has a hole, so
whoever reads, in a transaction or not, finds every block there and changes neither inode, bitmap
nor log. -/
theorem reads_never_allocate (h : s.Consistent) (hop : s.inOp = false) {ws : List Writer}
    (hr : run Writer.next s ws = some t) :
    t.disk.NoHole ∧
    (∀ i u, ilock i t = .ok ((), u) → Quiet t u ∧ Settled u i) ∧
    ∀ f dst n, wp (fileread f dst n) (fun _ => Quiet t) (· ≠ .logWrite) t := by
  obtain ⟨hcon, _⟩ : Writer.Idle t :=
    run_invariant (fun _ _ _ hi hn => Writer.next_idle hi hn) ⟨h, hop⟩ hr
  refine ⟨hcon.noHole, fun i u hu => ?_, fun f dst n => fileread_quiet hcon f dst n⟩
  obtain ⟨hq, hc, hl⟩ := wp_ok (wp_and ilock_quiet (ilock_locked hcon)) hu
  exact ⟨hq, hc.settled hl⟩

/-- A file is written past its first block and then from memory that is not mapped. -/
theorem reads_never_allocate_two_writes : ∃ t, run Writer.next emptyFileState.endOp
    [.writei 1 (fun _ => some 7) 0 1030, .writei 1 (fun _ => none) 1030 5] = some t ∧
    t.disk.NoHole ∧
    (∀ i u, ilock i t = .ok ((), u) → Quiet t u ∧ Settled u i) ∧
    ∀ f dst n, wp (fileread f dst n) (fun _ => Quiet t) (· ≠ .logWrite) t := by
  have hrun : (run Writer.next emptyFileState.endOp
    [.writei 1 (fun _ => some 7) 0 1030, .writei 1 (fun _ => none) 1030 5]).isSome = true := by
    decide +kernel
  obtain ⟨t, ht⟩ := Option.isSome_iff_exists.mp hrun
  exact ⟨t, ht, reads_never_allocate consistent_emptyFileState.endOp rfl ht⟩

/-- A file of 13 blocks that all are block 50, which is also its indirect block. -/
def selfIndirect : Volume where
  sb := ⟨fsmagic, fssize, 1954, ninodes, logsize, 2, 32, 45⟩
  bitmap := fun b => b ≤ 50
  dinode := fun i => if i = 1 then ⟨.file, 0, 0, 1, 13 * bsize, fun _ => 50⟩ else .fresh .free
  data := fun b => if b = 50 then Block.zero.setWord 0 50 else .zero

theorem noHole_selfIndirect : selfIndirect.NoHole := by
  intro i bn ha hlt
  have hi : i = 1 := by
    by_contra hi
    exact ha.2 (by simp [selfIndirect, hi])
  subst hi
  have hbn : bn < 13 := by
    change bn * bsize < 13 * bsize at hlt
    simp only [bsize] at hlt
    omega
  rw [Volume.slot_of_allocated ha]
  have hall : ∀ k < 13, slotOf selfIndirect.data (selfIndirect.dinode 1) (dataSlot k) ≠ 0 := by
    decide +kernel
  exact hall bn hbn

def selfIndirectState : State Unit where
  disk := selfIndirect
  inode := fun i => ⟨if i = 1 then 1 else 0, i = 1, selfIndirect.dinode i⟩
  used := 1
  file := fun _ => ⟨0, .none, false, false, 0, 0, 0⟩
  proc := fun _ => none
  inOp := false
  logged := []

/-- To have no hole is not enough: where a block of a file is also its indirect block, a write of
four zeros makes a hole, and a read of the block behind it calls `log_write` outside a
transaction. -/
theorem hole_after_write : selfIndirectState.disk.NoHole ∧
    (∀ i, selfIndirectState.Locked i → (selfIndirectState.inode i).din =
      selfIndirectState.disk.dinode i ∧ selfIndirectState.disk.Allocated i) ∧
    ∃ t, run Writer.next selfIndirectState [.writei 1 (fun _ => some 0) 0 4] = some t ∧
      ¬ t.disk.NoHole ∧ readi 1 (fun _ => true) (12 * bsize) 1 t = .error .logWrite := by
  refine ⟨noHole_selfIndirect, fun i hi => ?_, ?_⟩
  · have h1 : i = 1 := by simpa [selfIndirectState] using hi.2
    subst h1
    exact ⟨rfl, by decide⟩
  · have hrun : ∃ t ∈ run Writer.next selfIndirectState [.writei 1 (fun _ => some 0) 0 4],
        t.disk.Allocated 1 ∧ 12 * bsize < (t.disk.dinode 1).size ∧
        t.disk.slot 1 (dataSlot 12) = 0 ∧
        errorOf (readi 1 (fun _ => true) (12 * bsize) 1) t = some .logWrite := by
      decide +kernel
    obtain ⟨t, ht, ha, hlt, hslot, herr⟩ := hrun
    exact ⟨t, ht, fun hn => hn 1 12 ha hlt hslot, errorOf_eq_some.mp herr⟩

end Xv6.Fs
