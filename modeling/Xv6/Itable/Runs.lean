import Xv6.Itable.Freeing

/-! Whole runs of the inode table, from an empty table and any disk. -/
namespace Xv6.Itable
open Transition Function
variable {P : Type}

private theorem free_of_setDisk {s : Table P} {dev inum dev' inum' : ℕ} {d : Dinode}
    (hn : (s.disk dev inum).type ≠ .free)
    (hf : ((s.setDisk dev' inum' d).disk dev inum).type = .free) :
    dev' = dev ∧ inum' = inum ∧ d.type = .free := by
  simp only [Table.setDisk] at hf
  grind

variable [Fintype P] [DecidableEq P]

theorem Coherent.free_of_step {n : ℕ} {s s' : Table P} {a : Action P} (h : Coherent s)
    (hcount : Counted s) (hpanic : s.panic = none) (hs : Step n s a s') {dev inum : ℕ}
    (ht : (s.disk dev inum).type ≠ .free) (hf : (s'.disk dev inum).type = .free) :
    ∃ p i, a = .step p ∧ s.pc p = .free i ∧ (s.inode i).dev = dev ∧ (s.inode i).inum = inum := by
  cases hs with
  | getHit | getNew | idup | give | ilock | modify | iunlock | iputFree | iputDrop | ialloc
  | acquire | loadValid | untype | clear | unlock | drop | scan => exact absurd hf ht
  | panic _ _ hd =>
    rw [hd] at hf
    exact absurd hf ht
  | load hp hv hs' =>
    rcases hs' with rfl | rfl
    · exact absurd hf ht
    · exact absurd hf ht
  | @iupdate p i hp hl =>
    have hv := h.loaded p i hl (by simp [hp, Pc.holds])
    have hty := (h.typed_of_lock hcount hpanic hl hv (by simp [hp, Pc.leaving])).1
    exact absurd (free_of_setDisk ht hf).2.2 hty
  | @itrunc p i hp hl =>
    have hv := h.loaded p i hl (by simp [hp, Pc.holds])
    have hty := (h.typed_of_lock hcount hpanic hl hv (by simp [hp, Pc.leaving])).1
    rw [Table.truncate_eq] at hf
    exact absurd (free_of_setDisk ht hf).2.2 hty
  | @trunc p i hp =>
    have hl := hcount.holds p i (by rw [hp]; rfl)
    have hv := (h.ending p i (by rw [hp]; rfl)).1
    have hty := (h.typed_of_lock hcount hpanic hl hv (by simp [hp, Pc.leaving])).1
    rw [Table.truncate_eq] at hf
    exact absurd (free_of_setDisk ht hf).2.2 hty
  | @free p i hp =>
    obtain ⟨hd, hi, _⟩ := free_of_setDisk ht hf
    exact ⟨p, i, rfl, hp, hd, hi⟩
  | @take p d k t hp hfree =>
    exact absurd (free_of_setDisk ht hf).2.2 (h.scanning p d t k hp)

variable {n : ℕ} {disk : ℕ → ℕ → Dinode} {s : Table P} {as : List (Action P)}

theorem coherent_of_run (hr : run (Table.next n) (Table.init disk) as = some s) :
    Counted s ∧ Coherent s := by
  refine run_invariant (I := fun t : Table P => Counted t ∧ Coherent t) ?_
    ⟨Counted.init disk, Coherent.init disk⟩ hr
  rintro t a t' ⟨hcount, hcoh⟩ ha
  obtain ⟨hpanic, hs⟩ := step_of_next ha
  exact ⟨hcount.step hs, hcoh.step hcount hpanic hs⟩

theorem single_of_run (hm : Meets (Table.next n) Undisturbed (Table.init disk) as)
    (hr : run (Table.next n) (Table.init disk) as = some s) : Single s := by
  refine (run_invariant_of_meets (I := fun t : Table P => Counted t ∧ Single t) ?_
    ⟨Counted.init disk, fun p i hp => by simp [Table.init, Pc.ending] at hp⟩ hm hr).2
  rintro t a t' ⟨hcount, hsingle⟩ hu ha
  obtain ⟨_, hs⟩ := step_of_next ha
  exact ⟨hcount.step hs, hsingle.step hcount hu hs⟩

omit [DecidableEq P] in
theorem Counted.find_eq (h : Counted s) {i : Fin ninode} (hr : 0 < (s.inode i).ref) :
    s.find (s.inode i).dev (s.inode i).inum = some i := by
  cases hf : s.find (s.inode i).dev (s.inode i).inum with
  | none => exact absurd rfl (find_eq_none hf i hr rfl)
  | some j =>
    obtain ⟨hj, hd, hn⟩ := find_eq_some hf
    rw [h.unique j i hj hr hd hn]

/-- A step that looks up an inode about to be freed gives it a second reference. -/
theorem Counted.disturbed (h : Counted s) {a : Action P} {s' : Table P} {q : P} {i : Fin ninode}
    (hq : (s.pc q).ending = some i)
    (ha : s.lookup a = some ((s.inode i).dev, (s.inode i).inum)) (hs : s.next n a = some s') :
    1 < (s'.inode i).ref := by
  have hr : 0 < (s.inode i).ref :=
    (h.uses q i (uses_of_holds (Pc.holds_of_ending hq))).trans_le (h.refs_le q i)
  have hget (p : P) : ((s.iget p (s.inode i).dev (s.inode i).inum).inode i).ref =
      (s.inode i).ref + 1 := by
    simp [Table.iget, h.find_eq hr, Table.setInode, Table.setRefs, Inode.setRef]
  unfold Table.next at hs
  obtain ⟨_, hs⟩ := Option.ite_none_left_eq_some.mp hs
  cases a with
  | iget p dev inum =>
    cases ha
    obtain ⟨_, hs⟩ := Option.ite_none_right_eq_some.mp hs
    cases hs
    rw [hget p]
    omega
  | step p =>
    cases hp : s.pc p <;> simp only [Table.lookup, hp, reduceCtorEq] at ha
    simp only [Table.stepOf, hp] at hs
    cases ha
    cases hs
    have := hget p
    dsimp only [Table.setPc]
    omega
  | _ => cases ha

/-- The lock of an entry is free when the process with its only reference drops it. -/
theorem Counted.unlocked_of_spare (h : Counted s) {p : P} {i : Fin ninode} (hs : s.Spare p i)
    (hr : (s.inode i).ref = 1) : (s.inode i).lock = none := by
  cases hl : (s.inode i).lock with
  | none => rfl
  | some q =>
    obtain rfl | hqp := eq_or_ne q p
    · have := refs_of_spare_of_lock hs hl
      have := h.refs_le q i
      omega
    · have := h.refs_eq_zero hr (refs_pos_of_spare hs) hqp
      have := h.holder q i hl
      omega

omit [DecidableEq P] in
/-- In an entry that is unlocked no process of `iput` is between freeing the inode and clearing
`valid`. -/
theorem Coherent.agree_of_unlocked (h : Coherent s) (hcount : Counted s) {i : Fin ninode}
    (hr : 0 < (s.inode i).ref) (hv : (s.inode i).valid = true) (hl : (s.inode i).lock = none) :
    (s.inode i).din = s.disk (s.inode i).dev (s.inode i).inum := by
  apply h.agree i hr hv (h.not_changed_of_unlocked hl)
  intro p hp
  rw [hcount.holds p i (Pc.holds_of_leaving hp)] at hl
  cases hl

/-- The inode table in every reachable state. -/
theorem inode_table_coherent (n : ℕ) (disk : ℕ → ℕ → Dinode) (as : List (Action P)) (s : Table P)
    (hr : run (Table.next n) (Table.init disk) as = some s) :
    (∀ i j, 0 < (s.inode i).ref → 0 < (s.inode j).ref → (s.inode i).dev = (s.inode j).dev →
      (s.inode i).inum = (s.inode j).inum → i = j) ∧
    (∀ i, (s.inode i).ref = ∑ p, s.refs p i) ∧
    (∀ i, 0 < (s.inode i).ref → (s.inode i).valid = true → (s.inode i).lock = none →
      (s.inode i).din = s.disk (s.inode i).dev (s.inode i).inum) ∧
    (∀ p i, s.panic = none → s.pc p = .idle → s.Spare p i → (s.iput p i).isSome) ∧
    (∀ a s' dev inum, s.next n a = some s' → (s.disk dev inum).type ≠ .free →
      (s'.disk dev inum).type = .free →
      ∃ p i, a = .step p ∧ s.pc p = .free i ∧ (s.inode i).dev = dev ∧ (s.inode i).inum = inum ∧
        (s.inode i).din.nlink = 0 ∧ 0 < s.refs p i ∧
        (Meets (Table.next n) Undisturbed (Table.init disk) as → (s.inode i).ref = 1)) ∧
    ∀ a s', ¬ Undisturbed s a → s.next n a = some s' →
      ∃ p i, (s.pc p).ending = some i ∧ 1 < (s'.inode i).ref := by
  obtain ⟨hcount, hcoh⟩ := coherent_of_run hr
  refine ⟨hcount.unique, hcount.refs, fun i => hcoh.agree_of_unlocked hcount, ?_, ?_, ?_⟩
  · intro p i _ _ hs
    unfold Table.iput
    split
    next hc => simp [hcount.unlocked_of_spare hs hc.1]
    · rfl
  · intro a s' dev inum ha ht hf
    obtain ⟨hpanic, hs⟩ := step_of_next ha
    obtain ⟨p, i, rfl, hp, hd, hi⟩ := hcoh.free_of_step hcount hpanic hs ht hf
    have hend : (s.pc p).ending = some i := by rw [hp]; rfl
    exact ⟨p, i, rfl, hp, hd, hi, (hcoh.ending p i hend).2.1, hcount.uses p i (by rw [hp]; rfl),
      fun hm => single_of_run hm hr p i hend⟩
  · intro a s' hu ha
    simp only [Undisturbed, not_forall, not_not, exists_prop] at hu
    obtain ⟨p, i, hp, hl⟩ := hu
    exact ⟨p, i, hp, hcount.disturbed hp hl ha⟩

def oneInode : ℕ → ℕ → Dinode := fun dev inum =>
  if dev = 1 ∧ inum = 1 then { Dinode.fresh .file with nlink := 1 } else .fresh .free

def removal : List (Action (Fin 2)) :=
  [.iget 0 1 1, .ilock 0 0, .step 0, .step 0, .modify 0 0 (.fresh .file), .iupdate 0 0,
    .iunlock 0 0, .iput 0 0, .step 0, .step 0]

theorem inode_table_coherent_removal : ∃ s s' : Table (Fin 2),
    run (Table.next 2) (Table.init oneInode) removal = some s ∧
    Meets (Table.next 2) Undisturbed (Table.init oneInode) removal ∧
    s.next 2 (.step 0) = some s' ∧ (s.disk 1 1).type ≠ .free ∧ (s'.disk 1 1).type = .free ∧
    ∃ p i, Action.step 0 = .step p ∧ s.pc p = .free i ∧ (s.inode i).dev = 1 ∧
      (s.inode i).inum = 1 ∧ (s.inode i).din.nlink = 0 ∧ 0 < s.refs p i ∧
      (s.inode i).ref = 1 := by
  have hrun : ∃ s ∈ run (Table.next 2) (Table.init oneInode) removal, ∃ s' ∈ s.next 2 (.step 0),
      (s.disk 1 1).type ≠ .free ∧ (s'.disk 1 1).type = .free := by decide +kernel
  have hm : Meets (Table.next 2) Undisturbed (Table.init oneInode) removal := by decide +kernel
  obtain ⟨s, hr, s', hs, ht, hf⟩ := hrun
  obtain ⟨p, i, ha, hp, hd, hi, hn, hpos, hone⟩ :=
    (inode_table_coherent 2 oneInode removal s hr).2.2.2.2.1 _ s' 1 1 hs ht hf
  exact ⟨s, s', hr, hm, hs, ht, hf, p, i, ha, hp, hd, hi, hn, hpos, hone hm⟩

def moved : List (Action (Fin 2)) :=
  [.iget 0 1 5, .iget 0 1 1, .ilock 0 1, .step 0, .step 0, .iunlock 0 1, .iput 0 1, .iput 0 0,
    .iget 0 1 1, .ilock 0 0, .step 0, .step 0, .modify 0 0 { Dinode.fresh .file with nlink := 2 },
    .iupdate 0 0]

/-- Entry 1 is unlocked, valid, unused and differs from the disk; and `iput` frees an inode that a
second process has looked up meanwhile. -/
theorem stale_entry_and_shared_free :
    (∃ s : Table (Fin 2), run (Table.next 2) (Table.init oneInode) moved = some s ∧
      (s.inode 1).valid = true ∧ (s.inode 1).lock = none ∧
      (s.inode 1).din ≠ s.disk (s.inode 1).dev (s.inode 1).inum) ∧
    ∃ s s' : Table (Fin 2),
      run (Table.next 2) (Table.init oneInode) (removal ++ [.iget 1 1 1]) = some s ∧
      s.next 2 (.step 0) = some s' ∧ (s.disk 1 1).type ≠ .free ∧ (s'.disk 1 1).type = .free ∧
      (s.inode 0).dev = 1 ∧ (s.inode 0).inum = 1 ∧ (s.inode 0).ref = 2 ∧ s.refs 1 0 = 1 := by
  simp only [exists_and_left]
  decide +kernel

end Xv6.Itable
