import Xv6.Itable.Coherent

/-! Freeing an inode on disk. `iput` tests the reference count and gives up `itable.lock` before it
writes the free inode; the reference it tested stays the only one unless the inode is looked up in
between. -/
namespace Xv6.Itable
open Function
variable {P : Type}

/-- The inode that a step looks up in the table, by `iget` or at the end of `ialloc`. -/
def Table.lookup (s : Table P) : Action P → Option (ℕ × ℕ)
  | .iget _ dev inum => some (dev, inum)
  | .step p =>
    match s.pc p with
    | .get dev inum => some (dev, inum)
    | _ => none
  | _ => none

/-- The step looks up no inode between the test of `iput` and its write of the free inode. -/
def Undisturbed (s : Table P) (a : Action P) : Prop :=
  ∀ p i, (s.pc p).ending = some i → s.lookup a ≠ some ((s.inode i).dev, (s.inode i).inum)

instance [Fintype P] (s : Table P) (a : Action P) : Decidable (Undisturbed s a) := by
  unfold Undisturbed
  infer_instance

/-- The reference that `iput` tested is the only one until the inode is free on disk. -/
@[grind] def Single (s : Table P) : Prop := ∀ p i, (s.pc p).ending = some i → (s.inode i).ref = 1

namespace Single
variable [Fintype P] [DecidableEq P] {s s' : Table P} {p q : P} {i : Fin ninode} {c : Pc}

/-- While `iput` is about to free entry `i`, no other process has a reference to it. -/
theorem eq_of_ending (h : Single s) (hcount : Counted s) (hq : (s.pc q).ending = some i)
    (hp : 0 < s.refs p i) : p = q := by
  by_contra hpq
  have hz := hcount.refs_eq_zero (h q i hq)
    (hcount.uses q i (uses_of_holds (Pc.holds_of_ending hq))) hpq
  omega

omit [Fintype P] in
/-- Entry `i` becomes `x` and the process moves to `c`. -/
theorem put (h : Single s) {x : Inode P} (hinode : s'.inode = update s.inode i x)
    (hpc : s'.pc = update s.pc p c) (hnew : ∀ j, c.ending = some j → j = i ∧ x.ref = 1)
    (hold : ∀ q ≠ p, (s.pc q).ending = some i → x.ref = (s.inode i).ref) : Single s' := by
  intro q j hq
  rw [hpc] at hq
  rw [hinode]
  grind

omit [Fintype P] in
theorem moved (h : Single s) (hinode : s'.inode = s.inode) (hpc : s'.pc = update s.pc p c)
    (hc : c.ending = none) : Single s' := by
  intro q j hq
  rw [hpc] at hq
  rw [hinode]
  grind

theorem dropRef (h : Single s) (hcount : Counted s) (hr : 0 < s.refs p i) :
    Single ((s.dropRef p i).setPc p .idle) := by
  refine h.put (p := p) (c := .idle) rfl rfl (by simp [Pc.ending]) fun q hqp hq => ?_
  exact absurd (h.eq_of_ending hcount hq hr).symm hqp

theorem step (h : Single s) (hcount : Counted s) {n : ℕ} {a : Action P} (hu : Undisturbed s a)
    (hs : Step n s a s') : Single s' := by
  cases hs with
  | @getHit p dev inum i _ hp hf =>
    refine h.put (p := p) (c := .idle) rfl rfl (by simp [Pc.ending]) fun q _ hq => ?_
    obtain ⟨_, hd, hi⟩ := find_eq_some hf
    refine absurd ?_ (hu q i hq)
    rcases hp with ⟨_, rfl⟩ | ⟨hp, rfl⟩ <;> simp [Table.lookup, *]
  | @getNew p dev inum i _ hp hf he =>
    refine h.put (p := p) (c := .idle) rfl rfl (by simp [Pc.ending]) fun q _ hq => ?_
    have := findEmpty_eq_some he
    have := h q i hq
    omega
  | panic ht hi hd hr hc hpc =>
    rcases hpc with hpc | ⟨p, _, hpc⟩
    · intro q j hq
      rw [hi]
      exact h q j (hpc ▸ hq)
    · exact h.moved hi hpc rfl
  | @idup p i hp hr =>
    refine h.put (p := p) rfl (eq_update_pc hp) (by simp [Pc.ending]) fun q hqp hq => ?_
    exact absurd (h.eq_of_ending hcount hq hr).symm hqp
  | give | iupdate => exact h
  | ilock | ialloc | loadValid | take => exact h.moved rfl rfl rfl
  | @scan p dev inum t c hp hc =>
    exact h.moved (p := p) (c := c) rfl rfl (by rcases hc with rfl | rfl <;> rfl)
  | modify hp | itrunc hp | iunlock hp =>
    exact h.put rfl (eq_update_pc hp) (by simp [Pc.ending]) fun _ _ _ => rfl
  | acquire | clear | unlock => exact h.put rfl rfl (by simp [Pc.ending]) fun _ _ _ => rfl
  | free => exact h.moved rfl rfl rfl
  | @load p i t hp hv ht hty =>
    rcases ht with rfl | rfl <;>
      exact h.put (p := p) (c := .idle) rfl rfl (by simp [Pc.ending]) fun _ _ _ => rfl
  | iputFree hp hs hr =>
    exact h.put rfl rfl (by simp [Pc.ending, eq_comm, hr, Inode.setLock]) fun _ _ _ => rfl
  | @iputDrop p i hp hs =>
    rw [← Table.setPc_self (s := s.dropRef p i) hp]
    exact h.dropRef hcount (refs_pos_of_spare hs)
  | @drop p i hp => exact h.dropRef hcount (hcount.uses p i (by rw [hp]; rfl))
  | @trunc p i hp | @untype p i hp =>
    have hr := h p i (by rw [hp]; rfl)
    exact h.put rfl rfl (by simp [Pc.ending, eq_comm, hr, Inode.setDin]) fun _ _ _ => rfl

end Single
end Xv6.Itable
