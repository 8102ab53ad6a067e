import Xv6.Log.GroupCommit

/-! Log space reservation. `begin_op` reserves `MAXOPBLOCKS` entries of `LOGSIZE`, but a log of
`LOGSIZE` blocks made by mkfs has only `LOGSIZE - 1` data blocks, and `log_write` refuses the
last of them before looking for an absorbed entry. -/
namespace Xv6.Log
open Transition List
variable {P : Type}

/-- Blocks passed to `log_write` since the log was last emptied, given those logged before. -/
def groupBlocks (F : Finset ℕ) : List (Action P) → Finset ℕ
  | [] => F
  | .logWrite _ b :: as => groupBlocks (insert b F) as
  | .commit _ .erase :: as => groupBlocks ∅ as
  | _ :: as => groupBlocks F as

theorem groupBlocks_append (F : Finset ℕ) (as bs : List (Action P)) :
    groupBlocks F (as ++ bs) = groupBlocks (groupBlocks F as) bs := by
  fun_induction groupBlocks F as with
  | case1 F => rfl
  | case2 F p b as ih | case3 F p as ih => simpa [groupBlocks] using ih
  | case4 F a as h1 h2 ih =>
    rw [cons_append, groupBlocks.eq_4 _ _ _ h1 h2]
    exact ih

/-- Every `log_write` of the run is made while the operations admitted since the log was last
emptied have logged at most `LOGSIZE - 2` different blocks. -/
@[grind] def RoomAtWrites (as : List (Action P)) : Prop :=
  ∀ pre p b post, as = pre ++ .logWrite p b :: post → (groupBlocks ∅ pre).card + 2 ≤ logsize

@[grind cases] structure LogMatches (s : GroupState P) (F : Finset ℕ) : Prop where
  nodup : s.log.lh.Nodup
  blocks : s.log.lh.toFinset = F

theorem LogMatches.length {s : GroupState P} {F : Finset ℕ} (h : LogMatches s F) :
    s.log.lh.length = F.card := by
  rw [← h.blocks, toFinset_card_of_nodup h.nodup]

variable [DecidableEq P]

theorem next_size {s s' : GroupState P} {a : Action P} (hs : s.next a = some s') :
    s'.log.size = s.log.size := by
  cases (step_of_next hs).2 with
  | grant _ hb =>
    obtain ⟨_, _, rfl⟩ := beginOp_eq_some hb
    rfl
  | write _ hw =>
    obtain ⟨_, _, rfl⟩ := logWrite_eq_ok hw
    rfl
  | endCommit _ he | endWake _ he =>
    obtain ⟨_, _, rfl⟩ := endOp_eq_ok he
    rfl
  | @commit p c _ => cases c <;> rfl
  | _ => rfl

theorem run_size {n : ℕ} {as : List (Action P)} {s : GroupState P}
    (hr : run GroupState.next (GroupState.init n) as = some s) : s.log.size = n :=
  run_invariant (I := fun s : GroupState P => s.log.size = n)
    (fun _ _ _ h hs => (next_size hs).trans h) rfl hr

theorem LogMatches.next {s s' : GroupState P} {F : Finset ℕ} {a : Action P} (h : LogMatches s F)
    (hs : s.next a = some s') (hp : s'.panic = none) : LogMatches s' (groupBlocks F [a]) := by
  cases (step_of_next hs).2 with
  | callBegin | sleep | kill => exact ⟨h.nodup, h.blocks⟩
  | grant _ hb =>
    obtain ⟨_, _, rfl⟩ := beginOp_eq_some hb
    exact ⟨h.nodup, h.blocks⟩
  | writePanic | endPanic => cases hp
  | @write p b l f _ hw =>
    obtain ⟨_, _, rfl⟩ := logWrite_eq_ok hw
    constructor
    · grind
    · dsimp only [groupBlocks]
      rw [← h.blocks]
      split
      next hm => simp [hm]
      · ext c
        simp
  | endCommit _ he | endWake _ he =>
    obtain ⟨_, _, rfl⟩ := endOp_eq_ok he
    exact ⟨h.nodup, h.blocks⟩
  | @commit p c _ =>
    cases c with
    | erase => exact ⟨nodup_nil, rfl⟩
    | _ => exact ⟨h.nodup, h.blocks⟩

/-- Absorption is exact: a run leaves in the log the blocks of its current group, once each. -/
theorem LogMatches.run {n : ℕ} {as : List (Action P)} {s : GroupState P}
    (hr : run GroupState.next (GroupState.init n) as = some s) (hp : s.panic = none) :
    LogMatches s (groupBlocks ∅ as) := by
  induction as using List.reverseRecOn generalizing s with
  | nil =>
    cases hr
    exact ⟨nodup_nil, rfl⟩
  | append_singleton as a ih =>
    obtain ⟨t, ht, hs⟩ := run_concat_eq_some.mp hr
    rw [groupBlocks_append]
    exact (ih ht (step_of_next hs).1).next hs hp

/-- With the log geometry of mkfs, a run is free of the panic "too big a transaction" exactly when
each of its calls of `log_write` finds at most `LOGSIZE - 2` different blocks logged since the log
was last emptied, whether or not the block is one of them. -/
theorem log_write_fits_iff {as : List (Action P)} {s : GroupState P}
    (hr : run GroupState.next (GroupState.init logsize) as = some s) :
    s.panic ≠ some .tooBig ↔ RoomAtWrites as := by
  have hc : logsize = 30 := rfl
  constructor
  · rintro hp pre p b post rfl
    obtain ⟨t, ht, hr⟩ := run_append_eq_some.mp hr
    obtain ⟨u, hu, hr⟩ := run_cons_eq_some.mp hr
    obtain ⟨htp, hstep⟩ := step_of_next hu
    have hlen := (LogMatches.run ht htp).length
    have hsize := run_size ht
    cases hstep with
    | writePanic _ hw =>
      have hpost : post = [] := by
        cases post with
        | nil => rfl
        | cons a post =>
          obtain ⟨v, hv, _⟩ := run_cons_eq_some.mp hr
          have hnone := (step_of_next hv).1
          cases hnone
      subst hpost
      cases hr
      grind
    | write _ hw =>
      obtain ⟨_, hlt, _⟩ := logWrite_eq_ok hw
      omega
  · intro hroom hp
    rcases eq_nil_or_concat as with rfl | ⟨pre, a, rfl⟩
    · cases hr
      cases hp
    rw [concat_eq_append] at hr hroom
    obtain ⟨t, ht, hs⟩ := run_concat_eq_some.mp hr
    obtain ⟨htp, hstep⟩ := step_of_next hs
    have hlen := (LogMatches.run ht htp).length
    have hsize := run_size ht
    have hne : t.panic ≠ some .tooBig := by simp [htp]
    cases hstep with
    | @writePanic p b e _ hw => grind
    | endPanic _ he => simp [(endOp_eq_error he).2] at hp
    | @commit p c _ => cases c <;> exact hne hp
    | _ => exact hne hp

def oneOp : List (Action (Fin 1)) :=
  [.callBegin 0, .testLog 0, .logWrite 0 50, .logWrite 0 60, .logWrite 0 50, .logWrite 0 70]

theorem log_write_fits_iff_one_op :
    ∃ s, run GroupState.next (GroupState.init logsize) oneOp = some s ∧
      s.log.lh = [50, 60, 70] ∧ RoomAtWrites oneOp := by
  have h : ∃ s ∈ run GroupState.next (GroupState.init logsize) oneOp,
      s.log.lh = [50, 60, 70] ∧ s.panic = none := by decide +kernel
  obtain ⟨s, hr, hl, hp⟩ := h
  exact ⟨s, hr, hl, (log_write_fits_iff hr).mp (by simp [hp])⟩

def opBlocks (r : OpRecord) : Finset ℕ := (r.map Prod.fst).toFinset

/-- The action leaves every operation with at most `k` different blocks logged. -/
@[grind] def WithinOp (k : ℕ) (s : GroupState P) : Action P → Prop
  | .logWrite p b => (insert b (opBlocks (s.current p))).card ≤ k
  | _ => True

instance (k : ℕ) (s : GroupState P) (a : Action P) : Decidable (WithinOp k s a) := by
  unfold WithinOp
  split <;> infer_instance

def threeFullOps : List (Action (Fin 3)) :=
  ((List.finRange 3).flatMap fun p => [Action.callBegin p, Action.testLog p]).append
    ((List.finRange 3).flatMap fun p =>
      (List.range maxopblocks).map fun i => Action.logWrite p (100 + 10 * p.val + i))

/-- Three operations that keep to `MAXOPBLOCKS` blocks each panic at the thirtieth block. -/
theorem reservation_panics :
    Meets GroupState.next (WithinOp maxopblocks) (GroupState.init logsize) threeFullOps ∧
    ∃ s, run GroupState.next (GroupState.init logsize) threeFullOps = some s ∧
      s.panic = some .tooBig := by
  decide +kernel

end Xv6.Log
