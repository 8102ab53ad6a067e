import Xv6.Log.Group
import Xv6.Proc.Monitor

/-! The processes that sleep in `begin_op`: `log.lock` protects the log's counters, and `end_op`
wakes the sleepers when it gives back space, without a commit or after one. -/
namespace Xv6.LogSleep
open Transition Proc.Monitor
open Log (LogState beginOp logWrite endOp)

inductive Section where
  | beginOp
  | logWrite (b : ℕ)
  /-- The first critical section of `end_op`. -/
  | endOp
  /-- The second one, after `commit`. -/
  | commitDone
  deriving DecidableEq

inductive Place where
  | outside
  /-- Between `begin_op` and `end_op`. -/
  | inOp
  /-- In `commit`, with the log not cleared yet. -/
  | commit
  | committed
  deriving DecidableEq

variable {N : ℕ}

/-- `commit` runs without the lock; of its steps only `log.lh.n = 0` matters here. -/
def code (N : ℕ) : Client N LogState Section Place where
  may
    | .outside, .beginOp => true
    | .inOp, .logWrite _ => true
    | .inOp, .endOp => true
    | .committed, .commitDone => true
    | _, _ => false
  waits
    | .beginOp, l => (beginOp l).isNone
    | _, _ => false
  body
    | .beginOp, _, l => beginOp l
    | .logWrite b, _, l => (logWrite l b).toOption.map Prod.fst
    | .endOp, _, l => (endOp l).toOption.map Prod.fst
    | .commitDone, _, l => some { l with committing := false }
  signals
    | .endOp, l => !l.committing
    | .commitDone, _ => true
    | _, _ => false
  next
    | .beginOp, _ => .inOp
    | .logWrite _, _ => .inOp
    | .endOp, l => if l.committing then .commit else .outside
    | .commitDone, _ => .outside
  alone
    | .commit, l => some ({ l with lh := [] }, .committed)
    | _, _ => none

attribute [local simp] code

def init (N size : ℕ) : State N LogState Section Place :=
  Proc.Monitor.init N Section ⟨size, 0, false, []⟩ .outside

@[grind] def MustWait (l : LogState) : Prop :=
  l.committing = true ∨ l.lh.length + (l.outstanding + 1) * maxopblocks > logsize

theorem mustWait_iff (l : LogState) : MustWait l ↔ beginOp l = none := by grind

variable {l l' : LogState}

theorem beginOp_eq (h : beginOp l = some l') : l.committing = false ∧ l'.committing = false ∧
    l'.lh = l.lh ∧ l'.outstanding = l.outstanding + 1 := by grind

theorem logWrite_eq {b : ℕ} (h : (logWrite l b).toOption.map Prod.fst = some l') :
    1 ≤ l.outstanding ∧ l'.committing = l.committing ∧ l'.outstanding = l.outstanding ∧
      l.lh.length ≤ l'.lh.length := by
  unfold logWrite at h
  split at h
  · cases h
  split at h
  · cases h
  next hout =>
    split at h
    · cases h
      exact ⟨by omega, rfl, rfl, le_rfl⟩
    · cases h
      exact ⟨by omega, rfl, rfl, by simp⟩

theorem endOp_eq (h : (endOp l).toOption.map Prod.fst = some l') : l.committing = false ∧
    l'.lh = l.lh ∧ l'.outstanding = l.outstanding - 1 ∧
      (l'.committing = true ↔ l'.outstanding = 0) := by
  unfold endOp at h
  dsimp only at h
  split at h
  · cases h
  next hc =>
    rw [Bool.not_eq_true] at hc
    split at h
    next h0 =>
      cases h
      exact ⟨hc, rfl, rfl, by simpa using h0⟩
    next h0 =>
      cases h
      refine ⟨hc, rfl, rfl, ?_⟩
      simp [hc, h0]

def commits : Pc Section Place → Bool
  | .out .commit | .out .committed | .test .commitDone => true
  | _ => false

attribute [local simp] commits

/-- The process has cleared the log and not ended the commit yet. -/
def cleared : Pc Section Place → Bool
  | .out .committed | .test .commitDone => true
  | _ => false

attribute [local simp] cleared

/-- Processes sleep in `begin_op` only, and go on outside of operations after a `wakeup`. -/
def usual : Pc Section Place → Bool
  | .sleepRelease k | .sleepState k | .asleep k => decide (k = .beginOp)
  | .wake l _ => decide (l = .outside)
  | _ => true

attribute [local simp] usual

@[grind cases] structure Inv (s : State N LogState Section Place) : Prop where
  sound : s.Sound
  noLost : s.NoLost MustWait
  plain : ∀ p, usual (s.pc p) = true
  committer : ∀ p, commits (s.pc p) = true → s.shared.committing = true
  one : ∀ p q, commits (s.pc p) = true → commits (s.pc q) = true → p = q
  clear : ∀ p, cleared (s.pc p) = true → s.shared.lh = []
  idle : s.shared.committing = true → s.shared.outstanding = 0
  empty : s.shared.committing = false → s.shared.outstanding = 0 → s.shared.lh = []

theorem inv_init (size : ℕ) : Inv (init N size) where
  sound := sound_init _ _
  noLost := noLost_init _ _ _
  plain _ := rfl
  committer _ h := (by cases h)
  one _ _ h := (by cases h)
  clear _ h := (by cases h)
  idle h := (by cases h)
  empty _ _ := rfl

variable {s t : State N LogState Section Place} {p : Fin N} {a : Act N Section}

theorem commits_of_cleared {c : Pc Section Place} (h : cleared c = true) : commits c = true := by
  unfold cleared at h
  split at h
  · rfl
  · rfl
  · cases h

theorem Inv.keeps (hs : Inv s) (ht : t.Sound) (hn : t.NoLost MustWait) (hsh : t.shared = s.shared)
    (hplain : usual (t.pc p) = true) (hcom : commits (t.pc p) = commits (s.pc p))
    (hclr : cleared (t.pc p) = cleared (s.pc p)) (hother : ∀ q ≠ p, t.pc q = s.pc q) : Inv t := by
  have hcom' q : commits (t.pc q) = commits (s.pc q) := by grind
  have hclr' q : cleared (t.pc q) = cleared (s.pc q) := by grind
  refine ⟨ht, hn, fun q => ?_, fun q hq => ?_, fun q r hq hr => ?_, fun q hq => ?_, ?_, ?_⟩
  · grind
  · grind
  · grind
  · rw [hsh]
    exact hs.clear q ((hclr' q).symm.trans hq)
  · rw [hsh]
    exact hs.idle
  · rw [hsh]
    exact hs.empty

theorem Inv.quiet (hs : Inv s) (ht : t.Sound) (hn : t.NoLost MustWait)
    (hc : s.shared.committing = false) (hplain : usual (t.pc p) = true)
    (hclr : cleared (t.pc p) = false) (hcom : commits (t.pc p) = true → t.shared.committing = true)
    (hidle : t.shared.committing = true → t.shared.outstanding = 0)
    (hempty : t.shared.committing = false → t.shared.outstanding = 0 → t.shared.lh = [])
    (hother : ∀ q ≠ p, t.pc q = s.pc q) : Inv t := by
  have hnone : ∀ q ≠ p, commits (t.pc q) = false := by grind
  have honly q (hq : commits (t.pc q) = true) : q = p := by
    by_contra hqp
    rw [hnone q hqp] at hq
    cases hq
  refine ⟨ht, hn, fun q => ?_, fun q hq => ?_, fun q r hq hr => ?_, fun q hq => ?_, hidle, hempty⟩
  · grind
  · rw [honly q hq] at hq
    exact hcom hq
  · rw [honly q hq, honly r hr]
  · rw [honly q (commits_of_cleared hq), hclr] at hq
    cases hq

theorem Inv.mustWait (hs : Inv s) (hm : Moves (code N) s p t) (hw : MustWait s.shared) :
    MustWait t.shared ∨ ∃ q l, t.pc q = .wake l 0 := by
  cases hm with
  | @alone l l' x hpc hx =>
    cases l with
    | commit =>
      cases hx
      exact .inl (.inl (hs.committer p (by rw [hpc]; rfl)))
    | _ => cases hx
  | @signal k x hpc hw' hx hsig => exact .inr ⟨p, (code N).next k x, by simp⟩
  | @leave k x hpc hw' hx hsig =>
    cases k with
    | beginOp =>
      rw [mustWait_iff] at hw
      change beginOp s.shared = some x at hx
      rw [hw] at hx
      cases hx
    | logWrite b =>
      obtain ⟨_, hc, ho, hlen⟩ := logWrite_eq hx
      left
      refine hw.imp (fun h => hc.trans h) fun h => ?_
      change x.lh.length + (x.outstanding + 1) * maxopblocks > logsize
      rw [ho]
      omega
    | endOp =>
      have hc : x.committing = true := by simpa using hsig
      exact .inl (.inl hc)
    | commitDone => cases hsig
  | _ => exact .inl hw

theorem Inv.moves (hs : Inv s) (ht : t.Sound) (hn : t.NoLost MustWait) (hm : Moves (code N) s p t) :
    Inv t := by
  have hplain := hs.plain p
  have hother : ∀ q ≠ p, t.pc q = s.pc q := fun q hq => hm.pc_other hq
  cases hm with
  | @alone l l' x hpc hx =>
    cases l with
    | commit =>
      cases hx
      have hp : commits (s.pc p) = true := by rw [hpc]; rfl
      have hback q (hq : commits (Function.update s.pc p (.out .committed) q) = true) : commits
          (s.pc q) = true := by grind
      refine ⟨ht, hn, fun q => ?_, fun q _ => hs.committer p hp,
        fun q r hq hr => hs.one q r (hback q hq) (hback r hr), fun _ _ => rfl, hs.idle,
        fun _ _ => rfl⟩
      by_cases hqp : q = p
      · simp [hqp]
      · rw [hother q hqp]
        exact hs.plain q
    | _ => cases hx
  | @wait k hpc hw =>
    cases k with
    | beginOp =>
      exact hs.keeps (p := p) ht hn rfl (by simp) (by simp [hpc]) (by simp [hpc]) hother
    | _ => cases hw
  | @signal k x hpc hw hx hsig =>
    cases k with
    | endOp =>
      obtain ⟨hc, _, _, hiff⟩ := endOp_eq hx
      have hxc : x.committing = false := by simpa using hsig
      refine hs.quiet (p := p) ht hn hc ?_ (by simp) (by simp) ?_ ?_ hother
      · simp [hxc]
      · intro h
        cases hxc.symm.trans h
      · intro h h0
        cases h.symm.trans (hiff.mpr h0)
    | commitDone =>
      cases hx
      have hp : commits (s.pc p) = true := by rw [hpc]; rfl
      have hnone : ∀ q, commits (Function.update s.pc p
          (.wake ((code N).next .commitDone { s.shared with committing := false }) 0) q) =
            false := by
        intro q
        by_cases hqp : q = p
        · simp [hqp]
        · grind
      refine ⟨ht, hn, fun q => ?_, fun q hq => ?_, fun q r hq _ => ?_, fun q hq => ?_,
        fun h => (by cases h), fun _ _ => hs.clear p (by rw [hpc]; rfl)⟩
      · by_cases hqp : q = p
        · simp [hqp]
        · rw [hother q hqp]
          exact hs.plain q
      · cases hq.symm.trans (hnone q)
      · cases hq.symm.trans (hnone q)
      · exact absurd ((commits_of_cleared hq).symm.trans (hnone q)) (by simp)
    | _ => cases hsig
  | @leave k x hpc hw hx hsig =>
    cases k with
    | beginOp =>
      obtain ⟨hc, hxc, _, ho⟩ := beginOp_eq hx
      refine hs.quiet (p := p) ht hn hc (by simp) (by simp) (by simp) ?_ ?_ hother
      · intro h
        cases hxc.symm.trans h
      · intro _ h0
        exact absurd (ho.symm.trans h0) (Nat.succ_ne_zero _)
    | logWrite b =>
      obtain ⟨h1, hxc, ho, _⟩ := logWrite_eq hx
      have hc : s.shared.committing = false := by grind
      refine hs.quiet (p := p) ht hn hc (by simp) (by simp) (by simp) ?_ ?_ hother
      · intro h
        exact absurd ((hxc.trans hc).symm.trans h) (by simp)
      · intro _ h0
        have : x.outstanding = 0 := h0
        omega
    | endOp =>
      obtain ⟨hc, _, _, hiff⟩ := endOp_eq hx
      have hxc : x.committing = true := by simpa using hsig
      refine hs.quiet (p := p) ht hn hc (by simp) ?_ (fun _ => hxc) hiff.mp ?_ hother
      · simp [hxc]
      · intro h
        cases h.symm.trans hxc
    | commitDone => cases hsig
  | @release k hpc | @sleep k hpc | @wake l j hpc hown =>
    rw [hpc] at hplain
    exact hs.keeps (p := p) ht hn rfl (by simpa using hplain) (by simp [hpc]) (by simp [hpc]) hother
  | @again k hpc hl =>
    rw [hpc] at hplain
    obtain rfl : k = .beginOp := by simpa using hplain
    exact hs.keeps (p := p) ht hn rfl (by simp) (by simp [hpc]) (by simp [hpc]) hother
  | @woken l j hpc hj =>
    rw [hpc] at hplain
    obtain rfl : l = .outside := by simpa using hplain
    exact hs.keeps (p := p) ht hn rfl (by simp) (by simp [hpc]) (by simp [hpc]) hother

theorem Inv.next (hs : Inv s) (h : Next (code N) s a t) : Inv t := by
  have ht := h.sound hs.sound
  have hn : t.NoLost MustWait := by
    refine h.noLost hs.noLost (fun k hw => ?_) fun hw => ?_
    · cases k with
      | beginOp => exact (mustWait_iff _).mpr (Option.isNone_iff_eq_none.mp hw)
      | _ => cases hw
    · cases h with
      | step hr hm => exact hs.mustWait hm hw
      | _ => exact .inl hw
  cases h with
  | @call p k l hpc hmay hr hl =>
    have hsame : commits (.test k) = commits (s.pc p) ∧ cleared (.test k) = cleared (s.pc p) := by
      rw [hpc]
      cases l <;> cases k <;> first | exact ⟨rfl, rfl⟩ | cases hmay
    exact hs.keeps (p := p) ht hn rfl (by simp) (by simpa using hsame.1)
      (by simpa using hsame.2) fun q hq => by simp [hq]
  | step hr hm => exact hs.moves ht hn hm
  | kill hown | resume hr | yield hr hown => exact ⟨ht, hn, hs.plain, hs.committer, hs.one,
      hs.clear, hs.idle, hs.empty⟩

theorem inv_run {size : ℕ} {acts : List (Act N Section)}
    (hr : run (next (code N)) (init N size) acts = some s) : Inv s :=
  run_invariant (fun _ _ _ hs hn => hs.next (next_of_eq hn)) (inv_init size) hr

/-- When `log.lock` is free a process sleeps in `begin_op` only during a commit or for lack of
space. With no operation and no commit the log is empty, and when the lock is free too nobody
sleeps. -/
theorem begin_op_not_stuck (size : ℕ) (acts : List (Act N Section))
    (hr : run (next (code N)) (init N size) acts = some s) :
    (s.lock = none → ∀ p, (s.proc p).SleepsOn () → s.shared.committing = true ∨
      s.shared.lh.length + (s.shared.outstanding + 1) * maxopblocks > logsize) ∧
    (s.shared.outstanding = 0 → s.shared.committing = false → s.shared.lh = [] ∧
      (s.lock = none → ∀ p, ¬ (s.proc p).SleepsOn ())) := by
  have hs := inv_run hr
  have hwait : s.lock = none → ∀ p, (s.proc p).SleepsOn () → MustWait s.shared :=
    fun hl p hsl => hs.noLost.of_free hs.sound hl (.inl hsl)
  grind

def oneCommits : List (Act 2 Section) :=
  [.resume 0, .resume 1, .call 0 .beginOp, .step 0, .call 0 .endOp, .step 0, .call 1 .beginOp,
    .step 1, .step 1, .step 1]

theorem begin_op_not_stuck_oneCommits : ∃ s ∈ run (next (code 2)) (init 2 30) oneCommits,
    (s.proc 1).SleepsOn () ∧ (s.shared.committing = true ∨
      s.shared.lh.length + (s.shared.outstanding + 1) * maxopblocks > logsize) := by
  have h : ∃ s ∈ run (next (code 2)) (init 2 30) oneCommits,
      (s.proc 1).SleepsOn () ∧ s.lock = none := by decide +kernel
  obtain ⟨s, hr, hsl, hl⟩ := h
  exact ⟨s, hr, hsl, (begin_op_not_stuck 30 oneCommits hr).1 hl 1 hsl⟩

/-- Process 0 has ended its commit, has the lock and has not come to process 1 in `wakeup`. -/
theorem asleep_during_wakeup : ∃ s ∈ run (next (code 2)) (init 2 30)
    (oneCommits ++ [.step 0, .call 0 .commitDone, .step 0]), s.lock = some 0 ∧
      s.shared.outstanding = 0 ∧ s.shared.committing = false ∧ (s.proc 1).SleepsOn () := by
  decide +kernel

end Xv6.LogSleep
