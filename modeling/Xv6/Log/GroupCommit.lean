import Xv6.Log.Group

/-! Group commit never splits an operation. The invariant ties `log.outstanding` and
`log.committing` to the positions of the processes, and every recorded write to the commit that
takes it. -/
namespace Xv6.Log
open Function Transition Counting List
attribute [local simp] CommitPc.advance
variable {P : Type} {a : Action P} {l l' : LogState} {b : ℕ} {f : Bool} {p : P} {pc : P → Pc}

section Steps
variable [DecidableEq P]

inductive Step (s : GroupState P) : Action P → GroupState P → Prop where
  | callBegin {p : P} (hp : s.pc p = .user) : Step s (.callBegin p) (s.setPc p .begin)
  | sleep {p : P} (hp : s.pc p = .begin) (hb : beginOp s.log = none) :
      Step s (.testLog p) (s.setPc p .sleep)
  | grant {p : P} {l : LogState} (hp : s.pc p = .begin) (hb : beginOp s.log = some l) :
      Step s (.testLog p) { s with
        log := l
        pc := update s.pc p .op
        current := update s.current p [] }
  | writePanic {p : P} {b : ℕ} {e : Panic} (hp : s.pc p = .op)
      (hw : logWrite s.log b = .error e) : Step s (.logWrite p b) { s with panic := some e }
  | write {p : P} {b : ℕ} {l : LogState} {f : Bool} (hp : s.pc p = .op)
      (hw : logWrite s.log b = .ok (l, f)) :
      Step s (.logWrite p b) { s with
        log := l
        current := update s.current p (s.current p ++ [(b, s.commits.length)]) }
  | endPanic {p : P} {e : Panic} (hp : s.pc p = .op) (he : endOp s.log = .error e) :
      Step s (.endOp p) { s with panic := some e }
  | endCommit {p : P} {l : LogState} (hp : s.pc p = .op) (he : endOp s.log = .ok (l, true)) :
      Step s (.endOp p) { s with
        log := l
        pc := update s.pc p (.commit .enter)
        finished := s.finished ++ [s.current p] }
  | endWake {p : P} {l : LogState} (hp : s.pc p = .op) (he : endOp s.log = .ok (l, false)) :
      Step s (.endOp p) { s with
        log := l
        pc := wakeup (update s.pc p .user)
        finished := s.finished ++ [s.current p] }
  | commit {p : P} {c : CommitPc} (hp : s.pc p = .commit c) :
      Step s (.commit p c) (s.commitStep p c)
  | kill {p : P} (hp : s.pc p = .sleep) : Step s (.kill p) (s.setPc p .begin)

theorem step_of_next {s s' : GroupState P} (h : s.next a = some s') :
    s.panic = none ∧ Step s a s' := by
  unfold GroupState.next at h
  split at h
  · cases h
  next hpanic =>
    refine ⟨by simpa using hpanic, ?_⟩
    cases a with
    | callBegin p =>
      obtain ⟨hp, h⟩ := Option.ite_none_right_eq_some.mp h
      cases h
      exact .callBegin hp
    | testLog p =>
      obtain ⟨hp, h⟩ := Option.ite_none_right_eq_some.mp h
      cases hb : beginOp s.log with
      | none =>
        rw [hb] at h
        cases h
        exact .sleep hp hb
      | some l =>
        rw [hb] at h
        cases h
        exact .grant hp hb
    | logWrite p b =>
      obtain ⟨hp, h⟩ := Option.ite_none_right_eq_some.mp h
      cases hw : Log.logWrite s.log b with
      | error e =>
        rw [hw] at h
        cases h
        exact .writePanic hp hw
      | ok r =>
        rw [hw] at h
        cases h
        exact .write hp hw
    | endOp p =>
      obtain ⟨hp, h⟩ := Option.ite_none_right_eq_some.mp h
      cases he : Log.endOp s.log with
      | error e =>
        rw [he] at h
        cases h
        exact .endPanic hp he
      | ok r =>
        obtain ⟨l, doCommit⟩ := r
        rw [he] at h
        cases h
        cases doCommit with
        | true => exact .endCommit hp he
        | false => exact .endWake hp he
    | commit p c =>
      obtain ⟨hp, h⟩ := Option.ite_none_right_eq_some.mp h
      cases h
      exact .commit hp
    | kill p =>
      obtain ⟨hp, h⟩ := Option.ite_none_right_eq_some.mp h
      cases h
      exact .kill hp

end Steps

theorem beginOp_eq_some (h : beginOp l = some l') :
    l.committing = false ∧ l.lh.length + (l.outstanding + 1) * maxopblocks ≤ logsize ∧
      l' = { l with outstanding := l.outstanding + 1 } := by grind

theorem logWrite_eq_ok (h : logWrite l b = .ok (l', f)) :
    l.lh.length < logsize ∧ l.lh.length < l.size - 1 ∧
      l' = { l with lh := if b ∈ l.lh then l.lh else l.lh ++ [b] } := by
  unfold logWrite at h
  split at h
  · cases h
  next hb =>
    split at h
    · cases h
    split at h
    next hm =>
      cases h
      exact ⟨by omega, by omega, by rw [if_pos hm]⟩
    next hm => grind

theorem logWrite_added (h : logWrite l b = .ok (l', f)) : f = true ↔ b ∉ l.lh := by grind

theorem outstanding_of_logWrite {r : LogState × Bool}
    (h : logWrite l b = .ok r) : 1 ≤ l.outstanding := by grind

theorem endOp_eq_ok (h : endOp l = .ok (l', f)) :
    l.committing = false ∧ (f = true ↔ l.outstanding - 1 = 0) ∧
      l' = { l with outstanding := l.outstanding - 1, committing := f } := by
  unfold endOp at h
  grind

theorem endOp_eq_error {e : Panic} (h : endOp l = .error e) :
    l.committing = true ∧ e = .logCommitting := by grind

def opWeight (c : Pc) : ℕ := if c = .op then 1 else 0

def Pc.isCommit : Pc → Bool
  | .commit _ => true
  | _ => false

def commitWeight (c : Pc) : ℕ := if c.isCommit then 1 else 0

@[simp] theorem opWeight_user : opWeight .user = 0 := rfl
@[simp] theorem opWeight_begin : opWeight .begin = 0 := rfl
@[simp] theorem opWeight_op : opWeight .op = 1 := rfl
@[simp] theorem opWeight_commit (c : CommitPc) : opWeight (.commit c) = 0 := rfl
@[simp] theorem commitWeight_user : commitWeight .user = 0 := rfl
@[simp] theorem commitWeight_begin : commitWeight .begin = 0 := rfl
@[simp] theorem commitWeight_op : commitWeight .op = 0 := rfl
@[simp] theorem commitWeight_commit (c : CommitPc) : commitWeight (.commit c) = 1 := rfl

theorem isCommit_iff {c : Pc} : c.isCommit = true ↔ ∃ k, c = .commit k := by
  cases c <;> simp [Pc.isCommit]

/-- Two assignments of positions that agree on who is in an operation and who commits where. -/
@[grind] def SameWork (pc pc' : P → Pc) : Prop :=
  ∀ q, (pc' q = .op ↔ pc q = .op) ∧ ∀ c, pc' q = .commit c ↔ pc q = .commit c

theorem sameWork_wakeup (pc : P → Pc) : SameWork pc (wakeup pc) := by
  intro q
  unfold wakeup
  grind

theorem sameWork_update [DecidableEq P] {v : Pc} (hp : pc p ≠ .op ∧ ∀ c, pc p ≠ .commit c)
    (hv : v ≠ .op ∧ ∀ c, v ≠ .commit c) : SameWork pc (update pc p v) := by grind

section Totals
variable [Fintype P]

theorem SameWork.total_op {pc' : P → Pc} (h : SameWork pc pc') :
    total opWeight pc' = total opWeight pc := by
  apply total_congr
  intro q
  simp only [opWeight, (h q).1]

theorem SameWork.total_commit {pc' : P → Pc} (h : SameWork pc pc') :
    total commitWeight pc' = total commitWeight pc := by
  apply total_congr
  intro q
  have hq : (pc' q).isCommit = (pc q).isCommit :=
    Bool.eq_iff_iff.mpr (by simp only [isCommit_iff, (h q).2])
  simp only [commitWeight, hq]

/-- Positions at which `commit` has copied the log into its record and not yet emptied it. -/
def CommitPc.copying : CommitPc → Bool
  | .writeLog _ | .writeHead | .install _ | .erase => true
  | _ => false

/-- The write of `b` made after `e` entries of `commit` is in commit number `e`, or still in the
log when that commit has not started. -/
@[grind] def Taken (s : GroupState P) (e b : ℕ) : Prop :=
  match s.commits[e]? with
  | some bs => b ∈ bs
  | none => e = s.commits.length ∧ b ∈ s.log.lh

@[grind cases] structure GroupInv (s : GroupState P) : Prop where
  outstanding : s.log.outstanding = total opWeight s.pc
  committing : total commitWeight s.pc = if s.log.committing then 1 else 0
  quiet : s.log.committing = true → s.log.outstanding = 0
  copying : ∀ p c, s.pc p = .commit c → c.copying = true → s.commits.getLast? = some s.log.lh
  erased : ∀ p c, s.pc p = .commit c → c = .eraseHead ∨ c = .done → s.log.lh = []
  current : ∀ p, s.pc p = .op → ∀ w ∈ s.current p, w.2 = s.commits.length ∧ w.1 ∈ s.log.lh
  finished : ∀ r ∈ s.finished, ∃ e, ∀ w ∈ r, w.2 = e ∧ Taken s e w.1
  settled : ∀ p c, s.pc p = .commit c → c ≠ .enter →
    ∀ r ∈ s.finished, ∀ w ∈ r, w.2 < s.commits.length

namespace GroupInv

theorem init (size : ℕ) : GroupInv (GroupState.init size : GroupState P) where
  outstanding := (total_eq_zero.mpr fun _ => by simp [GroupState.init]).symm
  committing := total_eq_zero.mpr fun _ => by simp [GroupState.init]
  quiet _ := rfl
  copying p c h := by simp [GroupState.init] at h
  erased p c h := by simp [GroupState.init] at h
  current p h := by simp [GroupState.init] at h
  finished r hr := by simp [GroupState.init] at hr
  settled p c h := by simp [GroupState.init] at h

variable {s s' : GroupState P}

theorem no_op_of_committing (h : GroupInv s) (hc : s.log.committing = true) (p : P) :
    s.pc p ≠ .op := by
  intro hp
  have ho := h.outstanding
  rw [h.quiet hc, eq_comm, total_eq_zero] at ho
  simpa [hp] using ho p

variable {c : CommitPc}

section
variable (h : GroupInv s)
include h

theorem committing_of_commit (hp : s.pc p = .commit c) : s.log.committing = true := by
  by_contra hf
  have ht := h.committing
  rw [if_neg hf, total_eq_zero] at ht
  simpa [hp] using ht p

theorem commit_unique [DecidableEq P] {q : P} {c' : CommitPc} (hp : s.pc p = .commit c)
    (hq : s.pc q = .commit c') : p = q := by
  by_contra hne
  have hle := add_le_total commitWeight s.pc hne
  rw [h.committing, if_pos (h.committing_of_commit hp)] at hle
  simp [hp, hq] at hle

theorem no_commit_of_outstanding (ho : 1 ≤ s.log.outstanding) (q : P)
    (c : CommitPc) : s.pc q ≠ .commit c := by
  intro hq
  have hz := h.quiet (h.committing_of_commit hq)
  omega

theorem no_commit_of_op (hp : s.pc p = .op) (q : P) (c : CommitPc) : s.pc q ≠ .commit c :=
  fun hq => h.no_op_of_committing (h.committing_of_commit hq) p hp

/-- Moves that touch neither operations nor the committing process keep the invariant. -/
theorem of_sameWork (hw : SameWork s.pc s'.pc) (hl : s'.log = s.log)
    (hc : s'.current = s.current) (hf : s'.finished = s.finished)
    (hk : s'.commits = s.commits) : GroupInv s' where
  outstanding := by rw [hl, h.outstanding, hw.total_op]
  committing := by rw [hl, ← h.committing, hw.total_commit]
  quiet := by rw [hl]; exact h.quiet
  copying p c hp := by rw [hl, hk]; exact h.copying p c (((hw p).2 c).mp hp)
  erased p c hp := by rw [hl]; exact h.erased p c (((hw p).2 c).mp hp)
  current p hp := by rw [hl, hc, hk]; exact h.current p ((hw p).1.mp hp)
  finished := by unfold Taken; rw [hl, hf, hk]; exact h.finished
  settled p c hp := by rw [hf, hk]; exact h.settled p c (((hw p).2 c).mp hp)

/-- The writes of an operation that ends are all in the log and belong to the next commit. -/
theorem finish (hp : s.pc p = .op) :
    ∀ r ∈ s.finished ++ [s.current p], ∃ e, ∀ w ∈ r, w.2 = e ∧ Taken s e w.1 := by
  intro r hr
  rcases mem_append.mp hr with hr | hr
  · exact h.finished r hr
  rw [mem_singleton.mp hr]
  refine ⟨s.commits.length, fun w hw => ?_⟩
  obtain ⟨h1, h2⟩ := h.current p hp w hw
  refine ⟨h1, ?_⟩
  unfold Taken
  rw [List.getElem?_eq_none le_rfl]
  exact ⟨rfl, h2⟩

end

variable [DecidableEq P]

section
variable (h : GroupInv s)
include h

theorem setPc {v : Pc} (hp : s.pc p ≠ .op ∧ ∀ c, s.pc p ≠ .commit c)
    (hv : v ≠ .op ∧ ∀ c, v ≠ .commit c) : GroupInv (s.setPc p v) :=
  h.of_sameWork (sameWork_update hp hv) rfl rfl rfl rfl

theorem grant (hp : s.pc p = .begin) (hb : beginOp s.log = some l) : GroupInv { s with
      log := l
      pc := update s.pc p .op
      current := update s.current p [] } := by
  obtain ⟨hc, _, rfl⟩ := beginOp_eq_some hb
  have ho := total_update opWeight s.pc p .op
  have hk := total_update commitWeight s.pc p .op
  simp only [hp, opWeight_begin, opWeight_op, commitWeight_begin, commitWeight_op] at ho hk
  have hcommit : ∀ q c, update s.pc p .op q ≠ .commit c := by
    intro q c hq
    obtain rfl | hqp := eq_or_ne q p
    · simp at hq
    · rw [update_of_ne hqp] at hq
      simp [h.committing_of_commit hq] at hc
  refine ⟨?_, ?_, ?_, fun q c hq => absurd hq (hcommit q c), fun q c hq => absurd hq (hcommit q c),
    ?_, h.finished, fun q c hq => absurd hq (hcommit q c)⟩
  · simpa only [h.outstanding, Nat.add_zero] using ho.symm
  · simpa only [h.committing, Nat.add_zero] using hk
  · simp [hc]
  · grind

theorem write (hw : logWrite s.log b = .ok (l, f)) : GroupInv { s with
      log := l
      current := update s.current p (s.current p ++ [(b, s.commits.length)]) } := by
  have hcommit := h.no_commit_of_outstanding (outstanding_of_logWrite hw)
  obtain ⟨_, _, rfl⟩ := logWrite_eq_ok hw
  have hmono : ∀ c ∈ s.log.lh, c ∈ if b ∈ s.log.lh then s.log.lh else s.log.lh ++ [b] := by grind
  have hself : b ∈ if b ∈ s.log.lh then s.log.lh else s.log.lh ++ [b] := by
    split
    next hm => exact hm
    · simp
  refine ⟨h.outstanding, h.committing, h.quiet, fun q c hq => absurd hq (hcommit q c),
    fun q c hq => absurd hq (hcommit q c), ?_, ?_, h.settled⟩
  · grind
  · intro r hr
    obtain ⟨e, he⟩ := h.finished r hr
    refine ⟨e, fun w hw => ⟨(he w hw).1, ?_⟩⟩
    grind

theorem endCommit (hp : s.pc p = .op) (he : endOp s.log = .ok (l, true)) : GroupInv { s with
      log := l
      pc := update s.pc p (.commit .enter)
      finished := s.finished ++ [s.current p] } := by
  obtain ⟨hc, hz, rfl⟩ := endOp_eq_ok he
  have hz := hz.mp rfl
  have ho := total_update opWeight s.pc p (.commit .enter)
  have hk := total_update commitWeight s.pc p (.commit .enter)
  have hpos := le_total opWeight s.pc p
  have hout := h.outstanding
  have hcom := h.committing
  simp only [hp, opWeight_op, opWeight_commit, commitWeight_op, commitWeight_commit] at ho hk hpos
  have hcommit q c (hq : update s.pc p (.commit .enter) q = .commit c) : c = .enter := by
    obtain rfl | hqp := eq_or_ne q p
    · simpa [eq_comm] using hq
    · rw [update_of_ne hqp] at hq
      exact absurd hq (h.no_commit_of_op hp q c)
  refine ⟨?_, ?_, fun _ => hz, ?_, ?_, ?_, h.finish hp, ?_⟩
  · grind
  · grind
  · intro q c hq hcp
    rw [hcommit q c hq] at hcp
    cases hcp
  · grind
  · grind
  · intro q c hq hne
    exact absurd (hcommit q c hq) hne

theorem endWake (hp : s.pc p = .op) (he : endOp s.log = .ok (l, false)) : GroupInv { s with
      log := l
      pc := wakeup (update s.pc p .user)
      finished := s.finished ++ [s.current p] } := by
  obtain ⟨hc, _, rfl⟩ := endOp_eq_ok he
  have hw := sameWork_wakeup (update s.pc p .user)
  have ho := total_update opWeight s.pc p .user
  have hk := total_update commitWeight s.pc p .user
  have hout := h.outstanding
  have hcom := h.committing
  simp only [hp, opWeight_op, opWeight_user, commitWeight_op, commitWeight_user] at ho hk
  have hcommit : ∀ q c, wakeup (update s.pc p .user) q ≠ .commit c := by
    intro q c hq
    rw [(hw q).2] at hq
    obtain rfl | hqp := eq_or_ne q p
    · simp at hq
    · rw [update_of_ne hqp] at hq
      exact h.no_commit_of_op hp q c hq
  refine ⟨?_, ?_, by simp, fun q c hq => absurd hq (hcommit q c),
    fun q c hq => absurd hq (hcommit q c), ?_, h.finish hp, fun q c hq => absurd hq (hcommit q c)⟩
  · change s.log.outstanding - 1 = total opWeight (wakeup (update s.pc p .user))
    rw [hw.total_op]
    omega
  · rw [hc, if_neg (by simp)] at hcom
    change total commitWeight (wakeup (update s.pc p .user)) = 0
    rw [hw.total_commit]
    omega
  · grind

/-- The parts of the invariant that a move inside `commit` cannot change. -/
theorem commit_move (hp : s.pc p = .commit c) (c' : CommitPc) :
    total opWeight (update s.pc p (.commit c')) = s.log.outstanding ∧
    (total commitWeight (update s.pc p (.commit c')) = if s.log.committing then 1 else 0) ∧
    (∀ q, update s.pc p (.commit c') q ≠ .op) ∧
    ∀ q k, update s.pc p (.commit c') q = .commit k → k = c' := by
  have ho := total_update opWeight s.pc p (.commit c')
  have hk := total_update commitWeight s.pc p (.commit c')
  simp only [hp, opWeight_commit, commitWeight_commit] at ho hk
  refine ⟨by rw [h.outstanding]; omega, by rw [← h.committing]; omega, ?_, ?_⟩
  · intro q hq
    obtain rfl | hqp := eq_or_ne q p
    · simp at hq
    · rw [update_of_ne hqp] at hq
      exact h.no_op_of_committing (h.committing_of_commit hp) q hq
  · intro q k hq
    obtain rfl | hqp := eq_or_ne q p
    · simpa [eq_comm] using hq
    · rw [update_of_ne hqp] at hq
      exact absurd (h.commit_unique hq hp) hqp

/-- A move inside `commit` that changes neither the log nor the history. -/
theorem commit_pass {c' : CommitPc} (hp : s.pc p = .commit c)
    (hne : c ≠ .enter) (hcopy : c'.copying = true → c.copying = true)
    (herase : c' = .eraseHead ∨ c' = .done → c = .eraseHead ∨ c = .done) :
    GroupInv { s with pc := update s.pc p (.commit c') } := by
  obtain ⟨ho, hk, hop, hcm⟩ := h.commit_move hp c'
  refine ⟨ho.symm, hk, h.quiet, ?_, ?_, fun q hq => absurd hq (hop q), h.finished, ?_⟩
  · grind
  · grind
  · intro q k _ _
    exact h.settled p c hp hne

theorem commit_enter (hp : s.pc p = .commit .enter) : GroupInv (s.commitStep p .enter) := by
  obtain ⟨ho, hk, hop, hcm⟩ := h.commit_move hp (CommitPc.enter.advance s.log.lh.length)
  refine ⟨ho.symm, hk, h.quiet, ?_, ?_, fun q hq => absurd hq (hop q), ?_, ?_⟩
  · intro q k _ _
    simp [GroupState.commitStep]
  · intro q k hq hce
    rw [hcm q k hq] at hce
    by_cases hn : s.log.lh.length > 0
    · simp [hn] at hce
    · change s.log.lh = []
      exact length_eq_zero_iff.mp (by omega)
  · intro r hr
    obtain ⟨e, he⟩ := h.finished r hr
    refine ⟨e, fun w hw => ⟨(he w hw).1, ?_⟩⟩
    have ht := (he w hw).2
    unfold Taken at ht ⊢
    simp only [GroupState.commitStep]
    grind
  · intro q k _ _ r hr w hw
    obtain ⟨e, he⟩ := h.finished r hr
    obtain ⟨rfl, ht⟩ := he w hw
    simp only [GroupState.commitStep, length_append, length_singleton]
    grind

theorem commit_erase (hp : s.pc p = .commit .erase) : GroupInv (s.commitStep p .erase) := by
  obtain ⟨ho, hk, hop, hcm⟩ := h.commit_move hp .eraseHead
  refine ⟨ho.symm, hk, h.quiet, ?_, fun _ _ _ _ => rfl, fun q hq => absurd hq (hop q), ?_,
    fun _ _ _ _ => h.settled p _ hp (by simp)⟩
  · intro q k hq hcp
    rw [hcm q k hq] at hcp
    cases hcp
  · -- every finished operation is already in the record of an earlier entry of `commit`
    intro r hr
    obtain ⟨e, he⟩ := h.finished r hr
    refine ⟨e, fun w hw => ⟨(he w hw).1, ?_⟩⟩
    have hlt := h.settled p _ hp (by simp) r hr w hw
    obtain ⟨rfl, ht⟩ := he w hw
    unfold Taken at ht ⊢
    rw [List.getElem?_eq_getElem hlt] at ht
    simp only [GroupState.commitStep, List.getElem?_eq_getElem hlt]
    exact ht

theorem commit_done (hp : s.pc p = .commit .done) : GroupInv (s.commitStep p .done) := by
  have hw := sameWork_wakeup (update s.pc p .user)
  have ho := total_update opWeight s.pc p .user
  have hk := total_update commitWeight s.pc p .user
  have hout := h.outstanding
  have hcom := h.committing
  simp only [hp, opWeight_commit, opWeight_user, commitWeight_commit, commitWeight_user] at ho hk
  have hback : ∀ q c, wakeup (update s.pc p .user) q ≠ .commit c := by
    intro q c hq
    rw [(hw q).2] at hq
    obtain rfl | hqp := eq_or_ne q p
    · simp at hq
    · rw [update_of_ne hqp] at hq
      exact hqp (h.commit_unique hq hp)
  have hop : ∀ q, wakeup (update s.pc p .user) q ≠ .op := by
    intro q hq
    rw [(hw q).1] at hq
    obtain rfl | hqp := eq_or_ne q p
    · simp at hq
    · rw [update_of_ne hqp] at hq
      exact h.no_op_of_committing (h.committing_of_commit hp) q hq
  refine ⟨?_, ?_, by simp [GroupState.commitStep], fun q c hq => absurd hq (hback q c),
    fun q c hq => absurd hq (hback q c), fun q hq => absurd hq (hop q), h.finished,
    fun q c hq => absurd hq (hback q c)⟩
  · change s.log.outstanding = total opWeight (wakeup (update s.pc p .user))
    rw [hw.total_op]
    omega
  · rw [h.committing_of_commit hp, if_pos rfl] at hcom
    change total commitWeight (wakeup (update s.pc p .user)) = 0
    rw [hw.total_commit]
    omega

theorem commit (hp : s.pc p = .commit c) : GroupInv (s.commitStep p c) := by
  cases c with
  | enter => exact h.commit_enter hp
  | erase => exact h.commit_erase hp
  | done => exact h.commit_done hp
  | writeLog tail | install tail =>
    apply h.commit_pass hp (by simp) (fun _ => rfl)
    simp only [CommitPc.advance]
    split <;> simp
  | writeHead => exact h.commit_pass hp (by simp) (fun _ => rfl) (by simp)
  | eraseHead =>
    exact h.commit_pass hp (by simp) (by simp [CommitPc.copying]) (by simp)

theorem next (hs : s.next a = some s') : GroupInv s' := by
  cases (step_of_next hs).2 with
  | callBegin hp | sleep hp hb | kill hp => exact h.setPc (by simp [hp]) (by simp)
  | grant hp hb => exact h.grant hp hb
  | writePanic hp hw | endPanic hp he => exact ⟨h.1, h.2, h.3, h.4, h.5, h.6, h.7, h.8⟩
  | write hp hw => exact h.write hw
  | endCommit hp he => exact h.endCommit hp he
  | endWake hp he => exact h.endWake hp he
  | commit hp => exact h.commit hp

end

theorem run (size : ℕ) {as : List (Action P)}
    (hr : Transition.run GroupState.next (GroupState.init size) as = some s) : GroupInv s :=
  run_invariant (fun _ _ _ h hs => h.next hs) (init size) hr

end GroupInv

/-- The panic "log.committing" needs `committing` set while an operation is running. -/
theorem run_panic_ne_logCommitting [DecidableEq P] {s s' : GroupState P}
    (h : GroupInv s) (hs : s.next a = some s') : s'.panic ≠ some .logCommitting := by
  obtain ⟨hpanic, hstep⟩ := step_of_next hs
  cases hstep with
  | writePanic hp hw => grind
  | endPanic hp he => exact absurd hp (h.no_op_of_committing (endOp_eq_error he).1 _)
  | commit hp =>
    unfold GroupState.commitStep
    dsimp only
    split <;> simp [hpanic]
  | _ => simp [GroupState.setPc, hpanic]

/-- Group commit never splits an operation. In every state of every run, by any number of
processes: `committing` excludes outstanding operations, at most one process is inside `commit`,
no `log_write` is possible while one is, the panic of `end_op` has not happened, and the writes of
each finished operation all belong to one and the same commit. -/
theorem group_commit_atomic [DecidableEq P] (size : ℕ) {as : List (Action P)} {s : GroupState P}
    (hr : run GroupState.next (GroupState.init size) as = some s) :
    (s.log.committing = true → s.log.outstanding = 0) ∧
    (∀ p q c c', s.pc p = .commit c → s.pc q = .commit c' → p = q) ∧
    (∀ q b s', s.next (.logWrite q b) = some s' → ∀ p c, s.pc p ≠ .commit c) ∧
    s.panic ≠ some .logCommitting ∧
    (∀ p c, s.pc p = .commit c → c.copying = true → s.commits.getLast? = some s.log.lh) ∧
    ∀ r ∈ s.finished, ∃ e, ∀ w ∈ r, w.2 = e ∧ Taken s e w.1 := by
  have h := GroupInv.run size hr
  refine ⟨h.quiet, fun p q c c' hp hq => h.commit_unique hp hq, ?_, ?_, h.copying, h.finished⟩
  · intro q b s' hs p c
    cases (step_of_next hs).2 with
    | writePanic hq hw | write hq hw => exact h.no_commit_of_op hq p c
  · rcases eq_nil_or_concat as with rfl | ⟨as, a, rfl⟩
    · cases hr
      simp [GroupState.init]
    · rw [concat_eq_append] at hr
      obtain ⟨t, ht, hs⟩ := run_concat_eq_some.mp hr
      exact run_panic_ne_logCommitting (GroupInv.run size ht) hs

def twoOps : List (Action (Fin 2)) :=
  [.callBegin 0, .callBegin 1, .testLog 0, .testLog 1, .logWrite 0 50, .logWrite 1 60,
    .endOp 0, .endOp 1, .commit 1 .enter, .commit 1 (.writeLog 0)]

theorem group_commit_atomic_two_ops : ∃ s : GroupState (Fin 2),
    run GroupState.next (GroupState.init logsize) twoOps = some s ∧
    s.commits = [[50, 60]] ∧ s.finished = [[(50, 0)], [(60, 0)]] ∧
    ∀ r ∈ s.finished, ∃ e, ∀ w ∈ r, w.2 = e ∧ Taken s e w.1 := by
  have h : ∃ s : GroupState (Fin 2), run GroupState.next (GroupState.init logsize) twoOps = some s ∧
      s.commits = [[50, 60]] ∧ s.finished = [[(50, 0)], [(60, 0)]] := ⟨_, rfl, rfl, rfl⟩
  obtain ⟨s, hr, hc, hf⟩ := h
  exact ⟨s, hr, hc, hf, (group_commit_atomic logsize hr).2.2.2.2.2⟩

end Totals
end Xv6.Log
