import Xv6.Lib.Transition
import Xv6.Proc.Sched

/-! `sleep`, `wakeup` and `kill` at the grain of `p->lock`, for code whose critical sections wait on
one channel. A process in `sleep` gives up the spin lock before its state is `SLEEPING`, with
`p->lock` held, and `wakeup` takes every `p->lock` in turn. -/
namespace Xv6.Proc.Monitor

/-- Code with critical sections of the kinds `K` under one spin lock over shared data `σ`; `L` says
where a process is outside of them. A section sleeps while `waits`, then does `body` (which may
panic), calls `wakeup` if `signals`, and the process goes on at `next`. -/
structure Client (N : ℕ) (σ K L : Type) where
  may : L → K → Bool
  waits : K → σ → Bool
  body : K → Fin N → σ → Option σ
  signals : K → σ → Bool
  next : K → σ → L
  alone : L → σ → Option (σ × L)

inductive Pc (K L : Type) where
  | out (l : L)
  /-- In section `k`, before the test for sleeping. -/
  | test (k : K)
  /-- In `sleep`, with `p->lock`, before `release(lk)`. -/
  | sleepRelease (k : K)
  /-- In `sleep`, with `p->lock`, before `p->state = SLEEPING`. -/
  | sleepState (k : K)
  /-- In `sched`, or back from it, before `acquire(lk)`. -/
  | asleep (k : K)
  /-- In `wakeup`, before it looks at slot `j`. -/
  | wake (l : L) (j : ℕ)
  deriving DecidableEq

namespace Pc
variable {K L : Type}

def holds : Pc K L → Bool
  | test _ | sleepRelease _ | wake _ _ => true
  | _ => false

def own : Pc K L → Bool
  | sleepRelease _ | sleepState _ => true
  | _ => false

end Pc

structure State (N : ℕ) (σ K L : Type) where
  shared : σ
  lock : Option (Fin N)
  proc : Fin N → Sched Unit
  pc : Fin N → Pc K L

variable {N : ℕ} {σ K L : Type}

namespace State

@[simps -fullyApplied, grind]
def setPc (s : State N σ K L) (p : Fin N) (c : Pc K L) : State N σ K L :=
  { s with pc := Function.update s.pc p c }

@[simps -fullyApplied, grind] def setProc (s : State N σ K L) (p : Fin N) (x : Sched Unit) :
    State N σ K L :=
  { s with proc := Function.update s.proc p x }

@[simps -fullyApplied, grind]
def setLock (s : State N σ K L) (o : Option (Fin N)) : State N σ K L :=
  { s with lock := o }

@[simps -fullyApplied, grind] def setShared (s : State N σ K L) (x : σ) : State N σ K L :=
  { s with shared := x }

@[simps -fullyApplied, grind]
def wakeupAt (s : State N σ K L) (p : Fin N) (j : ℕ) : State N σ K L :=
  { s with proc := Proc.wakeupAt s.proc p () j }

/-- `p` is asleep on the channel or on the way there. -/
@[grind] def Dozes (s : State N σ K L) (p : Fin N) : Prop :=
  (s.proc p).SleepsOn () ∨ (s.pc p).own = true

end State

def step (m : Client N σ K L) (s : State N σ K L) (p : Fin N) : Option (State N σ K L) :=
  match s.pc p with
  | .out l =>
    match m.alone l s.shared with
    | none => none
    | some (x, l') => some ((s.setShared x).setPc p (.out l'))
  | .test k =>
    if m.waits k s.shared then some (s.setPc p (.sleepRelease k))
    else
      match m.body k p s.shared with
      | none => none
      | some x =>
        if m.signals k x then some ((s.setShared x).setPc p (.wake (m.next k x) 0))
        else some (((s.setShared x).setLock none).setPc p (.out (m.next k x)))
  | .sleepRelease k => some ((s.setLock none).setPc p (.sleepState k))
  | .sleepState k => some ((s.setProc p ((s.proc p).sleep ())).setPc p (.asleep k))
  | .asleep k => if s.lock = none then some ((s.setLock (some p)).setPc p (.test k)) else none
  | .wake l j =>
    if h : j < N then
      -- `acquire(&p->lock)` of another process waits while that process has its own lock.
      if (s.pc ⟨j, h⟩).own = false then some ((s.wakeupAt p j).setPc p (.wake l (j + 1))) else none
    else some ((s.setLock none).setPc p (.out l))

inductive Act (N : ℕ) (K : Type) where
  /-- Process `p` enters a section. -/
  | call (p : Fin N) (k : K)
  | step (p : Fin N)
  | kill (p : Fin N)
  /-- The scheduler gives a CPU to a runnable process. -/
  | resume (p : Fin N)
  /-- A timer interrupt; interrupts are off while a lock is held. -/
  | yield (p : Fin N)

@[grind] def State.CanCall (m : Client N σ K L) (s : State N σ K L) (p : Fin N) (k : K) : Bool :=
  match s.pc p with
  | .out l => m.may l k && decide ((s.proc p).state = .running) && s.lock.isNone
  | _ => false

def next (m : Client N σ K L) (s : State N σ K L) : Act N K → Option (State N σ K L)
  | .call p k =>
    if s.CanCall m p k then some ((s.setLock (some p)).setPc p (.test k)) else none
  | .step p => if (s.proc p).state = .running then Monitor.step m s p else none
  | .kill p => if (s.pc p).own = false then some (s.setProc p (s.proc p).kill) else none
  | .resume p =>
    if (s.proc p).state = .runnable then some (s.setProc p (s.proc p).resume) else none
  | .yield p =>
    if (s.proc p).state = .running ∧ (s.pc p).holds = false ∧ (s.pc p).own = false then
      some (s.setProc p (s.proc p).yield)
    else none

def init (N : ℕ) (K : Type) (x : σ) (l : L) : State N σ K L where
  shared := x
  lock := none
  proc := fun _ => ⟨.runnable, none, false⟩
  pc := fun _ => .out l

variable {m : Client N σ K L} {s t : State N σ K L} {p q : Fin N} {a : Act N K}

inductive Moves (m : Client N σ K L) (s : State N σ K L) (p : Fin N) : State N σ K L → Prop
  | alone {l l' x} (hpc : s.pc p = .out l) (hx : m.alone l s.shared = some (x, l')) :
      Moves m s p ((s.setShared x).setPc p (.out l'))
  | wait {k} (hpc : s.pc p = .test k) (hw : m.waits k s.shared = true) :
      Moves m s p (s.setPc p (.sleepRelease k))
  | signal {k x} (hpc : s.pc p = .test k) (hw : m.waits k s.shared = false)
      (hx : m.body k p s.shared = some x) (hs : m.signals k x = true) :
      Moves m s p ((s.setShared x).setPc p (.wake (m.next k x) 0))
  | leave {k x} (hpc : s.pc p = .test k) (hw : m.waits k s.shared = false)
      (hx : m.body k p s.shared = some x) (hs : m.signals k x = false) :
      Moves m s p (((s.setShared x).setLock none).setPc p (.out (m.next k x)))
  | release {k} (hpc : s.pc p = .sleepRelease k) :
      Moves m s p ((s.setLock none).setPc p (.sleepState k))
  | sleep {k} (hpc : s.pc p = .sleepState k) :
      Moves m s p ((s.setProc p ((s.proc p).sleep ())).setPc p (.asleep k))
  | again {k} (hpc : s.pc p = .asleep k) (hl : s.lock = none) :
      Moves m s p ((s.setLock (some p)).setPc p (.test k))
  | wake {l} {j : Fin N} (hpc : s.pc p = .wake l j.val) (hown : (s.pc j).own = false) :
      Moves m s p ((s.wakeupAt p j.val).setPc p (.wake l (j.val + 1)))
  | woken {l j} (hpc : s.pc p = .wake l j) (hj : N ≤ j) :
      Moves m s p ((s.setLock none).setPc p (.out l))

theorem moves_of_step (h : step m s p = some t) : Moves m s p t := by
  unfold step at h
  split at h
  next l hpc =>
    split at h
    · cases h
    next x l' hx =>
      cases h
      exact .alone hpc hx
  next k hpc =>
    split at h
    next hw =>
      cases h
      exact .wait hpc hw
    next hw =>
      rw [Bool.not_eq_true] at hw
      split at h
      · cases h
      next x hx =>
        split at h
        next hs =>
          cases h
          exact .signal hpc hw hx hs
        next hs =>
          cases h
          rw [Bool.not_eq_true] at hs
          exact .leave hpc hw hx hs
  next k hpc =>
    cases h
    exact .release hpc
  next k hpc =>
    cases h
    exact .sleep hpc
  next k hpc =>
    split at h
    next hl =>
      cases h
      exact .again hpc hl
    · cases h
  next l j hpc =>
    split at h
    next hj =>
      split at h
      next hown =>
        cases h
        exact .wake (j := ⟨j, hj⟩) hpc hown
      · cases h
    next hj =>
      cases h
      exact .woken hpc (Nat.le_of_not_lt hj)

inductive Next (m : Client N σ K L) (s : State N σ K L) : Act N K → State N σ K L → Prop
  | call {p : Fin N} {k : K} {l : L} (hpc : s.pc p = .out l) (hmay : m.may l k = true)
      (hr : (s.proc p).state = .running) (hl : s.lock = none) :
      Next m s (.call p k) ((s.setLock (some p)).setPc p (.test k))
  | step {p : Fin N} {t : State N σ K L} (hr : (s.proc p).state = .running)
      (hm : Moves m s p t) : Next m s (.step p) t
  | kill {p : Fin N} (hown : (s.pc p).own = false) :
      Next m s (.kill p) (s.setProc p (s.proc p).kill)
  | resume {p : Fin N} (hr : (s.proc p).state = .runnable) :
      Next m s (.resume p) (s.setProc p (s.proc p).resume)
  | yield {p : Fin N} (hr : (s.proc p).state = .running) (hown : (s.pc p).own = false) :
      Next m s (.yield p) (s.setProc p (s.proc p).yield)

theorem next_of_eq (h : next m s a = some t) : Next m s a t := by
  cases a with
  | call p k =>
    simp only [next] at h
    split at h
    next hc =>
      cases h
      unfold State.CanCall at hc
      split at hc
      next l hpc =>
        simp only [Bool.and_eq_true, decide_eq_true_eq, Option.isNone_iff_eq_none] at hc
        exact .call hpc hc.1.1 hc.1.2 hc.2
      · cases hc
    · cases h
  | step p =>
    simp only [next] at h
    split at h
    next hr => exact .step hr (moves_of_step h)
    · cases h
  | kill p =>
    simp only [next] at h
    split at h
    next hown =>
      cases h
      exact .kill hown
    · cases h
  | resume p =>
    simp only [next] at h
    split at h
    next hr =>
      cases h
      exact .resume hr
    · cases h
  | yield p =>
    simp only [next] at h
    split at h
    next hr =>
      cases h
      exact .yield hr.1 hr.2.2
    · cases h

/-- The spin lock is a lock, and a process sleeps at one point of `sleep` only. -/
@[grind cases] structure State.Sound (s : State N σ K L) : Prop where
  exclusive : ∀ p, (s.pc p).holds = true → s.lock = some p
  asleep : ∀ p, (s.proc p).state = .sleeping → ∃ k, s.pc p = .asleep k

theorem sound_init (x : σ) (l : L) : (init N K x l).Sound where
  exclusive _ h := (by cases h)
  asleep _ h := (by cases h)

section
variable (h : Moves m s p t)
include h

theorem Moves.pc_other (hq : q ≠ p) : t.pc q = s.pc q := by
  cases h <;> simp [hq]

/-- A step keeps the lock, gives it back, takes it when it is free, or is made without it. -/
theorem Moves.control : ((s.pc p).holds = true ∧ t.lock = s.lock) ∨
    ((s.pc p).holds = true ∧ t.lock = none ∧ (t.pc p).holds = false) ∨
    (s.lock = none ∧ t.lock = some p) ∨ ((t.pc p).holds = false ∧ t.lock = s.lock) := by
  cases h <;> simp_all [Pc.holds]

theorem Moves.exclusive (hs : s.Sound) (hq : (t.pc q).holds = true) : t.lock = some q := by
  obtain rfl | hqp := eq_or_ne q p
  · rcases h.control with ⟨hp, hl⟩ | ⟨_, _, hn⟩ | ⟨_, hl⟩ | ⟨hn, _⟩
    · rw [hl, hs.exclusive q hp]
    · rw [hn] at hq
      cases hq
    · exact hl
    · rw [hn] at hq
      cases hq
  · rw [h.pc_other hqp] at hq
    have hlq := hs.exclusive q hq
    rcases h.control with ⟨hp, hl⟩ | ⟨hp, _⟩ | ⟨hl, _⟩ | ⟨_, hl⟩
    · rw [hl, hlq]
    · grind
    · rw [hl] at hlq
      cases hlq
    · rw [hl, hlq]

theorem Moves.sleeping (hq : (t.proc q).state = .sleeping) :
    (s.proc q).state = .sleeping ∨ q = p ∧ ∃ k, t.pc p = .asleep k := by
  cases h with
  | @sleep k hpc =>
    by_cases hqp : q = p
    · exact .inr ⟨hqp, k, by simp⟩
    · exact .inl (by simpa [hqp] using hq)
  | @wake l j hpc hown =>
    rcases wakeupAt_state s.proc p q () j.val with h1 | ⟨h1, h2⟩
    · exact .inl (h1.symm.trans hq)
    · cases h2.symm.trans hq
  | _ => exact .inl hq

theorem Moves.sound (hr : (s.proc p).state = .running) (hs : s.Sound) : t.Sound := by
  refine ⟨fun q => h.exclusive hs, fun q hq => ?_⟩
  rcases h.sleeping hq with hsl | ⟨rfl, hk⟩
  · have hqp : q ≠ p := by
      rintro rfl
      rw [hr] at hsl
      cases hsl
    rw [h.pc_other hqp]
    exact hs.asleep q hsl
  · exact hk

end

theorem State.Sound.setProc (hs : s.Sound) {x : Sched Unit} (hx : x.state ≠ .sleeping) :
    (s.setProc p x).Sound := by
  refine ⟨hs.exclusive, fun q hq => ?_⟩
  obtain rfl | hqp := eq_or_ne q p
  · exact absurd (by simpa using hq) hx
  · exact hs.asleep q (by simpa [hqp] using hq)

theorem kill_not_sleeping (x : Sched Unit) : x.kill.state ≠ .sleeping := by
  rw [Sched.kill_state]
  split
  · simp
  · assumption

theorem Next.sound (h : Next m s a t) (hs : s.Sound) : t.Sound := by
  cases h with
  | @call p k l hpc hmay hr hl =>
    refine ⟨fun q hq => ?_, fun q hq => ?_⟩
    · by_cases hqp : q = p
      · rw [hqp]
        rfl
      · have hlq := hs.exclusive q (by simpa [hqp] using hq)
        rw [hl] at hlq
        cases hlq
    · have hqp : q ≠ p := by
        rintro rfl
        cases hr.symm.trans hq
      simpa [hqp] using hs.asleep q hq
  | step hr hm => exact hm.sound hr hs
  | kill hown => exact hs.setProc (kill_not_sleeping _)
  | resume hr | yield hr hown => exact hs.setProc (by simp)

/-- Whoever dozes has a reason to, or a `wakeup` that is going on has not come to it yet. -/
@[grind] def State.NoLost (W : σ → Prop) (s : State N σ K L) : Prop :=
  ∀ p, s.Dozes p → W s.shared ∨ ∃ q l j, s.pc q = .wake l j ∧ j ≤ p.val

theorem State.NoLost.of_free {W : σ → Prop} (h : s.NoLost W) (hs : s.Sound) (hl : s.lock = none)
    (hp : s.Dozes p) : W s.shared := by
  rcases h p hp with hw | ⟨q, l, j, hpc, _⟩
  · exact hw
  · have hq := hs.exclusive q (by rw [hpc]; rfl)
    rw [hl] at hq
    cases hq

theorem Moves.dozes (h : Moves m s p t) (hq : t.Dozes q) :
    s.Dozes q ∨ ∃ k, s.pc p = .test k ∧ m.waits k s.shared = true := by
  obtain rfl | hqp := eq_or_ne q p
  · cases h with
    | wait hpc hw => exact .inr ⟨_, hpc, hw⟩
    | release hpc | sleep hpc => exact .inl (.inr (by rw [hpc]; rfl))
    | wake hpc hown =>
      refine .inl (.inl ?_)
      rcases hq with hsl | hown'
      · exact (sleepsOn_wakeupAt.mp hsl).1
      · simp [Pc.own] at hown'
    | _ =>
      refine .inl (.inl (hq.resolve_right ?_))
      simp [Pc.own]
  · left
    rcases hq with hsl | hown
    · left
      cases h with
      | sleep hpc => simpa [hqp] using hsl
      | wake hpc hown => exact (sleepsOn_wakeupAt.mp hsl).1
      | _ => exact hsl
    · exact .inr (by rwa [h.pc_other hqp] at hown)

/-- A round of `wakeup` leaves nobody dozing in the slot that it has looked at. -/
theorem not_dozes_wakeupAt {l : L} {j : Fin N} (hr : (s.proc p).state = .running)
    (hown : (s.pc j).own = false) :
    ¬ ((s.wakeupAt p j.val).setPc p (.wake l (j.val + 1))).Dozes j := by
  rintro (hsl | hown')
  · obtain ⟨h1, h2⟩ := sleepsOn_wakeupAt.mp hsl
    grind
  · by_cases hjp : j = p
    · simp [hjp, Pc.own] at hown'
    · simp [hjp, hown] at hown'

theorem Moves.noLost {W : σ → Prop} (h : Moves m s p t) (hr : (s.proc p).state = .running)
    (hn : s.NoLost W) (hwaits : ∀ k, m.waits k s.shared = true → W s.shared)
    (hkeep : W s.shared → W t.shared ∨ ∃ q l, t.pc q = .wake l 0) : t.NoLost W := by
  have hreason (r : Fin N) (hw : W s.shared) : W t.shared ∨ ∃ q l j, t.pc q = .wake l j ∧
      j ≤ r.val := by grind
  intro r hd
  rcases h.dozes hd with hd' | ⟨k, _, hw⟩
  · rcases hn r hd' with hw | ⟨q, l, j, hq, hj⟩
    · exact hreason r hw
    obtain rfl | hqp := eq_or_ne q p
    · -- The waker itself has made the step.
      cases h with
      | @wake l' j' hpc hown =>
        obtain ⟨rfl, rfl⟩ : l' = l ∧ j'.val = j := by simpa [hpc] using hq
        refine .inr ⟨q, l', j'.val + 1, by simp, ?_⟩
        have hne : j' ≠ r := by
          rintro rfl
          exact not_dozes_wakeupAt hr hown hd
        grind
      | woken hpc hj' => grind
      | _ => simp_all
    · exact .inr ⟨q, l, j, by rw [h.pc_other hqp, hq], hj⟩
  · exact hreason r (hwaits k hw)

theorem State.NoLost.setProc {W : σ → Prop} (hn : s.NoLost W) {x : Sched Unit}
    (hx : x.state ≠ .sleeping) : (s.setProc p x).NoLost W := by
  intro r hd
  refine hn r ?_
  rcases hd with hsl | hown
  · left
    obtain rfl | hrp := eq_or_ne r p
    · exact absurd (by simpa using hsl.1) hx
    · simpa [hrp] using hsl
  · exact .inr hown

/-- The rule for waiting: `W` is the reason to wait of every section, and every step keeps it or
starts a `wakeup`. -/
theorem Next.noLost {W : σ → Prop} (h : Next m s a t) (hn : s.NoLost W)
    (hwaits : ∀ k, m.waits k s.shared = true → W s.shared)
    (hkeep : W s.shared → W t.shared ∨ ∃ q l, t.pc q = .wake l 0) : t.NoLost W := by
  cases h with
  | @call p k l hpc hmay hr hl =>
    intro r hd
    have hd' : s.Dozes r := by
      refine hd.imp_right fun hown => ?_
      by_cases hrp : r = p
      · simp [hrp, Pc.own] at hown
      · simpa [hrp] using hown
    rcases hn r hd' with hw | ⟨q, l', j, hq, hj⟩
    · exact .inl hw
    have hqp : q ≠ p := by
      rintro rfl
      rw [hpc] at hq
      cases hq
    exact .inr ⟨q, l', j, by simpa [hqp] using hq, hj⟩
  | step hr hm => exact hm.noLost hr hn hwaits hkeep
  | kill hown => exact hn.setProc (kill_not_sleeping _)
  | resume hr | yield hr hown => exact hn.setProc (by simp)

theorem noLost_init (W : σ → Prop) (x : σ) (l : L) : (init N K x l).NoLost W := by
  rintro p (hsl | hown)
  · cases hsl.1
  · cases hown

end Xv6.Proc.Monitor
