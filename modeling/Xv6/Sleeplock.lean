import Xv6.Proc.Monitor

/-! Sleep locks, after `sleeplock.c`: `lk->lk` protects `lk->locked` and `lk->pid`, and processes
wait for the lock in `sleep(lk, &lk->lk)`. -/
namespace Xv6.SleepLock
open Transition Proc.Monitor

/-- `struct sleeplock` without its spin lock. -/
structure Sleeplock where
  locked : Bool
  pid : ℤ
  deriving DecidableEq

inductive Section where
  | acquiresleep
  | releasesleep
  deriving DecidableEq

/-- A process is a holder from the return of `acquiresleep` to its call of `releasesleep`. -/
inductive Place where
  | outside
  | holder
  deriving DecidableEq

variable {N : ℕ}

def code (pid : Fin N → ℤ) : Client N Sleeplock Section Place where
  may
    | .outside, .acquiresleep => true
    | .holder, .releasesleep => true
    | _, _ => false
  waits
    | .acquiresleep, lk => lk.locked
    | .releasesleep, _ => false
  body
    | .acquiresleep, p, _ => some ⟨true, pid p⟩
    | .releasesleep, _, _ => some ⟨false, 0⟩
  signals
    | .acquiresleep, _ => false
    | .releasesleep, _ => true
  next
    | .acquiresleep, _ => .holder
    | .releasesleep, _ => .outside
  alone _ _ := none

def holdingsleep (pid : Fin N → ℤ) (lk : Sleeplock) (p : Fin N) : Bool :=
  lk.locked && lk.pid == pid p

def init (N : ℕ) : State N Sleeplock Section Place :=
  Proc.Monitor.init N Section ⟨false, 0⟩ .outside

variable {pid : Fin N → ℤ} {s t : State N Sleeplock Section Place} {p q : Fin N} {a : Act N Section}

/-- The process has the sleep lock: it is a holder, or in `releasesleep` before `lk->locked = 0`. -/
def owns : Pc Section Place → Bool
  | .out .holder | .test .releasesleep => true
  | _ => false

attribute [local simp] owns

/-- The sections do not sleep in `releasesleep`, and only that one wakes. -/
def usual : Pc Section Place → Bool
  | .sleepRelease k | .sleepState k | .asleep k => decide (k = .acquiresleep)
  | .wake l _ => decide (l = .outside)
  | _ => true

attribute [local simp] usual

structure Inv (pid : Fin N → ℤ) (s : State N Sleeplock Section Place) : Prop where
  sound : s.Sound
  noLost : s.NoLost (·.locked = true)
  plain : ∀ p, usual (s.pc p) = true
  owner : ∀ p, owns (s.pc p) = true → s.shared = ⟨true, pid p⟩
  locked : s.shared.locked = true → ∃ p, owns (s.pc p) = true

theorem inv_init : Inv pid (init N) where
  sound := sound_init _ _
  noLost := noLost_init _ _ _
  plain _ := rfl
  owner _ h := (by cases h)
  locked h := (by cases h)

theorem Inv.keeps (hs : Inv pid s) (ht : t.Sound) (hn : t.NoLost (·.locked = true))
    (hsh : t.shared = s.shared) (hplain : usual (t.pc p) = true)
    (howns : owns (t.pc p) = owns (s.pc p)) (hother : ∀ q ≠ p, t.pc q = s.pc q) : Inv pid t := by
  have heq q : owns (t.pc q) = owns (s.pc q) := by
    by_cases hq : q = p
    · rw [hq, howns]
    · rw [hother q hq]
  refine ⟨ht, hn, fun q => ?_, fun q hq => ?_, fun hl => ?_⟩
  · by_cases hq : q = p
    · rw [hq, hplain]
    · rw [hother q hq]
      exact hs.plain q
  · rw [hsh]
    exact hs.owner q ((heq q).symm.trans hq)
  · rw [hsh] at hl
    obtain ⟨q, hq⟩ := hs.locked hl
    exact ⟨q, (heq q).trans hq⟩

theorem locked_moves (hm : Moves (code pid) s p t) (hw : s.shared.locked = true) :
    t.shared.locked = true ∨ ∃ q l, t.pc q = .wake l 0 := by
  cases hm with
  | alone hpc hx => cases hx
  | @signal k x hpc hw' hx hsig => exact .inr ⟨p, (code pid).next k x, by simp⟩
  | @leave k x hpc hw' hx hsig =>
    cases k with
    | acquiresleep =>
      cases hx
      exact .inl rfl
    | releasesleep => cases hsig
  | _ => exact .inl hw

theorem Inv.moves (hpid : Function.Injective pid) (hs : Inv pid s) (ht : t.Sound)
    (hn : t.NoLost (·.locked = true)) (hm : Moves (code pid) s p t) : Inv pid t := by
  have hplain := hs.plain p
  have hother : ∀ q ≠ p, t.pc q = s.pc q := fun q hq => hm.pc_other hq
  cases hm with
  | alone hpc hx => cases hx
  | @wait k hpc hw =>
    cases k with
    | acquiresleep =>
      exact hs.keeps (p := p) ht hn rfl (by simp) (by simp [hpc]) hother
    | releasesleep => cases hw
  | @signal k x hpc hw hx hsig =>
    cases k with
    | acquiresleep => cases hsig
    | releasesleep =>
      cases hx
      have hp := hs.owner p (by rw [hpc]; rfl)
      refine ⟨ht, hn, fun q => ?_, fun q hq => ?_, fun hl => (by cases hl)⟩
      · by_cases hqp : q = p
        · simp [hqp, code]
        · rw [hother q hqp]
          exact hs.plain q
      · have hqp : q ≠ p := by
          rintro rfl
          simp at hq
        rw [hother q hqp] at hq
        have hpids := congrArg Sleeplock.pid ((hs.owner q hq).symm.trans hp)
        exact absurd (hpid hpids) hqp
  | @leave k x hpc hw hx hsig =>
    cases k with
    | acquiresleep =>
      cases hx
      have hfree : s.shared.locked = false := hw
      refine ⟨ht, hn, fun q => ?_, fun q hq => ?_, fun _ => ⟨p, by simp [code]⟩⟩
      · by_cases hqp : q = p
        · simp [hqp]
        · rw [hother q hqp]
          exact hs.plain q
      · by_cases hqp : q = p
        · rw [hqp]
          rfl
        · rw [hother q hqp] at hq
          rw [hs.owner q hq] at hfree
          cases hfree
    | releasesleep => cases hsig
  | @release k hpc | @sleep k hpc | @wake l j hpc hown =>
    rw [hpc] at hplain
    exact hs.keeps (p := p) ht hn rfl (by simpa using hplain) (by simp [hpc]) hother
  | @again k hpc hl =>
    rw [hpc] at hplain
    obtain rfl : k = .acquiresleep := by simpa using hplain
    exact hs.keeps (p := p) ht hn rfl (by simp) (by simp [hpc]) hother
  | @woken l j hpc hj =>
    rw [hpc] at hplain
    obtain rfl : l = .outside := by simpa using hplain
    exact hs.keeps (p := p) ht hn rfl (by simp) (by simp [hpc]) hother

theorem Inv.next (hpid : Function.Injective pid) (hs : Inv pid s) (h : Next (code pid) s a t) :
    Inv pid t := by
  have ht := h.sound hs.sound
  have hn : t.NoLost (·.locked = true) := by
    refine h.noLost hs.noLost (fun k hw => ?_) fun hw => ?_
    · cases k with
      | acquiresleep => exact hw
      | releasesleep => cases hw
    · cases h with
      | step hr hm => exact locked_moves hm hw
      | _ => exact .inl hw
  cases h with
  | @call p k l hpc hmay hr hl =>
    refine hs.keeps (p := p) ht hn rfl (by simp) ?_ fun q hq => by simp [hq]
    simp only [State.setPc_pc, Function.update_self, hpc]
    cases l with
    | outside =>
      cases k with
      | acquiresleep => rfl
      | releasesleep => cases hmay
    | holder =>
      cases k with
      | acquiresleep => cases hmay
      | releasesleep => rfl
  | step hr hm => exact hs.moves hpid ht hn hm
  | kill hown | resume hr | yield hr hown => exact ⟨ht, hn, hs.plain, hs.owner, hs.locked⟩

theorem inv_run (hpid : Function.Injective pid) {acts : List (Act N Section)}
    (hr : run (next (code pid)) (init N) acts = some s) : Inv pid s :=
  run_invariant (fun _ _ _ hs hn => hs.next hpid (next_of_eq hn)) inv_init hr

/-- At most one process has the sleep lock, `holdingsleep` tells which, and when the spin lock is
free nobody sleeps on a sleep lock that is not locked. -/
theorem sleeplock_excludes (hpid : Function.Injective pid) (acts : List (Act N Section))
    (hr : run (next (code pid)) (init N) acts = some s) :
    (∀ p q, owns (s.pc p) = true → owns (s.pc q) = true → p = q) ∧
    (∀ p, holdingsleep pid s.shared p = true ↔ owns (s.pc p) = true) ∧
    (s.lock = none → s.shared.locked = false → ∀ p, ¬ (s.proc p).SleepsOn ()) := by
  have hs := inv_run hpid hr
  refine ⟨fun p q hp hq => ?_, fun p => ⟨fun hh => ?_, fun hp => ?_⟩, fun hl hf p hsl => ?_⟩
  · exact hpid (congrArg Sleeplock.pid ((hs.owner p hp).symm.trans (hs.owner q hq)))
  · obtain ⟨hlk, hp⟩ : s.shared.locked = true ∧ s.shared.pid = pid p := by
      simpa [holdingsleep] using hh
    obtain ⟨q, hq⟩ := hs.locked hlk
    rw [hs.owner q hq] at hp
    rwa [← hpid hp]
  · simp [holdingsleep, hs.owner p hp]
  · have hw := hs.noLost.of_free hs.sound hl (.inl hsl)
    rw [hf] at hw
    cases hw

def oneWaits : List (Act 2 Section) :=
  [.resume 0, .resume 1, .call 0 .acquiresleep, .step 0, .call 1 .acquiresleep, .step 1, .step 1,
    .step 1]

theorem sleeplock_excludes_oneWaits : ∃ s ∈ run (next (code fun p : Fin 2 => (p.val : ℤ) + 1))
    (init 2) oneWaits, (s.proc 1).SleepsOn () ∧
      holdingsleep (fun p : Fin 2 => (p.val : ℤ) + 1) s.shared 0 = true ∧
      s.shared.locked ≠ false := by
  have hpid : Function.Injective fun p : Fin 2 => (p.val : ℤ) + 1 := by
    intro p q h
    apply Fin.ext
    simpa using h
  have h : ∃ s ∈ run (next (code fun p : Fin 2 => (p.val : ℤ) + 1)) (init 2) oneWaits,
      (s.proc 1).SleepsOn () ∧ owns (s.pc 0) = true ∧ s.lock = none := by decide +kernel
  obtain ⟨s, hr, hsl, hown, hl⟩ := h
  obtain ⟨_, hhold, hnone⟩ := sleeplock_excludes hpid oneWaits hr
  exact ⟨s, hr, hsl, (hhold 0).mpr hown, fun hf => hnone hl hf 1 hsl⟩

end Xv6.SleepLock
