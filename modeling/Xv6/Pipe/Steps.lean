import Xv6.Pipe.Model

/-! What a step of a process can do, once for all invariants, and that `pi->lock` is a lock. -/
namespace Xv6.Pipe
open Proc
variable {N : ℕ}

inductive Moves (s : State N) (p : Fin N) : Option UInt8 → State N → Prop
  | writeEnd {copy n i} (hpc : s.pc p = .writeTest n i) (hi : ¬ (i : ℤ) < n) :
      Moves s p copy (s.setPc p (.writeWake i 0))
  | writeGiveUp {copy n i} (hpc : s.pc p = .writeTest n i) (hi : (i : ℤ) < n)
      (hc : s.pi.readopen = false ∨ (s.proc p).killed = true) : Moves s p copy (s.leave p (-1))
  | writeGoOn {copy n i} (hpc : s.pc p = .writeTest n i) (hi : (i : ℤ) < n)
      (hr : s.pi.readopen = true) (hk : (s.proc p).killed = false) :
      Moves s p copy (s.setPc p (.writeBody n i))
  | full {copy n i} (hpc : s.pc p = .writeBody n i) (hf : s.pi.ring.Full) :
      Moves s p copy (s.setPc p (.fullWake n i 0))
  | copyinFails {n i} (hpc : s.pc p = .writeBody n i) (hf : ¬ s.pi.ring.Full) :
      Moves s p none (s.setPc p (.writeWake i 0))
  | store {n i} (ch : UInt8) (hpc : s.pc p = .writeBody n i) (hf : ¬ s.pi.ring.Full) :
      Moves s p (some ch) ((s.store ch).setPc p (.writeTest n (i + 1)))
  | fullWake {copy n i k} (hpc : s.pc p = .fullWake n i k) (hk : k < N) :
      Moves s p copy ((s.wakeupAt p .nread k).setPc p (.fullWake n i (k + 1)))
  | fullWoken {copy n i k} (hpc : s.pc p = .fullWake n i k) (hk : N ≤ k) :
      Moves s p copy (s.setPc p (.writeSleep n i))
  | writeSleep {copy n i} (hpc : s.pc p = .writeSleep n i) :
      Moves s p copy ((s.sleep p .nwrite).setPc p (.writeAsleep n i))
  | writeAgain {copy n i} (hpc : s.pc p = .writeAsleep n i) (hl : s.lock = none)
      (hf : s.freed = false) : Moves s p copy ((s.acquire p).setPc p (.writeTest n i))
  | writeWake {copy i k} (hpc : s.pc p = .writeWake i k) (hk : k < N) :
      Moves s p copy ((s.wakeupAt p .nread k).setPc p (.writeWake i (k + 1)))
  | writeReturn {copy i k} (hpc : s.pc p = .writeWake i k) (hk : N ≤ k) :
      Moves s p copy (s.leave p i)
  | readGiveUp {copy n} (hpc : s.pc p = .readTest n) (he : s.pi.ring.Empty)
      (hw : s.pi.writeopen = true) (hk : (s.proc p).killed = true) : Moves s p copy (s.leave p (-1))
  | readWait {copy n} (hpc : s.pc p = .readTest n) (he : s.pi.ring.Empty)
      (hw : s.pi.writeopen = true) (hk : (s.proc p).killed = false) :
      Moves s p copy (s.setPc p (.readSleep n))
  | readGoOn {copy n} (hpc : s.pc p = .readTest n)
      (hc : ¬ (s.pi.ring.Empty ∧ s.pi.writeopen = true)) :
      Moves s p copy (s.setPc p (.readCopy n 0))
  | readSleep {copy n} (hpc : s.pc p = .readSleep n) :
      Moves s p copy ((s.sleep p .nread).setPc p (.readAsleep n))
  | readAgain {copy n} (hpc : s.pc p = .readAsleep n) (hl : s.lock = none) (hf : s.freed = false) :
      Moves s p copy ((s.acquire p).setPc p (.readTest n))
  | readEmpty {copy n i} (hpc : s.pc p = .readCopy n i) (hi : (i : ℤ) < n)
      (he : s.pi.ring.Empty) : Moves s p copy (s.setPc p (.readWake n i 0))
  | take {n i} (ch : UInt8) (hpc : s.pc p = .readCopy n i) (hi : (i : ℤ) < n)
      (he : ¬ s.pi.ring.Empty) : Moves s p (some ch) ((s.take true).setPc p (.readCopy n (i + 1)))
  | copyoutFails {n i} (hpc : s.pc p = .readCopy n i) (hi : (i : ℤ) < n)
      (he : ¬ s.pi.ring.Empty) : Moves s p none ((s.take false).setPc p (.readWake n i 0))
  | readEnd {copy n i} (hpc : s.pc p = .readCopy n i) (hi : ¬ (i : ℤ) < n) :
      Moves s p copy (s.setPc p (.readWake n i 0))
  | readWake {copy n i k} (hpc : s.pc p = .readWake n i k) (hk : k < N) :
      Moves s p copy ((s.wakeupAt p .nwrite k).setPc p (.readWake n i (k + 1)))
  | readReturn {copy n i k} (hpc : s.pc p = .readWake n i k) (hk : N ≤ k) :
      Moves s p copy (s.leave p i)
  | closeWake {copy w k} (hpc : s.pc p = .closeWake w k) (hk : k < N) :
      Moves s p copy ((s.wakeupAt p (closeChan w) k).setPc p (.closeWake w (k + 1)))
  | closeReturn {copy w k} (hpc : s.pc p = .closeWake w k) (hk : N ≤ k) :
      Moves s p copy { s.leave p 0 with freed := s.pi.readopen == false && s.pi.writeopen == false }

variable {s t : State N} {p : Fin N} {copy : Option UInt8}

theorem moves_of_step (h : step s p copy = some t) : Moves s p copy t := by
  unfold step at h
  split at h
  · cases h
  next n i hpc =>
    split at h
    next hi =>
      split at h
      next hc =>
        cases h
        exact .writeGiveUp hpc hi hc
      next hc =>
        cases h
        rw [not_or, Bool.not_eq_false, Bool.not_eq_true] at hc
        exact .writeGoOn hpc hi hc.1 hc.2
    next hi =>
      cases h
      exact .writeEnd hpc hi
  next n i hpc =>
    split at h
    next hf =>
      cases h
      exact .full hpc hf
    next hf =>
      split at h
      · cases h
        exact .copyinFails hpc hf
      next ch =>
        cases h
        exact .store ch hpc hf
  next n i k hpc =>
    split at h
    next hk =>
      cases h
      exact .fullWake hpc hk
    next hk =>
      cases h
      exact .fullWoken hpc (Nat.le_of_not_lt hk)
  next n i hpc =>
    cases h
    exact .writeSleep hpc
  next n i hpc =>
    split at h
    next hc =>
      cases h
      exact .writeAgain hpc hc.1 hc.2
    · cases h
  next i k hpc =>
    split at h
    next hk =>
      cases h
      exact .writeWake hpc hk
    next hk =>
      cases h
      exact .writeReturn hpc (Nat.le_of_not_lt hk)
  next n hpc =>
    split at h
    next hc =>
      split at h
      next hk =>
        cases h
        exact .readGiveUp hpc hc.1 hc.2 hk
      next hk =>
        cases h
        exact .readWait hpc hc.1 hc.2 (by simpa using hk)
    next hc =>
      cases h
      exact .readGoOn hpc hc
  next n hpc =>
    cases h
    exact .readSleep hpc
  next n hpc =>
    split at h
    next hc =>
      cases h
      exact .readAgain hpc hc.1 hc.2
    · cases h
  next n i hpc =>
    split at h
    next hi =>
      split at h
      next he =>
        cases h
        exact .readEmpty hpc hi he
      next he =>
        split at h
        next hc =>
          cases h
          obtain ⟨ch, rfl⟩ := Option.isSome_iff_exists.mp hc
          exact .take ch hpc hi he
        next hc =>
          cases h
          obtain rfl := Option.not_isSome_iff_eq_none.mp hc
          exact .copyoutFails hpc hi he
    next hi =>
      cases h
      exact .readEnd hpc hi
  next n i k hpc =>
    split at h
    next hk =>
      cases h
      exact .readWake hpc hk
    next hk =>
      cases h
      exact .readReturn hpc (Nat.le_of_not_lt hk)
  next w k hpc =>
    split at h
    next hk =>
      cases h
      exact .closeWake hpc hk
    next hk =>
      cases h
      exact .closeReturn hpc (Nat.le_of_not_lt hk)

/-- A process at a program point inside the critical section has the lock. -/
@[grind] def State.Exclusive (s : State N) : Prop := ∀ p, (s.pc p).holds = true → s.lock = some p

theorem Moves.pc_other (h : Moves s p copy t) {q : Fin N} (hq : q ≠ p) : t.pc q = s.pc q := by
  cases h <;> simp [hq]

/-- A step stays in the critical section, leaves it, or enters it when the lock is free. -/
theorem Moves.control (h : Moves s p copy t) :
    ((s.pc p).holds = true ∧ t.lock = s.lock ∧ (t.pc p).holds = true) ∨
    ((s.pc p).holds = true ∧ t.lock = none ∧ (t.pc p).holds = false) ∨
    ((s.pc p).holds = false ∧ s.lock = none ∧ t.lock = some p) := by
  cases h <;> simp_all [Pc.holds]

theorem Moves.exclusive (h : Moves s p copy t) (hs : s.Exclusive) : t.Exclusive := by
  intro q hq
  obtain rfl | hqp := eq_or_ne q p
  · rcases h.control with ⟨hp, hl, _⟩ | ⟨_, _, hn⟩ | ⟨_, _, hl⟩
    · rw [hl, hs q hp]
    · rw [hn] at hq
      cases hq
    · exact hl
  · rw [h.pc_other hqp] at hq
    have hlq := hs q hq
    rcases h.control with ⟨hp, _⟩ | ⟨hp, _⟩ | ⟨_, hl, _⟩
    · grind
    · grind
    · rw [hl] at hlq
      cases hlq

inductive Next (s : State N) : Act N → State N → Prop
  | write {p : Fin N} {n : ℤ} (hc : s.CanCall p) :
      Next s (.write p n) ((s.acquire p).setPc p (.writeTest n 0))
  | read {p : Fin N} {n : ℤ} (hc : s.CanCall p) :
      Next s (.read p n) ((s.acquire p).setPc p (.readTest n))
  | close {p : Fin N} {w : Bool} (hc : s.CanCall p) :
      Next s (.close p w) (((s.acquire p).closeEnd w).setPc p (.closeWake w 0))
  | step {p : Fin N} {copy : Option UInt8} {t : State N} (hr : (s.proc p).state = .running)
      (hm : Moves s p copy t) : Next s (.step p copy) t
  | kill {p : Fin N} : Next s (.kill p) (s.setProc p (s.proc p).kill)
  | resume {p : Fin N} (hr : (s.proc p).state = .runnable) :
      Next s (.resume p) (s.setProc p (s.proc p).resume)
  | yield {p : Fin N} (hr : (s.proc p).state = .running) (hl : (s.pc p).holds = false) :
      Next s (.yield p) (s.setProc p (s.proc p).yield)

theorem next_of_eq {a : Act N} (h : s.next a = some t) : Next s a t := by
  cases a with
  | kill p =>
    cases h
    exact .kill
  | step p copy =>
    simp only [State.next] at h
    split at h
    next hr => exact .step hr (moves_of_step h)
    · cases h
  | yield p =>
    simp only [State.next] at h
    split at h
    next hr =>
      cases h
      exact .yield hr.1 hr.2
    · cases h
  | _ =>
    simp only [State.next] at h
    split at h
    next hc =>
      cases h
      constructor
      exact hc
    · cases h

theorem State.Exclusive.call (hs : s.Exclusive) (hc : s.CanCall p) (c : Pc) (ht : t.lock = some p)
    (hpc : t.pc = Function.update s.pc p c) : t.Exclusive := by
  intro q hq
  by_cases hqp : q = p
  · rw [hqp, ht]
  · rw [hpc, Function.update_of_ne hqp] at hq
    have hl := hs q hq
    rw [hc.2.2.1] at hl
    cases hl

theorem Next.exclusive {a : Act N} (h : Next s a t) (hs : s.Exclusive) : t.Exclusive := by
  cases h with
  | write hc | read hc | close hc => exact hs.call hc _ rfl rfl
  | step _ hm => exact hm.exclusive hs
  | kill | resume | yield => exact hs

theorem Next.pc_other {a : Act N} (h : Next s a t) {q : Fin N} (ha : ∀ copy, a ≠ .step q copy) :
    t.pc q = s.pc q ∨ (∃ n, t.pc q = .writeTest n 0) ∨ (∃ n, t.pc q = .readTest n) ∨
      ∃ w, t.pc q = .closeWake w 0 := by
  cases h with
  | @write p n hc =>
    by_cases hqp : q = p
    · exact .inr (.inl ⟨n, by simp [hqp]⟩)
    · exact .inl (by simp [hqp])
  | @read p n hc =>
    by_cases hqp : q = p
    · exact .inr (.inr (.inl ⟨n, by simp [hqp]⟩))
    · exact .inl (by simp [hqp])
  | @close p w hc =>
    by_cases hqp : q = p
    · exact .inr (.inr (.inr ⟨w, by simp [hqp]⟩))
    · exact .inl (by simp [hqp])
  | @step p copy _ _ hm =>
    refine .inl (hm.pc_other ?_)
    rintro rfl
    exact ha copy rfl
  | kill | resume | yield => exact .inl rfl

theorem exclusive_init (data : Fin pipesize → UInt8) : (State.init N data).Exclusive := by
  intro p hp
  simp [State.init, Pc.holds] at hp

end Xv6.Pipe
