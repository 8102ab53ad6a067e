import Xv6.Proc.Threads

/-! `kill` and the killed flag. A slot that is not in use has pid 0 and keeps whatever flag it has
until `freeproc` clears it, so a kill with pid 0 marks the next process of the slot. -/
namespace Xv6.Proc
open Transition
variable {N : ℕ} {s t : State N} {p q : Fin N} {ok : Bool} {a : Act N}

/-- The kill of the process in slot `q`, which nobody else notices. -/
@[grind] def KillsOnly (s t : State N) (q : Fin N) : Prop :=
  t.slot = Function.update s.slot q { s.slot q with sched := (s.slot q).sched.kill }

theorem wakeupAt_flag (p : Fin N) (c : Option (Fin N)) (k : ℕ) (q : Fin N) :
    ((s.wakeupAt p c k).slot q).pid = (s.slot q).pid ∧
      ((s.wakeupAt p c k).slot q).sched.killed = (s.slot q).sched.killed ∧
      (((s.wakeupAt p c k).slot q).sched.state = .unused → (s.slot q).sched.state = .unused) := by
  obtain ⟨x, hx, _, hkill, hst⟩ := wakeupAt_slot s p c k q
  grind

/-- What a step of `p` does to the pid and the flag of slot `q`. -/
theorem Moves.flag (h : Moves s p ok t) (q : Fin N) :
    ((t.slot q).pid = (s.slot q).pid ∧ (t.slot q).sched.killed = (s.slot q).sched.killed ∧
      ((t.slot q).sched.state = .unused → (s.slot q).sched.state = .unused)) ∨
    t.slot q = .free ∨
    ((s.slot q).sched.state = .unused ∧ (t.slot q).sched.state = .used ∧
      (t.slot q).sched.killed = (s.slot q).sched.killed) ∨
    (s.pc p = .killScan (s.slot q).pid q.val ∧ KillsOnly s t q) := by
  cases h with
  | @forkFound c hpc hu =>
    obtain rfl | hqc := eq_or_ne q c
    · exact .inr (.inr (.inl (by simp [hu])))
    · exact .inl (by simp [hqc])
  | @forkNoMem c hpc hu | @waitReap _ addr c hk hpc hc hz =>
    obtain rfl | hqc := eq_or_ne q c
    · exact .inr (.inl (by simp))
    · exact .inl (by simp [hqc])
  | @forkParent _ c hpc hl | @forkRunnable _ c hpc | @reparentChild _ st c hpc hc =>
    obtain rfl | hqc := eq_or_ne q c
    · exact .inl (by simp)
    · exact .inl (by simp [hqc])
  | @reparentWake _ st j k hpc hk => exact .inl (wakeupAt_flag p (some s.initproc) k q)
  | @exitWake _ st k hpc hk => exact .inl (wakeupAt_flag p (s.slot p).parent k q)
  | @zombie _ st hpc | @waitSleep _ addr hpc =>
    obtain rfl | hqp := eq_or_ne q p
    · exact .inl (by simp)
    · exact .inl (by simp [hqp])
  | @killHit _ pid c hpc hc =>
    obtain rfl | hqc := eq_or_ne q c
    · exact .inr (.inr (.inr ⟨by rw [hc, hpc], rfl⟩))
    · exact .inl (by simp [hqc])
  | _ => exact .inl ⟨rfl, rfl, id⟩

def Pc.target : Pc N → Option ℤ
  | killScan pid _ => some pid
  | _ => Option.none

attribute [local simp] Pc.target

/-- A slot that is not in use has pid 0 and a clear flag, and nobody looks for pid 0. -/
@[grind cases] structure State.Clean (s : State N) : Prop where
  pid : ∀ q, (s.slot q).sched.state = .unused → (s.slot q).pid = 0
  killed : ∀ q, (s.slot q).sched.state = .unused → (s.slot q).sched.killed = false
  target : ∀ p, (s.pc p).target ≠ some 0

theorem clean_boot (init : Fin N) : (State.boot N init).Clean where
  pid q hq := by
    by_cases hqi : q = init
    · simp [State.boot, hqi] at hq
    · simp [State.boot, hqi, Slot.free]
  killed q _ := by
    simp only [State.boot]
    split <;> rfl
  target p := by
    simp only [State.boot]
    split <;> simp

/-- A call of `kill` names a pid that a process can have. -/
@[grind] def Act.NamesProcess : Act N → Prop
  | .kill _ pid => pid ≠ 0
  | _ => True

instance (a : Act N) : Decidable a.NamesProcess := by
  cases a <;> unfold Act.NamesProcess <;> infer_instance

theorem Moves.target (h : Moves s p ok t) (q : Fin N) :
    (t.pc q).target = none ∨ (t.pc q).target = (s.pc q).target := by
  obtain rfl | hqp := eq_or_ne q p
  · cases h with
    | killMiss hpc hq => exact .inr (by simp [hpc])
    | _ => exact .inl (by simp)
  · by_cases hf : s.pc p = .forkRunnable q
    · exact .inl (by rw [(h.pc_child hqp hf).1]; rfl)
    · exact .inr (by rw [h.pc_other hqp hf])

namespace State.Clean

theorem found (hs : s.Clean) {k : ℕ} (hpc : s.pc p = .killScan (s.slot q).pid k) :
    (s.slot q).sched.state ≠ .unused := by
  intro hu
  have ht := hs.target p
  rw [hpc, hs.pid q hu] at ht
  exact ht rfl

theorem kill_state {x : Sched (Fin N)} (hx : x.state ≠ .unused) : x.kill.state ≠ .unused := by
  rw [Sched.kill_state]
  split
  · simp
  · exact hx

theorem moves (hs : s.Clean) (h : Moves s p ok t) : t.Clean where
  pid q hu := by
    rcases h.flag q with ⟨h1, _, h2⟩ | h1 | ⟨_, h1, _⟩ | ⟨hpc, h1⟩
    · rw [h1]
      exact hs.pid q (h2 hu)
    · rw [h1]
      rfl
    · cases hu.symm.trans h1
    · rw [h1, Function.update_self] at hu
      exact absurd hu (kill_state (hs.found hpc))
  killed q hu := by
    rcases h.flag q with ⟨_, h1, h2⟩ | h1 | ⟨_, h1, _⟩ | ⟨hpc, h1⟩
    · rw [h1]
      exact hs.killed q (h2 hu)
    · rw [h1]
      rfl
    · cases hu.symm.trans h1
    · rw [h1, Function.update_self] at hu
      exact absurd hu (kill_state (hs.found hpc))
  target q := by
    rcases h.target q with h1 | h1
    · rw [h1]
      simp
    · rw [h1]
      exact hs.target q

theorem call (hs : s.Clean) {c : Pc N} (hc : c.target ≠ some 0) : (s.setPc p c).Clean := by
  refine ⟨hs.pid, hs.killed, fun q => ?_⟩
  obtain rfl | hqp := eq_or_ne q p
  · simpa using hc
  · simpa [hqp] using hs.target q

theorem setSched (hs : s.Clean) {x : Sched (Fin N)} (hx : x.state ≠ .unused) :
    (s.setSched q x).Clean := by
  refine ⟨fun r hr => ?_, fun r hr => ?_, hs.target⟩
  · obtain rfl | hrq := eq_or_ne r q
    · exact absurd (by simpa using hr) hx
    · simpa [hrq] using hs.pid r (by simpa [hrq] using hr)
  · obtain rfl | hrq := eq_or_ne r q
    · exact absurd (by simpa using hr) hx
    · simpa [hrq] using hs.killed r (by simpa [hrq] using hr)

end State.Clean

theorem Next.clean (h : Next s a t) (ha : a.NamesProcess) (hs : s.Clean) : t.Clean := by
  cases h with
  | call hc hcall =>
    rcases hcall with ⟨_, rfl⟩ | ⟨_, _, _, rfl⟩ | ⟨_, _, rfl⟩ | ⟨pid, rfl, rfl⟩
    · exact hs.call (by simp)
    · exact hs.call (by simp)
    · exact hs.call (by simp)
    · exact hs.call (by simpa [Act.NamesProcess] using ha)
  | step hr hm => exact hs.moves hm
  | fault hc => exact hs.setSched (by simp [hc.2])
  | resume hr | yield hr => exact hs.setSched (by simp)

/-- A step of `kill` kills the process it has found, or changes no slot. -/
theorem Moves.kill (h : Moves s p ok t) {pid : ℤ} {k : ℕ} (hpc : s.pc p = .killScan pid k) :
    (∃ q, (s.slot q).pid = pid ∧ KillsOnly s t q) ∨
      t.slot = s.slot ∧ ¬ (t.pc p = .user ∧ t.ret p = some 0) := by
  cases h with
  | @killHit _ pid' q hpc' hq => grind
  | killMiss hpc' hq | killNone hpc' hk => exact .inr ⟨rfl, by simp⟩
  | waitLock hpc' _ => rcases hpc' with hpc' | hpc' <;> simp [hpc] at hpc'
  | _ => simp_all

/-- A flag is raised by the fault of the process or by a kill that names its pid. -/
theorem Next.killed (h : Next s a t) (hq : (s.slot q).sched.killed = false)
    (hq' : (t.slot q).sched.killed = true) :
    a = .fault q ∨ ∃ p ok k, a = .step p ok ∧ s.pc p = .killScan (s.slot q).pid k := by
  cases h with
  | call hc hcall => cases hq.symm.trans hq'
  | @step p ok t hr hm =>
    rcases hm.flag q with ⟨_, h1, _⟩ | h1 | ⟨_, _, h1⟩ | ⟨hpc, _⟩
    · rw [h1, hq] at hq'
      cases hq'
    · rw [h1] at hq'
      cases hq'
    · rw [h1, hq] at hq'
      cases hq'
    · exact .inr ⟨p, ok, q.val, rfl, hpc⟩
  | @fault p hc =>
    by_cases hqp : q = p
    · exact .inl (by rw [hqp])
    · cases hq.symm.trans (by simpa [hqp] using hq')
  | @resume p hr | @yield p hr hl =>
    obtain rfl | hqp := eq_or_ne q p
    · cases hq.symm.trans (by simpa using hq')
    · cases hq.symm.trans (by simpa [hqp] using hq')

theorem Next.fresh (h : Next s a t) (hs : s.Clean) (hq : (s.slot q).sched.state = .unused)
    (hq' : (t.slot q).sched.state ≠ .unused) : (t.slot q).sched.killed = false := by
  by_contra hk
  rw [Bool.not_eq_false] at hk
  rcases h.killed (hs.killed q hq) hk with rfl | ⟨p, ok, k, _, hpc⟩
  · cases h with
    | call hc hcall => simp at hcall
    | fault hc => cases hq.symm.trans hc.2
  · exact hs.found hpc hq

theorem clean_run {init : Fin N} {acts : List (Act N)} (ha : ∀ a ∈ acts, a.NamesProcess)
    (hr : run State.next (State.boot N init) acts = some s) : s.Clean :=
  run_invariant_of_meets (C := fun _ a => a.NamesProcess)
    (fun _ _ _ hs ha ht => (next_of_eq ht).clean ha hs) (clean_boot init) (meets_of_forall ha _) hr

/-- As long as nobody calls `kill(0)`: a `kill` that returns 0 has killed a process with that pid
and nothing else, a new process is not killed, and it becomes so only by a `kill` that names its pid
or by its own fault. -/
theorem kill_reaches_target (init : Fin N) (acts : List (Act N)) (ha : ∀ a ∈ acts, a.NamesProcess)
    (hr : run State.next (State.boot N init) acts = some s) :
    (∀ p ok t pid k, s.pc p = .killScan pid k → s.next (.step p ok) = some t →
      (∃ q, (s.slot q).sched.state ≠ .unused ∧ (s.slot q).pid = pid ∧ KillsOnly s t q) ∨
      t.slot = s.slot ∧ ¬ (t.pc p = .user ∧ t.ret p = some 0)) ∧
    (∀ a t q, s.next a = some t → (s.slot q).sched.state = .unused →
      (t.slot q).sched.state ≠ .unused → (t.slot q).sched.killed = false) ∧
    ∀ a t q, s.next a = some t → (s.slot q).sched.killed = false →
      (t.slot q).sched.killed = true → (s.slot q).sched.state ≠ .unused ∧
        (a = .fault q ∨ ∃ p ok k, a = .step p ok ∧ s.pc p = .killScan (s.slot q).pid k) := by
  have hs := clean_run ha hr
  refine ⟨fun p ok t pid k hpc ht => ?_, fun a t q ht hq hq' => (next_of_eq ht).fresh hs hq hq',
    fun a t q ht hq hq' => ?_⟩
  · cases next_of_eq ht with
    | call hc hcall => simp at hcall
    | step _ hm =>
      rcases hm.kill hpc with ⟨q, hq, hkill⟩ | h
      · exact .inl ⟨q, hs.found (by rw [hpc, hq]), hq, hkill⟩
      · exact .inr h
  · have hcause := (next_of_eq ht).killed hq hq'
    refine ⟨fun hu => ?_, hcause⟩
    rcases hcause with rfl | ⟨p, ok, k, _, hpc⟩
    · cases next_of_eq ht with
      | call hc hcall => simp at hcall
      | fault hc => cases hu.symm.trans hc.2
    · exact hs.found hpc hu

def killChild : List (Act nproc) :=
  [.resume 0, .fork 0, .step 0 true, .step 0 true, .step 0 true, .step 0 true, .kill 0 2,
    .step 0 true]

theorem kill_reaches_target_child : ∃ s ∈ run State.next (State.boot nproc 0) killChild,
    s.pc 0 = .killScan 2 1 ∧ ∀ t, s.next (.step 0 true) = some t → t.ret 0 = some 0 →
      t.pc 0 = .user → ∃ q, (s.slot q).sched.state ≠ .unused ∧ (s.slot q).pid = 2 ∧
        KillsOnly s t q := by
  have h : ∃ s ∈ run State.next (State.boot nproc 0) killChild, s.pc 0 = .killScan 2 1 := by
    decide +kernel
  obtain ⟨s, hr, hpc⟩ := h
  refine ⟨s, hr, hpc, fun t ht h0 hu => ?_⟩
  rcases (kill_reaches_target 0 killChild (by decide +kernel) hr).1 0 true t 2 1 hpc ht with h | h
  · exact h
  · exact absurd ⟨hu, h0⟩ h.2

/-- The first process, with pid 1, calls `kill(0)`, which returns 0 and marks an unused slot; the
child that it then forks has the slot and is killed from the start. -/
theorem kill_zero_kills_next_child :
    (∃ s ∈ run State.next (State.boot nproc 0) [.resume 0, .kill 0 0, .step 0 true, .step 0 true],
      s.pc 0 = .user ∧ s.ret 0 = some 0 ∧ (s.slot 1).sched.killed = true ∧
        ∀ q, (s.slot q).pid = 0 → (s.slot q).sched.state = .unused) ∧
    ∃ s ∈ run State.next (State.boot nproc 0)
        [.resume 0, .kill 0 0, .step 0 true, .step 0 true, .fork 0, .step 0 true, .step 0 true,
          .step 0 true, .step 0 true],
      s.ret 0 = some 2 ∧ (s.slot 1).pid = 2 ∧ (s.slot 1).sched.state = .runnable ∧
        (s.slot 1).sched.killed = true := by
  decide +kernel

end Xv6.Proc
