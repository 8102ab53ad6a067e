import Xv6.Proc.Wait

/-! The history of `exit` and `wait`: every exit is followed by at most one reap, and until then the
process is a zombie with the status it passed. -/
namespace Xv6.Proc
open Transition List
attribute [local simp] Slot.free
variable {N : ℕ} {s t : State N} {p q : Fin N} {ok : Bool} {a : Act N}

/-- The process that the event is about, and whether it is the reap. -/
def Event.key : Event N → Fin N × ℕ × Bool
  | exited q g _ => (q, g, false)
  | reaped q g _ _ _ => (q, g, true)

attribute [local simp] Event.key

@[grind cases] structure SameLife (s t : State N) (q : Fin N) : Prop where
  gen : t.gen q = s.gen q
  zombie : (t.slot q).sched.state = .zombie ↔ (s.slot q).sched.state = .zombie
  unused : (t.slot q).sched.state = .unused ↔ (s.slot q).sched.state = .unused
  xstate : (s.slot q).sched.state = .zombie → (t.slot q).xstate = (s.slot q).xstate

theorem sameLife_of_eq (hg : t.gen q = s.gen q) (hq : t.slot q = s.slot q) : SameLife s t q :=
  ⟨hg, by rw [hq], by rw [hq], fun _ => by rw [hq]⟩

/-- A change of the state alone, between states that are neither zombie nor unused. -/
theorem sameLife_of_alive (hg : t.gen q = s.gen q)
    (h : (t.slot q).sched.state = (s.slot q).sched.state ∨
      ((s.slot q).sched.state ≠ .zombie ∧ (s.slot q).sched.state ≠ .unused) ∧
        (t.slot q).sched.state ≠ .zombie ∧ (t.slot q).sched.state ≠ .unused)
    (hx : (t.slot q).xstate = (s.slot q).xstate) : SameLife s t q := by
  rcases h with h | ⟨⟨h1, h2⟩, h3, h4⟩
  · exact ⟨hg, by rw [h], by rw [h], fun _ => hx⟩
  · exact ⟨hg, iff_of_false h3 h1, iff_of_false h4 h2, fun _ => hx⟩

inductive Records (s : State N) (p : Fin N) (t : State N) : Prop
  | nothing (he : t.events = s.events) (h : ∀ q, SameLife s t q ∨
      t.gen q = s.gen q + 1 ∧ (s.slot q).sched.state = .unused ∧ (t.slot q).sched.state = .used)
  | exit (he : t.events = .exited p (s.gen p) (t.slot p).xstate :: s.events)
      (hg : t.gen p = s.gen p) (hr : (s.slot p).sched.state = .running)
      (hz : (t.slot p).sched.state = .zombie) (h : ∀ q, q ≠ p → SameLife s t q)
  | reap (q : Fin N)
      (he : t.events = .reaped q (s.gen q) (s.slot q).xstate (s.slot q).parent p :: s.events)
      (hg : t.gen q = s.gen q) (hz : (s.slot q).sched.state = .zombie)
      (hp : (s.slot q).parent = some p) (hu : (t.slot q).sched.state = .unused)
      (h : ∀ r, r ≠ q → SameLife s t r)

theorem sameLife_wakeupAt (p : Fin N) (c : Option (Fin N)) (k : ℕ) (hg : t.gen q = s.gen q)
    (h : t.slot q = (s.wakeupAt p c k).slot q) : SameLife s t q := by
  obtain ⟨x, hx, _, _, hst⟩ := wakeupAt_slot s p c k q
  rw [hx] at h
  refine sameLife_of_alive hg ?_ (by rw [h])
  grind

theorem Moves.records (h : Moves s p ok t) (ht : s.Threads)
    (hr : (s.slot p).sched.state = .running) : Records s p t := by
  cases h with
  | @forkFound c hpc hu =>
    refine .nothing rfl fun q => ?_
    obtain rfl | hqc := eq_or_ne q c
    · exact .inr (by simp [hu])
    · exact .inl (sameLife_of_eq (by simp [hqc]) (by simp [hqc]))
  | @forkNoMem c hpc hu =>
    refine .nothing rfl fun q => .inl ?_
    obtain rfl | hqc := eq_or_ne q c
    · exact ⟨rfl, by simp [hu], by simp [hu], by simp [hu]⟩
    · exact sameLife_of_eq rfl (by simp [hqc])
  | @forkParent _ c hpc hl | @reparentChild _ st c hpc hc =>
    refine .nothing rfl fun q => .inl ?_
    obtain rfl | hqc := eq_or_ne q c
    · exact sameLife_of_alive rfl (.inl (by simp)) (by simp)
    · exact sameLife_of_eq rfl (by simp [hqc])
  | @forkRunnable _ c hpc =>
    refine .nothing rfl fun q => .inl ?_
    obtain rfl | hqc := eq_or_ne q c
    · have hu := ht.child p q (by rw [hpc]; rfl)
      exact sameLife_of_alive rfl (.inr (by simp [hu])) (by simp)
    · exact sameLife_of_eq rfl (by simp [hqc])
  | @reparentWake _ st j k hpc hk =>
    exact .nothing rfl fun q => .inl (sameLife_wakeupAt p (some s.initproc) k rfl rfl)
  | @exitWake _ st k hpc hk =>
    exact .nothing rfl fun q => .inl (sameLife_wakeupAt p (s.slot p).parent k rfl rfl)
  | @zombie _ st hpc =>
    exact .exit (by simp) rfl hr (by simp) fun q hqp => sameLife_of_eq rfl (by simp [hqp])
  | @waitReap _ addr c hk hpc hc hz =>
    exact .reap c rfl rfl hz hc (by simp) fun r hrc => sameLife_of_eq rfl (by simp [hrc])
  | @waitSleep _ addr hpc =>
    refine .nothing rfl fun q => .inl ?_
    obtain rfl | hqp := eq_or_ne q p
    · exact sameLife_of_alive rfl (.inr (by simp [hr])) (by simp)
    · exact sameLife_of_eq rfl (by simp [hqp])
  | @killHit _ pid c hpc hc =>
    refine .nothing rfl fun q => .inl ?_
    obtain rfl | hqc := eq_or_ne q c
    · by_cases hst : (s.slot q).sched.state = .sleeping
      · exact sameLife_of_alive rfl (.inr (by simp [hst])) (by simp)
      · exact sameLife_of_alive rfl (.inl (by simp [hst])) (by simp)
    · exact sameLife_of_eq rfl (by simp [hqc])
  | _ => exact .nothing rfl fun q => .inl (sameLife_of_eq rfl rfl)

@[grind cases] structure State.Ledger (s : State N) : Prop where
  zombie : ∀ q, (s.slot q).sched.state = .zombie → .exited q (s.gen q) (s.slot q).xstate ∈ s.events
  exited : ∀ q g st, .exited q g st ∈ s.events →
    (g < s.gen q ∨ g = s.gen q ∧ (s.slot q).sched.state = .unused) ∧
        (∃ x, .reaped q g st (some x) x ∈ s.events) ∨
      g = s.gen q ∧ (s.slot q).sched.state = .zombie ∧ (s.slot q).xstate = st
  reaped : ∀ q g st par r, .reaped q g st par r ∈ s.events →
    par = some r ∧ .exited q g st ∈ s.events ∧
      (g < s.gen q ∨ g = s.gen q ∧ (s.slot q).sched.state = .unused)
  once : (s.events.map Event.key).Nodup

theorem ledger_boot (init : Fin N) : (State.boot N init).Ledger where
  zombie q hq := by
    simp only [State.boot] at hq
    split at hq <;> simp at hq
  exited := by simp [State.boot]
  reaped := by simp [State.boot]
  once := by simp [State.boot]

namespace State.Ledger

theorem past_of_sameLife {g : ℕ} (h : SameLife s t q ∨
      t.gen q = s.gen q + 1 ∧ (s.slot q).sched.state = .unused ∧ (t.slot q).sched.state = .used)
    (hg : g < s.gen q ∨ g = s.gen q ∧ (s.slot q).sched.state = .unused) :
    g < t.gen q ∨ g = t.gen q ∧ (t.slot q).sched.state = .unused := by grind

variable (hs : s.Ledger)
include hs

theorem nothing (he : t.events = s.events) (h : ∀ q, SameLife s t q ∨
      t.gen q = s.gen q + 1 ∧ (s.slot q).sched.state = .unused ∧ (t.slot q).sched.state = .used) :
    t.Ledger where
  zombie q hq := by grind
  exited q g st hm := by grind
  reaped q g st par r hm := by grind
  once := by
    rw [he]
    exact hs.once

theorem key_exited {g : ℕ} (hm : (q, g, false) ∈ s.events.map Event.key) :
    g < s.gen q ∨ g = s.gen q ∧
      ((s.slot q).sched.state = .unused ∨ (s.slot q).sched.state = .zombie) := by
  obtain ⟨e, he, hk⟩ := mem_map.mp hm
  cases e with
  | exited q' g' st =>
    obtain ⟨rfl, rfl⟩ : q' = q ∧ g' = g := by simpa using hk
    grind
  | reaped => simp at hk

theorem key_reaped {g : ℕ} (hm : (q, g, true) ∈ s.events.map Event.key) :
    g < s.gen q ∨ g = s.gen q ∧ (s.slot q).sched.state = .unused := by
  obtain ⟨e, he, hk⟩ := mem_map.mp hm
  cases e with
  | exited => simp at hk
  | reaped q' g' st par r =>
    obtain ⟨rfl, rfl⟩ : q' = q ∧ g' = g := by simpa using hk
    exact (hs.reaped q' g' st par r he).2.2

theorem exit (he : t.events = .exited p (s.gen p) (t.slot p).xstate :: s.events)
    (hg : t.gen p = s.gen p) (hr : (s.slot p).sched.state = .running)
    (hz : (t.slot p).sched.state = .zombie) (h : ∀ q ≠ p, SameLife s t q) : t.Ledger where
  zombie q hq := by
    rw [he]
    obtain rfl | hqp := eq_or_ne q p
    · rw [hg]
      exact (.head _)
    · have hz := (h q hqp).zombie.mp hq
      rw [(h q hqp).gen, (h q hqp).xstate hz]
      exact mem_cons_of_mem _ (hs.zombie q hz)
  exited q g st hm := by
    rw [he, mem_cons] at hm
    rw [he]
    rcases hm with hm | hm
    · grind
    rcases hs.exited q g st hm with ⟨hpast, x, hx⟩ | ⟨hgq, hzq, hxq⟩
    · refine .inl ⟨?_, x, mem_cons_of_mem _ hx⟩
      obtain rfl | hqp := eq_or_ne q p
      · grind
      · exact past_of_sameLife (.inl (h q hqp)) hpast
    · have hqp : q ≠ p := by
        rintro rfl
        cases hr.symm.trans hzq
      have hl := h q hqp
      grind
  reaped q g st par r hm := by
    rw [he] at hm ⊢
    have hm : .reaped q g st par r ∈ s.events := by simpa using hm
    obtain ⟨h1, h2, hpast⟩ := hs.reaped q g st par r hm
    refine ⟨h1, mem_cons_of_mem _ h2, ?_⟩
    obtain rfl | hqp := eq_or_ne q p
    · grind
    · exact past_of_sameLife (.inl (h q hqp)) hpast
  once := by
    rw [he, map_cons, nodup_cons]
    refine ⟨fun hm => ?_, hs.once⟩
    rcases hs.key_exited hm with hlt | ⟨_, hu | hu⟩
    · exact absurd hlt (lt_irrefl _)
    · cases hr.symm.trans hu
    · cases hr.symm.trans hu

theorem reap (he : t.events = .reaped q (s.gen q) (s.slot q).xstate (s.slot q).parent p :: s.events)
    (hg : t.gen q = s.gen q) (hz : (s.slot q).sched.state = .zombie)
    (hp : (s.slot q).parent = some p) (hu : (t.slot q).sched.state = .unused)
    (h : ∀ r ≠ q, SameLife s t r) : t.Ledger := by
  have hpast r g (hg' : g < s.gen r ∨ g = s.gen r ∧ (s.slot r).sched.state = .unused) :
      g < t.gen r ∨ g = t.gen r ∧ (t.slot r).sched.state = .unused := by
    obtain rfl | hrq := eq_or_ne r q
    · grind
    · exact past_of_sameLife (.inl (h r hrq)) hg'
  have hnow := hs.zombie q hz
  refine ⟨fun r hr => ?_, fun r g st hm => ?_, fun r g st par x hm => ?_, ?_⟩
  · have hrq : r ≠ q := by
      rintro rfl
      cases hr.symm.trans hu
    have hzr := (h r hrq).zombie.mp hr
    rw [he, (h r hrq).gen, (h r hrq).xstate hzr]
    exact mem_cons_of_mem _ (hs.zombie r hzr)
  · rw [he] at hm ⊢
    have hm : .exited r g st ∈ s.events := by simpa using hm
    rcases hs.exited r g st hm with ⟨h1, x, hx⟩ | ⟨h1, h2, h3⟩
    · exact .inl ⟨hpast r g h1, x, mem_cons_of_mem _ hx⟩
    obtain rfl | hrq := eq_or_ne r q
    · grind
    · have hl := h r hrq
      grind
  · grind
  · rw [he, map_cons, nodup_cons]
    refine ⟨fun hm => ?_, hs.once⟩
    rcases hs.key_reaped hm with hlt | ⟨_, hun⟩
    · exact absurd hlt (lt_irrefl _)
    · cases hz.symm.trans hun

theorem setSched {x : Sched (Fin N)} (hq : ¬ (s.slot q).sched.state.Idle)
    (hx : ¬ x.state.Idle) : (s.setSched q x).Ledger := by
  refine hs.nothing rfl fun r => .inl ?_
  obtain rfl | hrq := eq_or_ne r q
  · refine sameLife_of_alive rfl (.inr ?_) (by simp)
    simp only [ProcState.Idle, not_or] at hq hx
    exact ⟨⟨hq.2.2, hq.1⟩, by simpa using hx.2.2, by simpa using hx.1⟩
  · exact sameLife_of_eq rfl (by simp [hrq])

end State.Ledger

theorem Next.ledger (h : Next s a t) (ht : s.Threads) (hs : s.Ledger) : t.Ledger := by
  cases h with
  | call hc hcall => exact hs.nothing rfl fun q => .inl (sameLife_of_eq rfl rfl)
  | step hr hm =>
    cases hm.records ht hr with
    | nothing he h => exact hs.nothing he h
    | exit he hg hr hz h => exact hs.exit he hg hr hz h
    | reap q he hg hz hp hu h => exact hs.reap he hg hz hp hu h
  | fault hc => refine hs.setSched ?_ ?_ <;> simp [hc.2, ProcState.Idle]
  | resume hr | yield hr => refine hs.setSched ?_ ?_ <;> simp [hr, ProcState.Idle]

def Pc.waits : Pc N → Bool
  | waitLock _ | waitScan _ _ _ | waitTest _ _ | waitSleep _ | waitAsleep _ => true
  | _ => false

@[grind cases] structure State.Lives (s : State N) : Prop where
  threads : s.Threads
  family : s.Family
  waits : s.Waits
  ledger : s.Ledger

theorem lives_run {init : Fin N} {acts : List (Act N)}
    (hr : run State.next (State.boot N init) acts = some s) : s.Lives := by
  refine run_invariant (fun s a t hs ht => ?_) (I := State.Lives)
    ⟨threads_boot init, family_boot init, waits_boot init, ledger_boot init⟩ hr
  have hn := next_of_eq ht
  exact ⟨hn.threads hs.threads, hn.family hs.threads hs.family,
    hn.waits hs.threads hs.family hs.waits, hn.ledger hs.threads hs.ledger⟩

theorem Next.initproc (h : Next s a t) : t.initproc = s.initproc := by
  cases h with
  | step hr hm => exact hm.initproc
  | _ => rfl

theorem initproc_run {init : Fin N} {acts : List (Act N)}
    (hr : run State.next (State.boot N init) acts = some s) : s.initproc = init :=
  run_invariant (I := fun s => s.initproc = init)
    (fun _ _ _ hs ht => (next_of_eq ht).initproc.trans hs) rfl hr

theorem Moves.wait_fails (h : Moves s p ok t) (hs : s.Waits) (hw : (s.pc p).waits = true)
    (hu : t.pc p = .user) (hn : t.ret p = none) :
    (∀ q, (s.slot q).parent ≠ some p) ∨ (s.slot p).sched.killed = true ∨
      ok = false ∧ t.slot = s.slot ∧ ∃ q, s.ZombieChild p q := by
  cases h with
  | @waitCopyFails addr q hk hpc hq hz ha => exact .inr (.inr ⟨rfl, rfl, q, hq, hz⟩)
  | @waitFails _ addr hk hpc hc =>
    rcases hc with rfl | hc
    · refine .inl fun q hq => ?_
      have hk := (hs.scan p q (by rw [hpc]; trivial) hq).2
      rw [hpc] at hk
      cases hk
    · exact .inr (.inl hc)
  | forkNoMem hpc | forkNone hpc | killNone hpc => simp [hpc, Pc.waits] at hw
  | _ => simp at hu hn

/-- Whenever `wait_lock` is free, nobody sleeps on a zombie child. -/
theorem State.Waits.free (hs : s.Waits) (ht : s.Threads) (hl : s.waitLock = none)
    (hp : (s.slot p).sched.state = .sleeping) : ¬ s.ZombieChild p q := by
  intro hq
  obtain ⟨_, r, st, j, k, hpc, _⟩ := hs.asleep p q hp hq
  have hlock := ht.exclusive r (by rw [hpc]; rfl)
  cases hl.symm.trans hlock

theorem State.Lives.parent_alive (hs : s.Lives) (hq : q ≠ s.initproc)
    (hu : (s.slot q).sched.state ≠ .unused) (hu' : (s.slot q).sched.state ≠ .used) :
    ∃ x, (s.slot q).parent = some x ∧ (s.slot x).sched.state ≠ .unused ∧
      (s.slot x).sched.state ≠ .zombie := by
  obtain ⟨x, hx⟩ := Option.ne_none_iff_exists'.mp (hs.family.named q hq hu hu')
  grind

/-- The protocol of `fork`, `exit`, `wait` and `kill` over any number of processes. A process whose
`fork` is not complete is in state `USED`. -/
theorem exit_wait_protocol (init : Fin N) (acts : List (Act N))
    (hr : run State.next (State.boot N init) acts = some s) :
    (s.waitLock = none → ∀ q, q ≠ init → (s.slot q).sched.state ≠ .unused →
      (s.slot q).sched.state ≠ .used → ∃ x, (s.slot q).parent = some x ∧
        (s.slot x).sched.state ≠ .unused ∧ (s.slot x).sched.state ≠ .zombie) ∧
    (∀ q g st, .exited q g st ∈ s.events →
      g = s.gen q ∧ (s.slot q).sched.state = .zombie ∧ (s.slot q).xstate = st ∨
      ∃ x, .reaped q g st (some x) x ∈ s.events) ∧
    (∀ q g st par x, .reaped q g st par x ∈ s.events → par = some x ∧ .exited q g st ∈ s.events) ∧
    (s.events.map Event.key).Nodup ∧
    (∀ p ok t, s.next (.step p ok) = some t → (s.pc p).waits = true → t.pc p = .user →
      t.ret p = none → (∀ q, (s.slot q).parent ≠ some p) ∨ (s.slot p).sched.killed = true ∨
        ok = false ∧ t.slot = s.slot ∧ ∃ q, s.ZombieChild p q) ∧
    (s.waitLock = none → ∀ p q, (s.slot p).sched.state = .sleeping → ¬ s.ZombieChild p q) := by
  have hs := lives_run hr
  have hi := initproc_run hr
  refine ⟨fun _ q hq hu hu' => hs.parent_alive (hi ▸ hq) hu hu', fun q g st hm => ?_,
    fun q g st par x hm => ?_, hs.ledger.once, fun p ok t ht hw hu hn => ?_,
    fun hl p q hp => hs.waits.free hs.threads hl hp⟩
  · grind
  · grind
  · cases next_of_eq ht with
    | step hr hm => exact hm.wait_fails hs.waits hw hu hn
    | call hc hcall => simp at hcall

def forkAndExit : List (Act 2) :=
  [.resume 0, .fork 0, .step 0 true, .step 0 true, .step 0 true, .step 0 true, .resume 1,
    .exit 1 7, .step 1 true, .step 1 true, .step 1 true, .step 1 true, .step 1 true, .step 1 true,
    .step 1 true, .step 1 true]

theorem exit_wait_protocol_fork_exit_wait : ∃ s ∈ run State.next (State.boot 2 0)
      (forkAndExit ++ [.wait 0 true, .step 0 true, .step 0 true, .step 0 true]),
    .exited 1 1 7 ∈ s.events ∧ s.waitLock = none ∧
      ∃ x, .reaped 1 1 7 (some x) x ∈ s.events := by
  have h : ∃ s ∈ run State.next (State.boot 2 0)
      (forkAndExit ++ [.wait 0 true, .step 0 true, .step 0 true, .step 0 true]),
      .exited 1 1 7 ∈ s.events ∧ s.waitLock = none ∧ (s.slot 1).sched.state ≠ .zombie := by
    decide +kernel
  obtain ⟨s, hr, he, hl, hz⟩ := h
  refine ⟨s, hr, he, hl, ?_⟩
  rcases (exit_wait_protocol 0 _ hr).2.1 1 1 7 he with ⟨_, hc, _⟩ | hx
  · exact absurd hc hz
  · exact hx

end Xv6.Proc
