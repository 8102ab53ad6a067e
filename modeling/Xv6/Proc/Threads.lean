import Xv6.Proc.Steps

/-! Which slots have a kernel thread, and who set them up: `wait_lock` excludes, a slot is in the
hands of at most one `fork`, and only a process in `wait` sleeps. -/
namespace Xv6.Proc
attribute [local simp] Pc.exits Pc.child Slot.free
variable {N : ℕ} {s t : State N} {p q : Fin N} {ok : Bool} {a : Act N}

@[grind] def ProcState.Idle (x : ProcState) : Prop := x = .unused ∨ x = .used ∨ x = .zombie

@[grind cases] structure State.Threads (s : State N) : Prop where
  exclusive : ∀ p, (s.pc p).holds = true → s.waitLock = some p
  idle : ∀ p, s.pc p = .none ↔ (s.slot p).sched.state.Idle
  asleep : ∀ p, (s.slot p).sched.state = .sleeping →
    (∃ addr, s.pc p = .waitAsleep addr) ∧ (s.slot p).sched.chan = some p
  child : ∀ p q, (s.pc p).child = some q → (s.slot q).sched.state = .used
  one : ∀ p p' q, (s.pc p).child = some q → (s.pc p').child = some q → p = p'
  init : s.pc s.initproc ≠ .none
  exits : ∀ p, (s.pc p).exits = true → p ≠ s.initproc

theorem threads_boot (init : Fin N) : (State.boot N init).Threads where
  exclusive p hp := by
    simp only [State.boot] at hp
    split at hp <;> simp [Pc.holds] at hp
  idle p := by
    by_cases hp : p = init
    · simp [State.boot, hp, ProcState.Idle]
    · simp [State.boot, hp, ProcState.Idle]
  asleep p hp := by
    simp only [State.boot] at hp
    split at hp <;> simp at hp
  child p q hp := by
    simp only [State.boot] at hp
    split at hp <;> simp at hp
  one p p' q hp := by
    simp only [State.boot] at hp
    split at hp <;> simp at hp
  init := by simp [State.boot]
  exits p hp := by
    simp only [State.boot] at hp
    split at hp <;> simp at hp

section
variable (h : Moves s p ok t)
include h

/-- A step stays in the critical section, leaves it, enters it when the lock is free, or stays
out. -/
theorem Moves.control : ((s.pc p).holds = true ∧ t.waitLock = s.waitLock ∧ (t.pc p).holds = true) ∨
    ((s.pc p).holds = true ∧ t.waitLock = none ∧ (t.pc p).holds = false) ∨
    ((s.pc p).holds = false ∧ s.waitLock = none ∧ t.waitLock = some p) ∨
    ((s.pc p).holds = false ∧ t.waitLock = s.waitLock ∧ (t.pc p).holds = false) := by
  cases h with
  | waitLock hpc hl => rcases hpc with hpc | hpc <;> simp_all [Pc.holds]
  | _ => simp_all [Pc.holds]

/-- Others stay where they are, but for a child that becomes runnable. -/
theorem Moves.pc_other (hq : q ≠ p) (hf : s.pc p ≠ .forkRunnable q) : t.pc q = s.pc q := by
  cases h with
  | @forkRunnable _ c hpc =>
    have hqc : q ≠ c := by
      rintro rfl
      exact hf hpc
    simp [hq, hqc]
  | _ => simp [hq]

theorem Moves.pc_child (hq : q ≠ p) (hf : s.pc p = .forkRunnable q) :
    t.pc q = .user ∧ (t.slot q).sched.state = .runnable := by
  cases h with
  | waitLock hpc _ => rcases hpc with hpc | hpc <;> simp [hf] at hpc
  | _ => simp_all

theorem Moves.exclusive (hs : ∀ p, (s.pc p).holds = true → s.waitLock = some p) (q : Fin N)
    (hq : (t.pc q).holds = true) : t.waitLock = some q := by
  obtain rfl | hqp := eq_or_ne q p
  · rcases h.control with ⟨hp, hl, _⟩ | ⟨_, _, hn⟩ | ⟨_, _, hl⟩ | ⟨_, _, hn⟩
    · rw [hl, hs q hp]
    · cases hn.symm.trans hq
    · exact hl
    · cases hn.symm.trans hq
  · by_cases hf : s.pc p = .forkRunnable q
    · rw [(h.pc_child hqp hf).1] at hq
      cases hq
    rw [h.pc_other hqp hf] at hq
    have hlq := hs q hq
    rcases h.control with ⟨hp, _⟩ | ⟨hp, _⟩ | ⟨_, hl, _⟩ | ⟨_, hl, _⟩
    · grind
    · grind
    · cases hlq.symm.trans hl
    · rw [hl, hlq]

end

/-- Waking leaves everything of a slot but the state `SLEEPING`. -/
theorem wakeupAt_slot (s : State N) (p : Fin N) (c : Option (Fin N)) (k : ℕ) (q : Fin N) :
    ∃ x : Sched (Fin N), (s.wakeupAt p c k).slot q = { s.slot q with sched := x } ∧
      x.chan = (s.slot q).sched.chan ∧ x.killed = (s.slot q).sched.killed ∧
      (x.state = (s.slot q).sched.state ∨
        (s.slot q).sched.state = .sleeping ∧ x.state = .runnable) := by
  cases c with
  | none => exact ⟨(s.slot q).sched, rfl, rfl, rfl, .inl rfl⟩
  | some c =>
    exact ⟨_, rfl, wakeupAt_chan _ p q c k, wakeupAt_killed _ p q c k, wakeupAt_state _ p q c k⟩

section
variable (h : Moves s p ok t)
include h

theorem Moves.state (q : Fin N) : ((t.slot q).sched.state = (s.slot q).sched.state ∧
      ((t.slot q).sched.chan = (s.slot q).sched.chan ∨ (s.slot q).sched.state = .unused)) ∨
    ((s.slot q).sched.state = .sleeping ∧ (t.slot q).sched.state = .runnable) ∨
    (s.pc p = .forkScan q.val ∧ (s.slot q).sched.state = .unused ∧
      (t.slot q).sched.state = .used ∧ t.pc p = .forkParent q) ∨
    (s.pc p = .forkRunnable q ∧ (t.slot q).sched.state = .runnable) ∨
    (q = p ∧ (∃ st, s.pc p = .exitZombie st) ∧ (t.slot q).sched.state = .zombie ∧ t.pc p = .none) ∨
    ((s.slot q).sched.state = .zombie ∧ (t.slot q).sched.state = .unused ∧ t.slot q = .free) ∨
    (q = p ∧ (t.slot q).sched.state = .sleeping ∧ (t.slot q).sched.chan = some p ∧
      ∃ addr, t.pc p = .waitAsleep addr) := by
  cases h with
  | @forkFound c hpc hu =>
    obtain rfl | hqc := eq_or_ne q c
    · exact .inr (.inr (.inl ⟨hpc, hu, by simp, by simp⟩))
    · exact .inl (by simp [hqc])
  | @forkNoMem c hpc hu =>
    obtain rfl | hqc := eq_or_ne q c
    · exact .inl (by simp [hu])
    · exact .inl (by simp [hqc])
  | @forkRunnable _ c hpc =>
    obtain rfl | hqc := eq_or_ne q c
    · exact .inr (.inr (.inr (.inl ⟨hpc, by simp⟩)))
    · exact .inl (by simp [hqc])
  | @forkParent _ c hpc hl | @reparentChild _ st c hpc hc =>
    obtain rfl | hqc := eq_or_ne q c
    · exact .inl (by simp)
    · exact .inl (by simp [hqc])
  | @reparentWake _ st j k hpc hk =>
    obtain ⟨x, hx, hchan, _, hst | hst⟩ := wakeupAt_slot s p (some s.initproc) k q
    · grind
    · grind
  | @exitWake _ st k hpc hk =>
    obtain ⟨x, hx, hchan, _, hst | hst⟩ := wakeupAt_slot s p (s.slot p).parent k q
    · grind
    · grind
  | @zombie _ st hpc =>
    obtain rfl | hqp := eq_or_ne q p
    · exact .inr (.inr (.inr (.inr (.inl ⟨rfl, ⟨st, hpc⟩, by simp, by simp⟩))))
    · exact .inl (by simp [hqp])
  | @waitReap _ addr c hk hpc hc hz =>
    obtain rfl | hqc := eq_or_ne q c
    · exact .inr (.inr (.inr (.inr (.inr (.inl ⟨hz, by simp, by simp⟩)))))
    · exact .inl (by simp [hqc])
  | @waitSleep _ addr hpc =>
    obtain rfl | hqp := eq_or_ne q p
    · exact .inr (.inr (.inr (.inr (.inr (.inr ⟨rfl, by simp, by simp, addr, by simp⟩)))))
    · exact .inl (by simp [hqp])
  | @killHit _ pid c hpc hc =>
    obtain rfl | hqc := eq_or_ne q c
    · by_cases hst : (s.slot q).sched.state = .sleeping
      · exact .inr (.inl (by simp [hst]))
      · exact .inl (by simp [hst])
    · exact .inl (by simp [hqc])
  | _ => exact .inl ⟨rfl, .inl rfl⟩

theorem Moves.pc_none (hn : t.pc p = .none) :
    (∃ st, s.pc p = .exitZombie st) ∧ (t.slot p).sched.state = .zombie := by
  cases h with
  | zombie hpc => exact ⟨⟨_, hpc⟩, by simp⟩
  | _ => simp at hn

theorem Moves.child (hc : (t.pc p).child = some q) :
    s.pc p = .forkParent q ∨ (s.slot q).sched.state = .unused ∧ (t.slot q).sched.state = .used := by
  cases h with
  | forkFound hpc hu =>
    obtain rfl : _ = q := by simpa using hc
    exact .inr ⟨hu, by simp⟩
  | forkParent hpc hl =>
    obtain rfl : _ = q := by simpa using hc
    exact .inl hpc
  | _ => simp at hc

theorem Moves.exits (he : (t.pc p).exits = true) : (s.pc p).exits = true := by
  cases h with
  | waitLock hpc hl => simp at he
  | _ => simp_all

theorem Moves.initproc : t.initproc = s.initproc := by
  cases h <;> rfl

/-- A slot that is being set up stays so until its `fork` makes it runnable. -/
theorem Moves.used (hr : (s.slot p).sched.state = .running) (hu : (s.slot q).sched.state = .used)
    (hf : s.pc p ≠ .forkRunnable q) : (t.slot q).sched.state = .used := by
  have hqp : q ≠ p := by
    rintro rfl
    rw [hr] at hu
    cases hu
  rcases h.state q with ⟨h1, _⟩ | ⟨h1, _⟩ | ⟨_, h1, _⟩ | ⟨h1, _⟩ | ⟨h1, _⟩ | ⟨h1, _⟩ | ⟨h1, _⟩
  · rw [h1, hu]
  · cases hu.symm.trans h1
  · cases hu.symm.trans h1
  · exact absurd h1 hf
  · exact absurd h1 hqp
  · cases hu.symm.trans h1
  · exact absurd h1 hqp

end

namespace State.Threads

/-- The slot of a running process keeps its thread, unless the process exits. -/
theorem idle_self (hr : (s.slot p).sched.state = .running) (h : Moves s p ok t) :
    t.pc p = .none ↔ (t.slot p).sched.state.Idle := by
  constructor
  · intro hn
    rw [(h.pc_none hn).2]
    exact .inr (.inr rfl)
  · intro hi
    rcases h.state p with ⟨h1, _⟩ | ⟨h1, _⟩ | ⟨_, h1, _⟩ | ⟨_, h1⟩ | ⟨_, _, _, h1⟩ | ⟨h1, _⟩ |
      ⟨_, h1, _⟩
    · rw [h1, hr] at hi
      simp [ProcState.Idle] at hi
    · cases hr.symm.trans h1
    · cases hr.symm.trans h1
    · rw [h1] at hi
      simp [ProcState.Idle] at hi
    · exact h1
    · cases hr.symm.trans h1
    · rw [h1] at hi
      simp [ProcState.Idle] at hi

variable (hs : s.Threads)
include hs

theorem idle_other (h : Moves s p ok t) (hqp : q ≠ p) :
    t.pc q = .none ↔ (t.slot q).sched.state.Idle := by
  by_cases hf : s.pc p = .forkRunnable q
  · obtain ⟨hpc, hst⟩ := h.pc_child hqp hf
    simp [hpc, hst, ProcState.Idle]
  rw [h.pc_other hqp hf, hs.idle q]
  rcases h.state q with ⟨h1, _⟩ | ⟨h1, h2⟩ | ⟨_, h1, h2, _⟩ | ⟨h1, _⟩ | ⟨h1, _⟩ |
    ⟨h1, h2, _⟩ | ⟨h1, _⟩
  · rw [h1]
  · simp [h1, h2, ProcState.Idle]
  · simp [h1, h2, ProcState.Idle]
  · exact absurd h1 hf
  · exact absurd h1 hqp
  · simp [h1, h2, ProcState.Idle]
  · exact absurd h1 hqp

theorem asleep_moves (hr : (s.slot p).sched.state = .running)
    (h : Moves s p ok t) (q : Fin N) (hq : (t.slot q).sched.state = .sleeping) :
    (∃ addr, t.pc q = .waitAsleep addr) ∧ (t.slot q).sched.chan = some q := by
  rcases h.state q with ⟨h1, h2⟩ | ⟨_, h1⟩ | ⟨_, _, h1, _⟩ | ⟨_, h1⟩ | ⟨_, _, h1, _⟩ | ⟨_, h1, _⟩ |
    ⟨rfl, _, h1, h2⟩
  · rw [h1] at hq
    have hqp : q ≠ p := by
      rintro rfl
      rw [hr] at hq
      cases hq
    obtain ⟨⟨addr, hpc⟩, hchan⟩ := hs.asleep q hq
    have hf : s.pc p ≠ .forkRunnable q := by
      intro hf
      have hu := hs.child p q (by rw [hf]; rfl)
      cases hu.symm.trans hq
    refine ⟨⟨addr, (h.pc_other hqp hf).trans hpc⟩, ?_⟩
    grind
  · cases hq.symm.trans h1
  · cases hq.symm.trans h1
  · cases hq.symm.trans h1
  · cases hq.symm.trans h1
  · cases hq.symm.trans h1
  · exact ⟨h2, h1⟩

theorem child_other (h : Moves s p ok t) {r : Fin N} (hrp : r ≠ p)
    (hc : (t.pc r).child = some q) : (s.pc r).child = some q ∧ s.pc p ≠ .forkRunnable q := by
  by_cases hf : s.pc p = .forkRunnable r
  · rw [(h.pc_child hrp hf).1] at hc
    cases hc
  · rw [h.pc_other hrp hf] at hc
    refine ⟨hc, fun hq => hrp ?_⟩
    exact hs.one r p q hc (by rw [hq]; rfl)

theorem child_moves (hr : (s.slot p).sched.state = .running) (h : Moves s p ok t) (r q : Fin N)
    (hc : (t.pc r).child = some q) : (t.slot q).sched.state = .used := by
  obtain rfl | hrp := eq_or_ne r p
  · rcases h.child hc with hpc | ⟨_, hu⟩
    · exact h.used hr (hs.child r q (by rw [hpc]; rfl)) (by simp [hpc])
    · exact hu
  · obtain ⟨hc, hf⟩ := hs.child_other h hrp hc
    exact h.used hr (hs.child r q hc) hf

theorem one_self (h : Moves s p ok t) {r : Fin N} (hrp : r ≠ p)
    (hp : (t.pc p).child = some q) : (t.pc r).child ≠ some q := by
  intro hc
  obtain ⟨hc, _⟩ := hs.child_other h hrp hc
  rcases h.child hp with hpc | ⟨hu, _⟩
  · exact hrp (hs.one r p q hc (by rw [hpc]; rfl))
  · cases hu.symm.trans (hs.child r q hc)

theorem moves (hr : (s.slot p).sched.state = .running) (h : Moves s p ok t) : t.Threads where
  exclusive := h.exclusive hs.exclusive
  idle q := by
    by_cases hqp : q = p
    · rw [hqp]
      exact idle_self hr h
    · exact hs.idle_other h hqp
  asleep := hs.asleep_moves hr h
  child := hs.child_moves hr h
  one r r' q hc hc' := by
    by_cases hrp : r = p
    · by_cases hrp' : r' = p
      · rw [hrp, hrp']
      · rw [hrp] at hc
        exact absurd hc' (hs.one_self h hrp' hc)
    · by_cases hrp' : r' = p
      · rw [hrp'] at hc'
        exact absurd hc (hs.one_self h hrp hc')
      · exact hs.one r r' q (hs.child_other h hrp hc).1 (hs.child_other h hrp' hc').1
  init := by
    rw [h.initproc]
    by_cases hip : s.initproc = p
    · rw [hip]
      intro hn
      obtain ⟨⟨st, hpc⟩, _⟩ := h.pc_none hn
      exact hs.exits p (by rw [hpc]; rfl) hip.symm
    by_cases hf : s.pc p = .forkRunnable s.initproc
    · rw [(h.pc_child hip hf).1]
      simp
    · rw [h.pc_other hip hf]
      exact hs.init
  exits r he := by
    rw [h.initproc]
    obtain rfl | hrp := eq_or_ne r p
    · exact hs.exits r (h.exits he)
    by_cases hf : s.pc p = .forkRunnable r
    · rw [(h.pc_child hrp hf).1] at he
      cases he
    · rw [h.pc_other hrp hf] at he
      exact hs.exits r he

theorem call (hc : s.CanCall p) {c : Pc N} (hn : c ≠ .none) (hh : c.holds = false)
    (hch : c.child = none) (he : c.exits = true → p ≠ s.initproc) : (s.setPc p c).Threads := by
  have hpc : ∀ q ≠ p, (s.setPc p c).pc q = s.pc q := fun q hq => by simp [hq]
  have hself : (s.setPc p c).pc p = c := by simp
  have hchild r q (hr : ((s.setPc p c).pc r).child = some q) : (s.pc r).child = some q := by grind
  refine ⟨fun q hq => ?_, fun q => ?_, fun q hq => ?_, fun r q hr => hs.child r q (hchild r q hr),
    fun r r' q hr hr' => hs.one r r' q (hchild r q hr) (hchild r' q hr'), ?_, fun q hq => ?_⟩
  · grind
  · grind
  · have hqp : q ≠ p := by
      rintro rfl
      cases hq.symm.trans hc.2
    rw [hpc q hqp]
    exact hs.asleep q hq
  · grind
  · grind

/-- The scheduler, an interrupt or a fault changes one slot that has a thread. -/
theorem setSched {x : Sched (Fin N)} (hq : ¬ (s.slot q).sched.state.Idle)
    (hx : ¬ x.state.Idle) (hsl : x.state ≠ .sleeping) : (s.setSched q x).Threads := by
  refine ⟨hs.exclusive, fun r => ?_, fun r hr => ?_, fun r r' hr => ?_, hs.one, hs.init, hs.exits⟩
  · obtain rfl | hrq := eq_or_ne r q
    · simpa [hx, hq] using hs.idle r
    · simpa [hrq] using hs.idle r
  · obtain rfl | hrq := eq_or_ne r q
    · exact absurd (by simpa using hr) hsl
    · simpa [hrq] using hs.asleep r (by simpa [hrq] using hr)
  have hu := hs.child r r' hr
  have hne : r' ≠ q := by
    rintro rfl
    exact hq (.inr (.inl hu))
  simpa [hne] using hu

end State.Threads

theorem Next.threads (h : Next s a t) (hs : s.Threads) : t.Threads := by
  cases h with
  | call hc hcall =>
    rcases hcall with ⟨_, rfl⟩ | ⟨_, _, hne, rfl⟩ | ⟨_, _, rfl⟩ | ⟨_, _, rfl⟩
    · exact hs.call hc (by simp) rfl rfl (by simp)
    · exact hs.call hc (by simp) rfl rfl fun _ => hne
    · exact hs.call hc (by simp) rfl rfl (by simp)
    · exact hs.call hc (by simp) rfl rfl (by simp)
  | step hr hm => exact hs.moves hr hm
  | fault hc => refine hs.setSched ?_ ?_ ?_ <;> simp [hc.2, ProcState.Idle]
  | resume hr | yield hr => refine hs.setSched ?_ ?_ ?_ <;> simp [hr, ProcState.Idle]

end Xv6.Proc
