import Xv6.Proc.Threads

/-! Parents: every process has a parent that is alive, and `exit` gives its children away before the
process becomes a zombie. -/
namespace Xv6.Proc
attribute [local simp] Slot.free
variable {N : ℕ} {s t : State N} {p q : Fin N} {ok : Bool} {a : Act N}

theorem Moves.parent (h : Moves s p ok t) (q : Fin N) : (t.slot q).parent = (s.slot q).parent ∨
    (s.pc p = .forkParent q ∧ t.pc p = .forkRunnable q ∧ s.waitLock = none ∧
      (t.slot q).parent = some p) ∨
    ((∃ st, t.pc p = .reparentWake st q.val 0) ∧ (s.slot q).parent = some p ∧
      (t.slot q).parent = some s.initproc) ∨
    (t.slot q = .free ∧
      ((s.slot q).sched.state = .unused ∨ (s.slot q).sched.state = .zombie)) := by
  cases h with
  | @forkFound c hpc hu | @forkRunnable _ c hpc | @killHit _ pid c hpc hc =>
    obtain rfl | hqc := eq_or_ne q c
    · exact .inl (by simp)
    · exact .inl (by simp [hqc])
  | @forkNoMem c hpc hu =>
    obtain rfl | hqc := eq_or_ne q c
    · exact .inr (.inr (.inr ⟨by simp, .inl hu⟩))
    · exact .inl (by simp [hqc])
  | @forkParent _ c hpc hl =>
    obtain rfl | hqc := eq_or_ne q c
    · exact .inr (.inl ⟨hpc, by simp, hl, by simp⟩)
    · exact .inl (by simp [hqc])
  | @reparentChild _ st c hpc hc =>
    obtain rfl | hqc := eq_or_ne q c
    · exact .inr (.inr (.inl ⟨⟨st, by simp⟩, hc, by simp⟩))
    · exact .inl (by simp [hqc])
  | @reparentWake _ st j k hpc hk => grind
  | @exitWake _ st k hpc hk => grind
  | @zombie _ st hpc | @waitSleep _ addr hpc =>
    obtain rfl | hqp := eq_or_ne q p
    · exact .inl (by simp)
    · exact .inl (by simp [hqp])
  | @waitReap _ addr c hk hpc hc hz =>
    obtain rfl | hqc := eq_or_ne q c
    · exact .inr (.inr (.inr ⟨by simp, .inr hz⟩))
    · exact .inl (by simp [hqc])
  | _ => exact .inl rfl

/-- At this point of its `exit` the process is no longer the parent of slot `k`. -/
@[grind] def Pc.passed : Pc N → ℕ → Prop
  | reparent _ j, k => k < j
  | reparentWake _ j _, k => k ≤ j
  | exitWake _ _, _ | exitZombie _, _ => True
  | _, _ => False

attribute [local simp] Pc.passed

@[grind cases] structure State.Family (s : State N) : Prop where
  alive : ∀ q x, (s.slot q).parent = some x → s.pc x ≠ .none
  named : ∀ q, q ≠ s.initproc → (s.slot q).sched.state ≠ .unused →
    (s.slot q).sched.state ≠ .used → (s.slot q).parent ≠ none
  unused : ∀ q, (s.slot q).sched.state = .unused → (s.slot q).parent = none
  forked : ∀ p q, s.pc p = .forkRunnable q → (s.slot q).parent = some p
  given : ∀ p q, (s.pc p).passed q.val → (s.slot q).parent ≠ some p

theorem family_boot (init : Fin N) : (State.boot N init).Family where
  alive q x hq := by
    simp only [State.boot] at hq
    split at hq <;> simp at hq
  named q hq hu := by
    have hqi : q ≠ init := hq
    simp [State.boot, hqi] at hu
  unused q _ := by
    simp only [State.boot]
    split <;> rfl
  forked p q hp := by
    simp only [State.boot] at hp
    split at hp <;> simp at hp
  given p q hp := by
    simp only [State.boot] at hp
    split at hp <;> simp at hp

theorem Moves.passed (h : Moves s p ok t) (hp : (s.pc p).exits = true → p ≠ s.initproc) {k : Fin N}
    (hk : (t.pc p).passed k.val) : ((s.pc p).passed k.val ∧ (t.slot k).parent = (s.slot k).parent) ∨
      (t.slot k).parent ≠ some p := by
  cases h with
  | @reparentChild _ st q hpc hq =>
    have hne := hp (by rw [hpc]; rfl)
    obtain rfl | hkq := eq_or_ne k q
    · right
      simpa using hne.symm
    have hlt : k.val ≤ q.val := by simpa using hk
    have hval : k.val ≠ q.val := fun hc => hkq (Fin.ext hc)
    left
    rw [hpc]
    exact ⟨show k.val < q.val by omega, by simp [hkq]⟩
  | @reparentSkip _ st q hpc hq =>
    have hlt : k.val < q.val + 1 := by simpa using hk
    grind
  | @reparentEnd _ st j hpc hj => grind
  | @reparentWake _ st j l hpc hl =>
    obtain ⟨x, hx, _⟩ := wakeupAt_slot s p (some s.initproc) l k
    left
    rw [hpc]
    exact ⟨by simpa using hk, by simp only [State.setPc_slot, hx]⟩
  | @reparentWoken _ st j l hpc hl =>
    left
    rw [hpc]
    exact ⟨Nat.le_of_lt_succ (by simpa using hk), rfl⟩
  | @exitWake _ st l hpc hl => grind
  | exitWoken hpc hl =>
    left
    rw [hpc]
    exact ⟨trivial, rfl⟩
  | exitLock hpc hl | _ => simp at hk

theorem Pc.exits_of_passed {c : Pc N} {k : ℕ} (h : c.passed k) : c.exits = true := by
  cases c <;> simp_all [Pc.exits]

namespace State.Family
variable (hs : s.Family)
include hs

theorem alive_moves (ht' : t.Threads) (h : Moves s p ok t)
    (q x : Fin N) (hq : (t.slot q).parent = some x) : t.pc x ≠ .none := by
  rcases h.parent q with h1 | ⟨_, h1, _, h2⟩ | ⟨_, _, h1⟩ | ⟨h1, _⟩
  · rw [h1] at hq
    obtain rfl | hxp := eq_or_ne x p
    · intro hn
      obtain ⟨⟨st, hpc⟩, _⟩ := h.pc_none hn
      exact hs.given x q (by rw [hpc]; trivial) hq
    by_cases hf : s.pc p = .forkRunnable x
    · rw [(h.pc_child hxp hf).1]
      simp
    · rw [h.pc_other hxp hf]
      exact hs.alive q x hq
  · grind
  · obtain rfl := Option.some_inj.mp (h1.symm.trans hq)
    rw [← h.initproc]
    exact ht'.init
  · rw [h1] at hq
    cases hq

section
variable (ht : s.Threads)
include ht

theorem named_moves (hr : (s.slot p).sched.state = .running)
    (h : Moves s p ok t) (q : Fin N) (hq : q ≠ t.initproc) (hu : (t.slot q).sched.state ≠ .unused)
    (hu' : (t.slot q).sched.state ≠ .used) : (t.slot q).parent ≠ none := by
  rw [h.initproc] at hq
  rcases h.parent q with h1 | ⟨_, _, _, h1⟩ | ⟨_, _, h1⟩ | ⟨h1, _⟩
  · rw [h1]
    by_cases hsu : (s.slot q).sched.state = .used
    · have hf : s.pc p = .forkRunnable q := by
        by_contra hf
        exact hu' (h.used hr hsu hf)
      rw [hs.forked p q hf]
      simp
    · refine hs.named q hq (fun hsn => ?_) hsu
      rcases h.state q with ⟨h2, _⟩ | ⟨h2, _⟩ | ⟨_, _, h2, _⟩ | ⟨h2, _⟩ | ⟨h2, _⟩ | ⟨h2, _⟩ |
    ⟨h2, _⟩
      · exact hu (h2.trans hsn)
      · cases hsn.symm.trans h2
      · exact hu' h2
      · grind
      · rw [h2, hr] at hsn
        cases hsn
      · cases hsn.symm.trans h2
      · rw [h2, hr] at hsn
        cases hsn
  · simp [h1]
  · simp [h1]
  · simp [h1] at hu

theorem unused_moves (h : Moves s p ok t) (q : Fin N) (hu : (t.slot q).sched.state = .unused) :
    (t.slot q).parent = none := by
  rcases h.state q with ⟨h1, _⟩ | ⟨_, h1⟩ | ⟨_, _, h1, _⟩ | ⟨_, h1⟩ | ⟨_, _, h1, _⟩ | ⟨_, _, h1⟩ |
    ⟨_, h1, _⟩
  · rw [hu] at h1
    have hn := hs.unused q h1.symm
    rcases h.parent q with h2 | ⟨h2, _⟩ | ⟨_, h2, _⟩ | ⟨h2, _⟩
    · rw [h2, hn]
    · have hc := ht.child p q (by rw [h2]; rfl)
      exact absurd (h1.trans hc) (by simp)
    · cases hn.symm.trans h2
    · rw [h2]
      rfl
  · cases hu.symm.trans h1
  · cases hu.symm.trans h1
  · cases hu.symm.trans h1
  · cases hu.symm.trans h1
  · rw [h1]
    rfl
  · cases hu.symm.trans h1

theorem forked_moves (h : Moves s p ok t) (r q : Fin N)
    (hr : t.pc r = .forkRunnable q) : (t.slot q).parent = some r := by
  obtain rfl | hrp := eq_or_ne r p
  · cases h with
    | @forkParent _ c hpc hl =>
      obtain rfl : c = q := by simpa using hr
      simp
    | _ => simp at hr
  · obtain ⟨hc, _⟩ := ht.child_other h hrp (q := q) (by rw [hr]; rfl)
    have hpc : s.pc r = .forkRunnable q := by
      by_cases hf : s.pc p = .forkRunnable r
      · rw [(h.pc_child hrp hf).1] at hr
        cases hr
      · rw [← h.pc_other hrp hf, hr]
    have hpar := hs.forked r q hpc
    rcases h.parent q with h1 | ⟨h1, _⟩ | ⟨_, h1, _⟩ | ⟨_, h1⟩
    · rw [h1, hpar]
    · exact absurd (ht.one r p q hc (by rw [h1]; rfl)) hrp
    · exact absurd (Option.some_inj.mp (hpar.symm.trans h1)) hrp
    · grind

theorem given_moves (h : Moves s p ok t) (r q : Fin N)
    (hr : (t.pc r).passed q.val) : (t.slot q).parent ≠ some r := by
  obtain rfl | hrp := eq_or_ne r p
  · rcases h.passed (ht.exits r) hr with ⟨h1, h2⟩ | h1
    · rw [h2]
      exact hs.given r q h1
    · exact h1
  · by_cases hf : s.pc p = .forkRunnable r
    · rw [(h.pc_child hrp hf).1] at hr
      exact hr.elim
    rw [h.pc_other hrp hf] at hr
    rcases h.parent q with h1 | ⟨_, _, _, h1⟩ | ⟨_, _, h1⟩ | ⟨h1, _⟩
    · rw [h1]
      exact hs.given r q hr
    · grind
    · rw [h1]
      exact fun hc => ht.exits r (Pc.exits_of_passed hr) (Option.some_inj.mp hc).symm
    · rw [h1]
      simp

theorem moves (hr : (s.slot p).sched.state = .running)
    (h : Moves s p ok t) : t.Family where
  alive := hs.alive_moves (ht.moves hr h) h
  named := hs.named_moves ht hr h
  unused := hs.unused_moves ht h
  forked := hs.forked_moves ht h
  given := hs.given_moves ht h

end

theorem call (hc : s.CanCall p) {c : Pc N} (hn : c ≠ .none)
    (hch : c.child = none) (hp : ∀ k, ¬ c.passed k) : (s.setPc p c).Family := by
  refine ⟨fun q x hq => ?_, hs.named, hs.unused, fun r q hr => ?_, fun r q hr => ?_⟩
  · by_cases hxp : x = p
    · simpa [hxp] using hn
    · simpa [hxp] using hs.alive q x hq
  · obtain rfl | hrp := eq_or_ne r p
    · obtain rfl : c = .forkRunnable q := by simpa using hr
      cases hch
    · exact hs.forked r q (by simpa [hrp] using hr)
  · obtain rfl | hrp := eq_or_ne r p
    · exact absurd (by simpa using hr) (hp q.val)
    · exact hs.given r q (by simpa [hrp] using hr)

theorem setSched {x : Sched (Fin N)} (hq : ¬ (s.slot q).sched.state.Idle)
    (hx : ¬ x.state.Idle) : (s.setSched q x).Family := by
  have hpar r : ((s.setSched q x).slot r).parent = (s.slot r).parent := by
    by_cases hrq : r = q
    · simp [hrq]
    · simp [hrq]
  refine ⟨fun r y hr => hs.alive r y (hpar r ▸ hr), fun r hr hu hu' => ?_, fun r hu => ?_,
    fun p r hp => (hpar r).trans (hs.forked p r hp), fun p r hp => ?_⟩
  · rw [hpar]
    obtain rfl | hrq := eq_or_ne r q
    · grind
    · exact hs.named r hr (by simpa [hrq] using hu) (by simpa [hrq] using hu')
  · rw [hpar]
    obtain rfl | hrq := eq_or_ne r q
    · exact absurd (.inl (by simpa using hu)) hx
    · exact hs.unused r (by simpa [hrq] using hu)
  · rw [hpar]
    exact hs.given p r hp

end State.Family

theorem Next.family (h : Next s a t) (ht : s.Threads) (hs : s.Family) : t.Family := by
  cases h with
  | call hc hcall =>
    rcases hcall with ⟨_, rfl⟩ | ⟨_, _, _, rfl⟩ | ⟨_, _, rfl⟩ | ⟨_, _, rfl⟩
    · exact hs.call hc (by simp) rfl fun _ => id
    · exact hs.call hc (by simp) rfl fun _ => id
    · exact hs.call hc (by simp) rfl fun _ => id
    · exact hs.call hc (by simp) rfl fun _ => id
  | step hr hm => exact hs.moves ht hr hm
  | fault hc => refine hs.setSched ?_ ?_ <;> simp [hc.2, ProcState.Idle]
  | resume hr | yield hr => refine hs.setSched ?_ ?_ <;> simp [hr, ProcState.Idle]

end Xv6.Proc
