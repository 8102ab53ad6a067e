import Xv6.Proc.Family

/-! `wait`: what the scan of the process table has seen stays true while `wait_lock` is held, and a
process sleeps only as long as none of its children is a zombie. -/
namespace Xv6.Proc
variable {N : ℕ} {s t : State N} {p q : Fin N} {ok : Bool} {a : Act N}

/-- The scan in `wait` has looked at slot `k`. -/
@[grind] def Pc.scanned : Pc N → ℕ → Prop
  | waitScan _ j _, k => k < j
  | waitTest _ _, _ | waitSleep _, _ => True
  | _, _ => False

attribute [local simp] Pc.scanned

/-- The local variable of `wait`; a process that goes to sleep has a child. -/
def Pc.havekids : Pc N → Bool
  | waitScan _ _ h | waitTest _ h => h
  | _ => true

attribute [local simp] Pc.havekids

theorem Pc.holds_of_scanned {c : Pc N} {k : ℕ} (h : c.scanned k) : c.holds = true := by
  cases c <;> simp_all [Pc.holds]

@[grind] def State.ZombieChild (s : State N) (p q : Fin N) : Prop :=
  (s.slot q).parent = some p ∧ (s.slot q).sched.state = .zombie

@[grind cases] structure State.Waits (s : State N) : Prop where
  scan : ∀ p q, (s.pc p).scanned q.val → (s.slot q).parent = some p →
    (s.slot q).sched.state ≠ .zombie ∧ (s.pc p).havekids = true
  asleep : ∀ p q, (s.slot p).sched.state = .sleeping → s.ZombieChild p q →
    p = s.initproc ∧ ∃ r st j k, s.pc r = .reparentWake st j k ∧ k ≤ p.val
  waker : ∀ r st k x, s.pc r = .exitWake st k → (s.slot r).parent = some x →
    (s.slot x).sched.state = .sleeping → k ≤ x.val
  zombie : ∀ r st x, s.pc r = .exitZombie st → (s.slot r).parent = some x →
    (s.slot x).sched.state ≠ .sleeping

theorem waits_boot (init : Fin N) : (State.boot N init).Waits := by
  have hpc p : (State.boot N init).pc p = .user ∨ (State.boot N init).pc p = .none := by
    by_cases hp : p = init
    · simp [State.boot, hp]
    · simp [State.boot, hp]
  have hsl p : ((State.boot N init).slot p).sched.state ≠ .sleeping := by
    simp only [State.boot]
    split <;> simp [Slot.free]
  refine ⟨fun p q hp => ?_, fun p q hp => absurd hp (hsl p), fun r st k x hr => ?_,
    fun r st x hr => ?_⟩
  · rcases hpc p with h | h <;> simp [h] at hp
  · rcases hpc r with h | h <;> simp [h] at hr
  · rcases hpc r with h | h <;> simp [h] at hr

/-- While a process holds `wait_lock`, the others change no parent, make no zombie and reap none,
and none of them falls asleep. -/
theorem Moves.kept (h : Moves s p ok t) (hs : s.Threads) (hf : s.Family) {r : Fin N} (hrp : r ≠ p)
    (hr : (s.pc r).holds = true) (q : Fin N) : (t.slot q).parent = (s.slot q).parent ∧
      ((t.slot q).sched.state = .zombie ↔ (s.slot q).sched.state = .zombie) ∧
      ((t.slot q).sched.state = .sleeping → (s.slot q).sched.state = .sleeping) := by
  have hlock := hs.exclusive r hr
  have hfree : (s.pc p).holds = false := by grind
  cases h with
  | @forkFound c hpc hu =>
    obtain rfl | hqc := eq_or_ne q c
    · simp [hu]
    · simp [hqc]
  | @forkNoMem c hpc hu =>
    obtain rfl | hqc := eq_or_ne q c
    · simp [hu, hf.unused q hu, Slot.free]
    · simp [hqc]
  | @forkRunnable _ c hpc =>
    obtain rfl | hqc := eq_or_ne q c
    · simp [hs.child p q (by rw [hpc]; rfl)]
    · simp [hqc]
  | @killHit _ pid c hpc hc =>
    obtain rfl | hqc := eq_or_ne q c
    · by_cases hst : (s.slot q).sched.state = .sleeping
      · simp [hst]
      · simp [hst]
    · simp [hqc]
  | forkParent hpc hl | exitLock hpc hl | waitLock hpc hl =>
    cases hlock.symm.trans hl
  | forkBusy | forkNone | killMiss | killNone => exact ⟨rfl, Iff.rfl, id⟩
  | reparentChild hpc | reparentSkip hpc | reparentEnd hpc | reparentWake hpc | reparentWoken hpc
  | exitWake hpc | exitWoken hpc | zombie hpc | waitCopyFails hpc | waitReap hpc | waitAlive hpc
  | waitSkip hpc | waitScanned hpc | waitFails hpc | waitGoOn hpc | waitSleep hpc =>
    simp [hpc, Pc.holds] at hfree

/-- The holder of `wait_lock` stays where it is when another process takes a step. -/
theorem Moves.pc_holder (h : Moves s p ok t) {r : Fin N} (hrp : r ≠ p)
    (hr : (t.pc r).holds = true) : t.pc r = s.pc r := by
  by_cases hf : s.pc p = .forkRunnable r
  · rw [(h.pc_child hrp hf).1] at hr
    cases hr
  · exact h.pc_other hrp hf

theorem not_sleeping_wakeupAt {k : ℕ} (ht : s.Threads) (hr : (s.slot p).sched.state = .running)
    (hx : ((s.wakeupAt p (some q) k).slot q).sched.state = .sleeping) :
    (s.slot q).sched.state = .sleeping ∧ q.val ≠ k := by
  obtain ⟨x, hsl, _, _, hst⟩ := wakeupAt_slot s p (some q) k q
  have hs : (s.slot q).sched.state = .sleeping := by grind
  refine ⟨hs, fun hk => ?_⟩
  have hqp : q ≠ p := by
    rintro rfl
    cases hs.symm.trans hr
  have hon : (wakeupAt (fun r => (s.slot r).sched) p q k q).SleepsOn q := by grind
  exact (sleepsOn_wakeupAt.mp hon).2 ⟨hk, hqp, rfl⟩

theorem Moves.scanned (h : Moves s p ok t) {k : Fin N} (hk : (t.pc p).scanned k.val)
    (hq : (t.slot k).parent = some p) : (s.slot k).parent = some p ∧
      (t.slot k).sched.state ≠ .zombie ∧ (t.pc p).havekids = true ∨
      (s.slot k).parent = some p ∧ (t.slot k).sched.state = (s.slot k).sched.state ∧
        (s.pc p).scanned k.val ∧ ((s.pc p).havekids = true → (t.pc p).havekids = true) := by
  cases h with
  | @waitAlive _ addr q hk' hpc hp hz =>
    have hlt : k.val < q.val + 1 := by simpa using hk
    obtain rfl | hkq := eq_or_ne k q
    · exact .inl ⟨hp, hz, by simp⟩
    · have hval : k.val ≠ q.val := fun hc => hkq (Fin.ext hc)
      right
      rw [hpc]
      exact ⟨hq, rfl, show k.val < q.val by omega, fun _ => by simp⟩
  | @waitSkip _ addr q hk' hpc hp =>
    have hlt : k.val < q.val + 1 := by simpa using hk
    obtain rfl | hkq := eq_or_ne k q
    · exact absurd hq hp
    · have hval : k.val ≠ q.val := fun hc => hkq (Fin.ext hc)
      right
      rw [hpc]
      exact ⟨hq, rfl, show k.val < q.val by omega, fun hh => by simpa using hh⟩
  | @waitScanned _ addr j hk' hpc hj =>
    right
    rw [hpc]
    exact ⟨hq, rfl, show k.val < j by omega, fun hh => by simpa using hh⟩
  | waitGoOn hpc hc =>
    right
    rw [hpc]
    exact ⟨hq, rfl, trivial, fun _ => by simp⟩
  | _ => simp at hk

namespace State.Waits

theorem scan_moves (hs : s.Waits) (ht : s.Threads) (hf : s.Family) (h : Moves s p ok t)
    (r q : Fin N) (hr : (t.pc r).scanned q.val) (hq : (t.slot q).parent = some r) :
    (t.slot q).sched.state ≠ .zombie ∧ (t.pc r).havekids = true := by
  obtain rfl | hrp := eq_or_ne r p
  · rcases h.scanned hr hq with ⟨_, h1, h2⟩ | ⟨h1, h2, h3, h4⟩
    · exact ⟨h1, h2⟩
    · grind
  · have hpc := h.pc_holder hrp (Pc.holds_of_scanned hr)
    rw [hpc] at hr ⊢
    have hh := Pc.holds_of_scanned hr
    obtain ⟨hpar, hz, _⟩ := h.kept ht hf hrp hh q
    grind

/-- No step of another process makes a process sleep, and its own step does so only after a scan. -/
theorem sleeps_moves (hr : (s.slot p).sched.state = .running) (h : Moves s p ok t)
    (hx : (t.slot q).sched.state = .sleeping) :
    q ≠ p ∧ (s.slot q).sched.state = .sleeping ∨
      q = p ∧ (∃ addr, s.pc p = .waitSleep addr) ∧ ∀ r, (t.slot r).parent = (s.slot r).parent ∧
        ((t.slot r).sched.state = .zombie → (s.slot r).sched.state = .zombie) := by
  rcases h.state q with ⟨h1, _⟩ | ⟨_, h1⟩ | ⟨_, _, h1, _⟩ | ⟨_, h1⟩ | ⟨_, _, h1, _⟩ | ⟨_, h1, _⟩ |
    ⟨h1, _, _, addr, h2⟩
  · grind
  · cases hx.symm.trans h1
  · cases hx.symm.trans h1
  · cases hx.symm.trans h1
  · cases hx.symm.trans h1
  · cases hx.symm.trans h1
  subst h1
  right
  cases h with
  | @waitSleep _ addr hpc =>
    refine ⟨rfl, ⟨addr, hpc⟩, fun r => ?_⟩
    obtain rfl | hrq := eq_or_ne r q
    · simp
    · simp [hrq]
  | _ => simp at h2

/-- The wakeup of the first process in `reparent` goes on until it has reached it. -/
theorem reparentWake_moves (ht : s.Threads) (hr : (s.slot p).sched.state = .running)
    (h : Moves s p ok t) (hx : (t.slot s.initproc).sched.state = .sleeping) {r : Fin N} {st : ℤ}
    {j k : ℕ} (hpc : s.pc r = .reparentWake st j k) (hk : k ≤ s.initproc.val) :
    ∃ k', t.pc r = .reparentWake st j k' ∧ k' ≤ s.initproc.val := by
  obtain rfl | hrp := eq_or_ne r p
  · cases h with
    | @reparentWake _ st' j' k' hpc' hk' =>
      obtain ⟨rfl, rfl, rfl⟩ : st = st' ∧ j = j' ∧ k = k' := by simpa using hpc.symm.trans hpc'
      have hne := (not_sleeping_wakeupAt ht hr hx).2
      exact ⟨k + 1, by simp, by omega⟩
    | @reparentWoken _ st' j' k' hpc' hk' => grind
    | waitLock hpc' _ => rcases hpc' with hpc' | hpc' <;> simp [hpc] at hpc'
    | _ => simp_all
  · refine ⟨k, (h.pc_other hrp fun hf => ?_).trans hpc, hk⟩
    have hu := ht.child p r (by rw [hf]; rfl)
    grind

section
variable (hs : s.Waits) (ht : s.Threads)
include hs ht

theorem asleep_moves (hr : (s.slot p).sched.state = .running) (h : Moves s p ok t) (x q : Fin N)
    (hx : (t.slot x).sched.state = .sleeping) (hq : t.ZombieChild x q) : x = t.initproc ∧
    ∃ r st j k, t.pc r = .reparentWake st j k ∧ k ≤ x.val := by
  rw [h.initproc]
  rcases sleeps_moves hr h hx with ⟨hxp, hsx⟩ | ⟨rfl, ⟨addr, hpc⟩, hkeep⟩
  · have hz (hpar : (s.slot q).parent = some x) : s.ZombieChild x q := by
      refine ⟨hpar, ?_⟩
      rcases h.state q with ⟨h1, _⟩ | ⟨_, h1⟩ | ⟨_, _, h1, _⟩ | ⟨_, h1⟩ | ⟨rfl, ⟨st, h1⟩, _⟩ |
        ⟨h1, _⟩ | ⟨_, h1, _⟩
      · exact h1.symm.trans hq.2
      · cases hq.2.symm.trans h1
      · cases hq.2.symm.trans h1
      · cases hq.2.symm.trans h1
      · exact absurd hsx (hs.zombie q st x h1 hpar)
      · exact h1
      · cases hq.2.symm.trans h1
    rcases h.parent q with h1 | ⟨_, _, _, h1⟩ | ⟨⟨st, h1⟩, _, h2⟩ | ⟨h1, _⟩
    · obtain ⟨rfl, r, st, j, k, hpc, hk⟩ := hs.asleep x q hsx (hz (h1.symm.trans hq.1))
      obtain ⟨k', hpc', hk'⟩ := reparentWake_moves ht hr h hx hpc hk
      exact ⟨rfl, r, st, j, k', hpc', hk'⟩
    · exact absurd (Option.some_inj.mp (hq.1.symm.trans h1)) hxp
    · grind
    · have hn := hq.1
      rw [h1] at hn
      cases hn
  · grind

theorem waker_moves (hf : s.Family) (hr : (s.slot p).sched.state = .running) (h : Moves s p ok t)
    (r : Fin N) (st : ℤ) (k : ℕ) (x : Fin N) (hpc : t.pc r = .exitWake st k)
    (hpar : (t.slot r).parent = some x) (hx : (t.slot x).sched.state = .sleeping) : k ≤ x.val := by
  obtain rfl | hrp := eq_or_ne r p
  · cases h with
    | reparentEnd hpc' hj =>
      obtain ⟨rfl, rfl⟩ : _ = st ∧ 0 = k := by simpa using hpc
      exact Nat.zero_le _
    | @exitWake _ st' k' hpc' hk' =>
      obtain ⟨rfl, rfl⟩ : st' = st ∧ k' + 1 = k := by simpa using hpc
      obtain ⟨y, hy, _⟩ := Proc.wakeupAt_slot s r (s.slot r).parent k' r
      have hsp : (s.slot r).parent = some x := by simpa only [State.setPc_slot, hy] using hpar
      rw [hsp] at hx
      obtain ⟨hsx, hne⟩ := not_sleeping_wakeupAt ht hr hx
      have hle := hs.waker r st' k' x hpc' hsp hsx
      omega
    | _ => simp at hpc
  · have hh : (t.pc r).holds = true := by rw [hpc]; rfl
    have hsame := h.pc_holder hrp hh
    rw [hsame] at hh hpc
    rw [(h.kept ht hf hrp hh r).1] at hpar
    exact hs.waker r st k x hpc hpar ((h.kept ht hf hrp hh x).2.2 hx)

theorem zombie_moves (hf : s.Family) (h : Moves s p ok t)
    (r : Fin N) (st : ℤ) (x : Fin N) (hpc : t.pc r = .exitZombie st)
    (hpar : (t.slot r).parent = some x) : (t.slot x).sched.state ≠ .sleeping := by
  intro hx
  obtain rfl | hrp := eq_or_ne r p
  · cases h with
    | @exitWoken _ st' k hpc' hk => grind
    | _ => simp at hpc
  · have hh : (t.pc r).holds = true := by rw [hpc]; rfl
    have hsame := h.pc_holder hrp hh
    rw [hsame] at hh hpc
    rw [(h.kept ht hf hrp hh r).1] at hpar
    exact hs.zombie r st x hpc hpar ((h.kept ht hf hrp hh x).2.2 hx)

theorem moves (hf : s.Family)
    (hr : (s.slot p).sched.state = .running) (h : Moves s p ok t) : t.Waits where
  scan := hs.scan_moves ht hf h
  asleep := hs.asleep_moves ht hr h
  waker := hs.waker_moves ht hf hr h
  zombie := hs.zombie_moves ht hf h

end

/-- A call that starts; nothing about waiting is said of its first program point. -/
theorem call (hs : s.Waits) (hc : s.CanCall p) {c : Pc N} (hsc : ∀ k, ¬ c.scanned k)
    (hw : ∀ st k, c ≠ .exitWake st k) (hz : ∀ st, c ≠ .exitZombie st) : (s.setPc p c).Waits := by
  have hpc : ∀ q ≠ p, (s.setPc p c).pc q = s.pc q := fun q hq => by simp [hq]
  have hself : (s.setPc p c).pc p = c := by simp
  refine ⟨fun r q hr hq => ?_, fun x q hx hq => ?_, fun r st k x hr => ?_, fun r st x hr => ?_⟩
  · grind
  · obtain ⟨hi, r, st, j, k, hr, hk⟩ := hs.asleep x q hx hq
    grind
  · grind
  · grind

theorem setSched (hs : s.Waits) {x : Sched (Fin N)} (hx : x.state ≠ .zombie)
    (hsl : x.state ≠ .sleeping) : (s.setSched q x).Waits := by
  have hpar r : ((s.setSched q x).slot r).parent = (s.slot r).parent := by
    by_cases hrq : r = q
    · simp [hrq]
    · simp [hrq]
  have hzom r (hr : ((s.setSched q x).slot r).sched.state = .zombie) :
      (s.slot r).sched.state = .zombie := by
    by_cases hrq : r = q
    · exact absurd (by simpa [hrq] using hr) hx
    · simpa [hrq] using hr
  have hsleep r (hr : ((s.setSched q x).slot r).sched.state = .sleeping) :
      (s.slot r).sched.state = .sleeping := by
    by_cases hrq : r = q
    · exact absurd (by simpa [hrq] using hr) hsl
    · simpa [hrq] using hr
  refine ⟨fun r y hr hy => ?_, fun r y hr hy => ?_, fun r st k y hr hy hst => ?_,
    fun r st y hr hy hst => ?_⟩
  · rw [hpar] at hy
    obtain ⟨h1, h2⟩ := hs.scan r y hr hy
    exact ⟨fun hz => h1 (hzom y hz), h2⟩
  · exact hs.asleep r y (hsleep r hr) ⟨(hpar y).symm.trans hy.1, hzom y hy.2⟩
  · grind
  · grind

end State.Waits

theorem Next.waits (h : Next s a t) (ht : s.Threads) (hf : s.Family) (hs : s.Waits) : t.Waits := by
  cases h with
  | call hc hcall =>
    rcases hcall with ⟨_, rfl⟩ | ⟨_, _, _, rfl⟩ | ⟨_, _, rfl⟩ | ⟨_, _, rfl⟩
    · exact hs.call hc (fun _ => id) (by simp) (by simp)
    · exact hs.call hc (fun _ => id) (by simp) (by simp)
    · exact hs.call hc (fun _ => id) (by simp) (by simp)
    · exact hs.call hc (fun _ => id) (by simp) (by simp)
  | step hr hm => exact hs.moves ht hf hr hm
  | fault hc => refine hs.setSched ?_ ?_ <;> simp [hc.2]
  | resume hr | yield hr => exact hs.setSched (by simp) (by simp)

end Xv6.Proc
