import Xv6.Pipe.Steps

/-! No lost wakeup: when `pi->lock` is free, a process sleeps on a pipe only for the reason it went
to sleep for. The exit of `pipewrite` for a killed process breaks this when it is taken after a
byte has been stored. -/
namespace Xv6.Pipe
open Function Proc Transition
attribute [local simp] Pc.holds
variable {N : ℕ} {s t : State N} {p : Fin N} {copy : Option UInt8} {a : Act N}

namespace State

@[grind] def Reason (s : State N) : Chan → Prop
  | .nread => s.pi.ring.Empty ∧ s.pi.writeopen = true
  | .nwrite => s.pi.ring.Full ∧ s.pi.readopen = true

/-- Every process that sleeps on channel `c` has a reason to. -/
@[grind] def Justified (s : State N) (c : Chan) : Prop := ∀ r, (s.proc r).SleepsOn c → s.Reason c

/-- What the process that has `pi->lock` knows at each point of its call. -/
@[grind] def Point (s : State N) (p : Fin N) : Pc → Prop
  | .writeTest n i => s.Justified .nwrite ∧ (s.pi.readopen = true ∨ s.Justified .nread) ∧
      ((i : ℤ) < n → (s.proc p).killed = true → s.Justified .nread) ∧
      ∀ r, (s.proc r).SleepsOn .nread → s.pi.writeopen = true
  | .writeBody n i => s.Justified .nwrite ∧ s.pi.readopen = true ∧
      ((s.proc p).killed = true →
        (∀ r, ¬ (s.proc r).SleepsOn .nread) ∨ s.pi.ring.Full ∨ n ≤ i + 1) ∧
      ∀ r, (s.proc r).SleepsOn .nread → s.pi.writeopen = true
  | .fullWake _ _ k => s.Justified .nwrite ∧ s.Reason .nwrite ∧
      ∀ r, (s.proc r).SleepsOn .nread → k ≤ r.val
  | .writeSleep _ _ => s.Justified .nwrite ∧ s.Reason .nwrite ∧ s.Justified .nread
  | .writeWake _ k => s.Justified .nwrite ∧
      ∀ r, (s.proc r).SleepsOn .nread → k ≤ r.val ∨ s.Reason .nread
  | .readTest _ => s.Justified .nwrite ∧ s.Justified .nread
  | .readSleep _ => s.Justified .nwrite ∧ s.Justified .nread ∧ s.Reason .nread
  | .readCopy _ _ => s.Justified .nread
  | .readWake _ _ k => s.Justified .nread ∧
      ∀ r, (s.proc r).SleepsOn .nwrite → k ≤ r.val ∨ s.Reason .nwrite
  | .closeWake true k => s.Justified .nwrite ∧ ∀ r, (s.proc r).SleepsOn .nread → k ≤ r.val
  | .closeWake false k => s.Justified .nread ∧ ∀ r, (s.proc r).SleepsOn .nwrite → k ≤ r.val
  | _ => True

@[grind cases] structure Awake (s : State N) : Prop where
  exclusive : s.Exclusive
  free : s.lock = none → s.Justified .nread ∧ s.Justified .nwrite
  held : ∀ p, (s.pc p).holds = true → s.Point p (s.pc p)

end State

attribute [local simp] State.Reason

theorem State.Justified.mono {c : Chan} (h : s.Justified c) (hpi : t.pi = s.pi)
    (hsub : ∀ r, (t.proc r).SleepsOn c → (s.proc r).SleepsOn c) : t.Justified c := by
  intro r hr
  have := h r (hsub r hr)
  cases c <;> simpa [hpi] using this

/-- When processes only wake up, what the holder of the lock knows stays true. -/
theorem State.Point.mono {c : Pc} (h : s.Point p c) (hpi : t.pi = s.pi)
    (hsub : ∀ r c, (t.proc r).SleepsOn c → (s.proc r).SleepsOn c)
    (hk : (∃ n i, c = .writeTest n i ∨ c = .writeBody n i) →
      (t.proc p).killed = (s.proc p).killed) : t.Point p c := by
  have hreason : ∀ c, t.Reason c ↔ s.Reason c := by
    intro c
    cases c <;> simp [hpi]
  have hj c (hc : s.Justified c) : t.Justified c := hc.mono hpi fun r => hsub r c
  cases c with
  | writeTest n i => grind
  | writeBody n i =>
    obtain ⟨h1, h2, h3, h4⟩ := h
    refine ⟨hj _ h1, ?_, fun hkill => ?_, fun r hr => ?_⟩
    · rw [hpi]
      exact h2
    · rw [hpi]
      rw [hk ⟨n, i, .inr rfl⟩] at hkill
      grind
    · rw [hpi]
      exact h4 r (hsub r _ hr)
  | fullWake n i k => grind
  | writeSleep n i => grind
  | writeWake i k | readWake n i k => grind
  | readTest n => exact ⟨hj _ h.1, hj _ h.2⟩
  | readSleep n => grind
  | readCopy n i => exact hj .nread h
  | closeWake w k =>
    cases w with
    | true | false => exact ⟨hj _ h.1, fun r hr => h.2 r (hsub r _ hr)⟩
  | _ => trivial

/-- After a round of `wakeup` the sleepers on the channel are in later slots. -/
theorem sleeper_after {c d : Chan} {k : ℕ} {r : Fin N} (hr : (s.proc p).state = .running)
    (h : ((s.wakeupAt p c k).proc r).SleepsOn d) : (s.proc r).SleepsOn d ∧ (d = c → r.val ≠ k) := by
  rw [State.wakeupAt_proc, sleepsOn_wakeupAt] at h
  grind

/-- A pipe that is not full has no sleeping writer, and one that is not empty no sleeping reader. -/
theorem State.Justified.no_writer (h : s.Justified .nwrite) (hf : ¬ s.pi.ring.Full) (r : Fin N) :
    ¬ (s.proc r).SleepsOn .nwrite := fun hr => hf (h r hr).1

theorem State.Justified.no_reader (h : s.Justified .nread) (he : ¬ s.pi.ring.Empty) (r : Fin N) :
    ¬ (s.proc r).SleepsOn .nread := fun hr => he (h r hr).1

theorem Moves.point (h : Moves s p copy t) (hs : s.Awake) (hr : (s.proc p).state = .running) :
    (t.lock = none → t.Justified .nread ∧ t.Justified .nwrite) ∧
      ((t.pc p).holds = true → t.Point p (t.pc p)) := by
  have hheld : ∀ c, s.pc p = c → c.holds = true → s.Point p c ∧ s.lock = some p := by grind
  have hstay : ∀ c, t.lock = some p → t.pc p = c → t.Point p c →
      (t.lock = none → t.Justified .nread ∧ t.Justified .nwrite) ∧
        ((t.pc p).holds = true → t.Point p (t.pc p)) := by grind
  have hleave (hno : (t.pc p).holds = false) (hc : t.Justified .nread ∧ t.Justified .nwrite) :
      (t.lock = none → t.Justified .nread ∧ t.Justified .nwrite) ∧
      ((t.pc p).holds = true → t.Point p (t.pc p)) := by grind
  cases h with
  | writeEnd hpc hi | copyinFails hpc hf =>
    obtain ⟨⟨h1, h2, h3, h4⟩, hl⟩ := hheld _ hpc rfl
    exact hstay _ hl (update_self ..) ⟨h1, fun r _ => .inl (Nat.zero_le _)⟩
  | writeGiveUp hpc hi hc =>
    obtain ⟨⟨h1, h2, h3, h4⟩, hl⟩ := hheld _ hpc rfl
    refine hleave (by simp) ⟨?_, h1⟩
    rcases hc with hc | hc
    · exact h2.resolve_left (by simp [hc])
    · exact h3 hi hc
  | writeGoOn hpc hi hro hk =>
    obtain ⟨⟨h1, h2, h3, h4⟩, hl⟩ := hheld _ hpc rfl
    exact hstay _ hl (update_self ..) ⟨h1, hro, fun hkill => by simp [hk] at hkill, h4⟩
  | full hpc hf =>
    obtain ⟨⟨h1, h2, h3, h4⟩, hl⟩ := hheld _ hpc rfl
    exact hstay _ hl (update_self ..) ⟨h1, ⟨hf, h2⟩, fun r _ => Nat.zero_le _⟩
  | @store n i ch hpc hf =>
    obtain ⟨⟨h1, h2, h3, h4⟩, hl⟩ := hheld _ hpc rfl
    refine hstay _ hl (update_self ..) ⟨fun r hr => absurd hr (h1.no_writer hf r), .inl h2,
      fun hi hkill r hr => ?_, h4⟩
    rcases h3 hkill with hno | hfull | hn
    · exact absurd hr (hno r)
    · exact absurd hfull hf
    · push_cast at hi
      omega
  | @fullWake _ n i k hpc hk =>
    obtain ⟨⟨h1, h2, h3⟩, hl⟩ := hheld _ hpc rfl
    refine hstay _ hl (update_self ..) ⟨h1.mono rfl fun r hs' => (sleeper_after hr hs').1, h2,
      fun r hs' => ?_⟩
    obtain ⟨hs', hne⟩ := sleeper_after hr hs'
    have := h3 r hs'
    have := hne rfl
    omega
  | fullWoken hpc hk =>
    obtain ⟨⟨h1, h2, h3⟩, hl⟩ := hheld _ hpc rfl
    refine hstay _ hl (update_self ..) ⟨h1, h2, fun r hs' => ?_⟩
    have := h3 r hs'
    omega
  | writeSleep hpc =>
    obtain ⟨⟨h1, h2, h3⟩, hl⟩ := hheld _ hpc rfl
    refine hleave (by simp) ⟨fun r hs' => ?_, fun _ _ => h2⟩
    obtain rfl | hrp := eq_or_ne r p
    · simp [Sched.sleepsOn_sleep] at hs'
    · exact h3 r (by simpa [hrp] using hs')
  | writeAgain hpc hl hf =>
    obtain ⟨h1, h2⟩ := hs.free hl
    exact hstay _ rfl (update_self ..) ⟨h2, .inr h1, fun _ _ => h1, fun r hr => (h1 r hr).2⟩
  | @writeWake _ i k hpc hk | @readWake _ n i k hpc hk =>
    obtain ⟨⟨h1, h2⟩, hl⟩ := hheld _ hpc rfl
    refine hstay _ hl (update_self ..) ⟨h1.mono rfl fun r hs' => (sleeper_after hr hs').1,
      fun r hs' => ?_⟩
    obtain ⟨hs', hne⟩ := sleeper_after hr hs'
    grind
  | writeReturn hpc hk =>
    obtain ⟨⟨h1, h2⟩, hl⟩ := hheld _ hpc rfl
    refine hleave (by simp) ⟨fun r hs' => ?_, h1⟩
    exact (h2 r hs').resolve_left (by omega)
  | readGiveUp hpc he hw hk =>
    obtain ⟨⟨h1, h2⟩, hl⟩ := hheld _ hpc rfl
    exact hleave (by simp) ⟨h2, h1⟩
  | readWait hpc he hw hk =>
    obtain ⟨⟨h1, h2⟩, hl⟩ := hheld _ hpc rfl
    exact hstay _ hl (update_self ..) ⟨h1, h2, he, hw⟩
  | readGoOn hpc hc =>
    obtain ⟨⟨h1, h2⟩, hl⟩ := hheld _ hpc rfl
    exact hstay _ hl (update_self ..) h2
  | readSleep hpc =>
    obtain ⟨⟨h1, h2, h3⟩, hl⟩ := hheld _ hpc rfl
    refine hleave (by simp) ⟨fun _ _ => h3, fun r hs' => ?_⟩
    obtain rfl | hrp := eq_or_ne r p
    · simp [Sched.sleepsOn_sleep] at hs'
    · exact h1 r (by simpa [hrp] using hs')
  | readAgain hpc hl hf =>
    obtain ⟨h1, h2⟩ := hs.free hl
    exact hstay _ rfl (update_self ..) ⟨h2, h1⟩
  | readEmpty hpc hi he | readEnd hpc hi =>
    obtain ⟨h1, hl⟩ := hheld _ hpc rfl
    exact hstay _ hl (update_self ..) ⟨h1, fun r _ => .inl (Nat.zero_le _)⟩
  | take ch hpc hi he =>
    obtain ⟨h1, hl⟩ := hheld _ hpc rfl
    exact hstay _ hl (update_self ..) fun r hs' => absurd hs' (State.Justified.no_reader h1 he r)
  | copyoutFails hpc hi he =>
    obtain ⟨h1, hl⟩ := hheld _ hpc rfl
    exact hstay _ hl (update_self ..) ⟨fun r hs' => absurd hs' (State.Justified.no_reader h1 he r),
      fun r _ => .inl (Nat.zero_le _)⟩
  | readReturn hpc hk =>
    obtain ⟨⟨h1, h2⟩, hl⟩ := hheld _ hpc rfl
    refine hleave (by simp) ⟨h1, fun r hs' => ?_⟩
    exact (h2 r hs').resolve_left (by omega)
  | @closeWake _ w k hpc hk =>
    obtain ⟨hpt, hl⟩ := hheld _ hpc rfl
    refine hstay _ hl (update_self ..) ?_
    cases w with
    | true | false =>
      refine ⟨hpt.1.mono rfl fun r hs' => (sleeper_after hr hs').1, fun r hs' => ?_⟩
      obtain ⟨hs', hne⟩ := sleeper_after hr hs'
      have := hne rfl
      have := hpt.2 r hs'
      omega
  | @closeReturn _ w k hpc hk =>
    obtain ⟨hpt, hl⟩ := hheld _ hpc rfl
    refine hleave (by simp) ?_
    cases w with
    | true =>
      refine ⟨fun r hs' => ?_, hpt.1⟩
      have := hpt.2 r hs'
      omega
    | false =>
      refine ⟨hpt.1, fun r hs' => ?_⟩
      have := hpt.2 r hs'
      omega

/-- `kill` reaches process `q` inside the loop of `pipewrite`, with bytes stored or about to be
stored that the processes sleeping on `&pi->nread` have not been told of. -/
@[grind] def State.Interrupts (s : State N) (q : Fin N) : Prop :=
  (∃ r, (s.proc r).SleepsOn .nread) ∧ match s.pc q with
    | .writeTest n i => (i : ℤ) < n ∧ ¬ s.pi.ring.Empty
    | .writeBody n i => i + 1 < n ∧ ¬ s.pi.ring.Full
    | _ => False

instance (s : State N) (q : Fin N) : Decidable (s.Interrupts q) := by
  unfold State.Interrupts
  cases s.pc q <;> infer_instance

@[grind] def State.Calm (s : State N) : Act N → Prop
  | .kill q => ¬ s.Interrupts q
  | _ => True

instance (s : State N) : ∀ a, Decidable (s.Calm a)
  | .kill q => inferInstanceAs (Decidable (¬ s.Interrupts q))
  | .write _ _ | .read _ _ | .close _ _ | .step _ _ | .resume _ | .yield _ => isTrue trivial

theorem awake_init (data : Fin pipesize → UInt8) : (State.init N data).Awake where
  exclusive := exclusive_init data
  free _ := ⟨fun r hr => absurd hr.1 (by simp [State.init]),
    fun r hr => absurd hr.1 (by simp [State.init])⟩
  held := by simp [State.init]

/-- A kill that does not interrupt a writer leaves what the writer knows true. -/
theorem State.Point.kill (h : s.Point p (s.pc p)) (hc : ¬ s.Interrupts p) :
    (s.setProc p (s.proc p).kill).Point p (s.pc p) := by
  have hsub r c (hr : ((s.setProc p (s.proc p).kill).proc r).SleepsOn c) :
      (s.proc r).SleepsOn c := by
    obtain rfl | hrp := eq_or_ne r p
    · simp only [State.setProc_proc, update_self] at hr
      exact absurd hr Sched.not_sleepsOn_kill
    · simpa [hrp] using hr
  unfold State.Interrupts at hc
  cases hpc : s.pc p with
  | writeTest n i =>
    rw [hpc] at h hc
    obtain ⟨h1, h2, h3, h4⟩ := h
    refine ⟨h1.mono rfl fun r => hsub r _, h2.imp_right fun hj => hj.mono rfl fun r => hsub r _,
      fun hi _ r hr => ?_, fun r hr => h4 r (hsub r _ hr)⟩
    have hr := hsub r _ hr
    refine ⟨?_, h4 r hr⟩
    by_contra he
    exact hc ⟨⟨r, hr⟩, hi, he⟩
  | writeBody n i =>
    rw [hpc] at h hc
    obtain ⟨h1, h2, h3, h4⟩ := h
    refine ⟨h1.mono rfl fun r => hsub r _, h2, fun _ => ?_, fun r hr => h4 r (hsub r _ hr)⟩
    by_cases hno : ∃ r, (s.proc r).SleepsOn .nread
    · right
      by_contra hcon
      rw [not_or, not_le] at hcon
      exact hc ⟨hno, hcon.2, hcon.1⟩
    · exact .inl fun r hr => hno ⟨r, hsub r _ hr⟩
  | _ =>
    rw [hpc] at h
    refine h.mono rfl hsub ?_
    rintro ⟨n, i, hcon | hcon⟩ <;> cases hcon

theorem State.Awake.setProc (hs : s.Awake) {q : Fin N} {x : Sched Chan}
    (hx : ∀ c, x.SleepsOn c → (s.proc q).SleepsOn c)
    (hq : (s.pc q).holds = true → (s.setProc q x).Point q (s.pc q)) : (s.setProc q x).Awake := by
  have hsub r c (hr : ((s.setProc q x).proc r).SleepsOn c) : (s.proc r).SleepsOn c := by
    obtain rfl | hrq := eq_or_ne r q
    · exact hx c (by simpa using hr)
    · simpa [hrq] using hr
  refine ⟨hs.exclusive, fun hl => ?_, fun p hp => ?_⟩
  · grind
  · obtain rfl | hpq := eq_or_ne p q
    · exact hq hp
    · exact (hs.held p hp).mono rfl hsub fun _ => by simp [hpq]

/-- A call takes the free lock, when every sleeper is justified. -/
theorem State.Awake.call (hs : s.Awake) (hc : s.CanCall p) (c : Pc) (hl : t.lock = some p)
    (hpc : t.pc = update s.pc p c) (hpt : t.Point p c) : t.Awake := by
  have hex := hs.exclusive.call hc c hl hpc
  refine ⟨hex, fun hno => absurd (hl.symm.trans hno) (by simp), fun q hq => ?_⟩
  obtain rfl : p = q := Option.some_inj.mp (hl.symm.trans (hex q hq))
  rw [hpc, update_self]
  exact hpt

theorem Next.awake (h : Next s a t) (hs : s.Awake) (hc : s.Calm a) : t.Awake := by
  cases h with
  | write hcall =>
    obtain ⟨h1, h2⟩ := hs.free hcall.2.2.1
    exact hs.call hcall _ rfl rfl ⟨h2, .inr h1, fun _ _ => h1, fun r hr => (h1 r hr).2⟩
  | read hcall =>
    obtain ⟨h1, h2⟩ := hs.free hcall.2.2.1
    exact hs.call hcall _ rfl rfl ⟨h2, h1⟩
  | @close p w hcall =>
    obtain ⟨h1, h2⟩ := hs.free hcall.2.2.1
    refine hs.call hcall _ rfl rfl ?_
    cases w with
    | true => exact ⟨fun r hr => by simpa using h2 r hr, fun _ _ => Nat.zero_le _⟩
    | false => exact ⟨fun r hr => by simpa using h1 r hr, fun _ _ => Nat.zero_le _⟩
  | @step p copy _ hr hm =>
    obtain ⟨hfree, hheld⟩ := hm.point hs hr
    refine ⟨hm.exclusive hs.exclusive, hfree, fun q hq => ?_⟩
    obtain rfl | hqp := eq_or_ne q p
    · exact hheld hq
    rw [hm.pc_other hqp] at hq
    have hlq := hs.exclusive q hq
    rcases hm.control with ⟨hp, _⟩ | ⟨hp, _⟩ | ⟨_, hl, _⟩
    · grind
    · grind
    · cases hlq.symm.trans hl
  | @kill q =>
    refine hs.setProc (fun c hx => absurd hx Sched.not_sleepsOn_kill) fun hq => ?_
    exact (hs.held q hq).kill hc
  | @resume q hr =>
    have hno c : ¬ (s.proc q).resume.SleepsOn c := by simp [Sched.SleepsOn]
    refine hs.setProc (fun c hx => absurd hx (hno c)) fun hq => ?_
    refine (hs.held q hq).mono rfl (fun r c hx => ?_) fun _ => by simp
    obtain rfl | hrq := eq_or_ne r q
    · exact absurd (by simpa using hx) (hno c)
    · simpa [hrq] using hx
  | @yield q hr hl =>
    refine hs.setProc (fun c hx => absurd hx.1 (by simp)) fun hq => ?_
    rw [hl] at hq
    cases hq

theorem awake_run {data : Fin pipesize → UInt8} {acts : List (Act N)}
    (hc : Meets State.next State.Calm (State.init N data) acts)
    (hr : run State.next (State.init N data) acts = some s) : s.Awake :=
  run_invariant_of_meets (fun _ _ _ hs hc ht => (next_of_eq ht).awake hs hc) (awake_init data) hc hr

/-- As long as no kill interrupts a writer between a byte it stores and its call of `wakeup`, a
process sleeps on an unlocked pipe only while there is a reason to. -/
theorem no_lost_wakeup (data : Fin pipesize → UInt8) (acts : List (Act N))
    (hc : Meets State.next State.Calm (State.init N data) acts)
    (hr : run State.next (State.init N data) acts = some s) (hl : s.lock = none) (r : Fin N) :
    ((s.proc r).SleepsOn .nread → s.pi.ring.Empty ∧ s.pi.writeopen = true) ∧
      ((s.proc r).SleepsOn .nwrite → s.pi.ring.Full ∧ s.pi.readopen = true) := by
  obtain ⟨h1, h2⟩ := (awake_run hc hr).free hl
  exact ⟨h1 r, h2 r⟩

/-- Process 1 sleeps in `piperead`; process 0 is killed before it calls `pipewrite`. -/
def killedBefore : List (Act 2) :=
  [.resume 0, .resume 1, .read 1 1, .step 1 none, .step 1 none, .kill 0, .write 0 2, .step 0 none]

theorem no_lost_wakeup_killed_before : ∃ s ∈ run State.next (State.init 2 fun _ => 0) killedBefore,
    (s.proc 1).SleepsOn .nread ∧ s.pi.ring.Empty ∧ s.pi.writeopen = true := by
  have h : ∃ s ∈ run State.next (State.init 2 fun _ => 0) killedBefore,
      s.lock = none ∧ (s.proc 1).SleepsOn .nread := by decide +kernel
  obtain ⟨s, hr, hl, hsl⟩ := h
  exact ⟨s, hr, hsl, (no_lost_wakeup _ killedBefore (by decide +kernel) hr hl 1).1 hsl⟩

/-- Process 1 sleeps in `piperead`. Process 0 stores the first of two bytes, is killed, and leaves
`pipewrite` without a `wakeup`: process 1 sleeps on although there is a byte to read. -/
theorem killed_writer_loses_wakeup : ∃ s ∈ run State.next (State.init 2 fun _ => 0)
      [.resume 0, .resume 1, .read 1 1, .step 1 none, .step 1 none, .write 0 2, .step 0 none,
        .step 0 (some 7), .kill 0, .step 0 none],
    s.lock = none ∧ (s.proc 1).SleepsOn .nread ∧ ¬ s.pi.ring.Empty ∧ s.pi.writeopen = true := by
  decide +kernel

end Xv6.Pipe
