import Xv6.Proc.Kill

/-! The pids that `fork` returns. `nextpid` only grows, so the pids of the processes are different
as long as the counter has not gone past the largest `int`. -/
namespace Xv6.Proc
open Transition
attribute [local simp] State.boot Slot.free
variable {N : ℕ} {s t : State N} {p q : Fin N} {ok : Bool} {a : Act N}

private theorem toInt_succ {x : ℤ} (h : 0 < x) (hx : x < 2 ^ 31) :
    toInt (x + 1) < 2 ^ 31 ∧ (0 < toInt (x + 1) → toInt (x + 1) = x + 1) := by
  unfold toInt Int.bmod
  dsimp only
  split <;> omega

theorem Moves.nextpid (h : Moves s p ok t) : t.nextpid = s.nextpid ∨
    ∃ q : Fin N, s.pc p = .forkScan q.val ∧ (s.slot q).sched.state = .unused ∧
      t.nextpid = toInt (s.nextpid + 1) := by
  cases h with
  | forkFound hpc hu | forkNoMem hpc hu => exact .inr ⟨_, hpc, hu, rfl⟩
  | _ => exact .inl rfl

theorem Moves.pid (h : Moves s p ok t) (hq : (s.slot q).sched.state ≠ .unused)
    (hq' : (t.slot q).sched.state ≠ .unused) : (t.slot q).pid = (s.slot q).pid := by
  rcases h.flag q with ⟨hpid, _⟩ | hfree | ⟨hu, _⟩ | ⟨_, hkill⟩
  · exact hpid
  · rw [hfree] at hq'
    exact absurd rfl hq'
  · exact absurd hu hq
  · rw [hkill, Function.update_self]

theorem Moves.born (h : Moves s p ok t) (hs : s.Threads) (hr : (s.slot p).sched.state = .running)
    (hu : (s.slot q).sched.state = .unused) (hq : (t.slot q).sched.state ≠ .unused) :
    s.pc p = .forkScan q.val ∧ (t.slot q).pid = s.nextpid ∧
      (∀ r ≠ q, t.slot r = s.slot r) ∧ t.nextpid = toInt (s.nextpid + 1) := by
  have hqp : q ≠ p := by
    rintro rfl
    rw [hr] at hu
    cases hu
  have hparent : t.pc p = .forkParent q ∧ s.pc p = .forkScan q.val := by
    rcases h.state q with ⟨h1, _⟩ | ⟨h1, _⟩ | ⟨h1, _, _, h2⟩ | ⟨h1, _⟩ | ⟨h1, _⟩ | ⟨h1, _⟩ | ⟨h1, _⟩
    · exact absurd (h1.trans hu) hq
    · cases hu.symm.trans h1
    · exact ⟨h2, h1⟩
    · have hused := hs.child p q (by rw [h1]; rfl)
      cases hu.symm.trans hused
    · exact absurd h1 hqp
    · cases hu.symm.trans h1
    · exact absurd h1 hqp
  cases h with
  | @forkFound c hpc _ =>
    obtain rfl : c = q := by simpa using hparent.1
    exact ⟨hpc, by simp, fun r hr => by simp [hr], rfl⟩
  | _ => simp_all

/-- `allocpid` is called with a positive counter. -/
@[grind] def State.PidLeft (s : State N) : Act N → Prop
  | .step p _ => ∀ q : Fin N, s.pc p = .forkScan q.val → (s.slot q).sched.state = .unused →
      0 < s.nextpid
  | _ => True

instance (s : State N) (a : Act N) : Decidable (s.PidLeft a) :=
  match a with
  | .step p _ => inferInstanceAs (Decidable (∀ q : Fin N, s.pc p = .forkScan q.val →
      (s.slot q).sched.state = .unused → 0 < s.nextpid))
  | .fork _ | .exit _ _ | .wait _ _ | .kill _ _ | .fault _ | .resume _ | .yield _ =>
    inferInstanceAs (Decidable True)

@[grind cases] structure State.Pids (s : State N) : Prop where
  bound : s.nextpid < 2 ^ 31
  pos : ∀ q, (s.slot q).sched.state ≠ .unused →
    0 < (s.slot q).pid ∧ (0 < s.nextpid → (s.slot q).pid < s.nextpid)
  inj : ∀ q r, q ≠ r → (s.slot q).sched.state ≠ .unused → (s.slot r).sched.state ≠ .unused →
    (s.slot q).pid ≠ (s.slot r).pid

theorem pids_boot (init : Fin N) : (State.boot N init).Pids where
  bound := by simp
  pos q hq := by
    by_cases hqi : q = init
    · simp [hqi]
    · simp [hqi] at hq
  inj q r hqr hq hr := by
    by_cases hqi : q = init
    · have hri : r ≠ init := fun h => hqr (hqi.trans h.symm)
      simp [hri] at hr
    · simp [hqi] at hq

namespace State.Pids
variable (hs : s.Pids)
include hs

theorem same (hn : t.nextpid < 2 ^ 31) (hle : 0 < t.nextpid → 0 < s.nextpid ∧ s.nextpid ≤ t.nextpid)
    (hq : ∀ q, (t.slot q).sched.state ≠ .unused →
      (s.slot q).sched.state ≠ .unused ∧ (t.slot q).pid = (s.slot q).pid) : t.Pids := by
  refine ⟨hn, fun q hu => ?_, fun q r hqr hu hu' => ?_⟩
  · obtain ⟨hsu, hpid⟩ := hq q hu
    have hpos := hs.pos q hsu
    rw [hpid]
    exact ⟨hpos.1, fun h0 => (hpos.2 (hle h0).1).trans_le (hle h0).2⟩
  · obtain ⟨hsu, hpid⟩ := hq q hu
    obtain ⟨hsu', hpid'⟩ := hq r hu'
    rw [hpid, hpid']
    exact hs.inj q r hqr hsu hsu'

theorem born (h0 : 0 < s.nextpid) (hpid : (t.slot q).pid = s.nextpid)
    (hother : ∀ r ≠ q, t.slot r = s.slot r) (hn : t.nextpid = toInt (s.nextpid + 1)) : t.Pids := by
  obtain ⟨hbound, hsucc⟩ := toInt_succ h0 hs.bound
  rw [← hn] at hbound hsucc
  have hlt : ∀ r ≠ q, (t.slot r).sched.state ≠ .unused → 0 < (t.slot r).pid ∧
      (t.slot r).pid < s.nextpid := by
    intro r hr hu
    rw [hother r hr] at hu ⊢
    exact ⟨(hs.pos r hu).1, (hs.pos r hu).2 h0⟩
  refine ⟨hbound, fun r hu => ?_, fun r r' hrr hu hu' => ?_⟩
  · by_cases hr : r = q
    · rw [hr, hpid]
      exact ⟨h0, fun h => by rw [hsucc h]; exact lt_add_one _⟩
    · obtain ⟨h1, h2⟩ := hlt r hr hu
      exact ⟨h1, fun h => by rw [hsucc h]; exact h2.trans (lt_add_one _)⟩
  · by_cases hr : r = q
    · have hr' : r' ≠ q := fun h => hrr (hr.trans h.symm)
      rw [hr, hpid]
      exact (hlt r' hr' hu').2.ne'
    by_cases hr' : r' = q
    · rw [hr', hpid]
      exact (hlt r hr hu).2.ne
    · rw [hother r hr] at hu ⊢
      rw [hother r' hr'] at hu' ⊢
      exact hs.inj r r' hrr hu hu'

theorem moves (ht : s.Threads) (hr : (s.slot p).sched.state = .running)
    (hc : s.PidLeft (.step p ok)) (h : Moves s p ok t) : t.Pids := by
  by_cases hnew : ∃ q, (s.slot q).sched.state = .unused ∧ (t.slot q).sched.state ≠ .unused
  · obtain ⟨q, hu, hq⟩ := hnew
    obtain ⟨hpc, hpid, hother, hn⟩ := h.born ht hr hu hq
    exact hs.born (hc q hpc hu) hpid hother hn
  have hold q (hq : (t.slot q).sched.state ≠ .unused) : (s.slot q).sched.state ≠ .unused ∧
      (t.slot q).pid = (s.slot q).pid := by
    have hsu : (s.slot q).sched.state ≠ .unused := fun hu => hnew ⟨q, hu, hq⟩
    exact ⟨hsu, h.pid hsu hq⟩
  rcases h.nextpid with heq | ⟨q, hpc, hu, heq⟩
  · exact hs.same (heq ▸ hs.bound) (fun h0 => heq ▸ ⟨heq ▸ h0, le_rfl⟩) hold
  · have h0 := hc q hpc hu
    obtain ⟨hbound, hsucc⟩ := toInt_succ h0 hs.bound
    rw [← heq] at hbound hsucc
    exact hs.same hbound (fun hp => ⟨h0, by rw [hsucc hp]; omega⟩) hold

theorem setSched {x : Sched (Fin N)} (hq : (s.slot q).sched.state ≠ .unused) :
    (s.setSched q x).Pids := by
  refine hs.same hs.bound (fun h0 => ⟨h0, le_rfl⟩) fun r hr => ?_
  obtain rfl | hrq := eq_or_ne r q
  · exact ⟨hq, by simp⟩
  · exact ⟨by simpa [hrq] using hr, by simp [hrq]⟩

theorem next (ht : s.Threads) (hc : s.PidLeft a) (h : Next s a t) : t.Pids := by
  cases h with
  | call hcc hcall => exact ⟨hs.bound, hs.pos, hs.inj⟩
  | step hr hm => exact hs.moves ht hr hc hm
  | fault hcc => exact hs.setSched (by rw [hcc.2]; simp)
  | resume hr | yield hr => exact hs.setSched (by rw [hr]; simp)

end State.Pids

theorem pids_run {init : Fin N} {acts : List (Act N)}
    (hc : Meets State.next State.PidLeft (State.boot N init) acts)
    (hr : run State.next (State.boot N init) acts = some s) : s.Threads ∧ s.Pids :=
  run_invariant_of_meets (I := fun s => s.Threads ∧ s.Pids)
    (fun _ _ _ hs hc hn => ⟨(next_of_eq hn).threads hs.1, hs.2.next hs.1 hc (next_of_eq hn)⟩)
    ⟨threads_boot init, pids_boot init⟩ hc hr

/-- As long as `allocpid` finds the counter positive, a successful `fork` returns a positive pid
that no other process has. -/
theorem fork_pid_fresh (init : Fin N) (acts : List (Act N))
    (hc : Meets State.next State.PidLeft (State.boot N init) acts)
    (hr : run State.next (State.boot N init) acts = some s) {np : Fin N}
    (hpc : s.pc p = .forkRunnable np) (hn : s.next (.step p ok) = some t) :
    ∃ pid, t.ret p = some pid ∧ 0 < pid ∧ (t.slot np).pid = pid ∧
      ∀ q, q ≠ np → (t.slot q).sched.state ≠ .unused → (t.slot q).pid ≠ pid := by
  obtain ⟨hthreads, hpids⟩ := pids_run hc hr
  have hleft : s.PidLeft (.step p ok) := by
    intro q hq
    rw [hpc] at hq
    cases hq
  have ht := hpids.next hthreads hleft (next_of_eq hn)
  cases next_of_eq hn with
  | call hcc hcall => simp at hcall
  | step hrun hm =>
    cases hm with
    | @forkRunnable _ c hpc' =>
      obtain rfl : c = np := by simpa [hpc'] using hpc
      have hpos := (ht.pos c (by simp)).1
      refine ⟨(s.slot c).pid, by simp, by simpa using hpos, by simp, fun q hq hu => ?_⟩
      have hne := ht.inj q c hq hu (by simp)
      simpa [hq] using hne
    | _ => simp_all

def oneFork : List (Act nproc) :=
  [.resume 0, .fork 0, .step 0 true, .step 0 true, .step 0 true]

theorem fork_pid_fresh_first : ∃ s t, run State.next (State.boot nproc 0) oneFork = some s ∧
    s.next (.step 0 true) = some t ∧ ∃ pid, t.ret 0 = some pid ∧ 0 < pid := by
  have h : ∃ s ∈ run State.next (State.boot nproc 0) oneFork,
      s.pc 0 = .forkRunnable 1 ∧ (s.next (.step 0 true)).isSome = true := by decide +kernel
  obtain ⟨s, hr, hpc, hn⟩ := h
  obtain ⟨t, ht⟩ := Option.isSome_iff_exists.mp hn
  obtain ⟨pid, hret, hpos, _⟩ := fork_pid_fresh 0 oneFork (by decide +kernel) hr hpc ht
  exact ⟨s, t, hr, ht, pid, hret, hpos⟩

@[grind cases] structure Ready (s : State nproc) (n : ℤ) : Prop where
  pc : s.pc 0 = .user
  running : (s.slot 0).sched.state = .running
  free : (s.slot 1).sched.state = .unused
  lock : s.waitLock = none
  nextpid : s.nextpid = n

theorem step_forkScan (hpc : s.pc p = .forkScan q.val) : step s p ok =
    if (s.slot q).sched.state = .unused then
      if ok then some ((s.alloc q).setPc p (.forkParent q))
      else some ((s.allocFails q).leave p none)
    else some (s.setPc p (.forkScan (q.val + 1))) := by
  simp only [step, hpc]
  rw [dif_pos q.isLt]

theorem next_forkRunnable (ok : Bool) (hr : (s.slot p).sched.state = .running)
    (hpc : s.pc p = .forkRunnable q) :
    ∃ t, s.next (.step p ok) = some t ∧ t.ret p = some (s.slot q).pid := by
  simp only [State.next, if_pos hr, step, hpc]
  exact ⟨_, rfl, by simp⟩

namespace Ready
variable {s : State nproc} {n : ℤ}

theorem scan (h : Ready s n) (ok : Bool) : ∃ t, run State.next s [.fork 0, .step 0 ok] = some t ∧
    t.pc 0 = .forkScan (1 : Fin nproc).val ∧ t.slot = s.slot ∧ t.waitLock = none ∧
    t.nextpid = n := by
  have h1 : s.next (.fork 0) = some (s.setPc 0 (.forkScan 0)) := if_pos ⟨h.pc, h.running⟩
  have hbusy : ((s.setPc 0 (.forkScan 0)).slot 0).sched.state ≠ .unused := by
    rw [State.setPc_slot, h.running]
    simp
  have hscan : (s.setPc 0 (.forkScan 0)).pc 0 = .forkScan (0 : Fin nproc).val := by simp
  have h2 : (s.setPc 0 (.forkScan 0)).next (.step 0 ok) =
      some ((s.setPc 0 (.forkScan 0)).setPc 0 (.forkScan 1)) := by
    rw [State.next, State.setPc_slot, if_pos h.running, step_forkScan hscan, if_neg hbusy]
    rfl
  refine ⟨_, run_cons_eq_some.mpr ⟨_, h1, run_cons_eq_some.mpr ⟨_, h2, rfl⟩⟩, ?_, rfl, h.lock,
    h.nextpid⟩
  rw [State.setPc_pc, Function.update_self]
  rfl

theorem fails (h : Ready s n) : ∃ t,
    run State.next s ([.fork 0, .step 0 true] ++ [.step 0 false]) = some t ∧
    Ready t (toInt (n + 1)) := by
  obtain ⟨u, hu, hpc, hslot, hlock, hn⟩ := h.scan true
  have h3 : u.next (.step 0 false) = some ((u.allocFails 1).leave 0 none) := by
    rw [State.next, hslot, if_pos h.running, step_forkScan hpc, hslot, if_pos h.free]
    rfl
  refine ⟨_, run_concat_eq_some.mpr ⟨u, hu, h3⟩, ?_, ?_, ?_, hlock, ?_⟩
  · simp
  · have h01 : (0 : Fin nproc) ≠ 1 := by decide
    simpa [hslot, h01] using h.running
  · simp
  · simp [hn]

theorem reaches (k : ℕ) : ∀ {s : State nproc} {n : ℤ}, Ready s n → 0 < n → n + k < 2 ^ 31 →
    ∃ acts t, run State.next s acts = some t ∧ Ready t (n + k) := by
  induction k with
  | zero =>
    intro s n h _ _
    exact ⟨[], s, rfl, by simpa using h⟩
  | succ k ih =>
    intro s n h h0 hk
    obtain ⟨t, ht, hready⟩ := h.fails
    have hn : toInt (n + 1) = n + 1 := by
      unfold toInt Int.bmod
      dsimp only
      split <;> omega
    rw [hn] at hready
    obtain ⟨acts, u, hu, hready'⟩ := ih hready (by omega) (by omega)
    refine ⟨_, u, run_append_eq_some.mpr ⟨t, ht, hu⟩, ?_⟩
    rwa [show n + ((k + 1 : ℕ) : ℤ) = n + 1 + k by push_cast; ring]

theorem forks (h : Ready s n) : ∃ acts t u, run State.next s acts = some t ∧
    t.pc 0 = .forkRunnable 1 ∧ t.next (.step 0 true) = some u ∧ u.ret 0 = some n := by
  obtain ⟨v, hv, hpc, hslot, hlock, hn⟩ := h.scan true
  have h01 : (0 : Fin nproc) ≠ 1 := by decide
  have hrun : (v.slot 0).sched.state = .running := by rw [hslot, h.running]
  have h3 : v.next (.step 0 true) = some ((v.alloc 1).setPc 0 (.forkParent 1)) := by
    rw [State.next, if_pos hrun, step_forkScan hpc, hslot, if_pos h.free]
    rfl
  have h4 : ((v.alloc 1).setPc 0 (.forkParent 1)).next (.step 0 true) =
      some ((((v.alloc 1).setPc 0 (.forkParent 1)).setParent 1 (some 0)).setPc 0
        (.forkRunnable 1)) := by
    simp [State.next, step, h01, hrun, hlock]
  have h5 := run_concat_eq_some.mpr ⟨_, run_concat_eq_some.mpr ⟨v, hv, h3⟩, h4⟩
  obtain ⟨u, hu, hret⟩ := next_forkRunnable (s := (((v.alloc 1).setPc 0 (.forkParent 1)).setParent 1
    (some 0)).setPc 0 (.forkRunnable 1)) (p := 0) (q := 1) true (by simp [h01, hrun]) (by simp)
  refine ⟨_, _, u, h5, by simp, hu, hret.trans ?_⟩
  simp [hn]

end Ready

/-- After 2147483646 calls of `fork` that failed for lack of memory, `fork` succeeds and returns a
negative number. -/
theorem fork_pid_negative : ∃ acts s t, run State.next (State.boot nproc 0) acts = some s ∧
    s.pc 0 = .forkRunnable 1 ∧ s.next (.step 0 true) = some t ∧ t.ret 0 = some (-2147483648) := by
  have hboot : ∃ s ∈ run State.next (State.boot nproc 0) [.resume 0],
      s.pc 0 = .user ∧ (s.slot 0).sched.state = .running ∧ (s.slot 1).sched.state = .unused ∧
        s.waitLock = none ∧ s.nextpid = 2 := by decide +kernel
  obtain ⟨s₀, hs₀, h1, h2, h3, h4, h5⟩ := hboot
  have hready : Ready s₀ 2 := ⟨h1, h2, h3, h4, h5⟩
  obtain ⟨acts, s₁, hs₁, hready₁⟩ := Ready.reaches 2147483645 hready (by norm_num) (by norm_num)
  obtain ⟨s₂, hs₂, hready₂⟩ := hready₁.fails
  have hwrap : toInt (2 + ((2147483645 : ℕ) : ℤ) + 1) = -2147483648 := by decide +kernel
  rw [hwrap] at hready₂
  obtain ⟨acts', s, t, hs, hpc, ht, hret⟩ := hready₂.forks
  refine ⟨[.resume 0] ++ (acts ++ (([.fork 0, .step 0 true] ++ [.step 0 false]) ++ acts')), s, t,
    ?_, hpc, ht, hret⟩
  exact run_append_eq_some.mpr ⟨s₀, hs₀, run_append_eq_some.mpr ⟨s₁, hs₁,
    run_append_eq_some.mpr ⟨s₂, hs₂, hs⟩⟩⟩

end Xv6.Proc
