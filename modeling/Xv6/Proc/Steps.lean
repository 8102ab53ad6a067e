import Xv6.Proc.Model

/-! What a step of a process can do, once for all invariants, and that `wait_lock` is a lock. -/
namespace Xv6.Proc
variable {N : ℕ}

inductive Moves (s : State N) (p : Fin N) : Bool → State N → Prop
  | forkFound {q} (hpc : s.pc p = .forkScan q.val) (hu : (s.slot q).sched.state = .unused) :
      Moves s p true ((s.alloc q).setPc p (.forkParent q))
  | forkNoMem {q} (hpc : s.pc p = .forkScan q.val) (hu : (s.slot q).sched.state = .unused) :
      Moves s p false ((s.allocFails q).leave p none)
  | forkBusy {ok q} (hpc : s.pc p = .forkScan q.val) (hu : (s.slot q).sched.state ≠ .unused) :
      Moves s p ok (s.setPc p (.forkScan (q.val + 1)))
  | forkNone {ok k} (hpc : s.pc p = .forkScan k) (hk : N ≤ k) : Moves s p ok (s.leave p none)
  | forkParent {ok q} (hpc : s.pc p = .forkParent q) (hl : s.waitLock = none) :
      Moves s p ok ((s.setParent q (some p)).setPc p (.forkRunnable q))
  | forkRunnable {ok q} (hpc : s.pc p = .forkRunnable q) :
      Moves s p ok (((s.setSched q { (s.slot q).sched with state := .runnable }).setPc q
        .user).leave p (some (s.slot q).pid))
  | exitLock {ok st} (hpc : s.pc p = .exitLock st) (hl : s.waitLock = none) :
      Moves s p ok ((s.acquire p).setPc p (.reparent st 0))
  | reparentChild {ok st q} (hpc : s.pc p = .reparent st q.val)
      (hq : (s.slot q).parent = some p) :
      Moves s p ok ((s.setParent q (some s.initproc)).setPc p (.reparentWake st q.val 0))
  | reparentSkip {ok st q} (hpc : s.pc p = .reparent st q.val)
      (hq : (s.slot q).parent ≠ some p) : Moves s p ok (s.setPc p (.reparent st (q.val + 1)))
  | reparentEnd {ok st j} (hpc : s.pc p = .reparent st j) (hj : N ≤ j) :
      Moves s p ok (s.setPc p (.exitWake st 0))
  | reparentWake {ok st j k} (hpc : s.pc p = .reparentWake st j k) (hk : k < N) :
      Moves s p ok ((s.wakeupAt p (some s.initproc) k).setPc p (.reparentWake st j (k + 1)))
  | reparentWoken {ok st j k} (hpc : s.pc p = .reparentWake st j k) (hk : N ≤ k) :
      Moves s p ok (s.setPc p (.reparent st (j + 1)))
  | exitWake {ok st k} (hpc : s.pc p = .exitWake st k) (hk : k < N) :
      Moves s p ok ((s.wakeupAt p (s.slot p).parent k).setPc p (.exitWake st (k + 1)))
  | exitWoken {ok st k} (hpc : s.pc p = .exitWake st k) (hk : N ≤ k) :
      Moves s p ok (s.setPc p (.exitZombie st))
  | zombie {ok st} (hpc : s.pc p = .exitZombie st) : Moves s p ok (s.zombie p st)
  | waitLock {ok addr} (hpc : s.pc p = .waitLock addr ∨ s.pc p = .waitAsleep addr)
      (hl : s.waitLock = none) : Moves s p ok ((s.acquire p).setPc p (.waitScan addr 0 false))
  | waitCopyFails {addr q hk} (hpc : s.pc p = .waitScan addr q.val hk)
      (hq : (s.slot q).parent = some p) (hz : (s.slot q).sched.state = .zombie)
      (ha : addr = true) : Moves s p false (s.release.leave p none)
  | waitReap {ok addr q hk} (hpc : s.pc p = .waitScan addr q.val hk)
      (hq : (s.slot q).parent = some p) (hz : (s.slot q).sched.state = .zombie) :
      Moves s p ok ((s.reap p q).leave p (some (s.slot q).pid))
  | waitAlive {ok addr q hk} (hpc : s.pc p = .waitScan addr q.val hk)
      (hq : (s.slot q).parent = some p) (hz : (s.slot q).sched.state ≠ .zombie) :
      Moves s p ok (s.setPc p (.waitScan addr (q.val + 1) true))
  | waitSkip {ok addr q hk} (hpc : s.pc p = .waitScan addr q.val hk)
      (hq : (s.slot q).parent ≠ some p) : Moves s p ok (s.setPc p (.waitScan addr (q.val + 1) hk))
  | waitScanned {ok addr j hk} (hpc : s.pc p = .waitScan addr j hk) (hj : N ≤ j) :
      Moves s p ok (s.setPc p (.waitTest addr hk))
  | waitFails {ok addr hk} (hpc : s.pc p = .waitTest addr hk)
      (hc : hk = false ∨ (s.slot p).sched.killed = true) : Moves s p ok (s.release.leave p none)
  | waitGoOn {ok addr} (hpc : s.pc p = .waitTest addr true)
      (hc : (s.slot p).sched.killed = false) : Moves s p ok (s.setPc p (.waitSleep addr))
  | waitSleep {ok addr} (hpc : s.pc p = .waitSleep addr) :
      Moves s p ok ((s.release.setSched p ((s.slot p).sched.sleep p)).setPc p (.waitAsleep addr))
  | killHit {ok pid q} (hpc : s.pc p = .killScan pid q.val) (hq : (s.slot q).pid = pid) :
      Moves s p ok ((s.setSched q (s.slot q).sched.kill).leave p (some 0))
  | killMiss {ok pid q} (hpc : s.pc p = .killScan pid q.val) (hq : (s.slot q).pid ≠ pid) :
      Moves s p ok (s.setPc p (.killScan pid (q.val + 1)))
  | killNone {ok pid k} (hpc : s.pc p = .killScan pid k) (hk : N ≤ k) :
      Moves s p ok (s.leave p none)

variable {s t : State N} {p : Fin N} {ok : Bool}

theorem moves_of_step (h : step s p ok = some t) : Moves s p ok t := by
  unfold step at h
  split at h
  · cases h
  · cases h
  next k hpc =>
    split at h
    next hk =>
      split at h
      next hu =>
        split at h
        next hok =>
          cases h
          subst hok
          exact .forkFound hpc hu
        next hok =>
          cases h
          rw [Bool.not_eq_true] at hok
          subst hok
          exact .forkNoMem hpc hu
      next hu =>
        cases h
        exact .forkBusy (q := ⟨k, hk⟩) hpc hu
    next hk =>
      cases h
      exact .forkNone hpc (Nat.le_of_not_lt hk)
  next np hpc =>
    split at h
    next hl =>
      cases h
      exact .forkParent hpc hl
    · cases h
  next np hpc =>
    cases h
    exact .forkRunnable hpc
  next st hpc =>
    split at h
    next hl =>
      cases h
      exact .exitLock hpc hl
    · cases h
  next st j hpc =>
    split at h
    next hj =>
      split at h
      next hq =>
        cases h
        exact .reparentChild (q := ⟨j, hj⟩) hpc hq
      next hq =>
        cases h
        exact .reparentSkip (q := ⟨j, hj⟩) hpc hq
    next hj =>
      cases h
      exact .reparentEnd hpc (Nat.le_of_not_lt hj)
  next st j k hpc =>
    split at h
    next hk =>
      cases h
      exact .reparentWake hpc hk
    next hk =>
      cases h
      exact .reparentWoken hpc (Nat.le_of_not_lt hk)
  next st k hpc =>
    split at h
    next hk =>
      cases h
      exact .exitWake hpc hk
    next hk =>
      cases h
      exact .exitWoken hpc (Nat.le_of_not_lt hk)
  next st hpc =>
    cases h
    exact .zombie hpc
  next addr hpc =>
    split at h
    next hl =>
      cases h
      exact .waitLock (.inl hpc) hl
    · cases h
  next addr j hk hpc =>
    split at h
    next hj =>
      split at h
      next hq =>
        split at h
        next hz =>
          split at h
          next hc =>
            cases h
            obtain ⟨rfl, rfl⟩ := hc
            exact .waitCopyFails (q := ⟨j, hj⟩) hpc hq hz rfl
          · cases h
            exact .waitReap (q := ⟨j, hj⟩) hpc hq hz
        next hz =>
          cases h
          exact .waitAlive (q := ⟨j, hj⟩) hpc hq hz
      next hq =>
        cases h
        exact .waitSkip (q := ⟨j, hj⟩) hpc hq
    next hj =>
      cases h
      exact .waitScanned hpc (Nat.le_of_not_lt hj)
  next addr hk hpc =>
    split at h
    next hc =>
      cases h
      exact .waitFails hpc hc
    next hc =>
      cases h
      rw [not_or, Bool.not_eq_false, Bool.not_eq_true] at hc
      obtain ⟨rfl, hc⟩ := hc
      exact .waitGoOn hpc hc
  next addr hpc =>
    cases h
    exact .waitSleep hpc
  next addr hpc =>
    split at h
    next hl =>
      cases h
      exact .waitLock (.inr hpc) hl
    · cases h
  next pid k hpc =>
    split at h
    next hk =>
      split at h
      next hq =>
        cases h
        exact .killHit (q := ⟨k, hk⟩) hpc hq
      next hq =>
        cases h
        exact .killMiss (q := ⟨k, hk⟩) hpc hq
    next hk =>
      cases h
      exact .killNone hpc (Nat.le_of_not_lt hk)

inductive Next (s : State N) : Act N → State N → Prop
  | call {a : Act N} {p : Fin N} {c : Pc N} (hc : s.CanCall p)
      (hcall : (a = .fork p ∧ c = .forkScan 0) ∨
        (∃ st, a = .exit p st ∧ p ≠ s.initproc ∧ c = .exitLock st) ∨
        (∃ addr, a = .wait p addr ∧ c = .waitLock addr) ∨
        ∃ pid, a = .kill p pid ∧ c = .killScan pid 0) : Next s a (s.setPc p c)
  | step {p : Fin N} {ok : Bool} {t : State N} (hr : (s.slot p).sched.state = .running)
      (hm : Moves s p ok t) : Next s (.step p ok) t
  | fault {p : Fin N} (hc : s.CanCall p) :
      Next s (.fault p) (s.setSched p { (s.slot p).sched with killed := true })
  | resume {p : Fin N} (hr : (s.slot p).sched.state = .runnable) :
      Next s (.resume p) (s.setSched p (s.slot p).sched.resume)
  | yield {p : Fin N} (hr : (s.slot p).sched.state = .running) (hl : (s.pc p).holds = false) :
      Next s (.yield p) (s.setSched p (s.slot p).sched.yield)

theorem next_of_eq {a : Act N} (h : s.next a = some t) : Next s a t := by
  cases a with
  | step p ok =>
    simp only [State.next] at h
    split at h
    next hr => exact .step hr (moves_of_step h)
    · cases h
  | yield p =>
    simp only [State.next] at h
    split at h
    next hr =>
      cases h
      exact .yield hr.1 hr.2
    · cases h
  | exit p st =>
    simp only [State.next] at h
    split at h
    next hc =>
      cases h
      exact .call hc.1 (.inr (.inl ⟨st, rfl, hc.2, rfl⟩))
    · cases h
  | fork p =>
    simp only [State.next] at h
    split at h
    next hc =>
      cases h
      exact .call hc (.inl ⟨rfl, rfl⟩)
    · cases h
  | wait p addr =>
    simp only [State.next] at h
    split at h
    next hc =>
      cases h
      exact .call hc (.inr (.inr (.inl ⟨addr, rfl, rfl⟩)))
    · cases h
  | kill p pid =>
    simp only [State.next] at h
    split at h
    next hc =>
      cases h
      exact .call hc (.inr (.inr (.inr ⟨pid, rfl, rfl⟩)))
    · cases h
  | fault p =>
    simp only [State.next] at h
    split at h
    next hc =>
      cases h
      exact .fault hc
    · cases h
  | resume p =>
    simp only [State.next] at h
    split at h
    next hr =>
      cases h
      exact .resume hr
    · cases h

end Xv6.Proc
