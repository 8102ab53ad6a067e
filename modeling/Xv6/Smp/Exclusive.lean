import Xv6.Smp.Model

/-! A process is on at most one CPU. The lock of a process says who may change its state, and the
hand-over of the lock across `swtch` says which CPU goes on with it. -/
namespace Xv6.Smp
open Function Proc Transition
variable {N K : ℕ} {s t : Sys N K} {c : Fin K} {p q : Fin N}

/-- The states in which a process calls `swtch`. -/
@[grind] def Off (st : ProcState) : Prop := st = .sleeping ∨ st = .runnable ∨ st = .zombie

@[grind] def Slot.Resumable (x : Slot) : Prop :=
  x.sched.state = .runnable ∨ x.sched.state = .sleeping → x.context = x.left

@[grind cases] structure Slot.Fresh (x : Slot) : Prop where
  used : x.sched.state = .used
  ran : x.ran = false
  context : x.context = x.left

/-- What holds of process `q` while its lock is held in a round of process `p`. -/
@[grind] def RoundOk (s : Sys N K) (p q : Fin N) : Round → Prop
  | .made | .start => s.np p = some q
  | .drop => (s.slot q).sched.state = .used ∧ (s.slot q).ran = false ∧
      ∀ p', s.np p' = some q → p' = p
  | .reap => (s.slot q).sched.state = .zombie
  | _ => True

@[grind] def PcOk (s : Sys N K) (regs : Context) (p : Fin N) : Pc N → Prop
  | .run | .acquire _ | .leave _ | .unlock => (s.slot p).sched.state = .running
  | .swtch i => Off (s.slot p).sched.state ∧
      ∀ r : Reg, if r.val < i then (s.slot p).context r = (s.slot p).left r
        else regs r = (s.slot p).left r
  | .resumed => (s.slot p).sched.state = .running ∧ regs = (s.slot p).left
  | .round q r => (s.slot p).sched.state = .running ∧ RoundOk s p q r

@[grind] def CodeOk (s : Sys N K) (y : Cpu N) : Prop :=
  match y.code with
  | .picked => y.proc = none ∧ (s.slot y.p).sched.state = .running ∧
      (s.slot y.p).context = (s.slot y.p).left
  | .swtch i => y.proc = some y.p ∧ (s.slot y.p).sched.state = .running ∧
      (s.slot y.p).context = (s.slot y.p).left ∧
      ∀ r : Reg, r.val + 14 < i → y.regs r = (s.slot y.p).left r
  | .back => y.proc = some y.p ∧ Off (s.slot y.p).sched.state ∧
      (s.slot y.p).context = (s.slot y.p).left
  | .thread p pc => y.proc = some p ∧ y.p = p ∧ PcOk s y.regs p pc
  | _ => y.proc = none

@[grind cases] structure Sys.Inv (s : Sys N K) : Prop where
  lock : ∀ c q, s.lock q = some c ↔ (s.cpu c).holds = some q
  one : ∀ c d p, (s.cpu c).uses = some p → (s.cpu d).uses = some p → c = d
  code : ∀ c, CodeOk s (s.cpu c)
  idle : ∀ p, (∀ c, (s.cpu c).uses ≠ some p) →
    (s.slot p).sched.state ≠ .running ∧ (s.slot p).Resumable
  fresh : ∀ p q, s.np p = some q → (s.slot q).Fresh
  inj : ∀ p p' q, s.np p = some q → s.np p' = some q → p = p'

theorem Sys.Booted.inv (h : s.Booted) : s.Inv := by
  have hu c : (s.cpu c).uses = none := by simp [Cpu.uses, h.code c]
  have hh c : (s.cpu c).holds = none := by simp [Cpu.holds, h.code c]
  refine ⟨fun c q => ?_, fun c d p hc => ?_, fun c => ?_, fun p _ => ?_, fun p q hp => ?_,
    fun p p' q hp => ?_⟩
  · simp [h.lock q, hh c]
  · simp [hu c] at hc
  · simp [CodeOk, h.code c, h.proc c]
  · rcases h.slot p with hs | ⟨hs, hctx⟩
    · simp [Slot.Resumable, hs]
    · simp [Slot.Resumable, hs, hctx]
  · simp [h.np p] at hp
  · simp [h.np p] at hp

@[grind cases] structure Slot.Woken (x x' : Slot) : Prop where
  context : x'.context = x.context
  left : x'.left = x.left
  ran : x'.ran = x.ran
  state : x'.sched.state = x.sched.state ∨ x.sched.state = .sleeping ∧ x'.sched.state = .runnable

variable {x : Slot}

theorem Slot.Woken.running {x' : Slot} (h : x.Woken x') (hx : x.sched.state = .running) :
    x'.sched.state = .running := by grind

theorem Slot.woken_wakeup (x : Slot) (chan : ℕ) : x.Woken (x.setSched (x.sched.wakeup chan)) := by
  refine ⟨rfl, rfl, rfl, ?_⟩
  unfold Sched.wakeup
  split
  next hs => exact .inr ⟨hs.1, rfl⟩
  · exact .inl rfl

theorem Slot.woken_kill (x : Slot) : x.Woken (x.setSched x.sched.kill) := by
  refine ⟨rfl, rfl, rfl, ?_⟩
  by_cases hs : x.sched.state = .sleeping
  · exact .inr ⟨hs, by simp [hs]⟩
  · exact .inl (by simp [hs])

namespace Sys.Inv

/-- A CPU that uses a process holds its lock or the process is running. -/
theorem state_of_uses (h : s.Inv) (hu : (s.cpu c).uses = some p) :
    (s.slot p).sched.state = .running ∨
      Off (s.slot p).sched.state ∧ (s.cpu c).holds = some p := by
  have hok := h.code c
  grind

/-- A process that is neither running nor switching is on no CPU. -/
theorem not_uses (h : s.Inv) (hr : (s.slot q).sched.state ≠ .running)
    (hl : ¬ Off (s.slot q).sched.state ∨ (s.cpu c).holds = some q ∧ (s.cpu c).uses ≠ some q)
    (d : Fin K) : (s.cpu d).uses ≠ some q := by
  intro hu
  rcases h.state_of_uses hu with hrun | ⟨hoff, hd⟩
  · exact hr hrun
  rcases hl with hl | ⟨hc, huc⟩
  · exact hl hoff
  have hcd : c = d := by
    have h1 := (h.lock c q).mpr hc
    have h2 := (h.lock d q).mpr hd
    rw [h1] at h2
    exact Option.some.inj h2
  subst hcd
  exact huc hu

variable {y : Cpu N}

theorem codeOk_frame (hheld : ∀ r, y.holds = some r → t.slot r = s.slot r)
    (hrun : ∀ r, y.uses = some r → (s.slot r).sched.state = .running →
      (t.slot r).sched.state = .running)
    (hnp : ∀ r, y.uses = some r → t.np r = s.np r)
    (hnew : ∀ r, y.holds = some r → ∀ p', t.np p' = some r → s.np p' = some r)
    (h : CodeOk s y) : CodeOk t y := by
  unfold CodeOk at h ⊢
  unfold Cpu.holds at hheld hnew
  unfold Cpu.uses at hrun hnp
  cases hcode : y.code with
  | picked | swtch i | back =>
    simp only [hcode] at h hheld ⊢
    rwa [hheld _ rfl]
  | thread p pc =>
    simp only [hcode] at h hheld hrun hnp hnew ⊢
    refine ⟨h.1, h.2.1, ?_⟩
    have hpc := h.2.2
    cases pc with
    | run | acquire l | leave l | unlock => exact hrun p rfl hpc
    | swtch i | resumed =>
      unfold PcOk at hpc ⊢
      rwa [hheld p rfl]
    | round q r =>
      refine ⟨hrun p rfl hpc.1, ?_⟩
      have hr := hpc.2
      cases r with
      | drop => grind
      | _ => grind
  | scan | test | unlock | intrWake q chan | intrUnlock q => simpa only [hcode] using h

theorem of_step (h : s.Inv) (hslot : ∀ r ≠ q, t.slot r = s.slot r)
    (hcpu : ∀ d ≠ c, t.cpu d = s.cpu d)
    (hnp : ∀ r, (s.cpu c).uses ≠ some r → t.np r = s.np r)
    (hnew : ∀ p' r, t.np p' = some r → s.np p' = some r ∨ (s.cpu c).holds = some r)
    (hlock : ∀ d r, t.lock r = some d ↔ (t.cpu d).holds = some r)
    (hheld : t.slot q = s.slot q ∨ (s.cpu c).holds = some q)
    (hrun : (s.slot q).sched.state = .running →
      (t.slot q).sched.state = .running ∨ (s.cpu c).uses = some q)
    (huses : ∀ r, (t.cpu c).uses = some r → (s.cpu c).uses = some r ∨ ∀ d, (s.cpu d).uses ≠ some r)
    (hok : CodeOk t (t.cpu c))
    (hidle : ∀ r, (∀ d, (t.cpu d).uses ≠ some r) → r = q ∨ (s.cpu c).uses = some r →
      (t.slot r).sched.state ≠ .running ∧ (t.slot r).Resumable)
    (hfresh : ∀ p r, t.np p = some r → (t.slot r).Fresh)
    (hinj : ∀ p p' r, t.np p = some r → t.np p' = some r → p = p') : t.Inv := by
  have hne : ∀ d r, d ≠ c → (s.cpu d).uses = some r → (t.cpu c).uses ≠ some r := by grind
  refine ⟨hlock, ?_, ?_, ?_, hfresh, hinj⟩
  · grind
  · intro d
    by_cases hdc : d = c
    · rw [hdc]
      exact hok
    rw [hcpu d hdc]
    have hother : ∀ r, (s.cpu d).holds = some r → (s.cpu c).holds ≠ some r := by
      intro r hd hc
      have h1 := (h.lock d r).mpr hd
      rw [(h.lock c r).mpr hc] at h1
      exact hdc (Option.some.inj h1).symm
    refine codeOk_frame (fun r hr => ?_) (fun r hr hst => ?_) (fun r hr => ?_)
      (fun r hr p' hp' => (hnew p' r hp').resolve_right (hother r hr)) (h.code d)
    · grind
    · grind
    · exact hnp r fun hc => hdc (h.one d c r hr hc)
  · intro r hr
    by_cases hc : r = q ∨ (s.cpu c).uses = some r
    · exact hidle r hr hc
    rw [not_or] at hc
    rw [hslot r hc.1]
    refine h.idle r fun d => ?_
    by_cases hdc : d = c
    · rw [hdc]
      exact hc.2
    · have hd := hr d
      rwa [hcpu d hdc] at hd

/-- A process that is on no CPU after a step was on none before, when the CPU goes on with the same
process. -/
theorem not_uses_before (hcpu : ∀ d ≠ c, t.cpu d = s.cpu d)
    (huses : (t.cpu c).uses = (s.cpu c).uses) {r : Fin N} (hr : ∀ d, (t.cpu d).uses ≠ some r)
    (d : Fin K) : (s.cpu d).uses ≠ some r := by grind

section
variable (h : s.Inv)
include h

/-- A step under a lock that stays held, by a CPU that goes on with the same process `p`, which may
change its variable `np`. -/
theorem workNp {o : Option (Fin N)} (hq : (s.cpu c).holds = some q)
    (hp : ∀ r, (s.cpu c).uses ≠ some r → r = p → o = s.np p)
    (hy : y.holds = some q) (huses : y.uses = (s.cpu c).uses)
    (hrun : (s.slot q).sched.state = .running → x.sched.state = .running ∨ (s.cpu c).uses = some q)
    (hok : CodeOk ((s.setSlot q x).setNp p o) y)
    (hidle : (∀ d, (s.cpu d).uses ≠ some q) → x.sched.state ≠ .running ∧ x.Resumable)
    (hfresh : ∀ p', update s.np p o p' = some q → x.Fresh)
    (ho : ∀ p' r, o = some r → s.np p' = some r → p' = p)
    (hor : ∀ r, o = some r → r = q ∨ s.np p = some r) :
    (((s.setSlot q x).setNp p o).setCpu c y).Inv := by
  set u := ((s.setSlot q x).setNp p o).setCpu c y with hu
  have hcpu : ∀ d ≠ c, u.cpu d = s.cpu d := fun d hd => by simp [hu, hd]
  have hself : u.cpu c = y := by simp [hu]
  have huses' : (u.cpu c).uses = (s.cpu c).uses := by rw [hself, huses]
  have hnp : ∀ r ≠ p, u.np r = s.np r := fun r hr => by simp [hu, hr]
  have hnpp : u.np p = o := by simp [hu]
  refine of_step (c := c) (q := q) h (fun r hr => by simp [hu, hr]) hcpu (fun r hr => ?_)
    (fun p' r hr => ?_) (fun d r => ?_) (.inr hq) ?_ ?_ ?_ ?_ ?_ ?_
  · grind
  · grind
  · by_cases hdc : d = c
    · rw [hdc, hself, hy, ← hq]
      exact h.lock c r
    · rw [hcpu d hdc]
      exact h.lock d r
  · simpa [hu] using hrun
  · rw [huses']
    exact fun r hr => .inl hr
  · rw [hself]
    exact hok
  · rintro r hr (rfl | hc)
    · simpa [hu] using hidle (not_uses_before hcpu huses' hr)
    · exact absurd hc (not_uses_before hcpu huses' hr c)
  · intro p' r hr
    obtain rfl | hrq := eq_or_ne r q
    · simpa [hu] using hfresh p' hr
    have hold : ∃ p'', s.np p'' = some r := by grind
    obtain ⟨p'', hp''⟩ := hold
    have hf := h.fresh p'' r hp''
    simpa [hu, hrq] using hf
  · grind

/-- A step under a lock that stays held, by a CPU that goes on with the same process. -/
theorem work (hq : (s.cpu c).holds = some q)
    (hy : y.holds = some q) (huses : y.uses = (s.cpu c).uses)
    (hrun : (s.slot q).sched.state = .running → x.sched.state = .running ∨ (s.cpu c).uses = some q)
    (hok : CodeOk (s.setSlot q x) y)
    (hidle : (∀ d, (s.cpu d).uses ≠ some q) → x.sched.state ≠ .running ∧ x.Resumable)
    (hfresh : ∀ p, s.np p = some q → x.Fresh) : ((s.setSlot q x).setCpu c y).Inv := by
  have hsame : (s.setSlot q x).setNp q (s.np q) = s.setSlot q x := by
    rw [Sys.setNp, Sys.setSlot_np, update_eq_self]
    rfl
  have hnp := workNp (p := q) (o := s.np q) h hq (fun _ _ _ => rfl) hy huses hrun
    (by rwa [hsame]) hidle (fun p' hp' => hfresh p' (by rwa [update_eq_self] at hp'))
    (fun p' r hr hr' => h.inj p' q r hr' hr) fun r hr => .inr hr
  rwa [hsame] at hnp

/-- A step that changes no entry of the table, by a CPU that goes on with the same process. -/
theorem quiet (hslot : t.slot = s.slot) (hnp : t.np = s.np) (hcpu : ∀ d ≠ c, t.cpu d = s.cpu d)
    (hlock : ∀ d r, t.lock r = some d ↔ (t.cpu d).holds = some r)
    (huses : (t.cpu c).uses = (s.cpu c).uses) (hok : CodeOk t (t.cpu c)) : t.Inv := by
  refine of_step (c := c) (q := (s.cpu c).p) h (fun r _ => congrFun hslot r) hcpu
    (fun r _ => congrFun hnp r) (fun p' r hr => .inl (hnp ▸ hr)) hlock (.inl (congrFun hslot _))
    ?_ ?_ hok ?_ ?_ ?_
  · rw [hslot]
    exact .inl
  · rw [huses]
    exact fun r hr => .inl hr
  · intro r hr _
    rw [hslot]
    exact h.idle r (not_uses_before hcpu huses hr)
  · rw [hslot, hnp]
    exact h.fresh
  · rw [hnp]
    exact h.inj

theorem alone (hy : y.holds = (s.cpu c).holds)
    (huses : y.uses = (s.cpu c).uses) (hok : CodeOk s y) : (s.setCpu c y).Inv := by
  have hself : (s.setCpu c y).cpu c = y := by simp
  refine quiet (c := c) h rfl rfl (fun d hd => by simp [hd]) (fun d r => ?_) ?_ ?_
  · by_cases hdc : d = c
    · rw [hdc, hself, hy]
      exact h.lock c r
    · have hd := h.lock d r
      simpa [hdc] using hd
  · rw [hself, huses]
  · rw [hself]
    exact hok

theorem acquired {code : Code N} (hr : s.acquire c q code = some t) (hc : (s.cpu c).holds = none)
    (hy : ({ s.cpu c with code := code } : Cpu N).holds = some q)
    (huses : ({ s.cpu c with code := code } : Cpu N).uses = (s.cpu c).uses)
    (hok : CodeOk s { s.cpu c with code := code }) : t.Inv := by
  unfold Sys.acquire at hr
  split at hr
  next hfree =>
    cases hr
    refine quiet (c := c) h rfl rfl (fun d hd => by simp [hd]) (fun d r => ?_) ?_ ?_
    · have hd := h.lock d r
      obtain rfl | hdc := eq_or_ne d c
      · rw [hc] at hd
        obtain rfl | hrq := eq_or_ne r q
        · simp [hy]
        · simp [hy, hrq, Ne.symm hrq] at hd ⊢
          exact hd
      · obtain rfl | hrq := eq_or_ne r q
        · rw [hfree] at hd
          simpa [hdc, Ne.symm hdc] using hd
        · simpa [hdc, hrq] using hd
    · simpa using huses
    · rw [show ((s.setLock q (some c)).goto c code).cpu c = { s.cpu c with code := code } by simp]
      exact hok
  · cases hr

theorem released (hq : (s.cpu c).holds = some q) (hy : y.holds = none)
    (huses : y.uses = (s.cpu c).uses) (hok : CodeOk s y) : ((s.setLock q none).setCpu c y).Inv := by
  refine quiet (c := c) h rfl rfl (fun d hd => by simp [hd]) (fun d r => ?_) ?_ ?_
  · have hd := h.lock d r
    obtain rfl | hdc := eq_or_ne d c
    · rw [hq] at hd
      obtain rfl | hrq := eq_or_ne r q
      · simp [hy]
      · simp only [Sys.setCpu_lock, Sys.setLock_lock, Sys.setCpu_cpu, update_self, hy,
          update_of_ne hrq, reduceCtorEq, iff_false]
        rw [hd]
        simpa using Ne.symm hrq
    · obtain rfl | hrq := eq_or_ne r q
      · have hlock := (h.lock c r).mpr hq
        rw [hlock] at hd
        simp only [Option.some.injEq, Ne.symm hdc, false_iff] at hd
        simp [hdc, hd]
      · simpa [hdc, hrq] using hd
  · simpa using huses
  · rw [show ((s.setLock q none).setCpu c y).cpu c = y by simp]
    exact hok

theorem woken (hq : (s.cpu c).holds = some q)
    (hy : y.holds = some q) (huses : y.uses = (s.cpu c).uses) (hx : (s.slot q).Woken x)
    (hok : CodeOk (s.setSlot q x) y) : ((s.setSlot q x).setCpu c y).Inv := by
  refine work h hq hy huses (fun hst => .inl (hx.running hst)) hok (fun hnone => ?_) fun p hp => ?_
  · grind
  · have hf := h.fresh p q hp
    refine ⟨?_, hx.ran.trans hf.ran, ?_⟩
    · grind
    · rw [hx.context, hx.left, hf.context]

theorem pick (hholds : (s.cpu c).holds = some (s.cpu c).p) (huses : (s.cpu c).uses = none)
    (hproc : (s.cpu c).proc = none) (hst : (s.slot (s.cpu c).p).sched.state = .runnable) :
    ((s.setSlot (s.cpu c).p ((s.slot (s.cpu c).p).setState .running)).goto c .picked).Inv := by
  have hnone : ∀ d, (s.cpu d).uses ≠ some (s.cpu c).p := by
    refine h.not_uses (by rw [hst]; nofun) (.inr ⟨hholds, ?_⟩)
    rw [huses]
    nofun
  have hres := (h.idle _ hnone).2 (.inl hst)
  set p := (s.cpu c).p with hp
  refine of_step (c := c) (q := p) h (fun r hr => by simp [hr]) (fun d hd => by simp [hd])
    (fun _ _ => rfl) (fun _ _ => .inl) (fun d r => ?_) (.inr hholds) (fun hrun => ?_)
    (fun r hr => ?_) ?_
    (fun r hr hor => ?_) (fun p' r hr => ?_) h.inj
  · have hd := h.lock d r
    obtain rfl | hdc := eq_or_ne d c
    · rw [hholds] at hd
      simpa [Cpu.holds, ← hp] using hd
    · simpa [hdc] using hd
  · rw [hst] at hrun
    cases hrun
  · have hrp : p = r := by simpa [Cpu.uses, ← hp] using hr
    rw [← hrp]
    exact .inr hnone
  · simpa [CodeOk, hproc, ← hp] using hres
  · rcases hor with rfl | hc
    · have hrc := hr c
      simp [Cpu.uses, ← hp] at hrc
    · rw [huses] at hc
      cases hc
  · have hf := h.fresh p' r hr
    obtain rfl | hrp := eq_or_ne r p
    · have hu := hf.used
      rw [hst] at hu
      cases hu
    · simpa [hrp] using hf

theorem switch {i : ℕ} (hcode : (s.cpu c).code = .swtch i)
    (hok : (s.cpu c).proc = some (s.cpu c).p ∧
      (s.slot (s.cpu c).p).sched.state = .running ∧
      (s.slot (s.cpu c).p).context = (s.slot (s.cpu c).p).left ∧
      ∀ r : Reg, r.val + 14 < i → (s.cpu c).regs r = (s.slot (s.cpu c).p).left r)
    (hr : s.schedStep c (.swtch i) = some t) : t.Inv := by
  have hholds : (s.cpu c).holds = some (s.cpu c).p := by simp [Cpu.holds, hcode]
  have huses : (s.cpu c).uses = some (s.cpu c).p := by simp [Cpu.uses, hcode]
  obtain ⟨hproc, hst, hctx, hregs⟩ := hok
  simp only [Sys.schedStep] at hr
  split at hr
  next hi =>
    cases hr
    refine alone h hholds.symm huses.symm ⟨hproc, hst, hctx, fun r hr => ?_⟩
    omega
  split at hr
  next hi hi' =>
    cases hr
    refine alone h hholds.symm huses.symm ⟨hproc, hst, hctx, fun r hr => ?_⟩
    grind
  next hi hi' =>
    cases hr
    have hall : (s.cpu c).regs = (s.slot (s.cpu c).p).left := by
      funext r
      exact hregs r (by omega)
    refine work h hholds rfl huses.symm (fun _ => .inr huses) ?_
      (fun hnone => absurd huses (hnone c)) fun p' hp' => ?_
    · refine ⟨hproc, rfl, ?_, ?_⟩
      · simpa using hst
      · simpa using hall
    · grind

/-- The scheduler is done with a process that has switched back. -/
theorem setDown (hcode : (s.cpu c).code = .back)
    (hok : (s.cpu c).proc = some (s.cpu c).p ∧ Off (s.slot (s.cpu c).p).sched.state ∧
      (s.slot (s.cpu c).p).context = (s.slot (s.cpu c).p).left) :
    (s.setCpu c { s.cpu c with proc := none, code := .unlock }).Inv := by
  have hholds : (s.cpu c).holds = some (s.cpu c).p := by simp [Cpu.holds, hcode]
  have huses : (s.cpu c).uses = some (s.cpu c).p := by simp [Cpu.uses, hcode]
  refine of_step (c := c) (q := (s.cpu c).p) h (fun _ _ => rfl) (fun d hd => by simp [hd])
    (fun _ _ => rfl) (fun _ _ => .inl) (fun d r => ?_) (.inl rfl) .inl (fun r hr => ?_) ?_
    (fun r _ hor => ?_) h.fresh h.inj
  · have hd := h.lock d r
    obtain rfl | hdc := eq_or_ne d c
    · rw [hholds] at hd
      simpa [Cpu.holds] using hd
    · simpa [hdc] using hd
  · simp [Cpu.uses] at hr
  · simp [CodeOk]
  · obtain rfl : r = (s.cpu c).p := by grind
    refine ⟨?_, fun _ => hok.2.2⟩
    rcases hok.2.1 with hs | hs | hs <;> rw [Sys.setCpu_slot, hs] <;> nofun

theorem schedStep (hr : s.schedStep c (s.cpu c).code = some t) : t.Inv := by
  have hok := h.code c
  unfold CodeOk at hok
  cases hcode : (s.cpu c).code with
  | scan =>
    rw [hcode] at hr hok
    exact acquired h hr (by simp [Cpu.holds, hcode]) rfl (by simp [Cpu.uses, hcode]) hok
  | test =>
    rw [hcode] at hr hok
    have hholds : (s.cpu c).holds = some (s.cpu c).p := by simp [Cpu.holds, hcode]
    have huses : (s.cpu c).uses = none := by simp [Cpu.uses, hcode]
    simp only [Sys.schedStep] at hr
    split at hr
    next hst =>
      cases hr
      exact h.pick hholds huses hok hst
    · cases hr
      exact alone h hholds.symm huses.symm hok
  | picked =>
    rw [hcode] at hr hok
    cases hr
    exact alone h (by simp [Cpu.holds, hcode]) (by simp [Cpu.uses, hcode])
      ⟨rfl, hok.2.1, hok.2.2, fun r hr => absurd hr (Nat.not_lt_zero _)⟩
  | swtch i =>
    rw [hcode] at hr hok
    exact h.switch hcode hok hr
  | back =>
    rw [hcode] at hr hok
    cases hr
    exact h.setDown hcode hok
  | unlock | intrUnlock q =>
    rw [hcode] at hr hok
    cases hr
    exact released h (by simp [Cpu.holds, hcode]) rfl (by simp [Cpu.uses, hcode]) hok
  | intrWake q chan =>
    rw [hcode] at hr hok
    cases hr
    exact woken h (by simp [Cpu.holds, hcode]) rfl (by simp [Cpu.uses, hcode])
      (Slot.woken_wakeup _ chan) hok
  | thread p pc =>
    rw [hcode] at hr
    cases hr

end

/-- Process `p` runs on CPU `c`, which holds the lock of process `q`. -/
@[grind cases] structure Rounds (s : Sys N K) (c : Fin K) (p q : Fin N) : Prop where
  holds : (s.cpu c).holds = some q
  uses : (s.cpu c).uses = some p
  proc : (s.cpu c).proc = some p
  var : (s.cpu c).p = p
  running : (s.slot p).sched.state = .running

/-- The process is still running when the entry of `q` has changed. -/
theorem Rounds.codeOk {r : Round} (hr : Rounds s c p q)
    (hx : (s.slot q).sched.state = .running → x.sched.state = .running)
    (hok : RoundOk (s.setSlot q x) p q r) :
    CodeOk (s.setSlot q x) { s.cpu c with code := .thread p (.round q r) } := by
  refine ⟨hr.proc, hr.var, ?_, hok⟩
  obtain rfl | hpq := eq_or_ne p q
  · simpa using hx hr.running
  · simpa [hpq] using hr.running

variable (h : s.Inv)
include h

theorem allocStep (ok : Bool) (hr : Rounds s c p q)
    (hgoto : ∀ r, RoundOk s p q r → (s.goto c (.thread p (.round q r))).Inv) :
    (s.roundStep c p q ok .alloc).Inv := by
  rw [Sys.roundStep]
  split
  next hun =>
    have hpid : s.newPid.Inv := ⟨h.lock, h.one, h.code, h.idle, h.fresh, h.inj⟩
    have hnr : (s.slot q).sched.state ≠ .running := by
      rw [hun]
      nofun
    have hpq : p ≠ q := by
      rintro rfl
      exact hnr hr.running
    have hnp : ∀ p', s.np p' ≠ some q := by grind
    have hres (x : Slot) (hx : x.sched.state = .used) : x.sched.state ≠ .running ∧ x.Resumable := by
      grind
    split
    · refine workNp (s := s.newPid) hpid hr.holds (fun r hu hrp => ?_) rfl hr.uses.symm
        (fun hst => absurd hst hnr) ?_ (fun _ => hres _ rfl) (fun _ _ => ⟨rfl, rfl, rfl⟩)
        (fun p' r ho hp' => ?_) fun r ho => .inl (Option.some.inj ho).symm
      · rw [hrp] at hu
        exact absurd hr.uses hu
      · refine ⟨hr.proc, hr.var, ?_, ?_⟩
        · simpa [hpq] using hr.running
        · simp [RoundOk]
      · cases ho
        exact absurd hp' (hnp p')
    · refine work (s := s.newPid) hpid hr.holds rfl hr.uses.symm (fun hst => absurd hst hnr)
        ?_ (fun _ => hres _ rfl) fun p' hp' => absurd hp' (hnp p')
      refine ⟨hr.proc, hr.var, ?_, ?_, ?_, fun p' hp' => absurd hp' (hnp p')⟩
      · simpa [hpq] using hr.running
      · simp
      · simp
  · exact hgoto .unlock trivial

theorem settle (hr : Rounds s c p q) (hu : (s.slot q).sched.state = .used)
    (hnp : ∀ p', s.np p' = some q → p' = p) (hx : x.sched.state ≠ .running) (hres : x.Resumable) :
    (((s.setSlot q x).setNp p none).goto c (.thread p (.round q .unlock))).Inv := by
  have hnr : (s.slot q).sched.state ≠ .running := by
    rw [hu]
    nofun
  have hpq : p ≠ q := by
    rintro rfl
    exact hnr hr.running
  refine workNp h hr.holds (fun r hru hrp => ?_) rfl hr.uses.symm (fun hst => absurd hst hnr) ?_
    (fun _ => ⟨hx, hres⟩) (fun p' hp' => ?_) nofun nofun
  · rw [hrp] at hru
    exact absurd hr.uses hru
  · refine ⟨hr.proc, hr.var, ?_, trivial⟩
    simpa [hpq] using hr.running
  · grind

theorem roundStep {r : Round} (ok : Bool) (hr : Rounds s c p q)
    (hok : RoundOk s p q r) : (s.roundStep c p q ok r).Inv := by
  have hgoto r' (hr' : RoundOk s p q r') : (s.goto c (.thread p (.round q r'))).Inv :=
    alone h hr.holds.symm hr.uses.symm ⟨hr.proc, hr.var, hr.running, hr'⟩
  have hrelease : ((s.setLock q none).goto c (.thread p .run)).Inv :=
    released h hr.holds rfl hr.uses.symm ⟨hr.proc, hr.var, hr.running⟩
  cases r with
  | wake chan =>
    have hw := Slot.woken_wakeup (s.slot q) chan
    exact woken h hr.holds rfl hr.uses.symm hw (hr.codeOk hw.running trivial)
  | kill pid =>
    rw [Sys.roundStep]
    split
    · have hw := Slot.woken_kill (s.slot q)
      exact woken h hr.holds rfl hr.uses.symm hw (hr.codeOk hw.running trivial)
    · exact hgoto .unlock trivial
  | wait =>
    rw [Sys.roundStep]
    grind
  | reap =>
    have hz : (s.slot q).sched.state = .zombie := hok
    have hnr : (s.slot q).sched.state ≠ .running := by
      rw [hz]
      decide
    refine work h hr.holds rfl hr.uses.symm (fun hst => absurd hst hnr)
      (hr.codeOk (fun hst => absurd hst hnr) trivial) (fun _ => ⟨fun hs => ?_, ?_⟩)
      fun p' hp' => ?_
    · cases hs
    · rintro (hs | hs) <;> cases hs
    · grind
  | alloc => exact h.allocStep ok hr hgoto
  | made =>
    rw [Sys.roundStep]
    grind
  | drop =>
    refine h.settle (x := (s.slot q).freeproc) hr hok.1 hok.2.2 (fun hs => ?_) ?_
    · cases hs
    · rintro (hs | hs) <;> cases hs
  | start =>
    have hf := h.fresh p q hok
    exact h.settle (x := (s.slot q).setState .runnable) hr hf.used
      (fun p' hp' => h.inj p' p q hp' hok) (fun hs => by cases hs) fun _ => hf.context
  | unlock => exact hrelease

/-- What a process does to its own entry under its lock, while it is running. -/
theorem own {pc : Pc N} (hr : Rounds s c p p)
    (hy : ({ s.cpu c with code := .thread p pc } : Cpu N).holds = some p)
    (hok : PcOk (s.setSlot p x) (s.cpu c).regs p pc) :
    ((s.setSlot p x).goto c (.thread p pc)).Inv := by
  refine work h hr.holds hy hr.uses.symm (fun _ => .inr hr.uses) ⟨hr.proc, hr.var, hok⟩
    (fun hnone => absurd hr.uses (hnone c)) fun p' hp' => ?_
  grind

theorem switchBack {i : ℕ} {ok : Bool} (hcode : (s.cpu c).code = .thread p (.swtch i))
    (hproc : (s.cpu c).proc = some p) (hp : (s.cpu c).p = p) (hoff : Off (s.slot p).sched.state)
    (hregs : ∀ r : Reg, if r.val < i then (s.slot p).context r = (s.slot p).left r
      else (s.cpu c).regs r = (s.slot p).left r)
    (hr : s.threadStep c p ok (.swtch i) = some t) : t.Inv := by
  have hholds : (s.cpu c).holds = some p := by simp [Cpu.holds, hcode]
  have huses : (s.cpu c).uses = some p := by simp [Cpu.uses, hcode]
  simp only [Sys.threadStep] at hr
  split at hr
  next hi =>
    cases hr
    refine work h hholds rfl huses.symm (fun _ => .inr huses) ⟨hproc, hp, ?_, fun r => ?_⟩
      (fun hnone => absurd huses (hnone c)) fun p' hp' => ?_
    · simpa using hoff
    · have hri := hregs r
      simp only [Sys.setSlot_slot, update_self]
      by_cases heq : r = ⟨i, hi⟩
      · subst heq
        simpa using hri
      have hne : r.val ≠ i := fun hv => heq (Fin.ext hv)
      rw [update_of_ne heq]
      by_cases hlt : r.val < i
      · rw [if_pos (by omega)]
        rwa [if_pos hlt] at hri
      · rw [if_neg (by omega)]
        rwa [if_neg hlt] at hri
    · grind
  next hi =>
    have hsaved (r : Reg) : (s.slot p).context r = (s.slot p).left r := by
      have hri := hregs r
      rwa [if_pos (by omega)] at hri
    split at hr
    · cases hr
      refine alone h hholds.symm huses.symm ⟨hproc, hp, hoff, fun r => ?_⟩
      rw [if_pos (by omega)]
      exact hsaved r
    · cases hr
      refine alone h (by simp [Cpu.holds, hcode, hp]) (by simp [Cpu.uses, hcode, hp]) ?_
      subst hp
      exact ⟨hproc, hoff, funext hsaved⟩

theorem threadStep {pc : Pc N} {ok : Bool} (hcode : (s.cpu c).code = .thread p pc)
    (hr : s.threadStep c p ok pc = some t) : t.Inv := by
  have hok := h.code c
  unfold CodeOk at hok
  rw [hcode] at hok
  obtain ⟨hproc, hp, hpc⟩ := hok
  have huses : (s.cpu c).uses = some p := by simp [Cpu.uses, hcode]
  cases pc with
  | run => cases hr
  | acquire l => exact acquired h hr (by simp [Cpu.holds, hcode]) rfl huses.symm ⟨hproc, hp, hpc⟩
  | leave l =>
    cases hr
    refine own h ⟨by simp [Cpu.holds, hcode], huses, hproc, hp, hpc⟩ rfl ⟨?_, fun r => ?_⟩
    · cases l <;> simp [Off, Sched.yield, Sched.sleep]
    · simp
  | swtch i => exact h.switchBack hcode hproc hp hpc.1 hpc.2 hr
  | resumed =>
    have hholds : (s.cpu c).holds = some p := by simp [Cpu.holds, hcode]
    have hgoto : (s.goto c (.thread p .unlock)).Inv :=
      alone h hholds.symm huses.symm ⟨hproc, hp, hpc.1⟩
    simp only [Sys.threadStep] at hr
    split at hr
    · cases hr
      refine own h ⟨hholds, huses, hproc, hp, hpc.1⟩ rfl ?_
      have hst := hpc.1
      simpa [PcOk] using hst
    · cases hr
    · cases hr
      exact hgoto
  | unlock =>
    cases hr
    exact released h (by simp [Cpu.holds, hcode]) rfl huses.symm ⟨hproc, hp, hpc⟩
  | round q r =>
    cases hr
    exact h.roundStep ok ⟨by simp [Cpu.holds, hcode], huses, hproc, hp, hpc.1⟩ hpc.2

theorem call {f : Sys.Call N} (hcode : (s.cpu c).code = .thread p .run)
    (hr : s.call c p f = some t) : t.Inv := by
  have hok := h.code c
  unfold CodeOk at hok
  rw [hcode] at hok
  obtain ⟨hproc, hp, hpc⟩ := hok
  have huses : (s.cpu c).uses = some p := by simp [Cpu.uses, hcode]
  have hholds : (s.cpu c).holds = none := by simp [Cpu.holds, hcode]
  have hgoto l : (s.goto c (.thread p (.acquire l))).Inv :=
    alone h hholds.symm huses.symm ⟨hproc, hp, hpc⟩
  have hround q r (hq : RoundOk s p q r) (hacq : s.acquire c q (.thread p (.round q r)) = some t) :
      t.Inv :=
    acquired h hacq hholds rfl huses.symm ⟨hproc, hp, hpc, hq⟩
  cases f with
  | yield =>
    cases hr
    exact hgoto .yield
  | sleep chan =>
    simp only [Sys.call, Option.ite_none_right_eq_some, Option.some.injEq] at hr
    rw [← hr.2]
    exact hgoto (.sleep chan)
  | exit =>
    simp only [Sys.call, Option.ite_none_right_eq_some, Option.some.injEq] at hr
    rw [← hr.2]
    exact hgoto .exit
  | wake chan q =>
    simp only [Sys.call, Option.ite_none_right_eq_some] at hr
    exact hround q (.wake chan) trivial hr.2
  | kill pid q =>
    simp only [Sys.call, Option.ite_none_right_eq_some] at hr
    exact hround q (.kill pid) trivial hr.2
  | wait q =>
    simp only [Sys.call, Option.ite_none_right_eq_some] at hr
    exact hround q .wait trivial hr.2
  | fork q =>
    simp only [Sys.call, Option.ite_none_right_eq_some] at hr
    exact hround q .alloc trivial hr.2
  | start =>
    simp only [Sys.call] at hr
    grind

theorem next {a : Sys.Act N K} (hr : s.next a = some t) : t.Inv := by
  cases a with
  | step c ok =>
    simp only [Sys.next] at hr
    split at hr
    next p pc hcode => exact h.threadStep hcode hr
    · exact h.schedStep hr
  | intr c chan q =>
    simp only [Sys.next] at hr
    split at hr
    next hcode =>
      have hok := h.code c
      unfold CodeOk at hok
      rw [hcode] at hok
      exact acquired h hr (by simp [Cpu.holds, hcode]) rfl (by simp [Cpu.uses, hcode]) hok
    · cases hr
  | call c f =>
    simp only [Sys.next] at hr
    split at hr
    next p hcode => exact h.call hcode hr
    · cases hr
  | compute c regs =>
    simp only [Sys.next] at hr
    split at hr
    next p hcode =>
      cases hr
      have hok := h.code c
      unfold CodeOk at hok
      rw [hcode] at hok
      refine alone h rfl rfl ?_
      unfold CodeOk
      simp only [hcode]
      exact hok
    · cases hr

theorem of_frees (hf : (s.cpu c).frees = some q) :
    ((s.slot q).sched.state = .zombie ∨ (s.slot q).ran = false) ∧
      ∀ d, (s.cpu d).uses ≠ some q := by
  have hok := h.code c
  unfold CodeOk at hok
  unfold Cpu.frees at hf
  split at hf
  next p r hcode =>
    cases hf
    rw [hcode] at hok
    obtain ⟨_, _, hrun, hz⟩ := hok
    have hz : (s.slot q).sched.state = .zombie := hz
    refine ⟨.inl hz, h.not_uses (c := c) (by rw [hz]; nofun)
      (.inr ⟨by simp [Cpu.holds, hcode], ?_⟩)⟩
    grind
  next p r hcode =>
    cases hf
    rw [hcode] at hok
    obtain ⟨_, _, _, hu, hran, _⟩ := hok
    refine ⟨.inr hran, h.not_uses (c := c) (by rw [hu]; nofun) (.inl ?_)⟩
    rw [hu]
    rintro (hs | hs | hs) <;> cases hs
  · cases hf

end Sys.Inv

/-- In every run of any number of CPUs, a process is the current process of at most one CPU; one
that is runnable or asleep with its lock free has its context saved and is on no CPU; and
`freeproc` is applied only to a process that is on no CPU and that is a zombie or has never run. -/
theorem process_on_one_cpu {as : List (Sys.Act N K)} (h : s.Booted)
    (hr : run Sys.next s as = some t) :
    (∀ c d p, (t.cpu c).proc = some p → (t.cpu d).proc = some p → c = d) ∧
    (∀ p, (t.slot p).sched.state = .runnable ∨ (t.slot p).sched.state = .sleeping →
      t.lock p = none → (t.slot p).context = (t.slot p).left ∧ ∀ c, (t.cpu c).uses ≠ some p) ∧
    (∀ c q, (t.cpu c).frees = some q → ((t.slot q).sched.state = .zombie ∨ (t.slot q).ran = false) ∧
        ∀ d, (t.cpu d).uses ≠ some q) := by
  have hi : t.Inv := run_invariant (fun _ _ _ hi hn => Sys.Inv.next hi hn) h.inv hr
  refine ⟨fun c d p hc hd => ?_, fun p hst hl => ?_, fun c q hf => hi.of_frees hf⟩
  · grind
  · have hnone : ∀ c, (t.cpu c).uses ≠ some p := by
      intro c hu
      rcases hi.state_of_uses hu with hrun | ⟨_, hc⟩
      · rcases hst with hs | hs <;> rw [hrun] at hs <;> cases hs
      · have hlock := (hi.lock c p).mpr hc
        rw [hl] at hlock
        cases hlock
    exact ⟨(hi.idle p hnone).2 hst, hnone⟩

def twoCpus : Sys 2 2 where
  slot q := ⟨⟨if q = 0 then .runnable else .unused, none, false⟩, 0, fun _ => 0, none, false,
    fun _ => 0⟩
  lock _ := none
  cpu _ := ⟨none, fun _ => 0, fun _ => 0, 0, .scan⟩
  np _ := none
  nextpid := 2
  forkret := 0x80001000
  kstack _ := 0

/-- The second CPU waits for the lock while the first one switches to the process, and then does not
take the process. -/
theorem process_on_one_cpu_two : ∃ t, run Sys.next twoCpus
    (List.replicate 34 (.step 0 true) ++ List.replicate 3 (.step 1 true)) = some t ∧
    (t.cpu 0).proc = some 0 ∧ (t.cpu 1).proc ≠ some 0 := by
  have hboot : twoCpus.Booted := by
    refine ⟨fun _ => rfl, fun _ => rfl, fun _ => rfl, fun _ => rfl, ?_⟩
    intro q
    by_cases hq : q = 0
    · exact .inr ⟨if_pos hq, rfl⟩
    · exact .inl (if_neg hq)
  have hrun : ∃ t ∈ run Sys.next twoCpus
      (List.replicate 34 (.step 0 true) ++ List.replicate 3 (.step 1 true)),
      (t.cpu 0).proc = some 0 := by
    decide +kernel
  generalize List.replicate 34 (Sys.Act.step (0 : Fin 2) true) ++
    List.replicate 3 (Sys.Act.step 1 true) = as at hrun ⊢
  obtain ⟨t, ht, h0⟩ := hrun
  refine ⟨t, ht, h0, fun h1 => ?_⟩
  have hsame := (process_on_one_cpu hboot ht).1 0 1 0 h0 h1
  exact absurd hsame (by decide)

end Xv6.Smp
