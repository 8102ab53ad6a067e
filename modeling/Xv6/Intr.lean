import Xv6.Lib.Transition
import Xv6.Params

/-! Interrupts under spin locks: `noff` and `intena` of a CPU follow the thread that it runs. -/
namespace Xv6.Intr
open Function Transition List Option

inductive Lock (P L : Type) where
  | proc (p : P)
  | other (l : L)
  deriving DecidableEq

/-- Between `intr_get` and `intr_off` of `push_off` a thread has the value `old`. -/
inductive Pc where
  | run
  | pushing (old : Bool)
  deriving DecidableEq

/-- A kernel thread: its locks and open `push_off`s, the interrupt state before the first of these,
where interrupts have stopped it, and the variable `intena` of its `sched`. -/
structure Thread (P L : Type) where
  pc : Pc
  held : List (Lock P L)
  opened : ℕ
  before : Option Bool
  stack : List Pc
  saved : Option Bool

/-- A CPU and the thread that it runs; while this is a process's, the scheduler's waits in
`swtch`. -/
structure Cpu (P L : Type) where
  noff : ℕ
  intena : Bool
  intr : Bool
  proc : Option (P × Thread P L)
  cur : Thread P L

structure State (P C L : Type) where
  cpu : C → Cpu P L
  waiting : P → Option (Thread P L)
  panic : Bool

/-- What a thread does: the halves of `push_off`, the swaps of `acquire` and `release`, `pop_off`,
`intr_on` or `intr_off`, an interrupt and the return from it, `swtch`, and a new thread. -/
inductive Op (P L : Type) where
  | intrGet
  | intrOff
  | acquire (l : Lock P L)
  | release (l : Lock P L)
  | popOff
  | setIntr (b : Bool)
  | trap
  | sret
  | sched
  | scheduler (p : P)
  | allocproc (p : P)

variable {P C L : Type}

/-- The thread of a process that starts in `forkret`. -/
def Thread.fresh (p : P) : Thread P L := ⟨.run, [.proc p], 1, none, [], none⟩

namespace State

@[grind] def setCpu [DecidableEq C] (s : State P C L) (c : C) (y : Cpu P L) : State P C L :=
  { s with cpu := update s.cpu c y }

/-- A step of the thread `x` on the CPU `c`, which is `y`. A lock can be taken at any time: to wait
for it changes nothing here. -/
def step [DecidableEq P] [DecidableEq C] [DecidableEq L] (s : State P C L) (c : C) (y : Cpu P L)
    (x : Thread P L) : Op P L → Option (State P C L)
  | .intrGet =>
    if x.pc = .run then some (s.setCpu c { y with cur := { x with pc := .pushing y.intr } })
    else none
  | .intrOff =>
    match x.pc with
    | .run => none
    | .pushing old => some (s.setCpu c { y with
        intr := false
        intena := if y.noff = 0 then old else y.intena
        noff := y.noff + 1
        cur := { x with
          pc := .run
          opened := x.opened + 1
          before := if x.opened = 0 then some y.intr else x.before } })
  | .acquire l =>
    if x.pc = .run ∧ x.held.length < x.opened ∧ l ∉ x.held then
      some (s.setCpu c { y with cur := { x with held := l :: x.held } })
    else none
  | .release l =>
    if x.pc = .run ∧ l ∈ x.held then
      some (s.setCpu c { y with cur := { x with held := x.held.erase l } })
    else none
  | .popOff =>
    if x.pc = .run ∧ x.held.length < x.opened then
      if y.intr = true ∨ y.noff < 1 then some { s with panic := true }
      else some (s.setCpu c { y with
        noff := y.noff - 1
        intr := if y.noff - 1 = 0 ∧ y.intena = true then true else y.intr
        cur := { x with opened := x.opened - 1 } })
    else none
  | .setIntr b =>
    if x.pc = .run ∧ x.opened = 0 then some (s.setCpu c { y with intr := b }) else none
  | .trap =>
    if y.intr = true then
      some (s.setCpu c { y with
        intr := false, cur := { x with pc := .run, stack := x.pc :: x.stack } })
    else none
  | .sret =>
    match x.stack with
    | [] => none
    | pc :: stack =>
      if x.pc = .run ∧ x.opened = 0 then
        some (s.setCpu c { y with intr := true, cur := { x with pc := pc, stack := stack } })
      else none
  | .sched =>
    match y.proc with
    | none => none
    | some (p, z) =>
      if x.pc = .run ∧ .proc p ∈ x.held ∧ y.noff = 1 then
        some { s.setCpu c { y with proc := none, cur := z } with
          waiting := update s.waiting p (some { x with saved := some y.intena }) }
      else none
  | .scheduler p =>
    match y.proc, s.waiting p with
    | none, some z =>
      if x.pc = .run ∧ x.held = [.proc p] ∧ x.opened = 1 then
        some { s.setCpu c { y with
            proc := some (p, x), cur := z, intena := z.saved.getD y.intena } with
          waiting := update s.waiting p none }
      else none
    | _, _ => none
  | .allocproc p =>
    if .proc p ∈ x.held ∧ (s.waiting p).isSome = true then
      some { s with waiting := update s.waiting p (some (.fresh p)) }
    else none

def next [DecidableEq P] [DecidableEq C] [DecidableEq L] (s : State P C L) (a : C × Op P L) :
    Option (State P C L) :=
  s.step a.1 (s.cpu a.1) (s.cpu a.1).cur a.2

def boot (intr intena : C → Bool) : State P C L where
  cpu := fun c => ⟨0, intena c, intr c, none, .run, [], 0, none, [], none⟩
  waiting := fun p => some (.fresh p)
  panic := false

end State

@[grind cases] structure Waits (p : P) (x : Thread P L) : Prop where
  pc : x.pc = .run
  held : x.held = [.proc p]
  opened : x.opened = 1
  stack : ∀ old, .pushing old ∈ x.stack → old = true

@[grind cases] structure Away (p : P) (x : Thread P L) : Prop extends Waits p x where
  saved : ∀ b, x.before = some b → x.saved = some b

@[grind cases] structure Good (y : Cpu P L) : Prop where
  noff : y.noff = y.cur.opened
  fits : y.cur.held.length ≤ y.cur.opened
  off : 0 < y.cur.opened → y.intr = false
  pushing : ∀ old, y.cur.pc = .pushing old → old = y.intr
  stack : ∀ old, .pushing old ∈ y.cur.stack → old = true
  intena : ∀ b, y.proc ≠ none → y.cur.before = some b → 0 < y.cur.opened → y.intena = b
  scheduler : ∀ p z, y.proc = some (p, z) → Waits p z

@[grind cases] structure Inv (s : State P C L) : Prop where
  good : ∀ c, Good (s.cpu c)
  waits : ∀ p x, s.waiting p = some x → Away p x
  panic : s.panic = false

variable {s t : State P C L} {c : C} {p : P} {y : Cpu P L} {z : Thread P L}

/-- `swtch` from a thread with one open `push_off` to a thread that waits. -/
theorem Good.swtch {o : Option (P × Thread P L)} {e : Bool} (hg : Good y)
    (hopened : y.cur.opened = 1) (hz : Waits p z)
    (he : ∀ b, o ≠ none → z.before = some b → e = b)
    (ho : ∀ p z, o = some (p, z) → Waits p z) :
    Good { y with proc := o, cur := z, intena := e } where
  noff := by rw [hg.noff, hopened, hz.opened]
  fits := by simp [hz.held, hz.opened]
  off _ := hg.off (by omega)
  pushing old ho := absurd (hz.pc.symm.trans ho) nofun
  stack := hz.stack
  intena b hp hb _ := he b hp hb
  scheduler := ho

namespace Inv

theorem boot (intr intena : C → Bool) : Inv (State.boot intr intena : State P C L) where
  good c := ⟨rfl, le_rfl, fun h0 => absurd h0 (lt_irrefl 0), nofun, nofun, nofun, nofun⟩
  waits p x hx := by
    cases hx
    exact ⟨⟨rfl, rfl, rfl, nofun⟩, nofun⟩
  panic := rfl

theorem waits_update [DecidableEq P] (h : Inv s) {o : Option (Thread P L)}
    (ho : ∀ x, o = some x → Away p x) (q : P) (x : Thread P L)
    (hq : update s.waiting p o q = some x) : Away q x := by grind

variable [DecidableEq C]

theorem of_cpu (h : Inv s) (hcpu : t.cpu = update s.cpu c y) (hg : Good y)
    (hw : ∀ p x, t.waiting p = some x → Away p x) (hp : t.panic = s.panic) : Inv t := by
  refine ⟨fun d => ?_, hw, hp.trans h.panic⟩
  rw [hcpu]
  grind

theorem setCpu (h : Inv s) (hg : Good y) : Inv (s.setCpu c y) := h.of_cpu rfl hg h.waits rfl

variable [DecidableEq P] [DecidableEq L]

theorem next {a : C × Op P L} (h : Inv s) (hn : s.next a = some t) : Inv t := by
  obtain ⟨c, op⟩ := a
  have hg := h.good c
  unfold State.next at hn
  dsimp only at hn
  generalize s.cpu c = y at hg hn
  cases op with
  | intrGet =>
    obtain ⟨_, hn⟩ := ite_none_right_eq_some.mp hn
    cases hn
    exact h.setCpu { hg with pushing := fun old ho => (Pc.pushing.inj ho).symm }
  | intrOff =>
    rw [State.step] at hn
    split at hn
    · cases hn
    next old hpc =>
      cases hn
      refine h.setCpu { hg with
        noff := congrArg (· + 1) hg.noff
        fits := Nat.le_succ_of_le hg.fits
        off := fun _ => rfl
        pushing := nofun
        intena := fun b hp hb _ => ?_ }
      grind
  | acquire l =>
    obtain ⟨⟨_, hlt, _⟩, hn⟩ := ite_none_right_eq_some.mp hn
    cases hn
    exact h.setCpu { hg with fits := hlt }
  | release l =>
    obtain ⟨_, hn⟩ := ite_none_right_eq_some.mp hn
    cases hn
    exact h.setCpu { hg with fits := length_erase_le.trans hg.fits }
  | popOff =>
    obtain ⟨⟨hpc, hlt⟩, hn⟩ := ite_none_right_eq_some.mp hn
    have hpos : 0 < y.cur.opened := Nat.zero_lt_of_lt hlt
    have hnoff := hg.noff
    rw [if_neg (by simp [hg.off hpos]; omega)] at hn
    cases hn
    refine h.setCpu { hg with
      noff := congrArg (· - 1) hg.noff
      fits := Nat.le_sub_one_of_lt hlt
      off := fun h1 => ?_
      pushing := fun old ho => absurd (hpc.symm.trans ho) nofun
      intena := fun b hp hb _ => hg.intena b hp hb hpos }
    grind
  | setIntr b =>
    obtain ⟨⟨hpc, h0⟩, hn⟩ := ite_none_right_eq_some.mp hn
    cases hn
    exact h.setCpu { hg with
      off := fun hpos => absurd h0 hpos.ne'
      pushing := fun old ho => absurd (hpc.symm.trans ho) nofun }
  | trap =>
    obtain ⟨hi, hn⟩ := ite_none_right_eq_some.mp hn
    cases hn
    refine h.setCpu { hg with
      off := fun _ => rfl
      pushing := nofun
      stack := fun old hm => ?_ }
    grind
  | sret =>
    rw [State.step] at hn
    split at hn
    · cases hn
    next pc stack hs =>
      obtain ⟨⟨hpc, h0⟩, hn⟩ := ite_none_right_eq_some.mp hn
      cases hn
      have hstack := hg.stack
      rw [hs] at hstack
      exact h.setCpu { hg with
        off := fun hpos => absurd h0 hpos.ne'
        pushing := fun old ho => hstack old (ho ▸ .head _)
        stack := fun old hm => hstack old (.tail _ hm) }
  | sched =>
    rw [State.step] at hn
    split at hn
    · cases hn
    next p z hp =>
      obtain ⟨⟨hpc, hmem, h1⟩, hn⟩ := ite_none_right_eq_some.mp hn
      cases hn
      have hopened : y.cur.opened = 1 := hg.noff.symm.trans h1
      have hheld : y.cur.held = [.proc p] := by
        obtain ⟨l, hone⟩ := length_eq_one_iff.mp
          (le_antisymm (hopened ▸ hg.fits) (length_pos_of_mem hmem))
        rw [hone, mem_singleton] at hmem
        rw [hone, hmem]
      refine h.of_cpu rfl (hg.swtch hopened (hg.scheduler p z hp) (fun _ hne => absurd rfl hne)
        nofun) (h.waits_update fun x hx => ?_) rfl
      cases hx
      refine ⟨⟨hpc, hheld, hopened, hg.stack⟩, fun b hb => congrArg some ?_⟩
      exact hg.intena b (by rw [hp]; nofun) hb (by omega)
  | scheduler p =>
    rw [State.step] at hn
    split at hn
    next z hp hz =>
      obtain ⟨⟨hpc, hheld, hopened⟩, hn⟩ := ite_none_right_eq_some.mp hn
      cases hn
      have hw := h.waits p z hz
      refine h.of_cpu rfl (hg.swtch hopened hw.toWaits (fun b _ hb => ?_) fun q w hq => ?_)
        (h.waits_update nofun) rfl
      · rw [hw.saved b hb, getD_some]
      · cases hq
        exact ⟨hpc, hheld, hopened, hg.stack⟩
    · cases hn
  | allocproc p =>
    obtain ⟨_, hn⟩ := ite_none_right_eq_some.mp hn
    cases hn
    refine ⟨h.good, h.waits_update fun x hx => ?_, h.panic⟩
    cases hx
    exact ⟨⟨rfl, rfl, rfl, nofun⟩, nofun⟩

end Inv

variable [DecidableEq P] [DecidableEq C] [DecidableEq L]

/-- In every run `pop_off` does not panic, `noff` counts the open `push_off`s of the thread that
runs, interrupts are off while it holds a lock, and the last `pop_off` of a process leaves the
interrupts as they were before its first `push_off`. -/
theorem interrupts_follow_thread (intr intena : C → Bool) (as : List (C × Op P L))
    (hr : run State.next (State.boot intr intena) as = some s) :
    s.panic = false ∧ ∀ c, (s.cpu c).noff = (s.cpu c).cur.opened ∧
      (∀ l ∈ (s.cpu c).cur.held, (s.cpu c).intr = false) ∧
      ∀ b t, (s.cpu c).proc ≠ none → (s.cpu c).cur.opened = 1 →
        (s.cpu c).cur.before = some b → s.next (c, .popOff) = some t → (t.cpu c).intr = b := by
  have hi : Inv s := run_invariant (fun _ _ _ h hn => h.next hn) (Inv.boot intr intena) hr
  refine ⟨hi.panic, fun c => ?_⟩
  have hg := hi.good c
  refine ⟨hg.noff, fun l hl => ?_, fun b t hp h1 hb hn => ?_⟩
  · exact hg.off ((length_pos_of_mem hl).trans_le hg.fits)
  · obtain ⟨_, hn⟩ := ite_none_right_eq_some.mp hn
    have hoff := hg.off (by omega)
    rw [if_neg (by simp [hoff, hg.noff, h1])] at hn
    cases hn
    simp [State.setCpu, hg.noff, h1, hoff, hg.intena b hp hb (by omega)]

def migration : List (Fin 2 × Op Unit Unit) :=
  [(0, .intrGet), (0, .intrOff), (0, .acquire (.proc ())), (0, .scheduler ()),
    (0, .release (.proc ())), (0, .popOff), (0, .intrGet), (0, .intrOff), (0, .acquire (.proc ())),
    (0, .sched), (0, .release (.proc ())), (1, .intrGet), (1, .intrOff), (1, .acquire (.proc ())),
    (1, .scheduler ()), (1, .release (.proc ()))]

theorem interrupts_follow_thread_migration : ∃ s t : State Unit (Fin 2) Unit,
    run State.next (State.boot (fun c => c = 0) fun _ => false) migration = some s ∧
      (s.cpu 1).proc ≠ none ∧ s.next (1, .popOff) = some t ∧ (t.cpu 1).intr = true := by
  have h : ∃ s ∈ run State.next (State.boot (fun c => c = 0) fun _ => false) migration,
      (s.cpu 1).proc.isSome = true ∧ (s.cpu 1).cur.opened = 1 ∧
      (s.cpu 1).cur.before = some true ∧ (s.next (1, .popOff)).isSome = true := by decide +kernel
  obtain ⟨s, hr, hp, h1, hb, hn⟩ := h
  obtain ⟨t, ht⟩ := isSome_iff_exists.mp hn
  have hall := (interrupts_follow_thread (fun c => c = 0) (fun _ => false) migration hr).2 1
  have hproc := isSome_iff_ne_none.mp hp
  exact ⟨s, t, hr, hproc, ht, hall.2.2 true t hproc h1 hb ht⟩

end Xv6.Intr
