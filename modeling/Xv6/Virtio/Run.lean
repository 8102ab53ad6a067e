import Xv6.Virtio.Steps

/-! Runs of the driver: which steps there are, and what holds in every state that is reached. -/
namespace Xv6.Virtio
open Function RingBuffer Transition
variable {P B : Type} [DecidableEq P] [DecidableEq B] {s t : State P B} {a : Act P B}
  {pend done : List ℕ}

inductive Step (s : State P B) : Act P B → State P B → Prop where
  | bget {p : P} {b : B} (hb : s.holder b = none) : Step s (.bget p b) (s.setHolder b (some p))
  | brelse {p : P} {b : B} (hp : s.pos p = .idle) (hb : s.holder b = some p) :
      Step s (.brelse p b) (s.setHolder b none)
  | rw {p : P} {b : B} {blockno : ℕ} {write : Bool} {r : Req B} (hr : r.b = b)
      (hp : s.pos p = .idle) (hb : s.holder b = some p) (hl : s.lock = none) :
      Step s (.rw p b blockno write) ((s.setPos p (.alloc r)).setLock (some (.proc p)))
  | allocSleep {p : P} {r : Req B} {idx : List ℕ} (hp : s.pos p = .alloc r)
      (hl : s.lock = some (.proc p)) (hd : s.disk.Taken idx) :
      Step s (.go p)
        (((s.setDisk ((s.disk.taken idx).released idx)).setPos p (.allocSleep r)).setLock none)
  | alloc {p : P} {r : Req B} {idx : List ℕ} (hp : s.pos p = .alloc r)
      (hl : s.lock = some (.proc p)) (hd : s.disk.Taken idx) (h3 : idx.length = 3) :
      Step s (.go p) ((s.setDisk (s.disk.taken idx)).setPos p (.owns .format r idx))
  | format {p : P} {r : Req B} {i j k : ℕ} (hp : s.pos p = .owns .format r [i, j, k])
      (hl : s.lock = some (.proc p)) :
      Step s (.go p) (((s.setDisk (s.disk.format r i j k)).setBufDisk r.b true).setPos p
        (.owns .publish r [i, j, k]))
  | publish {p : P} {r : Req B} {i : ℕ} {idx : List ℕ} (hp : s.pos p = .owns .publish r (i :: idx))
      (hl : s.lock = some (.proc p)) :
      Step s (.go p)
        { (s.setDisk (s.disk.setAvail s.disk.avail.advance)).setPos p
          (.owns .check r (i :: idx)) with completed := update s.completed i false }
  | sleep {p : P} {r : Req B} {i : ℕ} {idx : List ℕ} (hp : s.pos p = .owns .check r (i :: idx))
      (hl : s.lock = some (.proc p)) (hb : s.bufDisk r.b = true) :
      Step s (.go p) ((s.setPos p (.owns .sleep r (i :: idx))).setLock none)
  | done {p : P} {r : Req B} {i : ℕ} {idx : List ℕ} (hp : s.pos p = .owns .check r (i :: idx))
      (hl : s.lock = some (.proc p)) (hb : s.bufDisk r.b = false) (hc : s.completed i = true) :
      Step s (.go p) (((s.setDisk ((s.disk.setInfo i { s.disk.info i with b := none }).released
        (i :: idx))).setPos p .idle).setLock none)
  | wakeAlloc {p : P} {r : Req B} (hp : s.pos p = .allocSleep r) (hl : s.lock = none) :
      Step s (.wake p) ((s.setPos p (.alloc r)).setLock (some (.proc p)))
  | wakeCheck {p : P} {r : Req B} {idx : List ℕ} (hp : s.pos p = .owns .sleep r idx)
      (hl : s.lock = none) :
      Step s (.wake p) ((s.setPos p (.owns .check r idx)).setLock (some (.proc p)))
  | intr (hl : s.lock = none) : Step s .intr (s.setLock (some .intr))
  | intrEnd (hl : s.lock = some .intr) (he : s.disk.used.Empty) : Step s .intrLoop (s.setLock none)
  | clear {p : P} {r : Req B} {idx : List ℕ} (he : ¬ s.disk.used.Empty)
      (hp : s.pos p = .owns .sleep r (s.disk.used.front :: idx)) (hb : s.bufDisk r.b = true)
      (hc : s.completed s.disk.used.front = true) :
      Step s .intrLoop ((s.setDisk (s.disk.setUsed s.disk.used.pop)).setBufDisk r.b false)
  | consume (he : ¬ s.disk.avail.Empty) :
      Step s .consume { s.setDisk (s.disk.setAvail s.disk.avail.pop) with
        work := s.work ++ [s.disk.avail.front] }
  | complete {i : ℕ} (hi : i ∈ s.work) :
      Step s (.complete i) { s.setDisk ((s.disk.writeStatus i).setUsed (s.disk.used.push i)) with
        work := s.work.erase i
        completed := update s.completed i true }

section
variable (h : Inv s pend done)
include h

theorem step_of_go {p : P} (hl : s.lock = some (.proc p))
    (ht : s.go p = some t) : Step s (.go p) t := by
  have hok := h.proc p
  unfold State.go at ht
  split at ht
  next r hp =>
    obtain ⟨x, hx, hall⟩ := s.disk.alloc3Desc_spec
    rw [hx] at ht
    cases hall with
    | all idx hd h3 =>
      cases ht
      exact .alloc hp hl hd h3
    | none idx hd =>
      cases ht
      exact .allocSleep hp hl hd
  next r i j k hp =>
    cases ht
    exact .format hp hl
  next r i idx hp =>
    cases ht
    exact .publish hp hl
  next r i idx hp =>
    split at ht
    next hb =>
      cases ht
      exact .sleep hp hl hb
    next hb =>
      rw [hp] at hok
      have hn := h.held.nodup p
      have hmem := h.held.live_of_mem p
      simp only [hp, Pos.idx] at hn hmem
      have hb' : s.bufDisk r.b = false := by simpa using hb
      rw [Disk.freeChain_formatted (hok.2.2.2.1 (by simp)) hn hmem] at ht
      cases ht
      exact .done hp hl hb' (hok.2.2.2.2.2 trivial hb' i rfl)
  next => cases ht

theorem step_of_intrLoop (hl : s.lock = some .intr) : Step s .intrLoop s.intrLoop := by
  unfold State.intrLoop
  split
  next he => exact .intrEnd hl he
  next he =>
    cases done with
    | nil => exact absurd ((h.used.empty_iff num_lt).mpr rfl) he
    | cons i done =>
      have hi : i ∈ pend ++ s.work ++ i :: done := by simp
      obtain ⟨p, st, r, idx, hp, hst, hb, hf⟩ := h.waiting hi
      have hst' : st = .sleep := by grind
      subst hst'
      have hbuf : (s.disk.info i).b = some r.b := by
        obtain ⟨-, -, -, -, hbuf⟩ := hf
        exact hbuf
      have hfront := h.used.front num_dvd
      rw [← hfront] at hp
      rw [hfront, if_neg (by simp [h.status i List.mem_cons_self]), hbuf]
      exact .clear he hp hb (hfront ▸ h.completed i List.mem_cons_self)

theorem step_of_next (ht : s.next a = some t) : Step s a t := by
  unfold State.next at ht
  rw [if_neg (by simp [h.calm])] at ht
  cases a with
  | bget p b =>
    obtain ⟨⟨hp, hb⟩, ht⟩ := Option.ite_none_right_eq_some.mp ht
    cases ht
    exact .bget hb
  | brelse p b =>
    obtain ⟨⟨hp, hb⟩, ht⟩ := Option.ite_none_right_eq_some.mp ht
    cases ht
    exact .brelse hp hb
  | rw p b blockno write =>
    obtain ⟨⟨hp, hb, hl⟩, ht⟩ := Option.ite_none_right_eq_some.mp ht
    cases ht
    exact .rw rfl hp hb hl
  | go p =>
    obtain ⟨hl, ht⟩ := Option.ite_none_right_eq_some.mp ht
    exact step_of_go h hl ht
  | wake p =>
    obtain ⟨hl, ht⟩ := Option.ite_none_right_eq_some.mp ht
    split at ht
    next r hp =>
      cases ht
      exact .wakeAlloc hp hl
    next r idx hp =>
      cases ht
      exact .wakeCheck hp hl
    next => cases ht
  | intr =>
    obtain ⟨hl, ht⟩ := Option.ite_none_right_eq_some.mp ht
    cases ht
    exact .intr hl
  | intrLoop =>
    obtain ⟨hl, ht⟩ := Option.ite_none_right_eq_some.mp ht
    cases ht
    exact step_of_intrLoop h hl
  | consume =>
    obtain ⟨he, ht⟩ := Option.ite_none_left_eq_some.mp ht
    cases ht
    exact .consume he
  | complete i =>
    obtain ⟨hi, ht⟩ := Option.ite_none_right_eq_some.mp ht
    cases ht
    exact .complete hi

theorem step_inv (hstep : Step s a t) : ∃ pend' done', Inv t pend' done' := by
  cases hstep with
  | bget hb => exact ⟨pend, done, inv_setHolder h _ fun q => .inr (by simp [hb])⟩
  | brelse hp hb =>
    refine ⟨pend, done, inv_setHolder h _ fun q => ?_⟩
    grind
  | rw hr hp hb hl =>
    subst hr
    refine ⟨pend, done, inv_setLock h (by rw [hp]; rfl) (by rw [hp]; rfl) (.inl hl) (.inr rfl) ?_⟩
    exact ⟨rfl, hb⟩
  | allocSleep hp hl hd => exact ⟨pend, done, inv_allocSleep h hp hl hd⟩
  | alloc hp hl hd h3 => exact ⟨pend, done, inv_alloc h hp hl hd h3⟩
  | format hp hl => exact ⟨pend, done, inv_format h hp hl⟩
  | publish hp hl => exact ⟨_, done, inv_publish h hp hl⟩
  | @sleep p _ _ _ hp hl hb =>
    have hok := h.proc p
    rw [hp] at hok
    obtain ⟨-, hh, h3, hf, -, hc⟩ := hok
    refine ⟨pend, done, inv_setLock h (by rw [hp]; rfl) (by rw [hp]; rfl) (.inr hl) (.inl rfl) ?_⟩
    grind
  | done hp hl hb => exact ⟨pend, done, inv_done h hp hl hb⟩
  | @wakeAlloc p _ hp hl =>
    have hok := h.proc p
    rw [hp] at hok
    refine ⟨pend, done, inv_setLock h (by rw [hp]; rfl) (by rw [hp]; rfl) (.inl hl) (.inr rfl) ?_⟩
    exact ⟨rfl, hok.2⟩
  | @wakeCheck p r idx hp hl =>
    have hok := h.proc p
    rw [hp] at hok
    obtain ⟨-, hh, h3, hf, -, hc⟩ := hok
    have hw : (Pos.owns .check r idx).waits s.bufDisk =
        (Pos.owns .sleep r idx).waits s.bufDisk := by
      cases idx <;> rfl
    refine ⟨pend, done, inv_setLock h (by rw [hp]; rfl) (by rw [hp, hw]) (.inl hl) (.inr rfl) ?_⟩
    exact ⟨by simp, hh, h3, fun _ => hf (by simp), nofun, fun _ => hc trivial⟩
  | intr hl | intrEnd hl he => exact ⟨pend, done, inv_intr h (by simp [hl]) nofun⟩
  | clear he hp hb hc =>
    cases done with
    | nil => exact absurd ((h.used.empty_iff num_lt).mpr rfl) he
    | cons i done =>
      rw [h.used.front num_dvd] at hp
      exact ⟨pend, done, inv_clear h hp hb⟩
  | consume he =>
    cases pend with
    | nil => exact absurd ((h.avail.empty_iff num_lt).mpr rfl) he
    | cons i pend =>
      rw [h.avail.front num_dvd]
      exact ⟨pend, done, inv_consume h⟩
  | complete hi => exact ⟨pend, _, inv_complete h hi⟩

end

theorem run_inv {as : List (Act P B)} (hr : run State.next State.init as = some s) :
    ∃ pend done, Inv s pend done := by
  refine run_invariant (I := fun s => ∃ pend done, Inv s pend done) ?_ ⟨[], [], inv_init⟩ hr
  rintro s a t ⟨pend, done, h⟩ ht
  exact step_inv h (step_of_next h ht)

theorem avail_kept (h : Inv s pend done) (hstep : Step s a t) {k : ℕ}
    (hk : k < (s.disk.avail.tail - s.disk.avail.head).toNat) :
    t.disk.avail.data (cell (s.disk.avail.head + BitVec.ofNat 16 k)) =
      s.disk.avail.data (cell (s.disk.avail.head + BitVec.ofNat 16 k)) := by
  rw [h.avail.toNat_sub num_lt] at hk
  cases hstep with
  | @format p r i j l hp hl =>
    have hmem : i ∈ (s.pos p).idx := by simp [hp, Pos.idx]
    have hlt := h.pend_lt hmem (by rw [hp]; rfl)
    exact update_of_ne (h.avail.cell_ne_tail num_dvd hlt hk) _ _
  | complete hi => grind
  | _ => rfl

theorem idle_of_step (hstep : Step s a t) {p : P} {st : Stage} {r : Req B} {i : ℕ} {idx : List ℕ}
    (hp : s.pos p = .owns st r (i :: idx)) (ht : t.pos p = .idle) : s.completed i = true := by
  have hmove : ∀ {q : P} {x : Pos B}, update s.pos q x p = .idle → p = q ∧ x = .idle := by grind
  cases hstep with
  | done hq hl hb hc =>
    obtain ⟨rfl, -⟩ := hmove ht
    rw [hp] at hq
    cases hq
    exact hc
  | rw | allocSleep | alloc | format | publish | sleep | wakeAlloc | wakeCheck =>
    cases (hmove ht).2
  | _ => cases hp.symm.trans ht

theorem intrLoop_of_clear (hstep : Step s a t) {b : B} (hb : s.bufDisk b = true)
    (ht : t.bufDisk b = false) : a = .intrLoop := by
  cases hstep with
  | @format p r i j k hp hl =>
    have hset : update s.bufDisk r.b true b = false := ht
    grind
  | clear | intrEnd => rfl
  | _ => cases hb.symm.trans ht

theorem clear_of_intrLoop (hstep : Step s .intrLoop t) (he : ¬ s.disk.used.Empty) :
    ∃ p r idx, s.pos p = .owns .sleep r (s.disk.used.front :: idx) ∧
      s.completed s.disk.used.front = true ∧ s.bufDisk r.b = true ∧
      t.bufDisk = update s.bufDisk r.b false := by
  cases hstep with
  | intrEnd hl he' => exact absurd he' he
  | @clear p r idx _ hp hb hc => exact ⟨p, r, idx, hp, hc, hb, rfl⟩

/-- The protocol in every state that is reached. A descriptor is free or in one chain of three of
one request, and no panic has happened. A step does not overwrite an entry of the avail ring that
the device has not read; a round of the handler clears the buffer of the request that was
completed, and nothing else clears a buffer; and a request returns after its completion. -/
theorem virtio_protocol {as : List (Act P B)} (hr : run State.next State.init as = some s) :
    s.panic = none ∧ (∀ p st r idx, s.pos p = .owns st r idx → idx.length = 3 ∧ idx.Nodup ∧
        (st ≠ .format → s.disk.Formatted r idx)) ∧
      (∀ i < num, (s.disk.free i = true ∧ ∀ p, i ∉ (s.pos p).idx) ∨
        s.disk.free i = false ∧ ∃! p, i ∈ (s.pos p).idx) ∧
      ∀ a t, s.next a = some t →
        t.panic = none ∧
        (∀ k < (s.disk.avail.tail - s.disk.avail.head).toNat,
          t.disk.avail.data (cell (s.disk.avail.head + BitVec.ofNat 16 k)) =
            s.disk.avail.data (cell (s.disk.avail.head + BitVec.ofNat 16 k))) ∧
        (a = .intrLoop → ¬ s.disk.used.Empty →
          ∃ p r idx, s.pos p = .owns .sleep r (s.disk.used.front :: idx) ∧
            s.completed s.disk.used.front = true ∧ s.bufDisk r.b = true ∧
            t.bufDisk = update s.bufDisk r.b false) ∧
        (∀ b, s.bufDisk b = true → t.bufDisk b = false → a = .intrLoop) ∧
        ∀ p st r i idx, s.pos p = .owns st r (i :: idx) → t.pos p = .idle →
          s.completed i = true := by
  obtain ⟨pend, done, h⟩ := run_inv hr
  refine ⟨h.calm, fun p st r idx hp => ?_, fun i hi => ?_, fun a t ht => ?_⟩
  · have hok := h.proc p
    have hn := h.held.nodup p
    rw [hp] at hok hn
    exact ⟨hok.2.2.1, hn, hok.2.2.2.1⟩
  · cases hf : s.disk.free i with
    | true =>
      refine .inl ⟨rfl, fun p hp => ?_⟩
      exact absurd (hf.symm.trans (h.held.live_of_mem p i hp).2) (by simp)
    | false => exact .inr ⟨rfl, h.held.live_iff.mp ⟨hi, hf⟩⟩
  · have hstep := step_of_next h ht
    obtain ⟨pend', done', h'⟩ := step_inv h hstep
    refine ⟨h'.calm, fun k hk => avail_kept h hstep hk, fun ha he => ?_,
      fun b hb hbt => intrLoop_of_clear hstep hb hbt,
      fun p st r i idx hp hpt => idle_of_step hstep hp hpt⟩
    subst ha
    exact clear_of_intrLoop hstep he

def twoWrites : List (Act (Fin 2) (Fin 2)) :=
  [.bget 0 0, .bget 1 1, .rw 0 0 5 true, .go 0, .go 0, .go 0, .consume, .go 0, .rw 1 1 6 false,
    .go 1, .go 1, .go 1, .go 1, .consume, .complete 3, .complete 0, .intr, .intrLoop,
    .intrLoop, .intrLoop, .wake 0, .go 0]

theorem virtio_protocol_twoWrites :
    ∃ s, run State.next State.init twoWrites = some s ∧ s.panic = none ∧ s.pos 0 = .idle ∧
      (∀ i < num, (s.disk.free i = true ∧ ∀ p, i ∉ (s.pos p).idx) ∨
        s.disk.free i = false ∧ ∃! p, i ∈ (s.pos p).idx) := by
  have h : ∃ s ∈ run State.next State.init twoWrites, s.pos 0 = .idle := by decide +kernel
  obtain ⟨s, hs, hp⟩ := h
  have hall := virtio_protocol hs
  exact ⟨s, hs, hall.1, hp, hall.2.2.1⟩

end Xv6.Virtio
