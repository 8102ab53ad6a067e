import Xv6.Pipe.Fifo

/-! Messages of one size. When the size divides `PIPESIZE`, the pipe is full or empty only between
two messages, so a writer never gives up the lock inside a message and a reader never stops inside
one. -/
namespace Xv6.Pipe
open Function Proc Transition List
variable {α : Type} {k : ℕ}

private theorem dvd_length_flatten {ls : List (List α)}
    (h : ∀ l ∈ ls, l.length = 0 ∨ l.length = k) : k ∣ ls.flatten.length := by
  rw [length_flatten]
  refine dvd_sum fun n hn => ?_
  obtain ⟨l, hl, rfl⟩ := mem_map.mp hn
  rcases h l hl with h0 | hk
  · rw [h0]
    exact dvd_zero k
  · rw [hk]

theorem prefix_of_flatten {as bs : List (List α)} (hk : 0 < k) (ha : ∀ l ∈ as, l.length = k)
    (hb : ∀ l ∈ bs, l.length = k) (h : as.flatten <+: bs.flatten) : as <+: bs := by
  induction as generalizing bs with
  | nil => exact nil_prefix
  | cons a as ih =>
    have hal := ha a (.head _)
    cases bs with
    | nil =>
      have hle := h.length_le
      grind
    | cons b bs =>
      obtain ⟨rest, hrest⟩ := h
      rw [flatten_cons, flatten_cons, append_assoc] at hrest
      obtain ⟨rfl, htail⟩ := append_inj hrest (hal.trans (hb b (.head _)).symm)
      grind

variable {N : ℕ}

structure Traffic (N : ℕ) where
  s : State N
  /-- The bytes that the last call of a process has stored or delivered. -/
  part : Fin N → List UInt8
  /-- The bytes of the calls of `pipewrite` that have stored all their bytes, in this order. -/
  sent : List (List UInt8)
  /-- The bytes that the calls of `piperead` have delivered, in the order of the calls' ends. -/
  received : List (List UInt8)

namespace Traffic

def note (g : Traffic N) (p : Fin N) (copy : Option UInt8) (c c' : Pc) (t : State N) : Traffic N :=
  match c, c' with
  | .writeBody _ _, .writeTest _ _ =>
    { g with s := t, part := update g.part p (g.part p ++ copy.toList) }
  | .writeTest _ _, .writeWake _ _ => { g with s := t, sent := g.sent ++ [g.part p] }
  | .readCopy _ _, .readCopy _ _ =>
    { g with s := t, part := update g.part p (g.part p ++ [g.s.pi.ring.front]) }
  | .readCopy _ _, .readWake _ _ _ => { g with s := t, received := g.received ++ [g.part p] }
  | _, _ => { g with s := t }

@[grind] def next (g : Traffic N) (a : Act N) : Option (Traffic N) :=
  (g.s.next a).map fun t =>
    match a with
    | .write p _ | .read p _ | .close p _ =>
      { g with s := t, part := update g.part p [] }
    | .step p copy => g.note p copy (g.s.pc p) (t.pc p) t
    | _ => { g with s := t }

def init (N : ℕ) (data : Fin pipesize → UInt8) : Traffic N :=
  ⟨State.init N data, fun _ => [], [], []⟩

end Traffic

/-- Writers write and readers read `k` bytes, from and to valid buffers, and nobody is killed. -/
@[grind] def Act.Sized (k : ℕ) : Act N → Prop
  | .write _ n | .read _ n => n = k
  | .step _ copy => copy.isSome = true
  | .kill _ => False
  | _ => True

variable {s t : State N} {p q : Fin N} {copy : Option UInt8}

theorem Moves.killed (h : Moves s p copy t) (q : Fin N) :
    (t.proc q).killed = (s.proc q).killed := by
  cases h with
  | writeSleep hpc | readSleep hpc =>
    by_cases hq : q = p
    · simp [hq]
    · simp [hq]
  | _ => simp

theorem Moves.alone (h : Moves s p copy t) (hs : s.Exclusive) (hq : q ≠ p) :
    (s.pc q).holds = false := by
  by_contra hh
  have hl := hs q (by simpa using hh)
  rcases h.control with ⟨hp, _⟩ | ⟨hp, _⟩ | ⟨_, hn, _⟩
  · exact hq (Option.some_inj.mp (hl.symm.trans (hs p hp)))
  · exact hq (Option.some_inj.mp (hl.symm.trans (hs p hp)))
  · rw [hn] at hl
    cases hl

namespace Traffic

@[grind cases] structure Whole (g : Traffic N) : Prop where
  stored : g.s.stored = g.sent.flatten
  delivered : g.s.delivered = g.received.flatten

@[grind] def At (k : ℕ) (g : Traffic N) (p : Fin N) : Pc → Prop
  | .idle => True
  | .writeTest n i => n = k ∧ i ≤ k ∧ (g.part p).length = i ∧
      g.s.stored = g.sent.flatten ++ g.part p ∧ g.s.delivered = g.received.flatten ∧
      (0 < i → g.s.pi.readopen = true)
  | .writeBody n i => n = k ∧ i < k ∧ (g.part p).length = i ∧
      g.s.stored = g.sent.flatten ++ g.part p ∧ g.s.delivered = g.received.flatten ∧
      g.s.pi.readopen = true
  | .fullWake n i _ | .writeSleep n i => n = k ∧ i = 0 ∧ g.part p = [] ∧ g.Whole
  | .writeAsleep n i => n = k ∧ i = 0 ∧ g.part p = []
  | .writeWake _ _ | .closeWake _ _ => g.Whole
  | .readTest n | .readSleep n => n = k ∧ g.part p = [] ∧ g.Whole
  | .readAsleep n => n = k ∧ g.part p = []
  | .readCopy n i => n = k ∧ i ≤ k ∧ (g.part p).length = i ∧ g.s.stored = g.sent.flatten ∧
      g.s.delivered = g.received.flatten ++ g.part p
  | .readWake _ i _ => g.Whole ∧ (g.part p).length = i ∧ g.part p ∈ g.received

@[grind cases] structure Sound (k : ℕ) (g : Traffic N) : Prop where
  fifo : g.s.Fifo
  alive : ∀ p, (g.s.proc p).killed = false
  sent : ∀ l ∈ g.sent, l.length = k
  received : ∀ l ∈ g.received, l.length = 0 ∨ l.length = k
  order : g.received.filter (· ≠ []) <+: g.sent
  free : g.s.lock = none → g.Whole
  point : ∀ p, g.At k p (g.s.pc p)

variable {g h : Traffic N} {c : Pc}

/-- Outside the critical section only the bytes of the own call matter. -/
theorem At.congr (hg : g.At k q c) (hc : c.holds = false) (hp : h.part q = g.part q) :
    h.At k q c := by
  cases c with
  | idle => trivial
  | writeAsleep n i => exact ⟨hg.1, hg.2.1, hp.trans hg.2.2⟩
  | readAsleep n => exact ⟨hg.1, hp.trans hg.2⟩
  | _ => cases hc

theorem Sound.full (hg : g.Sound k) (hk : k ∣ pipesize) (hf : g.s.pi.ring.Full) {i : ℕ} (hi : i < k)
    (hlen : (g.part p).length = i) (hst : g.s.stored = g.sent.flatten ++ g.part p)
    (hdel : g.s.delivered = g.received.flatten) : i = 0 := by
  rw [hg.fifo.ring.full_iff (by decide), hst, length_append, hlen, hdel] at hf
  have hs : k ∣ g.sent.flatten.length := dvd_length_flatten fun l hl => .inr (hg.sent l hl)
  have hr : k ∣ g.received.flatten.length := dvd_length_flatten hg.received
  have hdvd : k ∣ i := by
    rw [← Nat.dvd_add_right hs, hf]
    exact Nat.dvd_add hr hk
  exact Nat.eq_zero_of_dvd_of_lt hdvd hi

theorem Sound.empty (hg : g.Sound k) (he : g.s.pi.ring.Empty) {i : ℕ} (hi : i < k)
    (hlen : (g.part p).length = i) (hst : g.s.stored = g.sent.flatten)
    (hdel : g.s.delivered = g.received.flatten ++ g.part p) : i = 0 := by
  rw [hg.fifo.ring.empty_iff (by decide), hst, hdel, length_append, hlen] at he
  have hs : k ∣ g.sent.flatten.length := dvd_length_flatten fun l hl => .inr (hg.sent l hl)
  have hr : k ∣ g.received.flatten.length := dvd_length_flatten hg.received
  have hdvd : k ∣ i := by
    rw [← Nat.dvd_add_right hr, ← he]
    exact hs
  exact Nat.eq_zero_of_dvd_of_lt hdvd hi

@[grind cases] structure Kept (k : ℕ) (p : Fin N) (c : Pc) (h : Traffic N) : Prop where
  sent : ∀ l ∈ h.sent, l.length = k
  received : ∀ l ∈ h.received, l.length = 0 ∨ l.length = k
  order : h.received.filter (· ≠ []) <+: h.sent
  free : h.s.lock = none → h.Whole
  point : h.At k p c

theorem Sound.kept (hg : g.Sound k) (hs : h.sent = g.sent) (hr : h.received = g.received)
    (hfree : h.s.lock = none → h.Whole) (hpt : h.At k p c) : h.Kept k p c :=
  ⟨hs ▸ hg.sent, hr ▸ hg.received, by rw [hr, hs]; exact hg.order, hfree, hpt⟩

/-- The end of a call of `piperead`, with a whole message or nothing. -/
theorem Sound.readDone (hg : g.Sound k) (hk : 0 < k) {n : ℤ} {i j : ℕ}
    (hi : (g.part p).length = i) (hik : i = 0 ∨ i = k) (hst : g.s.stored = g.sent.flatten)
    (hdel : g.s.delivered = g.received.flatten ++ g.part p) (hs : t.stored = g.s.stored)
    (hd : t.delivered = g.s.delivered) (hl : t.lock = none → False) :
    Kept k p (.readWake n i j) { g with s := t, received := g.received ++ [g.part p] } := by
  have hrec : ∀ l ∈ g.received ++ [g.part p], l.length = 0 ∨ l.length = k := by grind
  have hflat : (g.received ++ [g.part p]).flatten = g.s.delivered := by
    rw [flatten_append, flatten_singleton, hdel]
  refine ⟨hg.sent, hrec, ?_, fun h0 => (hl h0).elim, ⟨hs.trans hst, ?_⟩, hi, ?_⟩
  · refine prefix_of_flatten hk (fun l hl => ?_) hg.sent ?_
    · grind
    · rw [flatten_filter_ne_nil, hflat, ← hst]
      exact hg.fifo.inOrder
  · exact hd.trans hflat.symm
  · exact mem_append_right _ (mem_singleton.mpr rfl)

theorem Sound.moves (hg : g.Sound k) (hk : k ∣ pipesize) (hm : Moves g.s p copy t)
    (hc : copy.isSome = true) : (g.note p copy (g.s.pc p) (t.pc p) t).Kept k p (t.pc p) := by
  have hpos : 0 < k := Nat.pos_of_dvd_of_pos hk (by decide)
  have hpt := hg.point p
  have hlock {q : Prop} (hh : (g.s.pc p).holds = true) (hl : g.s.lock = none) : q := by
    rw [hg.fifo.exclusive p hh] at hl
    cases hl
  cases hm with
  | writeEnd hpc hi =>
    rw [hpc] at hpt hlock
    obtain ⟨rfl, hik, hlen, hst, hdel, _⟩ := hpt
    obtain rfl : k = _ := by
      refine le_antisymm ?_ hik
      exact_mod_cast not_lt.mp hi
    simp only [note, hpc, State.setPc_pc, update_self]
    have hsent : g.s.stored = (g.sent ++ [g.part p]).flatten := by
      rw [flatten_append, flatten_singleton, hst]
    refine ⟨?_, hg.received, hg.order.trans (prefix_append _ _), hlock rfl, hsent, hdel⟩
    grind
  | writeGiveUp hpc hi hcl =>
    rw [hpc] at hpt
    obtain ⟨rfl, _, hlen, hst, hdel, hopen⟩ := hpt
    have hpart : g.part p = [] := by
      rw [← length_eq_zero_iff, hlen]
      grind
    simp only [note, hpc, State.leave_pc, update_self]
    refine hg.kept rfl rfl (fun _ => ⟨?_, hdel⟩) trivial
    rw [hpart, append_nil] at hst
    exact hst
  | writeGoOn hpc hi hr hkl =>
    rw [hpc] at hpt hlock
    obtain ⟨rfl, _, hlen, hst, hdel, _⟩ := hpt
    simp only [note, hpc, State.setPc_pc, update_self]
    exact hg.kept rfl rfl (hlock rfl) ⟨rfl, by exact_mod_cast hi, hlen, hst, hdel, hr⟩
  | full hpc hf =>
    rw [hpc] at hpt hlock
    obtain ⟨rfl, hi, hlen, hst, hdel, _⟩ := hpt
    have hi0 := hg.full hk hf hi hlen hst hdel
    have hpart : g.part p = [] := length_eq_zero_iff.mp (hlen.trans hi0)
    rw [hpart, append_nil] at hst
    simp only [note, hpc, State.setPc_pc, update_self]
    exact hg.kept rfl rfl (hlock rfl) ⟨rfl, hi0, hpart, hst, hdel⟩
  | copyinFails hpc hf | copyoutFails hpc hi he => cases hc
  | store ch hpc hf =>
    rw [hpc] at hpt hlock
    obtain ⟨rfl, hi, hlen, hst, hdel, hr⟩ := hpt
    simp only [note, hpc, State.setPc_pc, update_self]
    refine hg.kept rfl rfl (hlock rfl) ⟨rfl, hi, ?_, ?_, hdel, fun _ => hr⟩
    · simp [hlen]
    · simp [hst]
  | fullWake hpc hj | fullWoken hpc hj =>
    rw [hpc] at hpt hlock
    simp only [note, hpc, State.setPc_pc, update_self]
    exact hg.kept rfl rfl (hlock rfl)
      ⟨hpt.1, hpt.2.1, hpt.2.2.1, hpt.2.2.2.stored, hpt.2.2.2.delivered⟩
  | writeSleep hpc =>
    rw [hpc] at hpt
    simp only [note, hpc, State.setPc_pc, update_self]
    exact hg.kept rfl rfl (fun _ => ⟨hpt.2.2.2.stored, hpt.2.2.2.delivered⟩)
      ⟨hpt.1, hpt.2.1, hpt.2.2.1⟩
  | writeAgain hpc hl hf =>
    rw [hpc] at hpt
    obtain ⟨rfl, rfl, hpart⟩ := hpt
    have hw := hg.free hl
    simp only [note, hpc, State.setPc_pc, update_self]
    refine hg.kept rfl rfl (fun hl => (by cases hl)) ⟨rfl, Nat.zero_le _, ?_, ?_, hw.delivered,
      fun h0 => absurd h0 (lt_irrefl 0)⟩
    · rw [hpart]
      rfl
    · rw [hpart, append_nil]
      exact hw.stored
  | writeWake hpc hj | closeWake hpc hj =>
    rw [hpc] at hpt hlock
    simp only [note, hpc, State.setPc_pc, update_self]
    exact hg.kept rfl rfl (hlock rfl) ⟨hpt.stored, hpt.delivered⟩
  | writeReturn hpc hj | closeReturn hpc hj =>
    rw [hpc] at hpt
    simp only [note, hpc, State.leave_pc, update_self]
    exact hg.kept rfl rfl (fun _ => ⟨hpt.stored, hpt.delivered⟩) trivial
  | readGiveUp hpc he hw hkl =>
    rw [hg.alive p] at hkl
    cases hkl
  | readWait hpc he hw hkl =>
    rw [hpc] at hpt hlock
    simp only [note, hpc, State.setPc_pc, update_self]
    exact hg.kept rfl rfl (hlock rfl) ⟨hpt.1, hpt.2.1, hpt.2.2.stored, hpt.2.2.delivered⟩
  | readGoOn hpc hno =>
    rw [hpc] at hpt hlock
    obtain ⟨rfl, hpart, hw⟩ := hpt
    simp only [note, hpc, State.setPc_pc, update_self]
    refine hg.kept rfl rfl (hlock rfl) ⟨rfl, Nat.zero_le _, ?_, hw.stored, ?_⟩
    · rw [hpart]
      rfl
    · rw [hpart, append_nil]
      exact hw.delivered
  | readSleep hpc =>
    rw [hpc] at hpt
    simp only [note, hpc, State.setPc_pc, update_self]
    exact hg.kept rfl rfl (fun _ => ⟨hpt.2.2.stored, hpt.2.2.delivered⟩) ⟨hpt.1, hpt.2.1⟩
  | readAgain hpc hl hf =>
    rw [hpc] at hpt
    have hw := hg.free hl
    simp only [note, hpc, State.setPc_pc, update_self]
    exact hg.kept rfl rfl (fun hl => (by cases hl)) ⟨hpt.1, hpt.2, hw.stored, hw.delivered⟩
  | readEmpty hpc hi he =>
    rw [hpc] at hpt hlock
    obtain ⟨rfl, _, hlen, hst, hdel⟩ := hpt
    have hi0 := hg.empty he (by exact_mod_cast hi) hlen hst hdel
    simp only [note, hpc, State.setPc_pc, update_self]
    exact hg.readDone hpos hlen (.inl hi0) hst hdel rfl rfl (hlock rfl)
  | take ch hpc hi he =>
    rw [hpc] at hpt hlock
    obtain ⟨rfl, _, hlen, hst, hdel⟩ := hpt
    simp only [note, hpc, State.setPc_pc, update_self]
    refine hg.kept rfl rfl (hlock rfl) ⟨rfl, by exact_mod_cast hi, ?_, hst, ?_⟩
    · simp [hlen]
    · simp [hdel]
  | readEnd hpc hi =>
    rw [hpc] at hpt hlock
    obtain ⟨rfl, hik, hlen, hst, hdel⟩ := hpt
    have hk' := le_antisymm hik (by exact_mod_cast not_lt.mp hi)
    simp only [note, hpc, State.setPc_pc, update_self]
    exact hg.readDone hpos hlen (.inr hk') hst hdel rfl rfl (hlock rfl)
  | readWake hpc hj =>
    rw [hpc] at hpt hlock
    simp only [note, hpc, State.setPc_pc, update_self]
    exact hg.kept rfl rfl (hlock rfl) ⟨⟨hpt.1.stored, hpt.1.delivered⟩, hpt.2⟩
  | readReturn hpc hj =>
    rw [hpc] at hpt
    simp only [note, hpc, State.leave_pc, update_self]
    exact hg.kept rfl rfl (fun _ => ⟨hpt.1.stored, hpt.1.delivered⟩) trivial

theorem note_s (g : Traffic N) (c c' : Pc) : (g.note p copy c c' t).s = t := by
  unfold note
  split <;> rfl

theorem note_part (g : Traffic N) (c c' : Pc) (hq : q ≠ p) :
    (g.note p copy c c' t).part q = g.part q := by
  unfold note
  split <;> simp [hq]

theorem Sound.of_kept (hg : g.Sound k) (hfifo : h.s.Fifo)
    (halive : ∀ q, (h.s.proc q).killed = false) (hkept : h.Kept k p (h.s.pc p))
    (hothers : ∀ q ≠ p, (g.s.pc q).holds = false ∧ h.s.pc q = g.s.pc q ∧ h.part q = g.part q) :
    h.Sound k := by
  refine ⟨hfifo, halive, hkept.sent, hkept.received, hkept.order, hkept.free, fun q => ?_⟩
  by_cases hqp : q = p
  · rw [hqp]
    exact hkept.point
  · obtain ⟨hh, hpc, hpart⟩ := hothers q hqp
    rw [hpc]
    exact (hg.point q).congr hh hpart

theorem Sound.call (hg : g.Sound k) (hc : g.s.CanCall p) (hfifo : t.Fifo)
    (hproc : t.proc = g.s.proc) (hpc : t.pc = update g.s.pc p c)
    (hlock : t.lock = some p) (hst : t.stored = g.s.stored) (hdel : t.delivered = g.s.delivered)
    (hpt : Whole { g with s := t, part := update g.part p [] } →
      At k { g with s := t, part := update g.part p [] } p c) :
    Sound k { g with s := t, part := update g.part p [] } := by
  have hw := hg.free hc.2.2.1
  refine hg.of_kept hfifo (fun q => ?_) (hg.kept (p := p) rfl rfl (fun hl => ?_) ?_)
    fun q hq => ⟨?_, ?_, ?_⟩
  · change (t.proc q).killed = false
    rw [hproc]
    exact hg.alive q
  · grind
  · change At k _ p (t.pc p)
    rw [hpc, update_self]
    exact hpt ⟨hst.trans hw.stored, hdel.trans hw.delivered⟩
  · grind
  · change t.pc q = _
    rw [hpc, update_of_ne hq]
  · exact update_of_ne hq _ _

theorem Whole.setProc (hw : g.Whole) (x : Sched Chan) :
    Whole { g with s := g.s.setProc p x } := ⟨hw.stored, hw.delivered⟩

theorem At.setProc (hpt : g.At k q c) (x : Sched Chan) :
    At k { g with s := g.s.setProc p x } q c := by
  cases c with
  | fullWake n i j | writeSleep n i => exact ⟨hpt.1, hpt.2.1, hpt.2.2.1, hpt.2.2.2.setProc x⟩
  | writeWake i j | closeWake w j => exact Whole.setProc hpt x
  | readTest n | readSleep n => exact ⟨hpt.1, hpt.2.1, hpt.2.2.setProc x⟩
  | readWake n i j => exact ⟨hpt.1.setProc x, hpt.2⟩
  | _ => exact hpt

theorem Sound.setProc (hg : g.Sound k) {x : Sched Chan} (hfifo : (g.s.setProc p x).Fifo)
    (hx : x.killed = (g.s.proc p).killed) : Sound k { g with s := g.s.setProc p x } := by
  refine ⟨hfifo, fun q => ?_, hg.sent, hg.received, hg.order, fun hl => (hg.free hl).setProc x,
    fun q => (hg.point q).setProc x⟩
  have hq := hg.alive q
  obtain rfl | hqp := eq_or_ne q p
  · simpa [hx] using hq
  · simpa [hqp] using hq

theorem Sound.next (hg : g.Sound k) (hk : k ∣ pipesize) {a : Act N} (ha : a.Sized k)
    (hn : g.next a = some h) : h.Sound k := by
  obtain ⟨t, ht, rfl⟩ := Option.map_eq_some_iff.mp hn
  have hnext := next_of_eq ht
  have hvalid : a.Valid := by grind
  have hfifo := hg.fifo.next hvalid hnext
  cases hnext with
  | @write p n hc =>
    obtain rfl : n = k := ha
    exact hg.call hc hfifo rfl rfl rfl rfl rfl fun hw => ⟨rfl, Nat.zero_le _, by simp,
      by simpa using hw.stored, hw.delivered, fun h0 => absurd h0 (lt_irrefl 0)⟩
  | @read p n hc =>
    obtain rfl : n = k := ha
    exact hg.call hc hfifo rfl rfl rfl rfl rfl fun hw => ⟨rfl, by simp, hw⟩
  | @close p w hc => exact hg.call hc hfifo rfl rfl rfl rfl rfl fun hw => hw
  | @step p copy _ hr hm =>
    have hkept := hg.moves hk hm ha
    refine hg.of_kept (p := p) ?_ ?_ ?_ fun q hq => ⟨?_, ?_, note_part g _ _ hq⟩
    · rw [note_s]
      exact hfifo
    · intro q
      rw [note_s, hm.killed]
      exact hg.alive q
    · rw [note_s]
      exact hkept
    · exact hm.alone hg.fifo.exclusive hq
    · rw [note_s]
      exact hm.pc_other hq
  | kill => exact ha.elim
  | resume | yield => exact hg.setProc hfifo rfl

theorem sound_init (k : ℕ) (data : Fin pipesize → UInt8) : (init N data).Sound k where
  fifo := fifo_init data
  alive _ := rfl
  sent _ hl := absurd hl not_mem_nil
  received _ hl := absurd hl not_mem_nil
  order := nil_prefix
  free _ := ⟨rfl, rfl⟩
  point _ := trivial

theorem sound_run (hk : k ∣ pipesize) {data : Fin pipesize → UInt8} {acts : List (Act N)}
    (ha : ∀ a ∈ acts, a.Sized k) (hr : run next (init N data) acts = some g) : g.Sound k :=
  run_invariant_of_meets (fun _ _ _ hs hc hn => hs.next hk hc hn) (sound_init k data)
    (meets_of_forall ha _) hr

end Traffic

def Pc.reading : Pc → Bool
  | readTest _ | readSleep _ | readAsleep _ | readCopy _ _ | readWake _ _ _ => true
  | _ => false

/-- Whatever the interleaving, the calls of `piperead` deliver nothing or one whole message each, in
the order in which the messages were stored, and return the number of bytes delivered. -/
theorem messages_not_torn (hk : k ∣ pipesize) (data : Fin pipesize → UInt8) (acts : List (Act N))
    (ha : ∀ a ∈ acts, a.Sized k) {g : Traffic N}
    (hr : run Traffic.next (Traffic.init N data) acts = some g) :
    (∀ l ∈ g.sent, l.length = k) ∧ (∀ l ∈ g.received, l.length = 0 ∨ l.length = k) ∧
    g.received.filter (· ≠ []) <+: g.sent ∧
    (g.s.lock = none → g.s.stored = g.sent.flatten ∧ g.s.delivered = g.received.flatten) ∧
    ∀ p copy t, g.s.next (.step p copy) = some t → (g.s.pc p).reading = true → t.pc p = .idle →
      t.ret p = (g.part p).length ∧ g.part p ∈ g.received := by
  have hg := Traffic.sound_run hk ha hr
  refine ⟨hg.sent, hg.received, hg.order, fun hl => ⟨(hg.free hl).stored, (hg.free hl).delivered⟩,
    ?_⟩
  intro p copy t ht hread hidle
  have hpt := hg.point p
  cases next_of_eq ht with
  | step _ hm =>
    cases hm with
    | readReturn hpc hj =>
      rw [hpc] at hpt
      refine ⟨?_, hpt.2.2⟩
      rw [hpt.2.1]
      simp
    | readGiveUp hpc he hw hkl =>
      rw [hg.alive p] at hkl
      cases hkl
    | _ => simp_all [Pc.reading]

def sends (p : Fin 3) (a b : UInt8) : List (Act 3) :=
  [.write p 2, .step p (some 0), .step p (some a), .step p (some 0), .step p (some b)] ++
    replicate 5 (.step p (some 0))

/-- Process 2 sleeps on the empty pipe, and processes 0 and 1 write three messages. Then process 2
reads two of them. -/
def twoWriters : List (Act 3) :=
  [.resume 0, .resume 1, .resume 2, .read 2 2, .step 2 (some 0), .step 2 (some 0)] ++
    sends 0 7 9 ++ sends 1 4 5 ++ [.resume 2] ++ replicate 9 (.step 2 (some 0)) ++ sends 0 1 2 ++
    [.read 2 2] ++ replicate 8 (.step 2 (some 0))

theorem messages_not_torn_twoWriters :
    ∃ g ∈ run Traffic.next (Traffic.init 3 fun _ => 0) twoWriters,
      g.sent = [[7, 9], [4, 5], [1, 2]] ∧ g.received = [[7, 9], [4, 5]] ∧
      g.received.filter (· ≠ []) <+: g.sent := by
  have h : ∃ g ∈ run Traffic.next (Traffic.init 3 fun _ => 0) twoWriters,
      g.sent = [[7, 9], [4, 5], [1, 2]] ∧ g.received = [[7, 9], [4, 5]] := by decide +kernel
  obtain ⟨g, hr, hsent, hrec⟩ := h
  have ha : ∀ a ∈ twoWriters, a.Sized 2 := by simp [twoWriters, sends, Act.Sized]
  exact ⟨g, hr, hsent, hrec, (messages_not_torn (by decide) _ twoWriters ha hr).2.2.1⟩

end Xv6.Pipe
