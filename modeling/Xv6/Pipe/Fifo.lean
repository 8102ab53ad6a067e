import Xv6.Pipe.Steps

/-! A pipe delivers the bytes stored in it, in order and once, however often its counters wrap. -/
namespace Xv6.Pipe
open Transition
variable {N : ℕ} {s t : State N} {p : Fin N} {copy : Option UInt8} {a : Act N}

/-- A step stores a byte in a pipe that is not full, takes one from a pipe that is not empty, or
leaves the bytes alone. -/
theorem Moves.data (h : Moves s p copy t) :
    (t.pi = s.pi ∧ t.stored = s.stored ∧ t.delivered = s.delivered) ∨
    (∃ ch, ¬ s.pi.ring.Full ∧ t.pi.ring = s.pi.ring.push ch ∧ t.stored = s.stored ++ [ch] ∧
      t.delivered = s.delivered) ∨
    (¬ s.pi.ring.Empty ∧ t.pi.ring = s.pi.ring.pop ∧ t.stored = s.stored ∧
      t.delivered = s.delivered ++ if copy.isSome then [s.pi.ring.front] else []) := by
  cases h with
  | store ch _ hf => exact .inr (.inl ⟨ch, hf, rfl, rfl, rfl⟩)
  | take ch _ _ he | copyoutFails _ _ he => exact .inr (.inr ⟨he, rfl, rfl, rfl⟩)
  | _ => exact .inl ⟨rfl, rfl, rfl⟩

/-- While a process has the lock, only its own steps change the pipe or move it. -/
theorem Next.frozen (h : Next s a t) (hs : s.Exclusive) {q : Fin N} (hq : (s.pc q).holds = true)
    (ha : ∀ copy, a ≠ .step q copy) : t.pi = s.pi ∧ t.pc q = s.pc q := by
  have hlock := hs q hq
  cases h with
  | write hc | read hc | close hc => cases hlock.symm.trans hc.2.2.1
  | @step p copy _ _ hm =>
    have hpq : p ≠ q := by
      rintro rfl
      exact ha copy rfl
    rcases hm.control with ⟨hp, _⟩ | ⟨hp, _⟩ | ⟨_, hl, _⟩
    · grind
    · grind
    · cases hlock.symm.trans hl
  | kill | resume | yield => exact ⟨rfl, rfl⟩

/-- The buffers of the callers are valid: no copy fails. -/
@[grind] def Act.Valid : Act N → Prop
  | step _ copy => copy.isSome = true
  | _ => True

instance (a : Act N) : Decidable a.Valid := by
  cases a <;> unfold Act.Valid <;> infer_instance

@[grind cases] structure State.Fifo (s : State N) : Prop where
  exclusive : s.Exclusive
  ring : s.pi.ring.Tracks s.stored s.delivered.length
  inOrder : s.delivered <+: s.stored
  /-- A reader goes on with an empty pipe only when the write end is closed. -/
  copying : ∀ p n, s.pc p = .readCopy n 0 → s.pi.ring.Empty → s.pi.writeopen = false
  nothing : ∀ p n k, s.pc p = .readWake n 0 k → 0 < n → s.pi.ring.Empty ∧ s.pi.writeopen = false

theorem fifo_init (data : Fin pipesize → UInt8) : (State.init N data).Fifo where
  exclusive := exclusive_init data
  ring := .init data
  inOrder := List.prefix_rfl
  copying := by simp [State.init]
  nothing := by simp [State.init]

theorem State.Fifo.moves (hs : s.Fifo) (h : Moves s p copy t) (hc : copy.isSome = true) :
    t.pi.ring.Tracks t.stored t.delivered.length ∧ t.delivered <+: t.stored := by
  rcases h.data with ⟨h1, h2, h3⟩ | ⟨ch, hf, h1, h2, h3⟩ | ⟨he, h1, h2, h3⟩
  · rw [h1, h2, h3]
    exact ⟨hs.ring, hs.inOrder⟩
  · rw [h1, h2, h3]
    exact ⟨hs.ring.push (by decide) (by decide) hf ch, hs.inOrder.trans (List.prefix_append _ _)⟩
  · have hlt : s.delivered.length < s.stored.length := by
      have hle := hs.ring.le
      rw [hs.ring.empty_iff (by decide)] at he
      omega
    rw [h1, h2, h3, hc, if_pos rfl]
    refine ⟨?_, ?_⟩
    · rw [List.length_append, List.length_singleton]
      exact hs.ring.pop (by decide) he
    · obtain ⟨rest, hrest⟩ := hs.inOrder
      cases rest with
      | nil =>
        rw [← hrest] at hlt
        simp at hlt
      | cons x rest =>
        have hx : s.stored[s.delivered.length]? = some x := by
          rw [← hrest]
          simp
        rw [List.getElem?_eq_getElem hlt, Option.some_inj] at hx
        rw [hs.ring.front (by decide) hlt, List.get_eq_getElem, hx]
        exact ⟨rest, by simp [← hrest]⟩

theorem State.Fifo.reader (hs : s.Fifo) (h : Moves s p copy t) (hc : copy.isSome = true) :
    (∀ n, t.pc p = .readCopy n 0 → t.pi.ring.Empty → t.pi.writeopen = false) ∧
    (∀ n k, t.pc p = .readWake n 0 k → 0 < n → t.pi.ring.Empty ∧ t.pi.writeopen = false) := by
  cases h with
  | readGoOn hpc hno =>
    refine ⟨fun n _ he => ?_, fun n k hk => by simp at hk⟩
    simpa using fun hw => hno ⟨he, hw⟩
  | @readEmpty _ n i hpc hi he =>
    refine ⟨fun n hn => by simp at hn, fun m k hk _ => ⟨he, ?_⟩⟩
    obtain ⟨rfl, rfl, _⟩ : n = m ∧ i = 0 ∧ 0 = k := by simpa using hk
    exact hs.copying p n hpc he
  | @readEnd _ n i hpc hi =>
    refine ⟨fun n hn => by simp at hn, fun m k hk hm => ?_⟩
    obtain ⟨rfl, rfl, _⟩ : n = m ∧ i = 0 ∧ 0 = k := by simpa using hk
    exact absurd hm hi
  | @readWake _ n i k hpc hk =>
    refine ⟨fun n hn => by simp at hn, fun m l hl hm => ?_⟩
    obtain ⟨rfl, rfl, _⟩ : n = m ∧ i = 0 ∧ k + 1 = l := by simpa using hl
    exact hs.nothing p n k hpc hm
  | copyoutFails => cases hc
  | _ => exact ⟨fun n hn => by simp at hn, fun n k hk => by simp at hk⟩

theorem State.Fifo.next (hs : s.Fifo) (ha : a.Valid) (h : Next s a t) : t.Fifo := by
  have hring : t.pi.ring.Tracks t.stored t.delivered.length ∧ t.delivered <+: t.stored := by
    cases h with
    | step _ hm => exact hs.moves hm ha
    | _ => exact ⟨hs.ring, hs.inOrder⟩
  -- A reader past its test either made the step itself or was there before.
  have hreader q : (∀ n, t.pc q = .readCopy n 0 → t.pi.ring.Empty → t.pi.writeopen = false) ∧
      ∀ n k, t.pc q = .readWake n 0 k → 0 < n → t.pi.ring.Empty ∧ t.pi.writeopen = false := by
    by_cases hq : ∃ copy, a = .step q copy
    · obtain ⟨copy, rfl⟩ := hq
      cases h with
      | step _ hm => exact hs.reader hm ha
    have hne : ∀ copy, a ≠ .step q copy := fun copy hc => hq ⟨copy, hc⟩
    rcases h.pc_other hne with hpc | ⟨n, hpc⟩ | ⟨n, hpc⟩ | ⟨w, hpc⟩
    · refine ⟨fun n hn he => ?_, fun n k hk hn => ?_⟩
      · rw [hpc] at hn
        obtain ⟨hpi, _⟩ := h.frozen hs.exclusive (q := q) (by rw [hn]; rfl) hne
        rw [hpi] at he ⊢
        exact hs.copying q n hn he
      · rw [hpc] at hk
        obtain ⟨hpi, _⟩ := h.frozen hs.exclusive (q := q) (by rw [hk]; rfl) hne
        rw [hpi]
        exact hs.nothing q n k hk hn
    all_goals
      refine ⟨fun n hn => ?_, fun n k hk => ?_⟩
      · rw [hpc] at hn
        cases hn
      · rw [hpc] at hk
        cases hk
  exact ⟨h.exclusive hs.exclusive, hring.1, hring.2, fun q => (hreader q).1, fun q => (hreader q).2⟩

theorem fifo_run {data : Fin pipesize → UInt8} {acts : List (Act N)} (ha : ∀ a ∈ acts, a.Valid)
    (hr : run State.next (State.init N data) acts = some s) : s.Fifo := by
  exact run_invariant_of_meets (fun s a t hs hc ht => hs.next hc (next_of_eq ht)) (fifo_init data)
    (meets_of_forall ha _) hr

/-- Whatever processes read, write and close, the pipe holds at most `PIPESIZE` bytes, the bytes
delivered are the first ones stored, and a read returns nothing only at the end of the data. -/
theorem pipe_fifo (data : Fin pipesize → UInt8) (acts : List (Act N)) (ha : ∀ a ∈ acts, a.Valid)
    (hr : run State.next (State.init N data) acts = some s) :
    (s.pi.ring.tail - s.pi.ring.head).toNat ≤ pipesize ∧ s.delivered <+: s.stored ∧
      ∀ p copy t n i k, s.next (.step p copy) = some t → s.pc p = .readWake n i k →
        t.pc p = .idle → t.ret p = 0 → 0 < n → t.pi.ring.Empty ∧ t.pi.writeopen = false := by
  have hs := fifo_run ha hr
  refine ⟨?_, hs.inOrder, ?_⟩
  · have hb := hs.ring.bound
    rw [hs.ring.toNat_sub (by decide)]
    omega
  · intro p copy t n i k ht hpc hidle hret hn
    cases next_of_eq ht with
    | step _ hm =>
      cases hm with
      | readReturn hpc' hk =>
        rw [hpc'] at hpc
        cases hpc
        obtain rfl : i = 0 := by simpa using hret
        exact hs.nothing p n k hpc' hn
      | _ => simp_all

def writeThenRead : List (Act 2) :=
  [.resume 0, .resume 1, .write 0 2, .step 0 (some 0), .step 0 (some 7), .step 0 (some 0),
    .step 0 (some 9), .step 0 (some 0), .step 0 (some 0), .step 0 (some 0), .step 0 (some 0),
    .read 1 1, .step 1 (some 0), .step 1 (some 0), .step 1 (some 0)]

theorem pipe_fifo_write_then_read : ∃ s ∈ run State.next (State.init 2 fun _ => 0) writeThenRead,
    s.stored = [7, 9] ∧ s.delivered = [7] ∧ s.delivered <+: s.stored := by
  have h : ∃ s ∈ run State.next (State.init 2 fun _ => 0) writeThenRead,
      s.stored = [7, 9] ∧ s.delivered = [7] := by decide +kernel
  obtain ⟨s, hr, hstored, hdelivered⟩ := h
  exact ⟨s, hr, hstored, hdelivered, (pipe_fifo _ writeThenRead (by decide) hr).2.1⟩

end Xv6.Pipe
