import Xv6.Lib.Owned
import Xv6.Virtio.Desc

/-! The invariant of the driver. A chain that a process waits for is in the avail ring, in the
device or in the used ring, and the three together hold each of them once. -/
namespace Xv6.Virtio
open Function Ownership RingBuffer List
variable {P B : Type} {s t : State P B} {pend done : List ℕ} {p q : P} {i : ℕ}

@[grind] def Stage.Submitted : Stage → Prop
  | .check | .sleep => True
  | _ => False

variable {f : B → Bool} {x : Pos B}

namespace Pos

def idx : Pos B → List ℕ
  | .owns _ _ idx => idx
  | _ => []

def waits (bufDisk : B → Bool) : Pos B → Option ℕ
  | .owns .check r (i :: _) | .owns .sleep r (i :: _) => if bufDisk r.b then some i else none
  | _ => none

theorem waits_eq_some (h : x.waits f = some i) :
    ∃ st r l, x = .owns st r (i :: l) ∧ st.Submitted ∧ f r.b = true := by
  unfold waits at h
  grind

theorem mem_idx_of_waits (h : x.waits f = some i) : i ∈ x.idx := by
  obtain ⟨st, r, l, rfl, -, -⟩ := waits_eq_some h
  exact mem_cons_self

end Pos

@[grind] def ProcOk (s : State P B) (p : P) : Pos B → Prop
  | .idle => s.lock ≠ some (.proc p)
  | .alloc r => s.lock = some (.proc p) ∧ s.holder r.b = some p
  | .allocSleep r => s.lock ≠ some (.proc p) ∧ s.holder r.b = some p
  | .owns st r idx =>
    (s.lock = some (.proc p) ↔ st ≠ .sleep) ∧ s.holder r.b = some p ∧ idx.length = 3 ∧
      (st ≠ .format → s.disk.Formatted r idx) ∧
      (st = .publish → s.bufDisk r.b = true ∧
        idx.head? = some (s.disk.avail.data (cell s.disk.avail.tail))) ∧
      (st.Submitted → s.bufDisk r.b = false → ∀ i, idx.head? = some i → s.completed i = true)

/-- The heads in `l` are those for which the processes wait. -/
@[grind cases] structure Heads (l : List ℕ) (waits : P → Option ℕ) : Prop where
  nodup : l.Nodup
  mem_iff : ∀ i, i ∈ l ↔ ∃ p, waits p = some i

theorem Heads.perm {l l' : List ℕ} {w : P → Option ℕ} (h : Heads l w) (hp : l'.Perm l) :
    Heads l' w :=
  ⟨hp.nodup_iff.mpr h.nodup, fun i => hp.mem_iff.trans (h.mem_iff i)⟩

@[grind cases] structure Inv (s : State P B) (pend done : List ℕ) : Prop where
  calm : s.panic = none
  proc : ∀ p, ProcOk s p (s.pos p)
  held : Held (fun i => i < num ∧ s.disk.free i = false) fun p => (s.pos p).idx
  avail : s.disk.avail.Holds pend
  used : s.disk.used.Holds done
  heads : Heads (pend ++ s.work ++ done) fun p => (s.pos p).waits s.bufDisk
  status : ∀ i ∈ done, (s.disk.info i).status = 0
  completed : ∀ i ∈ done, s.completed i = true

theorem ProcOk.frame (h : ProcOk s q x) (hlock : t.lock = some (.proc q) ↔ s.lock = some (.proc q))
    (hholder : ∀ b, s.holder b = some q → t.holder b = some q ∧ t.bufDisk b = s.bufDisk b)
    (hfmt : ∀ r, s.disk.Formatted r x.idx → t.disk.Formatted r x.idx)
    (havail : s.lock = some (.proc q) →
      t.disk.avail.data (cell t.disk.avail.tail) = s.disk.avail.data (cell s.disk.avail.tail))
    (hcomp : ∀ i ∈ x.idx, s.completed i = true → t.completed i = true) : ProcOk t q x := by
  cases x with
  | idle => exact fun hl => h (hlock.mp hl)
  | alloc r => exact ⟨hlock.mpr h.1, (hholder _ h.2).1⟩
  | allocSleep r => exact ⟨fun hl => h.1 (hlock.mp hl), (hholder _ h.2).1⟩
  | owns st r idx =>
    obtain ⟨hl, hh, h3, hf, hp, hc⟩ := h
    obtain ⟨hh', hb⟩ := hholder _ hh
    refine ⟨hlock.trans hl, hh', h3, fun hst => hfmt r (hf hst), fun hst => ?_,
      fun hst hbf i hi => ?_⟩
    · grind
    · exact hcomp i (List.mem_of_mem_head? hi) (hc hst (hb ▸ hbf) i hi)

theorem ProcOk.waits_congr (h : ProcOk s q x)
    (hf : ∀ b, s.holder b = some q → f b = s.bufDisk b) : x.waits f = x.waits s.bufDisk := by
  cases x with
  | owns st r l =>
    cases l with
    | nil => cases st <;> rfl
    | cons i l => cases st <;> simp [Pos.waits, hf _ h.2.1]
  | _ => rfl

namespace Inv
variable (h : Inv s pend done)
include h

theorem mem_lt (hi : i ∈ pend ++ s.work ++ done) : i < num := by
  obtain ⟨p, hp⟩ := (h.heads.mem_iff i).mp hi
  exact (h.held.live_of_mem p i (Pos.mem_idx_of_waits hp)).1

theorem not_mem (hi : i ∈ (s.pos p).idx)
    (hw : (s.pos p).waits s.bufDisk = none) : i ∉ pend ++ s.work ++ done := by
  intro hm
  obtain ⟨q, hq⟩ := (h.heads.mem_iff i).mp hm
  obtain rfl := h.held.disjoint p q i hi (Pos.mem_idx_of_waits hq)
  rw [hw] at hq
  cases hq

theorem length_le : (pend ++ s.work ++ done).length ≤ num := by
  have hsub : (pend ++ s.work ++ done) ⊆ List.range num :=
    fun i hi => mem_range.mpr (h.mem_lt hi)
  have := (subperm_of_subset h.heads.nodup hsub).length_le
  rwa [length_range] at this

/-- A process that has descriptors and does not wait leaves room in the rings. -/
theorem length_lt (hi : i ∈ (s.pos p).idx)
    (hw : (s.pos p).waits s.bufDisk = none) : (pend ++ s.work ++ done).length < num := by
  have hn : (i :: (pend ++ s.work ++ done)).Nodup := nodup_cons.mpr ⟨h.not_mem hi hw, h.heads.nodup⟩
  have hsub : (i :: (pend ++ s.work ++ done)) ⊆ List.range num := by
    intro x hx
    rw [mem_range]
    rcases mem_cons.mp hx with rfl | hx
    · exact (h.held.live_of_mem p x hi).1
    · exact h.mem_lt hx
  have := (subperm_of_subset hn hsub).length_le
  rw [length_range, length_cons] at this
  omega

theorem pend_lt (hi : i ∈ (s.pos p).idx)
    (hw : (s.pos p).waits s.bufDisk = none) : pend.length < num := by
  have := h.length_lt hi hw
  simp only [length_append] at this
  omega

theorem waiting (hi : i ∈ pend ++ s.work ++ done) :
    ∃ p st r l, s.pos p = .owns st r (i :: l) ∧ st.Submitted ∧ s.bufDisk r.b = true ∧
      s.disk.Formatted r (i :: l) := by
  obtain ⟨p, hp⟩ := (h.heads.mem_iff i).mp hi
  obtain ⟨st, r, l, hx, hst, hb⟩ := Pos.waits_eq_some hp
  grind

theorem quiet (hpanic : t.panic = s.panic) (hbuf : t.bufDisk = s.bufDisk)
    (hwork : t.work = s.work) (hcomp : t.completed = s.completed)
    (havail : t.disk.avail = s.disk.avail) (hused : t.disk.used = s.disk.used)
    (hinfo : t.disk.info = s.disk.info) (hfree : t.disk.free = s.disk.free)
    (hidx : ∀ q, (t.pos q).idx = (s.pos q).idx)
    (hwaits : ∀ q, (t.pos q).waits s.bufDisk = (s.pos q).waits s.bufDisk)
    (hproc : ∀ q, ProcOk t q (t.pos q)) : Inv t pend done where
  calm := hpanic.trans h.calm
  proc := hproc
  held := by
    simp only [hfree, hidx]
    exact h.held
  avail := havail ▸ h.avail
  used := hused ▸ h.used
  heads := by
    simp only [hwork, hbuf, hwaits]
    exact h.heads
  status := by
    rw [hinfo]
    exact h.status
  completed := by
    rw [hcomp]
    exact h.completed

end Inv

section Update
variable [DecidableEq P]

theorem proc_update (h : ∀ q, ProcOk s q (s.pos q)) (hpos : t.pos = update s.pos p x)
    (hself : ProcOk t p x) (hother : ∀ q ≠ p, ProcOk s q (s.pos q) → ProcOk t q (s.pos q)) (q) :
    ProcOk t q (t.pos q) := by
  rw [hpos]
  grind

theorem pos_update {β : Type} {pos : P → Pos B} (g : Pos B → β) (hx : g x = g (pos p))
    (q : P) : g (update pos p x q) = g (pos q) := by grind

end Update
end Xv6.Virtio
