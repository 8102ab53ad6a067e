import Xv6.Bio.Cache
import Xv6.Lib.Counting
import Xv6.Lib.Transition

/-! The invariant of the buffer cache: reference counts count the holders, the waiting processes
and the pin of the log, no block is cached twice, and what is neither pinned nor being modified
agrees with the disk. Every critical section keeps it. -/
namespace Xv6.Bio
open Function Counting Finset Buf
variable {P : Type} {b : Buf P} {p : P} {i j : Fin nbuf}

attribute [grind] Cache.put Cache.setData Cache.bwrite Cache.logWrite Cache.bunpin Buf.incref
  Buf.decref Buf.setLock Buf.setData Buf.recycle Buf.fill

namespace Buf

@[grind] def holds (b : Buf P) : ℕ := if b.lock.isSome then 1 else 0

@[grind] def pins (pinned : Finset ℕ) (b : Buf P) : ℕ :=
  if b.dev = rootdev ∧ b.blockno ∈ pinned then 1 else 0

@[simp] theorem holds_incref (b : Buf P) : b.incref.holds = b.holds := rfl
@[simp] theorem holds_decref (b : Buf P) : b.decref.holds = b.holds := rfl
@[simp] theorem holds_fill (b : Buf P) (d : Disk) : (b.fill d).holds = b.holds := rfl
@[simp] theorem holds_setLock_none (b : Buf P) : (b.setLock none).holds = 0 := rfl
@[simp] theorem holds_setLock_some (b : Buf P) (p : P) : (b.setLock (some p)).holds = 1 := rfl

variable {pinned : Finset ℕ}

@[simp] theorem pins_incref (b : Buf P) : b.incref.pins pinned = b.pins pinned := rfl
@[simp] theorem pins_decref (b : Buf P) : b.decref.pins pinned = b.pins pinned := rfl
@[simp] theorem pins_fill (b : Buf P) (d : Disk) : (b.fill d).pins pinned = b.pins pinned := rfl
@[simp] theorem pins_setLock (b : Buf P) (o : Option P) :
    (b.setLock o).pins pinned = b.pins pinned := rfl

theorem holds_of_lock (h : b.lock = some p) : b.holds = 1 := by
  simp [holds, h]

theorem holds_of_unlocked (h : b.lock = none) : b.holds = 0 := by simp [holds, h]

end Buf

/-- The reference that a process between its two halves of `bget` or `brelse` has on `i`. -/
@[grind] def Io.waits (i : Fin nbuf) : Io → ℕ
  | .acquire j | .deref j => if j = i then 1 else 0
  | _ => 0

@[simp] theorem waits_idle (i : Fin nbuf) : Io.waits i .idle = 0 := rfl
@[simp] theorem waits_fill (i j : Fin nbuf) : Io.waits i (.fill j) = 0 := rfl
@[simp] theorem waits_acquire (i : Fin nbuf) : Io.waits i (.acquire i) = 1 := if_pos rfl
@[simp] theorem waits_deref (i : Fin nbuf) : Io.waits i (.deref i) = 1 := if_pos rfl

private theorem waits_acquire_ne (h : j ≠ i) : Io.waits j (.acquire i) = 0 :=
  if_neg (Ne.symm h)

private theorem waits_deref_ne (h : j ≠ i) : Io.waits j (.deref i) = 0 :=
  if_neg (Ne.symm h)

@[grind] def Cache.Is (c : Cache P) (i : Fin nbuf) (b : ℕ) : Prop :=
  (c.buf i).dev = rootdev ∧ (c.buf i).blockno = b

/-- The two caches differ only in contents and reference counts. -/
@[grind cases] structure Cache.SameShape (c c' : Cache P) : Prop where
  lru : c'.lru = c.lru
  io : c'.io = c.io
  dev : ∀ i, (c'.buf i).dev = (c.buf i).dev
  blockno : ∀ i, (c'.buf i).blockno = (c.buf i).blockno
  lock : ∀ i, (c'.buf i).lock = (c.buf i).lock
  valid : ∀ i, (c'.buf i).valid = (c.buf i).valid

namespace Cache

theorem SameShape.is_iff {c c' : Cache P} (h : c.SameShape c') (i : Fin nbuf) (b : ℕ) :
    c'.Is i b ↔ c.Is i b := by
  unfold Is
  rw [h.dev, h.blockno]

/-- Changing data and reference count of one buffer keeps the shape. -/
private theorem sameShape_update {c c' : Cache P} (hb : c'.buf = update c.buf i b)
    (hl : c'.lru = c.lru) (hio : c'.io = c.io) (hd : b.dev = (c.buf i).dev)
    (hn : b.blockno = (c.buf i).blockno) (hk : b.lock = (c.buf i).lock)
    (hv : b.valid = (c.buf i).valid) : c.SameShape c' := by
  refine ⟨hl, hio, ?_, ?_, ?_, ?_⟩ <;> intro j <;> rw [hb] <;> grind

theorem sameShape_setData (c : Cache P) (i : Fin nbuf) (v : Block) :
    c.SameShape (c.setData i v) := sameShape_update rfl rfl rfl rfl rfl rfl rfl

theorem sameShape_bwrite (c : Cache P) (i : Fin nbuf) : c.SameShape (c.bwrite i) :=
  ⟨rfl, rfl, fun _ => rfl, fun _ => rfl, fun _ => rfl, fun _ => rfl⟩

theorem sameShape_bunpin (c : Cache P) (i : Fin nbuf) : c.SameShape (c.bunpin i) :=
  sameShape_update rfl rfl rfl rfl rfl rfl rfl

theorem sameShape_logWrite (c : Cache P) (i : Fin nbuf) (added : Bool) :
    c.SameShape (c.logWrite i added) := by
  cases added with
  | true => exact sameShape_update rfl rfl rfl rfl rfl rfl rfl
  | false => exact ⟨rfl, rfl, fun _ => rfl, fun _ => rfl, fun _ => rfl, fun _ => rfl⟩

end Cache

/-- A cache that no process uses and that agrees with the disk `d`: so `binit` leaves it, and so
does the recovery of `initlog`, which writes every buffer that it modifies. -/
structure Cache.Quiet (c : Cache P) (d : Disk) : Prop where
  listed : ∀ i, i ∈ c.lru
  unique : ∀ i j b, c.Is i b → c.Is j b → i = j
  free : ∀ i, (c.buf i).refcnt = 0 ∧ (c.buf i).lock = none
  valid : ∀ i, (c.buf i).valid = true →
    (c.buf i).dev = rootdev ∧ (c.buf i).data = d (c.buf i).blockno
  idle : ∀ p, c.io p = .idle
  disk : c.disk = d
  view : c.view = d
  clean : ∀ i, c.dirty i = false
  pinned : c.pinned = ∅

theorem Cache.quiet_binit (d : Disk) : (Cache.binit d : Cache P).Quiet d where
  listed i := by simp [Cache.binit]
  unique i j b hi := by simp [Cache.Is, Cache.binit, rootdev] at hi
  free _ := ⟨rfl, rfl⟩
  valid i hv := by simp [Cache.binit] at hv
  idle _ := rfl
  disk := rfl
  view := rfl
  clean _ := rfl
  pinned := rfl

@[grind cases] structure CacheInv [Fintype P] (c : Cache P) : Prop where
  listed : ∀ i, i ∈ c.lru
  unique : ∀ i j b, c.Is i b → c.Is j b → i = j
  unused : ∀ i, (c.buf i).dev ≠ rootdev → (c.buf i).refcnt = 0 ∧ (c.buf i).valid = false
  refs : ∀ i, (c.buf i).refcnt = (c.buf i).holds + total (Io.waits i) c.io + (c.buf i).pins c.pinned
  filling : ∀ p i, c.io p = .fill i → (c.buf i).lock = some p
  filled : ∀ p i, (c.buf i).lock = some p → c.io p ≠ .fill i → (c.buf i).valid = true
  dirty : ∀ i, c.dirty i = true → (c.buf i).lock.isSome ∧ (c.buf i).valid = true
  clean : ∀ p i, c.io p = .fill i → c.dirty i = false
  data : ∀ i, (c.buf i).valid = true → c.dirty i = false → (c.buf i).data = c.view (c.buf i).blockno
  disk : ∀ b, b ∉ c.pinned → c.disk b = c.view b
  cached : ∀ b ∈ c.pinned, ∃ i, c.Is i b ∧ (c.buf i).valid = true

namespace CacheInv
variable [Fintype P] {c c' : Cache P}

section
variable (h : CacheInv c)
include h

theorem refcnt_pos_of_lock (hl : (c.buf i).lock = some p) : 0 < (c.buf i).refcnt := by
  have hr := h.refs i
  have hh := holds_of_lock hl
  omega

theorem refcnt_pos_of_waits (hw : Io.waits i (c.io p) = 1) : 0 < (c.buf i).refcnt := by
  have hr := h.refs i
  have ht := le_total (Io.waits i) c.io p
  omega

theorem dev_of_refcnt (hr : 0 < (c.buf i).refcnt) : (c.buf i).dev = rootdev := by
  by_contra hd
  have hz := (h.unused i hd).1
  omega

theorem dev_of_valid (hv : (c.buf i).valid = true) : (c.buf i).dev = rootdev := by
  by_contra hd
  simp [(h.unused i hd).2] at hv

/-- A buffer without references is unlocked, clean and not pinned. -/
theorem unreferenced (hz : (c.buf i).refcnt = 0) :
    (c.buf i).lock = none ∧ c.dirty i = false ∧ total (Io.waits i) c.io = 0 ∧
      ((c.buf i).dev = rootdev → (c.buf i).blockno ∉ c.pinned) := by
  have hr := h.refs i
  have hl : (c.buf i).lock = none := by
    cases hc : (c.buf i).lock with
    | none => rfl
    | some p =>
      have := h.refcnt_pos_of_lock hc
      omega
  grind

/-- The contents of a buffer that `bget` may recycle are those of the disk. -/
theorem recyclable_eq_disk (hz : (c.buf i).refcnt = 0)
    (hv : (c.buf i).valid = true) : (c.buf i).data = c.disk (c.buf i).blockno := by grind

theorem valid_of_pinned {b : ℕ} (hi : c.Is i b) (hb : b ∈ c.pinned) : (c.buf i).valid = true := by
  grind

end

omit [Fintype P] in
theorem findCached_eq_some {dev b : ℕ} (h : c.findCached dev b = some i) :
    (c.buf i).dev = dev ∧ (c.buf i).blockno = b := by
  simpa using List.find?_some h

theorem findCached_eq_none (h : CacheInv c) {b : ℕ} (hn : c.findCached rootdev b = none)
    (i : Fin nbuf) : ¬ c.Is i b := by
  have := List.find?_eq_none.mp hn i (h.listed i)
  simpa [Cache.Is] using this

omit [Fintype P] in
theorem findUnused_eq_some (h : c.findUnused = some i) : (c.buf i).refcnt = 0 := by
  simpa using List.find?_some h

theorem of_quiet {d : Disk} (h : c.Quiet d) : CacheInv c where
  listed := h.listed
  unique := h.unique
  unused i hi := by
    refine ⟨(h.free i).1, ?_⟩
    by_contra hv
    exact hi (h.valid i (by simpa using hv)).1
  refs i := by
    have ht : total (Io.waits i) c.io = 0 := total_eq_zero.mpr fun p => by rw [h.idle, waits_idle]
    have hp : (c.buf i).pins c.pinned = 0 := if_neg fun hc => by simp [h.pinned] at hc
    rw [(h.free i).1, ht, hp, holds_of_unlocked (h.free i).2]
  filling p i hp := by simp [h.idle] at hp
  filled p i hl := by simp [h.free] at hl
  dirty i hd := by simp [h.clean] at hd
  clean p i hp := by simp [h.idle] at hp
  data i hv _ := by rw [(h.valid i hv).2, h.view]
  disk b _ := by rw [h.disk, h.view]
  cached b hb := by simp [h.pinned] at hb

section Put
variable [DecidableEq P]
variable (h : CacheInv c)
include h

theorem put_refs {v : Io} (hother : ∀ j ≠ i, Io.waits j v = Io.waits j (c.io p))
    (hself : b.refcnt + (c.buf i).holds + Io.waits i (c.io p) + (c.buf i).pins c.pinned =
      (c.buf i).refcnt + b.holds + Io.waits i v + b.pins c.pinned) (j : Fin nbuf) :
    ((c.put i b p v).buf j).refcnt = ((c.put i b p v).buf j).holds +
      total (Io.waits j) (c.put i b p v).io + ((c.put i b p v).buf j).pins c.pinned := by
  have hr := h.refs j
  have ht := total_update (Io.waits j) c.io p v
  obtain rfl | hj := eq_or_ne j i
  · simp only [Cache.put, update_self]
    omega
  · have hw := hother j hj
    simp only [Cache.put, update_of_ne hj]
    omega

theorem put {v : Io} (hp : ∀ j, c.io p = .fill j → j = i)
    (hother : ∀ j ≠ i, Io.waits j v = Io.waits j (c.io p))
    (hself : b.refcnt + (c.buf i).holds + Io.waits i (c.io p) + (c.buf i).pins c.pinned =
      (c.buf i).refcnt + b.holds + Io.waits i v + b.pins c.pinned)
    (huniq : ∀ j, c.Is j b.blockno → j = i) (hdev : b.dev = rootdev)
    (hfill : ∀ j, v = .fill j → j = i ∧ b.lock = some p ∧ c.dirty i = false)
    (hothers : ∀ q ≠ p, c.io q = .fill i → b.lock = some q)
    (hfilled : ∀ q, b.lock = some q → update c.io p v q ≠ .fill i → b.valid = true)
    (hdirty : c.dirty i = true → b.lock.isSome ∧ b.valid = true)
    (hdata : b.valid = true → c.dirty i = false → b.data = c.view b.blockno)
    (hcached : ∀ k ∈ c.pinned, c.Is i k → b.blockno = k ∧ b.valid = true) :
    CacheInv (c.put i b p v) where
  listed := h.listed
  unique j k n hj hk := by
    simp only [Cache.Is, Cache.put] at hj hk
    by_cases hji : j = i <;> by_cases hki : k = i
    · rw [hji, hki]
    · subst hji
      rw [update_self] at hj
      rw [update_of_ne hki] at hk
      exact absurd (huniq k (by rw [hj.2]; exact hk)) hki
    · subst hki
      rw [update_self] at hk
      rw [update_of_ne hji] at hj
      exact absurd (huniq j (by rw [hk.2]; exact hj)) hji
    · rw [update_of_ne hji] at hj
      rw [update_of_ne hki] at hk
      exact h.unique j k n hj hk
  unused j hj := by
    obtain rfl | hji := eq_or_ne j i
    · simp [Cache.put, hdev] at hj
    · simp only [Cache.put, update_of_ne hji] at hj ⊢
      exact h.unused j hj
  refs := h.put_refs hother hself
  filling q j hq := by
    simp only [Cache.put] at hq ⊢
    grind
  filled q j hl hq := by
    simp only [Cache.put] at hl hq ⊢
    grind
  dirty j hd := by
    obtain rfl | hji := eq_or_ne j i
    · simp only [Cache.put, update_self] at hd ⊢
      exact hdirty hd
    · simp only [Cache.put, update_of_ne hji] at hd ⊢
      exact h.dirty j hd
  clean q j hq := by
    simp only [Cache.put] at hq ⊢
    grind
  data j hv hd := by
    obtain rfl | hji := eq_or_ne j i
    · simp only [Cache.put, update_self] at hv hd ⊢
      exact hdata hv hd
    · simp only [Cache.put, update_of_ne hji] at hv hd ⊢
      exact h.data j hv hd
  disk := h.disk
  cached k hk := by
    obtain ⟨j, hj, hv⟩ := h.cached k hk
    obtain rfl | hji := eq_or_ne j i
    · refine ⟨j, ?_⟩
      simp only [Cache.Is, Cache.put, update_self]
      grind
    · refine ⟨j, ?_⟩
      simp only [Cache.Is, Cache.put, update_of_ne hji]
      exact ⟨hj, hv⟩

theorem bget {b : ℕ} (hp : c.io p = .idle)
    (hg : c.bget p rootdev b = some (i, c')) : CacheInv c' := by
  unfold Cache.bget at hg
  split at hg
  next j hf =>
    cases hg
    obtain ⟨hdev, hb⟩ := findCached_eq_some hf
    apply h.put
    · simp [hp]
    · intro j hj
      rw [waits_acquire_ne hj, hp, waits_idle]
    · grind
    · exact fun j hj => h.unique j i _ hj ⟨hdev, rfl⟩
    · exact hdev
    · simp
    · exact fun q _ hq => h.filling q i hq
    · grind
    · exact h.dirty i
    · exact h.data i
    · exact fun k hk hi => ⟨hi.2, h.valid_of_pinned hi hk⟩
  next hn =>
    split at hg
    next j hu =>
      cases hg
      have hz := findUnused_eq_some hu
      obtain ⟨hl, hd, ht, hpin⟩ := h.unreferenced hz
      have hb : b ∉ c.pinned := by
        intro hb
        obtain ⟨j, hj, _⟩ := h.cached b hb
        exact h.findCached_eq_none hn j hj
      apply h.put
      · simp [hp]
      · grind
      · grind
      · exact fun j hj => absurd hj (h.findCached_eq_none hn j)
      · rfl
      · simp
      · grind
      · exact fun q hq => absurd (hl.symm.trans hq) (by simp)
      · exact fun hc => absurd (hd.symm.trans hc) (by simp)
      · exact fun hv => absurd hv (by simp [Buf.recycle])
      · exact fun k hk hi => absurd (hi.2 ▸ hk) (hpin hi.1)
    · cases hg

theorem acquiresleep (hs : c.acquiresleep p = some c') : CacheInv c' := by
  unfold Cache.acquiresleep at hs
  split at hs
  next i hp =>
    obtain ⟨hl, hs⟩ := Option.ite_none_right_eq_some.mp hs
    cases hs
    have hdev := h.dev_of_refcnt (h.refcnt_pos_of_waits (p := p) (by rw [hp, waits_acquire]))
    have hd : c.dirty i = false := by grind
    apply h.put
    · simp [hp]
    · intro j hj
      rw [hp, waits_acquire_ne hj, waits_fill]
    · grind
    · exact fun j hj => h.unique j i _ hj ⟨hdev, rfl⟩
    · exact hdev
    · intro j hj
      cases hj
      exact ⟨rfl, rfl, hd⟩
    · grind
    · intro q hq hne
      cases hq
      simp at hne
    · simp [hd]
    · exact h.data i
    · exact fun k hk hi => ⟨hi.2, h.valid_of_pinned hi hk⟩
  · cases hs

theorem fill (hs : c.fill p = some (i, c')) : CacheInv c' := by
  unfold Cache.fill at hs
  split at hs
  next j hp =>
    cases hs
    have hl := h.filling p i hp
    have hdev := h.dev_of_refcnt (h.refcnt_pos_of_lock hl)
    apply h.put
    · intro j hj
      rw [hp] at hj
      cases hj
      rfl
    · simp [hp]
    · grind
    · exact fun j hj => h.unique j i _ hj ⟨hdev, rfl⟩
    · exact hdev
    · simp
    · exact fun q _ hq => h.filling q i hq
    · exact fun _ _ _ => rfl
    · exact fun hd => ⟨(h.dirty i hd).1, rfl⟩
    · intro _ hd
      dsimp only [Buf.fill]
      split
      next hv => exact h.data i hv hd
      next hv =>
        apply h.disk
        intro hb
        exact hv (h.valid_of_pinned ⟨hdev, rfl⟩ hb)
    · exact fun k hk hi => ⟨hi.2, rfl⟩
  · cases hs

/-- After `bread` the caller's buffer holds what was last logged. -/
theorem fill_data (hs : c.fill p = some (i, c')) : (c'.buf i).data = c.view (c'.buf i).blockno := by
  have h' := h.fill hs
  unfold Cache.fill at hs
  split at hs
  next hp =>
    cases hs
    exact h'.data i (by simp [Cache.put, Buf.fill]) (h.clean p i hp)
  · cases hs

theorem releasesleep (hl : (c.buf i).lock = some p)
    (hp : c.io p = .idle) (hd : c.dirty i = false) : CacheInv (c.releasesleep p i) := by
  have hdev := h.dev_of_refcnt (h.refcnt_pos_of_lock hl)
  apply h.put
  · simp [hp]
  · intro j hj
    rw [hp, waits_deref_ne hj, waits_idle]
  · grind
  · exact fun j hj => h.unique j i _ hj ⟨hdev, rfl⟩
  · exact hdev
  · simp
  · grind
  · exact fun q hq => absurd hq (by simp [Buf.setLock])
  · exact fun hc => absurd (hd.symm.trans hc) (by simp)
  · exact h.data i
  · exact fun k hk hi => ⟨hi.2, h.valid_of_pinned hi hk⟩

theorem deref (hs : c.deref p = some c') : CacheInv c' := by
  unfold Cache.deref at hs
  split at hs
  next i hp =>
    cases hs
    have hpos := h.refcnt_pos_of_waits (p := p) (i := i) (by rw [hp, waits_deref])
    have hdev := h.dev_of_refcnt hpos
    have hput : CacheInv (c.put i (c.buf i).decref p .idle) := by
      apply h.put
      · simp [hp]
      · intro j hj
        rw [hp, waits_deref_ne hj, waits_idle]
      · grind
      · exact fun j hj => h.unique j i _ hj ⟨hdev, rfl⟩
      · exact hdev
      · simp
      · exact fun q _ hq => h.filling q i hq
      · grind
      · exact h.dirty i
      · exact h.data i
      · exact fun k hk hi => ⟨hi.2, h.valid_of_pinned hi hk⟩
    refine { hput with listed := ?_ }
    grind
  · cases hs

end Put

variable (h : CacheInv c)
include h

theorem of_sameShape (hs : c.SameShape c')
    (hrefs : ∀ i, (c'.buf i).refcnt + (c.buf i).pins c.pinned =
      (c.buf i).refcnt + (c'.buf i).pins c'.pinned)
    (hdirty : ∀ i, c'.dirty i = true → (c.buf i).lock.isSome ∧ (c.buf i).valid = true)
    (hclean : ∀ p i, c.io p = .fill i → c'.dirty i = false)
    (hdata : ∀ i, (c.buf i).valid = true → c'.dirty i = false →
      (c'.buf i).data = c'.view (c.buf i).blockno)
    (hdisk : ∀ b ∉ c'.pinned, c'.disk b = c'.view b)
    (hcached : ∀ b ∈ c'.pinned, ∃ i, c.Is i b ∧ (c.buf i).valid = true) : CacheInv c' where
  listed := by rw [hs.lru]; exact h.listed
  unique i j b hi hj := h.unique i j b ((hs.is_iff i b).mp hi) ((hs.is_iff j b).mp hj)
  unused i hi := by grind
  refs i := by grind
  filling p i hp := by grind
  filled p i hl hp := by grind
  dirty i hd := by
    rw [hs.lock, hs.valid]
    exact hdirty i hd
  clean := by rw [hs.io]; exact hclean
  data i hv hd := by grind
  disk := hdisk
  cached b hb := by grind

theorem setData (v : Block)
    (hl : (c.buf i).lock = some p) (hp : c.io p = .idle) : CacheInv (c.setData i v) := by
  have hv := h.filled p i hl (by simp [hp])
  apply h.of_sameShape (c.sameShape_setData i v)
  · intro j
    obtain rfl | hj := eq_or_ne j i
    · simp only [Cache.setData, update_self]
      rfl
    · simp only [Cache.setData, update_of_ne hj]
  · intro j hd
    obtain rfl | hj := eq_or_ne j i
    · exact ⟨by simp [hl], hv⟩
    · simp only [Cache.setData, update_of_ne hj] at hd
      exact h.dirty j hd
  · intro q j hq
    have hj : j ≠ i := by grind
    simp only [Cache.setData, update_of_ne hj]
    exact h.clean q j hq
  · intro j hv hd
    have hj : j ≠ i := by
      rintro rfl
      simp [Cache.setData] at hd
    simp only [Cache.setData, update_of_ne hj] at hd ⊢
    exact h.data j hv hd
  · exact h.disk
  · exact h.cached

/-- Recording the contents of buffer `i` as those of its block leaves the other buffers right. -/
theorem data_recorded (hi : (c.buf i).dev = rootdev)
    (hv : (c.buf j).valid = true) (hd : update c.dirty i false j = false) :
    (c.buf j).data =
      update c.view (c.buf i).blockno (c.buf i).data (c.buf j).blockno := by
  obtain rfl | hj := eq_or_ne j i
  · rw [update_self]
  have hb : (c.buf j).blockno ≠ (c.buf i).blockno :=
    fun hb => hj (h.unique j i _ ⟨h.dev_of_valid hv, hb⟩ ⟨hi, rfl⟩)
  rw [update_of_ne hj] at hd
  rw [update_of_ne hb]
  exact h.data j hv hd

theorem dirty_cleaned (hd : update c.dirty i false j = true) :
    (c.buf j).lock.isSome ∧ (c.buf j).valid = true := by grind

theorem clean_cleaned (hp : c.io p = .fill j) : update c.dirty i false j = false := by grind

theorem bwrite (hi : (c.buf i).dev = rootdev) : CacheInv (c.bwrite i) := by
  apply h.of_sameShape (c.sameShape_bwrite i)
  · exact fun j => rfl
  · exact fun j hd => h.dirty_cleaned hd
  · exact fun q j hq => h.clean_cleaned hq
  · exact fun j hv hd => h.data_recorded hi hv hd
  · intro b hb
    dsimp only [Cache.bwrite] at hb ⊢
    grind
  · exact h.cached

/-- Pinning or unpinning the block of buffer `i` leaves the pins of the other buffers. -/
theorem pins_of_ne (pinned : Finset ℕ) (hi : (c.buf i).dev = rootdev) (hj : j ≠ i)
    (hb : ∀ b ≠ (c.buf i).blockno, (b ∈ pinned ↔ b ∈ c.pinned)) :
    (c.buf j).pins pinned = (c.buf j).pins c.pinned := by
  unfold Buf.pins
  by_cases hd : (c.buf j).dev = rootdev
  · have hne : (c.buf j).blockno ≠ (c.buf i).blockno :=
      fun hc => hj (h.unique j i _ ⟨hd, hc⟩ ⟨hi, rfl⟩)
    simp only [hb _ hne]
  · rw [if_neg fun hc => hd hc.1, if_neg fun hc => hd hc.1]

theorem logWrite {added : Bool} (hi : (c.buf i).dev = rootdev) (hv : (c.buf i).valid = true)
    (hadd : added = true ↔ (c.buf i).blockno ∉ c.pinned) : CacheInv (c.logWrite i added) := by
  apply h.of_sameShape (c.sameShape_logWrite i added)
  · intro j
    cases added with
    | true =>
      have hn := hadd.mp rfl
      simp only [Cache.logWrite, if_true]
      obtain rfl | hj := eq_or_ne j i
      · grind
      · rw [update_of_ne hj, h.pins_of_ne (insert _ _) hi hj fun b hb => by simp [hb]]
    | false => grind
  · exact fun j hd => h.dirty_cleaned hd
  · exact fun q j hq => h.clean_cleaned hq
  · intro j hv hd
    have hdata : ((c.logWrite i added).buf j).data = (c.buf j).data := by
      cases added with
      | true =>
        obtain rfl | hj := eq_or_ne j i
        · simp [Cache.logWrite, Buf.incref]
        · simp [Cache.logWrite, update_of_ne hj]
      | false => rfl
    rw [hdata]
    exact h.data_recorded hi hv hd
  · intro b hb
    simp only [Cache.logWrite, mem_insert, not_or] at hb ⊢
    rw [update_of_ne hb.1]
    exact h.disk b hb.2
  · grind

theorem bunpin (hi : (c.buf i).dev = rootdev) (hp : (c.buf i).blockno ∈ c.pinned)
    (hd : c.disk (c.buf i).blockno = c.view (c.buf i).blockno) : CacheInv (c.bunpin i) := by
  apply h.of_sameShape (c.sameShape_bunpin i)
  · intro j
    obtain rfl | hj := eq_or_ne j i
    · have hr := h.refs j
      have h1 : (c.buf j).pins c.pinned = 1 := if_pos ⟨hi, hp⟩
      have h0 : (c.buf j).pins (c.pinned.erase (c.buf j).blockno) = 0 :=
        if_neg fun hc => by simp at hc
      simp only [Cache.bunpin, update_self, pins_decref, h0, h1]
      dsimp only [Buf.decref]
      omega
    · simp only [Cache.bunpin, update_of_ne hj]
      rw [h.pins_of_ne (Finset.erase _ _) hi hj fun b hb => by simp [hb]]
  · exact h.dirty
  · exact h.clean
  · intro j hv hdj
    obtain rfl | hj := eq_or_ne j i
    · simp only [Cache.bunpin, update_self]
      exact h.data j hv hdj
    · simp only [Cache.bunpin, update_of_ne hj]
      exact h.data j hv hdj
  · grind
  · exact fun b hb => h.cached b (mem_of_mem_erase hb)

end CacheInv
end Xv6.Bio
