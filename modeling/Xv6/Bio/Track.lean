import Xv6.Bio.CacheInv

/-! What the critical sections of the buffer cache do to the buffers that a process holds or waits
for: their block numbers and locks stay, and only the holder changes contents. -/
namespace Xv6.Bio
open Function
attribute [local simp] Cache.put
variable {P : Type} {c c' : Cache P} {i : Fin nbuf} {p q : P}

namespace Cache

/-- Process `p` has a reference on buffer `i` from a `bread` that it has not undone. -/
@[grind] def Has (c : Cache P) (p : P) (i : Fin nbuf) : Prop :=
  c.io p = .acquire i ∨ (c.buf i).lock = some p

/-- Process `p` has read block `b` into buffer `i` and not modified it since. -/
@[grind] def Held (c : Cache P) (p : P) (i : Fin nbuf) (b : ℕ) : Prop :=
  c.Is i b ∧ (c.buf i).lock = some p ∧ c.dirty i = false

/-- Process `p` has called `bread` for block `b` and was or will be given buffer `i`. -/
@[grind] def Got (c : Cache P) (p : P) (i : Fin nbuf) (b : ℕ) : Prop :=
  c.Is i b ∧ (c.io p = .acquire i ∨ ((c.buf i).lock = some p ∧ c.dirty i = false))

theorem Got.held {b : ℕ} (h : c.Got p i b) (hp : c.io p = .idle) : c.Held p i b := by grind

@[grind cases] structure Keeps (p : P) (c c' : Cache P) : Prop where
  key : ∀ i, c.Has p i → (c'.buf i).dev = (c.buf i).dev ∧ (c'.buf i).blockno = (c.buf i).blockno
  lock : ∀ i, (c.buf i).lock = some p → (c'.buf i).lock = some p
  clean : ∀ i, (c.buf i).lock = some p → c.dirty i = false → c'.dirty i = false
  acquire : ∀ i, c.io p = .acquire i →
    c'.io p = .acquire i ∨ ((c'.buf i).lock = some p ∧ c'.dirty i = false)

@[grind] def NoNew (p : P) (c c' : Cache P) : Prop :=
  ∀ i, c'.Has p i → c.Has p i ∧ (c'.buf i).blockno = (c.buf i).blockno

@[grind] def Still (p : P) (c c' : Cache P) : Prop :=
  c.io p = .idle → c'.io p = .idle ∧ ∀ i, (c.buf i).lock = some p → (c'.buf i).data = (c.buf i).data

theorem Still.refl (p : P) (c : Cache P) : Still p c c := fun hp => ⟨hp, fun _ _ => rfl⟩

namespace Keeps
variable {b : ℕ}

theorem refl (p : P) (c : Cache P) : Keeps p c c :=
  ⟨fun _ _ => ⟨rfl, rfl⟩, fun _ hl => hl, fun _ _ hd => hd, fun _ ha => .inl ha⟩

variable (h : Keeps p c c')
include h

theorem is (hi : c.Is i b) (hh : c.Has p i) : c'.Is i b := by grind

theorem held (hi : c.Held p i b) : c'.Held p i b :=
  ⟨h.is hi.1 (.inr hi.2.1), h.lock i hi.2.1, h.clean i hi.2.1 hi.2.2⟩

theorem got (hi : c.Got p i b) : c'.Got p i b := by grind

end Keeps

theorem SameShape.keeps (h : c.SameShape c')
    (hc : ∀ i, (c.buf i).lock = some p → c.dirty i = false → c'.dirty i = false) :
    Keeps p c c' where
  key i _ := ⟨h.dev i, h.blockno i⟩
  lock i hl := by rw [h.lock, hl]
  clean := hc
  acquire i hi := .inl (by rw [h.io, hi])

theorem SameShape.noNew (h : c.SameShape c') (p : P) : NoNew p c c' := by grind

theorem setData_track (hl : (c.buf i).lock = some q) (v : Block) :
    (∀ p, q ≠ p → Keeps p c (c.setData i v) ∧ Still p c (c.setData i v)) ∧
    (∀ j b, j ≠ i → c.Held q j b → (c.setData i v).Held q j b) ∧
    ∀ p, NoNew p c (c.setData i v) := by
  have hshape := c.sameShape_setData i v
  refine ⟨?_, ?_, fun p => hshape.noNew p⟩
  · intro p hqp
    have hother : ∀ j, (c.buf j).lock = some p → j ≠ i := by grind
    refine ⟨hshape.keeps ?_, ?_⟩
    · intro j hj hd
      simp only [setData, update_of_ne (hother j hj), hd]
    · intro hp
      refine ⟨hp, fun j hj => ?_⟩
      simp only [setData, update_of_ne (hother j hj)]
  · intro j b hji hj
    refine ⟨(hshape.is_iff j b).mpr hj.1, by rw [hshape.lock, hj.2.1], ?_⟩
    simp only [setData, update_of_ne hji, hj.2.2]

theorem keeps_bwrite (c : Cache P) (i : Fin nbuf) (p : P) : Keeps p c (c.bwrite i) := by
  apply (c.sameShape_bwrite i).keeps
  intro j _ hd
  by_cases hji : j = i
  · rw [hji]
    simp [bwrite]
  · simpa [bwrite, update_of_ne hji] using hd

theorem keeps_bunpin (c : Cache P) (i : Fin nbuf) (p : P) : Keeps p c (c.bunpin i) :=
  (c.sameShape_bunpin i).keeps fun _ _ hd => hd

variable [DecidableEq P] {v : Io}

/-- A step of `q` at buffer `i` keeps the buffers of `p` when it keeps buffer `i` for `p`. -/
private theorem keeps_put {b : Buf P}
    (hkey : c.Has p i → b.dev = (c.buf i).dev ∧ b.blockno = (c.buf i).blockno)
    (hlock : (c.buf i).lock = some p → b.lock = some p)
    (hacq : q = p → ∀ j, c.io p = .acquire j → v = .acquire j ∨
      (j = i ∧ b.lock = some p ∧ c.dirty i = false)) : Keeps p c (c.put i b q v) where
  key j hj := by
    obtain rfl | hji := eq_or_ne j i
    · simp only [put, update_self]
      exact hkey hj
    · simp only [put, update_of_ne hji, and_self]
  lock j hl := by
    obtain rfl | hji := eq_or_ne j i
    · simp only [put, update_self]
      exact hlock hl
    · simp only [put, update_of_ne hji]
      exact hl
  clean _ _ hd := hd
  acquire j hj := by
    by_cases hqp : q = p
    · rcases hacq hqp j hj with hv | ⟨rfl, hl, hd⟩
      · left
        simp only [put, hqp, update_self, hv]
      · right
        simp only [put, update_self]
        exact ⟨hl, hd⟩
    · left
      simp only [put, update_of_ne (Ne.symm hqp)]
      exact hj

private theorem noNew_put {b : Buf P} (hkey : c.Has p i → b.blockno = (c.buf i).blockno)
    (hlock : b.lock = some p → c.Has p i)
    (hacq : q = p → ∀ j, v = .acquire j → c.Has p j) : NoNew p c (c.put i b q v) := by
  intro j hj
  have hhas : c.Has p j := by
    rcases hj with ha | hl
    · by_cases hqp : q = p
      · simp only [put, hqp, update_self] at ha
        exact hacq hqp j ha
      · simp only [put, update_of_ne (Ne.symm hqp)] at ha
        exact .inl ha
    · obtain rfl | hji := eq_or_ne j i
      · simp only [put, update_self] at hl
        exact hlock hl
      · simp only [put, update_of_ne hji] at hl
        exact .inr hl
  refine ⟨hhas, ?_⟩
  obtain rfl | hji := eq_or_ne j i
  · simp only [put, update_self]
    exact hkey hhas
  · simp only [put, update_of_ne hji]

private theorem still_put {b : Buf P} (hq : q ≠ p)
    (hdata : (c.buf i).lock = some p → b.data = (c.buf i).data) : Still p c (c.put i b q v) := by
  intro hp
  simp only [put, update_of_ne (Ne.symm hq)]
  grind

omit [DecidableEq P] in
/-- A process inside `bread` or `brelse` is not running its own code. -/
private theorem still_of_ne_idle (h : c.io p ≠ .idle) : Still p c c' :=
  fun hp => absurd hp h

private theorem has_put_acquire {j : Fin nbuf} {b : Buf P}
    (h : (c.put i b q (.acquire i)).Has q j) :
    j = i ∨ c.Has q j ∧ ((c.put i b q (.acquire i)).buf j).blockno = (c.buf j).blockno := by
  by_cases hji : j = i
  · exact .inl hji
  refine .inr ⟨?_, ?_⟩
  · rcases h with ha | hl
    · simp only [put, update_self, Io.acquire.injEq] at ha
      exact absurd ha.symm hji
    · simp only [put, update_of_ne hji] at hl
      exact .inr hl
  · simp only [put, update_of_ne hji]

/-- Steps inside `bread` and `brelse` that every process takes in the same way. -/
@[grind cases] structure Passes (c c' : Cache P) : Prop where
  view : c'.view = c.view
  disk : c'.disk = c.disk
  pinned : c'.pinned = c.pinned
  keeps : ∀ p, Keeps p c c'
  noNew : ∀ p, NoNew p c c'
  still : ∀ p, Still p c c'

theorem deref_passes (hs : c.deref q = some c') : Passes c c' := by
  unfold deref at hs
  split at hs
  next i hq =>
    cases hs
    refine ⟨rfl, rfl, rfl, ?_, ?_, ?_⟩
    · intro p
      have hk : Keeps p c (c.put i (c.buf i).decref q .idle) := by
        refine keeps_put (fun _ => ⟨rfl, rfl⟩) (fun hl => hl) ?_
        rintro rfl j hj
        simp [hq] at hj
      exact ⟨hk.key, hk.lock, hk.clean, hk.acquire⟩
    · grind
    · grind
  · cases hs

theorem releasesleep_track (hl : (c.buf i).lock = some q) : (∀ p, NoNew p c (c.releasesleep q i)) ∧
    (∀ p, q ≠ p → Keeps p c (c.releasesleep q i) ∧ Still p c (c.releasesleep q i)) ∧
    (∀ j b, j ≠ i → c.Held q j b → (c.releasesleep q i).Held q j b) ∧
    ¬ (c.releasesleep q i).Has q i := by
  refine ⟨?_, ?_, ?_, ?_⟩
  · intro p
    refine noNew_put (fun _ => rfl) ?_ ?_
    · intro hp
      cases hp
    · rintro rfl j hj
      cases hj
  · intro p hqp
    refine ⟨keeps_put (fun _ => ⟨rfl, rfl⟩) ?_ (fun h => absurd h hqp), still_put hqp fun _ => rfl⟩
    grind
  · intro j b hji hj
    simpa only [Held, Is, releasesleep, put, update_of_ne hji] using hj
  · simp [Has, releasesleep, put, Buf.setLock]

end Cache

namespace CacheInv
open Cache
variable [Fintype P] [DecidableEq P] {b : ℕ}

omit [DecidableEq P] in
theorem refcnt_pos_of_has (h : CacheInv c) (hh : c.Has p i) : 0 < (c.buf i).refcnt := by
  rcases hh with ha | hl
  · exact h.refcnt_pos_of_waits (p := p) (by rw [ha, waits_acquire])
  · exact h.refcnt_pos_of_lock hl

/-- `bget` returns a buffer of the block it is asked for and leaves the buffers in use. -/
theorem bget_track (h : CacheInv c) (hq : c.io q = .idle) (hg : c.bget q rootdev b = some (i, c')) :
    c'.Is i b ∧ c'.io q = .acquire i ∧ c'.view = c.view ∧ c'.disk = c.disk ∧
    c'.pinned = c.pinned ∧ (∀ p, Keeps p c c') ∧ (∀ p, q ≠ p → NoNew p c c' ∧ Still p c c') ∧
    ∀ j, c'.Has q j → j = i ∨ c.Has q j ∧ (c'.buf j).blockno = (c.buf j).blockno := by
  unfold Cache.bget at hg
  split at hg
  next j hf =>
    cases hg
    obtain ⟨hdev, hb⟩ := findCached_eq_some hf
    refine ⟨?_, ?_, rfl, rfl, rfl, ?_, ?_, ?_⟩
    · simpa [Is, Buf.incref] using ⟨hdev, hb⟩
    · simp
    · intro p
      refine keeps_put (fun _ => ⟨rfl, rfl⟩) (fun hl => hl) ?_
      rintro rfl j hj
      simp [hq] at hj
    · intro p hqp
      exact ⟨noNew_put (fun _ => rfl) .inr (fun h => absurd h hqp), still_put hqp fun _ => rfl⟩
    · exact fun j hj => has_put_acquire hj
  next hn =>
    split at hg
    next j hu =>
      cases hg
      have hz := findUnused_eq_some hu
      have hfree : ∀ p, ¬ c.Has p i := by
        intro p hp
        have := h.refcnt_pos_of_has hp
        omega
      have hl := (h.unreferenced hz).1
      refine ⟨?_, ?_, rfl, rfl, rfl, ?_, ?_, ?_⟩
      · simp [Is, Buf.recycle]
      · simp
      · intro p
        refine keeps_put (fun hp => absurd hp (hfree p)) (fun hl => hl) ?_
        rintro rfl j hj
        simp [hq] at hj
      · intro p hqp
        refine ⟨noNew_put (fun hp => absurd hp (hfree p)) .inr (fun h => absurd h hqp),
          still_put hqp fun _ => rfl⟩
      · exact fun j hj => has_put_acquire hj
    · cases hg

theorem acquiresleep_passes (h : CacheInv c) (hs : c.acquiresleep q = some c') : Passes c c' := by
  unfold Cache.acquiresleep at hs
  split at hs
  next i hq =>
    obtain ⟨hl, hs⟩ := Option.ite_none_right_eq_some.mp hs
    cases hs
    have hd : c.dirty i = false := by grind
    refine ⟨rfl, rfl, rfl, ?_, ?_, ?_⟩
    · intro p
      refine keeps_put (fun _ => ⟨rfl, rfl⟩) ?_ ?_
      · simp [hl]
      · grind
    · intro p
      refine noNew_put (fun _ => rfl) ?_ ?_
      · intro hp
        cases hp
        exact .inl hq
      · rintro rfl j hj
        cases hj
    · intro p
      obtain rfl | hqp := eq_or_ne q p
      · exact still_of_ne_idle (by simp [hq])
      · exact still_put hqp fun _ => rfl
  · cases hs

theorem fill_passes (h : CacheInv c) (hs : c.fill q = some (i, c')) : Passes c c' := by
  unfold Cache.fill at hs
  split at hs
  next j hq =>
    cases hs
    have hl := h.filling q i hq
    refine ⟨rfl, rfl, rfl, ?_, ?_, ?_⟩
    · intro p
      refine keeps_put (fun _ => ⟨rfl, rfl⟩) (fun hl => hl) ?_
      rintro rfl j hj
      simp [hq] at hj
    · intro p
      refine noNew_put (fun _ => rfl) .inr ?_
      rintro rfl j hj
      cases hj
    · intro p
      obtain rfl | hqp := eq_or_ne q p
      · exact still_of_ne_idle (by simp [hq])
      apply still_put hqp
      intro hp
      rw [hl] at hp
      cases hp
      exact absurd rfl hqp
  · cases hs

end CacheInv
end Xv6.Bio
