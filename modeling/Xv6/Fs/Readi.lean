import Xv6.Fs.Bmap

/-! A consistent state, and reading in it: every block below the size of a file has an address, so
`readi` changes nothing and returns the bytes of the file. -/
namespace Xv6.Fs
open Hoare Volume
variable {P : Type}

def Volume.byte (v : Volume) (i off : ℕ) : UInt8 :=
  (v.data (v.slot i (dataSlot (off / bsize)))).byte (off % bsize)

def Volume.bytes (v : Volume) (i off n : ℕ) : List UInt8 :=
  (List.range n).map fun k => v.byte i (off + k)

theorem Volume.bytes_add (v : Volume) (i off m n : ℕ) :
    v.bytes i off (m + n) = v.bytes i off m ++ v.bytes i (off + m) n := by
  simp [bytes, List.range_add, Function.comp_def, Nat.add_assoc]

theorem div_mod_of_block (off k : ℕ) (hk : off % bsize + k < bsize) :
    (off + k) / bsize = off / bsize ∧ (off + k) % bsize = off % bsize + k := by
  simp only [bsize] at hk ⊢
  omega

theorem Volume.bytes_block (v : Volume) {i off m : ℕ} (hm : m ≤ bsize - off % bsize) :
    v.bytes i off m = (List.range m).map fun k =>
      (v.data (v.slot i (dataSlot (off / bsize)))).byte (off % bsize + k) := by
  apply List.map_congr_left
  intro k hk
  obtain ⟨hd, hr⟩ := div_mod_of_block off k (by
    have := List.mem_range.mp hk
    omega)
  rw [byte, hd, hr]

namespace State

/-- The entry of inode `i` is in use and holds the inode, as after `ilock`. -/
def Locked (s : State P) (i : ℕ) : Prop := 0 < (s.inode i).ref ∧ (s.inode i).valid = true

/-- The disk is sound, files have no holes, and entries in use agree with the disk. -/
structure Consistent (s : State P) : Prop where
  sound : s.disk.Sound
  noHole : s.disk.NoHole
  cached : ∀ i, s.Locked i → (s.inode i).din = s.disk.dinode i ∧ s.disk.Allocated i

namespace Consistent
variable {s : State P} {i : ℕ}
variable (h : s.Consistent) (hi : s.Locked i)
include h hi

theorem flushed_eq : s.flushed i = s.disk := by
  rw [flushed, (h.cached i hi).1]
  simp [Volume.setDinode]

theorem size_eq : (s.inode i).din.size = (s.disk.dinode i).size := by
  rw [(h.cached i hi).1]

theorem slot_ne_zero (off : ℕ)
    (ho : off < (s.disk.dinode i).size) : s.disk.slot i (dataSlot (off / bsize)) ≠ 0 := by
  apply h.noHole i _ (h.cached i hi).2
  exact (Nat.div_mul_le_self off bsize).trans_lt ho

end Consistent
end State

variable {E : Panic → Prop} {s : State P} {i : ℕ}

theorem Local.locked_iff {t : State P} (h : Local i s t) (j : ℕ) : t.Locked j ↔ s.Locked j := by
  obtain rfl | hji := eq_or_ne j i
  · rw [State.Locked, State.Locked, h.ref, h.valid]
  · rw [State.Locked, State.Locked, h.inode j hji]

/-- Where there is an address, `bmap` returns it and changes nothing. -/
theorem bmap_of_slot {bn : ℕ} (hi : (s.flushed i).Allocated i)
    (hs : (s.flushed i).slot i (dataSlot bn) ≠ 0) :
    wp (bmap i bn) (fun r t => r = (s.flushed i).slot i (dataSlot bn) ∧ t = s) E s := by
  have hdin : (s.flushed i).dinode i = (s.inode i).din := by simp [State.flushed]
  unfold bmap
  split
  next hlt =>
    rw [dataSlot, if_pos hlt, slot_le hi hlt.le, hdin] at hs ⊢
    simp only [bmapAddr, wp_bind, wp_get]
    rw [if_neg hs]
    exact ⟨rfl, rfl⟩
  next hlt =>
    rw [dataSlot, if_neg hlt] at hs ⊢
    have hsome : bn - ndirect < nindirect ∧ (s.inode i).din.addr ndirect ≠ 0 := by
      constructor
      · by_contra hle
        exact hs (slot_of_le (by omega))
      · intro hz
        apply hs
        rw [slot_of_allocated hi, slotOf, if_neg (by omega), hdin, if_pos hz]
    have hentry : (s.flushed i).slot i (bn + 1) =
        (s.disk.data ((s.inode i).din.addr ndirect)).word (bn - ndirect) := by
      have h := slot_entry hi (hdin ▸ hsome.2) hsome.1
      rw [hdin] at h
      rw [← show ndirect + 1 + (bn - ndirect) = bn + 1 by omega, h]
      rfl
    rw [if_pos hsome.1]
    simp only [bmapAddr, wp_bind, wp_get]
    rw [if_neg hsome.2, wp_pure, if_neg hsome.2]
    simp only [bmapEntry, wp_bind, wp_get]
    rw [if_neg (hentry ▸ hs)]
    exact ⟨hentry.symm, rfl⟩

theorem readLoop_spec (hflush : s.flushed i = s.disk) (ha : s.disk.Allocated i) {lim : ℕ}
    (hs : ∀ bn, bn * bsize < lim → s.disk.slot i (dataSlot bn) ≠ 0) {dst : ℕ → Bool} (fuel : ℕ) :
    ∀ off tot n, n - tot ≤ fuel → off + (n - tot) ≤ lim →
      wp (readLoop i dst fuel off tot n) (fun r t => t = s ∧
        (r = none ∨ r = some (s.disk.bytes i off (n - tot))) ∧
        ((∀ k < n, dst k = true) → r ≠ none)) E s := by
  induction fuel with
  | zero =>
    intro off tot n hn _
    have hz : n - tot = 0 := by omega
    simp [readLoop, hz, Volume.bytes]
  | succ fuel ih =>
    intro off tot n hn hsize
    unfold readLoop
    split
    next hle =>
      have hz : n - tot = 0 := by omega
      simp [hz, Volume.bytes]
    next hlt =>
      have hslot := hs (off / bsize) ((Nat.div_mul_le_self off bsize).trans_lt (by omega))
      refine wp_seq (bmap_of_slot (hflush ▸ ha) (hflush ▸ hslot)) ?_
      rintro _ _ ⟨rfl, rfl⟩
      rw [hflush, if_neg hslot]
      simp only [wp_bind, wp_get]
      split
      next hdst =>
        have hm : 0 < min (n - tot) (bsize - off % bsize) := by
          have := Nat.mod_lt off (show 0 < bsize by decide)
          omega
        refine wp_seq (ih (off + min (n - tot) (bsize - off % bsize))
          (tot + min (n - tot) (bsize - off % bsize)) n (by omega) (by omega)) ?_
        rintro r t ⟨rfl, hr, hall⟩
        refine ⟨rfl, ?_, fun hd => ?_⟩
        · rcases hr with rfl | rfl
          · exact .inl rfl
          right
          have hsplit : n - tot = min (n - tot) (bsize - off % bsize) +
              (n - (tot + min (n - tot) (bsize - off % bsize))) := by omega
          rw [hsplit, Volume.bytes_add, ← hsplit, bytes_block _ (min_le_right _ _)]
          rfl
        · simpa using hall hd
      next hdst =>
        refine ⟨rfl, .inl rfl, fun hall => absurd (List.all_eq_true.mpr ?_) hdst⟩
        intro k hk
        have := List.mem_range.mp hk
        exact hall _ (by omega)

theorem readi_of_slots (hdin : (s.inode i).din = s.disk.dinode i) (ha : s.disk.Allocated i)
    (dst : ℕ → Bool) (off n : ℕ)
    (hs : ∀ bn, bn * bsize < min (off + n) (s.disk.dinode i).size →
      s.disk.slot i (dataSlot bn) ≠ 0) :
    wp (readi i dst off n) (fun r t => t = s ∧
      ((∀ k < n, dst k = true) → r = some (if off + n < 2 ^ 32 ∧ off ≤ (s.disk.dinode i).size
        then s.disk.bytes i off (min n ((s.disk.dinode i).size - off)) else []))) E s := by
  have hflush : s.flushed i = s.disk := by
    rw [State.flushed, hdin]
    simp [Volume.setDinode]
  unfold readi
  simp only [wp_bind, wp_get]
  rw [hdin]
  split
  next hc =>
    refine ⟨rfl, fun _ => ?_⟩
    rw [if_neg (by omega)]
  next hc =>
    have hn : (if (s.disk.dinode i).size < off + n then (s.disk.dinode i).size - off else n) =
        min n ((s.disk.dinode i).size - off) := by
      split <;> omega
    rw [hn]
    refine wp_post (readLoop_spec hflush ha hs _ off 0 _ (by omega) (by omega)) ?_
    rintro r t ⟨rfl, hr, hall⟩
    refine ⟨rfl, fun hdst => ?_⟩
    rw [if_pos (by omega)]
    simpa using hr.resolve_left (hall fun k hk => hdst k (by omega))

theorem readi_spec (h : s.Consistent) (hi : s.Locked i) (dst : ℕ → Bool) (off n : ℕ) :
    wp (readi i dst off n) (fun r t => t = s ∧
      ((∀ k < n, dst k = true) → r = some (if off + n < 2 ^ 32 ∧ off ≤ (s.disk.dinode i).size
        then s.disk.bytes i off (min n ((s.disk.dinode i).size - off)) else []))) E s := by
  obtain ⟨hdin, ha⟩ := h.cached i hi
  refine readi_of_slots hdin ha dst off n fun bn hbn => ?_
  exact h.noHole i bn ha (by omega)

end Xv6.Fs
