import Xv6.Fs.Writei

/-! A write with enough free blocks is not cut short. -/
namespace Xv6.Fs
open Hoare Finset Volume
attribute [local simp] State.flushed Volume.claimAddr Volume.claimEntry
variable {P : Type} {E : Panic → Prop} {s t : State P} {i : ℕ} {src : Src}

def needed (B : ℕ) : Finset ℕ :=
  (Finset.range B).image dataSlot ∪ if ndirect < B then {ndirect} else ∅

namespace Volume
variable {v w : Volume} {B : ℕ}

/-- The slots for the first `B` blocks of file `i` that are empty. -/
def lack (v : Volume) (i B : ℕ) : Finset ℕ := (needed B).filter fun k => v.slot i k = 0

def spare (v : Volume) : Finset ℕ := (Finset.range v.sb.size).filter fun b => v.bitmap b = false

/-- There are enough free blocks for file `i` to have `B` blocks. -/
def Room (v : Volume) (i B : ℕ) : Prop := (v.lack i B).card ≤ v.spare.card

theorem Room.congr (h : v.Room i B) (hslot : ∀ k, w.slot i k = v.slot i k)
    (hsb : w.sb = v.sb) (hbm : w.bitmap = v.bitmap) : w.Room i B := by
  unfold Room lack spare at h ⊢
  simpa only [hslot, hsb, hbm] using h

theorem Room.claim {k b : ℕ} (h : v.Room i B) (hk : k ∈ needed B) (hz : v.slot i k = 0)
    (hb : v.bitmap b = false) (hlt : b < v.sb.size) (hn : b ≠ 0)
    (hslot : ∀ l, w.slot i l = if l = k then b else v.slot i l) (hsb : w.sb = v.sb)
    (hbm : w.bitmap = Function.update v.bitmap b true) : w.Room i B := by
  have hlack : w.lack i B = (v.lack i B).erase k := by
    ext l
    simp only [lack, mem_filter, mem_erase, hslot]
    by_cases hlk : l = k
    · simp [hlk, hn]
    · simp [hlk]
  have hspare : w.spare = v.spare.erase b := by
    ext c
    simp only [spare, mem_filter, mem_erase, hsb, hbm]
    by_cases hcb : c = b
    · simp [hcb]
    · simp [hcb]
  have hkm : k ∈ v.lack i B := mem_filter.mpr ⟨hk, hz⟩
  have hbm : b ∈ v.spare := mem_filter.mpr ⟨mem_range.mpr hlt, hb⟩
  unfold Room at h ⊢
  rw [hlack, hspare, card_erase_of_mem hkm, card_erase_of_mem hbm]
  omega

theorem Room.free {k : ℕ} (h : v.Room i B) (hk : k ∈ needed B) (hz : v.slot i k = 0) :
    ¬ ∀ b < v.sb.size, v.bitmap b = true := by
  intro hfull
  have hkm : k ∈ v.lack i B := mem_filter.mpr ⟨hk, hz⟩
  have hpos := card_pos.mpr ⟨k, hkm⟩
  have hnone : v.spare = ∅ := by
    apply filter_eq_empty_iff.mpr
    intro b hb
    rw [hfull b (mem_range.mp hb)]
    nofun
  unfold Room at h
  rw [hnone, card_empty] at h
  omega

end Volume

variable {B : ℕ}

section
variable (hE : Logs E s) (hsound : (s.flushed i).Sound) (hi : (s.flushed i).Allocated i)
include hE hsound hi

theorem bmapAddr_room {k : ℕ} (hk : k ≤ ndirect) (hneed : k ∈ needed B)
    (hroom : (s.flushed i).Room i B) :
    wp (bmapAddr i k) (fun r t => r ≠ 0 ∧ (t.flushed i).Room i B) E s := by
  have haddr : (s.flushed i).slot i k = (s.inode i).din.addr k := by
    rw [slot_le hi hk]
    simp
  unfold bmapAddr
  simp only [wp_bind, wp_get]
  split
  next hz =>
    have hslotz := haddr.trans hz
    refine wp_seq (balloc_spec hE) ?_
    rintro b t (⟨rfl, rfl, hfull⟩ | ⟨hb, hlt, l, rfl⟩)
    · exact absurd hfull (hroom.free hneed hslotz)
    have hn := hsound.ne_zero_of_free (b := b) hb
    rw [if_neg hn]
    simp only [wp_bind, wp_modify, wp_pure]
    refine ⟨hn, ?_⟩
    have hslot := slot_claimAddr hsound hi hk hslotz hb hn
    refine hroom.claim (w := (s.flushed i).claimAddr i k b) hneed hslotz hb hlt hn
      (fun l => ?_) rfl rfl |>.congr (fun l => ?_) ?_ ?_
    · rw [hslot]
      simp
    · congr 1
      simp
    · simp
    · simp
  next hz => exact ⟨hz, hroom⟩

theorem bmapEntry_room {e : ℕ} (he : e < nindirect)
    (ha : (s.flushed i).slot i ndirect ≠ 0) (hneed : ndirect + 1 + e ∈ needed B)
    (hroom : (s.flushed i).Room i B) :
    wp (bmapEntry ((s.flushed i).slot i ndirect) e)
      (fun r t => r ≠ 0 ∧ (t.flushed i).Room i B) E s := by
  have haddr := slot_le hi (le_refl ndirect)
  have hentry : (s.flushed i).slot i (ndirect + 1 + e) =
      (s.disk.data ((s.flushed i).slot i ndirect)).word e := by
    rw [haddr] at ha ⊢
    exact slot_entry hi ha he
  unfold bmapEntry
  simp only [wp_bind, wp_get]
  split
  next hz =>
    have hslotz := hentry.trans hz
    refine wp_seq (balloc_spec hE) ?_
    rintro b t (⟨rfl, rfl, hfull⟩ | ⟨hb, hlt, l, rfl⟩)
    · exact absurd hfull (hroom.free hneed hslotz)
    have hn := hsound.ne_zero_of_free (b := b) hb
    have hab := hsound.slot_ne_of_free (b := b) hb hn i ndirect
    rw [if_neg hn]
    simp only [wp_bind, wp_modify, wp_logWrite, wp_pure]
    split
    · refine ⟨hn, ?_⟩
      have ha' := ha
      rw [haddr] at ha'
      have hslot := slot_claimEntry hsound hi he ha' hslotz hb hlt
      refine hroom.claim (w := (s.flushed i).claimEntry i e b) hneed hslotz hb hlt hn
        (fun l => ?_) rfl rfl |>.congr (fun l => ?_) ?_ ?_
      · rw [hslot]
        simp
      · congr 1
        rw [haddr] at hab ⊢
        simp at hab ⊢
        simp [hab]
      · simp
      · simp
    next hop => exact hE (by simpa using hop)
  next hz => exact ⟨hz, hroom⟩

end

theorem dataSlot_mem_needed {bn : ℕ} (h : bn < B) : dataSlot bn ∈ needed B :=
  mem_union_left _ (mem_image_of_mem _ (mem_range.mpr h))

theorem bmap_room (hE : Logs E s) (hsound : (s.flushed i).Sound) (hi : (s.flushed i).Allocated i)
    {bn : ℕ} (hbn : bn < B) (hB : B ≤ maxfile) (hroom : (s.flushed i).Room i B) :
    wp (bmap i bn) (fun r t => r ≠ 0 ∧ (t.flushed i).Room i B) E s := by
  have hmem := dataSlot_mem_needed hbn
  unfold bmap
  split
  next hlt =>
    rw [dataSlot, if_pos hlt] at hmem
    exact bmapAddr_room hE hsound hi (Nat.le_of_lt hlt) hmem hroom
  next hlt =>
    have hind : ndirect ∈ needed B := by
      refine mem_union_right _ ?_
      rw [if_pos (by omega)]
      exact mem_singleton_self ndirect
    have he : bn - ndirect < nindirect := by
      simp only [maxfile] at hB
      omega
    rw [if_pos he]
    refine wp_seq (wp_and (bmapAddr_spec hE hsound hi le_rfl)
      (bmapAddr_room (fun _ => trivial) hsound hi le_rfl hind hroom)) ?_
    rintro a t ⟨⟨hgrew, hsound', rfl, _⟩, hn, hroom'⟩
    rw [if_neg hn]
    refine bmapEntry_room (hE.congr hgrew.inOp) hsound' (hgrew.allocated hi) he hn ?_ hroom'
    rw [dataSlot, if_neg hlt] at hmem
    rwa [show ndirect + 1 + (bn - ndirect) = bn + 1 by omega]

theorem writeLoop_room (hsrc : ∀ k, (src k).isSome = true) (hB : B ≤ maxfile) (fuel : ℕ) :
    ∀ (s : State P) off tot n, Logs E s → (s.flushed i).Sound → (s.flushed i).Allocated i →
      n - tot ≤ fuel → tot ≤ n → off + (n - tot) ≤ B * bsize → (s.flushed i).Room i B →
      wp (writeLoop i src fuel off tot n) (fun r t => r = n ∧ (t.flushed i).Room i B) E s := by
  induction fuel with
  | zero =>
    intro s off tot n _ _ _ hn hle _ hroom
    exact ⟨by omega, hroom⟩
  | succ fuel ih =>
    intro s off tot n hE hsound hi hn hle hmax hroom
    unfold writeLoop
    split
    next hge => exact ⟨by omega, hroom⟩
    next hlt =>
      have hbn : off / bsize < B :=
        Nat.div_lt_of_lt_mul (Nat.mul_comm B bsize ▸ (by omega : off < B * bsize))
      refine wp_seq (wp_and (bmap_spec hE hsound hi (lt_of_lt_of_le hbn hB))
        (bmap_room (fun _ => trivial) hsound hi hbn hB hroom)) ?_
      rintro a t ⟨⟨hgrew, hsound', rfl, _⟩, ha, hroom'⟩
      have hm : 0 < min (n - tot) (bsize - off % bsize) := by
        have := Nat.mod_lt off (show 0 < bsize by decide)
        omega
      have hw := wrote_block hgrew hsound' src tot ha (min_le_right (n - tot) (bsize - off % bsize))
      have hs := hsound'.setData (dataSlot_ne (off / bsize)) (i := i)
      rw [if_neg ha]
      simp only [wp_bind, wp_modify]
      rw [if_pos (by simp [Src.mapped, hsrc]), wp_bind, wp_logWrite]
      split
      · refine wp_post (ih _ _ _ n (hE.congr hgrew.inOp) (hs _) (hw.log.allocated hi)
          (by omega) (by omega) (by omega) ?_) (fun _ _ h => h)
        exact hroom'.congr (hsound'.slot_setData (dataSlot_ne _) _ i) rfl rfl
      next hop => exact hE.congr hgrew.inOp (by simpa using hop)

/-- A write with room in the file and on disk is complete, and leaves the rest of the room. -/
theorem writei_room (hE : Logs E s) (h : s.Consistent) (hi : s.Locked i)
    (hsrc : ∀ k, (src k).isSome = true) (hB : B ≤ maxfile) {off n : ℕ}
    (hoff : off ≤ (s.disk.dinode i).size) (hmax : off + n ≤ B * bsize) (hroom : s.disk.Room i B) :
    wp (writei i src off n) (fun r t => r = some n ∧ t.disk.Room i B) E s := by
  have hsound := h.sound
  have halloc := (h.cached i hi).2
  rw [← h.flushed_eq hi] at hsound halloc hroom
  have hlim : off + n ≤ maxfile * bsize := hmax.trans (Nat.mul_le_mul_right _ hB)
  have hsmall : maxfile * bsize < 2 ^ 32 := by decide
  unfold writei
  simp only [wp_bind, wp_get]
  rw [h.size_eq hi, if_neg (by omega), if_neg (by omega)]
  refine wp_seq (wp_and (writeLoop_spec n s off 0 n hE hsound halloc (by omega) (by omega))
    (writeLoop_room hsrc hB n s off 0 n (fun _ => trivial) hsound halloc le_rfl (Nat.zero_le n)
      hmax hroom)) ?_
  rintro tot t ⟨⟨hw, _⟩, rfl, hroom'⟩
  have hi' := hw.allocated halloc
  simp only [wp_bind, wp_modify, wp_iupdate, wp_pure]
  split
  · split
    · have hdisk : (t.setDin i ((t.inode i).din.setSize (off + tot))).flushed i =
          (t.flushed i).setDinode i ((t.inode i).din.setSize (off + tot)) := by
        simp
      have hty : ((t.inode i).din.setSize (off + tot)).type ≠ .free := by
        have hne := hi'.2
        simpa using hne
      refine ⟨trivial, hroom'.congr (fun k => ?_) rfl rfl⟩
      rw [State.log_disk, State.setDisk_disk, hdisk]
      exact slot_setDinode hi' hty (by simp) i k
    next hop => exact hE.congr hw.inOp (by simpa using hop)
  · split
    · exact ⟨trivial, hroom'.congr (fun k => rfl) rfl rfl⟩
    next hop => exact hE.congr hw.inOp (by simpa using hop)

end Xv6.Fs
