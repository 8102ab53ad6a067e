import Mathlib.Data.List.GetD
import Xv6.Fs.Bytes
import Xv6.Mkfs.Model

/-! Appending to a file of the image: the bytes behind the end are zero, the blocks in use are those
that the size needs, and each of them belongs to one file. -/
namespace Xv6.Mkfs
open Function Hoare Fs List Volume
attribute [local simp] Volume.claimAddr Volume.claimEntry
variable {E : Failure → Prop} {v v' w : Volume} {b : Build} {i j fb : ℕ} {d : Dinode}
  {L p : List UInt8}

/-- The blocks of a file of `n` bytes, with its indirect block. -/
def blocks (n : ℕ) : ℕ := (n + bsize - 1) / bsize + if ndirect * bsize < n then 1 else 0

/-- An image whose blocks below `fb` are in use. -/
structure Laid (v : Volume) (fb : ℕ) : Prop where
  sound : v.Sound
  sb : v.sb = superblock
  bitmap : v.bitmap = fun x => decide (x < fb)
  boot : v.data 0 = .zero
  fresh : ∀ x, fb ≤ x → v.data x = .zero

/-- Inode `i` holds the bytes `L`, and zeros behind them. -/
structure Holds (v : Volume) (i : ℕ) (L : List UInt8) : Prop where
  alloc : v.Allocated i
  byte : ∀ off, v.byte i off = L.getD off 0
  slot : ∀ bn, v.slot i (dataSlot bn) ≠ 0 ↔ bn * bsize < L.length
  indirect : v.slot i ndirect ≠ 0 ↔ ndirect * bsize < L.length

structure Apart (i : ℕ) (v v' : Volume) : Prop where
  dinode : ∀ j, j ≠ i → v'.dinode j = v.dinode j
  slot : ∀ j, j ≠ i → ∀ k, v'.slot j k = v.slot j k
  byte : ∀ j, j ≠ i → ∀ off, v'.byte j off = v.byte j off
  sb : v'.sb = v.sb

theorem Apart.refl (i : ℕ) (v : Volume) : Apart i v v :=
  ⟨fun _ _ => rfl, fun _ _ _ => rfl, fun _ _ _ => rfl, rfl⟩

theorem Apart.trans (h : Apart i v v') (h' : Apart i v' w) : Apart i v w where
  dinode j hj := (h'.dinode j hj).trans (h.dinode j hj)
  slot j hj k := (h'.slot j hj k).trans (h.slot j hj k)
  byte j hj off := (h'.byte j hj off).trans (h.byte j hj off)
  sb := h'.sb.trans h.sb

theorem Holds.apart (h : Holds v j L) (ha : Apart i v v') (hj : j ≠ i) : Holds v' j L where
  alloc := by
    rw [Volume.Allocated, ha.sb, ha.dinode j hj]
    exact h.alloc
  byte off := (ha.byte j hj off).trans (h.byte off)
  slot bn := by rw [ha.slot j hj]; exact h.slot bn
  indirect := by rw [ha.slot j hj]; exact h.indirect

namespace Laid
variable (h : Laid v fb)
include h

theorem free : v.bitmap fb = false := by
  rw [h.bitmap]
  simp

theorem fb_ne_zero : fb ≠ 0 := by
  rintro rfl
  have hm := h.sound.reserved 0 h.sound.reserve
  rw [h.bitmap] at hm
  simp at hm

theorem slot_ne (i k : ℕ) : v.slot i k ≠ fb :=
  h.sound.slot_ne_of_free h.free h.fb_ne_zero i k

theorem slot_lt {i k : ℕ} (hk : v.slot i k ≠ 0) : v.slot i k < fssize := by
  have hlive := (h.sound.live_of_slot hk).2.1
  rw [h.sb] at hlive
  exact hlive

theorem le_slot {i k : ℕ} (hk : v.slot i k ≠ 0) : superblock.nmeta ≤ v.slot i k := by
  have hlive := (h.sound.live_of_slot hk).1
  rwa [h.sb] at hlive

theorem addrs_lt (ha : v.Allocated i) (j : Fin (ndirect + 1)) : (v.dinode i).addrs j < 2 ^ 32 := by
  have hslot := slot_le ha (Nat.le_of_lt_succ j.isLt)
  have haddr : (v.dinode i).addr j = (v.dinode i).addrs j := dif_pos j.isLt
  rw [← haddr, ← hslot]
  by_cases hz : v.slot i j = 0
  · rw [hz]
    decide
  · exact (h.slot_lt hz).trans (by decide)

end Laid

/-- A slot that was empty has got block `fb`, which is zero. -/
structure Claims (i k fb : ℕ) (v v' : Volume) : Prop where
  laid : Laid v' (fb + 1)
  empty : v.slot i k = 0
  slot : ∀ j l, v'.slot j l = if j = i ∧ l = k then fb else v.slot j l
  data : ∀ x, x ≠ v.slot i ndirect → v'.data x = v.data x
  dinode : ∀ j, j ≠ i → v'.dinode j = v.dinode j
  alloc : v'.Allocated i ↔ v.Allocated i

namespace Claims
variable {k : ℕ}
variable (h : Claims i k fb v v') (hv : Laid v fb)
include h hv

theorem byte (j off : ℕ) : v'.byte j off = v.byte j off := by
  have hzero : v'.data fb = .zero := by
    rw [h.data fb (hv.slot_ne i ndirect).symm]
    exact hv.fresh fb le_rfl
  unfold Volume.byte
  rw [h.slot]
  split
  next hc => rw [hc.1, hc.2, h.empty, hzero, hv.boot]
  next hc =>
    by_cases hz : v.slot j (dataSlot (off / bsize)) = v.slot i ndirect
    · have h0 : v.slot i ndirect = 0 := by
        by_contra hn
        have hslot := (hv.sound.slot_inj (hz ▸ hn) hz).2
        exact dataSlot_ne _ hslot
      have hboot : v'.data 0 = .zero := h.laid.boot
      rw [hz, h0, hv.boot, hboot]
    · rw [h.data _ hz]

theorem apart : Apart i v v' where
  dinode := h.dinode
  slot j hj l := by
    rw [h.slot, if_neg fun hc => hj hc.1]
  byte j _ off := h.byte hv j off
  sb := by rw [h.laid.sb, hv.sb]

end Claims

private theorem bitmap_succ (h : v.bitmap = fun x => decide (x < fb)) :
    update v.bitmap fb true = fun x => decide (x < fb + 1) := by
  funext x
  by_cases hx : x = fb
  · simp [hx]
  · rw [update_of_ne hx, h]
    have : x < fb ↔ x < fb + 1 := by omega
    simp [this]

section
variable (h : Laid v fb) (hlt : fb < fssize) (hi : v.Allocated i)
include h hlt hi

theorem Laid.claimAddr {k : ℕ}
    (hk : k ≤ ndirect) (hz : v.slot i k = 0) : Claims i k fb v (v.claimAddr i k fb) where
  laid := by
    refine ⟨h.sound.claimAddr hi hk hz h.free (by rw [h.sb]; exact hlt), h.sb,
      bitmap_succ h.bitmap, ?_, fun x hx => ?_⟩
    · simp [h.fb_ne_zero.symm, h.boot]
    · simp [show x ≠ fb by omega, h.fresh x (by omega)]
  empty := hz
  slot := slot_claimAddr h.sound hi hk hz h.free h.fb_ne_zero
  data x _ := by
    by_cases hx : x = fb
    · simp [hx, h.fresh fb le_rfl]
    · simp [hx]
  dinode j hj := by
    simp [hj]
  alloc := by simp [Volume.Allocated]

theorem Laid.claimEntry {e : ℕ}
    (he : e < nindirect) (ha : v.slot i ndirect ≠ 0) (hz : v.slot i (ndirect + 1 + e) = 0) :
    Claims i (ndirect + 1 + e) fb v (v.claimEntry i e fb) := by
  have hfb : fb < v.sb.size := by
    rw [h.sb]
    exact hlt
  have haddr := slot_le hi (le_refl ndirect)
  have ha' : (v.dinode i).addr ndirect ≠ 0 := haddr ▸ ha
  have hne : (v.dinode i).addr ndirect ≠ fb := haddr ▸ h.slot_ne i ndirect
  have hlow : (v.dinode i).addr ndirect < fb := by
    have hlive := (h.sound.live_of_slot ha).2.2
    rw [h.bitmap, haddr] at hlive
    exact of_decide_eq_true hlive
  refine ⟨⟨h.sound.claimEntry hi he ha' hz h.free hfb, h.sb, bitmap_succ h.bitmap, ?_,
    fun x hx => ?_⟩, hz, slot_claimEntry h.sound hi he ha' hz h.free hfb, fun x hx => ?_,
    fun _ _ => rfl, Iff.rfl⟩
  · simp [ha'.symm, h.fb_ne_zero.symm, h.boot]
  · simp [Volume.claimEntry, show x ≠ (v.dinode i).addr ndirect by omega, show x ≠ fb by omega,
      h.fresh x (by omega)]
  · rw [haddr] at hx
    by_cases hxf : x = fb
    · simp [hxf, hne.symm, h.fresh fb le_rfl]
    · simp [hx, hxf]

end

theorem arranged_superblock : superblock.Arranged := ⟨by decide, by decide, by decide⟩

namespace Build

@[simps! -fullyApplied] def setInode (b : Build) (i : ℕ) (d : Dinode) : Build :=
  b.setSector (superblock.iblock i) ((b.img (superblock.iblock i)).setDinode (i % ipb) d)

section
variable (hsb : b.disk.sb = superblock)
include hsb

theorem data_disk {x : ℕ} (hx : superblock.nmeta ≤ x) : b.disk.data x = b.img x :=
  data_volume (show b.disk.sb.nmeta ≤ x from hsb ▸ hx)

theorem disk_setSector {x : ℕ} (hx : superblock.nmeta ≤ x) (y : Block) :
    (b.setSector x y).disk = b.disk.setData x y :=
  volume_setData (show b.disk.sb.Arranged from hsb ▸ arranged_superblock)
    (show b.disk.sb.nmeta ≤ x from hsb ▸ hx)

theorem disk_setInode (hi : i < superblock.inodeArea) (hd : d.InRange) :
    (b.setInode i d).disk = b.disk.setDinode i d := by
  have h := volume_setDinode (d := b.img) (i := i)
    (show b.disk.sb.Arranged from hsb ▸ arranged_superblock)
    (show i < b.disk.sb.inodeArea from hsb ▸ hi) hd
  rwa [show readsb b.img = superblock from hsb] at h

theorem wp_rinode (hi : i < superblock.inodeArea) {Q : Dinode → Build → Prop} :
    wp (rinode i) Q E b ↔ Q (b.disk.dinode i) b := by
  have hlt : superblock.iblock i < fssize := (Superblock.iblock_lt hi).trans (by decide)
  have hd : b.disk.dinode i = (b.img (superblock.iblock i)).dinode (i % ipb) := by
    change (if i < b.disk.sb.inodeArea then
      (b.img (b.disk.sb.iblock i)).dinode (i % ipb) else _) = _
    rw [hsb, if_pos hi]
  simp only [rinode, rsect, wp_bind]
  rw [if_neg (not_le.mpr hlt), hd]
  rfl

end

theorem wp_winode (hi : i < superblock.inodeArea) {Q : Unit → Build → Prop} :
    wp (winode i d) Q E b ↔ Q () (b.setInode i d) := by
  have hlt : superblock.iblock i < fssize := (Superblock.iblock_lt hi).trans (by decide)
  simp only [winode, rsect, wp_bind]
  rw [if_neg (not_le.mpr hlt)]
  rfl

end Build

def Build.view (b : Build) : Volume := { b.disk with bitmap := fun x => x < b.freeblock }

/-- The image as if `din` had been written back to inode `i`. -/
def Build.flushed (b : Build) (i : ℕ) (d : Dinode) : Volume := b.view.setDinode i d

@[simp] theorem dinode_flushed (b : Build) (i : ℕ) (d : Dinode) : (b.flushed i d).dinode i = d := by
  simp [Build.flushed]

@[simp] theorem data_flushed (b : Build) (i : ℕ) (d : Dinode) :
    (b.flushed i d).data = b.disk.data :=
  rfl

theorem flushed_claimAddr (h : Laid (b.flushed i d) b.freeblock) (k : ℕ) :
    ({ b with freeblock := b.freeblock + 1 } : Build).flushed i (d.setAddr k b.freeblock) =
      (b.flushed i d).claimAddr i k b.freeblock := by
  have hbit := bitmap_succ h.bitmap
  have hdata : update b.disk.data b.freeblock Block.zero = b.disk.data := by
    rw [← h.fresh b.freeblock le_rfl, data_flushed, update_eq_self]
  simp only [Build.flushed, Build.view, Volume.claimAddr, Volume.setDinode, Volume.setBit,
    Volume.setData, update_self, update_idem] at hbit ⊢
  rw [hbit, hdata]
  rfl

theorem flushed_claimEntry (h : Laid (b.flushed i d) b.freeblock)
    (hx : superblock.nmeta ≤ d.addr ndirect) (e : ℕ) :
    (({ b with freeblock := b.freeblock + 1 } : Build).setSector (d.addr ndirect)
      ((b.disk.data (d.addr ndirect)).setWord e b.freeblock)).flushed i d =
      (b.flushed i d).claimEntry i e b.freeblock := by
  have hsb : ({ b with freeblock := b.freeblock + 1 } : Build).disk.sb = superblock := h.sb
  have hdisk := Build.disk_setSector hsb hx ((b.disk.data (d.addr ndirect)).setWord e b.freeblock)
  have hbit := bitmap_succ h.bitmap
  have hdata : update b.disk.data b.freeblock Block.zero = b.disk.data := by
    rw [← h.fresh b.freeblock le_rfl, data_flushed, update_eq_self]
  rw [Build.flushed, Build.view, hdisk]
  simp only [Build.flushed, Build.view, Volume.claimEntry, Volume.setDinode, Volume.setBit,
    Volume.setData, update_self] at hbit ⊢
  rw [hbit, hdata]
  rfl

def lacks (v : Volume) (i k : ℕ) : ℕ := if v.slot i k = 0 then 1 else 0

def lacksIndirect (v : Volume) (i fbn : ℕ) : ℕ := if ndirect ≤ fbn then lacks v i ndirect else 0

private theorem lacks_of_empty {k : ℕ} (h : v.slot i k = 0) : lacks v i k = 1 := if_pos h

private theorem lacks_of_used {k : ℕ} (h : v.slot i k ≠ 0) : lacks v i k = 0 := if_neg h

/-- What `addrFor` and `blockFor` do besides: block `x` is in slot `k` of inode `i`, and nothing
else has changed but empty blocks in slots of inode `i`. -/
structure Finds (i k : ℕ) (b : Build) (d : Dinode) (x : ℕ) (b' : Build) (d' : Dinode) : Prop where
  laid : Laid (b'.flushed i d') b'.freeblock
  found : (b'.flushed i d').slot i k = x
  used : x ≠ 0
  alloc : (b'.flushed i d').Allocated i
  apart : Apart i (b.flushed i d) (b'.flushed i d')
  byte : ∀ off, (b'.flushed i d').byte i off = (b.flushed i d).byte i off
  attrs : d' = { d with addrs := d'.addrs }
  counter : b'.freeinode = b.freeinode

section
variable (h : Laid (b.flushed i d) b.freeblock) (hi : (b.flushed i d).Allocated i)
include h hi

theorem addrFor_spec {k : ℕ} (hk : k ≤ ndirect)
    (hroom : (b.flushed i d).slot i k = 0 → b.freeblock < fssize) :
    wp (addrFor d k) (fun r b' => Finds i k b d r.2 b' r.1 ∧
      b'.freeblock = b.freeblock + lacks (b.flushed i d) i k ∧
      ∀ l ≠ k, (b'.flushed i r.1).slot i l = (b.flushed i d).slot i l) E b := by
  have haddr : (b.flushed i d).slot i k = d.addr k := by rw [slot_le hi hk, dinode_flushed]
  unfold addrFor
  split
  next hz =>
    have hz' := haddr.trans hz
    have hc := h.claimAddr (hroom hz') hi hk hz'
    rw [← flushed_claimAddr h k] at hc
    simp only [nextBlock, wp_bind, wp_get, wp_modify, wp_pure]
    refine ⟨⟨hc.laid, ?_, h.fb_ne_zero, hc.alloc.mpr hi, hc.apart h, fun off => hc.byte h i off,
      rfl, rfl⟩, by rw [lacks_of_empty hz'], fun l hl => ?_⟩
    · rw [hc.slot, if_pos ⟨rfl, rfl⟩]
    · rw [hc.slot, if_neg fun he => hl he.2]
  next hz =>
    rw [wp_pure]
    refine ⟨⟨h, haddr, hz, hi, .refl i _, fun _ => rfl, rfl, rfl⟩, ?_, fun _ _ => rfl⟩
    rw [lacks_of_used (haddr ▸ hz), Nat.add_zero]

theorem blockFor_spec {fbn : ℕ} (hfbn : fbn < maxfile)
    (hroom : b.freeblock + lacks (b.flushed i d) i (dataSlot fbn) +
      lacksIndirect (b.flushed i d) i fbn ≤ fssize) :
    wp (blockFor d fbn) (fun r b' => Finds i (dataSlot fbn) b d r.2 b' r.1 ∧
      b'.freeblock = b.freeblock + lacks (b.flushed i d) i (dataSlot fbn) +
        lacksIndirect (b.flushed i d) i fbn ∧
      (∀ l ≠ dataSlot fbn, l ≠ ndirect → (b'.flushed i r.1).slot i l = (b.flushed i d).slot i l) ∧
      ((b'.flushed i r.1).slot i ndirect ≠ 0 ↔
        (b.flushed i d).slot i ndirect ≠ 0 ∨ ndirect ≤ fbn)) E b := by
  unfold blockFor
  split
  next hlt =>
    have hds : dataSlot fbn = fbn := if_pos hlt
    have hno : lacksIndirect (b.flushed i d) i fbn = 0 := if_neg (by omega)
    rw [hds, hno] at hroom ⊢
    refine wp_post (addrFor_spec h hi hlt.le fun hz => ?_) (fun r b' hr => ?_)
    · rw [lacks_of_empty hz] at hroom
      omega
    · obtain ⟨hf, hcount, hother⟩ := hr
      refine ⟨hf, hcount, fun l hl _ => hother l hl, ?_⟩
      rw [hother ndirect (by omega)]
      simp [show ¬ ndirect ≤ fbn by omega]
  next hge =>
    have hge : ndirect ≤ fbn := not_lt.mp hge
    have hds : dataSlot fbn = ndirect + 1 + (fbn - ndirect) := by
      rw [dataSlot, if_neg (by omega)]
      omega
    have he : fbn - ndirect < nindirect := by
      simp only [maxfile] at hfbn
      omega
    have hyes : lacksIndirect (b.flushed i d) i fbn = lacks (b.flushed i d) i ndirect := if_pos hge
    rw [hyes] at hroom ⊢
    refine wp_seq (addrFor_spec h hi le_rfl fun hz => ?_) (fun r b1 hr => ?_)
    · rw [lacks_of_empty hz] at hroom
      omega
    obtain ⟨⟨hlaid, hfound, hused, halloc, hapart, hbyte, hattrs, hcounter⟩, hcount, hother⟩ := hr
    have hx : r.2 = r.1.addr ndirect := by rw [← hfound, slot_le halloc le_rfl, dinode_flushed]
    have hslot1 : (b1.flushed i r.1).slot i (dataSlot fbn) =
        (b.flushed i d).slot i (dataSlot fbn) := hother _ (by omega)
    have hword : (b1.disk.data r.2).word (fbn - ndirect) =
        (b.flushed i d).slot i (dataSlot fbn) := by
      rw [← hslot1, hds, slot_entry halloc (by rwa [dinode_flushed, ← hx]) he,
        dinode_flushed, ← hx, data_flushed]
    have hread : r.2 < fssize := hfound ▸ hlaid.slot_lt (hfound ▸ hused)
    have hlow : superblock.nmeta ≤ r.2 := hfound ▸ hlaid.le_slot (hfound ▸ hused)
    simp only [rsect, wp_bind]
    rw [if_neg (not_le.mpr hread)]
    simp only [wp_bind, wp_get, wp_pure]
    rw [← Build.data_disk hlaid.sb hlow, hword]
    refine wp_ite.mpr ⟨fun hz => ?_, fun hz => ?_⟩
    · rw [lacks_of_empty hz] at hroom ⊢
      have hnd : (b1.flushed i r.1).slot i ndirect ≠ 0 := hfound ▸ hused
      have hc := hlaid.claimEntry (by omega) halloc he hnd (by rw [← hds, hslot1, hz])
      rw [← flushed_claimEntry hlaid (hx ▸ hlow), ← hx] at hc
      simp only [nextBlock, wsect, wp_bind, wp_get, wp_modify, wp_pure]
      refine ⟨⟨hc.laid, ?_, hlaid.fb_ne_zero, hc.alloc.mpr halloc, hapart.trans (hc.apart hlaid),
        fun off => (hc.byte hlaid i off).trans (hbyte off), hattrs, hcounter⟩, ?_, ?_, ?_⟩
      · rw [hc.slot, hds, if_pos ⟨rfl, rfl⟩]
      · change b1.freeblock + 1 = _
        omega
      · intro l hl hln
        rw [hc.slot, if_neg fun hq => hl (hds ▸ hq.2), hother l hln]
      · rw [hc.slot, if_neg (by omega)]
        exact ⟨fun _ => .inr hge, fun _ => hnd⟩
    · rw [lacks_of_used hz] at hroom ⊢
      exact ⟨⟨hlaid, hslot1, hz, halloc, hapart, hbyte, hattrs, hcounter⟩, hcount,
        fun l _ hln => hother l hln, fun _ => .inr hge, fun _ => hfound ▸ hused⟩

end

structure Piece (L p : List UInt8) : Prop where
  nonempty : p ≠ []
  fits : L.length + p.length ≤ (L.length / bsize + 1) * bsize

namespace Piece
variable (h : Piece L p)
include h

theorem pos : 0 < p.length := length_pos_iff.mpr h.nonempty

theorem getD_append (off : ℕ) : (L ++ p).getD off 0 =
    if off / bsize = L.length / bsize ∧ L.length % bsize ≤ off % bsize then
      p.getD (off % bsize - L.length % bsize) (L.getD off 0) else L.getD off 0 := by
  have hf := h.fits
  simp only [bsize] at hf ⊢
  by_cases hlt : off < L.length
  · rw [if_neg (by omega), List.getD_append _ _ _ _ hlt]
  have hzero : L.getD off 0 = 0 := getD_eq_default _ _ (by omega)
  rw [getD_append_right _ _ _ _ (by omega), hzero]
  split
  · congr 1
    omega
  · exact getD_eq_default _ _ (by omega)

theorem block_lt_iff (bn : ℕ) : bn * bsize < (L ++ p).length ↔
    bn = L.length / bsize ∨ bn * bsize < L.length := by
  have hf := h.fits
  have hp := h.pos
  rw [length_append]
  simp only [bsize] at hf ⊢
  omega

theorem indirect_lt_iff : ndirect * bsize < (L ++ p).length ↔
    ndirect * bsize < L.length ∨ ndirect ≤ L.length / bsize := by
  have hf := h.fits
  have hp := h.pos
  rw [length_append]
  simp only [bsize, ndirect] at hf ⊢
  omega

theorem blocks_append (hL : Holds v i L) :
    blocks (L ++ p).length = blocks L.length + lacks v i (dataSlot (L.length / bsize)) +
      lacksIndirect v i (L.length / bsize) := by
  have hf := h.fits
  have hp := h.pos
  have hs := hL.slot (L.length / bsize)
  have hi := hL.indirect
  unfold lacksIndirect lacks blocks
  rw [length_append]
  simp only [bsize, ndirect, ne_eq] at hf hs hi ⊢
  by_cases h1 : v.slot i (dataSlot (L.length / 1024)) = 0
  · by_cases h2 : v.slot i 12 = 0
    · simp only [h1, h2, not_true_eq_false, false_iff, if_true] at hs hi ⊢
      split <;> split <;> omega
    · simp only [h1, h2, not_true_eq_false, not_false_eq_true, false_iff, true_iff, if_true,
        if_false] at hs hi ⊢
      split <;> split <;> omega
  · by_cases h2 : v.slot i 12 = 0
    · simp only [h1, h2, not_true_eq_false, not_false_eq_true, false_iff, true_iff, if_true,
        if_false] at hs hi ⊢
      split <;> split <;> omega
    · simp only [h1, h2, not_false_eq_true, true_iff, if_false] at hs hi ⊢
      split <;> split <;> omega

end Piece

theorem Laid.write {x : ℕ} (h : Laid v fb) {bn : ℕ} (hx : v.slot i (dataSlot bn) = x) (h0 : x ≠ 0)
    (y : Block) : Laid (v.setData x y) fb ∧
      (∀ j l, (v.setData x y).slot j l = v.slot j l) ∧
      ∀ j off, (v.setData x y).byte j off =
        if j = i ∧ off / bsize = bn then y.byte (off % bsize) else v.byte j off := by
  have hds : dataSlot bn ≠ ndirect := dataSlot_ne bn
  have hslot j l : (v.setData x y).slot j l = v.slot j l := by
    rw [← hx]
    exact h.sound.slot_setData hds y j l
  have hlive := h.sound.live_of_slot (hx ▸ h0)
  rw [hx] at hlive
  have hlt : x < fb := by
    have hbit := hlive.2.2
    rw [h.bitmap] at hbit
    exact of_decide_eq_true hbit
  refine ⟨⟨?_, h.sb, h.bitmap, ?_, fun z hz => ?_⟩, hslot, fun j off => ?_⟩
  · rw [← hx]
    exact h.sound.setData hds y
  · simp [h0.symm, h.boot]
  · simp [show z ≠ x by omega, h.fresh z hz]
  · unfold Volume.byte
    rw [hslot]
    by_cases hc : j = i ∧ off / bsize = bn
    · rw [if_pos hc, hc.1, hc.2, hx]
      simp
    rw [if_neg hc]
    have hne : v.slot j (dataSlot (off / bsize)) ≠ x := by
      intro he
      have hinj := h.sound.slot_inj (hx ▸ h0) (hx.trans he.symm)
      exact hc ⟨hinj.1.symm, (dataSlot_inj hinj.2).symm⟩
    simp [hne]

/-- What appending `p` to inode `i`, which held `L`, does. -/
structure Appends (i : ℕ) (L p : List UInt8) (b : Build) (d : Dinode) (b' : Build) (d' : Dinode) :
    Prop where
  laid : Laid (b'.flushed i d') b'.freeblock
  holds : Holds (b'.flushed i d') i (L ++ p)
  apart : Apart i (b.flushed i d) (b'.flushed i d')
  attrs : d' = { d with addrs := d'.addrs }
  count : b'.freeblock + blocks L.length = b.freeblock + blocks (L ++ p).length
  counter : b'.freeinode = b.freeinode

theorem appends_nil (h : Laid (b.flushed i d) b.freeblock) (hL : Holds (b.flushed i d) i L) :
    Appends i L [] b d b d := by
  refine ⟨h, ?_, .refl i _, rfl, ?_, rfl⟩
  · rwa [append_nil]
  · rw [append_nil]

theorem Appends.trans {b' b'' : Build} {d' d'' : Dinode} {q : List UInt8}
    (h : Appends i L p b d b' d') (h' : Appends i (L ++ p) q b' d' b'' d'') :
    Appends i L (p ++ q) b d b'' d'' := by
  have hc := h.count
  have hc' := h'.count
  rw [append_assoc] at hc'
  refine ⟨h'.laid, ?_, h.apart.trans h'.apart, ?_, by omega, h'.counter.trans h.counter⟩
  · rw [← append_assoc]
    exact h'.holds
  · rw [h'.attrs, h.attrs]

theorem Finds.write {b' : Build} {d' : Dinode} {x : ℕ} (hp : Piece L p)
    (hL : Holds (b.flushed i d) i L) (h : Finds i (dataSlot (L.length / bsize)) b d x b' d')
    (hcount : b'.freeblock = b.freeblock + lacks (b.flushed i d) i (dataSlot (L.length / bsize)) +
      lacksIndirect (b.flushed i d) i (L.length / bsize))
    (hother : ∀ l ≠ dataSlot (L.length / bsize), l ≠ ndirect →
      (b'.flushed i d').slot i l = (b.flushed i d).slot i l)
    (hind : (b'.flushed i d').slot i ndirect ≠ 0 ↔
      (b.flushed i d).slot i ndirect ≠ 0 ∨ ndirect ≤ L.length / bsize) :
    Appends i L p b d (b'.setSector x
      (bcopy (b'.disk.data x) (L.length - L.length / bsize * bsize) p)) d' := by
  have hpos : L.length - L.length / bsize * bsize = L.length % bsize := by
    have := Nat.div_add_mod' L.length bsize
    omega
  rw [hpos]
  obtain ⟨hlaid, hslot, hbyte⟩ := h.laid.write h.found h.used
    (bcopy (b'.disk.data x) (L.length % bsize) p)
  have hold off (hoff : off / bsize = L.length / bsize) : (b'.disk.data x).byte
      (off % bsize) = L.getD off 0 := by
    rw [← hL.byte off, ← h.byte off, Volume.byte, hoff, h.found, data_flushed]
  have hflush : ∀ y, (b'.setSector x y).flushed i d' = (b'.flushed i d').setData x y := by
    intro y
    have hlow := h.laid.le_slot (h.found ▸ h.used)
    rw [h.found] at hlow
    rw [Build.flushed, Build.view, Build.disk_setSector h.laid.sb hlow]
    rfl
  rw [← hflush] at hlaid
  simp only [← hflush] at hslot hbyte
  refine ⟨hlaid, ⟨?_, fun off => ?_, fun bn => ?_, ?_⟩, h.apart.trans
    ⟨fun _ _ => by rw [hflush]; rfl, fun j _ k => hslot j k, fun j hj off => ?_,
      by rw [hflush]; rfl⟩, h.attrs, ?_, h.counter⟩
  · rw [hflush]
    exact h.alloc
  · refine (hbyte i off).trans ?_
    rw [hp.getD_append off]
    by_cases hoff : off / bsize = L.length / bsize
    · rw [if_pos ⟨rfl, hoff⟩, bcopy, Block.byte_ofBytes (Nat.mod_lt _ (by decide)), hold off hoff]
      simp [hoff]
    · rw [if_neg fun hc => hoff hc.2, if_neg fun hc => hoff hc.1, h.byte, hL.byte]
  · rw [hslot, hp.block_lt_iff]
    by_cases hbn : bn = L.length / bsize
    · rw [hbn, h.found]
      exact ⟨fun _ => .inl rfl, fun _ => h.used⟩
    · rw [hother _ (fun hc => hbn (dataSlot_inj hc)) (dataSlot_ne bn), hL.slot bn]
      exact ⟨.inr, fun hc => hc.resolve_left hbn⟩
  · rw [hslot, hp.indirect_lt_iff, hind, hL.indirect]
  · exact (hbyte j off).trans (if_neg fun hc => hj hc.1)
  · have hb := hp.blocks_append hL
    change b'.freeblock + _ = _
    omega

theorem blocks_le {m n : ℕ} (h : m ≤ n) : blocks m ≤ blocks n := by
  unfold blocks
  simp only [bsize, ndirect]
  split <;> split <;> omega

theorem appendLoop_spec (fuel : ℕ) : ∀ (b : Build) (d : Dinode) (L p : List UInt8),
    p.length ≤ fuel → Laid (b.flushed i d) b.freeblock → Holds (b.flushed i d) i L →
    (L ++ p).length ≤ maxfile * bsize →
    b.freeblock + blocks (L ++ p).length ≤ fssize + blocks L.length →
    wp (appendLoop fuel d L.length p) (fun r b' => r.2 = (L ++ p).length ∧
      Appends i L p b d b' r.1) E b := by
  induction fuel with
  | zero =>
    intro b d L p hp h hL _ _
    obtain rfl := length_eq_zero_iff.mp (Nat.le_zero.mp hp)
    exact ⟨by simp, appends_nil h hL⟩
  | succ fuel ih =>
    intro b d L p hp h hL hmax hroom
    unfold appendLoop
    refine wp_ite.mpr ⟨fun hnil => ?_, fun hne => ?_⟩
    · subst hnil
      exact ⟨by simp, appends_nil h hL⟩
    have hlen : 0 < p.length := length_pos_iff.mpr hne
    have hmod := Nat.mod_lt L.length (show 0 < bsize by decide)
    have hdiv := Nat.div_add_mod' L.length bsize
    have hfbn : L.length / bsize < maxfile := by
      rw [length_append] at hmax
      exact Nat.div_lt_of_lt_mul (by rw [Nat.mul_comm]; omega)
    rw [if_neg (not_le.mpr hfbn)]
    -- The part of `p` that fits in the block of the end of the file.
    set n1 := min p.length ((L.length / bsize + 1) * bsize - L.length) with hn1
    have hroomy : 0 < (L.length / bsize + 1) * bsize - L.length := by
      rw [Nat.add_mul, Nat.one_mul]
      omega
    have hpiece : Piece L (p.take n1) := by
      have htake : (p.take n1).length = n1 := by
        rw [length_take]
        omega
      refine ⟨fun hc => ?_, by omega⟩
      rw [hc, length_nil] at htake
      omega
    have hsplit : L ++ p = L ++ p.take n1 ++ p.drop n1 := by rw [append_assoc, take_append_drop]
    have hmono : blocks (L ++ p.take n1).length ≤ blocks (L ++ p).length := by
      rw [hsplit]
      exact blocks_le (by simp)
    have hneed := hpiece.blocks_append hL
    refine wp_seq (blockFor_spec h hL.alloc hfbn (by omega)) (fun r b1 hr => ?_)
    obtain ⟨hf, hcount, hother, hind⟩ := hr
    have hlt : r.2 < fssize := hf.found ▸ hf.laid.slot_lt (hf.found ▸ hf.used)
    have hlow : superblock.nmeta ≤ r.2 := hf.found ▸ hf.laid.le_slot (hf.found ▸ hf.used)
    simp only [rsect, wsect, wp_bind]
    rw [if_neg (not_le.mpr hlt)]
    simp only [wp_bind, wp_get, wp_pure, wp_modify]
    rw [← Build.data_disk hf.laid.sb hlow]
    have hstep := hf.write hpiece hL hcount hother hind
    have hlen1 : L.length + n1 = (L ++ p.take n1).length := by
      rw [length_append, length_take]
      omega
    have hc1 := hstep.count
    rw [hlen1]
    refine wp_post (ih _ r.1 (L ++ p.take n1) (p.drop n1) ?_ hstep.laid hstep.holds ?_ ?_)
      (fun r' b2 hr' => ?_)
    · rw [List.length_drop]
      omega
    · exact hsplit ▸ hmax
    · rw [← hsplit]
      omega
    · refine ⟨by rw [hr'.1, ← hsplit], ?_⟩
      have happ := hstep.trans hr'.2
      rwa [take_append_drop] at happ

end Xv6.Mkfs
