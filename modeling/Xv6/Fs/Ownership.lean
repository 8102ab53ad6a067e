import Xv6.Fs.Inode
import Xv6.Lib.Owned

/-! Who owns the blocks of a disk. The slots of an inode are its direct addresses, its indirect
address and the entries of its indirect block; on a sound disk every data block in use is in
exactly one slot of an allocated inode. -/
namespace Xv6.Fs
open Ownership

/-- The block number in slot `k`; zero if the slot is empty. -/
def slotOf (data : ℕ → Block) (d : Dinode) (k : ℕ) : ℕ :=
  if k ≤ ndirect then d.addr k
  else if d.addr ndirect = 0 then 0
  else if k < ndirect + 1 + nindirect then (data (d.addr ndirect)).word (k - (ndirect + 1))
  else 0

def dataSlot (bn : ℕ) : ℕ := if bn < ndirect then bn else bn + 1

namespace Volume
variable {v v' : Volume}

def Allocated (v : Volume) (i : ℕ) : Prop := i < v.sb.inodeArea ∧ (v.dinode i).type ≠ .free

instance (v : Volume) (i : ℕ) : Decidable (v.Allocated i) := by
  unfold Allocated
  infer_instance

def slot (v : Volume) (i k : ℕ) : ℕ := if v.Allocated i then slotOf v.data (v.dinode i) k else 0

def Live (v : Volume) (b : ℕ) : Prop := v.sb.nmeta ≤ b ∧ b < v.sb.size ∧ v.bitmap b = true

structure Sound (v : Volume) : Prop where
  small : v.sb.size ≤ 2 ^ 32
  reserve : 0 < v.sb.nmeta
  area : v.sb.ninodes ≤ v.sb.inodeArea
  reserved : ∀ b, b < v.sb.nmeta → v.bitmap b = true
  owned : Owned 0 v.Live fun x : ℕ × ℕ => v.slot x.1 x.2

/-- Every block of a file below its size has an address. -/
def NoHole (v : Volume) : Prop :=
  ∀ i bn, v.Allocated i → bn * bsize < (v.dinode i).size → v.slot i (dataSlot bn) ≠ 0

variable {i k j b : ℕ} {d : Dinode}

theorem slot_of_allocated (h : v.Allocated i) (k : ℕ) :
    v.slot i k = slotOf v.data (v.dinode i) k := if_pos h

theorem slot_of_not_allocated (h : ¬ v.Allocated i) (k : ℕ) : v.slot i k = 0 := if_neg h

theorem allocated_of_slot (h : v.slot i k ≠ 0) : v.Allocated i := by
  by_contra hn
  exact h (slot_of_not_allocated hn k)

theorem slot_le (h : v.Allocated i) (hk : k ≤ ndirect) : v.slot i k = (v.dinode i).addr k := by
  rw [slot_of_allocated h, slotOf, if_pos hk]

theorem slot_entry (h : v.Allocated i) (ha : (v.dinode i).addr ndirect ≠ 0) (hj : j < nindirect) :
    v.slot i (ndirect + 1 + j) = (v.data ((v.dinode i).addr ndirect)).word j := by
  rw [slot_of_allocated h, slotOf, if_neg (by omega), if_neg ha, if_pos (by omega)]
  congr 1
  omega

theorem slot_of_le (hk : ndirect + 1 + nindirect ≤ k) : v.slot i k = 0 := by
  by_cases h : v.Allocated i
  · rw [slot_of_allocated h, slotOf, if_neg (by omega)]
    split
    · rfl
    · rw [if_neg (by omega)]
  · exact slot_of_not_allocated h k

structure SameAt (j : ℕ) (v v' : Volume) : Prop where
  dinode : v'.dinode j = v.dinode j
  slot : ∀ k, v'.slot j k = v.slot j k
  data : ∀ k, v.slot j k ≠ 0 → k ≠ ndirect → v'.data (v.slot j k) = v.data (v.slot j k)

theorem SameAt.refl (j : ℕ) (v : Volume) : SameAt j v v :=
  ⟨rfl, fun _ => rfl, fun _ _ _ => rfl⟩

theorem SameAt.trans {w : Volume} (h : SameAt j v v') (h' : SameAt j v' w) : SameAt j v w where
  dinode := h'.dinode.trans h.dinode
  slot k := (h'.slot k).trans (h.slot k)
  data k hk hn := by
    have hd := h'.data k (by rwa [h.slot k]) hn
    rw [h.slot k] at hd
    exact hd.trans (h.data k hk hn)

theorem SameAt.allocated_iff (h : SameAt j v v') (hsb : v'.sb = v.sb) :
    v'.Allocated j ↔ v.Allocated j := by
  rw [Allocated, Allocated, hsb, h.dinode]

theorem NoHole.of_same (h : v.NoHole) (hsb : v'.sb = v.sb) (hsame : ∀ j ≠ i, SameAt j v v')
    (hi : ∀ bn, bn * bsize < (v'.dinode i).size → v'.slot i (dataSlot bn) ≠ 0) : v'.NoHole := by
  intro j bn hj hlt
  obtain rfl | hji := eq_or_ne j i
  · exact hi bn hlt
  · have hs := hsame j hji
    rw [hs.slot]
    exact h j bn ((hs.allocated_iff hsb).mp hj) (hs.dinode ▸ hlt)

theorem slot_congr (v v' : Volume) (hsb : v'.sb = v.sb) (hd : v'.dinode i = v.dinode i)
    (hdata : v.slot i ndirect ≠ 0 → v'.data (v.slot i ndirect) = v.data (v.slot i ndirect))
    (k : ℕ) : v'.slot i k = v.slot i k := by
  have ha : v'.Allocated i ↔ v.Allocated i := by rw [Allocated, Allocated, hsb, hd]
  by_cases h : v.Allocated i
  · rw [slot_of_allocated h, slot_of_allocated (ha.mpr h), hd]
    rw [slot_le h le_rfl] at hdata
    unfold slotOf
    by_cases hz : (v.dinode i).addr ndirect = 0
    · simp [hz]
    · rw [hdata hz]
  · rw [slot_of_not_allocated h, slot_of_not_allocated (mt ha.mp h)]

namespace Sound
variable (h : v.Sound)
include h

theorem ne_zero_of_live (hb : v.Live b) : b ≠ 0 := by
  have := h.reserve
  have := hb.1
  omega

theorem live_of_slot (hk : v.slot i k ≠ 0) : v.Live (v.slot i k) :=
  h.owned.live_slot (i, k) hk

theorem slot_inj {l : ℕ} (hk : v.slot i k ≠ 0) (he : v.slot i k = v.slot j l) : i = j ∧ k = l := by
  have := h.owned.inj (i, k) (j, l) hk he
  exact ⟨congrArg Prod.fst this, congrArg Prod.snd this⟩

section
variable (hb : v.bitmap b = false)
include hb

theorem slot_ne_of_free (hn : b ≠ 0) (i k : ℕ) : v.slot i k ≠ b := by
  refine h.owned.slot_ne (fun hl => ?_) hn (i, k)
  rw [hl.2.2] at hb
  cases hb

theorem nmeta_le_of_free : v.sb.nmeta ≤ b := by
  by_contra hlt
  rw [h.reserved b (by omega)] at hb
  cases hb

theorem ne_zero_of_free : b ≠ 0 := by
  have h1 := h.reserve
  have h2 := h.nmeta_le_of_free hb
  omega

end

theorem claim (v' : Volume) (hb : v.bitmap b = false) (hlt : b < v.sb.size)
    (hk : v.slot i k = 0) (hsb : v'.sb = v.sb) (hbit : v'.bitmap = Function.update v.bitmap b true)
    (hself : v'.slot i k = b) (hother : ∀ j l, ¬ (j = i ∧ l = k) → v'.slot j l = v.slot j l) :
    v'.Sound := by
  have hmeta := h.nmeta_le_of_free hb
  have hn : b ≠ 0 := by
    have := h.reserve
    omega
  have hnot : ¬ v.Live b := fun hl => by
    rw [hl.2.2] at hb
    cases hb
  refine ⟨by rw [hsb]; exact h.small, by rw [hsb]; exact h.reserve, by rw [hsb]; exact h.area,
    ?_, ?_⟩
  · intro c hc
    rw [hbit, hsb] at *
    by_cases hcb : c = b
    · rw [hcb, Function.update_self]
    · rw [Function.update_of_ne hcb]
      exact h.reserved c hc
  · apply h.owned.claim (x := (i, k)) hk hnot hn hself
    · rintro ⟨j, l⟩ hne
      apply hother
      rintro ⟨rfl, rfl⟩
      exact hne rfl
    · intro c
      unfold Live
      rw [hsb, hbit]
      obtain rfl | hcb := eq_or_ne c b
      · simp [hmeta, hlt]
      · simp [hcb]

theorem of_slots (v' : Volume) (hsb : v'.sb = v.sb) (hbit : v'.bitmap = v.bitmap)
    (hslot : ∀ j l, v'.slot j l = v.slot j l) : v'.Sound := by
  refine ⟨by rw [hsb]; exact h.small, by rw [hsb]; exact h.reserve, by rw [hsb]; exact h.area,
    by rw [hsb, hbit]; exact h.reserved, ?_⟩
  apply h.owned.congr
  · intro b
    unfold Live
    rw [hsb, hbit]
  · exact fun x => hslot x.1 x.2

end Sound

/-- `balloc` and the assignment `ip->addrs[k] = b`. -/
def claimAddr (v : Volume) (i k b : ℕ) : Volume :=
  ((v.setBit b true).setData b .zero).setDinode i ((v.dinode i).setAddr k b)

/-- `balloc` and the assignment `a[j] = b` in the indirect block. -/
def claimEntry (v : Volume) (i j b : ℕ) : Volume :=
  ((v.setBit b true).setData b .zero).setData ((v.dinode i).addr ndirect)
    ((v.data ((v.dinode i).addr ndirect)).setWord j b)

theorem slot_claimAddr (h : v.Sound) (hi : v.Allocated i) (hk : k ≤ ndirect)
    (hz : v.slot i k = 0) (hb : v.bitmap b = false) (hn : b ≠ 0) (j l : ℕ) :
    (v.claimAddr i k b).slot j l = if j = i ∧ l = k then b else v.slot j l := by
  obtain rfl | hji := eq_or_ne j i
  · have halloc : (v.claimAddr j k b).Allocated j := by simpa [claimAddr, Allocated] using hi
    have hdin : (v.claimAddr j k b).dinode j = (v.dinode j).setAddr k b := by simp [claimAddr]
    by_cases hl : l ≤ ndirect
    · rw [slot_le halloc hl, hdin, Dinode.addr_setAddr _ (.inr hl), slot_le hi hl]
      simp
    rw [if_neg (by omega), slot_of_allocated hi, slot_of_allocated halloc, hdin]
    unfold slotOf
    rw [if_neg hl, if_neg hl, Dinode.addr_setAddr _ (.inr le_rfl)]
    obtain rfl | hkn := eq_or_ne ndirect k
    · rw [slot_le hi le_rfl] at hz
      simp [hz, hn, claimAddr]
    · have hne := h.slot_ne_of_free hb hn j ndirect
      rw [slot_le hi le_rfl] at hne
      simp [hkn, claimAddr, Function.update_of_ne hne]
  · rw [if_neg fun he => hji he.1]
    refine slot_congr v (v.claimAddr i k b) rfl ?_ ?_ l
    · simp [claimAddr, hji]
    · intro _
      simp [claimAddr, h.slot_ne_of_free hb hn j ndirect]

namespace Sound

theorem claimAddr (h : v.Sound) (hi : v.Allocated i) (hk : k ≤ ndirect) (hz : v.slot i k = 0)
    (hb : v.bitmap b = false) (hlt : b < v.sb.size) : (v.claimAddr i k b).Sound := by
  have hn : b ≠ 0 := by
    have := h.reserve
    have := h.nmeta_le_of_free hb
    omega
  have hslot := slot_claimAddr h hi hk hz hb hn
  apply h.claim (v.claimAddr i k b) hb hlt hz rfl rfl
  · rw [hslot, if_pos ⟨rfl, rfl⟩]
  · intro j l hne
    rw [hslot, if_neg hne]

end Sound

theorem slot_claimEntry (h : v.Sound) {e : ℕ} (hi : v.Allocated i) (he : e < nindirect)
    (ha : (v.dinode i).addr ndirect ≠ 0) (hz : v.slot i (ndirect + 1 + e) = 0)
    (hb : v.bitmap b = false) (hlt : b < v.sb.size) (j l : ℕ) :
    (v.claimEntry i e b).slot j l = if j = i ∧ l = ndirect + 1 + e then b else v.slot j l := by
  have hn : b ≠ 0 := by
    have := h.reserve
    have := h.nmeta_le_of_free hb
    omega
  have haddr := slot_le hi (le_refl ndirect)
  have hne : (v.dinode i).addr ndirect ≠ b := by
    rw [← haddr]
    exact h.slot_ne_of_free hb hn i ndirect
  obtain rfl | hji := eq_or_ne j i
  · have halloc : (v.claimEntry j e b).Allocated j := hi
    have hdin : (v.claimEntry j e b).dinode j = v.dinode j := rfl
    have hdata : (v.claimEntry j e b).data ((v.dinode j).addr ndirect) =
        (v.data ((v.dinode j).addr ndirect)).setWord e b := by simp [claimEntry]
    rw [slot_of_allocated halloc, slot_of_allocated hi, hdin]
    unfold slotOf
    by_cases hl : l ≤ ndirect
    · rw [if_pos hl, if_pos hl, if_neg (by omega)]
    rw [if_neg hl, if_neg hl, if_neg ha, if_neg ha, hdata]
    by_cases hlt' : l < ndirect + 1 + nindirect
    · rw [if_pos hlt', if_pos hlt']
      by_cases hle : l = ndirect + 1 + e
      · subst hle
        rw [if_pos ⟨rfl, rfl⟩, Nat.add_sub_cancel_left]
        exact Block.word_setWord_self he (hlt.trans_le h.small)
      · rw [if_neg fun hc => hle hc.2]
        exact Block.word_setWord_ne (by omega) (by omega)
    · rw [if_neg hlt', if_neg hlt', if_neg (by omega)]
  · rw [if_neg fun hc => hji hc.1]
    refine slot_congr v (v.claimEntry i e b) rfl rfl ?_ l
    intro hj
    have hj1 : v.slot j ndirect ≠ (v.dinode i).addr ndirect := by
      rw [← haddr]
      exact fun hc => hji (h.slot_inj hj hc).1
    simp [claimEntry, hj1, h.slot_ne_of_free hb hn j ndirect]

namespace Sound

theorem claimEntry (h : v.Sound) {e : ℕ} (hi : v.Allocated i) (he : e < nindirect)
    (ha : (v.dinode i).addr ndirect ≠ 0) (hz : v.slot i (ndirect + 1 + e) = 0)
    (hb : v.bitmap b = false) (hlt : b < v.sb.size) : (v.claimEntry i e b).Sound := by
  have hslot := slot_claimEntry h hi he ha hz hb hlt
  apply h.claim (v.claimEntry i e b) hb hlt hz rfl rfl
  · rw [hslot, if_pos ⟨rfl, rfl⟩]
  · intro j l hne
    rw [hslot, if_neg hne]

variable (h : v.Sound) (hk : k ≠ ndirect) (x : Block)
include h hk x

theorem slot_setData (j l : ℕ) : (v.setData (v.slot i k) x).slot j l = v.slot j l := by
  refine slot_congr v (v.setData (v.slot i k) x) rfl rfl ?_ l
  intro hj
  have hne : v.slot j ndirect ≠ v.slot i k := fun hc => hk (h.slot_inj hj hc).2.symm
  simp [hne]

theorem setData : (v.setData (v.slot i k) x).Sound :=
  h.of_slots (v.setData (v.slot i k) x) rfl rfl (h.slot_setData hk x)

end Sound

theorem slot_setDinode (hi : v.Allocated i) (ht : d.type ≠ .free)
    (ha : d.addrs = (v.dinode i).addrs) (j l : ℕ) : (v.setDinode i d).slot j l = v.slot j l := by
  obtain rfl | hji := eq_or_ne j i
  · have halloc : (v.setDinode j d).Allocated j := by simp [Allocated, hi.1, ht]
    rw [slot_of_allocated hi, slot_of_allocated halloc]
    simp [slotOf, Dinode.addr, ha]
  · exact slot_congr v (v.setDinode i d) rfl (by simp [hji]) (fun _ => rfl) l

theorem slot_setDinode_empty (hd : d.type = .free ∨ ∀ k, d.addrs k = 0)
    (j l : ℕ) : (v.setDinode i d).slot j l = if j = i then 0 else v.slot j l := by
  obtain rfl | hji := eq_or_ne j i
  · rw [if_pos rfl]
    by_cases halloc : (v.setDinode j d).Allocated j
    · have ht : d.type ≠ .free := by simpa using halloc.2
      have ha : ∀ k, d.addrs k = 0 := hd.resolve_left ht
      rw [slot_of_allocated halloc]
      simp [slotOf, Dinode.addr, ha]
    · exact slot_of_not_allocated halloc l
  · rw [if_neg hji]
    exact slot_congr v (v.setDinode i d) rfl (by simp [hji]) (fun _ => rfl) l

namespace Sound

theorem setDinode (h : v.Sound) (hi : v.Allocated i) (ht : d.type ≠ .free)
    (ha : d.addrs = (v.dinode i).addrs) : (v.setDinode i d).Sound :=
  h.of_slots (v.setDinode i d) rfl rfl (slot_setDinode hi ht ha)

/-- An inode without blocks can be allocated, changed and freed. -/
theorem setDinode_empty (h : v.Sound) (hd : d.type = .free ∨ ∀ k, d.addrs k = 0)
    (hs : ∀ k, v.slot i k = 0) : (v.setDinode i d).Sound := by
  apply h.of_slots (v.setDinode i d) rfl rfl
  intro j l
  rw [slot_setDinode_empty hd]
  split
  next hji => rw [hji, hs]
  · rfl

theorem release (h : v.Sound) (v' : Volume) (S : ℕ → Prop) (hsb : v'.sb = v.sb)
    (hbit : ∀ b, v'.bitmap b = true ↔ v.bitmap b = true ∧ ∀ k, S k → v.slot i k = b → b = 0)
    (hself : ∀ k, S k → v'.slot i k = 0)
    (hother : ∀ j k, ¬ (j = i ∧ S k) → v'.slot j k = v.slot j k) : v'.Sound := by
  refine ⟨by rw [hsb]; exact h.small, by rw [hsb]; exact h.reserve, by rw [hsb]; exact h.area,
    ?_, ?_⟩
  · intro b hb
    rw [hsb] at hb
    refine (hbit b).mpr ⟨h.reserved b hb, fun k hk he => ?_⟩
    by_contra hn
    have := (h.live_of_slot (i := i) (k := k) (he ▸ hn)).1
    omega
  · apply h.owned.release (fun x => x.1 = i ∧ S x.2)
    · rintro ⟨j, k⟩ ⟨rfl, hk⟩
      exact hself k hk
    · exact fun x hx => hother x.1 x.2 hx
    intro b
    unfold Live
    rw [hsb, hbit]
    constructor
    · rintro ⟨h1, h2, h3, h4⟩
      refine ⟨⟨h1, h2, h3⟩, ?_⟩
      rintro ⟨j, k⟩ ⟨rfl, hk⟩ he
      exact h.ne_zero_of_live ⟨h1, h2, h3⟩ (h4 k hk he)
    · rintro ⟨⟨h1, h2, h3⟩, h4⟩
      exact ⟨h1, h2, h3, fun k hk he => absurd he (h4 (i, k) ⟨rfl, hk⟩)⟩

end Sound
end Volume
end Xv6.Fs
