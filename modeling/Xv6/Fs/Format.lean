import Xv6.Fs.State
import Xv6.Lib.LittleEndian

/-! The disk in bytes. The kernel finds the superblock in block 1, an inode in a slot of a block of
the inode area, and the bit of a block in the free map; numbers are stored with the lowest byte
first. -/
namespace Xv6
open LittleEndian Function List

namespace FileType

def code : FileType → ℕ
  | free => 0
  | dir => 1
  | file => 2
  | device => 3

/-- No other numbers are stored on disk. -/
def ofCode : ℕ → FileType
  | 0 => free
  | 1 => dir
  | 2 => file
  | _ => device

end FileType

namespace Dinode

/-- The inode stored in the first `sizeof(struct dinode)` bytes of `f`. -/
def ofBytes (f : ℕ → UInt8) : Dinode where
  type := .ofCode (word f 2)
  major := toShort (word (fun k => f (2 + k)) 2)
  minor := toShort (word (fun k => f (4 + k)) 2)
  nlink := toShort (word (fun k => f (6 + k)) 2)
  size := word (fun k => f (8 + k)) 4
  addrs j := word (fun k => f (12 + 4 * j + k)) 4

/-- The fields of type `short`, as numbers of 16 bits. -/
def shorts (d : Dinode) : List ℕ :=
  [d.type.code, (d.major % 65536).toNat, (d.minor % 65536).toNat, (d.nlink % 65536).toNat]

def uints (d : Dinode) : List ℕ := d.size :: ofFn d.addrs

def bytes (d : Dinode) : List UInt8 :=
  (d.shorts.flatMap fun x => LittleEndian.bytes x 2) ++
    d.uints.flatMap fun x => LittleEndian.bytes x 4

/-- The fields have values of their types. -/
structure InRange (d : Dinode) : Prop where
  major : toShort d.major = d.major
  minor : toShort d.minor = d.minor
  nlink : toShort d.nlink = d.nlink
  size : d.size < 2 ^ 32
  addrs : ∀ j, d.addrs j < 2 ^ 32

variable {d : Dinode} {f g : ℕ → UInt8}

private theorem word_shorts {i o : ℕ} (hi : i < 4) (ho : o = 2 * i) :
    word (fun k => d.bytes.getD (o + k) 0) 2 = d.shorts.getD i 0 % 256 ^ 2 := by
  rw [← word_byte]
  refine word_congr fun k hk => ?_
  have hlen := length_words d.shorts 2
  have hlt : 2 * i + k < (d.shorts.flatMap fun x => LittleEndian.bytes x 2).length := by
    rw [hlen]
    simp only [shorts, length_cons, length_nil]
    omega
  rw [ho, bytes, getD_append _ _ _ _ hlt, getD_words _ (by simpa [shorts] using hi) hk]

private theorem word_uints {i o : ℕ} (hi : i < ndirect + 2) (ho : o = 8 + 4 * i) :
    word (fun k => d.bytes.getD (o + k) 0) 4 = d.uints.getD i 0 % 256 ^ 4 := by
  rw [← word_byte]
  refine word_congr fun k hk => ?_
  have hlen : (d.shorts.flatMap fun x => LittleEndian.bytes x 2).length = 8 := length_words _ 2
  rw [ho, bytes, getD_append_right _ _ _ _ (by rw [hlen]; omega), hlen,
    show 8 + 4 * i + k - 8 = 4 * i + k by omega, getD_words _ (by simpa [uints] using hi) hk]

theorem toShort_toNat (x : ℤ) : toShort (((x % 65536).toNat % 256 ^ 2 : ℕ) : ℤ) = toShort x := by
  have hx : (((x % 65536).toNat % 256 ^ 2 : ℕ) : ℤ) = x % (65536 : ℕ) := by omega
  rw [hx, toShort, toShort, Int.emod_bmod]

theorem ofBytes_bytes (h : d.InRange) : ofBytes (fun o => d.bytes.getD o 0) = d := by
  have htype : word (fun o => d.bytes.getD o 0) 2 = d.type.code := by
    have hw := word_shorts (d := d) (i := 0) (o := 0) (by decide) rfl
    simp only [Nat.zero_add] at hw
    rw [hw]
    cases ht : d.type <;> simp [shorts, ht, FileType.code]
  have hshort i o x (hi : i < 4) (ho : o = 2 * i) (hx : d.shorts.getD i 0 = (x % 65536).toNat)
      (hr : toShort x = x) : toShort (word (fun k => d.bytes.getD (o + k) 0) 2 : ℕ) = x := by
    rw [word_shorts hi ho, hx, toShort_toNat, hr]
  have haddrs j : word (fun k => d.bytes.getD (12 + 4 * j.val + k) 0) 4 = d.addrs j := by
    have hget : d.uints.getD (j + 1) 0 = d.addrs j := by
      rw [uints, getD_cons_succ, getD_eq_getElem _ _ (by rw [length_ofFn]; exact j.isLt),
        List.getElem_ofFn]
    rw [word_uints (i := j + 1) (by omega) (by omega), hget]
    exact Nat.mod_eq_of_lt (h.addrs j)
  obtain ⟨t, ma, mi, nl, sz, ad⟩ := d
  simp only [ofBytes, Dinode.mk.injEq]
  refine ⟨?_, hshort 1 2 ma (by decide) rfl rfl h.major, hshort 2 4 mi (by decide) rfl rfl h.minor,
    hshort 3 6 nl (by decide) rfl rfl h.nlink, ?_, funext haddrs⟩
  · rw [htype]
    cases t <;> rfl
  · rw [word_uints (i := 0) (by decide) rfl]
    exact Nat.mod_eq_of_lt h.size

theorem ofBytes_congr (h : ∀ o < dinodeBytes, f o = g o) : ofBytes f = ofBytes g := by
  have hw o n (ho : o + n ≤ dinodeBytes) :
      word (fun k => f (o + k)) n = word (fun k => g (o + k)) n :=
    word_congr fun k hk => h _ (by omega)
  have h0 := hw 0 2 (by decide)
  simp only [Nat.zero_add] at h0
  unfold ofBytes
  rw [h0, hw 2 2 (by decide), hw 4 2 (by decide), hw 6 2 (by decide), hw 8 4 (by decide)]
  congr
  funext j
  have hj := j.isLt
  exact hw _ 4 (by simp only [ndirect, dinodeBytes] at *; omega)

theorem inRange_ofBytes (f : ℕ → UInt8) : (ofBytes f).InRange := by
  have hs x : toShort (toShort x) = toShort x := by
    unfold toShort
    exact Int.bmod_bmod
  have hlt g : word g 4 < 2 ^ 32 := (word_lt 4).trans_eq (by norm_num)
  constructor <;> simp only [ofBytes, hs, hlt, implies_true]

end Dinode

namespace Block
variable {b : Block} {s s' : ℕ} {d : Dinode}

def dinode (b : Block) (s : ℕ) : Dinode := .ofBytes fun o => b.byte (dinodeBytes * s + o)

def setDinode (b : Block) (s : ℕ) (d : Dinode) : Block :=
  .ofBytes fun k => if k / dinodeBytes = s then d.bytes.getD (k % dinodeBytes) 0 else b.byte k

theorem dinode_setDinode (hs' : s' < ipb) (hd : d.InRange) :
    (b.setDinode s d).dinode s' = if s' = s then d else b.dinode s' := by
  have hbyte o (ho : o < dinodeBytes) : (b.setDinode s d).byte (dinodeBytes * s' + o) =
      if s' = s then d.bytes.getD o 0 else b.byte (dinodeBytes * s' + o) := by
    have hlt : dinodeBytes * s' + o < bsize := by
      simp only [ipb, bsize, dinodeBytes] at *
      omega
    rw [setDinode, byte_ofBytes hlt, Nat.mul_add_div (by decide), Nat.div_eq_of_lt ho, Nat.add_zero,
      Nat.mul_add_mod, Nat.mod_eq_of_lt ho]
  unfold dinode
  rw [Dinode.ofBytes_congr hbyte]
  split
  · exact Dinode.ofBytes_bytes hd
  · rfl

/-- Bit `k`, as `balloc` tests it: `data[k/8] & (1 << (k%8))`. -/
def bit (b : Block) (k : ℕ) : Bool := (b.byte (k / 8)).toNat.testBit (k % 8)

end Block

namespace Fs

def readsb (d : Disk) : Superblock :=
  ⟨(d 1).word 0, (d 1).word 1, (d 1).word 2, (d 1).word 3, (d 1).word 4, (d 1).word 5, (d 1).word 6,
    (d 1).word 7⟩

def Superblock.mapArea (sb : Superblock) : ℕ := (sb.nmeta - sb.bmapstart) * bpb

/-- The areas of the disk as the kernel reads them. -/
def volume (d : Disk) : Volume where
  sb := readsb d
  bitmap b := decide (b < (readsb d).mapArea) && (d ((readsb d).bblock b)).bit (b % bpb)
  dinode i := if i < (readsb d).inodeArea then (d ((readsb d).iblock i)).dinode (i % ipb)
    else .fresh .free
  data b := if b < (readsb d).nmeta then .zero else d b

/-- `fsinit`: the disk is refused if the magic number is wrong. -/
def fsinit (d : Disk) : Option Volume :=
  if (readsb d).magic = fsmagic then some (volume d) else none

/-- The areas follow each other: superblock, inodes, free map, data. -/
structure Superblock.Arranged (sb : Superblock) : Prop where
  super : 1 < sb.inodestart
  inodes : sb.inodestart ≤ sb.bmapstart
  map : sb.bmapstart ≤ sb.nmeta

variable {d : Disk} {i b : ℕ} {x : Dinode} {y : Block}

theorem inRange_dinode (d : Disk) (i : ℕ) : ((volume d).dinode i).InRange := by
  simp only [volume]
  split
  · exact Dinode.inRange_ofBytes _
  · exact ⟨by decide, by decide, by decide, by decide, fun _ => by simp⟩

theorem data_volume_of_lt (hb : b < (readsb d).nmeta) : (volume d).data b = .zero := if_pos hb

theorem data_volume (hb : (readsb d).nmeta ≤ b) : (volume d).data b = d b := if_neg (not_lt.mpr hb)

theorem Superblock.iblock_lt {sb : Superblock} (hi : i < sb.inodeArea) :
    sb.iblock i < sb.bmapstart := by
  unfold Superblock.inodeArea at hi
  have hdiv : i / ipb < sb.bmapstart - sb.inodestart := Nat.div_lt_of_lt_mul (Nat.mul_comm _ _ ▸ hi)
  unfold Superblock.iblock
  generalize i / ipb = k at *
  omega

theorem Superblock.bblock_lt {sb : Superblock} (hb : b < sb.mapArea) : sb.bblock b < sb.nmeta := by
  unfold Superblock.mapArea at hb
  have hdiv : b / bpb < sb.nmeta - sb.bmapstart := Nat.div_lt_of_lt_mul (Nat.mul_comm _ _ ▸ hb)
  unfold Superblock.bblock
  generalize b / bpb = k at *
  omega

private theorem readsb_update (hb : b ≠ 1) : readsb (update d b y) = readsb d := by
  simp only [readsb, update_of_ne hb.symm]

section
variable (h : (readsb d).Arranged)
include h

theorem volume_setData (hb : (readsb d).nmeta ≤ b) :
    volume (update d b y) = (volume d).setData b y := by
  have hsuper := h.super
  have hinodes := h.inodes
  have hmap := h.map
  have hsb := readsb_update (d := d) (y := y) (show b ≠ 1 by omega)
  simp only [volume, hsb, Volume.setData, Volume.mk.injEq, true_and]
  refine ⟨funext fun c => ?_, funext fun i => ?_, funext fun c => ?_⟩
  · by_cases hc : c < (readsb d).mapArea
    · have := Superblock.bblock_lt hc
      rw [update_of_ne (by omega)]
    · simp [hc]
  · split
    next hi =>
      have := Superblock.iblock_lt hi
      rw [update_of_ne (by omega)]
    · rfl
  · obtain rfl | hc := eq_or_ne c b
    · rw [update_self, update_self, if_neg (by omega)]
    · rw [update_of_ne hc, update_of_ne hc]

/-- An inode is written where the kernel reads it. -/
theorem volume_setDinode (hi : i < (readsb d).inodeArea) (hx : x.InRange) :
    volume (update d ((readsb d).iblock i) ((d ((readsb d).iblock i)).setDinode (i % ipb) x)) =
      (volume d).setDinode i x := by
  have hlt := Superblock.iblock_lt hi
  have hsuper := h.super
  have hmap := h.map
  have hge : (readsb d).inodestart ≤ (readsb d).iblock i := Nat.le_add_left _ _
  have hsb := readsb_update (d := d)
    (y := (d ((readsb d).iblock i)).setDinode (i % ipb) x) (show (readsb d).iblock i ≠ 1 by omega)
  simp only [volume, hsb, Volume.setDinode, Volume.mk.injEq, true_and]
  refine ⟨funext fun c => ?_, funext fun j => ?_, funext fun c => ?_⟩
  · have : (readsb d).bmapstart ≤ (readsb d).bblock c := Nat.le_add_left _ _
    rw [update_of_ne (by omega)]
  · by_cases hj : (readsb d).iblock j = (readsb d).iblock i
    · have hdiv : j / ipb = i / ipb := Nat.add_right_cancel hj
      rw [hj, update_self, Block.dinode_setDinode (Nat.mod_lt _ (by decide)) hx]
      have hslot : j % ipb = i % ipb ↔ j = i := by
        have h1 := Nat.div_add_mod j ipb
        have h2 := Nat.div_add_mod i ipb
        rw [hdiv] at h1
        omega
      obtain rfl | hji := eq_or_ne j i
      · rw [if_pos rfl, if_pos hi, update_self]
      · rw [if_neg (mt hslot.mp hji), update_of_ne hji, hj]
    · have hji : j ≠ i := by
        rintro rfl
        exact hj rfl
      rw [update_of_ne hj, update_of_ne hji]
  · split
    · rfl
    · rw [update_of_ne (by omega)]

/-- The block of a free map that has only one. -/
theorem volume_setMap (hone : (readsb d).nmeta = (readsb d).bmapstart + 1) :
    volume (update d (readsb d).bmapstart y) =
      { volume d with bitmap := fun b => decide (b < bpb) && y.bit b } := by
  have hsuper := h.super
  have hinodes := h.inodes
  have hsb := readsb_update (d := d) (y := y) (show (readsb d).bmapstart ≠ 1 by omega)
  have harea : (readsb d).mapArea = bpb := by
    rw [Superblock.mapArea, hone, Nat.add_sub_cancel_left, Nat.one_mul]
  simp only [volume, hsb, Volume.mk.injEq, true_and, harea]
  refine ⟨funext fun c => ?_, funext fun i => ?_, funext fun c => ?_⟩
  · by_cases hc : c < bpb
    · rw [Superblock.bblock, Nat.div_eq_of_lt hc, Nat.zero_add, update_self, Nat.mod_eq_of_lt hc]
    · simp [hc]
  · split
    next hi =>
      have := Superblock.iblock_lt hi
      rw [update_of_ne (by omega)]
    · rfl
  · split
    · rfl
    · rw [update_of_ne (by omega)]

end

end Fs
end Xv6
