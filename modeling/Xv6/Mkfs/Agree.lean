import Xv6.Fs.Calls
import Xv6.Mkfs.Layout

/-! The image as the kernel reads it: `dirlookup` finds the names of the files and no others, and
`readi` returns the bytes of the files. The size of the root directory is rounded up to the next
block, which has no address when the entries fill their blocks. -/
namespace Xv6.Mkfs
open Hoare Fs List
variable {P : Type} {E : Panic → Prop} {s t : State P} {v : Volume} {files : List Input} {fb : ℕ}
  {name L : List UInt8} {es : List (ℕ × List UInt8)}

theorem length_root (files : List Input) :
    (direntsOf (entries files)).length = direntBytes * (files.length + 2) := by
  rw [length_direntsOf, length_entries]

variable {i off m : ℕ} {e : ℕ × List UInt8}

namespace Formatted

/-- The entries fill their blocks: the size says that there is one more block. -/
theorem hole (h : Formatted v files fb) (hn : (files.length + 2) % 64 = 0) :
    (files.length + 2) / 64 * bsize < (v.dinode rootino).size ∧
      v.slot rootino (dataSlot ((files.length + 2) / 64)) = 0 := by
  constructor
  · rw [h.rootSize, length_root]
    simp only [direntBytes, bsize]
    omega
  · by_contra hne
    have hlt := (h.root.slot _).mp hne
    rw [length_root] at hlt
    simp only [direntBytes, bsize] at hlt
    omega

theorem noHole_iff (h : Formatted v files fb) : v.NoHole ↔ (files.length + 2) % 64 ≠ 0 := by
  refine ⟨fun hno hn => ?_, fun hn i bn ha hbn => ?_⟩
  · exact hno rootino _ h.root.alloc (h.hole hn).1 (h.hole hn).2
  match i with
  | 0 => exact absurd (congrArg Dinode.type (h.unused 0 (.inl rfl))) ha.2
  | 1 =>
    rw [h.rootSize, length_root] at hbn
    rw [h.root.slot, length_root]
    simp only [direntBytes, bsize] at hbn ⊢
    omega
  | k + 2 =>
    by_cases hk : k < files.length
    · obtain ⟨hL, hsize, _⟩ := h.file k (files.get ⟨k, hk⟩) (List.getElem?_eq_getElem hk)
      rw [hL.slot, ← hsize]
      exact hbn
    · exact absurd (congrArg Dinode.type (h.unused (k + 2) (.inr (by omega)))) ha.2

/-- Reading in a file without holes changes nothing, inside of a transaction or not. -/
theorem readi_unchanged (hv : v.NoHole) (hd : s.disk = v) (ha : v.Allocated i)
    (hdin : (s.inode i).din = v.dinode i) (dst : ℕ → Bool) (off n : ℕ) :
    wp (readi i dst off n) (fun _ t => t = s) E s := by
  subst hd
  refine wp_post (readi_of_slots hdin ha dst off n fun bn hbn => ?_) (fun _ _ hr => hr.1)
  exact hv i bn ha (by omega)

end Formatted

/-- No file of the image has a hole exactly if the entries of the root directory do not fill their
last block; the kernel then reads every file without allocating blocks. -/
theorem image_no_hole (files : List Input) (h : Fits files) :
    ∃ v, image files = .ok v ∧ (v.NoHole ↔ (files.length + 2) % 64 ≠ 0) ∧
      (v.NoHole → ∀ (P : Type) (s : State P) (i : ℕ) (dst : ℕ → Bool) (off n : ℕ), s.disk = v →
        v.Allocated i → (s.inode i).din = v.dinode i →
        wp (readi i dst off n) (fun _ t => t = s) (fun _ => False) s) := by
  obtain ⟨b, hb, hf⟩ := main_ok h
  refine ⟨b.disk, image_of_main hb, hf.noHole_iff, fun hv P s i dst off n hd ha hdin => ?_⟩
  exact Formatted.readi_unchanged hv hd ha hdin dst off n

/-- The files `user/_ls`, in two pieces, and `README`. -/
def twoFiles : List Input :=
  [⟨[117, 115, 101, 114, 47, 95, 108, 115], [[1, 2], [3]], by decide⟩,
    ⟨[82, 69, 65, 68, 77, 69], [[4, 5]], by decide⟩]

theorem fits_twoFiles : Fits twoFiles := by
  refine ⟨?_, ?_, ?_, ?_, ?_⟩ <;> decide +kernel

theorem image_no_hole_twoFiles : ∃ v, image twoFiles = .ok v ∧ v.NoHole ∧
    ∀ (s : State Unit) (off n : ℕ), s.disk = v → v.Allocated 2 → (s.inode 2).din = v.dinode 2 →
      wp (readi 2 (fun _ => true) off n) (fun _ t => t = s) (fun _ => False) s := by
  obtain ⟨v, hv, hiff, hread⟩ := image_no_hole twoFiles fits_twoFiles
  have hno := hiff.mpr (by decide)
  exact ⟨v, hv, hno, fun s off n => hread hno Unit s 2 _ off n⟩

/-- Whatever calls are made on a disk of `mkfs`, the marked blocks are those with one owner, no file
has a hole, and the references to inodes are exact. -/
theorem image_stays_sound (h : Fits files) (hn : (files.length + 2) % 64 ≠ 0) :
    ∃ v, image files = .ok v ∧ ∀ (P : Type) [DecidableEq P] [Fintype P] (p : P) cs s,
      Transition.run State.next (State.boot v p) cs = some s →
        s.disk.MarksOwned ∧ s.disk.NoHole ∧ Ledger s := by
  obtain ⟨b, hb, hf⟩ := main_ok h
  refine ⟨b.disk, image_of_main hb, fun P _ _ p cs s hr => ?_⟩
  have hs := sys_run hf.laid.sound (hf.noHole_iff.mpr hn) hr
  exact ⟨hs.consistent.sound.marksOwned, hs.consistent.noHole, hs.ledger⟩

/-- The image of the file `ls` alone: its bytes are in block 47, behind the root directory. -/
def oneFileVolume : Volume where
  sb := superblock
  bitmap x := x < 48
  dinode i := if i = 1 then ⟨.dir, 0, 0, 1, bsize, oneBlock 46⟩
    else if i = 2 then ⟨.file, 0, 0, 1, 3, oneBlock 47⟩ else .fresh .free
  data x := .ofBytes fun k =>
    if x = 46 then (direntsOf (entries (twoFiles.take 1))).getD k 0
    else if x = 47 then ([1, 2, 3] : List UInt8).getD k 0 else 0

theorem Holds.data_eq (h : Holds v i L) {a : ℕ} (ha : v.slot i (dataSlot 0) = a) :
    v.data a = .ofBytes fun k => L.getD k 0 := by
  funext k
  have hb := h.byte k
  rw [Volume.byte, Nat.div_eq_of_lt k.isLt, Nat.mod_eq_of_lt k.isLt, ha, Block.byte,
    dif_pos k.isLt] at hb
  exact hb

theorem fits_oneFile : Fits (twoFiles.take 1) := by
  refine ⟨?_, ?_, ?_, ?_, ?_⟩ <;> decide +kernel

theorem image_oneFile : image (twoFiles.take 1) = .ok oneFileVolume := by
  have hdin : ∃ v ∈ (image (twoFiles.take 1)).toOption, ∀ i : Fin 2,
      (v.dinode (i + 1)).type = (oneFileVolume.dinode (i + 1)).type ∧
      (v.dinode (i + 1)).major = 0 ∧ (v.dinode (i + 1)).minor = 0 ∧ (v.dinode (i + 1)).nlink = 1 ∧
      (v.dinode (i + 1)).size = (oneFileVolume.dinode (i + 1)).size ∧ ∀ k,
        (v.dinode (i + 1)).addrs k = (oneFileVolume.dinode (i + 1)).addrs k := by decide +kernel
  obtain ⟨b, hb, hf⟩ := main_ok fits_oneFile
  have himage := image_of_main hb
  rw [himage] at hdin ⊢
  obtain ⟨v, hmem, hdin⟩ := hdin
  obtain rfl : b.disk = v := Option.some.inj hmem
  have heq (i : Fin 2) : b.disk.dinode (i + 1) = oneFileVolume.dinode (i + 1) := by
    obtain ⟨ht, hma, hmi, hn, hsz, ha⟩ := hdin i
    refine Dinode.ext ht ?_ ?_ ?_ hsz (funext ha)
    all_goals fin_cases i <;> assumption
  have hcount : b.freeblock = 48 := hf.count.trans (by decide +kernel)
  have hslot {i : ℕ} {L : List UInt8} (h : Holds b.disk i L) :
      b.disk.slot i (dataSlot 0) = (b.disk.dinode i).addr 0 :=
    Volume.slot_le h.alloc (Nat.zero_le _)
  have hfile := (hf.file 0 _ rfl).1
  refine congrArg Except.ok (Volume.ext hf.laid.sb ?_ (funext fun i => ?_) (funext fun x => ?_))
  · rw [hf.laid.bitmap, hcount]
    rfl
  · match i with
    | 0 => exact hf.unused 0 (.inl rfl)
    | 1 => exact heq 0
    | 2 => exact heq 1
    | i + 3 => exact hf.unused (i + 3) (.inr (Nat.le_add_left 3 i))
  · by_cases h46 : x = 46
    · rw [h46]
      exact hf.root.data_eq (a := 46) ((hslot hf.root).trans (congrArg (Dinode.addr · 0) (heq 0)))
    by_cases h47 : x = 47
    · rw [h47]
      exact hfile.data_eq (a := 47) ((hslot hfile).trans (congrArg (Dinode.addr · 0) (heq 1)))
    have hzero : oneFileVolume.data x = .zero := by
      simp only [oneFileVolume, h46, h47, if_false]
      rfl
    rw [hzero]
    by_cases hlow : x < 46
    · exact data_volume_of_lt (show x < b.disk.sb.nmeta from hf.laid.sb ▸ hlow)
    · exact hf.laid.fresh x (by omega)

/-- On the image of `ls` a directory is made and the file is removed. -/
theorem image_stays_sound_oneFile : ∃ v, image (twoFiles.take 1) = .ok v ∧
    ∃ s, Transition.run State.next (State.boot v ())
      [.mkdir () (some [100]), .unlink () (some [108, 115])] = some s ∧
      (s.disk.dinode 3).type = .dir ∧ (s.disk.dinode 2).type = .free ∧
      s.disk.MarksOwned ∧ s.disk.NoHole ∧ Ledger s := by
  obtain ⟨v, hv, hs⟩ := image_stays_sound fits_oneFile (by decide)
  obtain rfl : oneFileVolume = v := Except.ok.inj (image_oneFile.symm.trans hv)
  have hrun : ∃ s ∈ Transition.run State.next (State.boot oneFileVolume ())
      [.mkdir () (some [100]), .unlink () (some [108, 115])],
      (s.disk.dinode 3).type = .dir ∧ (s.disk.dinode 2).type = .free := by decide +kernel
  obtain ⟨s, hr, h3, h2⟩ := hrun
  exact ⟨_, hv, s, hr, h3, h2, hs Unit () _ s hr⟩

def emptyInput (k : Fin 128) : Input where
  argv := [UInt8.ofNat (k + 97)]
  chunks := []
  nul := by
    revert k
    decide

def emptyFiles : List Input := (List.finRange 62).map fun k => emptyInput (k.castLE (by decide))

theorem fits_emptyFiles : Fits emptyFiles where
  slash := by decide
  short := by decide
  size := by decide
  inodes := by decide
  blocks := by decide +kernel

def rootState (v : Volume) : State Unit where
  disk := v
  inode := fun i => ⟨if i = rootino then 1 else 0, i = rootino, v.dinode rootino⟩
  used := 1
  file := fun _ => ⟨0, .none, false, false, 0, 0, 0⟩
  proc := fun _ => none
  inOp := false
  logged := []

/-- With 62 files, block 1 of the root directory has no address, and reading it panics. -/
theorem image_hole_emptyFiles : emptyFiles.length = 62 ∧ Fits emptyFiles ∧
    ∃ v, image emptyFiles = .ok v ∧ v.Allocated rootino ∧ 1 * bsize < (v.dinode rootino).size ∧
      v.slot rootino (dataSlot 1) = 0 ∧
      errorOf (readi rootino (fun _ => true) bsize 1) (rootState v) = some .logWrite := by
  have hv : ∃ v ∈ (image emptyFiles).toOption, v.Allocated rootino ∧
      1 * bsize < (v.dinode rootino).size ∧ v.slot rootino (dataSlot 1) = 0 ∧
      errorOf (readi rootino (fun _ => true) bsize 1) (rootState v) = some .logWrite := by
    decide +kernel
  obtain ⟨b, hb, _⟩ := main_ok fits_emptyFiles
  have himage := image_of_main hb
  rw [himage] at hv
  obtain ⟨v, hmem, h⟩ := hv
  obtain rfl : b.disk = v := Option.some.inj hmem
  exact ⟨by decide, fits_emptyFiles, b.disk, himage, h⟩

theorem strncmp_take (n : ℕ) : ∀ (m : ℕ) (p q : List UInt8), p.length ≤ n → q.length ≤ n →
    0 ∉ p → 0 ∉ q → (strncmp n p ((q ++ List.replicate m 0).take n) = true ↔ p = q) := by
  induction n with
  | zero =>
    intro m p q hp hq _ _
    rw [length_eq_zero_iff.mp (Nat.le_zero.mp hp), length_eq_zero_iff.mp (Nat.le_zero.mp hq)]
    simp [strncmp]
  | succ n ih =>
    intro m p q hp hq h0p h0q
    cases q with
    | nil =>
      have hz : ((([] : List UInt8) ++ List.replicate m 0).take (n + 1)).headD 0 = 0 := by
        cases m <;> rfl
      unfold strncmp
      rw [hz]
      cases p with
      | nil => simp
      | cons c cs =>
        have hc : c ≠ 0 := fun hc => h0p (hc ▸ (.head _))
        simp [hc]
    | cons d ds =>
      have hd : d ≠ 0 := fun hd => h0q (hd ▸ (.head _))
      unfold strncmp
      rw [cons_append, take_succ_cons, headD_cons, tail_cons]
      cases p with
      | nil => simp [hd.symm]
      | cons c cs =>
        rw [headD_cons, tail_cons]
        have hc : c ≠ 0 := fun hc => h0p (hc ▸ (.head _))
        by_cases hcd : c = d
        · rw [if_pos ⟨hc, hcd⟩, ih m cs ds (Nat.le_of_succ_le_succ hp) (Nat.le_of_succ_le_succ hq)
            (fun h => h0p (.tail c h)) fun h => h0q (.tail d h)]
          simp [hcd]
        · rw [if_neg fun h => hcd h.2]
          simp [hcd]

def IsName (name : List UInt8) : Prop := name.length ≤ dirsiz ∧ 0 ∉ name

theorem namecmp_strncpy {p q : List UInt8} (hp : IsName p) (hq : IsName q) :
    namecmp p (strncpy dirsiz q) = true ↔ p = q :=
  strncmp_take dirsiz dirsiz p q hp.1 hq.1 hp.2 hq.2

/-- The entries that `dirlookup` can tell apart. -/
def Proper (es : List (ℕ × List UInt8)) : Prop :=
  ∀ e ∈ es, 0 < e.1 ∧ e.1 < 65536 ∧ IsName e.2

theorem ofBytes_direntOf (hi : i < 65536) (name : List UInt8) :
    Dirent.ofBytes (direntOf i name) = ⟨i, strncpy dirsiz name⟩ := by
  have hlen := length_strncpy dirsiz name
  unfold direntOf Dirent.bytes Dirent.ofBytes
  congr 1
  · simp
    omega
  · simp [hlen]

def entryBytes (L : List UInt8) (off : ℕ) : List UInt8 :=
  (List.range direntBytes).map fun k => L.getD (off + k) 0

theorem entryBytes_eq (h : off + direntBytes ≤ L.length) :
    entryBytes L off = (L.drop off).take direntBytes := by
  apply ext_getElem
  · simp only [entryBytes, length_map, length_range, length_take, List.length_drop]
    omega
  · intro k h1 h2
    simp only [entryBytes, length_map, length_range] at h1
    simp [entryBytes, show off + k < L.length by omega]

theorem take_drop_direntsOf (h : es[m]? = some e) :
    ((direntsOf es).drop (direntBytes * m)).take direntBytes = direntOf e.1 e.2 := by
  induction es generalizing m with
  | nil => simp at h
  | cons x es ih =>
    have hcons : direntsOf (x :: es) = direntOf x.1 x.2 ++ direntsOf es := by simp [direntsOf]
    have hlen := length_direntOf x.1 x.2
    rw [hcons]
    cases m with
    | zero =>
      obtain rfl : x = e := by simpa using h
      rw [Nat.mul_zero, drop_zero, ← hlen, take_left]
    | succ m =>
      rw [List.getElem?_cons_succ] at h
      rw [show direntBytes * (m + 1) = (direntOf x.1 x.2).length + direntBytes * m by
        rw [hlen, Nat.mul_add]; omega, ← drop_drop, drop_left, ih h]

theorem entryBytes_direntsOf (h : es[m]? = some e) :
    entryBytes (direntsOf es) (direntBytes * m) = direntOf e.1 e.2 := by
  have hm : m < es.length := (List.getElem?_eq_some_iff.mp h).1
  rw [entryBytes_eq, take_drop_direntsOf h]
  rw [length_direntsOf, ← Nat.mul_succ]
  exact Nat.mul_le_mul_left _ hm

theorem inum_entryBytes_of_le (h : L.length ≤ off) :
    (Dirent.ofBytes (entryBytes L off)).inum = 0 := by
  have hz : ∀ k < direntBytes, (entryBytes L off).getD k 0 = 0 := by
    intro k hk
    have hd : L.getD (off + k) 0 = 0 := getD_eq_default _ _ (by omega)
    rw [getD_eq_getElem _ _ (by simpa [entryBytes] using hk)]
    simpa only [entryBytes, getElem_map, getElem_range] using hd
  unfold Dirent.ofBytes
  rw [hz 0 (by decide), hz 1 (by decide)]
  rfl

/-- The table entry of the root directory and its blocks show the bytes `L`, and zeros behind them
up to the size; a block without address lies behind them. -/
structure Shows (L : List UInt8) (s : State P) : Prop where
  boot : s.disk.bitmap 0 = true
  type : (s.inode rootino).din.type = .dir
  size : (s.inode rootino).din.size = (L.length / bsize + 1) * bsize
  direct : L.length / bsize < ndirect
  used : ∀ bn, bn < ndirect → (s.inode rootino).din.addr bn ≠ 0 →
    s.disk.bitmap ((s.inode rootino).din.addr bn) = true
  byte : ∀ bn k, bn < ndirect → (s.inode rootino).din.addr bn ≠ 0 → k < bsize →
    (s.disk.data ((s.inode rootino).din.addr bn)).byte k = L.getD (bn * bsize + k) 0
  present : ∀ bn, bn * bsize < L.length → (s.inode rootino).din.addr bn ≠ 0

theorem Shows.claim {b bn : ℕ} {l : List ℕ} (h : Shows L s) (hbn : bn < ndirect)
    (hz : (s.inode rootino).din.addr bn = 0) (hfree : s.disk.bitmap b = false) :
    Shows L (((s.setDisk ((s.disk.setBit b true).setData b .zero)).relog l).setDin rootino
      ((s.inode rootino).din.setAddr bn b)) := by
  have haddr (j : ℕ) := (s.inode rootino).din.addr_setAddr (a := b) (j := j) (.inl hbn.le)
  have hne : ∀ j < ndirect, (s.inode rootino).din.addr j ≠ 0 →
      (s.inode rootino).din.addr j ≠ b := by
    intro j hj h0 hc
    have hu := h.used j hj h0
    rw [hc, hfree] at hu
    cases hu
  have hend : L.length ≤ bn * bsize := by
    by_contra hc
    exact h.present bn (not_le.mp hc) hz
  have hb0 : 0 ≠ b := by
    rintro rfl
    rw [h.boot] at hfree
    cases hfree
  refine ⟨by simpa [hb0] using h.boot, by simpa using h.type, by simpa using h.size, h.direct,
    fun j hj h0 => ?_, fun j k hj h0 hk => ?_, fun j hj => ?_⟩
  · simp only [State.setDin_inode, Function.update_self, haddr] at h0 ⊢
    by_cases hjb : j = bn
    · simp [hjb]
    · rw [if_neg hjb] at h0 ⊢
      simp [hne j hj h0, h.used j hj h0]
  · simp only [State.setDin_inode, Function.update_self, haddr] at h0 ⊢
    by_cases hjb : j = bn
    · rw [if_pos hjb, hjb, getD_eq_default _ _ (hend.trans (Nat.le_add_right _ k))]
      simp
    · rw [if_neg hjb] at h0 ⊢
      simpa [hne j hj h0] using h.byte j k hj h0 hk
  · simp only [State.setDin_inode, Function.update_self, haddr]
    have hjb : j ≠ bn := by
      rintro rfl
      omega
    rw [if_neg hjb]
    exact h.present j hj

/-- The block behind the bytes has an address, or it can get one. -/
def Able (L : List UInt8) (s : State P) : Prop :=
  (s.inode rootino).din.addr (L.length / bsize) ≠ 0 ∨
  s.inOp = true ∧ ∃ x < s.disk.sb.size, s.disk.bitmap x = false

/-- The address of a block of the root directory; only a hole can fail. -/
theorem Shows.bmap_spec (h : Shows L s) {bn : ℕ} (hbn : bn ≤ L.length / bsize) :
    wp (bmap rootino bn) (fun a t => (a = 0 → L.length ≤ bn * bsize ∧ ¬ Able L s) ∧
      (a ≠ 0 → Shows L t ∧ (Able L s → Able L t) ∧ (t.inode rootino).din.addr bn = a ∧
        (bn * bsize < L.length → t = s))) (fun _ => L.length ≤ bn * bsize ∧ ¬ Able L s) s := by
  have hdirect : bn < ndirect := hbn.trans_lt h.direct
  have hend (hz : (s.inode rootino).din.addr bn = 0) :
      L.length ≤ bn * bsize ∧ bn = L.length / bsize := by
    have hle : L.length ≤ bn * bsize := by
      by_contra hc
      exact h.present bn (not_le.mp hc) hz
    exact ⟨hle, hbn.antisymm (Nat.div_le_of_le_mul (Nat.mul_comm _ _ ▸ hle))⟩
  have hunable (hz : (s.inode rootino).din.addr bn = 0) (hno : s.inOp = false ∨
      ∀ x < s.disk.sb.size, s.disk.bitmap x = true) : L.length ≤ bn * bsize ∧ ¬ Able L s := by
    refine ⟨(hend hz).1, ?_⟩
    rintro (hc | ⟨hop, x, hx, hbit⟩)
    · exact hc ((hend hz).2 ▸ hz)
    · rcases hno with hno | hall
      · simp [hop] at hno
      · simp [hall x hx] at hbit
  unfold bmap bmapAddr
  rw [if_pos hdirect]
  simp only [wp_bind, wp_get]
  refine wp_ite.mpr ⟨fun hz => ?_, fun hz => ?_⟩
  · rw [wp_bind]
    refine wp_post (balloc_spec fun hop => hunable hz (.inl hop)) (fun r t hr => ?_)
    rcases hr with ⟨rfl, _, hall⟩ | ⟨hfree, _, l, rfl⟩
    · rw [if_pos rfl]
      exact ⟨fun _ => hunable hz (.inr hall), fun hc => absurd rfl hc⟩
    · have hr0 : r ≠ 0 := by
        rintro rfl
        rw [h.boot] at hfree
        cases hfree
      have haddr := (s.inode rootino).din.addr_setAddr (k := bn) (a := r) (j := bn)
        (.inl hdirect.le)
      rw [if_neg hr0]
      simp only [wp_bind, wp_modify, wp_pure]
      refine ⟨fun hc => absurd hc hr0, fun _ => ⟨h.claim hdirect hz hfree, fun _ => .inl ?_, ?_,
        fun hlt => absurd (hend hz).1 (not_le.mpr hlt)⟩⟩
      · rw [← (hend hz).2]
        simpa [haddr] using hr0
      · simp [haddr]
  · exact ⟨fun hc => absurd hc hz, fun _ => ⟨h, id, rfl, fun _ => rfl⟩⟩

theorem Shows.readDirent_spec (h : Shows L s) {err : Panic} (hoff : off % direntBytes = 0)
    (hlt : off < (s.inode rootino).din.size) :
    wp (readDirent err rootino off) (fun de t => Shows L t ∧ (Able L s → Able L t) ∧
      de = .ofBytes (entryBytes L off) ∧ (off < L.length → t = s))
      (fun _ => L.length ≤ off ∧ ¬ Able L s) s := by
  have hsize := h.size
  have hdirect := h.direct
  have hmod := Nat.div_add_mod' off bsize
  have hbn : off / bsize ≤ L.length / bsize := by
    rw [hsize] at hlt
    simp only [bsize] at *
    omega
  have hc : ¬ ((s.inode rootino).din.size < off ∨ 2 ^ 32 ≤ off + direntBytes) := by
    simp only [bsize, ndirect, direntBytes] at *
    omega
  have hin : ¬ (s.inode rootino).din.size < off + direntBytes := by
    rw [hsize] at hlt ⊢
    simp only [bsize, direntBytes] at *
    omega
  have hm : min (direntBytes - 0) (bsize - off % bsize) = direntBytes := by
    simp only [bsize, direntBytes] at *
    omega
  unfold readDirent
  rw [wp_bind]
  unfold readi
  simp only [wp_bind, wp_get]
  rw [if_neg hc, if_neg hin]
  change wp (readLoop rootino _ (15 + 1) off 0 direntBytes) _ _ s
  unfold readLoop
  rw [if_neg (by decide), wp_bind]
  refine wp_mono (h.bmap_spec hbn) (fun a t ha => ?_) fun _ he => ⟨he.1.trans (by omega), he.2⟩
  refine wp_ite.mpr ⟨fun hz => ?_, fun hz => ?_⟩
  · exact ⟨(ha.1 hz).1.trans (by omega), (ha.1 hz).2⟩
  · obtain ⟨hshow, hable, haddr, hsame⟩ := ha.2 hz
    simp only [wp_bind, wp_get]
    rw [hm]
    simp only [all_eq_true, implies_true, if_true, wp_bind]
    rw [readLoop, if_pos (by decide)]
    simp only [wp_pure, Option.map_some, append_nil, length_map, length_range, if_true]
    refine ⟨hshow, hable, ?_, fun hl => hsame (by omega)⟩
    congr 1
    apply map_congr_left
    intro k hk
    have hk' := mem_range.mp hk
    rw [← haddr, hshow.byte _ _ (hbn.trans_lt hdirect) (haddr ▸ hz)
      (by simp only [bsize, direntBytes] at *; omega)]
    congr 1
    omega

theorem getElem?_of_lt_direntsOf (hoff : off % direntBytes = 0)
    (hlt : off < (direntsOf es).length) :
    ∃ e, es[off / direntBytes]? = some e ∧ e ∈ es ∧
      entryBytes (direntsOf es) off = direntOf e.1 e.2 := by
  rw [length_direntsOf] at hlt
  have hm : off / direntBytes < es.length := Nat.div_lt_of_lt_mul hlt
  have he := List.getElem?_eq_getElem hm
  refine ⟨_, he, getElem_mem hm, ?_⟩
  have hbytes := entryBytes_direntsOf he
  rwa [Nat.mul_div_cancel' (Nat.dvd_of_mod_eq_zero hoff)] at hbytes

theorem Shows.dirlookupLoop_found (hp : Proper es) (hn : IsName name) (h : Shows (direntsOf es) s)
    (hroom : s.used < ninode) (he : es[m]? = some e) (hname : e.2 = name)
    (hfirst : ∀ j x, j < m → es[j]? = some x → x.2 ≠ name) (fuel : ℕ) :
    ∀ j ≤ m, m < j + fuel → wp (dirlookupLoop rootino name fuel (direntBytes * j))
      (fun r t => r = some (e.1, direntBytes * m) ∧ Got e.1 s t) (fun _ => False) s := by
  have hm : m < es.length := (List.getElem?_eq_some_iff.mp he).1
  induction fuel with
  | zero => exact fun j h1 h2 => absurd h2 (by omega)
  | succ fuel ih =>
    intro j hj hfuel
    have hlt : direntBytes * j < (direntsOf es).length := by
      rw [length_direntsOf]
      exact Nat.mul_lt_mul_of_pos_left (by omega) (by decide)
    have hsize : direntBytes * j < (s.inode rootino).din.size := by
      rw [h.size]
      simp only [bsize] at *
      omega
    unfold dirlookupLoop
    simp only [wp_bind, wp_get]
    rw [if_pos hsize, wp_bind]
    refine wp_mono (h.readDirent_spec (Nat.mul_mod_right _ _) hsize) (fun de t hr => ?_)
      fun _ hc => absurd hc.1 (not_le.mpr hlt)
    obtain ⟨_, _, rfl, hsame⟩ := hr
    obtain rfl := hsame hlt
    obtain ⟨x, hx⟩ : ∃ x, es[j]? = some x := ⟨_, List.getElem?_eq_getElem (by omega)⟩
    have hprop := hp x (mem_of_getElem? hx)
    rw [entryBytes_direntsOf hx, ofBytes_direntOf hprop.2.1]
    dsimp only
    rw [if_neg (by omega)]
    rcases Nat.eq_or_lt_of_le hj with rfl | hjm
    · obtain rfl : x = e := by
        rw [hx] at he
        exact Option.some.inj he
      rw [if_pos ((namecmp_strncpy hn hprop.2.2).mpr hname.symm)]
      refine wp_seq (iget_got fun hfull => absurd hfull (not_le.mpr hroom)) (fun _ u hu => ?_)
      exact ⟨rfl, hu⟩
    · have hne := hfirst j x hjm hx
      rw [if_neg (mt (namecmp_strncpy hn hprop.2.2).mp hne.symm), ← Nat.mul_succ]
      exact ih (j + 1) hjm (by omega)

theorem Shows.dirlookupLoop_absent (hp : Proper es) (hn : IsName name)
    (hno : ∀ e ∈ es, e.2 ≠ name) (fuel : ℕ) : ∀ (s : State P) (off : ℕ), Shows (direntsOf es) s →
      off % direntBytes = 0 → wp (dirlookupLoop rootino name fuel off) (fun r _ => r = none)
        (fun _ => ¬ Able (direntsOf es) s) s := by
  induction fuel with
  | zero => exact fun _ _ _ _ => rfl
  | succ fuel ih =>
    intro s off h hoff
    have hnext : (off + direntBytes) % direntBytes = 0 := by
      rw [Nat.add_mod_right]
      exact hoff
    unfold dirlookupLoop
    simp only [wp_bind, wp_get]
    refine wp_ite.mpr ⟨fun hlt => ?_, fun _ => rfl⟩
    rw [wp_bind]
    refine wp_mono (h.readDirent_spec hoff hlt) (fun de t hr => ?_) fun _ hc => hc.2
    obtain ⟨hshow, hable, rfl, _⟩ := hr
    have hrest := wp_mono (ih t _ hshow hnext) (fun _ _ => id) fun _ => mt hable
    refine wp_ite.mpr ⟨fun _ => hrest, fun hz => ?_⟩
    have hin : off < (direntsOf es).length := by
      by_contra hc
      exact hz (inum_entryBytes_of_le (not_lt.mp hc))
    obtain ⟨e, _, hmem, hbytes⟩ := getElem?_of_lt_direntsOf hoff hin
    have hprop := hp e hmem
    rw [hbytes, ofBytes_direntOf hprop.2.1]
    dsimp only
    rw [if_neg (mt (namecmp_strncpy hn hprop.2.2).mp (hno e hmem).symm)]
    exact hrest

/-- A state of the kernel on the image: what it has read of the inodes is what the image has, and it
has a reference to the root directory. -/
structure OnImage (v : Volume) (s : State P) : Prop where
  disk : s.disk = v
  cached : ∀ i, s.Locked i → (s.inode i).din = v.dinode i
  root : 0 < (s.inode rootino).ref

theorem OnImage.ilock_spec (h : OnImage v s) (hr : 0 < (s.inode i).ref) (ha : v.Allocated i) :
    wp (ilock i) (fun _ t => OnImage v t ∧ Loaded i s t) E s := by
  obtain rfl := h.disk
  refine wp_post (ilock_whole (.inr hr) (.inr ha.1) (fun hi => ⟨h.cached i hi, ha⟩) (.inr ha.2))
    (fun _ t ht => ⟨⟨ht.disk, fun j hj => ?_, ?_⟩, ht⟩)
  · obtain rfl | hji := eq_or_ne j i
    · exact ht.din
    · rw [State.Locked, ht.others j hji] at hj
      rw [ht.others j hji]
      exact h.cached j hj
  · obtain hi | hi := eq_or_ne rootino i
    · rw [hi, ht.ref]
      exact hr
    · rw [ht.others _ hi]
      exact h.root

theorem OnImage.got (h : OnImage v s) (ht : Got i s t) : OnImage v t where
  disk := ht.disk.trans h.disk
  cached j hj := by
    have hj' := (ht.locked_iff j).mp hj
    obtain rfl | hji := eq_or_ne j i
    · rw [ht.din, h.cached j hj']
    · rw [ht.others j hji, h.cached j hj']
  root := by
    obtain hi | hi := eq_or_ne rootino i
    · rw [hi, ht.ref]
      exact Nat.succ_pos _
    · rw [ht.others _ hi]
      exact h.root

theorem Formatted.shows (h : Formatted v files fb) (hlen : files.length + 2 ≤ ninodes)
    (hd : s.disk = v) (hroot : (s.inode rootino).din = v.dinode rootino) :
    Shows (direntsOf (entries files)) s := by
  have hdirect : (direntsOf (entries files)).length / bsize < ndirect := by
    rw [length_root]
    simp only [direntBytes, bsize, ndirect, ninodes] at *
    omega
  have haddr bn (hbn : bn < ndirect) : (s.inode rootino).din.addr bn = v.slot rootino
      (dataSlot bn) := by
    rw [hroot, dataSlot, if_pos hbn, Volume.slot_le h.root.alloc hbn.le]
  refine ⟨hd ▸ h.laid.sound.reserved 0 h.laid.sound.reserve, by rw [hroot, h.rootType],
    by rw [hroot, h.rootSize], hdirect, fun bn hbn h0 => ?_, fun bn k hbn h0 hk => ?_,
    fun bn hbn => ?_⟩
  · rw [haddr bn hbn] at h0 ⊢
    rw [hd]
    exact (h.laid.sound.live_of_slot h0).2.2
  · rw [haddr bn hbn, hd, ← h.root.byte, Volume.byte, Nat.add_comm, Nat.add_mul_div_right _ _
      (by decide), Nat.div_eq_of_lt hk, Nat.zero_add, Nat.add_mul_mod_self_right,
        Nat.mod_eq_of_lt hk]
  · have hlt : bn < ndirect := by
      simp only [bsize, ndirect] at *
      omega
    rw [haddr bn hlt]
    exact (h.root.slot bn).mpr hbn

structure Named (files : List Input) : Prop where
  nonempty : ∀ f ∈ files, f.shortname ≠ []
  not_dot : ∀ f ∈ files, f.shortname ≠ dot ∧ f.shortname ≠ dotdot
  distinct : (files.map Input.shortname).Nodup

theorem nul_shortname (f : Input) : 0 ∉ f.shortname := by
  have hstrip : 0 ∉ stripUser f.argv := by
    unfold stripUser
    split
    · exact fun hc => f.nul (mem_of_mem_drop hc)
    · exact f.nul
  unfold Input.shortname stripUnderscore
  split
  · exact fun hc => hstrip (mem_of_mem_drop hc)
  · exact hstrip

theorem getElem?_fileEntries (files : List Input) (n k : ℕ) :
    (fileEntries n files)[k]? = (files[k]?).map fun f => (n + k, f.shortname) := by
  unfold fileEntries
  rw [List.getElem?_map, List.getElem?_zipIdx]
  cases files[k]? <;> rfl

theorem mem_fileEntries (h : e ∈ fileEntries 2 files) :
    2 ≤ e.1 ∧ e.1 < files.length + 2 ∧ ∃ f ∈ files, f.shortname = e.2 := by
  obtain ⟨k, hk⟩ := mem_iff_getElem?.mp h
  rw [getElem?_fileEntries] at hk
  obtain ⟨f, hf, rfl⟩ := Option.map_eq_some_iff.mp hk
  have hlt := (List.getElem?_eq_some_iff.mp hf).1
  exact ⟨by omega, by omega, f, mem_of_getElem? hf, rfl⟩

theorem Fits.proper (h : Fits files) : Proper (entries files) := by
  have hlen := h.inodes
  intro e he
  rcases mem_cons.mp he with rfl | he
  · exact ⟨by decide, by decide, by decide, by decide⟩
  rcases mem_cons.mp he with rfl | he
  · exact ⟨by decide, by decide, by decide, by decide⟩
  obtain ⟨h1, h2, f, hf, hname⟩ := mem_fileEntries he
  simp only [ninodes] at hlen
  refine ⟨by omega, by omega, ?_, ?_⟩
  · rw [← hname]
    exact h.short f hf
  · rw [← hname]
    exact nul_shortname f

theorem Named.first (h : Named files) {k : ℕ} {f : Input} (hk : files[k]? = some f) :
    ∀ j x, j < k + 2 → (entries files)[j]? = some x → x.2 ≠ f.shortname := by
  have hmem := mem_of_getElem? hk
  intro j x hj hx
  match j with
  | 0 =>
    obtain rfl : (rootino, dot) = x := by simpa [entries] using hx
    exact (h.not_dot f hmem).1.symm
  | 1 =>
    obtain rfl : (rootino, dotdot) = x := by simpa [entries] using hx
    exact (h.not_dot f hmem).2.symm
  | j + 2 =>
    have hx' : (fileEntries 2 files)[j]? = some x := hx
    rw [getElem?_fileEntries] at hx'
    obtain ⟨g, hg, rfl⟩ := Option.map_eq_some_iff.mp hx'
    intro heq
    have hlt : j < (files.map Input.shortname).length := by
      rw [length_map]
      exact (List.getElem?_eq_some_iff.mp hg).1
    have hjk : j = k := by
      refine (List.getElem?_inj hlt h.distinct).mp ?_
      rw [List.getElem?_map, List.getElem?_map, hg, hk]
      exact congrArg some heq
    omega

theorem Holds.bytes (h : Holds v i L) (off n : ℕ) :
    v.bytes i off (min n (L.length - off)) = (L.drop off).take n := by
  apply ext_getElem
  · simp [Volume.bytes]
  · intro k h1 h2
    simp only [length_take, List.length_drop] at h2
    simp [Volume.bytes, h.byte, show off + k < L.length by omega]

theorem Holds.readi_spec (h : Holds v i L) (hsize : (v.dinode i).size = L.length)
    (hd : s.disk = v) (hdin : (s.inode i).din = v.dinode i) {n : ℕ} (hn : off + n < 2 ^ 32) :
    wp (readi i (fun _ => true) off n)
      (fun r t => t = s ∧ r = some ((L.drop off).take n)) E s := by
  subst hd
  refine wp_post (readi_of_slots hdin h.alloc _ off n fun bn hbn => ?_) (fun r t hr => ⟨hr.1, ?_⟩)
  · rw [h.slot, ← hsize]
    omega
  · rw [hr.2 fun _ _ => rfl]
    by_cases hle : off ≤ (s.disk.dinode i).size
    · rw [if_pos ⟨hn, hle⟩, hsize, h.bytes]
    · rw [if_neg fun hc => hle hc.2, drop_eq_nil_of_le (by omega), take_nil]

/-- What `open` and `read` do with a name of the root directory: its inode number, and `n` bytes of
the file from `off` on. -/
def readFile (name : List UInt8) (off n : ℕ) : FsM P (Option (ℕ × Option (List UInt8))) := do
  ilock rootino
  match ← dirlookup rootino name with
  | none => return none
  | some (ip, _) =>
    ilock ip
    return some (ip, ← readi ip (fun _ => true) off n)

theorem Formatted.readFile_found (hf : Formatted v files fb) (h : Fits files) (hn : Named files)
    {k n : ℕ} {f : Input} (hk : files[k]? = some f) (hs : OnImage v s) (hroom : s.used < ninode)
    (hlt : off + n < 2 ^ 32) : wp (readFile f.shortname off n)
      (fun r _ => r = some (k + 2, some ((f.contents.drop off).take n))) E s := by
  have he : (entries files)[k + 2]? = some (k + 2, f.shortname) := by
    change (fileEntries 2 files)[k]? = _
    rw [getElem?_fileEntries, hk, Option.map_some, Nat.add_comm]
  have hlen := (List.getElem?_eq_some_iff.mp he).1
  have hname : IsName f.shortname := ⟨h.short f (mem_of_getElem? hk), nul_shortname f⟩
  obtain ⟨hL, hsize, _⟩ := hf.file k f hk
  refine wp_seq (hs.ilock_spec hs.root hf.root.alloc) (fun _ t ht => ?_)
  obtain ⟨ht, hload⟩ := ht
  have hshow := hf.shows h.inodes ht.disk (hload.din.trans (by rw [hs.disk]))
  unfold dirlookup
  simp only [wp_bind, wp_get]
  rw [hshow.type, if_neg (by decide)]
  refine wp_mono (hshow.dirlookupLoop_found h.proper hname (hload.used ▸ hroom) he rfl (hn.first hk)
    _ 0 (Nat.zero_le _) ?_) (fun r u hr => ?_) fun _ => False.elim
  · rw [hshow.size, length_direntsOf]
    simp only [direntBytes, bsize]
    omega
  obtain ⟨rfl, hgot⟩ := hr
  rw [wp_bind]
  refine wp_post ((ht.got hgot).ilock_spec (hgot.ref ▸ Nat.succ_pos _) hL.alloc) (fun _ w hw => ?_)
  rw [wp_bind]
  refine wp_post (hL.readi_spec hsize hw.1.disk (hw.1.cached _ hw.2.locked) hlt) (fun r _ hr => ?_)
  rw [wp_pure, hr.2]

theorem Formatted.readFile_absent (hf : Formatted v files fb) (h : Fits files) {n : ℕ}
    (hs : OnImage v s) (hname : IsName name) (hdot : name ≠ dot) (hdotdot : name ≠ dotdot)
    (hno : ∀ f ∈ files, f.shortname ≠ name) : wp (readFile name off n) (fun r _ => r = none)
      (fun _ => (files.length + 2) % 64 = 0 ∧ (s.inOp = false ∨ fb = fssize)) s := by
  refine wp_seq (hs.ilock_spec hs.root hf.root.alloc) (fun _ t ht => ?_)
  obtain ⟨ht, hload⟩ := ht
  have hroot : (t.inode rootino).din = v.dinode rootino := hload.din.trans (by rw [hs.disk])
  have hshow := hf.shows h.inodes ht.disk hroot
  unfold dirlookup
  simp only [wp_bind, wp_get]
  rw [hshow.type, if_neg (by decide)]
  refine wp_mono (Shows.dirlookupLoop_absent h.proper hname (fun e he => ?_) _ t 0 hshow rfl)
    (fun r u hr => ?_) fun _ hc => ?_
  · rcases mem_cons.mp he with rfl | he
    · exact hdot.symm
    rcases mem_cons.mp he with rfl | he
    · exact hdotdot.symm
    obtain ⟨_, _, f, hmem, hname'⟩ := mem_fileEntries he
    rw [← hname']
    exact hno f hmem
  · subst hr
    rfl
  · -- without a hole or with a free block the kernel does not fail
    by_contra hcon
    refine hc ?_
    by_cases hn : (files.length + 2) % 64 = 0
    · have hop : s.inOp = true ∧ fb ≠ fssize := by simpa [hn] using hcon
      have hroom := h.blocks
      rw [← hf.count] at hroom
      refine .inr ⟨hload.inOp.trans hop.1, fb, ?_, ?_⟩
      · rw [ht.disk, hf.laid.sb]
        exact lt_of_le_of_ne hroom hop.2
      · rw [ht.disk, hf.laid.bitmap]
        simp
    · refine .inl (hshow.present _ ?_)
      rw [length_root]
      simp only [direntBytes, bsize]
      omega

/-- The image and the kernel agree: on the image of files that fit, the kernel finds each name in
the root directory and reads the bytes of the file; no other name is found, and the free map marks
the metadata and the blocks handed out, each of which is in one place of one inode. Looking for a
name that is not there panics only at the hole of a directory whose entries fill their blocks,
outside of a transaction or when no block is free. -/
theorem kernel_reads_image (files : List Input) (h : Fits files) (hn : Named files) :
    ∃ b, main files Build.start = .ok ((), b) ∧ fsinit b.img = some b.disk ∧
      (∀ k f, files[k]? = some f → (b.disk.dinode (k + 2)).size = f.contents.length ∧
        ∀ (P : Type) (s : State P) (off n : ℕ), OnImage b.disk s → s.used < ninode →
          off + n < 2 ^ 32 → wp (readFile f.shortname off n)
            (fun r _ => r = some (k + 2, some ((f.contents.drop off).take n))) (fun _ => False) s) ∧
      (∀ (P : Type) (s : State P) (name : List UInt8) (off n : ℕ), OnImage b.disk s → IsName name →
        name ≠ dot → name ≠ dotdot → (∀ f ∈ files, f.shortname ≠ name) →
        wp (readFile name off n) (fun r _ => r = none)
          (fun _ => (files.length + 2) % 64 = 0 ∧ (s.inOp = false ∨ b.freeblock = fssize)) s) ∧
      (∀ x, b.disk.bitmap x = true ↔ x < superblock.nmeta ∨
        (superblock.nmeta ≤ x ∧ x < b.freeblock)) ∧
      ∀ x, superblock.nmeta ≤ x → x < b.freeblock →
        ∃! y : ℕ × ℕ, b.disk.slot y.1 y.2 = x := by
  obtain ⟨b, hb, hf⟩ := main_ok h
  have hnmeta : superblock.nmeta ≤ b.freeblock := by
    rw [hf.count, used]
    omega
  refine ⟨b, hb, if_pos (congrArg Superblock.magic hf.laid.sb), fun k f hk =>
    ⟨(hf.file k f hk).2.1, fun P s off n hs hroom hlt => hf.readFile_found h hn hk hs hroom hlt⟩,
    fun P s name off n hs hname hdot hdd hno => hf.readFile_absent h hs hname hdot hdd hno,
    fun x => ?_, fun x h1 h2 => ?_⟩
  · rw [hf.laid.bitmap, decide_eq_true_iff]
    omega
  · have hlive : b.disk.Live x := by
      refine ⟨?_, ?_, ?_⟩
      · rw [hf.laid.sb]
        exact h1
      · rw [hf.laid.sb]
        have hroom := h.blocks
        rw [← hf.count] at hroom
        exact h2.trans_le hroom
      · rw [hf.laid.bitmap]
        exact decide_eq_true h2
    refine (hf.laid.sound.owned.live_iff ?_).mp hlive
    rintro rfl
    exact absurd h1 (by decide)

/-- On the image of two files the kernel, from a boot on, reads the bytes from the second on of
`ls`. -/
theorem kernel_reads_image_twoFiles : Fits twoFiles ∧ Named twoFiles ∧
    ∃ b, main twoFiles Build.start = .ok ((), b) ∧ fsinit b.img = some b.disk ∧
      ∃ t, readFile [108, 115] 1 10 (State.boot b.disk ()) = .ok (some (2, some [2, 3]), t) := by
  have hnamed : Named twoFiles := by
    refine ⟨?_, ?_, ?_⟩ <;> decide +kernel
  obtain ⟨b, hb, hinit, hfile, _⟩ := kernel_reads_image twoFiles fits_twoFiles hnamed
  have hon : OnImage b.disk (State.boot b.disk ()) :=
    ⟨rfl, fun i hi => absurd hi.2 (by simp [State.boot]), Nat.one_pos⟩
  obtain ⟨r, t, hrun, rfl⟩ := wp_total ((hfile 0 _ rfl).2 Unit _ 1 10 hon
    (show 1 < ninode by decide) (by decide))
  exact ⟨fits_twoFiles, hnamed, b, hb, hinit, t, hrun⟩

end Xv6.Mkfs
