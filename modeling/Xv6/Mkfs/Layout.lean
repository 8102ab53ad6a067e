import Xv6.Mkfs.Append

/-! The layout of a finished image. The root directory is inode 1 and the files have the inodes
from 2 on; the program ends for every list of files that fits, and each inode then holds what was
appended to it. -/
namespace Xv6.Mkfs
open Function Hoare Fs List
variable {E : Failure → Prop} {b b' b'' : Build} {i j : ℕ} {t : FileType} {d : Dinode}
  {L p q root : List UInt8} {fs : List (List UInt8)}

structure Stores (b : Build) (i : ℕ) (t : FileType) (L : List UInt8) : Prop where
  holds : Holds b.view i L
  size : (b.disk.dinode i).size = L.length
  type : (b.disk.dinode i).type = t

theorem Stores.apart (h : Stores b j t L) (ha : Apart i b.view b'.view) (hj : j ≠ i) :
    Stores b' j t L := by
  have hd : b'.disk.dinode j = b.disk.dinode j := ha.dinode j hj
  refine ⟨h.holds.apart ha hj, ?_, ?_⟩
  · rw [hd, h.size]
  · rw [hd, h.type]

structure Appended (i : ℕ) (t : FileType) (L p : List UInt8) (b b' : Build) : Prop where
  laid : Laid b'.view b'.freeblock
  stores : Stores b' i t (L ++ p)
  apart : Apart i b.view b'.view
  count : b'.freeblock + blocks L.length = b.freeblock + blocks (L ++ p).length
  counter : b'.freeinode = b.freeinode

theorem Appended.trans (h : Appended i t L p b b') (h' : Appended i t (L ++ p) q b' b'') :
    Appended i t L (p ++ q) b b'' := by
  obtain ⟨hlaid, hstores, hapart, hcount, hcounter⟩ := h'
  rw [append_assoc] at hstores hcount
  have hc := h.count
  exact ⟨hlaid, hstores, h.apart.trans hapart, by omega, hcounter.trans h.counter⟩

theorem view_flushed (b : Build) (i : ℕ) : b.flushed i (b.disk.dinode i) = b.view := by
  simp [Build.flushed, Build.view, Volume.setDinode]

theorem Laid.setSize {v : Volume} {fb : ℕ} (h : Laid v fb) (hL : Holds v i L) (n : ℕ) :
    Laid (v.setDinode i ((v.dinode i).setSize n)) fb ∧
      Holds (v.setDinode i ((v.dinode i).setSize n)) i L ∧
      Apart i v (v.setDinode i ((v.dinode i).setSize n)) := by
  have ht : ((v.dinode i).setSize n).type ≠ .free := hL.alloc.2
  have hslot := Volume.slot_setDinode hL.alloc ht rfl
  have hbyte j off : (v.setDinode i ((v.dinode i).setSize n)).byte j off = v.byte j off := by
    unfold Volume.byte
    rw [hslot]
    rfl
  refine ⟨⟨h.sound.setDinode hL.alloc ht rfl, h.sb, h.bitmap, h.boot, h.fresh⟩,
    ⟨⟨hL.alloc.1, by simpa using ht⟩, fun off => ?_, fun bn => ?_, ?_⟩, fun j hj => ?_,
    fun j _ k => hslot j k, fun j _ off => hbyte j off, rfl⟩
  · rw [hbyte, hL.byte]
  · rw [hslot, hL.slot]
  · rw [hslot, hL.indirect]
  · simp [hj]

theorem iappend_spec (h : Laid b.view b.freeblock) (hL : Stores b i t L)
    (hmax : (L ++ p).length ≤ maxfile * bsize)
    (hroom : b.freeblock + blocks (L ++ p).length ≤ fssize + blocks L.length) :
    wp (iappend i p) (fun _ => Appended i t L p b) E b := by
  have hview := view_flushed b i
  have hlt : i < superblock.inodeArea := h.sb ▸ hL.holds.alloc.1
  unfold iappend
  rw [wp_bind, Build.wp_rinode h.sb hlt, hL.size, wp_bind]
  refine wp_post (appendLoop_spec (i := i) p.length b _ L p le_rfl (hview ▸ h)
    (hview ▸ hL.holds) hmax hroom) (fun r b1 hr => ?_)
  obtain ⟨hoff, hlaid, hholds, hapart, hattrs, hcount, hcounter⟩ := hr
  rw [Build.wp_winode hlt, hoff]
  obtain ⟨hlaid1, hholds1, hapart1⟩ := hlaid.setSize hholds (L ++ p).length
  have hrange : (r.1.setSize (L ++ p).length).InRange := by
    have hold := inRange_dinode b.img i
    have haddrs j := hlaid.addrs_lt hholds.alloc j
    rw [dinode_flushed] at haddrs
    rw [hattrs]
    exact ⟨hold.major, hold.minor, hold.nlink, hmax.trans_lt (by decide), haddrs⟩
  have hdisk := Build.disk_setInode (b := b1) hlaid.sb hlt hrange
  have hnew : (b1.flushed i r.1).setDinode i
      (((b1.flushed i r.1).dinode i).setSize (L ++ p).length) =
      (b1.setInode i (r.1.setSize (L ++ p).length)).view := by
    rw [dinode_flushed, Build.flushed, Volume.setDinode_setDinode, Build.view, Build.view, hdisk]
    rfl
  rw [hnew] at hlaid1 hholds1 hapart1
  rw [hview] at hapart
  refine ⟨hlaid1, ⟨hholds1, ?_, ?_⟩, hapart.trans hapart1, hcount, hcounter⟩
  · rw [hdisk, Volume.setDinode_dinode, update_self, Dinode.setSize_size]
  · rw [hdisk, Volume.setDinode_dinode, update_self, Dinode.setSize_type, hattrs]
    exact hL.type

theorem appendChunks_spec (cs : List (List UInt8)) : ∀ (b : Build) (L : List UInt8),
    Laid b.view b.freeblock → Stores b i t L → (L ++ cs.flatten).length ≤ maxfile * bsize →
    b.freeblock + blocks (L ++ cs.flatten).length ≤ fssize + blocks L.length →
    wp (cs.forM (iappend i)) (fun _ => Appended i t L cs.flatten b) E b := by
  induction cs with
  | nil =>
    intro b L h hL _ _
    have hnil : L ++ ([] : List (List UInt8)).flatten = L := append_nil L
    exact ⟨h, hnil.symm ▸ hL, .refl i _, by rw [hnil], rfl⟩
  | cons c cs ih =>
    intro b L h hL hmax hroom
    rw [flatten_cons, ← append_assoc] at hmax hroom
    have hle : (L ++ c).length ≤ (L ++ c ++ cs.flatten).length := by
      simp only [length_append]
      omega
    have hblocks := blocks_le hle
    rw [wp_forM_cons]
    refine wp_post (iappend_spec h hL (hle.trans hmax) (by omega)) (fun _ b1 h1 => ?_)
    have hc := h1.count
    refine wp_post (ih b1 (L ++ c) h1.laid h1.stores hmax (by omega)) (fun _ b2 h2 => ?_)
    rw [flatten_cons]
    exact h1.trans h2

def used (root : List UInt8) (fs : List (List UInt8)) : ℕ :=
  superblock.nmeta + blocks root.length + (fs.map fun L => blocks L.length).sum

structure Tree (b : Build) (root : List UInt8) (fs : List (List UInt8)) : Prop where
  laid : Laid b.view b.freeblock
  dir : Stores b rootino .dir root
  file : ∀ k L, fs[k]? = some L → Stores b (k + 2) .file L
  unused : ∀ i, i = 0 ∨ fs.length + 2 ≤ i → b.disk.dinode i = .fresh .free
  counter : b.freeinode = fs.length + 2
  count : b.freeblock = used root fs

theorem Tree.appendRoot (h : Tree b root fs) (ha : Appended rootino .dir root p b b') :
    Tree b' (root ++ p) fs where
  laid := ha.laid
  dir := ha.stores
  file k L hk := (h.file k L hk).apart ha.apart (by simp only [rootino]; omega)
  unused i hi := by
    have hd : b'.disk.dinode i = b.disk.dinode i :=
      ha.apart.dinode i (by simp only [rootino]; omega)
    rw [hd, h.unused i hi]
  counter := ha.counter.trans h.counter
  count := by
    have h1 := ha.count
    have h2 := h.count
    unfold used at h2 ⊢
    omega

theorem Tree.appendLast (h : Tree b root (fs ++ [L]))
    (ha : Appended (fs.length + 2) .file L p b b') : Tree b' root (fs ++ [L ++ p]) where
  laid := ha.laid
  dir := h.dir.apart ha.apart (by simp only [rootino]; omega)
  file k L' hk := by
    by_cases hlt : k < fs.length
    · rw [List.getElem?_append_left hlt] at hk
      refine (h.file k L' ?_).apart ha.apart (by omega)
      rw [List.getElem?_append_left hlt, hk]
    rw [List.getElem?_append_right (not_lt.mp hlt), List.getElem?_singleton] at hk
    split at hk
    next hz =>
      obtain rfl : L ++ p = L' := by simpa using hk
      rw [show k = fs.length by omega]
      exact ha.stores
    next hz => cases hk
  unused i hi := by
    rw [length_append, length_singleton] at hi
    have hd : b'.disk.dinode i = b.disk.dinode i := ha.apart.dinode i (by omega)
    rw [hd]
    exact h.unused i (by rw [length_append, length_singleton]; exact hi)
  counter := by
    rw [ha.counter, h.counter]
    simp
  count := by
    have h1 := ha.count
    have h2 := h.count
    simp only [used, map_append, map_cons, map_nil, sum_append, sum_singleton] at h2 ⊢
    omega

theorem Laid.fresh_inode (h : Laid b.view b.freeblock) (hi : i < superblock.inodeArea)
    (hfree : b.disk.dinode i = .fresh .free) (ht : t ≠ .free) (n : ℕ)
    (hb : b' = ({ b with freeinode := n } : Build).setInode i ((Dinode.fresh t).setNlink 1)) :
    Appended i t [] [] b' b' ∧ Apart i b.view b'.view := by
  have hdisk : b'.disk = b.disk.setDinode i ((Dinode.fresh t).setNlink 1) := by
    rw [hb]
    exact Build.disk_setInode (b := { b with freeinode := n }) h.sb hi
      ⟨rfl, rfl, rfl, by simp, fun _ => by simp⟩
  have hview : b'.view = b.view.setDinode i ((Dinode.fresh t).setNlink 1) := by
    rw [Build.view, hdisk, hb]
    rfl
  have hempty : ∀ k, b.view.slot i k = 0 :=
    Volume.slot_of_not_allocated fun hc => hc.2 (congrArg Dinode.type hfree)
  have hzero : ((Dinode.fresh t).setNlink 1).type = .free ∨
      ∀ k, ((Dinode.fresh t).setNlink 1).addrs k = 0 := .inr fun _ => rfl
  have hslot := Volume.slot_setDinode_empty (v := b.view) (i := i) hzero
  rw [← hview] at hslot
  have hdata : b'.view.data = b.view.data := by rw [hview]; rfl
  have hdin : b'.disk.dinode i = (Dinode.fresh t).setNlink 1 := by simp [hdisk]
  have hboot : b.view.data 0 = .zero := h.boot
  have hself k : b'.view.slot i k = 0 := by rw [hslot, if_pos rfl]
  refine ⟨⟨?_, ⟨⟨⟨?_, ?_⟩, fun off => ?_, fun bn => ?_, ?_⟩, ?_, ?_⟩, .refl i _, rfl, rfl⟩,
    fun j hj => ?_, fun j hj k => ?_, fun j hj off => ?_, ?_⟩
  · have hfb : b'.freeblock = b.freeblock := by rw [hb]; rfl
    rw [hview, hfb]
    exact ⟨h.sound.setDinode_empty hzero hempty, h.sb, h.bitmap, h.boot, h.fresh⟩
  · rw [hview]
    exact h.sb ▸ hi
  · change (b'.disk.dinode i).type ≠ _
    rw [hdin]
    exact ht
  · rw [Volume.byte, hself, hdata, hboot]
    simp
  · simp [hself]
  · simp [hself]
  · rw [hdin]
    rfl
  · rw [hdin]
    rfl
  · rw [hview]
    simp [hj]
  · rw [hslot, if_neg hj]
  · unfold Volume.byte
    rw [hslot, if_neg hj, hdata]
  · rw [hview]
    rfl

theorem ialloc_spec (h : Tree b root fs) (hroom : fs.length + 2 < ninodes) :
    wp (ialloc .file) (fun r b' => r = fs.length + 2 ∧ Tree b' root (fs ++ [[]])) E b := by
  have harea : fs.length + 2 < superblock.inodeArea := hroom.trans_le (by decide)
  simp only [ialloc, wp_bind, wp_get, wp_modify]
  rw [h.counter, Build.wp_winode harea, wp_pure]
  obtain ⟨hnew, hapart⟩ := h.laid.fresh_inode harea (h.unused _ (.inr le_rfl))
    (t := .file) (by decide) (fs.length + 2 + 1) rfl
  refine ⟨rfl, hnew.laid, h.dir.apart hapart (by simp only [rootino]; omega), fun k L hk => ?_,
    fun i hi => ?_, by simp, ?_⟩
  · by_cases hlt : k < fs.length
    · rw [List.getElem?_append_left hlt] at hk
      exact (h.file k L hk).apart hapart (by omega)
    rw [List.getElem?_append_right (not_lt.mp hlt), List.getElem?_singleton] at hk
    split at hk
    next hz =>
      obtain rfl : [] = L := by simpa using hk
      rw [show k = fs.length by omega]
      exact hnew.stores
    next hz => cases hk
  · rw [length_append, length_singleton] at hi
    have hd := hapart.dinode i (by omega)
    exact hd.trans (h.unused i (by omega))
  · refine h.count.trans ?_
    simp [used, blocks]

def fileEntries (n : ℕ) (files : List Input) : List (ℕ × List UInt8) :=
  (files.zipIdx n).map fun x => (x.2, x.1.shortname)

def entries (files : List Input) : List (ℕ × List UInt8) :=
  (rootino, dot) :: (rootino, dotdot) :: fileEntries 2 files

def direntsOf (es : List (ℕ × List UInt8)) : List UInt8 := es.flatMap fun e => direntOf e.1 e.2

/-- The files that the program accepts and for which the image has room. -/
structure Fits (files : List Input) : Prop where
  slash : ∀ f ∈ files, slash ∉ f.shortname
  short : ∀ f ∈ files, f.shortname.length ≤ dirsiz
  size : ∀ f ∈ files, f.contents.length ≤ maxfile * bsize
  inodes : files.length + 2 ≤ ninodes
  blocks : used (direntsOf (entries files)) (files.map Input.contents) ≤ fssize

theorem length_direntOf (i : ℕ) (name : List UInt8) : (direntOf i name).length = direntBytes := by
  simp [direntOf, Dirent.bytes, strncpy]

theorem length_direntsOf (es : List (ℕ × List UInt8)) :
    (direntsOf es).length = direntBytes * es.length := by
  induction es with
  | nil => rfl
  | cons e es ih =>
    rw [direntsOf, flatMap_cons, length_append, length_direntOf, length_cons]
    change _ + (direntsOf es).length = _
    rw [ih, Nat.mul_add, Nat.mul_one, Nat.add_comm]

@[simp] theorem length_fileEntries (n : ℕ) (files : List Input) :
    (fileEntries n files).length = files.length := by
  simp [fileEntries]

theorem fileEntries_cons (n : ℕ) (f : Input) (files : List Input) :
    fileEntries n (f :: files) = (n, f.shortname) :: fileEntries (n + 1) files := by
  simp [fileEntries]

theorem slash_mem_iff (f : Input) : slash ∈ stripUser f.argv ↔ slash ∈ f.shortname := by
  unfold Input.shortname stripUnderscore
  cases stripUser f.argv with
  | nil => rfl
  | cons c cs =>
    obtain rfl | hc := eq_or_ne c 95
    · simp [slash]
    · simp [hc]

theorem used_mono {root' : List UInt8} {fs' : List (List UInt8)} :
    used root fs ≤ used (root ++ root') (fs ++ fs') := by
  have hb : blocks root.length ≤ blocks (root ++ root').length := blocks_le (by simp)
  simp only [used, map_append, sum_append]
  omega

theorem addFile_spec {f : Input} (h : Tree b root fs) (hslash : slash ∉ f.shortname)
    (hshort : f.shortname.length ≤ dirsiz) (hsize : f.contents.length ≤ maxfile * bsize)
    (hinode : fs.length + 2 < ninodes)
    (hdir : (root ++ direntOf (fs.length + 2) f.shortname).length ≤ maxfile * bsize)
    (hroom : used (root ++ direntOf (fs.length + 2) f.shortname) (fs ++ [f.contents]) ≤ fssize) :
    wp (addFile f) (fun _ b' => Tree b' (root ++ direntOf (fs.length + 2) f.shortname)
      (fs ++ [f.contents])) E b := by
  have hused := h.count
  simp only [used, map_append, map_cons, map_nil, sum_append, sum_singleton] at hroom hused
  unfold addFile
  rw [if_neg (mt (slash_mem_iff f).mp hslash), if_neg (not_lt.mpr hshort)]
  refine wp_seq (ialloc_spec h hinode) (fun r b1 h1 => ?_)
  obtain ⟨rfl, h1⟩ := h1
  have hused1 := h1.count
  simp only [used, map_append, map_cons, map_nil, sum_append, sum_singleton] at hused1
  have hzero : blocks ([] : List UInt8).length = 0 := rfl
  refine wp_seq (iappend_spec h1.laid h1.dir hdir (by omega)) (fun _ b2 h2 => ?_)
  have h2t := h1.appendRoot h2
  have hused2 := h2t.count
  simp only [used, map_append, map_cons, map_nil, sum_append, sum_singleton] at hused2
  refine wp_post (appendChunks_spec f.chunks b2 [] h2t.laid (h2t.file fs.length [] (by simp))
    hsize ?_) (fun _ b3 h3 => h2t.appendLast h3)
  change _ + blocks f.contents.length ≤ _
  omega

theorem addFiles_spec (files : List Input) : ∀ (b : Build) (root : List UInt8)
    (fs : List (List UInt8)), Tree b root fs → (∀ f ∈ files, slash ∉ f.shortname) →
    (∀ f ∈ files, f.shortname.length ≤ dirsiz) →
    (∀ f ∈ files, f.contents.length ≤ maxfile * bsize) → fs.length + files.length + 2 ≤ ninodes →
    (root ++ direntsOf (fileEntries (fs.length + 2) files)).length ≤ maxfile * bsize →
    used (root ++ direntsOf (fileEntries (fs.length + 2) files))
      (fs ++ files.map Input.contents) ≤ fssize →
    wp (files.forM addFile) (fun _ b' => Tree b'
      (root ++ direntsOf (fileEntries (fs.length + 2) files))
      (fs ++ files.map Input.contents)) E b := by
  induction files with
  | nil =>
    intro b root fs h _ _ _ _ _ _
    simpa [fileEntries, direntsOf] using h
  | cons f files ih =>
    intro b root fs h hslash hshort hsize hinode hdir hroom
    have hroot : root ++ direntsOf (fileEntries (fs.length + 2) (f :: files)) =
        root ++ direntOf (fs.length + 2) f.shortname ++
          direntsOf (fileEntries ((fs ++ [f.contents]).length + 2) files) := by
      rw [fileEntries_cons, direntsOf, flatMap_cons, ← append_assoc]
      simp [direntsOf, Nat.add_right_comm]
    have hfs : fs ++ (f :: files).map Input.contents =
        fs ++ [f.contents] ++ files.map Input.contents := by
      rw [map_cons, append_assoc]
      rfl
    rw [hroot, hfs] at hroom ⊢
    rw [hroot] at hdir
    rw [length_cons] at hinode
    rw [wp_forM_cons]
    refine wp_post (addFile_spec h (hslash f (.head _)) (hshort f (.head _))
      (hsize f (.head _)) (by omega) ?_ (used_mono.trans hroom)) (fun _ b1 h1 => ?_)
    · rw [length_append] at hdir
      omega
    · refine ih b1 _ _ h1 (fun g hg => hslash g (.tail f hg))
        (fun g hg => hshort g (.tail f hg))
        (fun g hg => hsize g (.tail f hg)) ?_ hdir hroom
      rw [length_append, length_singleton]
      omega

private theorem readsb_start : readsb Build.start.img = superblock := by decide +kernel

theorem dinode_zero (s : ℕ) : Block.zero.dinode s = .fresh .free := by
  simp [Block.dinode, Dinode.ofBytes, LittleEndian.word_zero, FileType.ofCode, toShort,
    Dinode.fresh]

private theorem img_start {x : ℕ} (hx : x ≠ 1) : Build.start.img x = .zero := by
  simp [Build.start, hx]

private theorem dinode_start (i : ℕ) : Build.start.disk.dinode i = .fresh .free := by
  simp only [Build.disk, volume, readsb_start]
  split
  next hi =>
    have hne : superblock.iblock i ≠ 1 := by
      have : superblock.inodestart ≤ superblock.iblock i := Nat.le_add_left _ _
      exact fun hc => absurd (hc ▸ this) (by decide)
    rw [img_start hne, dinode_zero]
  · rfl

private theorem data_start (x : ℕ) : Build.start.disk.data x = .zero := by
  simp only [Build.disk, volume, readsb_start]
  split
  · rfl
  next hx =>
    have hne : x ≠ 1 := by
      rintro rfl
      exact hx (by decide)
    exact img_start hne

theorem laid_start : Laid Build.start.view Build.start.freeblock := by
  have hdin i : Build.start.view.dinode i = .fresh .free := dinode_start i
  have hslot i k : Build.start.view.slot i k = 0 :=
    Volume.slot_of_not_allocated (fun hc => hc.2 (by rw [hdin, Dinode.fresh_type])) k
  have hsb : Build.start.view.sb = superblock := readsb_start
  refine ⟨⟨by rw [hsb]; decide, by rw [hsb]; decide, by rw [hsb]; decide,
    fun x hx => decide_eq_true (by rwa [hsb] at hx), ?_⟩, hsb, rfl, data_start 0,
    fun x _ => data_start x⟩
  refine ⟨fun x hx => absurd (hslot _ _) hx, fun x y hx _ => absurd (hslot _ _) hx, fun x hx => ?_⟩
  exact absurd (of_decide_eq_true hx.2.2) (not_lt.mpr (by have := hx.1; rwa [hsb] at this))

structure Formatted (v : Volume) (files : List Input) (fb : ℕ) : Prop where
  laid : Laid v fb
  root : Holds v rootino (direntsOf (entries files))
  rootType : (v.dinode rootino).type = .dir
  rootSize : (v.dinode rootino).size = ((direntsOf (entries files)).length / bsize + 1) * bsize
  file : ∀ k f, files[k]? = some f → Holds v (k + 2) f.contents ∧
    (v.dinode (k + 2)).size = f.contents.length ∧ (v.dinode (k + 2)).type = .file
  unused : ∀ i, i = 0 ∨ files.length + 2 ≤ i → v.dinode i = .fresh .free
  count : fb = used (direntsOf (entries files)) (files.map Input.contents)

theorem byte_mark (buf : Block) (i k : ℕ) : (mark buf i).byte k = if k = i / 8 ∧ k < bsize then
    UInt8.ofNat ((buf.byte k).toNat ||| 1 <<< (i % 8)) else buf.byte k := by
  by_cases hk : k < bsize
  · rw [mark, Block.byte_ofBytes hk]
    simp only [hk, and_true]
  · rw [Block.byte, Block.byte, dif_neg hk, if_neg fun hc => hk hc.2, dif_neg hk]

theorem bit_mark (buf : Block) {i k : ℕ} (hi : i < bpb) :
    (mark buf i).bit k = (buf.bit k || decide (k = i)) := by
  unfold Block.bit
  rw [byte_mark]
  by_cases hk : k / 8 = i / 8
  · have hlt : k / 8 < bsize := by
      simp only [bpb, bsize] at *
      omega
    have hbit : k % 8 = i % 8 ↔ k = i := by omega
    rw [if_pos ⟨hk, hlt⟩, UInt8.toNat_ofNat', Nat.testBit_mod_two_pow, Nat.testBit_or,
      Nat.one_shiftLeft, Nat.testBit_two_pow]
    simp [Nat.mod_lt, ← hbit, eq_comm]
  · have hne : k ≠ i := by
      rintro rfl
      exact hk rfl
    rw [if_neg fun hc => hk hc.1]
    simp [hne]

/-- After the loop of `balloc` the bits below `n` are set. -/
theorem bit_marks (n k : ℕ) (hn : n ≤ bpb) :
    ((List.range n).foldl mark .zero).bit k = decide (k < n) := by
  induction n with
  | zero => simp [Block.bit]
  | succ n ih =>
    rw [List.range_succ, List.foldl_append, List.foldl_cons, List.foldl_nil, bit_mark _ hn,
      ih (Nat.le_of_succ_le hn)]
    rw [← Bool.decide_or, decide_eq_decide]
    omega

theorem disk_balloc {n : ℕ} (hsb : b.disk.sb = superblock) (hn : b.freeblock = n) (hb : n < bpb) :
    (b.setSector superblock.bmapstart ((List.range n).foldl mark .zero)).disk = b.view := by
  subst hn
  have hmap := volume_setMap (d := b.img) (y := (List.range b.freeblock).foldl mark .zero)
    (show b.disk.sb.Arranged from hsb ▸ arranged_superblock)
    (show b.disk.sb.nmeta = b.disk.sb.bmapstart + 1 from hsb ▸ rfl)
  rw [show readsb b.img = superblock from hsb] at hmap
  have hbits : (fun x => decide (x < bpb) && ((List.range b.freeblock).foldl mark .zero).bit x) =
      fun x => decide (x < b.freeblock) := by
    funext x
    rw [bit_marks _ _ hb.le, ← Bool.decide_and, decide_eq_decide]
    omega
  rw [hbits] at hmap
  exact hmap

theorem finish_spec {files : List Input}
    (h : Tree b (direntsOf (entries files)) (files.map Input.contents)) (hb : b.freeblock < bpb)
    (hlen : (direntsOf (entries files)).length ≤ maxfile * bsize) :
    wp (do fixRoot; balloc (← get).freeblock)
      (fun _ b' => Formatted b'.disk files b'.freeblock) E b := by
  have hlt : rootino < superblock.inodeArea := by decide
  have hsb : b.disk.sb = superblock := h.laid.sb
  have hold := inRange_dinode b.img rootino
  have hrange : ((b.disk.dinode rootino).setSize
      (((b.disk.dinode rootino).size / bsize + 1) * bsize)).InRange := by
    refine ⟨hold.major, hold.minor, hold.nlink, ?_, hold.addrs⟩
    rw [h.dir.size]
    simp only [Dinode.setSize_size, bsize, maxfile, ndirect, nindirect] at *
    omega
  have hdisk := Build.disk_setInode hsb hlt hrange
  simp only [fixRoot, wp_bind]
  rw [Build.wp_rinode hsb hlt, Build.wp_winode hlt, wp_get]
  simp only [balloc]
  change wp (if bpb ≤ b.freeblock then _ else _) _ _ _
  rw [if_neg (not_le.mpr hb)]
  simp only [wsect, wp_modify]
  change Formatted (Build.setSector (b.setInode rootino _) superblock.bmapstart
    ((List.range b.freeblock).foldl mark .zero)).disk files b.freeblock
  rw [disk_balloc (b := b.setInode rootino _) (n := b.freeblock) (by rw [hdisk]; exact hsb) rfl hb,
    Build.view, hdisk]
  obtain ⟨hlaid, hroot, hapart⟩ := h.laid.setSize h.dir.holds
    (((b.disk.dinode rootino).size / bsize + 1) * bsize)
  refine ⟨hlaid, hroot, ?_, ?_, fun k f hf => ?_, fun i hi => ?_, h.count⟩
  · simp [h.dir.type]
  · simp [h.dir.size]
  · have hs := h.file k f.contents (by rw [List.getElem?_map, hf]; rfl)
    have hne : k + 2 ≠ rootino := by
      simp only [rootino]
      omega
    have hd := hapart.dinode (k + 2) hne
    exact ⟨hs.holds.apart hapart hne, (congrArg Dinode.size hd).trans hs.size,
      (congrArg Dinode.type hd).trans hs.type⟩
  · have hd := hapart.dinode i (by simp only [rootino]; omega)
    exact hd.trans (h.unused i (by rwa [length_map]))

theorem ialloc_root_spec : wp (ialloc .dir) (fun r b' => r = rootino ∧ Tree b' [] []) E
    Build.start := by
  have harea : rootino < superblock.inodeArea := by decide
  obtain ⟨hnew, hapart⟩ := laid_start.fresh_inode (i := rootino) (t := .dir) harea
    (dinode_start rootino) (by decide) 2 rfl
  simp only [ialloc, wp_bind, wp_get, wp_modify]
  change wp (winode rootino _) _ _ _
  rw [Build.wp_winode harea, wp_pure]
  refine ⟨rfl, hnew.laid, hnew.stores, fun _ _ hk => absurd hk (by simp), fun i hi => ?_, rfl, rfl⟩
  have hd := hapart.dinode i (by simp only [length_nil, rootino] at *; omega)
  exact hd.trans (dinode_start i)

theorem length_entries (files : List Input) : (entries files).length = files.length + 2 := by
  simp [entries]

theorem main_spec {files : List Input} (h : Fits files) :
    wp (main files) (fun _ b' => Formatted b'.disk files b'.freeblock) E Build.start := by
  have hsplit : direntsOf (entries files) = [] ++ direntOf rootino dot ++ direntOf rootino dotdot ++
      direntsOf (fileEntries 2 files) := by
    simp [entries, direntsOf]
  have hlen := length_direntsOf (entries files)
  rw [length_entries] at hlen
  have hsmall : (direntsOf (entries files)).length ≤ maxfile * bsize := by
    have hn := h.inodes
    rw [hlen]
    simp only [ninodes, direntBytes, maxfile, ndirect, nindirect, bsize] at *
    omega
  have hroom := h.blocks
  have hone : blocks ([] ++ direntOf rootino dot).length = 1 := by decide
  have htwo : blocks ([] ++ direntOf rootino dot ++ direntOf rootino dotdot).length = 1 := by decide
  have hnmeta : superblock.nmeta = 46 := by decide
  unfold main
  refine wp_seq ialloc_root_spec (fun r b1 h1 => ?_)
  obtain ⟨rfl, h1⟩ := h1
  have hc1 : b1.freeblock = 46 := h1.count
  refine wp_seq (iappend_spec h1.laid h1.dir (by decide) (by rw [hone, hc1]; decide))
    (fun _ b2 h2 => ?_)
  have h2t := h1.appendRoot h2
  have hc2 : b2.freeblock = 47 := h2t.count
  refine wp_seq (iappend_spec h2t.laid h2t.dir (by decide) (by rw [htwo, hone, hc2]; decide))
    (fun _ b3 h3 => ?_)
  refine wp_seq (addFiles_spec files b3 _ [] (h2t.appendRoot h3) h.slash h.short h.size ?_
    (hsplit ▸ hsmall) (hsplit ▸ hroom)) (fun _ b4 h4 => ?_)
  · rw [length_nil, Nat.zero_add]
    exact h.inodes
  · have h4' : Tree b4 (direntsOf (entries files)) (files.map Input.contents) := hsplit ▸ h4
    refine finish_spec h4' ?_ hsmall
    rw [h4'.count]
    exact hroom.trans_lt (by decide)

theorem main_ok {files : List Input} (h : Fits files) :
    ∃ b, main files Build.start = .ok ((), b) ∧ Formatted b.disk files b.freeblock := by
  obtain ⟨_, b, hb, hf⟩ := wp_total (main_spec h)
  exact ⟨b, hb, hf⟩

theorem image_of_main {files : List Input} (h : main files Build.start = .ok ((), b)) :
    image files = .ok b.disk := by
  rw [image, h]
  rfl

end Xv6.Mkfs
