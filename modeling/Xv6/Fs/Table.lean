import Mathlib.Data.Set.Card
import Xv6.Fs.Itrunc

/-! References to inodes: `iget`, `idup`, `ilock`, `iput` and `ialloc` in a consistent state. -/
namespace Xv6.Fs
open Hoare
attribute [local simp] State.Locked
variable {P : Type} {E : Panic → Prop} {s t u : State P} {i : ℕ}

def State.referenced (s : State P) : Set ℕ := {i | 0 < (s.inode i).ref}

/-- The table has as many entries in use as there are inodes with references. -/
def State.Counted (s : State P) : Prop := s.referenced.encard = s.used

theorem State.Counted.congr (h : s.Counted)
    (hr : ∀ j, 0 < (t.inode j).ref ↔ 0 < (s.inode j).ref) (hu : t.used = s.used) : t.Counted := by
  rw [State.Counted, hu, ← h]
  exact congrArg Set.encard (Set.ext hr)

theorem State.counted_insert (hr : ∀ j, 0 < (t.inode j).ref ↔ j = i ∨ 0 < (s.inode j).ref)
    (hi : (s.inode i).ref = 0) : t.referenced.encard = s.referenced.encard + 1 := by
  rw [show t.referenced = insert i s.referenced from Set.ext hr]
  exact Set.encard_insert_of_notMem (by simp [State.referenced, hi])

theorem State.counted_one (h : ∀ j, (s.inode j).ref = if j = i then 1 else 0) (hu : s.used = 1) :
    s.Counted := by
  have hset : s.referenced = {i} := Set.ext fun j => by
    by_cases hj : j = i <;> simp [State.referenced, h, hj]
  rw [State.Counted, hset, Set.encard_singleton, hu]
  rfl

structure TableOnly (s t : State P) : Prop where
  disk : t.disk = s.disk
  file : t.file = s.file
  proc : t.proc = s.proc
  inOp : t.inOp = s.inOp

theorem TableOnly.consistent (h : TableOnly s t) (hs : s.Consistent)
    (hd : ∀ j, t.Locked j → (t.inode j).din = s.disk.dinode j ∧ s.disk.Allocated j) :
    t.Consistent := by
  refine ⟨?_, ?_, ?_⟩
  · rw [h.disk]
    exact hs.sound
  · rw [h.disk]
    exact hs.noHole
  · rw [h.disk]
    exact hd

structure Got (i : ℕ) (s t : State P) : Prop extends TableOnly s t where
  others : ∀ j, j ≠ i → t.inode j = s.inode j
  ref : (t.inode i).ref = (s.inode i).ref + 1
  valid : (t.inode i).valid = true ↔ s.Locked i
  din : (t.inode i).din = (s.inode i).din
  counted : s.Counted → t.Counted

theorem Got.locked_iff (h : Got i s t) (j : ℕ) : t.Locked j ↔ s.Locked j := by
  obtain rfl | hji := eq_or_ne j i
  · unfold State.Locked
    rw [h.ref, h.valid, State.Locked]
    exact and_iff_right (Nat.succ_pos _)
  · rw [State.Locked, State.Locked, h.others j hji]

theorem Got.consistent (h : Got i s t) (hs : s.Consistent) : t.Consistent := by
  apply h.toTableOnly.consistent hs
  intro j hj
  obtain ⟨hd, ha⟩ := hs.cached j ((h.locked_iff j).mp hj)
  refine ⟨?_, ha⟩
  by_cases hji : j = i
  · rw [hji, h.din, ← hji, hd]
  · rw [h.others j hji, hd]

theorem iget_got (hno : ninode ≤ s.used → E .noInodes) : wp (iget i) (fun _ => Got i s) E s := by
  unfold iget
  simp only [wp_bind, wp_get]
  split
  next hr =>
    refine ⟨⟨rfl, rfl, rfl, rfl⟩, ?_, ?_, ?_, ?_, fun hc => hc.congr (fun j => ?_) rfl⟩
    case refine_5 => obtain rfl | hj := eq_or_ne j i <;> simp [*]
    all_goals simp +contextual [hr]
  next hr =>
    split
    · refine ⟨⟨rfl, rfl, rfl, rfl⟩, ?_, ?_, ?_, ?_, fun hc => ?_⟩
      case refine_5 =>
        have hins := State.counted_insert (s := s) (i := i)
          (t := { s with used := s.used + 1 }.setInode i ⟨1, false, (s.inode i).din⟩)
          (fun j => by obtain rfl | hj := eq_or_ne j i <;> simp [*]) (by omega)
        rw [State.Counted, hins, hc]
        rfl
      all_goals simp +contextual [hr]
      omega
    next hfull => exact hno (not_lt.mp hfull)

theorem iget_spec (hE : Lenient E) : wp (iget i) (fun _ => Got i s) E s :=
  iget_got fun _ => hE _ (by decide) (by decide) (by decide)

theorem idup_spec (hi : 0 < (s.inode i).ref) : wp (idup i) (fun _ => Got i s) E s := by
  unfold idup
  rw [wp_modify]
  refine ⟨⟨rfl, rfl, rfl, rfl⟩, ?_, ?_, ?_, ?_, fun hc => hc.congr (fun j => ?_) rfl⟩
  case refine_5 => obtain rfl | hj := eq_or_ne j i <;> simp [*]
  all_goals simp +contextual [hi]

/-- Inode `i` has been read from disk if it was not in the table. -/
structure Loaded (i : ℕ) (s t : State P) : Prop extends TableOnly s t where
  others : ∀ j, j ≠ i → t.inode j = s.inode j
  ref : (t.inode i).ref = (s.inode i).ref
  locked : t.Locked i
  din : (t.inode i).din = s.disk.dinode i
  allocated : s.disk.Allocated i
  used : t.used = s.used

theorem Loaded.locked_of (h : Loaded i s t) {j : ℕ} (hj : s.Locked j) : t.Locked j := by
  by_cases hji : j = i
  · rw [hji]
    exact h.locked
  · rwa [State.Locked, h.others j hji]

theorem Loaded.consistent (h : Loaded i s t) (hs : s.Consistent) : t.Consistent := by
  apply h.toTableOnly.consistent hs
  intro j hj
  obtain rfl | hji := eq_or_ne j i
  · exact ⟨h.din, h.allocated⟩
  · rw [State.Locked, h.others j hji] at hj
    rw [h.others j hji]
    exact hs.cached j hj

/-- `ilock` of an inode in use that is allocated on disk does not panic. -/
theorem ilock_whole (hlock : E .ilock ∨ 0 < (s.inode i).ref)
    (hblock : E .noInodeBlock ∨ i < s.disk.sb.inodeArea)
    (h : s.Locked i → (s.inode i).din = s.disk.dinode i ∧ s.disk.Allocated i)
    (hty : E .noType ∨ (s.disk.dinode i).type ≠ .free) :
    wp (ilock i) (fun _ => Loaded i s) E s := by
  unfold ilock
  simp only [wp_bind, wp_get]
  split
  next hr => exact hlock.resolve_right (by omega)
  next hr =>
    split
    next hv =>
      have hi : s.Locked i := ⟨by omega, hv⟩
      exact ⟨⟨rfl, rfl, rfl, rfl⟩, fun _ _ => rfl, rfl, hi, (h hi).1, (h hi).2, rfl⟩
    · split
      next hge => exact hblock.resolve_right (by omega)
      next hlt =>
        rw [wp_bind, wp_set]
        split
        next hf => exact hty.resolve_right fun hc => hc hf
        next hf =>
          refine ⟨⟨rfl, rfl, rfl, rfl⟩, ?_, ?_, ?_, ?_, ⟨by omega, hf⟩, rfl⟩ <;>
            simp +contextual
          omega

theorem ilock_spec (hE : Lenient E) (h : s.Consistent)
    (hty : E .noType ∨ (s.disk.dinode i).type ≠ .free) :
    wp (ilock i) (fun _ => Loaded i s) E s :=
  ilock_whole (.inl (hE _ (by decide) (by decide) (by decide)))
    (.inl (hE _ (by decide) (by decide) (by decide))) (h.cached i) hty

theorem iunlock_spec (hE : Lenient E) :
    wp (iunlock i) (fun _ t => t = s ∧ 0 < (s.inode i).ref) E s := by
  have hun : E .iunlock := hE _ (by decide) (by decide) (by decide)
  unfold iunlock
  simp only [wp_bind, wp_get]
  split
  · exact hun
  · exact ⟨rfl, by omega⟩

/-- The fields of inode `i` other than its size and addresses have been set to those of `d`, in
the table and on disk. -/
structure Changed (i : ℕ) (d : Dinode) (s t : State P) : Prop extends Local i s t where
  consistent : t.Consistent
  same : ∀ j, j ≠ i → Volume.SameAt j s.disk t.disk
  result : t.disk.dinode i = d
  slot : ∀ j k, t.disk.slot j k = s.disk.slot j k
  data : t.disk.data = s.disk.data

theorem changed_iupdate (h : s.Consistent) (hi : s.Locked i) {d : Dinode} (hty : d.type ≠ .free)
    (ha : d.addrs = (s.disk.dinode i).addrs) (hsz : d.size = (s.disk.dinode i).size) (b : ℕ) :
    Changed i d s (((s.setDin i d).setDisk ((s.setDin i d).flushed i)).log b) := by
  have halloc := (h.cached i hi).2
  have hvol : (s.setDin i d).flushed i = s.disk.setDinode i d := by simp [State.flushed]
  have hlocal : Local i s (s.setDin i d) := by constructor <;> simp +contextual
  have hslot : ∀ j k, ((s.setDin i d).flushed i).slot j k = s.disk.slot j k := by
    rw [hvol]
    exact Volume.slot_setDinode halloc hty ha
  have hsame : ∀ j ≠ i, Volume.SameAt j s.disk ((s.setDin i d).flushed i) := by
    intro j hj
    refine ⟨?_, hslot j, fun _ _ _ => rfl⟩
    simp [hvol, hj]
  refine ⟨?_, ?_, hsame, ?_, hslot, rfl⟩
  · refine hlocal.trans ?_
    constructor <;> simp +contextual [State.flushed]
  · apply h.iupdate hlocal
    · rw [hvol]
      exact h.sound.setDinode halloc hty ha
    · refine h.noHole.of_same hlocal.sb hsame fun bn hlt => ?_
      rw [hslot]
      apply h.noHole i bn halloc
      simpa [hvol, hsz] using hlt
    · simpa [hvol, Volume.Allocated, hty] using halloc.1
  · simp [State.flushed]

/-- What `iput` leaves: one reference less, and the inode freed if that was the last one and the
inode has no links. -/
structure Put (i : ℕ) (s t : State P) : Prop where
  consistent : t.Consistent
  others : ∀ j, j ≠ i → t.inode j = s.inode j
  ref : (t.inode i).ref = (s.inode i).ref - 1
  locked : 1 < (s.inode i).ref → s.Locked i → t.Locked i
  file : t.file = s.file
  proc : t.proc = s.proc
  inOp : t.inOp = s.inOp
  sb : t.disk.sb = s.disk.sb
  keep : ¬ ((s.inode i).ref = 1 ∧ s.Locked i ∧ (s.disk.dinode i).nlink = 0) → t.disk = s.disk
  free : (s.inode i).ref = 1 → s.Locked i → (s.disk.dinode i).nlink = 0 →
    (∀ j, j ≠ i → Volume.SameAt j s.disk t.disk) ∧
      t.disk.dinode i = (s.disk.dinode i).truncated.setType .free
  used : t.used = if (s.inode i).ref = 1 then s.used - 1 else s.used

theorem Put.counted (h : Put i s t) (hr : 0 < (s.inode i).ref) (hc : s.Counted) : t.Counted := by
  have hi := h.ref
  by_cases href : (s.inode i).ref = 1
  · have hins := State.counted_insert (s := t) (t := s) (i := i) (fun j => by
      obtain rfl | hj := eq_or_ne j i
      · simp [href]
      · simp [hj, h.others j hj]) (by omega)
    rw [hc] at hins
    have hfin : t.referenced.encard ≠ ⊤ := by
      intro htop
      rw [htop] at hins
      exact ENat.natCast_ne_top _ hins
    obtain ⟨n, hn⟩ := ENat.ne_top_iff_exists.mp hfin
    rw [← hn] at hins
    have hn' : s.used = n + 1 := by exact_mod_cast hins
    rw [State.Counted, h.used, if_pos href, hn', ← hn]
    rfl
  · refine hc.congr (fun j => ?_) (h.used.trans (if_neg href))
    obtain rfl | hj := eq_or_ne j i
    · omega
    · rw [h.others j hj]

theorem wp_dropRef {Q : Unit → State P → Prop} : wp (dropRef i) Q E s ↔
    Q () { s.setInode i ⟨(s.inode i).ref - 1, (s.inode i).valid, (s.inode i).din⟩ with
      used := if (s.inode i).ref = 1 then s.used - 1 else s.used } := by
  unfold dropRef
  simp only [wp_bind, wp_get]
  split <;> rfl

/-- `iput` frees the inode: it is empty after `itrunc`, then its type and its entry are cleared. -/
theorem put_of_truncated (hi : s.Locked i) (ht : Truncated i s t) (href : (s.inode i).ref = 1)
    (hnl : (s.disk.dinode i).nlink = 0) {d : Dinode} (hd : d = (t.inode i).din.setType .free)
    (hdisk : u.disk = t.disk.setDinode i d)
    (hinode : u.inode = Function.update t.inode i ⟨0, false, d⟩) (hfile : u.file = t.file)
    (hproc : u.proc = t.proc) (hop : u.inOp = t.inOp) (hused : u.used = t.used - 1) :
    Put i s u := by
  have hdin : (t.inode i).din = (s.disk.dinode i).truncated := by
    rw [(ht.consistent.cached i ((ht.toLocal.locked_iff i).mpr hi)).1, ht.empty]
  have hslots k : t.disk.slot i k = 0 := by
    by_cases ha : t.disk.Allocated i
    · rw [Volume.slot_of_allocated ha, ht.empty]
      simp [slotOf, Dinode.addr]
    · exact Volume.slot_of_not_allocated ha k
  have hslot j k : u.disk.slot j k = t.disk.slot j k := by
    rw [hdisk, Volume.slot_setDinode_empty (.inl (by simp [hd]))]
    split
    next hji => rw [hji, hslots]
    · rfl
  have hsame : ∀ j ≠ i, Volume.SameAt j t.disk u.disk := by
    intro j hj
    exact ⟨by simp [hdisk, hj], hslot j, fun _ _ _ => by rw [hdisk]; rfl⟩
  refine ⟨⟨?_, ?_, ?_⟩, ?_, ?_, ?_, hfile.trans ht.file, hproc.trans ht.proc, hop.trans ht.inOp,
    ?_, ?_, ?_, by rw [hused, ht.used, if_pos href]⟩
  · rw [hdisk]
    exact ht.consistent.sound.setDinode_empty (.inl (by simp [hd])) hslots
  · refine ht.consistent.noHole.of_same (by rw [hdisk]; rfl) hsame fun bn hlt => ?_
    simp [hdisk, hd, hdin] at hlt
  · intro j hj
    have hji : j ≠ i := by
      rintro rfl
      simp [hinode] at hj
    have hj' : t.Locked j := by simpa [hinode, hji] using hj
    simpa [hdisk, hinode, hji, Volume.Allocated] using ht.consistent.cached j hj'
  · intro j hj
    simp [hinode, hj, ht.inode j hj]
  · simp [hinode, href]
  · intro hlt _
    omega
  · simp [hdisk, ht.sb]
  · exact fun hno => absurd ⟨href, hi, hnl⟩ hno
  · intro _ _ _
    exact ⟨fun j hj => (ht.others j hj).trans (hsame j hj), by simp [hdisk, hd, hdin]⟩

theorem put_of_kept (h : s.Consistent)
    (hc : ¬ ((s.inode i).ref = 1 ∧ (s.inode i).valid = true ∧ (s.inode i).din.nlink = 0)) :
    Put i s { s.setInode i ⟨(s.inode i).ref - 1, (s.inode i).valid, (s.inode i).din⟩
      with used := if (s.inode i).ref = 1 then s.used - 1 else s.used } := by
  refine ⟨⟨h.sound, h.noHole, ?_⟩, ?_, ?_, ?_, rfl, rfl, rfl, rfl, fun _ => rfl, ?_, rfl⟩
  · intro j hj
    obtain rfl | hji := eq_or_ne j i
    · simp only [State.Locked, State.setInode_inode, Function.update_self] at hj
      simpa using h.cached j ⟨by omega, hj.2⟩
    · have hj' : s.Locked j := by simpa [hji] using hj
      simpa [hji] using h.cached j hj'
  · intro j hj
    simp [hj]
  · simp
  · intro hlt hi
    simpa using ⟨hlt, hi.2⟩
  · intro href hi hnl
    rw [← (h.cached i hi).1] at hnl
    exact absurd ⟨href, hi.2, hnl⟩ hc

theorem iput_spec (hE : Logs E s) (h : s.Consistent) (hr : 0 < (s.inode i).ref) :
    wp (iput i) (fun _ => Put i s) E s := by
  unfold iput
  simp only [wp_bind, wp_get]
  split
  next hc =>
    obtain ⟨href, hv, hnl⟩ := hc
    have hi : s.Locked i := ⟨hr, hv⟩
    rw [(h.cached i hi).1] at hnl
    refine wp_seq (itrunc_spec hE h hi) ?_
    intro _ t ht
    simp only [wp_bind, wp_modify, wp_iupdate, wp_dropRef]
    split
    · refine put_of_truncated hi ht href hnl rfl ?_ ?_ rfl rfl rfl ?_
      · simp [State.flushed]
      · simp [ht.ref, href]
      · simp [ht.ref, href]
    next hop => exact hE.congr ht.inOp (by simpa using hop)
  next hc =>
    rw [wp_dropRef]
    exact put_of_kept h hc

end Xv6.Fs
