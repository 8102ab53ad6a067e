import Xv6.Fs.Info

/-! The references that a call holds while it runs. Between the start of a call and any point inside
it, the inodes that were in use stay so, and the table has the references of before plus those of
the call. -/
namespace Xv6.Fs
open Hoare
variable {P : Type} {E : Panic → Prop} {s t u : State P} {i j : ℕ} {g g' : ℕ → ℕ} {src : Src}

def one (i : ℕ) : ℕ → ℕ := Pi.single i 1

@[simp] theorem one_self (i : ℕ) : one i i = 1 := Pi.single_eq_same i 1

theorem one_of_ne (h : j ≠ i) : one i j = 0 := Pi.single_eq_of_ne h 1

def State.Anchored (s : State P) : Prop :=
  ∀ i, s.disk.Allocated i → (s.disk.dinode i).nlink = 0 → s.Locked i

def Volume.Short (v : Volume) : Prop := ∀ i, toShort (v.dinode i).nlink = (v.dinode i).nlink

/-- State `t` inside a call that started in `s` and holds the references `g`. -/
structure Holding (g : ℕ → ℕ) (s t : State P) : Prop where
  consistent : t.Consistent
  ref : ∀ j, (t.inode j).ref = (s.inode j).ref + g j
  locked : ∀ j, s.Locked j → t.Locked j
  alloc : ∀ j, 0 < (s.inode j).ref → s.disk.Allocated j → t.disk.Allocated j
  anchored : s.Anchored → t.Anchored
  short : s.disk.Short → t.disk.Short
  file : t.file = s.file
  proc : t.proc = s.proc
  inOp : t.inOp = s.inOp
  sb : t.disk.sb = s.disk.sb
  counted : s.Counted → t.Counted

namespace Holding

theorem refl (h : s.Consistent) : Holding 0 s s :=
  ⟨h, fun _ => rfl, fun _ => id, fun _ _ => id, id, id, rfl, rfl, rfl, rfl, id⟩

variable (h : Holding g s t)
include h

theorem trans (h' : Holding g' t u) : Holding (g + g') s u where
  consistent := h'.consistent
  ref j := by
    rw [h'.ref, h.ref, Pi.add_apply, Nat.add_assoc]
  locked j hj := h'.locked j (h.locked j hj)
  alloc j hr ha := by
    refine h'.alloc j ?_ (h.alloc j hr ha)
    rw [h.ref]
    exact Nat.add_pos_left hr _
  anchored hs := h'.anchored (h.anchored hs)
  short hs := h'.short (h.short hs)
  file := h'.file.trans h.file
  proc := h'.proc.trans h.proc
  inOp := h'.inOp.trans h.inOp
  sb := h'.sb.trans h.sb
  counted hc := h'.counted (h.counted hc)

theorem step (h' : Holding 0 t u) : Holding g s u := by
  have := h.trans h'
  rwa [add_zero] at this

theorem congr (hg : g' = g) : Holding g' s t := hg ▸ h

theorem pos (hi : 0 < g i) : 0 < (t.inode i).ref := by
  rw [h.ref]
  exact Nat.add_pos_right _ hi

/-- The call uses no more entries of the table than it has references. -/
theorem used_le (hc : s.Counted) {S : Finset ℕ} (hg : ∀ j, 0 < g j → j ∈ S) :
    t.used ≤ s.used + S.card := by
  have hsub : t.referenced ⊆ s.referenced ∪ S := by
    intro j hj
    have hr := h.ref j
    by_cases hgj : 0 < g j
    · exact .inr (hg j hgj)
    · have hpos : 0 < (t.inode j).ref := hj
      exact .inl (show 0 < (s.inode j).ref by omega)
  have hle := (Set.encard_le_encard hsub).trans (Set.encard_union_le _ _)
  rw [h.counted hc, hc, Set.encard_coe_eq_coe_finsetCard] at hle
  exact_mod_cast hle

theorem used_le_zero (hc : s.Counted) (hg : g = 0) : t.used ≤ s.used :=
  h.used_le hc (S := ∅) (by simp [hg])

theorem used_le_one (hc : s.Counted) (hg : g = one i) : t.used ≤ s.used + 1 := by
  refine h.used_le hc (S := {i}) fun j hj => ?_
  by_contra hji
  rw [hg, one_of_ne (by simpa using hji)] at hj
  exact absurd hj (lt_irrefl 0)

end Holding

theorem Got.holding (h : Got i s t) (hs : s.Consistent) : Holding (one i) s t where
  consistent := h.consistent hs
  ref j := by
    obtain rfl | hj := eq_or_ne j i
    · rw [h.ref, one_self]
    · rw [h.others j hj, one_of_ne hj, Nat.add_zero]
  locked j := (h.locked_iff j).mpr
  alloc _ _ ha := h.disk ▸ ha
  anchored ha j hj hn := by
    rw [h.disk] at hj hn
    exact (h.locked_iff j).mpr (ha j hj hn)
  short hs := h.disk ▸ hs
  file := h.file
  proc := h.proc
  inOp := h.inOp
  sb := by rw [h.disk]
  counted := h.counted

theorem Loaded.holding (h : Loaded i s t) (hs : s.Consistent) : Holding 0 s t where
  consistent := h.consistent hs
  ref j := by
    obtain rfl | hj := eq_or_ne j i
    · exact h.ref
    · rw [h.others j hj]
      rfl
  locked j := h.locked_of
  alloc _ _ ha := h.disk ▸ ha
  anchored ha j hj hn := by
    rw [h.disk] at hj hn
    exact h.locked_of (ha j hj hn)
  short hs := h.disk ▸ hs
  file := h.file
  proc := h.proc
  inOp := h.inOp
  sb := by rw [h.disk]
  counted hc := by
    refine hc.congr (fun j => ?_) h.used
    obtain rfl | hj := eq_or_ne j i
    · rw [h.ref]
    · rw [h.others j hj]

theorem Local.holding (h : Local i s t) (hi : s.Locked i) (ht : t.Consistent)
    (hshort : s.disk.Short → toShort (t.disk.dinode i).nlink = (t.disk.dinode i).nlink) :
    Holding 0 s t where
  consistent := ht
  ref j := by
    obtain rfl | hj := eq_or_ne j i
    · exact h.ref
    · rw [h.inode j hj]
      rfl
  locked j := (h.locked_iff j).mpr
  alloc j _ ha := by
    obtain rfl | hj := eq_or_ne j i
    · exact (ht.cached j ((h.locked_iff j).mpr hi)).2
    · rwa [Volume.Allocated, h.sb, h.dinode j hj]
  anchored ha j hj hn := by
    rw [h.locked_iff]
    by_cases hji : j = i
    · rw [hji]
      exact hi
    · rw [Volume.Allocated, h.sb, h.dinode j hji] at hj
      rw [h.dinode j hji] at hn
      exact ha j hj hn
  short hs j := by
    by_cases hj : j = i
    · rw [hj]
      exact hshort hs
    · rw [h.dinode j hj]
      exact hs j
  file := h.file
  proc := h.proc
  inOp := h.inOp
  sb := h.sb
  counted hc := by
    refine hc.congr (fun j => ?_) h.used
    obtain rfl | hj := eq_or_ne j i
    · rw [h.ref]
    · rw [h.inode j hj]

theorem Changed.holding {d : Dinode} (h : Changed i d s t) (hi : s.Locked i)
    (hd : s.disk.Short → toShort d.nlink = d.nlink) : Holding 0 s t :=
  h.toLocal.holding hi h.consistent fun hs => by rw [h.result, hd hs]

theorem Written.holding {off n : ℕ} {r : Option ℕ} (h : Written i src off n s r t)
    (hi : s.Locked i) : Holding 0 s t :=
  h.toLocal.holding hi h.consistent fun hs => by rw [h.attrs]; exact hs i

theorem Truncated.holding (h : Truncated i s t) (hi : s.Locked i) : Holding 0 s t :=
  h.toLocal.holding hi h.consistent fun hs => by rw [h.empty]; exact hs i

section
variable (h : Put i t u)
include h

theorem Put.locked_of (hj : t.Locked j) (hr : 0 < (u.inode j).ref) : u.Locked j := by
  obtain rfl | hji := eq_or_ne j i
  · rw [h.ref] at hr
    exact h.locked (by omega) hj
  · rwa [State.Locked, h.others j hji]

theorem Put.disk_of_ref (hr : (t.inode i).ref ≠ 1) : u.disk = t.disk :=
  h.keep fun hc => hr hc.1

theorem Put.allocated (hj : j ≠ i) (ha : t.disk.Allocated j) : u.disk.Allocated j := by
  by_cases hc : (t.inode i).ref = 1 ∧ t.Locked i ∧ (t.disk.dinode i).nlink = 0
  · exact ((h.free hc.1 hc.2.1 hc.2.2).1 j hj).allocated_iff h.sb |>.mpr ha
  · rwa [h.keep hc]

theorem Put.anchored (ha : t.Anchored) : u.Anchored := by
  intro j hj hn
  by_cases hc : (t.inode i).ref = 1 ∧ t.Locked i ∧ (t.disk.dinode i).nlink = 0
  · obtain ⟨hsame, hdin⟩ := h.free hc.1 hc.2.1 hc.2.2
    obtain rfl | hji := eq_or_ne j i
    · rw [Volume.Allocated, hdin] at hj
      exact absurd rfl hj.2
    · have hs := hsame j hji
      rw [hs.dinode] at hn
      rw [State.Locked, h.others j hji]
      exact ha j ((hs.allocated_iff h.sb).mp hj) hn
  · have hdisk := h.keep hc
    rw [hdisk] at hj hn
    have hl := ha j hj hn
    refine h.locked_of hl ?_
    obtain rfl | hji := eq_or_ne j i
    · have hne : (t.inode j).ref ≠ 1 := fun hr => hc ⟨hr, hl, hn⟩
      have hpos := hl.1
      rw [h.ref]
      omega
    · rw [h.others j hji]
      exact hl.1

theorem Put.short (hs : t.disk.Short) : u.disk.Short := by
  by_cases hc : (t.inode i).ref = 1 ∧ t.Locked i ∧ (t.disk.dinode i).nlink = 0
  · obtain ⟨hsame, hdin⟩ := h.free hc.1 hc.2.1 hc.2.2
    intro j
    by_cases hji : j = i
    · rw [hji, hdin]
      exact hs i
    · rw [(hsame j hji).dinode]
      exact hs j
  · rwa [h.keep hc]

end

namespace Holding

theorem put (h : Holding (g + one i) s t) (hp : Put i t u) : Holding g s u where
  consistent := hp.consistent
  ref j := by
    have hj := h.ref j
    rw [Pi.add_apply] at hj
    obtain rfl | hji := eq_or_ne j i
    · rw [one_self] at hj
      rw [hp.ref, hj]
      omega
    · rw [one_of_ne hji, Nat.add_zero] at hj
      rw [hp.others j hji, hj]
  locked j hj := by
    refine hp.locked_of (h.locked j hj) ?_
    have hrj := h.ref j
    have hpos := hj.1
    rw [Pi.add_apply] at hrj
    obtain rfl | hji := eq_or_ne j i
    · rw [one_self] at hrj
      rw [hp.ref]
      omega
    · rw [hp.others j hji, hrj]
      exact Nat.add_pos_left hpos _
  alloc j hr ha := by
    have ht := h.alloc j hr ha
    obtain rfl | hji := eq_or_ne j i
    · have hrj := h.ref j
      rw [Pi.add_apply, one_self] at hrj
      rw [hp.disk_of_ref (by omega)]
      exact ht
    · exact hp.allocated hji ht
  anchored ha := hp.anchored (h.anchored ha)
  short hs := hp.short (h.short hs)
  file := hp.file.trans h.file
  proc := hp.proc.trans h.proc
  inOp := hp.inOp.trans h.inOp
  sb := hp.sb.trans h.sb
  counted hc := hp.counted (h.pos (by simp)) (h.counted hc)

/-- A call that has changed nothing on disk frees nothing when it gives up a reference. -/
theorem put_disk (h : Holding (g + one i) s t) (hs : s.Anchored) (hd : t.disk = s.disk)
    (hp : Put i t u) : u.disk = s.disk := by
  rw [hp.keep, hd]
  rintro ⟨hr, hl, hn⟩
  have hri := h.ref i
  rw [Pi.add_apply, one_self, hr] at hri
  have ha := (h.consistent.cached i hl).2
  rw [hd] at ha hn
  have hpos := (hs i ha hn).1
  omega

end Holding

theorem iput_held (hE : Logs E t) (h : Holding (g + one i) s t) :
    wp (iput i) (fun _ u => Put i t u ∧ Holding g s u) E t := by
  have hpos : 0 < (t.inode i).ref := h.pos (by simp)
  exact wp_post (iput_spec hE h.consistent hpos) (fun _ u hu => ⟨hu, h.put hu⟩)

theorem iunlockput_held (hE : Logs E t) (h : Holding (g + one i) s t) :
    wp (iunlockput i) (fun _ u => Put i t u ∧ Holding g s u) E t := by
  have hpos : 0 < (t.inode i).ref := h.pos (by simp)
  unfold iunlockput iunlock
  simp only [wp_bind, wp_get]
  rw [if_neg (by omega)]
  exact iput_held hE h

/-- `ialloc` has given inode `i` the type `ty`; the caller locks it next. -/
structure Fresh (i : ℕ) (ty : FileType) (s t : State P) : Prop where
  free : ¬ s.disk.Allocated i
  bound : 0 < i ∧ i < s.disk.sb.ninodes
  disk : t.disk = s.disk.setDinode i (.fresh ty)
  others : ∀ j, j ≠ i → t.inode j = s.inode j
  ref : (t.inode i).ref = (s.inode i).ref + 1
  valid : (t.inode i).valid = false
  file : t.file = s.file
  proc : t.proc = s.proc
  inOp : t.inOp = s.inOp
  counted : s.Counted → t.Counted

theorem firstFreeInode_eq_some {d : ℕ → Dinode} {n k : ℕ} :
    ∀ {m : ℕ}, firstFreeInode d n m = some k → m ≤ k ∧ k < m + n ∧ (d k).type = .free := by
  induction n with
  | zero =>
    intro m h
    cases h
  | succ n ih =>
    intro m h
    unfold firstFreeInode at h
    split at h
    next hf =>
      cases h
      exact ⟨le_rfl, by omega, hf⟩
    · obtain ⟨h1, h2, h3⟩ := ih h
      exact ⟨by omega, by omega, h3⟩

theorem ialloc_spec (hE : Lenient E) (h : s.Consistent) (ty : FileType) :
    wp (ialloc ty) (fun r t => match r with
      | none => t = s
      | some i => Fresh i ty s t) E s := by
  unfold ialloc
  simp only [wp_bind, wp_get]
  split
  · rfl
  next i hi =>
    obtain ⟨h1, h2, hfree⟩ := firstFreeInode_eq_some hi
    have hnot : ¬ s.disk.Allocated i := fun ha => ha.2 hfree
    simp only [wp_bind, wp_modify, wp_logWrite]
    split
    · refine wp_post (iget_spec hE) (fun _ t ht => ?_)
      refine ⟨hnot, ⟨by omega, by omega⟩, ht.disk, ht.others, ht.ref, ?_, ht.file, ht.proc, ht.inOp,
        ht.counted⟩
      have hv : ¬ ((t.inode i).valid = true) := by
        rw [ht.valid]
        exact fun hl => hnot (h.cached i hl).2
      simpa using hv
    next hop => exact hE.logs s (by simpa using hop)

namespace Fresh
variable {ty : FileType}
variable (h : Fresh i ty s t)
include h

theorem not_locked : ¬ t.Locked i := by
  rintro ⟨_, hv⟩
  rw [h.valid] at hv
  cases hv

theorem locked_iff (hj : j ≠ i) : t.Locked j ↔ s.Locked j := by
  rw [State.Locked, State.Locked, h.others j hj]

theorem slot_eq_zero (k : ℕ) : s.disk.slot i k = 0 :=
  Volume.slot_of_not_allocated h.free k

theorem sameAt (hj : j ≠ i) : Volume.SameAt j s.disk t.disk := by
  have hd : t.disk.dinode j = s.disk.dinode j := by simp [h.disk, hj]
  have hdata : t.disk.data = s.disk.data := by rw [h.disk]; rfl
  exact ⟨hd, Volume.slot_congr s.disk t.disk (by rw [h.disk]; rfl) hd fun _ => by rw [hdata],
    fun _ _ _ => by rw [hdata]⟩

theorem consistent (hs : s.Consistent) : t.Consistent where
  sound := by
    rw [h.disk]
    exact hs.sound.setDinode_empty (.inr fun _ => rfl) h.slot_eq_zero
  noHole := by
    refine hs.noHole.of_same (by rw [h.disk]; rfl) (fun j hj => h.sameAt hj) fun bn hlt => ?_
    simp [h.disk] at hlt
  cached j hj := by
    have hji : j ≠ i := by
      rintro rfl
      exact h.not_locked hj
    obtain ⟨hd, ha⟩ := hs.cached j ((h.locked_iff hji).mp hj)
    rw [h.others j hji, hd, (h.sameAt hji).dinode]
    exact ⟨rfl, ((h.sameAt hji).allocated_iff (by rw [h.disk]; rfl)).mpr ha⟩

theorem holding (hl : Loaded i t u) (hs : s.Consistent) : Holding (one i) s u where
  consistent := hl.consistent (h.consistent hs)
  ref j := by
    obtain rfl | hj := eq_or_ne j i
    · rw [hl.ref, h.ref, one_self]
    · rw [hl.others j hj, h.others j hj, one_of_ne hj, Nat.add_zero]
  locked j hj := by
    have hji : j ≠ i := by
      rintro rfl
      exact h.free (hs.cached j hj).2
    exact hl.locked_of ((h.locked_iff hji).mpr hj)
  alloc j _ ha := by
    have hji : j ≠ i := by
      rintro rfl
      exact h.free ha
    rw [hl.disk]
    exact ((h.sameAt hji).allocated_iff (by rw [h.disk]; rfl)).mpr ha
  anchored ha j hj hn := by
    by_cases hji : j = i
    · rw [hji]
      exact hl.locked
    · rw [hl.disk] at hj hn
      rw [(h.sameAt hji).dinode] at hn
      refine hl.locked_of ((h.locked_iff hji).mpr (ha j ?_ hn))
      exact ((h.sameAt hji).allocated_iff (by rw [h.disk]; rfl)).mp hj
  short hsh j := by
    rw [hl.disk, h.disk]
    obtain rfl | hji := eq_or_ne j i
    · simp [toShort]
    · simpa [hji] using hsh j
  file := hl.file.trans h.file
  proc := hl.proc.trans h.proc
  inOp := hl.inOp.trans h.inOp
  sb := by
    rw [hl.disk, h.disk]
    rfl
  counted hc := (hl.holding (h.consistent hs)).counted (h.counted hc)

theorem info (hs : s.Consistent) (hty : ty ≠ .free) : t.disk.info =
    Function.update s.disk.info i (some (.of (.fresh ty) [])) := by
  have ha : t.disk.Allocated i := by
    rw [h.disk]
    exact ⟨lt_of_lt_of_le h.bound.2 hs.sound.area, by simpa using hty⟩
  rw [Volume.info_update (by rw [h.disk]; rfl) hs.noHole (fun j hj => h.sameAt hj),
    Volume.info_of_allocated ha, Volume.contents_of_allocated ha]
  simp [h.disk, Volume.bytes]

end Fresh

end Xv6.Fs
