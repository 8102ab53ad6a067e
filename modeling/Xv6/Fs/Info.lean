import Xv6.Fs.Bytes
import Xv6.Fs.Table

/-! What the name space shows of an inode: its type, device numbers, link count and contents. Every
operation on one inode is an update of this view at that inode. -/
namespace Xv6.Fs
open Function Volume
variable {P : Type} {s t : State P} {i : ℕ} {src : Src}

structure Info where
  type : FileType
  major : ℤ
  minor : ℤ
  nlink : ℤ
  bytes : List UInt8
  deriving DecidableEq

def Info.of (d : Dinode) (bs : List UInt8) : Info := ⟨d.type, d.major, d.minor, d.nlink, bs⟩

instance (s : State P) (i : ℕ) : Decidable (s.Locked i) := inferInstanceAs (Decidable (_ ∧ _))

namespace Volume
variable {v v' : Volume}

def info (v : Volume) (i : ℕ) : Option Info :=
  if v.Allocated i then some (.of (v.dinode i) (v.contents i)) else none

theorem info_of_allocated (h : v.Allocated i) :
    v.info i = some (.of (v.dinode i) (v.contents i)) := if_pos h

theorem info_of_not_allocated (h : ¬ v.Allocated i) : v.info i = none := if_neg h

theorem allocated_of_info {x : Info} (h : v.info i = some x) : v.Allocated i := by
  by_contra hn
  rw [info_of_not_allocated hn] at h
  cases h

theorem info_eq_some {x : Info} :
    v.info i = some x ↔ v.Allocated i ∧ Info.of (v.dinode i) (v.contents i) = x := by
  unfold info
  split
  next h => simp [h]
  next h => simp [h]

theorem SameAt.info {j : ℕ} (h : SameAt j v v') (hsb : v'.sb = v.sb) (hv : v.NoHole) :
    v'.info j = v.info j := by
  by_cases ha : v.Allocated j
  · rw [info_of_allocated ha, info_of_allocated ((h.allocated_iff hsb).mpr ha), h.dinode,
      h.contents hsb hv]
  · rw [info_of_not_allocated ha, info_of_not_allocated (mt (h.allocated_iff hsb).mp ha)]

theorem info_update (hsb : v'.sb = v.sb) (hv : v.NoHole) (h : ∀ j ≠ i, SameAt j v v') :
    v'.info = update v.info i (v'.info i) := by
  funext j
  by_cases hj : j = i
  · rw [hj, update_self]
  · rw [update_of_ne hj, (h j hj).info hsb hv]

end Volume

theorem Changed.info {d : Dinode} (h : Changed i d s t) (hs : s.Consistent) (hi : s.Locked i)
    (hsize : d.size = (s.disk.dinode i).size) :
    t.disk.info = update s.disk.info i (some (.of d (s.disk.contents i))) := by
  have ha := (hs.cached i hi).2
  have ha' := (h.consistent.cached i ((h.toLocal.locked_iff i).mpr hi)).2
  rw [info_update h.sb hs.noHole h.same, info_of_allocated ha', h.result]
  have hbytes : t.disk.contents i = s.disk.contents i := by
    rw [contents_of_allocated ha, contents_of_allocated ha', h.result, hsize]
    simp only [Volume.bytes, Volume.byte, h.slot, h.data]
  rw [hbytes]

theorem Written.info {off n m : ℕ} (h : Written i src off n s (some m) t) (hs : s.Consistent)
    (hi : s.Locked i) (hsrc : ∀ k, (src k).isSome = true) :
    t.disk.info = update s.disk.info i
      (some (.of (s.disk.dinode i) (overwrite (s.disk.contents i) off (src.take m)))) := by
  have ha := (hs.cached i hi).2
  have ha' := (h.consistent.cached i ((h.toLocal.locked_iff i).mpr hi)).2
  rw [info_update h.sb hs.noHole h.others, info_of_allocated ha', h.contents ha ha' hsrc, h.attrs]
  rfl

theorem Truncated.info (h : Truncated i s t) (hs : s.Consistent) (hi : s.Locked i) :
    t.disk.info = update s.disk.info i (some (.of (s.disk.dinode i) [])) := by
  have ha' := (h.consistent.cached i ((h.toLocal.locked_iff i).mpr hi)).2
  rw [info_update h.sb hs.noHole h.others, info_of_allocated ha', h.empty,
    contents_of_allocated ha', h.empty]
  rfl

/-- `iput` frees the inode if it was the last reference and the inode has no links. -/
theorem Put.info (h : Put i s t) (hs : s.Consistent) : t.disk.info =
    if (s.inode i).ref = 1 ∧ s.Locked i ∧ (s.disk.dinode i).nlink = 0 then
      update s.disk.info i none else s.disk.info := by
  split
  next hc =>
    obtain ⟨hsame, hdin⟩ := h.free hc.1 hc.2.1 hc.2.2
    rw [info_update h.sb hs.noHole hsame, info_of_not_allocated]
    rintro ⟨_, hty⟩
    rw [hdin] at hty
    exact hty rfl
  next hc => rw [h.keep hc]

end Xv6.Fs
