import Xv6.Fs.Ownership
import Xv6.Fs.Sys

/-! The image that mkfs makes when it is given no files, and small variations of it. -/
namespace Xv6.Fs

def dirBlock (es : List Dirent) : Block := .ofBytes fun k => (es.flatMap Dirent.bytes).getD k 0

def oneBlock (a : ℕ) : Fin (ndirect + 1) → ℕ := fun k => if k.val = 0 then a else 0

/-- A root directory of one block with the entries `es` next to `.` and `..`. Where `fs i` is a
type and a block number, inode `i` is a file of that one block. -/
def image (es : List Dirent) (fs : ℕ → Option (FileType × ℕ)) : Volume where
  sb := ⟨fsmagic, fssize, 1954, ninodes, logsize, 2, 32, 45⟩
  bitmap := fun b => b < 47
  dinode := fun i =>
    if i = rootino then ⟨.dir, 0, 0, 1, bsize, oneBlock 46⟩
    else match fs i with
      | none => .fresh .free
      | some (ty, a) => ⟨ty, 0, 0, 1, bsize, oneBlock a⟩
  data := fun b => if b = 46 then
    dirBlock (⟨rootino, strncpy dirsiz dot⟩ :: ⟨rootino, strncpy dirsiz dotdot⟩ :: es) else .zero

def rootImage : Volume := image [] fun _ => none

theorem slotOf_oneBlock (data : ℕ → Block) {d : Dinode} {a : ℕ} (h : d.addrs = oneBlock a) (k : ℕ) :
    slotOf data d k = if k = 0 then a else 0 := by
  have haddr k : d.addr k = if k = 0 then a else 0 := by
    unfold Dinode.addr
    split
    · rw [h]
      rfl
    next hk => rw [if_neg (by omega)]
  unfold slotOf
  split
  · exact haddr k
  next hk =>
    have hzero : d.addr ndirect = 0 := by simp [haddr, ndirect]
    rw [if_pos hzero, if_neg (by omega)]

section Image
variable {es : List Dirent} {fs : ℕ → Option (FileType × ℕ)} {i k : ℕ}

theorem dinode_image_none (hi : i ≠ rootino) (h : fs i = none) :
    (image es fs).dinode i = .fresh .free := by
  simp only [image, if_neg hi, h]

theorem dinode_image_some {ty : FileType} {a : ℕ} (hi : i ≠ rootino) (h : fs i = some (ty, a)) :
    (image es fs).dinode i = ⟨ty, 0, 0, 1, bsize, oneBlock a⟩ := by
  simp only [image, if_neg hi, h]

theorem slot_image_root (k : ℕ) : (image es fs).slot rootino k = if k = 0 then 46 else 0 := by
  have ha : (image es fs).Allocated rootino := by
    constructor
    · change rootino < (45 - 32) * ipb
      decide
    · simp [image]
  rw [Volume.slot_of_allocated ha]
  exact slotOf_oneBlock _ rfl k

theorem slot_image_some {ty : FileType} {a : ℕ} (hi : i ≠ rootino) (h : fs i = some (ty, a))
    (hty : ty ≠ .free) (hlt : i < (45 - 32) * ipb) :
    (image es fs).slot i k = if k = 0 then a else 0 := by
  have hd : (image es fs).dinode i = _ := dinode_image_some hi h
  have ha : (image es fs).Allocated i := ⟨hlt, by rw [hd]; exact hty⟩
  rw [Volume.slot_of_allocated ha, slotOf_oneBlock _ (by rw [hd])]

/-- A slot in use is that of the root directory or that of one of the files. -/
theorem slot_image (hk : (image es fs).slot i k ≠ 0) : k = 0 ∧
    (i = rootino ∧ (image es fs).slot i k = 46 ∨
      ∃ ty a, fs i = some (ty, a) ∧ (image es fs).slot i k = a) := by
  have ha := Volume.allocated_of_slot hk
  obtain rfl | hi := eq_or_ne i rootino
  · rw [slot_image_root] at hk ⊢
    have hk0 : k = 0 := by
      by_contra hc
      simp [hc] at hk
    exact ⟨hk0, .inl ⟨rfl, if_pos hk0⟩⟩
  · cases hf : fs i with
    | none => exact absurd (by rw [dinode_image_none hi hf]; rfl) ha.2
    | some x =>
      have hd : (image es fs).dinode i = _ := dinode_image_some hi hf
      have hty : x.1 ≠ .free := by
        have := ha.2
        rwa [hd] at this
      rw [slot_image_some hi hf hty ha.1] at hk ⊢
      have hk0 : k = 0 := by
        by_contra hc
        simp [hc] at hk
      exact ⟨hk0, .inr ⟨x.1, x.2, rfl, if_pos hk0⟩⟩

end Image

theorem slot_rootImage (i k : ℕ) : rootImage.slot i k = if i = rootino ∧ k = 0 then 46 else 0 := by
  obtain rfl | hi := eq_or_ne i rootino
  · rw [rootImage, slot_image_root]
    simp
  · rw [Volume.slot_of_not_allocated, if_neg fun hc => hi hc.1]
    rintro ⟨_, hty⟩
    exact hty (by rw [rootImage, dinode_image_none hi rfl]; rfl)

theorem sound_rootImage : rootImage.Sound where
  small := by decide
  reserve := by decide
  area := by decide
  reserved b hb := by
    change b < 46 at hb
    exact decide_eq_true (by omega)
  owned := by
    refine ⟨fun x hx => ?_, fun x y hx hxy => ?_, fun b hb => ⟨(rootino, 0), ?_⟩⟩
    · rw [slot_rootImage] at hx ⊢
      split
      · exact ⟨by decide, by decide, by decide⟩
      next hc => simp [hc] at hx
    · simp only [slot_rootImage] at hx hxy
      have h1 : x.1 = rootino ∧ x.2 = 0 := by
        by_contra hc
        simp [hc] at hx
      have h2 : y.1 = rootino ∧ y.2 = 0 := by
        by_contra hc
        rw [if_pos h1, if_neg hc] at hxy
        cases hxy
      exact Prod.ext (h1.1.trans h2.1.symm) (h1.2.trans h2.2.symm)
    · have h1 : 46 ≤ b := hb.1
      have h2 : b < 47 := of_decide_eq_true hb.2.2
      have hb : b = 46 := by omega
      subst hb
      rw [slot_rootImage]
      exact ⟨rfl, by decide⟩

theorem noHole_rootImage : rootImage.NoHole := by
  intro i bn ha hlt
  have hi : i = rootino := by
    by_contra hi
    exact ha.2 (by rw [rootImage, dinode_image_none hi rfl]; rfl)
  subst hi
  change bn * bsize < bsize at hlt
  have hbn : bn = 0 := by
    simp only [bsize] at hlt
    omega
  subst hbn
  rw [slot_rootImage]
  decide

end Xv6.Fs
