import Xv6.Fs.Readi

/-! Writing to a file. `writei` ends with `iupdate` on every path past its checks, so that a block
that `bmap` allocated is never lost, whether or not the bytes for it could be copied. -/
namespace Xv6.Fs
open Hoare
variable {P : Type} {E : Panic → Prop} {s t u : State P} {i : ℕ} {src : Src}

theorem byte_copyin {b : Block} {pos m o k : ℕ} (hsrc : ∀ k, (src k).isSome = true)
    (hk : k < bsize) : (copyin b pos m src o).byte k =
      if pos ≤ k ∧ k < pos + m then (src (o + (k - pos))).getD 0 else b.byte k := by
  simp [Block.byte, copyin, hk, Src.mapped, hsrc]

theorem dataSlot_inj {m n : ℕ} (h : dataSlot m = dataSlot n) : m = n := by
  unfold dataSlot at h
  split at h <;> split at h <;> omega

theorem dataSlot_ne (bn : ℕ) : dataSlot bn ≠ ndirect := by
  unfold dataSlot
  split <;> omega

structure Wrote (i : ℕ) (src : Src) (off tot tot' : ℕ) (s t : State P) : Prop
    extends Extended i s t where
  le : tot ≤ tot'
  mapped : ∀ x, off ≤ x → x < off + (tot' - tot) → (t.flushed i).slot i (dataSlot (x / bsize)) ≠ 0
  content : (∀ k, (src k).isSome = true) → ∀ x,
    ((s.flushed i).slot i (dataSlot (x / bsize)) ≠ 0 ∨ (off ≤ x ∧ x < off + (tot' - tot))) →
    (t.flushed i).byte i x =
      if off ≤ x ∧ x < off + (tot' - tot) then (src (tot + (x - off))).getD 0
      else (s.flushed i).byte i x

theorem Grew.byte_eq (h : Grew i s t) {x : ℕ}
    (hx : (s.flushed i).slot i (dataSlot (x / bsize)) ≠ 0) :
    (t.flushed i).byte i x = (s.flushed i).byte i x := by
  unfold Volume.byte
  rw [h.slot _ hx]
  exact congrArg (Block.byte · _) (h.data _ hx (dataSlot_ne _))

theorem Grew.wrote (h : Grew i s t) (src : Src) (off tot : ℕ) : Wrote i src off tot tot s t where
  toExtended := h.toExtended
  le := le_rfl
  mapped x h1 h2 := by
    omega
  content _ x hx := by
    rw [if_neg (by omega)]
    exact h.byte_eq (hx.resolve_right (by omega))

theorem flushed_setData (b : ℕ) (x : Block) :
    (s.setDisk (s.disk.setData b x)).flushed i = (s.flushed i).setData b x := rfl

theorem extended_setData (h : (s.flushed i).Sound) (bn : ℕ) (x : Block) :
    Extended i s (s.setDisk (s.disk.setData ((s.flushed i).slot i (dataSlot bn)) x)) := by
  have hslot := h.slot_setData (dataSlot_ne bn) x (i := i)
  rw [← flushed_setData] at hslot
  refine ⟨?_, rfl, rfl, fun k _ => hslot i k, fun j hj => ⟨?_, hslot j, ?_⟩⟩
  · constructor <;> simp
  · simp [State.flushed]
  · intro k hk _
    have hne : (s.flushed i).slot j k ≠ (s.flushed i).slot i (dataSlot bn) :=
      fun hc => hj (h.slot_inj hk hc).1
    rw [flushed_setData]
    simp [hne]

theorem extended_log (b : ℕ) : Extended i s (s.log b) :=
  ⟨by constructor <;> simp, rfl, rfl, fun _ _ => rfl,
    fun _ _ => ⟨rfl, fun _ => rfl, fun _ _ _ => rfl⟩⟩

theorem wrote_block (h : Grew i s t) (hsound : (t.flushed i).Sound) (src : Src) (tot : ℕ)
    {off m : ℕ} (ha : (t.flushed i).slot i (dataSlot (off / bsize)) ≠ 0)
    (hm : m ≤ bsize - off % bsize) :
    Wrote i src off tot (tot + m) s (t.setDisk (t.disk.setData
      ((t.flushed i).slot i (dataSlot (off / bsize)))
      (copyin (t.disk.data ((t.flushed i).slot i (dataSlot (off / bsize)))) (off % bsize) m src
        tot))) := by
  have hext := extended_setData hsound (off / bsize)
    (copyin (t.disk.data ((t.flushed i).slot i (dataSlot (off / bsize)))) (off % bsize) m src tot)
  refine ⟨h.toExtended.trans hext, by omega, ?_, ?_⟩
  · intro x h1 h2
    obtain ⟨hd, _⟩ := div_mod_of_block off (x - off) (by omega)
    rw [show off + (x - off) = x by omega] at hd
    rw [hd, hext.slot _ ha]
    exact ha
  · intro hsrc x hx
    rw [Nat.add_sub_cancel_left] at hx ⊢
    have hmod := Nat.mod_lt x (show 0 < bsize by decide)
    have hx1 := Nat.div_add_mod x bsize
    have ho1 := Nat.div_add_mod off bsize
    rw [flushed_setData, Volume.byte, hsound.slot_setData (dataSlot_ne _)]
    by_cases hd : x / bsize = off / bsize
    · rw [hd] at hx1 ⊢
      simp only [Volume.setData_data, Function.update_self]
      rw [byte_copyin hsrc hmod]
      by_cases hin : off ≤ x ∧ x < off + m
      · rw [if_pos hin, if_pos (by omega)]
        congr 3
        omega
      · rw [if_neg hin, if_neg (by omega)]
        have hs := hx.resolve_right hin
        rw [← h.byte_eq hs, Volume.byte, hd]
        rfl
    · have hin : ¬ (off ≤ x ∧ x < off + m) := by
        rintro ⟨h1, h2⟩
        obtain ⟨h3, _⟩ := div_mod_of_block off (x - off) (by omega)
        rw [show off + (x - off) = x by omega] at h3
        exact hd h3
      have hs := hx.resolve_right hin
      have ht := h.slot _ hs
      have hne : (t.flushed i).slot i (dataSlot (x / bsize)) ≠
          (t.flushed i).slot i (dataSlot (off / bsize)) :=
        fun hc => hd (dataSlot_inj (hsound.slot_inj (ht ▸ hs) hc).2)
      rw [if_neg hin, ← h.byte_eq hs]
      simp only [Volume.setData_data, Function.update_of_ne hne]
      rfl

theorem Wrote.trans {off tot m tot' : ℕ} (h : Wrote i src off tot (tot + m) s t)
    (h' : Wrote i src (off + m) (tot + m) tot' t u) : Wrote i src off tot tot' s u := by
  have hle := h'.le
  refine ⟨h.toExtended.trans h'.toExtended, by omega, ?_, ?_⟩
  · intro x h1 h2
    by_cases hx : x < off + m
    · have hs := h.mapped x h1 (by omega)
      rw [h'.slot _ hs]
      exact hs
    · exact h'.mapped x (by omega) (by omega)
  · intro hsrc x hx
    have hmid : (t.flushed i).slot i (dataSlot (x / bsize)) ≠ 0 ∨
        (off + m ≤ x ∧ x < off + m + (tot' - (tot + m))) := by
      rcases hx with hx | hx
      · exact .inl (h.slot _ hx ▸ hx)
      · by_cases hlt : x < off + m
        · exact .inl (h.mapped x hx.1 (by omega))
        · exact .inr (by omega)
    rw [h'.content hsrc x hmid]
    by_cases hlate : off + m ≤ x ∧ x < off + m + (tot' - (tot + m))
    · rw [if_pos hlate, if_pos (by omega)]
      congr 2
      omega
    rw [if_neg hlate]
    by_cases hearly : off ≤ x ∧ x < off + (tot + m - tot)
    · rw [h.content hsrc x (.inr hearly), if_pos hearly, if_pos (by omega)]
    · rw [h.content hsrc x (.inl (hx.resolve_right (by omega))), if_neg hearly, if_neg (by omega)]

theorem Wrote.log {off tot tot' b : ℕ} (h : Wrote i src off tot tot' s t) :
    Wrote i src off tot tot' s (t.log b) :=
  ⟨h.toExtended.trans (extended_log b), h.le, h.mapped, h.content⟩

/-- The loop stops early when a byte of the source is not mapped or when no block is free. -/
theorem writeLoop_spec (fuel : ℕ) : ∀ (s : State P) off tot n, Logs E s →
    (s.flushed i).Sound → (s.flushed i).Allocated i → n - tot ≤ fuel →
      off + (n - tot) ≤ maxfile * bsize →
      wp (writeLoop i src fuel off tot n) (fun r t => Wrote i src off tot r s t ∧
        (t.flushed i).Sound ∧ (tot ≤ n → r ≤ n) ∧ (r < n → (∀ k, (src k).isSome = true) →
          ∀ b < t.disk.sb.size, t.disk.bitmap b = true)) E s := by
  induction fuel with
  | zero =>
    intro s off tot n _ hsound hi hn _
    exact ⟨(Grew.refl i s).wrote src off tot, hsound, id, fun hlt => by omega⟩
  | succ fuel ih =>
    intro s off tot n hE hsound hi hn hmax
    unfold writeLoop
    split
    next hle => exact ⟨(Grew.refl i s).wrote src off tot, hsound, id, fun hlt => by omega⟩
    next hlt =>
      have hbn : off / bsize < ndirect + nindirect :=
        Nat.div_lt_of_lt_mul (Nat.mul_comm _ _ ▸ (by omega : off < maxfile * bsize))
      refine wp_seq (bmap_spec hE hsound hi hbn) ?_
      rintro a t ⟨hgrew, hsound', rfl, hfull⟩
      split
      next hz => exact ⟨hgrew.wrote src off tot, hsound', id, fun _ _ => hfull hz⟩
      next ha =>
        have hm : 0 < min (n - tot) (bsize - off % bsize) := by
          have := Nat.mod_lt off (show 0 < bsize by decide)
          omega
        have hw := wrote_block hgrew hsound' src tot ha
          (min_le_right (n - tot) (bsize - off % bsize))
        have hs := hsound'.setData (dataSlot_ne (off / bsize)) (i := i)
        simp only [wp_bind, wp_modify]
        split
        · rw [wp_bind, wp_logWrite]
          split
          · refine wp_post (ih _ _ _ n (hE.congr hgrew.inOp) (hs _) (hw.log.allocated hi)
              (by omega) (by omega)) ?_
            rintro r u ⟨hw', hsound'', hle, hfull'⟩
            exact ⟨hw.log.trans hw', hsound'', fun _ => hle (by omega), hfull'⟩
          next hop => exact hE.congr hgrew.inOp (by simpa using hop)
        next hmap =>
          refine ⟨⟨hgrew.toExtended.trans (extended_setData hsound' _ _), le_rfl, ?_, ?_⟩, hs _,
            id, ?_⟩
          · intro x h1 h2
            omega
          · intro hsrc
            simp [Src.mapped, hsrc] at hmap
          · intro _ hsrc
            simp [Src.mapped, hsrc] at hmap

@[simp] theorem wp_iupdate {Q : Unit → State P → Prop} : wp (iupdate i) Q E s ↔
    if s.inOp then Q () ((s.setDisk (s.flushed i)).log (s.disk.sb.iblock i)) else E .logWrite := by
  unfold iupdate
  simp only [wp_bind, wp_get, wp_set, wp_logWrite]
  rfl

/-- `iupdate` makes a state consistent again that was changed in inode `i` only. -/
theorem State.Consistent.iupdate (h : s.Consistent) (hl : Local i s t)
    (hsound : (t.flushed i).Sound) (hhole : (t.flushed i).NoHole)
    (hi : (t.flushed i).Allocated i) (b : ℕ) :
    ((t.setDisk (t.flushed i)).log b).Consistent where
  sound := hsound
  noHole := hhole
  cached j hj := by
    obtain rfl | hji := eq_or_ne j i
    · exact ⟨by simp [State.flushed], hi⟩
    have hj : s.Locked j := by
      unfold State.Locked at hj ⊢
      rw [← hl.inode j hji]
      exact hj
    obtain ⟨hd, ha⟩ := h.cached j hj
    have hdin : (t.flushed i).dinode j = s.disk.dinode j := by
      simp [State.flushed, hji, hl.dinode j hji]
    refine ⟨?_, ?_⟩
    · simp [hl.inode j hji, hdin, hd]
    · have hsb : (t.flushed i).sb = s.disk.sb := hl.sb
      simpa [Volume.Allocated, hdin, hsb] using ha

structure Written (i : ℕ) (src : Src) (off n : ℕ) (s : State P) (r : Option ℕ) (t : State P) :
    Prop extends Local i s t where
  consistent : t.Consistent
  others : ∀ j, j ≠ i → Volume.SameAt j s.disk t.disk
  attrs : t.disk.dinode i = { s.disk.dinode i with
    size := (t.disk.dinode i).size, addrs := (t.disk.dinode i).addrs }
  refused : r = none ↔ (s.disk.dinode i).size < off ∨ 2 ^ 32 ≤ off + n ∨ maxfile * bsize < off + n
  fail : r = none → t = s
  size : ∀ tot, r = some tot → off ≤ (s.disk.dinode i).size ∧ tot ≤ n ∧
    (t.disk.dinode i).size = max (s.disk.dinode i).size (off + tot)
  content : ∀ tot, r = some tot → (∀ k, (src k).isSome = true) → ∀ x,
    x < (t.disk.dinode i).size → t.disk.byte i x =
      if off ≤ x ∧ x < off + tot then (src (x - off)).getD 0 else s.disk.byte i x
  full : ∀ tot, r = some tot → tot < n → (∀ k, (src k).isSome = true) →
    ∀ b, b < t.disk.sb.size → t.disk.bitmap b = true

theorem setDin_self (s : State P) (i : ℕ) : s.setDin i (s.inode i).din = s := by
  simp [State.setDin]

theorem written_of_wrote (h : s.Consistent) (hi : s.Locked i) {off n tot : ℕ}
    (hok : ¬ ((s.disk.dinode i).size < off ∨ 2 ^ 32 ≤ off + n ∨ maxfile * bsize < off + n))
    (hw : Wrote i src off 0 tot s t) (hsound : (t.flushed i).Sound) (hle : tot ≤ n)
    (hfull : tot < n → (∀ k, (src k).isSome = true) → ∀ b < t.disk.sb.size, t.disk.bitmap b = true)
    (hu : u = t.setDin i ((t.inode i).din.setSize (max (s.disk.dinode i).size (off + tot))))
    (b : ℕ) : Written i src off n s (some tot) ((u.setDisk (u.flushed i)).log b) := by
  have hflush := h.flushed_eq hi
  have hi' := hw.allocated (hflush ▸ (h.cached i hi).2)
  have hlocal : Local i s u := by
    subst hu
    refine hw.toLocal.trans ?_
    constructor <;> simp +contextual
  have hvol : u.flushed i = (t.flushed i).setDinode i
      ((t.inode i).din.setSize (max (s.disk.dinode i).size (off + tot))) := by
    subst hu
    simp [State.flushed]
  have hdin : ((t.flushed i).dinode i) = (t.inode i).din := by simp [State.flushed]
  have hslot : ∀ j k, (u.flushed i).slot j k = (t.flushed i).slot j k := by
    rw [hvol]
    exact Volume.slot_setDinode hi' (hdin ▸ hi'.2) (by rw [hdin]; rfl)
  have hsame : ∀ j ≠ i, Volume.SameAt j s.disk (u.flushed i) := by
    intro j hj
    rw [← hflush]
    refine (hw.others j hj).trans ⟨?_, hslot j, ?_⟩
    · simp [hvol, hj]
    · intro k _ _
      rw [hvol]
      rfl
  have hsize : ((u.flushed i).dinode i).size = max (s.disk.dinode i).size (off + tot) := by
    simp [hvol]
  have hcovered x (hx : x < max (s.disk.dinode i).size (off + tot)) : s.disk.slot i
      (dataSlot (x / bsize)) ≠ 0 ∨ off ≤ x ∧ x < off + (tot - 0) := by
    by_cases hlt : x < (s.disk.dinode i).size
    · exact .inl (h.slot_ne_zero hi x hlt)
    · exact .inr (by omega)
  have hhole : (u.flushed i).NoHole := by
    refine h.noHole.of_same hlocal.sb hsame fun bn hlt => ?_
    rw [hsize] at hlt
    rw [hslot]
    have hbn : bn * bsize / bsize = bn := Nat.mul_div_cancel bn (by decide)
    rcases hcovered _ hlt with hs | hr
    · rw [hbn] at hs
      rw [hw.slot _ (by rwa [hflush]), hflush]
      exact hs
    · have hs := hw.mapped _ hr.1 hr.2
      rwa [hbn] at hs
  have halloc : (u.flushed i).Allocated i := by simpa [hvol, Volume.Allocated, hdin] using hi'
  refine ⟨?_, ?_, hsame, ?_, by simpa using hok, by simp, ?_, ?_, ?_⟩
  · refine hlocal.trans ?_
    constructor <;> simp +contextual [State.flushed]
  · apply h.iupdate hlocal _ hhole halloc
    rw [hvol]
    exact hsound.setDinode hi' (hdin ▸ hi'.2) (by rw [hdin]; rfl)
  · have hattrs := hw.attrs
    rw [(h.cached i hi).1] at hattrs
    change (u.flushed i).dinode i = { s.disk.dinode i with
      size := ((u.flushed i).dinode i).size, addrs := ((u.flushed i).dinode i).addrs }
    have hd : (u.flushed i).dinode i =
        (t.inode i).din.setSize (max (s.disk.dinode i).size (off + tot)) := by simp [hvol]
    rw [hd, hattrs]
    rfl
  · rintro _ ⟨⟩
    exact ⟨by omega, hle, hsize⟩
  · rintro _ ⟨⟩ hsrc x hx
    have hbyte : (u.flushed i).byte i x = (t.flushed i).byte i x := by
      rw [Volume.byte, hslot, hvol]
      rfl
    have hc := hw.content hsrc x (hflush ▸ hcovered x (hsize ▸ hx))
    rw [hflush, Nat.sub_zero, Nat.zero_add] at hc
    exact hbyte.trans hc
  · rintro _ ⟨⟩ hlt hsrc b hb
    subst hu
    exact hfull hlt hsrc b hb

theorem writei_spec (hE : Logs E s) (h : s.Consistent) (hi : s.Locked i) (off n : ℕ) :
    wp (writei i src off n) (Written i src off n s) E s := by
  have hflush := h.flushed_eq hi
  have halloc := (h.cached i hi).2
  have hsame (hc : (s.disk.dinode i).size < off ∨ 2 ^ 32 ≤ off + n ∨ maxfile * bsize < off + n) :
      Written i src off n s none s := by
    exact ⟨.refl i s, h, fun j _ => .refl j _, rfl, by simpa using hc, fun _ => rfl, by simp,
      by simp, by simp⟩
  unfold writei
  simp only [wp_bind, wp_get]
  rw [h.size_eq hi]
  split
  next hc => exact hsame (by omega)
  next hc =>
    split
    next hmax => exact hsame (by omega)
    next hmax =>
      refine wp_seq (writeLoop_spec n s off 0 n hE (hflush ▸ h.sound) (hflush ▸ halloc)
        (by omega) (by omega)) ?_
      rintro tot t ⟨hw, hsound, hle, hfull⟩
      simp only [wp_bind, wp_modify, wp_iupdate, wp_pure]
      have hsize : (t.inode i).din.size = (s.disk.dinode i).size :=
        hw.size_eq.trans (h.size_eq hi)
      have hw' := fun u => written_of_wrote (u := u) h hi (by omega) hw hsound
        (hle (by omega)) hfull
      split
      next hlt =>
        rw [max_eq_right (by omega)] at hw'
        split
        · exact hw' _ rfl _
        next hop => exact hE.congr hw.inOp (by simpa using hop)
      next hge =>
        rw [max_eq_left (by omega), ← hsize] at hw'
        split
        · exact hw' _ (setDin_self t i).symm _
        next hop => exact hE.congr hw.inOp (by simpa using hop)

end Xv6.Fs
