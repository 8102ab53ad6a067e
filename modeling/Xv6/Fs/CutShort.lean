import Xv6.Fs.Bytes

/-! Writes that are cut short by memory that is not mapped. `either_copyin` stores the bytes before
the first that is not mapped in the cached block, and `writei` then releases that block without
logging it. In a block that the call has allocated they lie beyond the size; in one that the file
had, nothing is left behind only if they are the bytes that were there. -/
namespace Xv6.Fs
open Hoare
variable {P : Type} {E : Panic → Prop} {s t u : State P} {i : ℕ} {src : Src}

structure Framed (s t : State P) (l : List ℕ) : Prop where
  logged : t.logged = l ++ s.logged
  sb : t.disk.sb = s.disk.sb
  data : ∀ b, b ∉ l → t.disk.data b = s.disk.data b
  bitmap : ∀ b, s.disk.sb.bblock b ∉ l → t.disk.bitmap b = s.disk.bitmap b
  dinode : ∀ j, s.disk.sb.iblock j ∉ l → t.disk.dinode j = s.disk.dinode j

namespace Framed

theorem refl (s : State P) : Framed s s [] :=
  ⟨rfl, rfl, fun _ _ => rfl, fun _ _ => rfl, fun _ _ => rfl⟩

theorem trans {l l' : List ℕ} (h : Framed s t l) (h' : Framed t u l') : Framed s u (l' ++ l) where
  logged := by rw [h'.logged, h.logged, List.append_assoc]
  sb := h'.sb.trans h.sb
  data b hb := by
    simp only [List.mem_append, not_or] at hb
    rw [h'.data b hb.1, h.data b hb.2]
  bitmap b hb := by
    simp only [List.mem_append, not_or] at hb
    rw [h'.bitmap b (by rw [h.sb]; exact hb.1), h.bitmap b hb.2]
  dinode j hj := by
    simp only [List.mem_append, not_or] at hj
    rw [h'.dinode j (by rw [h.sb]; exact hj.1), h.dinode j hj.2]

theorem of_disk (hd : t.disk = s.disk) (hl : t.logged = s.logged) : Framed s t [] where
  logged := hl
  sb := by rw [hd]
  data _ _ := by rw [hd]
  bitmap _ _ := by rw [hd]
  dinode _ _ := by rw [hd]

theorem setData_log (s : State P) (a : ℕ) (x : Block) :
    Framed s ((s.setDisk (s.disk.setData a x)).log a) [a] where
  logged := rfl
  sb := rfl
  data b hb := by
    have hne : b ≠ a := by simpa using hb
    simp [hne]
  bitmap _ _ := rfl
  dinode _ _ := rfl

theorem setBit_log (s : State P) (a : ℕ) (x : Bool) :
    Framed s ((s.setDisk (s.disk.setBit a x)).log (s.disk.sb.bblock a)) [s.disk.sb.bblock a] where
  logged := rfl
  sb := rfl
  data _ _ := rfl
  bitmap b hb := by
    have hne : b ≠ a := by
      rintro rfl
      simp at hb
    simp [hne]
  dinode _ _ := rfl

theorem setDinode_log (s : State P) (i : ℕ) (d : Dinode) :
    Framed s ((s.setDisk (s.disk.setDinode i d)).log (s.disk.sb.iblock i))
      [s.disk.sb.iblock i] where
  logged := rfl
  sb := rfl
  data _ _ := rfl
  bitmap _ _ := rfl
  dinode j hj := by
    have hne : j ≠ i := by
      rintro rfl
      simp at hj
    simp [hne]

end Framed

/-- What `bmap` does to the disk: it logs every block that it takes from the free map, and none in
which inode `i` had data. -/
structure Spared (i : ℕ) (s t : State P) (l : List ℕ) : Prop extends Framed s t l where
  fresh : ∀ b, s.disk.bitmap b = false → t.disk.bitmap b = true → b ∈ l
  kept : ∀ k ≠ ndirect, (s.flushed i).slot i k ≠ 0 → (s.flushed i).slot i k ∉ l

theorem Spared.refl (i : ℕ) (s : State P) : Spared i s s [] :=
  ⟨.refl s, fun b hb hb' => by simp [hb] at hb', fun _ _ _ => List.not_mem_nil⟩

theorem Spared.trans {l l' : List ℕ} (h : Spared i s t l) (hgrew : Grew i s t)
    (h' : Spared i t u l') : Spared i s u (l' ++ l) where
  toFramed := h.toFramed.trans h'.toFramed
  fresh b hb hb' := by
    cases ht : t.disk.bitmap b with
    | false => exact List.mem_append_left _ (h'.fresh b ht hb')
    | true => exact List.mem_append_right _ (h.fresh b hb ht)
  kept k hk hs := by
    have hslot := hgrew.slot k hs
    have hnew := h'.kept k hk (hslot ▸ hs)
    rw [hslot] at hnew
    simp [hnew, h.kept k hk hs]

def Superblock.MapFits (sb : Superblock) : Prop := sb.bblock (sb.size - 1) < sb.nmeta

theorem Superblock.MapFits.bblock_lt {sb : Superblock} (h : sb.MapFits) {b : ℕ}
    (hb : b < sb.size) : sb.bblock b < sb.nmeta := by
  have hle : b / bpb ≤ (sb.size - 1) / bpb := Nat.div_le_div_right (by omega)
  unfold MapFits bblock at *
  omega

theorem Superblock.MapFits.iblock_lt {sb : Superblock} (h : sb.MapFits)
    (hi : i < sb.inodeArea) : sb.iblock i < sb.nmeta := by
  have hlt : i / ipb < sb.bmapstart - sb.inodestart :=
    Nat.div_lt_of_lt_mul (Nat.mul_comm _ _ ▸ hi)
  have hstart : sb.bmapstart < sb.nmeta := (Nat.le_add_left _ _).trans_lt h
  rw [iblock, Nat.add_comm]
  exact (Nat.add_lt_of_lt_sub' hlt).trans hstart

section Logged
variable (hmap : s.disk.sb.MapFits) (hsound : (s.flushed i).Sound)
include hmap hsound

theorem balloc_spared : wp balloc (fun _ t => ∃ l, Spared i s t l) (fun _ => True) s := by
  unfold balloc
  simp only [wp_bind, wp_get]
  split
  · exact ⟨[], .refl i s⟩
  next b hfree =>
    obtain ⟨hb, hlt⟩ := firstFree_eq_some hfree
    simp only [wp_bind, wp_modify, wp_logWrite, bzero, wp_pure]
    split
    · split
      · refine ⟨_, (Framed.setBit_log s b true).trans (Framed.setData_log _ b .zero), ?_, ?_⟩
        · intro c hc hc'
          obtain rfl : c = b := by
            by_contra hne
            simp [hne, hc] at hc'
          simp
        · intro k _ hk
          have hlive : s.disk.sb.nmeta ≤ _ := (hsound.live_of_slot hk).1
          have hbit := hmap.bblock_lt (b := b) (by omega)
          have hne := hsound.slot_ne_of_free (b := b) hb (hsound.ne_zero_of_free (b := b) hb) i k
          simp [hne]
          omega
      · trivial
    · trivial

theorem bmapAddr_spared (k : ℕ) :
    wp (bmapAddr i k) (fun _ t => ∃ l, Spared i s t l) (fun _ => True) s := by
  unfold bmapAddr
  simp only [wp_bind, wp_get]
  split
  · rw [wp_bind]
    refine wp_post (balloc_spared hmap hsound) ?_
    rintro b t ⟨l, hl⟩
    split
    · exact ⟨l, hl⟩
    · exact ⟨l, hl.toFramed.trans (.of_disk (t := t.setDin i _) rfl rfl), hl.fresh, hl.kept⟩
  · exact ⟨[], .refl i s⟩

theorem bmapEntry_spared (e : ℕ) : wp (bmapEntry ((s.flushed i).slot i ndirect) e)
    (fun _ t => ∃ l, Spared i s t l) (fun _ => True) s := by
  unfold bmapEntry
  simp only [wp_bind, wp_get]
  split
  · rw [wp_bind]
    refine wp_post (balloc_spared hmap hsound) ?_
    rintro b t ⟨l, hl⟩
    split
    · exact ⟨l, hl⟩
    · simp only [wp_bind, wp_modify, wp_logWrite, wp_pure]
      split
      · refine ⟨_, hl.toFramed.trans (.setData_log t _ _), ?_, ?_⟩
        · exact fun c hc hc' => List.mem_append_right _ (hl.fresh c hc hc')
        · intro k hk hs
          have hne : (s.flushed i).slot i k ≠ (s.flushed i).slot i ndirect :=
            fun hc => hk (hsound.slot_inj hs hc).2
          simp [hl.kept k hk hs, hne]
      · trivial
  · exact ⟨[], .refl i s⟩

theorem bmap_spared (hi : (s.flushed i).Allocated i) (bn : ℕ) :
    wp (bmap i bn) (fun _ t => ∃ l, Spared i s t l) (fun _ => True) s := by
  unfold bmap
  split
  · exact bmapAddr_spared hmap hsound bn
  split
  · rw [wp_bind]
    refine wp_post (wp_and (bmapAddr_spec (E := fun _ => True) (fun _ => trivial) hsound hi le_rfl)
      (bmapAddr_spared hmap hsound ndirect)) ?_
    rintro a t ⟨⟨hgrew, hsound', rfl, -⟩, l, hl⟩
    split
    · exact ⟨l, hl⟩
    · refine wp_post (bmapEntry_spared (by rwa [hl.sb]) hsound' _) ?_
      rintro r u ⟨l', hl'⟩
      exact ⟨_, hl.trans hgrew hl'⟩
  · trivial

end Logged

def Src.filled (src : Src) : Src := fun k => some ((src k).getD 0)

theorem take_filled (src : Src) (m : ℕ) : src.filled.take m = src.take m := rfl

theorem Src.mapped_eq_true {o m : ℕ} :
    src.mapped o m = true ↔ ∀ k < m, (src (o + k)).isSome = true := by
  simp [Src.mapped]

theorem copyin_filled {b : Block} {pos m o : ℕ} (h : src.mapped o m = true) :
    copyin b pos m src o = copyin b pos m src.filled o := by
  rw [Src.mapped_eq_true] at h
  funext k
  unfold copyin
  by_cases hk : pos ≤ k.val ∧ k.val < pos + m
  · have h1 : src.mapped o (k.val - pos + 1) = true :=
      Src.mapped_eq_true.mpr fun j hj => h j (by omega)
    have h2 : src.filled.mapped o (k.val - pos + 1) = true := by simp [Src.mapped, Src.filled]
    rw [if_pos ⟨hk.1, hk.2, h1⟩, if_pos ⟨hk.1, hk.2, h2⟩]
    rfl
  · rw [if_neg fun hc => hk ⟨hc.1, hc.2.1⟩, if_neg fun hc => hk ⟨hc.1, hc.2.1⟩]

/-- The bytes that a copy stores before it ends are the ones that were there. -/
private theorem copyin_eq_self_iff {b : Block} {pos m o : ℕ} (hpos : pos + m ≤ bsize) :
    copyin b pos m src o = b ↔
      ∀ k < m, src.mapped o (k + 1) = true → (src (o + k)).getD 0 = b.byte (pos + k) := by
  constructor
  · intro h k hk hmap
    have hbyte := congrFun h ⟨pos + k, by omega⟩
    simp only [copyin, Nat.add_sub_cancel_left] at hbyte
    rw [if_pos ⟨by omega, by omega, hmap⟩] at hbyte
    rw [hbyte, Block.byte, dif_pos (show pos + k < bsize by omega)]
  · intro h
    funext k
    unfold copyin
    split
    next hc =>
      rw [h _ (by omega) hc.2.2, Block.byte]
      simp [show pos + (k.val - pos) = k.val by omega]
    · rfl

/-- The state `u` after `m` bytes from byte `r` of the source on have been stored in the block of
position `o` of the file, as far as they are mapped. -/
def smeared (i : ℕ) (src : Src) (o m r : ℕ) (u : State P) : State P :=
  u.setDisk (u.disk.setData ((u.flushed i).slot i (dataSlot (o / bsize)))
    (copyin (u.disk.data ((u.flushed i).slot i (dataSlot (o / bsize)))) (o % bsize) m src r))

private theorem slot_smeared {o m r : ℕ} (hsound : (u.flushed i).Sound) (k : ℕ) :
    ((smeared i src o m r u).flushed i).slot i k = (u.flushed i).slot i k :=
  hsound.slot_setData (dataSlot_ne _) _ i k

theorem setData_self (s : State P) (a : ℕ) : s.setDisk (s.disk.setData a (s.disk.data a)) = s := by
  simp [State.setDisk, Volume.setData]

/-- How the loop ends: `r` bytes are written as from mapped memory, which gives `u`. There is no
block for the next byte, or its copy fails and leaves what it stored before. -/
structure Stopped (i : ℕ) (src : Src) (n off tot : ℕ) (s : State P) (r : ℕ) (t u : State P)
    (l : List ℕ) : Prop where
  wrote : Wrote i src.filled off tot r s u
  sound : (u.flushed i).Sound
  le : r ≤ n
  framed : Framed s u l
  fresh : ∀ b, s.disk.bitmap b = false → u.disk.bitmap b = true → b ∈ l
  kept : r < n → (s.flushed i).slot i (dataSlot ((off + (r - tot)) / bsize)) ≠ 0 →
    (s.flushed i).slot i (dataSlot ((off + (r - tot)) / bsize)) ∉ l
  ending : t = u ∧ (r < n → (u.flushed i).slot i (dataSlot ((off + (r - tot)) / bsize)) = 0) ∨
    r < n ∧ (u.flushed i).slot i (dataSlot ((off + (r - tot)) / bsize)) ≠ 0 ∧
      t = smeared i src (off + (r - tot)) (min (n - r) (bsize - (off + (r - tot)) % bsize)) r u

theorem Stopped.of_spared {n off tot : ℕ} {l : List ℕ} (hgrew : Grew i s u)
    (hsound : (u.flushed i).Sound) (hl : Spared i s u l) (hle : tot ≤ n)
    (hend : t = u ∧ (tot < n → (u.flushed i).slot i (dataSlot (off / bsize)) = 0) ∨
      tot < n ∧ (u.flushed i).slot i (dataSlot (off / bsize)) ≠ 0 ∧
        t = smeared i src off (min (n - tot) (bsize - off % bsize)) tot u) :
    Stopped i src n off tot s tot t u l := by
  refine ⟨hgrew.wrote _ off tot, hsound, hle, hl.toFramed, hl.fresh, fun _ => ?_, ?_⟩
  · exact hl.kept _ (dataSlot_ne _)
  · rwa [Nat.sub_self, Nat.add_zero]

/-- A whole piece before the rest of the loop. -/
theorem Stopped.trans {n off tot r m : ℕ} {l l' : List ℕ} {v : State P} (hgrew : Grew i s t)
    (hsound : (t.flushed i).Sound) (hl : Spared i s t l)
    (hm : m = min (n - tot) (bsize - off % bsize))
    (ha : (t.flushed i).slot i (dataSlot (off / bsize)) ≠ 0)
    (h : Stopped i src n (off + m) (tot + m) ((smeared i src.filled off m tot t).log
      ((t.flushed i).slot i (dataSlot (off / bsize)))) r v u l') :
    Stopped i src n off tot s r v u
      (l' ++ ([(t.flushed i).slot i (dataSlot (off / bsize))] ++ l)) := by
  have hw := wrote_block hgrew hsound src.filled tot ha (m := m) (by omega)
  have hle := h.wrote.le
  have hend : off + m + (r - (tot + m)) = off + (r - tot) := by omega
  have hkept := h.kept
  have hending := h.ending
  rw [hend] at hkept hending
  refine ⟨hw.log.trans h.wrote, h.sound, h.le,
    (hl.toFramed.trans (Framed.setData_log t _ _)).trans h.framed, ?_, ?_, hending⟩
  · intro b hb hb'
    cases ht : t.disk.bitmap b with
    | false => exact List.mem_append_left _ (h.fresh b ht hb')
    | true => simp [hl.fresh b hb ht]
  · intro hr hs
    -- The loop went on past the end of this block, so that it ended in a later one.
    have hlater : off / bsize < (off + (r - tot)) / bsize := by
      have := Nat.div_add_mod off bsize
      rw [Nat.lt_iff_add_one_le, Nat.le_div_iff_mul_le (by decide), Nat.add_mul]
      have hmod := Nat.mod_lt off (show 0 < bsize by decide)
      rw [Nat.mul_comm] at this
      omega
    have hslot := hgrew.slot _ hs
    have hslot' k : (((smeared i src.filled off m tot t).log
        ((t.flushed i).slot i (dataSlot (off / bsize)))).flushed i).slot i k =
          (t.flushed i).slot i k := slot_smeared hsound k
    rw [hslot', hslot] at hkept
    have hnew := hkept hr hs
    have hne : (s.flushed i).slot i (dataSlot ((off + (r - tot)) / bsize)) ≠
        (t.flushed i).slot i (dataSlot (off / bsize)) := by
      rw [← hslot]
      intro hc
      exact hlater.ne (dataSlot_inj (hsound.slot_inj (hslot ▸ hs) hc).2).symm
    simp [hnew, hne, hl.kept _ (dataSlot_ne _) hs]

theorem writeLoop_stopped {n : ℕ} (fuel : ℕ) :
    ∀ (s : State P) off tot, Logs E s → s.disk.sb.MapFits → (s.flushed i).Sound →
      (s.flushed i).Allocated i → n - tot ≤ fuel → off + (n - tot) ≤ maxfile * bsize → tot ≤ n →
      wp (writeLoop i src fuel off tot n) (fun r t => ∃ u l, Stopped i src n off tot s r t u l)
        E s := by
  induction fuel with
  | zero =>
    intro s off tot _ _ hsound _ hn _ hle
    exact ⟨s, [], .of_spared (.refl i s) hsound (.refl i s) hle (.inl ⟨rfl, fun hlt => by omega⟩)⟩
  | succ fuel ih =>
    intro s off tot hE hmap hsound hi hn hmax hle
    unfold writeLoop
    split
    next hdone =>
      exact ⟨s, [], .of_spared (.refl i s) hsound (.refl i s) hle
        (.inl ⟨rfl, fun hlt => by omega⟩)⟩
    next hlt =>
      have hbn : off / bsize < ndirect + nindirect :=
        Nat.div_lt_of_lt_mul (Nat.mul_comm _ _ ▸ (by omega : off < maxfile * bsize))
      refine wp_seq (wp_and (bmap_spec hE hsound hi hbn) (bmap_spared hmap hsound hi _)) ?_
      rintro a t ⟨⟨hgrew, hsound', rfl, -⟩, l, hl⟩
      split
      next hz => exact ⟨t, l, .of_spared hgrew hsound' hl hle (.inl ⟨rfl, fun _ => hz⟩)⟩
      next ha =>
        have hmod := Nat.mod_lt off (show 0 < bsize by decide)
        simp only [wp_bind, wp_modify]
        split
        next hcopied =>
          rw [copyin_filled hcopied, wp_bind, wp_logWrite]
          have hw := wrote_block hgrew hsound' src.filled tot ha (min_le_right (n - tot) _)
          have hs := hsound'.setData (dataSlot_ne (off / bsize)) (i := i)
          split
          · refine wp_post (ih _ _ _ (hE.congr hgrew.inOp) (by rwa [← hl.sb] at hmap) (hs _)
              (hw.log.allocated hi) (by omega) (by omega) (by omega)) ?_
            rintro r v ⟨u, l', hu⟩
            exact ⟨u, _, .trans hgrew hsound' hl rfl ha hu⟩
          next hop => exact hE.congr hgrew.inOp (by simpa using hop)
        · exact ⟨t, l, .of_spared hgrew hsound' hl hle (.inr ⟨by omega, ha, rfl⟩)⟩

/-- The copy of the piece from byte `tot` on fails in a block that the file had before the call, and
one of the bytes that it stored before it failed differs from the one that was there. -/
def Taints (i : ℕ) (src : Src) (off n : ℕ) (v : Volume) (tot : ℕ) : Prop :=
  tot < n ∧ v.slot i (dataSlot ((off + tot) / bsize)) ≠ 0 ∧
    ∃ k < min (n - tot) (bsize - (off + tot) % bsize), src.mapped tot (k + 1) = true ∧
      (src (tot + k)).getD 0 ≠ (v.data (v.slot i (dataSlot ((off + tot) / bsize)))).byte
        ((off + tot) % bsize + k)

theorem byte_smeared {o m r x : ℕ} (hsound : (u.flushed i).Sound)
    (ha : (u.flushed i).slot i (dataSlot (o / bsize)) ≠ 0) (hx : x / bsize = o / bsize → x < o) :
    ((smeared i src o m r u).flushed i).byte i x = (u.flushed i).byte i x := by
  rw [smeared, flushed_setData, Volume.byte, hsound.slot_setData (dataSlot_ne _), Volume.byte]
  by_cases hd : x / bsize = o / bsize
  · have hlt : x % bsize < o % bsize := by
      have hx1 := Nat.div_add_mod x bsize
      have ho1 := Nat.div_add_mod o bsize
      have := hx hd
      rw [hd] at hx1
      omega
    simp only [hd, Volume.setData_data, Function.update_self, Block.byte, copyin]
    split
    · rw [if_neg fun hc => by omega]
      rfl
    · rfl
  · have hne : (u.flushed i).slot i (dataSlot (x / bsize)) ≠
        (u.flushed i).slot i (dataSlot (o / bsize)) :=
      fun hc => hd (dataSlot_inj (hsound.slot_inj ha hc.symm).2).symm
    simp only [Volume.setData_data, Function.update_of_ne hne]

namespace Stopped
variable {n off tot : ℕ} {l : List ℕ} (h : Stopped i src n off 0 s tot t u l)
include h

theorem outside : t.logged = u.logged ∧ t.inOp = u.inOp ∧ t.inode = u.inode ∧
    t.disk.sb = u.disk.sb := by
  rcases h.ending with ⟨rfl, -⟩ | ⟨-, -, rfl⟩ <;> exact ⟨rfl, rfl, rfl, rfl⟩

/-- A block that the file has got in the call was free before, so that it is logged. -/
theorem mem_of_new (hsound : (s.flushed i).Sound) {k : ℕ} (hs : (s.flushed i).slot i k = 0)
    (hu : (u.flushed i).slot i k ≠ 0) : (u.flushed i).slot i k ∈ l := by
  have hlive := h.sound.live_of_slot hu
  refine h.fresh _ ?_ hlive.2.2
  by_contra hbit
  have hsb : (s.flushed i).sb = (u.flushed i).sb := h.framed.sb.symm
  obtain ⟨⟨j, m⟩, he, hne⟩ := hsound.owned.owner ((u.flushed i).slot i k)
    ⟨hsb ▸ hlive.1, hsb ▸ hlive.2.1, Bool.eq_true_of_not_eq_false hbit⟩
  simp only at he hne
  have hkept : (u.flushed i).slot j m = (s.flushed i).slot j m := by
    by_cases hj : j = i
    · subst hj
      exact h.wrote.slot m hne
    · exact (h.wrote.others j hj).slot m
  obtain ⟨rfl, rfl⟩ := h.sound.slot_inj hu (hkept.trans he).symm
  exact hne hs

theorem clean (hsound : (s.flushed i).Sound) (hno : ¬ Taints i src off n (s.flushed i) tot) :
    Wrote i src.filled off 0 tot s t ∧ (t.flushed i).Sound ∧ Framed s t l := by
  have hend := h.ending
  rw [Nat.sub_zero] at hend
  rcases hend with ⟨rfl, -⟩ | ⟨hlt, hu, rfl⟩
  · exact ⟨h.wrote, h.sound, h.framed⟩
  by_cases hold : (s.flushed i).slot i (dataSlot ((off + tot) / bsize)) = 0
  · refine ⟨⟨h.wrote.toExtended.trans (extended_setData h.sound _ _), h.wrote.le, ?_, ?_⟩,
      h.sound.setData (dataSlot_ne _) _, ⟨h.framed.logged, h.framed.sb, ?_, h.framed.bitmap,
        h.framed.dinode⟩⟩
    · intro x h1 h2
      rw [slot_smeared h.sound]
      exact h.wrote.mapped x h1 h2
    · intro hsrc x hx
      rw [byte_smeared h.sound hu, h.wrote.content hsrc x hx]
      intro hd
      rw [hd] at hx
      have := hx.resolve_left (not_not_intro hold)
      omega
    · intro b hb
      have hne : b ≠ (u.flushed i).slot i (dataSlot ((off + tot) / bsize)) := by
        rintro rfl
        exact hb (h.mem_of_new hsound hold hu)
      simp only [smeared, State.setDisk_disk, Volume.setData_data, Function.update_of_ne hne]
      exact h.framed.data b hb
  · have hkept := h.kept hlt
    rw [Nat.sub_zero] at hkept
    have hself :
        smeared i src (off + tot) (min (n - tot) (bsize - (off + tot) % bsize)) tot u = u := by
      have hmod := Nat.mod_lt (off + tot) (show 0 < bsize by decide)
      rw [smeared, h.wrote.slot _ hold, h.framed.data _ (hkept hold),
        (copyin_eq_self_iff (by omega)).mpr, ← h.framed.data _ (hkept hold), setData_self]
      intro k hk hmapped
      by_contra hc
      exact hno ⟨hlt, hold, k, hk, hmapped, hc⟩
    rw [hself]
    exact ⟨h.wrote, h.sound, h.framed⟩

theorem tainted (ht : Taints i src off n (s.flushed i) tot) :
    ∃ k, (s.flushed i).slot i k ≠ 0 ∧ (s.flushed i).slot i k ∉ l ∧
      t.disk.data ((s.flushed i).slot i k) ≠ s.disk.data ((s.flushed i).slot i k) := by
  obtain ⟨hlt, hs, k, hk, hmapped, hne⟩ := ht
  have hkept := h.kept hlt
  have hend := h.ending
  rw [Nat.sub_zero] at hend hkept
  have hslot := h.wrote.slot _ hs
  refine ⟨_, hs, hkept hs, ?_⟩
  rcases hend with ⟨-, hz⟩ | ⟨-, -, rfl⟩
  · rw [hslot] at hz
    exact absurd (hz hlt) hs
  · have hmod := Nat.mod_lt (off + tot) (show 0 < bsize by decide)
    simp only [smeared, hslot, h.framed.data _ (hkept hs), State.setDisk_disk, Volume.setData_data,
      Function.update_self]
    rw [ne_eq, copyin_eq_self_iff (by omega)]
    exact fun hc => hne (hc k hk hmapped)

end Stopped

/-- What is left of a write of which `tot` bytes went through. -/
structure CutShort (i : ℕ) (src : Src) (off n : ℕ) (s : State P) (tot : ℕ) (t : State P) :
    Prop where
  le : tot ≤ n
  contents : t.disk.contents = Function.update s.disk.contents i
    (overwrite (s.disk.contents i) off (src.take tot))
  unlogged : ∃ l, Framed s t l
  /-- What a later `readi` returns. -/
  read : ∀ dst : ℕ → Bool, ∀ o m, (∀ k, k < m → dst k = true) → o + m < 2 ^ 32 →
    o ≤ (overwrite (s.disk.contents i) off (src.take tot)).length → readi i dst o m t =
      .ok (some (((overwrite (s.disk.contents i) off (src.take tot)).drop o).take m), t)

theorem CutShort.of_written {off n tot : ℕ} (h : s.Consistent) (hi : s.Locked i) (hle : tot ≤ n)
    (hw : Written i src.filled off tot s (some tot) t) {l : List ℕ} (hl : Framed s t l) :
    CutShort i src off n s tot t := by
  have hlocked := (hw.toLocal.locked_iff i).mpr hi
  have ha' := (hw.consistent.cached i hlocked).2
  have hbytes := hw.contents (h.cached i hi).2 ha' fun _ => rfl
  rw [take_filled] at hbytes
  refine ⟨hle, ?_, ⟨l, hl⟩, ?_⟩
  · rw [contents_update hw.sb h.noHole hw.others, hbytes]
  · intro dst o m hdst hlt hlen
    obtain ⟨r, _, hread, rfl, hr⟩ := wp_total (readi_spec hw.consistent hlocked dst o m)
    rw [hread, hr hdst, ← hbytes, Volume.take_drop_contents ha']
    rw [← hbytes, Volume.length_contents ha'] at hlen
    rw [if_pos ⟨hlt, hlen⟩]

/-- The state after the loop, with the size set and the inode written back. -/
theorem Stopped.cutShort_iff {n off tot : ℕ} {l : List ℕ} {v : State P} (h : s.Consistent)
    (hi : s.Locked i) (hmap : s.disk.sb.MapFits) (hst : Stopped i src n off 0 s tot t u l)
    (hok : ¬ ((s.disk.dinode i).size < off ∨ 2 ^ 32 ≤ off + tot ∨ maxfile * bsize < off + tot))
    (hv : v = t.setDin i ((t.inode i).din.setSize (max (s.disk.dinode i).size (off + tot)))) :
    CutShort i src off n s tot ((v.setDisk (v.flushed i)).log (v.disk.sb.iblock i)) ↔
      ¬ Taints i src off n s.disk tot := by
  have hflush := h.flushed_eq hi
  have hsound : (s.flushed i).Sound := hflush ▸ h.sound
  constructor
  · rintro ⟨-, -, ⟨l', hl'⟩, -⟩ htaint
    obtain ⟨k, hk, hnot, hdata⟩ := hst.tainted (hflush ▸ htaint)
    have hlog : l' = s.disk.sb.iblock i :: l := by
      have hlogged := hl'.logged
      subst hv
      simp only [State.log_logged, State.setDisk_logged, State.setDin_logged, State.setDin_disk,
        hst.outside.1, hst.outside.2.2.2, hst.framed.logged, hst.framed.sb] at hlogged
      exact List.append_cancel_right hlogged.symm
    have hmeta : s.disk.sb.nmeta ≤ (s.flushed i).slot i k := (hsound.live_of_slot hk).1
    have hinode := hmap.iblock_lt (h.cached i hi).2.1
    have hsame := hl'.data ((s.flushed i).slot i k) (by
      rw [hlog, List.mem_cons, not_or]
      exact ⟨by omega, hnot⟩)
    subst hv
    exact hdata hsame
  · intro hno
    obtain ⟨hw, hsound', hl⟩ := hst.clean hsound (hflush.symm ▸ hno)
    refine .of_written h hi hst.le (written_of_wrote h hi hok hw hsound' le_rfl
      (fun hc => absurd hc (lt_irrefl tot)) hv _) ((hl.trans (.of_disk ?_ ?_)).trans
        (.setDinode_log v i _)) <;> rw [hv] <;> rfl

/-- A write that is accepted, cut short or not, leaves no trace beyond the bytes it counts, exactly
if no copy that failed stored another byte in a block that the file had. -/
theorem writei_cut_short (src : Src) (h : s.Consistent) (hmap : s.disk.sb.MapFits)
    (hi : s.Locked i) (hop : s.inOp = true) {off n : ℕ} (hoff : off ≤ (s.disk.dinode i).size)
    (hov : off + n < 2 ^ 32) (hmax : off + n ≤ maxfile * bsize) :
    ∃ tot t, writei i src off n s = .ok (some tot, t) ∧
      (CutShort i src off n s tot t ↔ ¬ Taints i src off n s.disk tot) := by
  have hflush := h.flushed_eq hi
  have hE : Logs (fun _ : Panic => False) s := by
    intro hno
    rw [hop] at hno
    cases hno
  have hspec : wp (writei i src off n) (fun r t => ∃ tot, r = some tot ∧
      (CutShort i src off n s tot t ↔ ¬ Taints i src off n s.disk tot)) (fun _ => False) s := by
    unfold writei
    simp only [wp_bind, wp_get]
    rw [h.size_eq hi, if_neg (by omega), if_neg (by omega)]
    refine wp_seq (writeLoop_stopped n s off 0 hE hmap (hflush ▸ h.sound)
      (hflush ▸ (h.cached i hi).2) (by omega) (by omega) (Nat.zero_le n)) ?_
    rintro tot t ⟨u, l, hst⟩
    obtain ⟨-, hinop, hinode, -⟩ := hst.outside
    simp only [wp_bind, wp_modify, wp_iupdate, wp_pure]
    have hsize : (t.inode i).din.size = (s.disk.dinode i).size := by
      rw [hinode, hst.wrote.size_eq, h.size_eq hi]
    have hopt : t.inOp = true := by rw [hinop, hst.wrote.inOp, hop]
    have hle := hst.le
    have hiff := fun v => hst.cutShort_iff (v := v) h hi hmap (by omega)
    split
    next hlt =>
      rw [max_eq_right (by omega)] at hiff
      rw [State.setDin_inOp, if_pos hopt]
      exact ⟨tot, rfl, hiff _ rfl⟩
    next hge =>
      rw [max_eq_left (by omega), ← hsize] at hiff
      exact ⟨tot, rfl, hiff _ (setDin_self t i).symm⟩
  obtain ⟨_, t, hrun, tot, rfl, hiff⟩ := wp_total hspec
  exact ⟨tot, t, hrun, hiff⟩

/-- The mapped memory ends in the middle of the second block, which the call has allocated. -/
theorem writei_cut_short_new_block :
    ∃ tot t, writei 1 (fun k => if k < 1034 then some 7 else none) 0 2000 emptyFileState =
      .ok (some tot, t) ∧
      CutShort 1 (fun k => if k < 1034 then some 7 else none) 0 2000 emptyFileState tot t := by
  have hmap : emptyFileState.disk.sb.MapFits := by
    unfold Superblock.MapFits
    decide
  obtain ⟨tot, t, hrun, hiff⟩ := writei_cut_short (fun k => if k < 1034 then some 7 else none)
    consistent_emptyFileState hmap (i := 1) ⟨by decide, by decide⟩ rfl (Nat.zero_le _) (n := 2000)
    (by decide) (by decide)
  exact ⟨tot, t, hrun, hiff.mpr fun ht => ht.2.1 (slot_emptyFile _ _)⟩

/-- A file of twenty bytes is written at offset zero from memory of which only ten bytes are mapped.
The call returns 0, and yet the first ten bytes of the file have changed, in a block that is not
logged. -/
theorem failed_copy_changes_file : ∃ s t : State Unit, s.Consistent ∧ s.Locked 1 ∧ s.inOp = true ∧
    writei 1 (fun k => if k < 10 then some 9 else none) 0 20 s = .ok (some 0, t) ∧
    s.disk.contents 1 = List.replicate 20 7 ∧
    t.disk.contents 1 = List.replicate 10 9 ++ List.replicate 10 7 ∧
    46 ∉ t.logged ∧ t.disk.data 46 ≠ s.disk.data 46 := by
  have hi : emptyFileState.Locked 1 := ⟨by decide, by decide⟩
  have hrun : ∃ x ∈ (writei 1 (fun _ => some 7) 0 20 emptyFileState).toOption, x.1 = some 20 ∧
      x.2.disk.contents 1 = List.replicate 20 7 ∧
      ∃ y ∈ (writei 1 (fun k => if k < 10 then some 9 else none) 0 20 x.2.beginOp).toOption,
        y.1 = some 0 ∧ y.2.disk.contents 1 = List.replicate 10 9 ++ List.replicate 10 7 ∧
        46 ∉ y.2.logged ∧ y.2.disk.data 46 0 ≠ x.2.disk.data 46 0 := by
    decide +kernel
  obtain ⟨⟨_, s⟩, hs, rfl, hold, ⟨_, t⟩, ht, rfl, hnew, hlog, hdata⟩ := hrun
  have hw := wp_ok (writei_spec (E := fun _ => True) (fun _ => trivial) consistent_emptyFileState hi
    0 20) (toOption_eq_some.mp hs)
  refine ⟨s.beginOp, t, ⟨hw.consistent.sound, hw.consistent.noHole, hw.consistent.cached⟩,
    (hw.toLocal.locked_iff 1).mpr hi, rfl, toOption_eq_some.mp ht, hold, hnew, hlog, fun hc => ?_⟩
  exact hdata (congrFun hc 0)

end Xv6.Fs
