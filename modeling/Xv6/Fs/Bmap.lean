import Xv6.Fs.Ownership

/-! What `balloc` and `bmap` do. An inode that is being changed may differ from its copy on disk;
its blocks are accounted for on the disk as `iupdate` would leave it. -/
namespace Xv6.Fs
open Hoare Volume
variable {P : Type}

/-- The errors that no condition on the state excludes here. -/
def Lenient (E : Panic → Prop) : Prop :=
  ∀ e, e ≠ .freeingFreeBlock → e ≠ .noType → e ≠ .unlinkNlink → E e

/-- Inside a transaction `log_write` does not panic. -/
def Logs (E : Panic → Prop) (s : State P) : Prop := s.inOp = false → E .logWrite

theorem Lenient.logs {E : Panic → Prop} (h : Lenient E) (s : State P) : Logs E s :=
  fun _ => h _ (by decide) (by decide) (by decide)

theorem Logs.congr {E : Panic → Prop} {s t : State P} (h : Logs E s) (ht : t.inOp = s.inOp) :
    Logs E t := by
  rwa [Logs, ht]

namespace State

def flushed (s : State P) (i : ℕ) : Volume := s.disk.setDinode i (s.inode i).din

@[simps -fullyApplied] def relog (s : State P) (l : List ℕ) : State P := { s with logged := l }

end State

@[simp] theorem Volume.setDinode_setDinode (v : Volume) (i : ℕ) (d d' : Dinode) :
    (v.setDinode i d).setDinode i d' = v.setDinode i d' := by
  simp [Volume.setDinode]

@[simp] theorem Volume.setBit_setDinode (v : Volume) (i b : ℕ) (d : Dinode) (x : Bool) :
    (v.setDinode i d).setBit b x = (v.setBit b x).setDinode i d := rfl

@[simp] theorem Volume.setData_setDinode (v : Volume) (i b : ℕ) (d : Dinode) (x : Block) :
    (v.setDinode i d).setData b x = (v.setData b x).setDinode i d := rfl

/-- The states differ at most on disk and in the fields of inode `i`. -/
structure Local (i : ℕ) (s t : State P) : Prop where
  inode : ∀ j, j ≠ i → t.inode j = s.inode j
  ref : (t.inode i).ref = (s.inode i).ref
  valid : (t.inode i).valid = (s.inode i).valid
  used : t.used = s.used
  file : t.file = s.file
  proc : t.proc = s.proc
  inOp : t.inOp = s.inOp
  sb : t.disk.sb = s.disk.sb
  dinode : ∀ j, j ≠ i → t.disk.dinode j = s.disk.dinode j

namespace Local
variable {i : ℕ} {s t u : State P}

theorem refl (i : ℕ) (s : State P) : Local i s s :=
  ⟨fun _ _ => rfl, rfl, rfl, rfl, rfl, rfl, rfl, rfl, fun _ _ => rfl⟩

theorem trans (h : Local i s t) (h' : Local i t u) : Local i s u where
  inode j hj := (h'.inode j hj).trans (h.inode j hj)
  ref := h'.ref.trans h.ref
  valid := h'.valid.trans h.valid
  used := h'.used.trans h.used
  file := h'.file.trans h.file
  proc := h'.proc.trans h.proc
  inOp := h'.inOp.trans h.inOp
  sb := h'.sb.trans h.sb
  dinode j hj := (h'.dinode j hj).trans (h.dinode j hj)

end Local

structure Extended (i : ℕ) (s t : State P) : Prop extends Local i s t where
  disk : t.disk.dinode = s.disk.dinode
  attrs : (t.inode i).din = { (s.inode i).din with addrs := (t.inode i).din.addrs }
  slot : ∀ k, (s.flushed i).slot i k ≠ 0 → (t.flushed i).slot i k = (s.flushed i).slot i k
  others : ∀ j, j ≠ i → Volume.SameAt j (s.flushed i) (t.flushed i)

structure Grew (i : ℕ) (s t : State P) : Prop extends Extended i s t where
  data : ∀ k, (s.flushed i).slot i k ≠ 0 → k ≠ ndirect →
    t.disk.data ((s.flushed i).slot i k) = s.disk.data ((s.flushed i).slot i k)

namespace Extended
variable {i : ℕ} {s t u : State P}

theorem refl (i : ℕ) (s : State P) : Extended i s s :=
  ⟨.refl i s, rfl, rfl, fun _ _ => rfl, fun j _ => .refl j _⟩

variable (h : Extended i s t)
include h

theorem trans (h' : Extended i t u) : Extended i s u where
  toLocal := h.toLocal.trans h'.toLocal
  disk := h'.disk.trans h.disk
  attrs := by
    rw [h'.attrs, h.attrs]
  slot k hk := by
    have hs := h.slot k hk
    rw [h'.slot k (hs ▸ hk), hs]
  others j hj := (h.others j hj).trans (h'.others j hj)

theorem type_eq : (t.inode i).din.type = (s.inode i).din.type := by
  rw [h.attrs]

theorem size_eq : (t.inode i).din.size = (s.inode i).din.size := by
  rw [h.attrs]

theorem allocated (hi : (s.flushed i).Allocated i) : (t.flushed i).Allocated i := by
  simpa [Volume.Allocated, State.flushed, h.sb, h.type_eq] using hi

end Extended

namespace Grew
variable {i : ℕ} {s t u : State P}

theorem refl (i : ℕ) (s : State P) : Grew i s s := ⟨.refl i s, fun _ _ _ => rfl⟩

theorem trans (h : Grew i s t) (h' : Grew i t u) : Grew i s u where
  toExtended := h.toExtended.trans h'.toExtended
  data k hk hn := by
    have hs := h.slot k hk
    have hd := h'.data k (hs ▸ hk) hn
    rw [hs] at hd
    exact hd.trans (h.data k hk hn)

end Grew

theorem firstFree_eq_some {bm : ℕ → Bool} {n b c : ℕ} (h : firstFree bm n b = some c) :
    bm c = false ∧ c < b + n := by
  induction n generalizing b with
  | zero => cases h
  | succ n ih =>
    unfold firstFree at h
    split at h
    next hb =>
      cases h
      exact ⟨hb, by omega⟩
    next =>
      obtain ⟨hc, hlt⟩ := ih h
      exact ⟨hc, by omega⟩

theorem firstFree_eq_none {bm : ℕ → Bool} {n b c : ℕ} (h : firstFree bm n b = none) (hb : b ≤ c)
    (hc : c < b + n) : bm c = true := by
  induction n generalizing b with
  | zero => omega
  | succ n ih =>
    unfold firstFree at h
    split at h
    · cases h
    next hne =>
      rcases Nat.eq_or_lt_of_le hb with rfl | hlt
      · simpa using hne
      · exact ih h hlt (by omega)

variable {E : Panic → Prop} {s : State P} {i : ℕ}

@[simp] theorem wp_logWrite {Q : Unit → State P → Prop} {b : ℕ} :
    wp (logWrite b) Q E s ↔ if s.inOp then Q () (s.log b) else E .logWrite := by
  unfold logWrite
  rw [wp_bind, wp_get]
  split <;> simp

/-- No block is free, or the first free block is marked and cleared. -/
theorem balloc_spec (hE : Logs E s) : wp balloc (fun r t =>
    (r = 0 ∧ t = s ∧ ∀ b < s.disk.sb.size, s.disk.bitmap b = true) ∨
    (s.disk.bitmap r = false ∧ r < s.disk.sb.size ∧ ∃ l,
      t = (s.setDisk ((s.disk.setBit r true).setData r .zero)).relog l)) E s := by
  unfold balloc
  simp only [wp_bind, wp_get]
  split
  next h =>
    exact .inl ⟨rfl, rfl, fun b hb => firstFree_eq_none h (Nat.zero_le b) (by omega)⟩
  next b h =>
    obtain ⟨hb, hlt⟩ := firstFree_eq_some h
    simp only [wp_bind, wp_modify, wp_logWrite, bzero, wp_pure]
    split
    · split
      · exact .inr ⟨hb, by omega, _, rfl⟩
      next hop => exact hE (by simpa using hop)
    next hop => exact hE (by simpa using hop)

theorem grew_of_claim {t : State P} {k b : ℕ} (hsound : (s.flushed i).Sound) (hlocal : Local i s t)
    (hdisk : t.disk.dinode = s.disk.dinode)
    (hattrs : (t.inode i).din = { (s.inode i).din with addrs := (t.inode i).din.addrs })
    (hz : (s.flushed i).slot i k = 0) (hb : s.disk.bitmap b = false) (hn : b ≠ 0)
    (hslot : ∀ j l, (t.flushed i).slot j l = if j = i ∧ l = k then b else (s.flushed i).slot j l)
    (hdata : ∀ c ≠ b, c ≠ (s.flushed i).slot i ndirect → t.disk.data c = s.disk.data c) :
    Grew i s t := by
  have hkept j l (hl : (s.flushed i).slot j l ≠ 0) : (t.flushed i).slot j l =
      (s.flushed i).slot j l := by
    rw [hslot, if_neg]
    rintro ⟨rfl, rfl⟩
    exact hl hz
  have hsame j l (hl : (s.flushed i).slot j l ≠ 0) (hne : l ≠ ndirect) : t.disk.data
      ((s.flushed i).slot j l) = s.disk.data ((s.flushed i).slot j l) := by
    apply hdata
    · exact hsound.slot_ne_of_free hb hn j l
    · exact fun hc => hne (hsound.slot_inj hl hc).2
  refine ⟨⟨hlocal, hdisk, hattrs, hkept i, fun j hj => ⟨?_, ?_, hsame j⟩⟩, hsame i⟩
  · simp [State.flushed, hj, hdisk]
  · intro l
    rw [hslot, if_neg fun hc => hj hc.1]

/-- What `bmap` promises of the address `r` it returns for slot `k`. -/
def Mapped (i k : ℕ) (s : State P) (r : ℕ) (t : State P) : Prop :=
  Grew i s t ∧ (t.flushed i).Sound ∧ (t.flushed i).slot i k = r ∧
    (r = 0 → ∀ b, b < t.disk.sb.size → t.disk.bitmap b = true)

theorem mapped_of_claimAddr {t : State P} {k b : ℕ} (hsound : (s.flushed i).Sound)
    (hi : (s.flushed i).Allocated i) (hk : k ≤ ndirect) (hz : (s.flushed i).slot i k = 0)
    (hb : s.disk.bitmap b = false) (hlt : b < s.disk.sb.size) (hlocal : Local i s t)
    (hdisk : t.disk = (s.disk.setBit b true).setData b .zero)
    (hdin : (t.inode i).din = (s.inode i).din.setAddr k b) : Mapped i k s b t := by
  have hn := hsound.ne_zero_of_free (b := b) hb
  have hflush : t.flushed i = (s.flushed i).claimAddr i k b := by
    simp [State.flushed, Volume.claimAddr, hdisk, hdin]
  have hslot := slot_claimAddr hsound hi hk hz hb hn
  rw [← hflush] at hslot
  refine ⟨?_, ?_, (hslot i k).trans (if_pos ⟨rfl, rfl⟩), fun hc => absurd hc hn⟩
  · refine grew_of_claim hsound hlocal ?_ ?_ hz hb hn hslot ?_
    · rw [hdisk]
      rfl
    · rw [hdin]
      rfl
    · intro c hc _
      simp [hdisk, hc]
  · exact hflush ▸ hsound.claimAddr hi hk hz hb hlt

theorem bmapAddr_spec (hE : Logs E s) (hsound : (s.flushed i).Sound)
    (hi : (s.flushed i).Allocated i) {k : ℕ} (hk : k ≤ ndirect) :
    wp (bmapAddr i k) (Mapped i k s) E s := by
  have haddr : (s.flushed i).slot i k = (s.inode i).din.addr k := by
    rw [slot_le hi hk]
    simp [State.flushed]
  unfold bmapAddr
  simp only [wp_bind, wp_get]
  split
  next hz =>
    refine wp_seq (balloc_spec hE) ?_
    rintro b t (⟨rfl, rfl, hfull⟩ | ⟨hb, hlt, l, rfl⟩)
    · rw [if_pos rfl, wp_pure]
      exact ⟨.refl i t, hsound, haddr.trans hz, fun _ => hfull⟩
    split
    next hn => exact absurd hn (hsound.ne_zero_of_free (b := b) hb)
    · simp only [wp_bind, wp_modify, wp_pure]
      refine mapped_of_claimAddr hsound hi hk (haddr.trans hz) hb hlt ?_ rfl ?_
      · constructor <;> simp +contextual
      · simp
  next hz => exact ⟨.refl i s, hsound, haddr, fun hc => absurd hc hz⟩

theorem mapped_of_claimEntry {t : State P} {e b : ℕ} (hsound : (s.flushed i).Sound)
    (hi : (s.flushed i).Allocated i) (he : e < nindirect)
    (ha : (s.flushed i).slot i ndirect ≠ 0) (hz : (s.flushed i).slot i (ndirect + 1 + e) = 0)
    (hb : s.disk.bitmap b = false) (hlt : b < s.disk.sb.size) (hlocal : Local i s t)
    (hdisk : t.disk = ((s.disk.setBit b true).setData b .zero).setData
      ((s.flushed i).slot i ndirect)
      ((s.disk.data ((s.flushed i).slot i ndirect)).setWord e b))
    (hdin : (t.inode i).din = (s.inode i).din) : Mapped i (ndirect + 1 + e) s b t := by
  have hn := hsound.ne_zero_of_free (b := b) hb
  have haddr := slot_le hi (le_refl ndirect)
  have hflush : t.flushed i = (s.flushed i).claimEntry i e b := by
    rw [haddr] at hdisk
    simp [State.flushed, Volume.claimEntry, hdisk, hdin]
  rw [haddr] at ha
  have hslot := slot_claimEntry hsound hi he ha hz hb hlt
  rw [← hflush] at hslot
  refine ⟨?_, ?_, (hslot i _).trans (if_pos ⟨rfl, rfl⟩), fun hc => absurd hc hn⟩
  · refine grew_of_claim hsound hlocal ?_ ?_ hz hb hn hslot ?_
    · rw [hdisk]
      rfl
    · rw [hdin]
    · intro c hc hca
      simp [hdisk, hc, hca]
  · exact hflush ▸ hsound.claimEntry hi he ha hz hb hlt

variable (hE : Logs E s) (hsound : (s.flushed i).Sound) (hi : (s.flushed i).Allocated i)
include hE hsound hi

theorem bmapEntry_spec {e : ℕ} (he : e < nindirect) (ha : (s.flushed i).slot i ndirect ≠ 0) :
    wp (bmapEntry ((s.flushed i).slot i ndirect) e) (Mapped i (ndirect + 1 + e) s) E s := by
  have hentry : (s.flushed i).slot i (ndirect + 1 + e) =
      (s.disk.data ((s.flushed i).slot i ndirect)).word e := by
    have haddr := slot_le hi (le_refl ndirect)
    rw [haddr] at ha ⊢
    exact slot_entry hi ha he
  unfold bmapEntry
  simp only [wp_bind, wp_get]
  split
  next hz =>
    refine wp_seq (balloc_spec hE) ?_
    rintro b t (⟨rfl, rfl, hfull⟩ | ⟨hb, hlt, l, rfl⟩)
    · rw [if_pos rfl, wp_pure]
      exact ⟨.refl i t, hsound, hentry.trans hz, fun _ => hfull⟩
    split
    next hn => exact absurd hn (hsound.ne_zero_of_free (b := b) hb)
    next hn =>
      have hab := hsound.slot_ne_of_free (b := b) hb hn i ndirect
      simp only [wp_bind, wp_modify, wp_logWrite, wp_pure]
      split
      · refine mapped_of_claimEntry hsound hi he ha (hentry.trans hz) hb hlt ?_ ?_ rfl
        · constructor <;> simp
        · simp [hab]
      next hop => exact hE (by simpa using hop)
  next hz => exact ⟨.refl i s, hsound, hentry, fun hc => absurd hc hz⟩

/-- `bmap` finds or allocates the block with number `bn` of a file. -/
theorem bmap_spec {bn : ℕ} (hbn : bn < ndirect + nindirect) :
    wp (bmap i bn) (Mapped i (dataSlot bn) s) E s := by
  unfold bmap
  split
  next hlt =>
    rw [dataSlot, if_pos hlt]
    exact bmapAddr_spec hE hsound hi (Nat.le_of_lt hlt)
  next hlt =>
    split
    next he =>
      refine wp_seq (bmapAddr_spec hE hsound hi le_rfl) ?_
      rintro a t ⟨hgrew, hsound', rfl, hfull⟩
      have hi' := hgrew.allocated hi
      have hslot : dataSlot bn = ndirect + 1 + (bn - ndirect) := by
        rw [dataSlot, if_neg hlt]
        omega
      rw [hslot]
      split
      next hz =>
        refine ⟨hgrew, hsound', ?_, fun _ => hfull hz⟩
        have haddr := hz
        rw [slot_le hi' le_rfl] at haddr
        rw [slot_of_allocated hi', slotOf, if_neg (by omega), if_pos haddr]
      next hn =>
        refine wp_post (bmapEntry_spec (hE.congr hgrew.inOp) hsound' hi' he hn) ?_
        rintro r u ⟨hgrew', hsound'', hr, hfull'⟩
        exact ⟨hgrew.trans hgrew', hsound'', hr, hfull'⟩
    · omega

end Xv6.Fs
