import Xv6.Fs.Writei

/-! `itrunc` gives every block of a file back. The bit of a block in a slot is set and no two slots
hold the same block, so `bfree` never meets a free block. -/
namespace Xv6.Fs
open Function Hoare List Volume
attribute [local simp] Volume.Allocated
variable {P : Type} {E : Panic → Prop} {s t u : State P} {i : ℕ}

@[simps -fullyApplied] def Volume.setBitmap (v : Volume) (bm : ℕ → Bool) : Volume :=
  { v with bitmap := bm }

@[simp] theorem Volume.setBitmap_setDinode (v : Volume) (i : ℕ) (d : Dinode) (bm : ℕ → Bool) :
    (v.setDinode i d).setBitmap bm = (v.setBitmap bm).setDinode i d := rfl

@[simp] theorem Volume.setBit_setBitmap (v : Volume) (bm : ℕ → Bool) (b : ℕ) (x : Bool) :
    (v.setBitmap bm).setBit b x = v.setBitmap (update bm b x) := rfl

theorem wp_bfree {Q : Unit → State P → Prop} {b : ℕ} (hb : s.disk.bitmap b = true) :
    wp (bfree b) Q E s ↔ if s.inOp then
      Q () ((s.setDisk (s.disk.setBit b false)).log (s.disk.sb.bblock b)) else E .logWrite := by
  unfold bfree
  simp only [wp_bind, wp_get, hb]
  simp

structure Shrunk (i : ℕ) (s t : State P) : Prop extends Local i s t where
  disk : t.disk.dinode = s.disk.dinode
  data : t.disk.data = s.disk.data
  attrs : (t.inode i).din = { (s.inode i).din with addrs := (t.inode i).din.addrs }

namespace Shrunk

theorem refl (i : ℕ) (s : State P) : Shrunk i s s := ⟨.refl i s, rfl, rfl, rfl⟩

theorem trans (h : Shrunk i s t) (h' : Shrunk i t u) : Shrunk i s u where
  toLocal := h.toLocal.trans h'.toLocal
  disk := h'.disk.trans h.disk
  data := h'.data.trans h.data
  attrs := by rw [h'.attrs, h.attrs]

theorem allocated (h : Shrunk i s t) (hi : (s.flushed i).Allocated i) :
    (t.flushed i).Allocated i := by
  have ht : (t.inode i).din.type = (s.inode i).din.type := by rw [h.attrs]
  simpa [State.flushed, h.sb, ht] using hi

theorem others (h : Shrunk i s t) {j : ℕ} (hj : j ≠ i) :
    Volume.SameAt j (s.flushed i) (t.flushed i) := by
  have hd : (t.flushed i).dinode j = (s.flushed i).dinode j := by simp [State.flushed, hj, h.disk]
  have hdata : (t.flushed i).data = (s.flushed i).data := h.data
  refine ⟨hd, ?_, fun _ _ _ => by rw [hdata]⟩
  exact slot_congr _ _ h.sb hd fun _ => by rw [hdata]

end Shrunk

theorem slot_dropAddr {v : Volume} (hi : v.Allocated i) {k : ℕ} (hk : k < ndirect) (b j l : ℕ) :
    ((v.setBit b false).setDinode i ((v.dinode i).setAddr k 0)).slot j l =
      if j = i ∧ l = k then 0 else v.slot j l := by
  obtain rfl | hji := eq_or_ne j i
  · have halloc : ((v.setBit b false).setDinode j ((v.dinode j).setAddr k 0)).Allocated j := by
      simpa using hi
    have hdin : ((v.setBit b false).setDinode j ((v.dinode j).setAddr k 0)).dinode j =
        (v.dinode j).setAddr k 0 := by simp
    by_cases hl : l ≤ ndirect
    · rw [slot_le halloc hl, slot_le hi hl, hdin, Dinode.addr_setAddr _ (.inr hl)]
      simp
    · rw [slot_of_allocated halloc, slot_of_allocated hi, hdin, if_neg (by omega)]
      unfold slotOf
      rw [if_neg hl, if_neg hl, Dinode.addr_setAddr _ (.inr le_rfl),
        if_neg (show ndirect ≠ k by omega)]
      rfl
  · rw [if_neg fun hc => hji hc.1]
    exact slot_congr v ((v.setBit b false).setDinode i ((v.dinode i).setAddr k 0)) rfl
      (by simp [hji]) (fun _ => rfl) l

theorem sound_dropAddr {v : Volume} (h : v.Sound) (hi : v.Allocated i) {k : ℕ} (hk : k < ndirect)
    (hz : v.slot i k ≠ 0) :
    ((v.setBit (v.slot i k) false).setDinode i ((v.dinode i).setAddr k 0)).Sound := by
  have hslot := slot_dropAddr hi hk (v.slot i k)
  refine h.release _ (i := i) (· = k) rfl ?_ ?_ ?_
  · intro b
    by_cases hb : b = v.slot i k
    · subst hb
      simp [hz]
    · have hb' : v.slot i k ≠ b := fun hc => hb hc.symm
      simp [hb, hb']
  · rintro l rfl
    rw [hslot, if_pos ⟨rfl, rfl⟩]
  · intro j l hne
    rw [hslot, if_neg hne]

theorem freeDirect_spec (hE : Logs E s) (hsound : (s.flushed i).Sound)
    (hi : (s.flushed i).Allocated i) :
    wp (freeDirect i) (fun _ t => Shrunk i s t ∧ (t.flushed i).Sound ∧
      ∀ k < ndirect, (t.inode i).din.addr k = 0) E s := by
  unfold freeDirect
  refine wp_post (wp_forM (fun xs t => Shrunk i s t ∧ (t.flushed i).Sound ∧
      (∀ k ∈ xs, k < ndirect) ∧ ∀ k < ndirect, k ∉ xs → (t.inode i).din.addr k = 0) ?_ _ s ?_) ?_
  · rintro k xs t ⟨hsh, hsd, hlt, hzero⟩
    have hk := hlt k (.head _)
    have hi' := hsh.allocated hi
    have haddr : (t.flushed i).slot i k = (t.inode i).din.addr k := by
      rw [slot_le hi' hk.le]
      simp [State.flushed]
    simp only [wp_bind, wp_get]
    split
    next hz =>
      refine ⟨hsh, hsd, fun l hl => hlt l (.tail k hl), fun l hl hn => ?_⟩
      by_cases hlk : l = k
      · rw [hlk, hz]
      · exact hzero l hl (by simp [hlk, hn])
    next hz =>
      have hbit : t.disk.bitmap ((t.inode i).din.addr k) = true := by
        rw [← haddr] at hz ⊢
        exact (hsd.live_of_slot hz).2.2
      rw [wp_bind, wp_bfree hbit]
      split
      · rw [wp_modify]
        refine ⟨hsh.trans ?_, ?_, fun l hl => hlt l (.tail k hl), fun l hl hn => ?_⟩
        · refine ⟨?_, rfl, rfl, ?_⟩
          · constructor <;> simp +contextual
          · simp [Dinode.setAddr]
        · have hs := sound_dropAddr hsd hi' hk (by rwa [haddr])
          rw [haddr] at hs
          simpa [State.flushed] using hs
        · simp only [State.setDin_inode, update_self]
          rw [Dinode.addr_setAddr _ (.inr hl.le)]
          split
          · rfl
          next hlk => exact hzero l hl (by simp [hlk, hn])
      next hop => exact hE.congr hsh.inOp (by simpa using hop)
  · exact ⟨.refl i s, hsound, fun k hk => mem_range.mp hk,
      fun k hk hn => absurd (mem_range.mpr hk) hn⟩
  · rintro _ t ⟨hsh, hsd, _, hzero⟩
    exact ⟨hsh, hsd, fun k hk => hzero k hk (by simp)⟩

/-- The blocks `f j` for `j` in a list are given back, one after the other. -/
theorem wp_bfree_forM (f : ℕ → ℕ) (xs : List ℕ) (hnd : xs.Nodup) :
    ∀ s : State P, Logs E s → (∀ j ∈ xs, f j ≠ 0 → s.disk.bitmap (f j) = true) →
      (∀ j ∈ xs, ∀ l ∈ xs, f j ≠ 0 → f j = f l → j = l) →
      wp (xs.forM fun j => if f j = 0 then pure () else bfree (f j)) (fun _ t => ∃ bm l,
        t = (s.setDisk (s.disk.setBitmap bm)).relog l ∧
        ∀ b, bm b = true ↔ s.disk.bitmap b = true ∧ ∀ j ∈ xs, f j = b → b = 0) E s := by
  induction xs with
  | nil =>
    intro s _ _ _
    exact ⟨s.disk.bitmap, s.logged, rfl, by simp⟩
  | cons j xs ih =>
    intro s hE hbit hinj
    obtain ⟨hj, hnd⟩ := nodup_cons.mp hnd
    have hinj' : ∀ k ∈ xs, ∀ l ∈ xs, f k ≠ 0 → f k = f l → k = l := fun k hk l hl =>
      hinj k (.tail j hk) l (.tail j hl)
    change wp ((if f j = 0 then pure () else bfree (f j)) >>= fun _ =>
      xs.forM fun j => if f j = 0 then pure () else bfree (f j)) _ E s
    rw [wp_bind]
    split
    next hz =>
      rw [wp_pure]
      refine wp_post (ih hnd s hE (fun k hk => hbit k (.tail j hk)) hinj') ?_
      rintro _ t ⟨bm, l, rfl, hbm⟩
      refine ⟨bm, l, rfl, fun b => ?_⟩
      rw [hbm]
      simp only [mem_cons, forall_eq_or_imp, hz]
      constructor
      · rintro ⟨hs, hxs⟩
        exact ⟨hs, Eq.symm, hxs⟩
      · rintro ⟨hs, _, hxs⟩
        exact ⟨hs, hxs⟩
    next hz =>
      rw [wp_bfree (hbit j (.head _) hz)]
      split
      · have hne : ∀ k ∈ xs, f k ≠ f j := by
          intro k hk hc
          have := hinj j (.head _) k (.tail j hk) hz hc.symm
          exact hj (this ▸ hk)
        refine wp_post (ih hnd _ (hE.congr rfl) (fun k hk hn => ?_) hinj') ?_
        · simp [hne k hk, hbit k (.tail j hk) hn]
        · rintro _ t ⟨bm, l, rfl, hbm⟩
          refine ⟨bm, l, rfl, fun b => ?_⟩
          rw [hbm]
          by_cases hb : b = f j
          · subst hb
            simp [hz]
          · have hb' : f j ≠ b := fun hc => hb hc.symm
            simp [hb, hb']
      next hop => exact hE (by simpa using hop)

/-- The disk after inode `i` has given up its indirect block `a` and the blocks listed in it. -/
theorem sound_dropIndirect {v : Volume} (h : v.Sound) (hi : v.Allocated i) (bm : ℕ → Bool)
    (hbm : ∀ b, bm b = true ↔ v.bitmap b = true ∧ ∀ k, ndirect ≤ k → v.slot i k = b → b = 0) :
    ((v.setBitmap bm).setDinode i ((v.dinode i).setAddr ndirect 0)).Sound := by
  have halloc :
      ((v.setBitmap bm).setDinode i ((v.dinode i).setAddr ndirect 0)).Allocated i := by
    simpa using hi
  refine h.release _ (i := i) (fun k => ndirect ≤ k) rfl hbm ?_ ?_
  · intro k hk
    rw [slot_of_allocated halloc, slotOf]
    simp only [Volume.setDinode_dinode, update_self]
    split
    next hle =>
      rw [Dinode.addr_setAddr _ (.inr hle), if_pos (by omega)]
    · rw [Dinode.addr_setAddr _ (.inr le_rfl), if_pos rfl, if_pos rfl]
  · intro j k hne
    obtain rfl | hji := eq_or_ne j i
    · have hk : k < ndirect := by
        by_contra hge
        exact hne ⟨rfl, by omega⟩
      rw [slot_le halloc hk.le, slot_le hi hk.le]
      simp only [Volume.setDinode_dinode, update_self]
      rw [Dinode.addr_setAddr _ (.inr hk.le), if_neg (by omega)]
    · refine slot_congr v _ ?_ ?_ (fun _ => ?_) k
      · rfl
      · simp [hji]
      · rfl

theorem freeIndirect_spec (hE : Logs E s) (hsound : (s.flushed i).Sound)
    (hi : (s.flushed i).Allocated i) (hz : ∀ k < ndirect, (s.inode i).din.addr k = 0) :
    wp (freeIndirect i) (fun _ t => Shrunk i s t ∧ (t.flushed i).Sound ∧
      ∀ k, (t.inode i).din.addrs k = 0) E s := by
  have haddr : (s.flushed i).slot i ndirect = (s.inode i).din.addr ndirect := by
    rw [slot_le hi le_rfl]
    simp [State.flushed]
  have hall (d : Dinode) (hlt : ∀ k < ndirect, d.addr k = 0) (hn : d.addr ndirect = 0) k :
      d.addrs k = 0 := by
    have hd : d.addr k.val = d.addrs k := by simp [Dinode.addr, Nat.lt_succ_iff.mp k.isLt]
    rw [← hd]
    rcases Nat.lt_or_ge k.val ndirect with h | h
    · exact hlt _ h
    · rw [show k.val = ndirect by omega, hn]
  unfold freeIndirect
  simp only [wp_bind, wp_get]
  split
  next hn => exact ⟨.refl i s, hsound, hall _ hz hn⟩
  next hn =>
    have hentry : ∀ j < nindirect, (s.flushed i).slot i (ndirect + 1 + j) =
        (s.disk.data ((s.inode i).din.addr ndirect)).word j := by
      intro j hj
      have h := slot_entry hi (by rwa [State.flushed, Volume.setDinode_dinode, update_self]) hj
      simpa [State.flushed] using h
    refine wp_seq (wp_bfree_forM _ _ nodup_range s hE ?_ ?_) ?_
    · intro j hj hw
      have hj := mem_range.mp hj
      rw [← hentry j hj] at hw ⊢
      exact (hsound.live_of_slot hw).2.2
    · intro j hj l hl hw he
      have hj := mem_range.mp hj
      have hl := mem_range.mp hl
      rw [← hentry j hj] at hw he
      rw [← hentry l hl] at he
      have := (hsound.slot_inj hw he).2
      omega
    · rintro _ t ⟨bm, l, rfl, hbm⟩
      have hne : ∀ j, j < nindirect →
          (s.disk.data ((s.inode i).din.addr ndirect)).word j ≠ (s.inode i).din.addr ndirect := by
        intro j hj hc
        rw [← hentry j hj, ← haddr] at hc
        have := (hsound.slot_inj (hc.trans haddr ▸ hn) hc).2
        omega
      have hbit : bm ((s.inode i).din.addr ndirect) = true := by
        refine (hbm _).mpr ⟨?_, fun j hj hc => absurd hc (hne j (mem_range.mp hj))⟩
        rw [← haddr] at hn ⊢
        exact (hsound.live_of_slot hn).2.2
      simp only [wp_bind]
      rw [wp_bfree (by simpa using hbit)]
      split
      · rw [wp_modify]
        refine ⟨⟨?_, rfl, rfl, ?_⟩, ?_, ?_⟩
        · constructor <;> simp +contextual
        · simp [Dinode.setAddr]
        · have hs := sound_dropIndirect hsound hi
            (update bm ((s.inode i).din.addr ndirect) false) ?_
          · simpa [State.flushed] using hs
          · intro b
            by_cases hb : b = (s.inode i).din.addr ndirect
            · subst hb
              simp only [update_self, Bool.false_eq_true, false_iff, not_and]
              exact fun _ hc => hn (hc ndirect le_rfl haddr)
            rw [update_of_ne hb, hbm]
            refine and_congr_right fun _ => ⟨fun hw k hk hc => ?_, fun hw j hj hc => ?_⟩
            · rcases Nat.eq_or_lt_of_le hk with rfl | hlt
              · exact absurd (haddr.symm.trans hc).symm hb
              by_cases hlt' : k < ndirect + 1 + nindirect
              · refine hw (k - (ndirect + 1)) (mem_range.mpr (by omega)) ?_
                rw [← hentry _ (by omega), ← hc]
                congr 1
                omega
              · rw [← hc]
                exact slot_of_le (by omega)
            · have hj := mem_range.mp hj
              exact hw (ndirect + 1 + j) (by omega) ((hentry j hj).trans hc)
        · apply hall
          · intro k hk
            simp only [State.setDin_inode, update_self]
            rw [Dinode.addr_setAddr _ (.inr hk.le), if_neg (by omega)]
            exact hz k hk
          · simp only [State.setDin_inode, update_self]
            rw [Dinode.addr_setAddr _ (.inr le_rfl), if_pos rfl]
      next hop => exact hE (by simpa using hop)

structure Truncated (i : ℕ) (s t : State P) : Prop extends Local i s t where
  consistent : t.Consistent
  others : ∀ j, j ≠ i → Volume.SameAt j s.disk t.disk
  empty : t.disk.dinode i = (s.disk.dinode i).truncated

theorem itrunc_spec (hE : Logs E s) (h : s.Consistent) (hi : s.Locked i) :
    wp (itrunc i) (fun _ => Truncated i s) E s := by
  have hflush := h.flushed_eq hi
  obtain ⟨hdin, halloc⟩ := h.cached i hi
  unfold itrunc
  refine wp_seq (freeDirect_spec hE (hflush ▸ h.sound) (hflush ▸ halloc)) ?_
  rintro _ t ⟨hsh, hsound, hzero⟩
  refine wp_seq (freeIndirect_spec (hE.congr hsh.inOp) hsound (hsh.allocated (hflush ▸ halloc))
    hzero) ?_
  rintro _ u ⟨hsh', hsound', hempty⟩
  simp only [wp_bind, wp_modify, wp_iupdate]
  have hall := hsh.trans hsh'
  have hi' := hall.allocated (hflush ▸ halloc)
  have hd : (u.inode i).din.setSize 0 = (s.disk.dinode i).truncated := by
    rw [hall.attrs, hdin, show (u.inode i).din.addrs = fun _ => 0 from funext hempty]
    rfl
  rw [hd]
  have hlocal : Local i s (u.setDin i (s.disk.dinode i).truncated) := by
    refine hall.toLocal.trans ?_
    constructor <;> simp +contextual
  have hvol : (u.setDin i (s.disk.dinode i).truncated).flushed i =
      (u.flushed i).setDinode i (s.disk.dinode i).truncated := by simp [State.flushed]
  have hslots k : (u.flushed i).slot i k = 0 := by
    rw [slot_of_allocated hi']
    simp [slotOf, State.flushed, Dinode.addr, hempty]
  have hslot j k (hj : j ≠ i) : ((u.setDin i (s.disk.dinode i).truncated).flushed i).slot j k =
      (u.flushed i).slot j k := by
    rw [hvol, slot_setDinode_empty (.inr fun _ => rfl), if_neg hj]
  have hsame j (hj : j ≠ i) : Volume.SameAt j s.disk
      ((u.setDin i (s.disk.dinode i).truncated).flushed i) := by
    have hsm := hall.others hj
    rw [hflush] at hsm
    refine hsm.trans ⟨?_, fun k => hslot j k hj, fun _ _ _ => rfl⟩
    simp [hvol, hj]
  split
  · refine ⟨?_, ?_, hsame, ?_⟩
    · refine hlocal.trans ?_
      constructor <;> simp +contextual [State.flushed]
    · apply h.iupdate hlocal
      · rw [hvol]
        exact hsound'.setDinode_empty (.inr fun _ => rfl) hslots
      · refine h.noHole.of_same hlocal.sb hsame fun bn hlt => ?_
        simp [hvol] at hlt
      · simpa [State.flushed, hall.sb] using halloc
    · simp [State.flushed]
  next hop => exact hE.congr hall.inOp (by simpa using hop)

end Xv6.Fs
