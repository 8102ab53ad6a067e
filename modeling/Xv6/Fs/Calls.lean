import Xv6.Fs.Image
import Xv6.Fs.Open

/-! Runs of system calls: what every call keeps, and what follows for the blocks of the disk and for
calls that fail. -/
namespace Xv6.Fs
open Hoare Counting Transition
variable {P : Type} [DecidableEq P] {E : Panic → Prop} {s t : State P} {c : Call P}

theorem State.next_eq_some (h : s.next c = some t) : ∃ pr r, s.proc c.caller = some pr ∧
    c.enabled s = true ∧ c.exec pr s = .ok (r, t) := by
  unfold State.next at h
  split at h
  · cases h
  next pr hp =>
    split at h
    next hen =>
      split at h
      next r t' hr =>
        cases h
        exact ⟨pr, r, hp, hen, hr⟩
      · cases h
    · cases h

variable [Fintype P]

structure Sys (s : State P) : Prop where
  consistent : s.Consistent
  ledger : Ledger s
  idle : s.inOp = false

theorem Call.exec_kept {pr : Proc} (hE : Lenient E) (hty : E .noType) (hnl : E .unlinkNlink)
    (h : Sys s) (hp : s.proc c.caller = some pr) (hen : c.enabled s = true) :
    wp (c.exec pr) (fun _ t => Kept s t ∧ Ledger t) E s := by
  have hout t (ht : Outcome s t) : Kept s t ∧ Ledger t := ⟨ht.kept, ht.ledger⟩
  have hhold t (ht : Holding 0 s t) : Kept s t ∧ Ledger t := hout t (ht.outcome h.ledger)
  have hc := h.ledger.cwd_pos hp
  cases c with
  | dup p fd =>
    exact wp_post (sysDup_spec hE h.consistent h.ledger hp) (fun _ t ht => hout t ht.1)
  | read p fd dst n =>
    exact wp_post (sysRead_spec hE h.consistent h.ledger (.inl hty)) (fun _ t ht => hout t ht.1)
  | write p fd src n =>
    exact wp_post (sysWrite_spec hE h.consistent h.ledger h.idle (.inl hty))
      (fun _ t ht => hout t ht.1)
  | close p fd =>
    exact wp_post (sysClose_spec hE h.consistent h.ledger h.idle hp) (fun _ t ht => hout t ht.1)
  | link p old new =>
    exact wp_post (sysLink_spec hE h.consistent h.idle hc (.inl hty)) (fun _ t ht => hhold t ht.1)
  | unlink p path =>
    exact wp_post (sysUnlink_spec hE h.consistent h.idle hc (.inl hty) (.inl hnl))
      (fun _ t ht => hhold t ht.1)
  | «open» p path omode =>
    exact wp_post (sysOpen_spec hE h.consistent h.ledger h.idle hp (.inl hty))
      (fun _ t ht => ⟨ht.kept, ht.ledger⟩)
  | mkdir p path | mknod p path major minor =>
    exact wp_post (sysCreate_spec hE h.consistent h.idle hc (.inl hty) (by decide) (by decide))
      (fun _ t ht => hhold t ht.1)
  | chdir p path =>
    exact wp_post (sysChdir_spec hE h.consistent h.ledger h.idle hp (.inl hty))
      (fun _ t ht => hout t ht.1)
  | fork p q =>
    have hq : s.proc q = none := by simpa [Call.enabled] using hen
    exact wp_post (fork_spec hE h.consistent h.ledger hp hq) (fun _ t ht => hout t ht.1)
  | exit p =>
    exact wp_post (exit_spec hE h.consistent h.ledger h.idle hp) (fun _ t ht => hout t ht.1)

theorem Sys.next (h : Sys s) (hn : s.next c = some t) : Sys t ∧ Kept s t := by
  obtain ⟨pr, r, hp, hen, hr⟩ := State.next_eq_some hn
  have hk := wp_ok (c.exec_kept (E := fun _ => True) (fun _ _ _ _ => trivial) trivial trivial h hp
    hen) hr
  exact ⟨⟨hk.1.consistent, hk.2, hk.1.inOp.trans h.idle⟩, hk.1⟩

theorem sys_boot {v : Volume} (hv : v.Sound) (hn : v.NoHole) (p : P) : Sys (State.boot v p) where
  consistent := by
    refine ⟨hv, hn, fun i hi => ?_⟩
    exact absurd hi.2 (by simp [State.boot])
  ledger := by
    refine ⟨fun j => ?_, fun f _ => rfl⟩
    have hfile : total (File.holds j) (State.boot v p).file = 0 :=
      total_eq_zero.mpr fun f => if_neg fun hc => hc.2 rfl
    have hproc : (State.boot v p).proc = Function.update (fun _ => none) p
        (some ⟨rootino, fun _ => none⟩) := by
      funext q
      by_cases hq : q = p
      · simp [State.boot, hq]
      · simp [State.boot, hq]
    have htot := total_update (Proc.holds j) (fun _ : P => none) p (some ⟨rootino, fun _ => none⟩)
    have hzero : total (Proc.holds j) (fun _ : P => none) = 0 := total_eq_zero.mpr fun _ => rfl
    rw [hzero] at htot
    rw [hfile, hproc]
    have hone : one rootino j = if j = rootino then 1 else 0 := by
      by_cases hj : j = rootino
      · rw [hj, one_self, if_pos rfl]
      · rw [one_of_ne hj, if_neg hj]
    simp only [Proc.holds, hone] at htot
    simp only [State.boot]
    omega
  idle := rfl

theorem sys_run {v : Volume} (hv : v.Sound) (hn : v.NoHole) {p : P} {cs : List (Call P)}
    (hr : run State.next (State.boot v p) cs = some s) : Sys s :=
  run_invariant (fun _ _ _ h hnext => (h.next hnext).1) (sys_boot hv hn p) hr

/-- The free map marks the metadata blocks and the blocks that exactly one slot names. -/
def Volume.MarksOwned (v : Volume) : Prop :=
  ∀ b, b < v.sb.size → (v.bitmap b = true ↔ b < v.sb.nmeta ∨ ∃! x : ℕ × ℕ, v.slot x.1 x.2 = b)

theorem Volume.Sound.marksOwned {v : Volume} (h : v.Sound) : v.MarksOwned := by
  intro b hb
  by_cases hm : b < v.sb.nmeta
  · exact ⟨fun _ => .inl hm, fun _ => h.reserved b hm⟩
  have hne : b ≠ 0 := by
    have := h.reserve
    omega
  rw [or_iff_right hm, ← h.owned.live_iff hne]
  exact ⟨fun hbit => ⟨not_lt.mp hm, hb, hbit⟩, fun hlive => hlive.2.2⟩

/-- An image with the right marks whose slots name distinct data blocks and whose files have no
holes. -/
structure Volume.Clean (v : Volume) : Prop where
  small : v.sb.size ≤ 2 ^ 32
  reserve : 0 < v.sb.nmeta
  area : v.sb.ninodes ≤ v.sb.inodeArea
  marks : v.MarksOwned
  data : ∀ i k, v.slot i k ≠ 0 → v.sb.nmeta ≤ v.slot i k ∧ v.slot i k < v.sb.size
  distinct : ∀ x y : ℕ × ℕ, v.slot x.1 x.2 ≠ 0 → v.slot x.1 x.2 = v.slot y.1 y.2 → x = y
  noHole : v.NoHole

theorem Volume.Clean.sound {v : Volume} (h : v.Clean) : v.Sound where
  small := h.small
  reserve := h.reserve
  area := h.area
  reserved b hb := by
    exact (h.marks b (lt_of_lt_of_le hb (Nat.sub_le _ _))).mpr (.inl hb)
  owned := by
    refine ⟨fun x hx => ?_, h.distinct, fun b hb => ?_⟩
    · obtain ⟨hlo, hhi⟩ := h.data x.1 x.2 hx
      refine ⟨hlo, hhi, (h.marks _ hhi).mpr (.inr ⟨x, rfl, fun y hy => ?_⟩)⟩
      exact (h.distinct x y hx hy.symm).symm
    · obtain ⟨hlo, hhi, hbit⟩ := hb
      obtain ⟨x, hx, _⟩ := ((h.marks b hhi).mp hbit).resolve_left (not_lt.mpr hlo)
      refine ⟨x, hx, ?_⟩
      have := h.reserve
      omega

/-- In every run of calls the free map marks the metadata and the blocks with exactly one owner, and
no block is freed twice. -/
theorem blocks_owned_once {v : Volume} (hv : v.Clean) {p : P} {cs : List (Call P)}
    (hr : run State.next (State.boot v p) cs = some s) :
    s.disk.MarksOwned ∧ ∀ c, ¬ s.Panics c .freeingFreeBlock := by
  have hs := sys_run hv.sound hv.noHole hr
  refine ⟨hs.consistent.sound.marksOwned, fun c hpanic => ?_⟩
  obtain ⟨pr, hp, hen, herr⟩ := hpanic
  have hwp := c.exec_kept (E := (· ≠ .freeingFreeBlock)) (fun _ he _ _ => he) (by decide)
    (by decide) hs hp hen
  exact wp_error hwp herr rfl

theorem clean_rootImage : rootImage.Clean where
  small := sound_rootImage.small
  reserve := sound_rootImage.reserve
  area := sound_rootImage.area
  marks := sound_rootImage.marksOwned
  data i k hk := by
    have hlive := sound_rootImage.owned.live_slot (i, k) hk
    exact ⟨hlive.1, hlive.2.1⟩
  distinct := sound_rootImage.owned.inj
  noHole := noHole_rootImage

/-- A directory is made and removed again. -/
theorem blocks_owned_once_mkdir_unlink : ∃ s, run State.next (State.boot rootImage ())
    [.mkdir () (some [100]), .unlink () (some [100])] = some s ∧
      s.disk.MarksOwned ∧ ∀ c, ¬ s.Panics c .freeingFreeBlock := by
  have hrun : (run State.next (State.boot rootImage ())
    [.mkdir () (some [100]), .unlink () (some [100])]).isSome = true := by decide +kernel
  obtain ⟨s, hs⟩ := Option.isSome_iff_exists.mp hrun
  exact ⟨s, hs, blocks_owned_once clean_rootImage hs⟩

/-! Images with the right marks that are not clean. -/

theorem marksOwned_image {es : List Dirent} {fs : ℕ → Option (FileType × ℕ)}
    (h46 : ∀ i ty, fs i ≠ some (ty, 46))
    (hfree : ∀ b, 47 ≤ b → ¬ ∃! x : ℕ × ℕ, (image es fs).slot x.1 x.2 = b) :
    (image es fs).MarksOwned := by
  intro b _
  have hbit : (image es fs).bitmap b = true ↔ b < 47 := decide_eq_true_iff
  have hmeta : (image es fs).sb.nmeta = 46 := by simp [image, Superblock.nmeta, fssize]
  rw [hbit, hmeta]
  constructor
  · intro hb
    rcases Nat.lt_or_ge b 46 with hlt | hge
    · exact .inl hlt
    obtain rfl : b = 46 := by omega
    refine .inr ⟨(rootino, 0), slot_image_root 0, fun x hx => ?_⟩
    obtain ⟨hk, hi | ⟨ty, a, hf, hval⟩⟩ := slot_image (i := x.1) (k := x.2) (by rw [hx]; decide)
    · exact Prod.ext hi.1 hk
    · rw [hx] at hval
      rw [← hval] at hf
      exact absurd hf (h46 x.1 ty)
  · rintro (hlt | hex)
    · omega
    · by_contra hge
      exact hfree b (by omega) hex

def metaFile : Volume := image [⟨2, strncpy dirsiz [102]⟩] fun i =>
  if i = 2 then some (.file, 1) else none

def sharedFile : Volume := image [⟨2, strncpy dirsiz [102]⟩, ⟨3, strncpy dirsiz [103]⟩] fun i =>
  if i = 2 ∨ i = 3 then some (.file, 47) else none

def holeDir : Volume := image [⟨2, strncpy dirsiz [100]⟩] fun i =>
  if i = 2 then some (.dir, 0) else none

theorem marksOwned_single {es : List Dirent} {j a : ℕ} {ty : FileType} (ha : a < 46) :
    (image es fun i => if i = j then some (ty, a) else none).MarksOwned := by
  refine marksOwned_image (fun i ty' hc => ?_) fun b hb => ?_
  · split at hc
    · cases hc
      omega
    · cases hc
  · rintro ⟨x, hx, _⟩
    obtain ⟨_, hi | ⟨ty', a', hf, hval⟩⟩ := slot_image (i := x.1) (k := x.2) (by rw [hx]; omega)
    · omega
    · split at hf
      · cases hf
        omega
      · cases hf

theorem marksOwned_sharedFile : sharedFile.MarksOwned := by
  refine marksOwned_image (fun i ty' hc => ?_) fun b hb => ?_
  · split at hc <;> cases hc
  · rintro ⟨x, hx, huniq⟩
    obtain ⟨_, hi | ⟨ty', a', hf, hval⟩⟩ := slot_image (i := x.1) (k := x.2) (by rw [hx]; omega)
    · omega
    split at hf
    · cases hf
      have hb47 : 47 = b := hval.symm.trans hx
      have hslot : ∀ j, j = 2 ∨ j = 3 → sharedFile.slot j 0 = b := by
        rintro j (rfl | rfl)
        · exact (slot_image_some (by decide) rfl (by decide) (by decide)).trans hb47
        · exact (slot_image_some (by decide) rfl (by decide) (by decide)).trans hb47
      have h2 := huniq (2, 0) (hslot 2 (.inl rfl))
      have h3 := huniq (3, 0) (hslot 3 (.inr rfl))
      rw [← h3] at h2
      cases h2
    · cases hf

/-- Each of the three conditions of a clean image is needed: to truncate `f` unmarks the superblock,
to truncate `f` frees a free block, and to look for `d/x` marks a block that nobody owns. -/
theorem marks_need_clean_image : (metaFile.MarksOwned ∧ ∃ s, run State.next (State.boot metaFile ())
      [.open () (some [102]) (oRdwr ||| oTrunc)] = some s ∧ ¬ s.disk.MarksOwned) ∧
    (sharedFile.MarksOwned ∧ (State.boot sharedFile ()).Panics
      (.open () (some [102]) (oRdwr ||| oTrunc)) .freeingFreeBlock) ∧
    (holeDir.MarksOwned ∧ ∃ s, run State.next (State.boot holeDir ())
      [.open () (some [100, 47, 120]) 0] = some s ∧ ¬ s.disk.MarksOwned) := by
  refine ⟨⟨marksOwned_single (by decide), ?_⟩, ⟨marksOwned_sharedFile, ?_⟩,
    ⟨marksOwned_single (by decide), ?_⟩⟩
  · have hrun : ∃ s ∈ run State.next (State.boot metaFile ())
        [.open () (some [102]) (oRdwr ||| oTrunc)], s.disk.bitmap 1 = false ∧
          1 < s.disk.sb.nmeta ∧ 1 < s.disk.sb.size := by decide +kernel
    obtain ⟨s, hs, hbit, hmeta, hsize⟩ := hrun
    refine ⟨s, hs, fun hm => ?_⟩
    rw [(hm 1 hsize).mpr (.inl hmeta)] at hbit
    cases hbit
  · have herr : errorOf (Call.exec (.open () (some [102]) (oRdwr ||| oTrunc))
        ⟨rootino, fun _ => none⟩) (State.boot sharedFile ()) = some .freeingFreeBlock := by
      decide +kernel
    exact ⟨_, rfl, rfl, errorOf_eq_some.mp herr⟩
  · have hrun : ∃ s ∈ run State.next (State.boot holeDir ())
        [.open () (some [100, 47, 120]) 0], s.disk.bitmap 47 = true ∧ 47 < s.disk.sb.size ∧
          s.disk.sb.nmeta ≤ 47 ∧ s.disk.sb.inodeArea = 208 ∧
          ∀ i, i < 208 → (s.disk.dinode i).type ≠ .free →
            (s.disk.dinode i).addrs = oneBlock 46 ∨ (s.disk.dinode i).addrs = oneBlock 0 := by
      decide +kernel
    obtain ⟨s, hs, hbit, hsize, hmeta, harea, hinodes⟩ := hrun
    refine ⟨s, hs, fun hm => ?_⟩
    obtain ⟨x, hx, _⟩ := ((hm 47 hsize).mp hbit).resolve_left (not_lt.mpr hmeta)
    have ha := Volume.allocated_of_slot (v := s.disk) (i := x.1) (k := x.2) (by rw [hx]; decide)
    rw [Volume.slot_of_allocated ha] at hx
    rcases hinodes x.1 (harea ▸ ha.1) ha.2 with haddr | haddr
    · rw [slotOf_oneBlock _ haddr] at hx
      split at hx <;> cases hx
    · rw [slotOf_oneBlock _ haddr] at hx
      split at hx <;> cases hx

end Xv6.Fs
