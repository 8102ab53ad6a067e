import Xv6.Bio.System
import Xv6.Bio.Track
import Xv6.Log.GroupCommit

/-! The invariant of buffer cache and log. It follows the committing process through every turn of
`write_log` and `install_trans`: what it has copied to the log area equals what was logged, and a
block loses its pin only when the disk has its contents. -/
namespace Xv6.Bio
open Function Log Cache List
variable {P : Type}

def Job.regs : Job → List (Fin nbuf)
  | .start | .finish => []
  | .first i | .last i => [i]
  | .both i j | .moved i j | .written i j | .unpinned i j => [i, j]

@[grind] def LogTurn (g : LogArea) (s : System P) (p : P) (tail b : ℕ) : Job → Prop
  | .start => s.copied = tail
  | .first i => s.copied = tail ∧ s.cache.Got p i (g.start + tail + 1)
  | .both i j => s.copied = tail ∧ s.cache.Held p i (g.start + tail + 1) ∧ s.cache.Got p j b
  | .moved i j => s.copied = tail ∧ s.cache.io p = .idle ∧ s.cache.Is i (g.start + tail + 1) ∧
      (s.cache.buf i).lock = some p ∧ (s.cache.buf i).data = s.cache.view b ∧ s.cache.Held p j b
  | .written i j =>
      s.copied = tail + 1 ∧ s.cache.Held p i (g.start + tail + 1) ∧ s.cache.Held p j b
  | .last i => s.copied = tail + 1 ∧ s.cache.Held p i (g.start + tail + 1)
  | .finish => s.copied = tail + 1
  | .unpinned _ _ => False

@[grind] def HeadTurn (g : LogArea) (s : System P) (p : P) : Job → Prop
  | .start | .finish => True
  | .first i => s.cache.Got p i g.start
  | .moved i j => j = i ∧ s.cache.io p = .idle ∧ s.cache.Is i g.start ∧
      (s.cache.buf i).lock = some p
  | .written i j => j = i ∧ s.cache.Held p i g.start
  | _ => False

/-- One turn of `install_trans` at index `tail`, for `b = log.lh.block[tail]`. -/
@[grind] def InstallTurn (g : LogArea) (s : System P) (p : P) (tail b : ℕ) : Job → Prop
  | .start => s.unpinned = tail
  | .first i => s.unpinned = tail ∧ s.cache.Got p i (g.start + tail + 1)
  | .both i j => s.unpinned = tail ∧ s.cache.Held p i (g.start + tail + 1) ∧ s.cache.Got p j b
  | .moved i j => s.unpinned = tail ∧ s.cache.io p = .idle ∧
      s.cache.Held p i (g.start + tail + 1) ∧ s.cache.Is j b ∧
      (s.cache.buf j).lock = some p ∧ (s.cache.buf j).data = s.cache.view b
  | .written i j => s.unpinned = tail ∧ s.cache.Held p i (g.start + tail + 1) ∧
      s.cache.Held p j b ∧ s.cache.disk b = s.cache.view b
  | .unpinned i j =>
      s.unpinned = tail + 1 ∧ s.cache.Held p i (g.start + tail + 1) ∧ s.cache.Held p j b
  | .last j => s.unpinned = tail + 1 ∧ s.cache.Held p j b
  | .finish => s.unpinned = tail + 1

/-- How far the process `p` inside `commit` has come. -/
@[grind] def Progress (g : LogArea) (s : System P) (p : P) : CommitPc → Prop
  | .enter | .done => s.job p = .start ∧ s.copied = 0 ∧ s.unpinned = 0
  | .writeLog tail => s.unpinned = 0 ∧ tail ≤ s.group.log.lh.length ∧
      match s.group.log.lh[tail]? with
      | some b => LogTurn g s p tail b (s.job p)
      | none => s.job p = .start ∧ s.copied = tail
  | .writeHead => s.unpinned = 0 ∧ s.copied = s.group.log.lh.length ∧ HeadTurn g s p (s.job p)
  | .install tail => s.copied = s.group.log.lh.length ∧ tail ≤ s.group.log.lh.length ∧
      match s.group.log.lh[tail]? with
      | some b => InstallTurn g s p tail b (s.job p)
      | none => s.job p = .start ∧ s.unpinned = tail
  | .erase => s.job p = .start ∧ s.unpinned = s.group.log.lh.length
  | .eraseHead => s.copied = 0 ∧ s.unpinned = 0 ∧ HeadTurn g s p (s.job p)

/-- The log, the pins it keeps in the cache, and the blocks copied to the log area so far. -/
@[grind cases]
structure Stored (g : LogArea) (l : LogState) (c : Cache P) (copied unpinned : ℕ) : Prop where
  size : l.size = g.size
  pinned : c.pinned = (l.lh.drop unpinned).toFinset
  nodup : l.lh.Nodup
  outside : ∀ b ∈ l.lh, ¬ g.Contains b
  fits : l.lh.length < g.size
  copied : ∀ k b, k < copied → l.lh[k]? = some b → c.view (g.start + k + 1) = c.view b

@[grind cases] structure SystemInv [Fintype P] (g : LogArea) (d : Disk) (s : System P) : Prop where
  group : GroupInv s.group
  cache : CacheInv s.cache
  stored : Stored g s.group.log s.cache s.copied s.unpinned
  area : ∀ p i, s.cache.Has p i → g.Contains (s.cache.buf i).blockno → i ∈ (s.job p).regs
  calm : (∀ p c, s.group.pc p ≠ .commit c) → s.copied = 0 ∧ s.unpinned = 0
  jobs : ∀ p, (∀ c, s.group.pc p ≠ .commit c) → s.job p = .start
  commit : ∀ p c, s.group.pc p = .commit c → Progress g s p c
  view : ∀ b, ¬ g.Contains b → s.cache.view b = History.replay d s.events b
  legal : History.Legal d s.events

variable {c' : Cache P} {g : LogArea} {i : Fin nbuf} {k : ℕ} {p : P} {s : System P}

namespace Stored
variable {l l' : LogState} {c : Cache P} {copied unpinned : ℕ}

theorem of_log (h : Stored g l c copied unpinned) (hs : l'.size = l.size) (hl : l'.lh = l.lh) :
    Stored g l' c copied unpinned := by
  obtain ⟨h1, h2, h3, h4, h5, h6⟩ := h
  rw [← hl] at h2 h3 h4 h5 h6
  exact ⟨hs.trans h1, h2, h3, h4, h5, h6⟩

theorem of_cache (h : Stored g l c copied unpinned) (hp : c'.pinned = c.pinned)
    (hv : c'.view = c.view) : Stored g l c' copied unpinned :=
  ⟨h.size, hp.trans h.pinned, h.nodup, h.outside, h.fits, by rw [hv]; exact h.copied⟩

theorem logWrite [Fintype P] (h : Stored g l c 0 0) {f : Bool} (hb : ¬ g.Contains (c.buf i).blockno)
    (hw : Log.logWrite l (c.buf i).blockno = .ok (l', f)) : Stored g l' (c.logWrite i f) 0 0 := by
  obtain ⟨_, hsz, rfl⟩ := logWrite_eq_ok hw
  have hmem : ∀ n, n ∈ (if (c.buf i).blockno ∈ l.lh then l.lh else l.lh ++ [(c.buf i).blockno]) ↔
      n = (c.buf i).blockno ∨ n ∈ l.lh := by grind
  refine ⟨h.size, ?_, ?_, ?_, ?_, fun k n hk => absurd hk (Nat.not_lt_zero k)⟩
  · ext n
    simp only [Cache.logWrite, drop_zero, mem_toFinset, hmem, h.pinned, Finset.mem_insert]
  · grind
  · grind
  · grind

/-- The log block of index `k` lies in the log area, past the header. -/
theorem logBlock_contains (h : Stored g l c copied unpinned) (hk : k < l.lh.length) :
    g.Contains (g.start + k + 1) := by
  have := h.fits
  unfold LogArea.Contains
  omega

end Stored

/-- Steps that leave the committing process alone leave its progress. -/
theorem Progress.of_keeps {s' : System P} {c : CommitPc} (h : Progress g s p c)
    (hk : Keeps p s.cache s'.cache) (hs : Still p s.cache s'.cache)
    (hl : s'.group.log.lh = s.group.log.lh) (hj : s'.job p = s.job p) (hc : s'.copied = s.copied)
    (hu : s'.unpinned = s.unpinned) (hv : s'.cache.view = s.cache.view)
    (hd : s'.cache.disk = s.cache.disk) : Progress g s' p c := by
  have hlog tail b (ht : LogTurn g s p tail b (s.job p)) : LogTurn g s' p tail b (s.job p) := by
    cases hjob : s.job p <;> simp only [hjob, LogTurn, hc] at ht ⊢
    case start | finish => exact ht
    case first => exact ⟨ht.1, hk.got ht.2⟩
    case both => exact ⟨ht.1, hk.held ht.2.1, hk.got ht.2.2⟩
    case moved =>
      obtain ⟨h1, h2, h3, h4, h5, h6⟩ := ht
      refine ⟨h1, (hs h2).1, hk.is h3 (.inr h4), hk.lock _ h4, ?_, hk.held h6⟩
      rw [(hs h2).2 _ h4, h5, hv]
    case written => exact ⟨ht.1, hk.held ht.2.1, hk.held ht.2.2⟩
    case last => exact ⟨ht.1, hk.held ht.2⟩
  have hhead (ht : HeadTurn g s p (s.job p)) : HeadTurn g s' p (s.job p) := by
    cases hjob : s.job p <;> simp only [hjob, HeadTurn] at ht ⊢
    case first => exact hk.got ht
    case moved =>
      obtain ⟨h1, h2, h3, h4⟩ := ht
      exact ⟨h1, (hs h2).1, hk.is h3 (.inr h4), hk.lock _ h4⟩
    case written => exact ⟨ht.1, hk.held ht.2⟩
  have hinst tail b (ht : InstallTurn g s p tail b (s.job p)) : InstallTurn g s' p tail b
      (s.job p) := by
    cases hjob : s.job p <;> simp only [hjob, InstallTurn, hu] at ht ⊢
    case start | finish => exact ht
    case first => exact ⟨ht.1, hk.got ht.2⟩
    case both => exact ⟨ht.1, hk.held ht.2.1, hk.got ht.2.2⟩
    case moved =>
      obtain ⟨h1, h2, h3, h4, h5, h6⟩ := ht
      refine ⟨h1, (hs h2).1, hk.held h3, hk.is h4 (.inr h5), hk.lock _ h5, ?_⟩
      rw [(hs h2).2 _ h5, h6, hv]
    case written =>
      exact ⟨ht.1, hk.held ht.2.1, hk.held ht.2.2.1, by rw [hd, hv, ht.2.2.2]⟩
    case unpinned => exact ⟨ht.1, hk.held ht.2.1, hk.held ht.2.2⟩
    case last => exact ⟨ht.1, hk.held ht.2⟩
  cases c with
  | enter | done | erase => simpa only [Progress, hj, hc, hu, hl] using h
  | writeLog tail => grind
  | writeHead => grind
  | install tail => grind
  | eraseHead => grind

theorem progress_writeLog {tail : ℕ} (hj : s.job p = .start)
    (hu : s.unpinned = 0) (ht : tail ≤ s.group.log.lh.length) (hc : s.copied = tail) :
    Progress g s p (.writeLog tail) := by grind

theorem progress_install {tail : ℕ} (hj : s.job p = .start)
    (hc : s.copied = s.group.log.lh.length) (ht : tail ≤ s.group.log.lh.length)
    (hu : s.unpinned = tail) : Progress g s p (.install tail) := by grind

namespace SystemInv
variable [Fintype P] {d : Disk}

omit [Fintype P] in
theorem not_commit_of_running [DecidableEq P] (hr : s.Running p) (c : CommitPc) :
    s.group.pc p ≠ .commit c := by
  rcases hr.1 with h | h <;> simp [h]

theorem setPanic (h : SystemInv g d s) (o : Option Panic) : SystemInv g d { s with panic := o } :=
  ⟨h.1, h.2, h.3, h.4, h.5, h.6, h.7, h.8, h.9⟩

variable {t : GroupState P} {b : ℕ} {next : Job}

section
variable (h : SystemInv g d s)
include h

theorem of_group (ht : GroupInv t)
    (hsize : t.log.size = s.group.log.size) (hlh : t.log.lh = s.group.log.lh)
    (hpc : ∀ p c, t.pc p = .commit c ↔ s.group.pc p = .commit c) :
    SystemInv g d { s with group := t } where
  group := ht
  cache := h.cache
  stored := h.stored.of_log hsize hlh
  area := h.area
  calm hn := h.calm fun p c hp => hn p c ((hpc p c).mpr hp)
  jobs p hn := h.jobs p fun c hp => hn c ((hpc p c).mpr hp)
  commit p c hp := (h.commit p c ((hpc p c).mp hp)).of_keeps
    (.refl p s.cache) (.refl p s.cache) hlh rfl rfl rfl rfl rfl
  view := h.view
  legal := h.legal

/-- A step of the buffer cache that the committing process does not notice. -/
theorem of_cache (hc : CacheInv c')
    (hv : c'.view = s.cache.view) (hd : c'.disk = s.cache.disk) (hp : c'.pinned = s.cache.pinned)
    (hk : ∀ p k, s.group.pc p = .commit k → Keeps p s.cache c' ∧ Still p s.cache c')
    (ha : ∀ p i, c'.Has p i → g.Contains (c'.buf i).blockno →
      s.cache.Has p i ∧ (c'.buf i).blockno = (s.cache.buf i).blockno) :
    SystemInv g d { s with cache := c' } where
  group := h.group
  cache := hc
  stored := h.stored.of_cache hp hv
  area p i hi hb := by grind
  calm := h.calm
  jobs := h.jobs
  commit p c hp :=
    (h.commit p c hp).of_keeps (hk p c hp).1 (hk p c hp).2 rfl rfl rfl rfl hv hd
  view := by
    dsimp only
    rw [hv]
    exact h.view
  legal := h.legal

theorem of_passes (hc : CacheInv c')
    (hp : Passes s.cache c') : SystemInv g d { s with cache := c' } :=
  h.of_cache hc hp.view hp.disk hp.pinned (fun p _ _ => ⟨hp.keeps p, hp.still p⟩)
    fun p i hi _ => hp.noNew p i hi

theorem addRead {v : Block} (hb : ¬ g.Contains b)
    (hv : v = s.cache.view b) : SystemInv g d { s with events := s.events ++ [.read b v] } :=
  { h with
    commit := fun p c hp => (h.commit p c hp).of_keeps
      (.refl p s.cache) (.refl p s.cache) rfl rfl rfl rfl rfl rfl
    view := by
      dsimp only
      rw [History.replay_append_read]
      exact h.view
    legal := History.legal_append_read.mpr ⟨h.legal, by rw [hv, h.view b hb]⟩ }

end

variable [DecidableEq P]

section
variable (h : SystemInv g d s)
include h

theorem fillStep (hs : s.cache.fill p = some (i, c')) : SystemInv g d (s.fillStep g i c') := by
  have h' := h.of_passes (h.cache.fill hs) (h.cache.fill_passes hs)
  unfold System.fillStep
  split
  · exact h'
  next hb =>
    apply h'.addRead hb
    rw [h.cache.fill_data hs]
    dsimp only
    rw [(h.cache.fill_passes hs).view]

theorem bread (hr : s.Running p) (hb : ¬ g.Contains b) :
    SystemInv g d (s.startRead p b fun _ => s.job p) := by
  unfold System.startRead
  split
  · exact h.setPanic _
  next i c' hg =>
    obtain ⟨his, _, hv, hd, hpin, hk, hother, hnew⟩ := h.cache.bget_track hr.2 hg
    rw [update_eq_self]
    apply h.of_cache (h.cache.bget hr.2 hg) hv hd hpin
    · intro q k hq
      have hne : p ≠ q := by
        rintro rfl
        exact not_commit_of_running hr k hq
      exact ⟨hk q, (hother q hne).2⟩
    · intro q j hj hc
      obtain rfl | hne := eq_or_ne p q
      · grind
      · exact (hother q hne).1 j hj

theorem modify (v : Block) (hr : s.Running p) (hl : (s.cache.buf i).lock = some p) :
    SystemInv g d { s with cache := s.cache.setData i v } := by
  obtain ⟨hother, _, hnew⟩ := setData_track hl v
  apply h.of_cache (h.cache.setData v hl hr.2) rfl rfl rfl
  · intro q k hq
    have hne : p ≠ q := by
      rintro rfl
      exact not_commit_of_running hr k hq
    exact hother q hne
  · exact fun q j hj _ => hnew q j hj

theorem brelse (hr : s.Running p)
    (hd : s.cache.dirty i = false) : SystemInv g d (s.release p i (s.job p)) := by
  unfold System.release
  split
  next hl =>
    obtain ⟨hnew, hother, _, _⟩ := releasesleep_track hl
    rw [update_eq_self]
    apply h.of_cache (h.cache.releasesleep hl hr.2 hd) rfl rfl rfl
    · intro q k hq
      have hne : p ≠ q := by
        rintro rfl
        exact not_commit_of_running hr k hq
      exact hother q hne
    · exact fun q j hj _ => hnew q j hj
  · exact h.setPanic _

theorem logWrite (hr : s.Running p)
    (hl : (s.cache.buf i).lock = some p) : SystemInv g d (s.logWriteStep p i) := by
  unfold System.logWriteStep
  dsimp only
  split
  next e he =>
    exact h.of_group (t := { s.group with panic := some e })
      ⟨h.group.1, h.group.2, h.group.3, h.group.4, h.group.5, h.group.6, h.group.7, h.group.8⟩
      rfl rfl fun _ _ => Iff.rfl
  next l added hw =>
    have hnc := h.group.no_commit_of_outstanding (outstanding_of_logWrite hw)
    obtain ⟨hc0, hu0⟩ := h.calm hnc
    have hb : ¬ g.Contains (s.cache.buf i).blockno := by
      intro hb
      have hreg := h.area p i (.inr hl) hb
      rw [h.jobs p (not_commit_of_running hr)] at hreg
      simp [Job.regs] at hreg
    have hst := h.stored
    rw [hc0, hu0] at hst
    have hdev := h.cache.dev_of_refcnt (h.cache.refcnt_pos_of_lock hl)
    have hvalid := h.cache.filled p i hl (by simp [hr.2])
    have hcache : CacheInv (s.cache.logWrite i added) := by
      apply h.cache.logWrite hdev hvalid
      rw [logWrite_added hw, hst.pinned, drop_zero, mem_toFinset]
    refine ⟨h.group.write hw, hcache, ?_, ?_, fun _ => ⟨hc0, hu0⟩, h.jobs, ?_, ?_, ?_⟩
    · dsimp only
      rw [hc0, hu0]
      exact hst.logWrite hb hw
    · intro q j hj hc
      obtain ⟨hh, hn⟩ := (s.cache.sameShape_logWrite i added).noNew q j hj
      exact h.area q j hh (hn ▸ hc)
    · exact fun q c hq => absurd hq (hnc q c)
    · intro n hn
      dsimp only [Cache.logWrite]
      rw [History.replay_append_write]
      grind
    · exact History.legal_append_write.mpr h.legal

end

omit [Fintype P] in
theorem update_commit_iff {pc : P → Pc} {v : Pc} (hp : ∀ c, pc p ≠ .commit c)
    (hv : ∀ c, v ≠ .commit c) (q : P) (c : CommitPc) :
    update pc p v q = .commit c ↔ pc q = .commit c := by grind

theorem enterCommit (h : SystemInv g d s) (ht : GroupInv t) (hsize : t.log.size = s.group.log.size)
    (hlh : t.log.lh = s.group.log.lh) (hnc : ∀ q c, s.group.pc q ≠ .commit c)
    (hpc : t.pc = update s.group.pc p (.commit .enter)) : SystemInv g d { s with group := t } := by
  obtain ⟨hc0, hu0⟩ := h.calm hnc
  refine ⟨ht, h.cache, h.stored.of_log hsize hlh, h.area, fun _ => ⟨hc0, hu0⟩,
    fun q _ => h.jobs q (hnc q), ?_, h.view, h.legal⟩
  intro q c hq
  dsimp only at hq
  rw [hpc] at hq
  grind

omit [DecidableEq P] in
/-- At a boundary of `commit` its process holds no buffer of the log area. -/
theorem no_area_of_boundary (h : SystemInv g d s) (hj : s.job p = .start ∨ s.job p = .finish)
    (hi : s.cache.Has p i) : ¬ g.Contains (s.cache.buf i).blockno := by
  intro hb
  have hreg := h.area p i hi hb
  rcases hj with hj | hj <;> simp [hj, Job.regs] at hreg

theorem area_update (h : SystemInv g d s) (hj : s.job p = .start ∨ s.job p = .finish) (q : P)
    (i : Fin nbuf) (hi : s.cache.Has q i) (hb : g.Contains (s.cache.buf i).blockno) :
    i ∈ (update s.job p .start q).regs := by
  obtain rfl | hqp := eq_or_ne q p
  · exact absurd hb (h.no_area_of_boundary hj hi)
  · rw [update_of_ne hqp]
    exact h.area q i hi hb

theorem advance (h : SystemInv g d s) {c c' : CommitPc}
    (hp : s.group.pc p = .commit c) (hj : s.job p = .start ∨ s.job p = .finish) (ht : GroupInv t)
    (hsize : t.log.size = s.group.log.size) (hlh : t.log.lh = s.group.log.lh)
    (hpc : t.pc = update s.group.pc p (.commit c'))
    (hprog : Progress g { s with group := t, job := update s.job p .start } p c') :
    SystemInv g d { s with group := t, job := update s.job p .start } := by
  have hpt : t.pc p = .commit c' := by rw [hpc, update_self]
  refine ⟨ht, h.cache, h.stored.of_log hsize hlh, h.area_update hj,
    fun hn => absurd hpt (hn p c'), ?_, ?_, h.view, h.legal⟩
  · intro q hn
    dsimp only at hn ⊢
    have hqp : q ≠ p := by
      rintro rfl
      exact hn c' hpt
    rw [update_of_ne hqp]
    exact h.jobs q fun k hk => hqp (h.group.commit_unique hk hp)
  · intro q k hq
    have hqp : q = p := ht.commit_unique hq hpt
    grind

/-- `log.lh.n = 0` after every block has been installed and unpinned. -/
theorem erase (h : SystemInv g d s) (hp : s.group.pc p = .commit .erase)
    (hj : s.job p = .start ∨ s.job p = .finish) (ht : GroupInv (s.group.commitStep p .erase))
    (hu : s.unpinned = s.group.log.lh.length) :
    SystemInv g d (s.logStep (.commit p .erase) (s.group.commitStep p .erase)) := by
  have hpt : (s.group.commitStep p .erase).pc p = .commit .eraseHead := update_self ..
  have hpin : s.cache.pinned = ∅ := by rw [h.stored.pinned, hu, drop_length, toFinset_nil]
  refine ⟨ht, h.cache, ?_, h.area_update hj, fun hn => absurd hpt (hn p _), ?_, ?_, h.view, h.legal⟩
  · exact ⟨h.stored.size, hpin, nodup_nil, fun b hb => absurd hb not_mem_nil, g.pos,
      fun k b hk => absurd hk (Nat.not_lt_zero k)⟩
  · intro q hn
    have hqp : q ≠ p := by
      rintro rfl
      exact hn _ hpt
    dsimp only [System.logStep]
    rw [update_of_ne hqp]
    exact h.jobs q fun k hk => hqp (h.group.commit_unique hk hp)
  · intro q k hq
    have hqp : q = p := ht.commit_unique hq hpt
    subst hqp
    have hk := hq.symm.trans hpt
    cases hk
    refine ⟨rfl, rfl, ?_⟩
    simp only [System.logStep, update_self, HeadTurn]

theorem done (h : SystemInv g d s) (hp : s.group.pc p = .commit .done)
    (hj : s.job p = .start ∨ s.job p = .finish) (ht : GroupInv (s.group.commitStep p .done))
    (hz : s.copied = 0 ∧ s.unpinned = 0) :
    SystemInv g d (s.logStep (.commit p .done) (s.group.commitStep p .done)) := by
  have hnc : ∀ q k, (s.group.commitStep p .done).pc q ≠ .commit k := by
    intro q k hq
    have hq := ((sameWork_wakeup _ q).2 k).mp hq
    obtain rfl | hqp := eq_or_ne q p
    · simp at hq
    · rw [update_of_ne hqp] at hq
      exact hqp (h.group.commit_unique hq hp)
  refine ⟨ht, h.cache, h.stored.of_log rfl rfl, h.area_update hj, fun _ => hz, ?_,
    fun q k hq => absurd hq (hnc q k), h.view, h.legal⟩
  intro q _
  dsimp only [System.logStep]
  by_cases hqp : q = p
  · rw [hqp, update_self]
  · rw [update_of_ne hqp]
    exact h.jobs q fun k hk => hqp (h.group.commit_unique hk hp)

theorem logStep (h : SystemInv g d s) {a : Log.Action P} (hb : s.AtBoundary a)
    (hn : s.group.next a = some t) : SystemInv g d (s.logStep a t) := by
  have ht := h.group.next hn
  cases (step_of_next hn).2 with
  | callBegin hp | sleep hp | kill hp =>
    exact h.of_group ht rfl rfl (update_commit_iff (by simp [hp]) (by simp))
  | grant hp hg =>
    obtain ⟨_, _, rfl⟩ := beginOp_eq_some hg
    exact h.of_group ht rfl rfl (update_commit_iff (by simp [hp]) (by simp))
  | writePanic | write => exact hb.elim
  | endPanic => exact h.of_group ht rfl rfl fun _ _ => Iff.rfl
  | endCommit hp he =>
    obtain ⟨_, _, rfl⟩ := endOp_eq_ok he
    exact h.enterCommit ht rfl rfl (h.group.no_commit_of_op hp) rfl
  | endWake hp he =>
    obtain ⟨_, _, rfl⟩ := endOp_eq_ok he
    apply h.of_group ht rfl rfl
    intro q c
    exact ((sameWork_wakeup _ q).2 c).trans (update_commit_iff (by simp [hp]) (by simp) q c)
  | @commit p c hp =>
    have hprog := h.commit p c hp
    obtain ⟨_, hjob⟩ := hb
    have hj : s.job p = .start ∨ s.job p = .finish := by grind
    cases c with
    | enter =>
      obtain ⟨_, hc0, hu0⟩ := hprog
      apply h.advance hp hj ht rfl rfl rfl
      simp only [CommitPc.advance]
      grind
    | writeLog tail =>
      obtain ⟨hu0, hle, hturn⟩ := hprog
      apply h.advance hp hj ht rfl rfl rfl
      simp only [CommitPc.advance]
      split
      next hlt =>
        rw [usesBuffers, if_pos (by simpa using hlt)] at hjob
        rw [List.getElem?_eq_getElem hlt, hjob] at hturn
        exact progress_writeLog (update_self ..) hu0 hlt hturn
      next hge =>
        have heq : tail = s.group.log.lh.length := by omega
        rw [List.getElem?_eq_none heq.ge] at hturn
        refine ⟨hu0, hturn.2.trans heq, ?_⟩
        simp only [update_self, HeadTurn]
    | writeHead =>
      obtain ⟨hu0, hc, _⟩ := hprog
      apply h.advance hp hj ht rfl rfl rfl
      exact progress_install (update_self ..) hc (Nat.zero_le _) hu0
    | install tail =>
      obtain ⟨hc, hle, hturn⟩ := hprog
      apply h.advance hp hj ht rfl rfl rfl
      simp only [CommitPc.advance]
      split
      next hlt =>
        rw [usesBuffers, if_pos (by simpa using hlt)] at hjob
        rw [List.getElem?_eq_getElem hlt, hjob] at hturn
        exact progress_install (update_self ..) hc hlt hturn
      next hge =>
        have heq : tail = s.group.log.lh.length := by omega
        rw [List.getElem?_eq_none heq.ge] at hturn
        exact ⟨update_self .., hturn.2.trans heq⟩
    | erase => exact h.erase hp hj ht hprog.2
    | eraseHead =>
      obtain ⟨hc0, hu0, _⟩ := hprog
      apply h.advance hp hj ht rfl rfl rfl
      exact ⟨update_self .., hc0, hu0⟩
    | done => exact h.done hp hj ht hprog.2

theorem ofCommit (h : SystemInv g d s) {c : CommitPc} (hp : s.group.pc p = .commit c)
    {j : Job} {u : ℕ} (hcache : CacheInv c')
    (hst : Stored g s.group.log c' k u) (hnew : ∀ q ≠ p, NoNew q s.cache c')
    (hown : ∀ i, c'.Has p i → g.Contains (c'.buf i).blockno → i ∈ j.regs)
    (hview : ∀ b, ¬ g.Contains b → c'.view b = s.cache.view b)
    (hprog : Progress g { s with
      cache := c', job := update s.job p j, copied := k, unpinned := u } p c) :
    SystemInv g d { s with
      cache := c', job := update s.job p j, copied := k, unpinned := u } := by
  refine ⟨h.group, hcache, hst, ?_, fun hn => absurd hp (hn p c), ?_, ?_, ?_, h.legal⟩
  · intro q i hi hb
    dsimp only at hi hb ⊢
    obtain rfl | hqp := eq_or_ne q p
    · rw [update_self]
      exact hown i hi hb
    · obtain ⟨hh, hn⟩ := hnew q hqp i hi
      rw [update_of_ne hqp]
      exact h.area q i hh (hn ▸ hb)
  · grind
  · intro q k hq
    have hqp : q = p := h.group.commit_unique hq hp
    grind
  · grind

theorem startRead (h : SystemInv g d s) {c : CommitPc} (hp : s.group.pc p = .commit c)
    (hio : s.cache.io p = .idle) {next : Fin nbuf → Job}
    (hregs : ∀ i, i ∈ (next i).regs ∧ ∀ j ∈ (s.job p).regs, j ∈ (next i).regs)
    (hprog : ∀ i c', c'.Got p i b → Keeps p s.cache c' →
      Progress g { s with cache := c', job := update s.job p (next i) } p c) :
    SystemInv g d (s.startRead p b next) := by
  unfold System.startRead
  split
  · exact h.setPanic _
  next i c' hg =>
    obtain ⟨his, hacq, hv, hd, hpin, hk, hother, hnew⟩ := h.cache.bget_track hio hg
    refine h.ofCommit hp (h.cache.bget hio hg) (h.stored.of_cache hpin hv)
      (fun q hq => (hother q (Ne.symm hq)).1) ?_ (fun _ _ => by rw [hv])
      (hprog i c' ⟨his, .inl hacq⟩ (hk p))
    grind

theorem move (h : SystemInv g d s) {c : CommitPc} (hp : s.group.pc p = .commit c)
    (hio : s.cache.io p = .idle) (hl : (s.cache.buf i).lock = some p) {v : Block}
    (hregs : ∀ j ∈ (s.job p).regs, j ∈ next.regs)
    (hprog : Progress g { s with
      cache := s.cache.setData i v, job := update s.job p next } p c) :
    SystemInv g d (s.move p i v next) := by
  obtain ⟨_, _, hnew⟩ := setData_track hl v
  refine h.ofCommit hp (h.cache.setData v hl hio) (h.stored.of_cache rfl rfl)
    (fun q _ => hnew q) ?_ (fun _ _ => rfl) hprog
  intro j hj hb
  obtain ⟨hh, hn⟩ := hnew p j hj
  exact hregs j (h.area p j hh (hn ▸ hb))

theorem write (h : SystemInv g d s) {c : CommitPc} (hp : s.group.pc p = .commit c)
    (hregs : ∀ j ∈ (s.job p).regs, j ∈ next.regs)
    (hst : Stored g s.group.log (s.cache.bwrite i) k s.unpinned)
    (hview : ∀ b, ¬ g.Contains b → (s.cache.bwrite i).view b = s.cache.view b)
    (hprog : (s.cache.buf i).lock = some p → Progress g { s with
      cache := s.cache.bwrite i, job := update s.job p next, copied := k } p c) :
    SystemInv g d (s.write p i next k) := by
  unfold System.write
  split
  next hl =>
    have hnew := (s.cache.sameShape_bwrite i).noNew
    have hdev := h.cache.dev_of_refcnt (h.cache.refcnt_pos_of_lock hl)
    refine h.ofCommit hp (h.cache.bwrite hdev) hst (fun q _ => hnew q) ?_ hview (hprog hl)
    intro j hj hb
    obtain ⟨hh, hn⟩ := hnew p j hj
    exact hregs j (h.area p j hh (hn ▸ hb))
  · exact h.setPanic _

theorem release (h : SystemInv g d s) {c : CommitPc} (hp : s.group.pc p = .commit c)
    (hio : s.cache.io p = .idle) (hd : s.cache.dirty i = false)
    (hregs : ∀ j ∈ (s.job p).regs, j ≠ i → j ∈ next.regs)
    (hprog : (s.cache.buf i).lock = some p → Progress g { s with
      cache := s.cache.releasesleep p i, job := update s.job p next } p c) :
    SystemInv g d (s.release p i next) := by
  unfold System.release
  split
  next hl =>
    obtain ⟨hnew, _, _, hgone⟩ := releasesleep_track hl
    refine h.ofCommit hp (h.cache.releasesleep hl hio hd) (h.stored.of_cache rfl rfl)
      (fun q _ => hnew q) ?_ (fun _ _ => rfl) (hprog hl)
    intro j hj hb
    obtain ⟨hh, hn⟩ := hnew p j hj
    grind
  · exact h.setPanic _

end SystemInv
end Xv6.Bio
