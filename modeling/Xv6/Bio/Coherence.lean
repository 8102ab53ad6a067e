import Xv6.Bio.SystemInv

/-! The buffer cache plus log behaves as a plain array of blocks: `bread` returns what was last
passed to `log_write`, whatever buffers were recycled and whatever was committed in between. -/
namespace Xv6.Bio
open Function Log Cache Transition List
attribute [local simp] Job.regs
variable {P : Type} {g : LogArea} {d : Disk} {s s' : System P}

namespace SystemInv

theorem data_of_held [Fintype P] (h : SystemInv g d s) {p : P} {i : Fin nbuf} {b : ℕ}
    (hi : s.cache.Held p i b) (hio : s.cache.io p = .idle) :
    (s.cache.buf i).data = s.cache.view b := by grind

private theorem ne_of_area {i j : Fin nbuf} {x b : ℕ} (hx : g.Contains x) (hb : ¬ g.Contains b)
    (hi : s.cache.Is i x) (hj : s.cache.Is j b) : i ≠ j := by
  rintro rfl
  exact hb (hj.2 ▸ hi.2 ▸ hx)

private theorem view_bwrite_of_area {i : Fin nbuf} {x b : ℕ} (hx : g.Contains x)
    (hb : ¬ g.Contains b) (hi : s.cache.Is i x) : (s.cache.bwrite i).view b = s.cache.view b := by
  have hne : b ≠ (s.cache.buf i).blockno := by
    rintro rfl
    exact hb (hi.2 ▸ hx)
  exact update_of_ne hne ..

variable [Fintype P] [DecidableEq P]

theorem writeLogStep (h : SystemInv g d s) {p : P} {tail b : ℕ}
    (hp : s.group.pc p = .commit (.writeLog tail)) (hio : s.cache.io p = .idle)
    (hb : s.group.log.lh[tail]? = some b) (hs : s.writeLogStep g p tail b = some s') :
    SystemInv g d s' := by
  obtain ⟨hu, hle, hturn⟩ := h.commit p _ hp
  rw [hb] at hturn
  dsimp only at hturn
  have hlt := (List.getElem?_eq_some_iff.mp hb).1
  have hx := h.stored.logBlock_contains hlt
  have hbo := h.stored.outside b (mem_of_getElem? hb)
  -- the goal after each step, with the job of the process spelled out
  have hmk : ∀ {t : System P} {j : Job}, t.group = s.group → t.unpinned = s.unpinned →
      t.job p = j → LogTurn g t p tail b j → Progress g t p (.writeLog tail) := by grind
  unfold System.writeLogStep at hs
  cases hjob : s.job p with
  | start =>
    rw [hjob] at hs hturn
    cases hs
    apply h.startRead hp hio (fun i => ⟨by simp, by simp [hjob]⟩)
    grind
  | first i =>
    rw [hjob] at hs hturn
    cases hs
    obtain ⟨hc, hgi⟩ := hturn
    apply h.startRead hp hio (fun j => ⟨by simp, by simp [hjob]⟩)
    grind
  | both i j =>
    rw [hjob] at hs hturn
    cases hs
    obtain ⟨hc, hi, hgj⟩ := hturn
    have hj := hgj.held hio
    have hij := ne_of_area hx hbo hi.1 hj.1
    have hshape := s.cache.sameShape_setData i (s.cache.buf j).data
    apply h.move hp hio hi.2.1 (by simp [hjob])
    refine hmk rfl rfl (update_self ..)
      ⟨hc, hio, (hshape.is_iff i _).mpr hi.1, (hshape.lock i).trans hi.2.1, ?_,
        (setData_track hi.2.1 _).2.1 j b (Ne.symm hij) hj⟩
    simp only [Cache.setData, update_self, Buf.setData]
    exact h.data_of_held hj hio
  | moved i j =>
    rw [hjob] at hs hturn
    cases hs
    obtain ⟨hc, _, hi, hl, hdata, hj⟩ := hturn
    have hview := fun n hn => view_bwrite_of_area (s := s) (b := n) hx hn hi
    apply h.write hp (by simp [hjob]) ?_ hview
    · intro _
      refine hmk rfl rfl (update_self ..) ⟨rfl, ⟨hi, hl, ?_⟩, (keeps_bwrite _ i p).held hj⟩
      exact update_self ..
    · refine { h.stored with copied := ?_ }
      intro k n hk hn
      rw [hview n (h.stored.outside n (mem_of_getElem? hn))]
      dsimp only [Cache.bwrite]
      grind
  | written i j =>
    rw [hjob] at hs hturn
    cases hs
    obtain ⟨hc, hi, hj⟩ := hturn
    have hij := ne_of_area hx hbo hi.1 hj.1
    apply h.release hp hio hj.2.2
    · simp [hjob]
    · intro hl
      exact hmk rfl rfl (update_self ..) ⟨hc, (releasesleep_track hl).2.2.1 i _ hij hi⟩
  | last i =>
    rw [hjob] at hs hturn
    cases hs
    obtain ⟨hc, hi⟩ := hturn
    apply h.release hp hio hi.2.2
    · simp [hjob]
    · exact fun _ => hmk rfl rfl (update_self ..) hc
  | unpinned | finish =>
    rw [hjob] at hs
    cases hs

theorem writeHeadStep (h : SystemInv g d s) {p : P}
    (hp : s.group.pc p = .commit .writeHead ∨ s.group.pc p = .commit .eraseHead)
    (hio : s.cache.io p = .idle) (hs : s.writeHeadStep g p = some s') : SystemInv g d s' := by
  have hx : g.Contains g.start := ⟨le_rfl, Nat.lt_add_of_pos_right g.pos⟩
  obtain ⟨c, hpc, hturn, hmk⟩ : ∃ c, s.group.pc p = .commit c ∧ HeadTurn g s p (s.job p) ∧
      ∀ {t : System P} {j : Job}, t.group = s.group → t.unpinned = s.unpinned →
        t.copied = s.copied → t.job p = j → HeadTurn g t p j → Progress g t p c := by grind
  unfold System.writeHeadStep at hs
  cases hjob : s.job p with
  | start =>
    rw [hjob] at hs
    cases hs
    apply h.startRead hpc hio (fun i => ⟨by simp, by simp [hjob]⟩)
    grind
  | first i =>
    rw [hjob] at hs hturn
    cases hs
    have hi := hturn.held hio
    have hshape := s.cache.sameShape_setData i (headBlock s.group.log.lh (s.cache.buf i).data)
    apply h.move hpc hio hi.2.1 (by simp [hjob])
    grind
  | moved i j =>
    rw [hjob] at hs hturn
    cases hs
    obtain ⟨rfl, _, hi, hl⟩ := hturn
    have hview := fun n hn => view_bwrite_of_area (s := s) (b := n) hx hn hi
    apply h.write hpc (by simp [hjob]) ?_ hview
    · intro _
      exact hmk rfl rfl rfl (update_self ..) ⟨rfl, hi, hl, update_self ..⟩
    · refine { h.stored with copied := ?_ }
      intro k n hk hn
      rw [hview n (h.stored.outside n (mem_of_getElem? hn))]
      dsimp only [Cache.bwrite]
      grind
  | written i j =>
    rw [hjob] at hs hturn
    cases hs
    obtain ⟨rfl, hi⟩ := hturn
    apply h.release hpc hio hi.2.2
    · simp [hjob]
    · exact fun _ => hmk rfl rfl rfl (update_self ..) trivial
  | both | unpinned | last | finish =>
    rw [hjob] at hs
    cases hs

theorem installStep (h : SystemInv g d s) {p : P} {tail b : ℕ}
    (hp : s.group.pc p = .commit (.install tail)) (hio : s.cache.io p = .idle)
    (hb : s.group.log.lh[tail]? = some b) (hs : s.installStep g p tail b = some s') :
    SystemInv g d s' := by
  obtain ⟨hcop, hle, hturn⟩ := h.commit p _ hp
  rw [hb] at hturn
  dsimp only at hturn
  obtain ⟨hlt, hget⟩ := List.getElem?_eq_some_iff.mp hb
  have hx := h.stored.logBlock_contains hlt
  have hbo := h.stored.outside b (mem_of_getElem? hb)
  have hmk : ∀ {t : System P} {j : Job}, t.group = s.group → t.copied = s.copied →
      t.job p = j → InstallTurn g t p tail b j → Progress g t p (.install tail) := by grind
  unfold System.installStep at hs
  cases hjob : s.job p with
  | start =>
    rw [hjob] at hs hturn
    cases hs
    apply h.startRead hp hio (fun i => ⟨by simp, by simp [hjob]⟩)
    grind
  | first i =>
    rw [hjob] at hs hturn
    cases hs
    obtain ⟨hu, hgi⟩ := hturn
    apply h.startRead hp hio (fun j => ⟨by simp, by simp [hjob]⟩)
    grind
  | both i j =>
    rw [hjob] at hs hturn
    cases hs
    obtain ⟨hu, hi, hgj⟩ := hturn
    have hj := hgj.held hio
    have hij := ne_of_area hx hbo hi.1 hj.1
    have hshape := s.cache.sameShape_setData j (s.cache.buf i).data
    apply h.move hp hio hj.2.1 (by simp [hjob])
    refine hmk rfl rfl (update_self ..)
      ⟨hu, hio, (setData_track hj.2.1 _).2.1 i _ hij hi, (hshape.is_iff j _).mpr hj.1,
        (hshape.lock j).trans hj.2.1, ?_⟩
    simp only [Cache.setData, update_self, Buf.setData]
    grind
  | moved i j =>
    rw [hjob] at hs hturn
    cases hs
    obtain ⟨hu, _, hi, hj, hl, hdata⟩ := hturn
    -- the home block is written with the contents it already had in the cache
    have hview : (s.cache.bwrite j).view = s.cache.view := by
      dsimp only [Cache.bwrite]
      rw [hdata, hj.2, update_eq_self]
    apply h.write hp (by simp [hjob]) (h.stored.of_cache rfl hview) (fun _ _ => by rw [hview])
    intro _
    refine hmk rfl rfl (update_self ..)
      ⟨hu, (keeps_bwrite _ j p).held hi, ⟨hj, hl, update_self ..⟩, ?_⟩
    dsimp only
    rw [hview]
    dsimp only [Cache.bwrite]
    rw [hj.2, update_self, hdata]
  | written i j =>
    rw [hjob] at hs hturn
    cases hs
    obtain ⟨hu, hi, hj, hdisk⟩ := hturn
    have hdrop : s.group.log.lh.drop tail = b :: s.group.log.lh.drop (tail + 1) := by
      rw [drop_eq_getElem_cons hlt, hget]
    have hpin := h.stored.pinned
    rw [hu, hdrop] at hpin
    have hnotin : b ∉ s.group.log.lh.drop (tail + 1) := by
      have hnd := h.stored.nodup.sublist (drop_sublist tail _)
      rw [hdrop] at hnd
      exact (nodup_cons.mp hnd).1
    have hnew := (s.cache.sameShape_bunpin j).noNew
    refine h.ofCommit hp ?_ { h.stored with pinned := ?_ } (fun q _ => hnew q) ?_
      (fun _ _ => rfl) ?_
    · apply h.cache.bunpin hj.1.1
      · rw [hj.1.2, hpin]
        simp
      · rw [hj.1.2, hdisk]
    · dsimp only [Cache.bunpin]
      rw [hj.1.2, hpin, toFinset_cons, Finset.erase_insert (by simpa using hnotin)]
    · intro k hk hc
      obtain ⟨hh, hn⟩ := hnew p k hk
      have hreg := h.area p k hh (hn ▸ hc)
      rwa [hjob] at hreg
    · exact hmk rfl rfl (update_self ..)
        ⟨rfl, (keeps_bunpin _ j p).held hi, (keeps_bunpin _ j p).held hj⟩
  | unpinned i j =>
    rw [hjob] at hs hturn
    cases hs
    obtain ⟨hu, hi, hj⟩ := hturn
    have hij := ne_of_area hx hbo hi.1 hj.1
    apply h.release hp hio hi.2.2
    · simp [hjob]
    · intro hl
      exact hmk rfl rfl (update_self ..) ⟨hu, (releasesleep_track hl).2.2.1 j _ (Ne.symm hij) hj⟩
  | last j =>
    rw [hjob] at hs hturn
    cases hs
    obtain ⟨hu, hj⟩ := hturn
    apply h.release hp hio hj.2.2
    · simp [hjob]
    · exact fun _ => hmk rfl rfl (update_self ..) hu
  | finish =>
    rw [hjob] at hs
    cases hs

theorem commitStep (h : SystemInv g d s) {p : P} (hio : s.cache.io p = .idle)
    (hs : s.commitStep g p = some s') : SystemInv g d s' := by
  unfold System.commitStep at hs
  split at hs
  next tail hp =>
    obtain ⟨b, hb, hs⟩ := Option.bind_eq_some_iff.mp hs
    exact h.writeLogStep hp hio hb hs
  next hp => exact h.writeHeadStep (.inl hp) hio hs
  next hp => exact h.writeHeadStep (.inr hp) hio hs
  next tail hp =>
    obtain ⟨b, hb, hs⟩ := Option.bind_eq_some_iff.mp hs
    exact h.installStep hp hio hb hs
  · cases hs

theorem next (h : SystemInv g d s) {a : Action P} (hs : s.next g a = some s') :
    SystemInv g d s' := by
  unfold System.next at hs
  split at hs
  · cases hs
  cases a with
  | log a =>
    obtain ⟨hb, hs⟩ := Option.ite_none_right_eq_some.mp hs
    obtain ⟨t, ht, rfl⟩ := Option.map_eq_some_iff.mp hs
    exact h.logStep hb ht
  | bread p b =>
    obtain ⟨hr, hs⟩ := Option.ite_none_right_eq_some.mp hs
    cases hs
    exact h.bread hr.1 hr.2
  | acquiresleep p =>
    obtain ⟨c, hc, rfl⟩ := Option.map_eq_some_iff.mp hs
    exact h.of_passes (h.cache.acquiresleep hc) (h.cache.acquiresleep_passes hc)
  | fill p =>
    obtain ⟨r, hr, rfl⟩ := Option.map_eq_some_iff.mp hs
    exact h.fillStep hr
  | modify p i v =>
    obtain ⟨hr, hs⟩ := Option.ite_none_right_eq_some.mp hs
    cases hs
    exact h.modify v hr.1 hr.2
  | logWrite p i =>
    obtain ⟨hr, hs⟩ := Option.ite_none_right_eq_some.mp hs
    cases hs
    exact h.logWrite hr.1 hr.2
  | brelse p i =>
    obtain ⟨hr, hs⟩ := Option.ite_none_right_eq_some.mp hs
    cases hs
    exact h.brelse hr.1 hr.2
  | deref p =>
    obtain ⟨c, hc, rfl⟩ := Option.map_eq_some_iff.mp hs
    exact h.of_passes (h.cache.deref hc) (deref_passes hc)
  | commit p =>
    obtain ⟨hio, hs⟩ := Option.ite_none_right_eq_some.mp hs
    exact h.commitStep hio hs

omit [DecidableEq P] in
theorem init {c : Cache P} (hc : c.Quiet d) : SystemInv g d (System.init g.size c) where
  group := GroupInv.init g.size
  cache := CacheInv.of_quiet hc
  stored := ⟨rfl, hc.pinned, nodup_nil, fun b hb => absurd hb not_mem_nil, g.pos,
    fun k b hk => absurd hk (Nat.not_lt_zero k)⟩
  area p i hi := by
    rcases hi with ha | hl
    · exact absurd ha (by simp [System.init, hc.idle])
    · exact absurd hl (by simp [System.init, hc.free])
  calm _ := ⟨rfl, rfl⟩
  jobs _ _ := rfl
  commit p c hp := by simp [System.init, GroupState.init] at hp
  view b _ := by rw [System.init, hc.view]; rfl
  legal := trivial

theorem run {c : Cache P} (hc : c.Quiet d) {as : List (Action P)}
    (hr : Transition.run (System.next g) (System.init g.size c) as = some s) : SystemInv g d s :=
  run_invariant (fun _ _ _ h hs => h.next hs) (init hc) hr

end SystemInv

/-- Buffer cache and log are a plain array of blocks. In every run, by any number of processes,
each `bread` of a block outside the log area returns the contents last passed to `log_write` for
that block, or the initial disk contents; and the valid buffers that `bget` recycles hold the
contents of their disk blocks. -/
theorem bread_returns_last_logged [Fintype P] [DecidableEq P] {c : Cache P} (hc : c.Quiet d)
    {as : List (Action P)}
    (hr : run (System.next g) (System.init g.size c) as = some s) :
    History.Legal d s.events ∧
    ∀ p b i c', s.cache.findCached rootdev b = none → s.cache.bget p rootdev b = some (i, c') →
      (s.cache.buf i).valid = true →
      (s.cache.buf i).data = s.cache.disk (s.cache.buf i).blockno := by
  have h := SystemInv.run hc hr
  refine ⟨h.legal, ?_⟩
  intro p b i c' hn hg hv
  unfold Cache.bget at hg
  rw [hn] at hg
  dsimp only at hg
  split at hg
  next j hu =>
    cases hg
    exact h.cache.recyclable_eq_disk (CacheInv.findUnused_eq_some hu) hv
  · cases hg

def commitRead : List (Action (Fin 1)) := [.commit 0, .acquiresleep 0, .fill 0]

def commitRelease : List (Action (Fin 1)) := [.commit 0, .deref 0]

def headActions (c : CommitPc) : List (Action (Fin 1)) :=
  [commitRead, [.commit 0, .commit 0], commitRelease, [.log (.commit 0 c)]].flatten

def logAndReread (v : Block) : List (Action (Fin 1)) :=
  [[.log (.callBegin 0), .log (.testLog 0), .bread 0 50, .acquiresleep 0, .fill 0, .modify 0 0 v,
      .logWrite 0 0, .brelse 0 0, .deref 0, .log (.endOp 0), .log (.commit 0 .enter)],
    commitRead, commitRead, [.commit 0, .commit 0], commitRelease, commitRelease,
    [.log (.commit 0 (.writeLog 0)), .log (.commit 0 (.writeLog 1))], headActions .writeHead,
    commitRead, commitRead, [.commit 0, .commit 0, .commit 0], commitRelease, commitRelease,
    [.log (.commit 0 (.install 0)), .log (.commit 0 (.install 1)), .log (.commit 0 .erase)],
    headActions .eraseHead,
    [.log (.commit 0 .done), .bread 0 50, .acquiresleep 0, .fill 0]].flatten

theorem bread_returns_last_logged_reread : ∃ s : System (Fin 1),
    run (System.next ⟨2, logsize, by decide⟩) (System.init logsize (Cache.binit fun _ => .zero))
      (logAndReread fun _ => 1) = some s ∧
    s.panic = none ∧ s.group.commits = [[50]] ∧ s.events.length = 5 ∧
    History.Legal (fun _ => .zero) s.events := by
  have h : ∃ s ∈ run (System.next ⟨2, logsize, by decide⟩)
      (System.init logsize (Cache.binit fun _ => .zero)) (logAndReread fun _ => 1),
      s.panic = none ∧ s.group.commits = [[50]] ∧ s.events.length = 5 := by decide +kernel
  obtain ⟨s, hr, hp, hc, hl⟩ := h
  exact ⟨s, hr, hp, hc, hl, (bread_returns_last_logged (Cache.quiet_binit _) hr).1⟩

end Xv6.Bio
