import Xv6.Ftable.Refs

/-! Between calls the reference counts of the files are exact, and no call panics. -/
namespace Xv6.Ftable
open Function Hoare Counting Transition List
attribute [local simp] File.resource
variable {N : ℕ} {s t : State N} {p np : Fin N} {f g : Fin nfile} {K : ℕ → ℤ}
  {U : Fin nfile → Prop} {H : Fin nfile → ℕ} {E : Panic → Prop}

def noRefs : Fin nfile → ℕ := fun _ => 0

@[grind cases] structure State.Exact (s : State N) : Prop where
  backed : s.Backed (fun _ => 0) (fun _ => False)
  counted : s.Counted noRefs
  closed : s.Closed

theorem exact_boot (init : Fin N) : (State.boot N init).Exact where
  backed := by
    refine ⟨fun _ _ => rfl, fun f hf => absurd rfl hf, ⟨fun pi w => ?_, fun f g pi w hf => ?_,
      fun pi e he => ?_, fun ip => ?_, fun f => trivial⟩⟩
    · simp [State.boot, openEnd]
    · simp [State.boot] at hf
    · cases he
    · have h0 : holders (fun _ => none) (.inode ip) = 0 := total_eq_zero.mpr fun _ => rfl
      change (0 : ℤ) = holders (fun _ => none) (.inode ip) + 0
      rw [h0]
      rfl
  counted f := by
    have h0 : (State.boot N init).slots f = 0 :=
      total_eq_zero.mpr fun _ => total_eq_zero.mpr fun _ => rfl
    rw [h0]
    rfl
  closed _ _ _ := rfl

@[grind cases] structure Holds (s : State N) (H : Fin nfile → ℕ) (t : State N) : Prop where
  backed : t.Backed (fun _ => 0) (fun _ => False)
  counted : t.Counted H
  ofile : t.ofile = s.ofile
  live : t.live = s.live

namespace Holds

theorem exact (h : Holds s noRefs t) (hs : s.Closed) : t.Exact := by
  refine ⟨h.backed, h.counted, ?_⟩
  unfold State.Closed
  rw [h.ofile, h.live]
  exact hs

end Holds

theorem fileclose_held (hs : s.Backed K U) (hc : s.Counted (bump H f)) :
    wp (fileclose f) (fun _ t => t.Backed K U ∧ t.Counted H ∧ Drops s f t) E s := by
  have hpos : 0 < (s.file f).ref := by
    rw [hc f]
    simp [bump]
  exact wp_post (fileclose_spec hs hpos) (fun _ t ht => ⟨ht.1, ht.2.counted hc, ht.2⟩)

theorem Drops.untyped (h : Drops s f t) (hf : (s.file f).ref = 1)
    (ht : t.Backed K fun h => h = f ∨ U h) : t.Backed K U := by
  refine ht.mono fun g hr _ hg => ?_
  grind

private theorem bump_comm (H : Fin nfile → ℕ) (f g : Fin nfile) :
    bump (bump H f) g = bump (bump H g) f := by
  by_cases hfg : f = g
  · rw [hfg]
  · unfold bump
    grind

private theorem setSlot_cancel {fd : Fin nofile} {x : Option (Fin nfile)}
    (h : s.ofile p fd = none) : (s.setSlot p fd x).setSlot p fd none = s := by
  cases s
  simp only [State.setSlot, update_self, update_idem, ← h, update_eq_self]

theorem setSlot_comm {fd fd' : Fin nofile} {x y : Option (Fin nfile)} (h : fd ≠ fd') :
    (s.setSlot p fd x).setSlot p fd' y = (s.setSlot p fd' y).setSlot p fd x := by
  simp only [State.setSlot, update_self, update_idem, update_comm h]

theorem State.Closed.setSlot (h : s.Closed) (hl : s.live p = true) (fd : Fin nofile)
    (x : Option (Fin nfile)) : (s.setSlot p fd x).Closed := by
  intro q hq fd'
  have hqp : q ≠ p := by
    rintro rfl
    cases hl.symm.trans hq
  simpa [hqp] using h q hq fd'

theorem State.Backed.openPipe (hs : s.Backed K (fun h => h = g ∨ h = f ∨ False)) (hfg : f ≠ g)
    {pi : ℕ} (hp : s.pipe pi = none) {x y : File} (hx : x.ref = 1) (hy : y.ref = 1)
    (htx : x.type = .pipe ∧ x.pipe = pi ∧ x.writable = false)
    (hty : y.type = .pipe ∧ y.pipe = pi ∧ y.writable = true) (hf : (s.file f).type = .none)
    (hg : (s.file g).type = .none)
    (hfile : t.file = update (update s.file f x) g y)
    (hpipe : t.pipe = update s.pipe pi (some ⟨true, true⟩)) (hiref : t.iref = s.iref)
    (hlog : t.log = update (update s.log f
      (.acquired (.pipeEnd pi false) :: s.log f)) g (.acquired (.pipeEnd pi true) :: s.log g)) :
    t.Backed K (fun _ => False) := by
  have hrx : x.resource = some (.pipeEnd pi false) := by simp [hx, htx.1, htx.2.1, htx.2.2]
  have hry : y.resource = some (.pipeEnd pi true) := by simp [hy, hty.1, hty.2.1, hty.2.2]
  have hres : (fun h => (t.file h).resource) = update (update
      (fun h => (s.file h).resource) f (some (.pipeEnd pi false))) g
        (some (.pipeEnd pi true)) := by
    rw [hfile, ← hrx, ← hry]
    grind
  refine ⟨fun h hh => ?_, fun h hh ht => ?_, ?_⟩
  · rw [hfile] at hh ⊢
    grind
  · rw [hfile] at hh ht
    grind
  · rw [hres, hpipe, hiref, hlog]
    exact hs.backing.openPipe hfg (resource_of_type hf) (resource_of_type hg) hp

theorem pipealloc_spec (hs : s.Exact) {mem : Option ℕ}
    (hmem : ∀ pi, mem = some pi → s.pipe pi = none) :
    wp (pipealloc mem) (fun r t => match r with
      | none => Holds s noRefs t
      | some (f, g) => Holds s (bump (bump noRefs f) g) t) E s := by
  unfold pipealloc
  simp only [wp_bind]
  refine filealloc_spec ⟨hs.backed, hs.counted, rfl, rfl⟩ fun f hf => ?_
  have hb := hs.backed.alloc hf
  have hc := hs.counted.setFile (f := f) (x := { s.file f with ref := 1 }) (by rw [hf])
  have htf := hs.backed.fresh f hf
  simp only [wp_bind]
  refine filealloc_spec ?_ fun g hg => ?_
  · unfold pipeallocBad
    simp only [wp_bind, wp_forM_cons, wp_forM_nil, wp_pure]
    refine wp_post (fileclose_held hb hc) (fun _ t ht => ?_)
    exact ⟨ht.2.2.untyped (by simp) ht.1, ht.2.1, ht.2.2.ofile, ht.2.2.live⟩
  · have hgf : g ≠ f := by
      rintro rfl
      simp at hg
    have hb2 := hb.alloc hg
    have hc2 := hc.setFile (f := g) (x := { (s.setFile f { s.file f with ref := 1 }).file g with
      ref := 1 }) (by rw [hg])
    have htg := hb.fresh g hg
    cases mem with
    | none =>
      unfold pipeallocBad
      simp only [wp_bind, wp_forM_cons, wp_forM_nil, wp_pure]
      rw [bump_comm] at hc2
      refine wp_post (fileclose_held hb2 hc2) (fun _ t ht => ?_)
      refine wp_post (fileclose_held ht.1 ht.2.1) (fun _ u hu => ?_)
      have hg1 : (t.file g).ref = 1 := by rw [ht.2.2.other g hgf]; simp
      have hu1 := hu.2.2.untyped hg1 hu.1
      refine ⟨hu1.mono fun h hr _ hh => ?_, hu.2.1, hu.2.2.ofile.trans ht.2.2.ofile,
        hu.2.2.live.trans ht.2.2.live⟩
      rcases hh with rfl | hh
      · have href := ht.2.2.ref
        rw [← hu.2.2.other h hgf.symm] at href
        simp [hgf.symm] at href
        exact hr href
      · exact hh
    | some pi =>
      simp only [wp_bind, wp_modify, wp_pure]
      refine ⟨hb2.openPipe hgf.symm (hmem pi rfl) ?_ ?_ ⟨rfl, rfl, rfl⟩ ⟨rfl, rfl, rfl⟩ ?_ ?_ rfl
        rfl rfl ?_, hc2.congr rfl fun h => ?_, rfl, rfl⟩
      · simp [hgf.symm]
      · simp [hgf]
      · simpa [hgf.symm] using htf
      · simpa using htg
      · simp [hgf]
      · obtain rfl | hhg := eq_or_ne h g
        · simp [hgf]
        · obtain rfl | hhf := eq_or_ne h f
          · simp [hgf.symm]
          · simp [hhg, hhf]

theorem fileclose_both (h : Holds s (bump (bump noRefs f) g) t) (hs : s.Closed) :
    wp (do fileclose f; fileclose g; return none) (fun (_ : Option ℕ) u => u.Exact) E t := by
  simp only [wp_bind, wp_pure]
  have hc := h.counted
  rw [bump_comm] at hc
  refine wp_post (fileclose_held h.backed hc) (fun _ u hu => ?_)
  refine wp_post (fileclose_held hu.1 hu.2.1) (fun _ v hv => ?_)
  refine Holds.exact ⟨hv.1, hv.2.1, ?_, ?_⟩ hs
  · rw [hv.2.2.ofile, hu.2.2.ofile, h.ofile]
  · rw [hv.2.2.live, hu.2.2.live, h.live]

theorem sysPipe_spec (hs : s.Exact) (hl : s.live p = true) {mem : Option ℕ}
    (hmem : ∀ pi, mem = some pi → s.pipe pi = none) (copied : Bool) :
    wp (sysPipe p mem copied) (fun _ t => t.Exact) E s := by
  unfold sysPipe
  refine wp_seq (pipealloc_spec hs hmem) (fun r t ht => ?_)
  match r, ht with
  | none, ht => exact ht.exact hs.closed
  | some (f, g), ht =>
    have hlt : t.live p = true := by rw [ht.live, hl]
    have hct : t.Closed := by
      unfold State.Closed
      rw [ht.live, ht.ofile]
      exact hs.closed
    rw [wp_bind]
    refine fdalloc_spec (fileclose_both ht hs.closed) fun fd0 hfd0 => ?_
    rw [wp_bind]
    refine fdalloc_spec ?_ fun fd1 hfd1 => ?_
    · simp only [wp_bind, wp_modify, setSlot_cancel hfd0]
      simpa only [wp_bind] using fileclose_both ht hs.closed
    · have hne : fd1 ≠ fd0 := by
        rintro rfl
        simp at hfd1
      cases copied with
      | true =>
        have hc := ht.counted
        rw [bump_comm] at hc
        exact ⟨(ht.backed.setSlot _).setSlot _, (hc.setSlot_some hfd0).setSlot_some hfd1,
          (hct.setSlot hlt _ _).setSlot hlt _ _⟩
      | false =>
        have hfd1 : t.ofile p fd1 = none := by simpa [hne] using hfd1
        have hback : ((((t.setSlot p fd0 (some f)).setSlot p fd1 (some g)).setSlot p fd0
            none).setSlot p fd1 none) = t := by
          rw [setSlot_comm hne, setSlot_cancel hfd0, setSlot_cancel hfd1]
        simp only [Bool.false_eq_true, if_false, wp_bind, wp_modify, hback]
        simpa only [wp_bind] using fileclose_both ht hs.closed

theorem argfd_eq_some {fd : ℤ} {fd' : Fin nofile} (h : argfd s p fd = some (fd', f)) :
    s.ofile p fd' = some f := by
  unfold argfd at h
  split at h
  · obtain ⟨x, hx, he⟩ := Option.map_eq_some_iff.mp h
    cases he
    exact hx
  · cases h

theorem sysDup_spec (hs : s.Exact) (hl : s.live p = true) (fd : ℤ) :
    wp (sysDup p fd) (fun _ t => t.Exact) E s := by
  unfold sysDup
  rw [wp_bind, wp_get]
  split
  · exact hs
  next fd' f hf =>
    have hpos := hs.counted.pos (argfd_eq_some hf)
    rw [wp_bind]
    refine fdalloc_spec hs fun fd1 hfd1 => ?_
    rw [wp_bind]
    refine filedup_spec hpos ?_
    -- the descriptor is stored before the count goes up
    change ((s.setFile f { s.file f with ref := (s.file f).ref + 1 }).setSlot p fd1 (some f)).Exact
    exact ⟨(hs.backed.dup hpos).setSlot _, (hs.counted.setFile rfl).setSlot_some hfd1,
      State.Closed.setSlot hs.closed hl _ _⟩

theorem sysClose_spec (hs : s.Exact) (hl : s.live p = true) (fd : ℤ) :
    wp (sysClose p fd) (fun _ t => t.Exact) E s := by
  unfold sysClose
  rw [wp_bind, wp_get]
  split
  · exact hs
  next fd' f hf =>
    simp only [wp_bind, wp_modify, wp_pure]
    have hc := hs.counted.setSlot_none (argfd_eq_some hf)
    refine wp_post (fileclose_held (hs.backed.setSlot none) hc) (fun _ t ht => ?_)
    exact Holds.exact ⟨ht.1, ht.2.1, ht.2.2.ofile, ht.2.2.live⟩ (hs.closed.setSlot hl fd' none)

def oneInode (ip : ℕ) : ℕ → ℤ := update (fun _ => 0) ip (0 + 1)

attribute [local simp] oneInode

theorem openBad_spec {ip : ℕ} (hs : s.Backed (oneInode ip) fun _ => False) (hc : s.Counted noRefs)
    (hcl : s.Closed) : wp (openBad ip) (fun _ t => t.Exact) E s := by
  have hb := hs.addRef ip (-1)
  have hK : update (oneInode ip) ip (oneInode ip ip + -1) = fun _ => 0 := by
    funext jp
    by_cases hj : jp = ip
    · simp [hj]
    · simp [hj]
  rw [hK] at hb
  exact ⟨hb, hc.congr rfl fun _ => rfl, hcl⟩

/-- The file of a successful `open` takes over the reference to the inode. -/
theorem State.Backed.openInode {ip : ℕ} (hs : s.Backed (oneInode ip) fun h => h = f ∨ False)
    {x : File} (hx : x.ref = 1) (htx : x.type = .inode ∨ x.type = .device) (hip : x.ip = ip)
    (hf : (s.file f).type = .none) (hfile : t.file = update s.file f x) (hpipe : t.pipe = s.pipe)
    (hiref : t.iref = s.iref) (hlog : t.log = update s.log f (.acquired (.inode ip) :: s.log f)) :
    t.Backed (fun _ => 0) (fun _ => False) := by
  have hne : x.type ≠ .none := by rcases htx with h | h <;> simp [h]
  have hrx : x.resource = some (.inode ip) := by
    rcases htx with h | h <;> simp [hx, h, hip]
  have hres : (fun h => (t.file h).resource) =
      update (fun h => (s.file h).resource) f (some (.inode ip)) := by
    rw [hfile, ← hrx]
    exact resource_setFile s f x
  have hK : update (oneInode ip) ip (oneInode ip ip - 1) = fun _ => 0 := by
    funext jp
    by_cases hj : jp = ip
    · simp [hj]
    · simp [hj]
  refine ⟨fun h hh => ?_, fun h hh ht => ?_, ?_⟩
  · rw [hfile] at hh ⊢
    grind
  · rw [hfile] at hh ht
    grind
  · rw [hres, hpipe, hiref, hlog, ← hK]
    exact hs.backing.openInode (resource_of_type hf)

theorem sysOpen_spec (hs : s.Exact) (hl : s.live p = true) (omode : ℕ) (found : Option Found) :
    wp (sysOpen p omode found) (fun _ t => t.Exact) E s := by
  cases found with
  | none => exact hs
  | some x =>
    have hb : (s.addRef x.ip 1).Backed (oneInode x.ip) fun _ => False := hs.backed.addRef x.ip 1
    have hc : (s.addRef x.ip 1).Counted noRefs := hs.counted.congr rfl fun _ => rfl
    have hbad : wp (openBad x.ip) (fun _ t => t.Exact) E (s.addRef x.ip 1) :=
      openBad_spec hb hc hs.closed
    unfold sysOpen iget
    simp only [wp_bind, wp_modify]
    split
    · exact hbad
    split
    · exact hbad
    rw [wp_bind]
    refine filealloc_spec hbad fun f hf => ?_
    have hb1 := hb.alloc hf
    have hc1 := hc.setFile (f := f) (x := { (s.addRef x.ip 1).file f with ref := 1 }) (by rw [hf])
    have htf := hb.fresh f hf
    rw [wp_bind]
    refine fdalloc_spec ?_ fun fd hfd => ?_
    · rw [wp_bind]
      refine wp_post (fileclose_held hb1 hc1) (fun _ t ht => ?_)
      refine openBad_spec (ht.2.2.untyped (by simp) ht.1) ht.2.1 ?_
      unfold State.Closed
      rw [ht.2.2.ofile, ht.2.2.live]
      exact hs.closed
    · simp only [wp_bind, wp_modify, wp_pure]
      refine ⟨(hb1.setSlot (some f)).openInode ?_ ?_ rfl ?_ rfl rfl rfl rfl,
        (hc1.setSlot_some hfd).congr rfl fun g => ?_, State.Closed.setSlot hs.closed hl fd _⟩
      · simp
      · grind
      · simpa using htf
      · by_cases hg : g = f
        · simp [hg]
        · simp [hg]

theorem sysExec_spec (hs : s.Exact) (found : Option Found) (loads : Bool) :
    wp (sysExec found loads) (fun _ t => t.Exact) E s := by
  cases found with
  | none => exact hs
  | some x =>
    have hb : (s.addRef x.ip 1).Backed (oneInode x.ip) fun _ => False := hs.backed.addRef x.ip 1
    have hbad : wp (openBad x.ip) (fun _ t => t.Exact) E (s.addRef x.ip 1) :=
      openBad_spec hb (hs.counted.congr rfl fun _ => rfl) hs.closed
    exact hbad

@[grind cases]
structure Forking (s : State N) (p np : Fin N) (fds : List (Fin nofile)) (t : State N) : Prop where
  backed : t.Backed (fun _ => 0) (fun _ => False)
  counted : t.Counted noRefs
  live : t.live = s.live
  other : ∀ q, q ≠ np → t.ofile q = s.ofile q
  nodup : fds.Nodup
  empty : ∀ fd ∈ fds, t.ofile np fd = none

theorem forkSlot_spec {fd : Fin nofile} {fds : List (Fin nofile)}
    (h : Forking s p np (fd :: fds) t) :
    wp (forkSlot p np fd) (fun _ u => Forking s p np fds u) E t := by
  unfold forkSlot
  rw [wp_bind, wp_get]
  obtain ⟨hnot, hnd⟩ := nodup_cons.mp h.nodup
  split
  · exact ⟨h.backed, h.counted, h.live, h.other, hnd, fun fd' hfd' => h.empty fd' (.tail _ hfd')⟩
  next f hf =>
    have hpos := h.counted.pos hf
    rw [wp_bind]
    refine filedup_spec hpos ?_
    refine ⟨(h.backed.dup hpos).setSlot _,
      (h.counted.setFile rfl).setSlot_some (h.empty fd (.head _)), h.live,
      fun q hq => ?_, hnd, fun fd' hfd' => ?_⟩
    · simpa [hq] using h.other q hq
    · have hne : fd' ≠ fd := by
        rintro rfl
        exact hnot hfd'
      simpa [hne] using h.empty fd' (.tail _ hfd')

theorem fork_spec (hs : s.Exact) {np : Option (Fin N)} (hnp : ∀ q, np = some q → s.live q = false)
    (copied : Bool) : wp (fork p np copied) (fun _ t => t.Exact) E s := by
  cases np with
  | none => exact hs
  | some np =>
    have hdead := hnp np rfl
    unfold fork
    simp only [wp_bind, wp_modify]
    cases copied with
    | false =>
      simp only [Bool.false_eq_true, if_false, wp_bind, wp_modify, wp_pure]
      refine ⟨⟨hs.backed.fresh, hs.backed.typed, hs.backed.backing⟩,
        hs.counted.congr rfl fun _ => rfl, fun q hq => ?_⟩
      obtain rfl | hqn := eq_or_ne q np
      · exact hs.closed q hdead
      · exact hs.closed q (by simpa [hqn] using hq)
    | true =>
      simp only [if_true, wp_bind, wp_pure]
      have hstart : Forking (s.setLive np true) p np (List.finRange nofile) (s.setLive np true) :=
        ⟨⟨hs.backed.fresh, hs.backed.typed, hs.backed.backing⟩,
          hs.counted.congr rfl fun _ => rfl, rfl, fun _ _ => rfl, nodup_finRange _,
          fun fd _ => hs.closed np hdead fd⟩
      refine wp_post (wp_forM (Forking (s.setLive np true) p np)
        (fun fd fds t ht => forkSlot_spec ht) _ _ hstart) (fun _ t ht => ?_)
      refine ⟨ht.backed, ht.counted, fun q hq fd => ?_⟩
      have hqn : q ≠ np := by
        rintro rfl
        rw [ht.live] at hq
        simp at hq
      rw [ht.other q hqn]
      refine hs.closed q ?_ fd
      rw [ht.live] at hq
      simpa [hqn] using hq

@[grind cases]
structure Exiting (s : State N) (p : Fin N) (fds : List (Fin nofile)) (t : State N) : Prop where
  backed : t.Backed (fun _ => 0) (fun _ => False)
  counted : t.Counted noRefs
  live : t.live = s.live
  other : ∀ q, q ≠ p → t.ofile q = s.ofile q
  empty : ∀ fd, fd ∈ fds ∨ t.ofile p fd = none

theorem exitSlot_spec {fd : Fin nofile} {fds : List (Fin nofile)}
    (h : Exiting s p (fd :: fds) t) : wp (exitSlot p fd) (fun _ u => Exiting s p fds u) E t := by
  unfold exitSlot
  rw [wp_bind, wp_get]
  split
  next hnone =>
    refine ⟨h.backed, h.counted, h.live, h.other, fun fd' => ?_⟩
    grind
  next f hf =>
    refine wp_seq (fileclose_spec h.backed (h.counted.pos hf)) (fun _ u hu => ?_)
    obtain ⟨hb, hd⟩ := hu
    -- the slot is cleared after the file is closed
    refine ⟨hb.setSlot none, (hd.setSlot none).counted (h.counted.setSlot_none hf),
      hd.live.trans h.live, fun q hq => ?_, fun fd' => ?_⟩
    · simpa [hq, hd.ofile] using h.other q hq
    · by_cases hfd' : fd' = fd
      · simp [hfd']
      · rcases h.empty fd' with hm | hm
        · exact .inl (mem_of_ne_of_mem hfd' hm)
        · exact .inr (by simpa [hfd', hd.ofile] using hm)

theorem exit_spec (hs : s.Exact) : wp (exit p) (fun _ t => t.Exact) E s := by
  unfold exit
  simp only [wp_bind, wp_modify, wp_pure]
  have hstart : Exiting s p (List.finRange nofile) s :=
    ⟨hs.backed, hs.counted, rfl, fun _ _ => rfl, fun fd => .inl (mem_finRange fd)⟩
  refine wp_post (wp_forM (Exiting s p) (fun fd fds t ht => exitSlot_spec ht) _ _ hstart)
    (fun _ t ht => ?_)
  refine ⟨⟨ht.backed.fresh, ht.backed.typed, ht.backed.backing⟩,
    ht.counted.congr rfl fun _ => rfl, fun q hq fd => ?_⟩
  obtain rfl | hqp := eq_or_ne q p
  · exact (ht.empty fd).resolve_left not_mem_nil
  change t.ofile q fd = none
  rw [ht.other q hqp]
  refine hs.closed q ?_ fd
  rw [← ht.live]
  simpa [hqp] using hq

theorem Call.run_spec (hs : s.Exact) (c : Call N) (he : c.enabled s = true) :
    wp c.run (fun _ t => t.Exact) (fun _ => False) s := by
  rw [Call.enabled, Bool.and_eq_true] at he
  obtain ⟨hl, he⟩ := he
  cases c with
  | «open» p omode found => exact sysOpen_spec hs hl omode found
  | dup p fd => exact sysDup_spec hs hl fd
  | pipe p mem copied =>
    refine sysPipe_spec hs hl (fun pi hpi => ?_) copied
    subst hpi
    simpa [Call.fits] using he
  | close p fd => exact sysClose_spec hs hl fd
  | fork p np copied =>
    refine fork_spec hs (fun q hq => ?_) copied
    subst hq
    simpa [Call.fits] using he
  | exit p => exact exit_spec hs
  | exec p found loads => exact sysExec_spec hs found loads

theorem exact_next (hs : s.Exact) {c : Call N} (h : s.next c = some t) : t.Exact := by
  unfold State.next at h
  split at h
  next he =>
    obtain ⟨r, u, hu, hx⟩ := wp_total (c.run_spec hs he)
    rw [hu] at h
    cases h
    exact hx
  · cases h

theorem exact_run {init : Fin N} {calls : List (Call N)}
    (hr : Transition.run State.next (State.boot N init) calls = some s) : s.Exact :=
  run_invariant (fun _ _ _ hs ht => exact_next hs ht) (exact_boot init) hr

/-- A file between calls holds nothing exactly when nobody refers to it. -/
theorem State.Exact.resource_eq_none (hs : s.Exact) (f : Fin nfile) :
    (s.file f).resource = none ↔ (s.file f).ref = 0 := by grind

/-- After every run of calls: the count of a file is the number of descriptors that point to it;
what the file acquires it releases once, when its count gets to zero; an open end of a pipe belongs
to one file, and a pipe has an open end; the references to an inode are those of the files on it;
and no call panics. -/
theorem file_refs_exact (init : Fin N) (calls : List (Call N))
    (hr : Transition.run State.next (State.boot N init) calls = some s) :
    (∀ f, (s.file f).ref = s.slots f) ∧
    (∀ f, Balanced (s.log f) (s.file f).resource ∧
      ((s.file f).resource = none ↔ (s.file f).ref = 0)) ∧
    (∀ pi w, openEnd s.pipe pi w = true ↔ ∃! f, (s.file f).resource = some (.pipeEnd pi w)) ∧
    (∀ pi e, s.pipe pi = some e → e.readopen = true ∨ e.writeopen = true) ∧
    (∀ ip, s.iref ip = holders (fun f => (s.file f).resource) (.inode ip)) ∧
    ∀ (c : Call N) e, c.enabled s = true → c.run s ≠ .error e := by
  have hs := exact_run hr
  have hb := hs.backed.backing
  refine ⟨hs.counted, fun f => ⟨hb.log f, hs.resource_eq_none f⟩, fun pi w => ?_, hb.alloc,
    fun ip => ?_, fun c e hc he => ?_⟩
  · rw [hb.ends]
    constructor
    · rintro ⟨f, hf⟩
      exact ⟨f, hf, fun g hg => hb.one g f pi w hg hf⟩
    · rintro ⟨f, hf, _⟩
      exact ⟨f, hf⟩
  · rw [hb.iref ip, add_zero]
  · exact wp_error (c.run_spec hs hc) he

/-- Process 0 opens a file, duplicates the descriptor, makes a pipe, forks and closes its first
descriptor; the child exits, and a second `pipe` of process 0 fails at `copyout`. -/
def openAndFork : List (Call 2) :=
  [.open 0 2 (some ⟨5, .file, 0⟩), .dup 0 0, .pipe 0 (some 7) true, .fork 0 (some 1) true,
    .close 0 0, .exit 1, .pipe 0 (some 8) false]

theorem file_refs_exact_fork_exit : ∃ s ∈ Transition.run State.next (State.boot 2 0) openAndFork,
      (s.file 0).ref = 1 ∧ s.slots 0 = 1 ∧ s.iref 5 = 1 ∧
        ∃! f, (s.file f).resource = some (.pipeEnd 7 true) := by
  have h : ∃ s ∈ Transition.run State.next (State.boot 2 0) openAndFork,
      (s.file 0).ref = 1 ∧ s.iref 5 = 1 ∧ openEnd s.pipe 7 true = true := by decide +kernel
  obtain ⟨s, hr, h1, h2, h3⟩ := h
  obtain ⟨href, _, hends, _⟩ := file_refs_exact 0 openAndFork hr
  grind

end Xv6.Ftable
