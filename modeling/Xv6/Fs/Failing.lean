import Xv6.Fs.Calls

/-! Calls on names that fail leave the name space and the descriptors as they were. -/
namespace Xv6.Fs
open Hoare Transition
variable {P : Type} [DecidableEq P] [Fintype P] {s t : State P} {c : Call P} {v : Volume}

/-- A clean image with a root directory in which every inode has a link. -/
structure Volume.Bootable (v : Volume) : Prop extends v.Clean where
  root : v.Allocated rootino
  linked : ∀ i, v.Allocated i → (v.dinode i).nlink ≠ 0
  short : v.Short

structure Steady (s : State P) : Prop extends Sys s where
  anchored : s.Anchored
  alive : s.Alive
  short : s.disk.Short

theorem Steady.next (h : Steady s) (hn : s.next c = some t) : Steady t := by
  obtain ⟨hsys, hk⟩ := h.toSys.next hn
  exact ⟨hsys, hk.anchored h.anchored, hk.alive h.alive, hk.short h.short⟩

theorem steady_boot (hv : v.Bootable) (p : P) : Steady (State.boot v p) where
  toSys := sys_boot hv.sound hv.noHole p
  anchored i hi hn := absurd hn (hv.linked i hi)
  alive i hi := by
    by_cases hroot : i = rootino
    · rw [hroot]
      exact hv.root
    · simp [State.boot, hroot] at hi
  short := hv.short

theorem steady_run (hv : v.Bootable) {p : P} {cs : List (Call P)}
    (hr : run State.next (State.boot v p) cs = some s) : Steady s :=
  run_invariant (fun _ _ _ h hnext => h.next hnext) (steady_boot hv p) hr

/-- The calls that take path names and can add or remove entries, and `open`. -/
def Call.OnNames : Call P → Prop
  | .link .. | .unlink .. | .open .. | .mkdir .. | .mknod .. => True
  | _ => False

/-- An `open` that makes a new file has a descriptor and an entry of the file table to use. -/
def Call.HasRoom (c : Call P) (pr : Proc) (s : State P) : Prop :=
  match c with
  | .open _ path omode => hasFlag omode oCreate = true → CreatesNew pr.cwd path s → Room pr s
  | _ => True

/-- A call on names that returns -1 has changed no descriptor, and no inode exactly if it had room
for what it made. -/
theorem failed_call_keeps_names (hv : v.Bootable) {p : P} {cs : List (Call P)}
    (hr : run State.next (State.boot v p) cs = some s) (hc : c.OnNames) {pr : Proc}
    (hp : s.proc c.caller = some pr) (hfail : c.exec pr s = .ok (none, t)) :
    t.proc = s.proc ∧ (t.disk.info = s.disk.info ↔ c.HasRoom pr s) := by
  have hs := steady_run hv hr
  have hcwd := hs.ledger.cwd_pos hp
  have hE : Lenient fun _ : Panic => True := fun _ _ _ _ => trivial
  cases c with
  | link q old new =>
    have h := wp_ok (sysLink_spec hE hs.consistent hs.idle hcwd (.inl trivial)) hfail
    exact ⟨h.1.proc, iff_of_true (h.2.1 rfl hs.anchored hs.short) trivial⟩
  | unlink q path =>
    have h := wp_ok (sysUnlink_spec hE hs.consistent hs.idle hcwd (.inl trivial) (.inl trivial))
      hfail
    exact ⟨h.1.proc, iff_of_true (congrArg Volume.info (h.2.1 rfl hs.anchored)) trivial⟩
  | «open» q path omode =>
    have h := wp_ok (sysOpen_spec hE hs.consistent hs.ledger hs.idle hp (.inl trivial)) hfail
    exact ⟨(h.fail rfl).1, (h.fail rfl).2 hs.anchored hs.alive⟩
  | mkdir q path | mknod q path major minor =>
    have h := wp_ok (sysCreate_spec hE hs.consistent hs.idle hcwd (.inl trivial) (by decide)
      (by decide)) hfail
    exact ⟨h.1.proc, iff_of_true (h.2 hs.anchored hs.alive) trivial⟩
  | dup | read | write | close | chdir | fork | exit => exact hc.elim

theorem bootable_rootImage : rootImage.Bootable where
  toClean := clean_rootImage
  root := by decide
  linked i ha := by
    obtain rfl | hi := eq_or_ne i rootino
    · decide
    · exact absurd (by rw [rootImage, dinode_image_none hi rfl]; rfl) ha.2
  short i := by
    obtain rfl | hi := eq_or_ne i rootino
    · decide
    · rw [rootImage, dinode_image_none hi rfl]
      decide

/-- A process with all descriptors in use opens the root directory with `O_CREATE`: the call fails,
and nothing was made. -/
theorem failed_call_keeps_names_open_root : ∃ s t pr, run State.next (State.boot rootImage ())
    (List.replicate nofile (.open () (some [47]) 0)) = some s ∧ s.proc () = some pr ∧
      Call.exec (.open () (some [47]) oCreate) pr s = .ok (none, t) ∧ ¬ Room pr s ∧
      t.proc = s.proc ∧ t.disk.info = s.disk.info := by
  have hrun : ∃ s ∈ run State.next (State.boot rootImage ())
      (List.replicate nofile (.open () (some [47]) 0)), ∃ pr ∈ s.proc (),
      ∃ x ∈ (Call.exec (.open () (some [47]) oCreate) pr s).toOption, x.1 = none ∧
        (∀ fd, pr.ofile fd ≠ none) ∧
        ∃ y ∈ (create pr.cwd [47] .file 0 0 s.beginOp).toOption, y.1 = none := by
    decide +kernel
  obtain ⟨s, hs, pr, hp, ⟨r, t⟩, ht, rfl, hfull, ⟨r, u⟩, hu, rfl⟩ := hrun
  have hok := toOption_eq_some.mp ht
  have h := failed_call_keeps_names (c := .open () (some [47]) oCreate) bootable_rootImage hs
    trivial hp hok
  refine ⟨s, t, pr, hs, hp, hok, fun hroom => ?_, h.1, h.2.mpr ?_⟩
  · obtain ⟨fd, hfd⟩ := hroom.1
    exact hfull fd hfd
  · rintro - ⟨path, ip, u', hpath, hcreate, -⟩
    cases hpath
    have := (toOption_eq_some.mp hu).symm.trans hcreate
    cases this

/-- A process with all descriptors in use opens a new file with `O_CREATE`: the call fails and the
file stays. -/
theorem open_without_descriptor_creates : ∃ s t pr, run State.next (State.boot rootImage ())
    (List.replicate nofile (.open () (some [47]) 0)) = some s ∧ s.proc () = some pr ∧
      Call.exec (.open () (some [120]) oCreate) pr s = .ok (none, t) ∧
      s.disk.info 2 = none ∧ t.disk.info 2 = some ⟨.file, 0, 0, 1, []⟩ ∧
      t.disk.info rootino ≠ s.disk.info rootino := by
  have hrun : ∃ s ∈ run State.next (State.boot rootImage ())
      (List.replicate nofile (.open () (some [47]) 0)), ∃ pr ∈ s.proc (),
      ∃ x ∈ (Call.exec (.open () (some [120]) oCreate) pr s).toOption, x.1 = none ∧
        s.disk.info 2 = none ∧ x.2.disk.info 2 = some ⟨.file, 0, 0, 1, []⟩ ∧
        x.2.disk.info rootino ≠ s.disk.info rootino := by
    decide +kernel
  obtain ⟨s, hs, pr, hp, ⟨r, t⟩, ht, rfl, hrest⟩ := hrun
  exact ⟨s, t, pr, hs, hp, toOption_eq_some.mp ht, hrest⟩

end Xv6.Fs
