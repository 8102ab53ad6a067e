import Xv6.Fs.Files

/-! `sys_open`, `sys_mkdir` and `sys_mknod`. -/
namespace Xv6.Fs
open Function Hoare Counting
variable {P : Type} {E : Panic → Prop} {s t u : State P} {i dp ip cwd : ℕ} {f : Fin nfile}
  {path name : List UInt8} {ty : FileType} {major minor : ℤ} {V V' : ℕ → Option Info}

theorem Furnished.attrs {x y : Info} (h : Furnished ty dp ip x y) :
    y.type = x.type ∧ y.nlink = x.nlink := by
  unfold Furnished at h
  split at h
  · obtain ⟨_, _, _, _, rfl⟩ := h
    exact ⟨rfl, rfl⟩
  · subst h
    exact ⟨rfl, rfl⟩

theorem Settles.of_ne {j : ℕ} (h : Settles i V V') (hj : j ≠ i) : V' j = V j := by
  obtain rfl | ⟨rfl, _⟩ := h
  · rfl
  · exact update_of_ne hj _ _

theorem Made.new {n : ℕ} (h : Made n ty major minor dp ip name V V') :
    ∃ y, V' ip = some y ∧ y.type = ty ∧ y.nlink = 1 := by
  obtain ⟨x, y, off, hx, _, _, hfurn, _, hset⟩ := h.info
  have hne : ip ≠ dp := by
    rintro rfl
    rw [h.free] at hx
    cases hx
  refine ⟨y, ?_, hfurn.attrs⟩
  rw [hset.of_ne hne, update_of_ne hne, update_self]

/-- The new inode is not freed when the call gives up its reference. -/
theorem Made.put {n : ℕ} (h : Made n ty major minor dp ip name V t.disk.info) (hp : Put ip t u) :
    u.disk = t.disk := by
  obtain ⟨y, hy, _, hone⟩ := h.new
  refine hp.keep fun hc => ?_
  rw [Volume.nlink_of_info hy, hone] at hc
  exact absurd hc.2.2 one_ne_zero

def CreateResult (ty : FileType) (major minor : ℤ) (str : Option (List UInt8)) (s : State P)
    (r : Option ℕ) (t : State P) : Prop :=
  Holding 0 s t ∧ (s.Anchored → s.Alive → match r with
    | none => t.disk.info = s.disk.info
    | some _ => ∃ path dp ip name, argstr str = some path ∧ IsElem path name ∧
        Made s.disk.sb.ninodes ty major minor dp ip name s.disk.info t.disk.info)

theorem sysCreate_spec {pr : Proc} {str : Option (List UInt8)} (hE : Lenient E)
    (h : s.Consistent) (hop : s.inOp = false) (hc : 0 < (s.inode pr.cwd).ref)
    (hty : E .noType ∨ Safe pr.cwd s) (hfree : ty ≠ .free) (hfile : ty ≠ .file) :
    wp (sysCreate pr str ty major minor) (CreateResult ty major minor str s) E s := by
  unfold sysCreate
  rw [wp_bind, beginOp, wp_modify]
  split
  · exact ⟨(Holding.refl h.beginOp).endOp hop, fun _ _ => rfl⟩
  next path hpath =>
    refine wp_seq (create_spec hE h.beginOp hc hty hfree) (fun r t hr => ?_)
    cases r with
    | none =>
      obtain ⟨ht, hsame⟩ := hr
      exact ⟨ht.endOp hop, hsame⟩
    | some ip =>
      obtain ⟨ht, _, hmade⟩ := hr
      have ht' : Holding (0 + one ip) s.beginOp t := ht.congr (zero_add _)
      refine wp_seq (iunlockput_held (hE.logs t) ht') (fun _ u hu => ?_)
      refine ⟨hu.2.endOp hop, fun ha hl => ?_⟩
      rcases hmade ha hl with hold | ⟨dp, name, helem, hm⟩
      · exact absurd hold.1 hfile
      refine ⟨path, dp, ip, name, hpath, helem, ?_⟩
      have hdisk := hm.put hu.1
      change Made _ _ _ _ _ _ _ _ u.disk.info
      rw [hdisk]
      exact hm

def OpenedInode (path : List UInt8) (omode : ℕ) (s : State P) (r : Option ℕ) (t : State P) : Prop :=
  match r with
  | none => Holding 0 s t ∧ (s.Anchored → s.Alive → t.disk.info = s.disk.info)
  | some ip => Holding (one ip) s t ∧ t.Locked ip ∧
      (hasFlag omode oCreate = false → (t.disk.dinode ip).type = .dir → omode = 0) ∧
      (hasFlag omode oCreate = false → s.Anchored → t.disk = s.disk) ∧
      (hasFlag omode oCreate = true → s.Anchored → s.Alive →
        (t.disk = s.disk ∧ (s.disk.dinode ip).type ≠ .dir) ∨
        ∃ dp name, IsElem path name ∧
          Made s.disk.sb.ninodes .file 0 0 dp ip name s.disk.info t.disk.info)

theorem openInode_spec {omode : ℕ} (hE : Lenient E) (h : s.Consistent)
    (hc : 0 < (s.inode cwd).ref) (hty : E .noType ∨ Safe cwd s) :
    wp (openInode cwd path omode) (OpenedInode path omode s) E s := by
  unfold openInode
  split
  next hcreate =>
    refine wp_post (create_spec hE h hc hty (by decide)) (fun r t hr => ?_)
    cases r with
    | none =>
      exact hr
    | some ip =>
      obtain ⟨ht, hi, hmade⟩ := hr
      have hno : hasFlag omode oCreate ≠ false := by simp [hcreate]
      exact ⟨ht, hi, fun hc => absurd hc hno, fun hc => absurd hc hno, fun _ ha hl =>
        (hmade ha hl).imp (fun hold => hold.2) id⟩
  next hcreate =>
    refine wp_seq (namei_spec hE h hc hty) (fun r t hr => ?_)
    cases r with
    | none =>
      obtain ⟨ht, hd⟩ := hr
      exact ⟨ht, fun ha _ => by rw [hd ha]⟩
    | some ip =>
      obtain ⟨ht, hd, htype⟩ := hr
      refine wp_seq (walked_lock hE ht hd htype) ?_
      rintro _ u ⟨hu, hhu, hdu⟩
      simp only [wp_bind, wp_get]
      split
      · rw [wp_bind]
        refine wp_post (walked_put hE hhu hdu) (fun _ v hv => ?_)
        exact ⟨hv.1, fun ha _ => by rw [hv.2 ha]⟩
      next hdir =>
        rw [(hhu.consistent.cached ip hu.locked).1] at hdir
        refine ⟨hhu, hu.locked, fun _ hd => ?_, fun _ => hdu, fun hc => absurd hc hcreate⟩
        by_contra hm
        exact hdir ⟨hd, hm⟩

theorem filealloc_spec {Q : Option (Fin nfile) → State P → Prop}
    (hnone : (∀ f, (s.file f).ref ≠ 0) → Q none s)
    (hsome : ∀ f, (s.file f).ref = 0 → Q (some f) (s.setFile f { s.file f with ref := 1 })) :
    wp filealloc Q E s := by
  unfold filealloc
  simp only [wp_bind, wp_get]
  split
  next hfull =>
    refine hnone fun f => ?_
    have := List.find?_eq_none.mp hfull f (List.mem_finRange f)
    simpa using this
  next f hf => exact hsome f (by simpa using List.find?_some hf)

def Room (pr : Proc) (s : State P) : Prop :=
  (∃ fd, pr.ofile fd = none) ∧ ∃ f, (s.file f).ref = 0

/-- `create` makes a new inode in an `open` of `str`. -/
def CreatesNew (cwd : ℕ) (str : Option (List UInt8)) (s : State P) : Prop :=
  ∃ path ip t, argstr str = some path ∧ create cwd path .file 0 0 s.beginOp = .ok (some ip, t) ∧
    s.disk.info ip = none

def OpenEffect (n omode : ℕ) (path : List UInt8) (V V' : ℕ → Option Info) : Prop :=
  ∃ V₁, (V₁ = V ∨ hasFlag omode oCreate = true ∧ ∃ dp ip name, IsElem path name ∧
      Made n .file 0 0 dp ip name V V₁) ∧
    (V' = V₁ ∨ ∃ ip x, V₁ ip = some x ∧ x.type = .file ∧ Rewrites ip V₁ V')

def Found (path : List UInt8) (omode ip : ℕ) (s t : State P) : Prop :=
  s.Anchored → s.Alive → t.disk = s.disk ∨ hasFlag omode oCreate = true ∧ ∃ dp name,
    IsElem path name ∧ Made s.disk.sb.ninodes .file 0 0 dp ip name s.disk.info t.disk.info

theorem Found.effect {omode : ℕ} (h : Found path omode ip s t) (ha : s.Anchored) (hl : s.Alive) :
    OpenEffect s.disk.sb.ninodes omode path s.disk.info t.disk.info := by
  refine ⟨t.disk.info, ?_, .inl rfl⟩
  rcases h ha hl with hd | ⟨hc, dp, name, hm⟩
  · exact .inl (by rw [hd])
  · exact .inr ⟨hc, dp, ip, name, hm⟩

/-- The inodes are the same unless `create` has made one. -/
theorem Found.same_iff {omode : ℕ} {str : Option (List UInt8)} (h : Found path omode ip s t)
    (ha : s.Anchored) (hl : s.Alive) (ht : t.Consistent) (hi : t.Locked ip)
    (hpath : argstr str = some path)
    (hrun : openInode cwd path omode s.beginOp = .ok (some ip, t)) :
    t.disk.info = s.disk.info ↔ (hasFlag omode oCreate = true → ¬ CreatesNew cwd str s) := by
  have hsome := Volume.info_of_allocated (ht.cached ip hi).2
  constructor
  · rintro hsame hflag ⟨path', ip', t', hpath', hcreate, hnew⟩
    rw [openInode, if_pos hflag] at hrun
    obtain rfl : path = path' := Option.some.inj (hpath.symm.trans hpath')
    rw [hrun] at hcreate
    cases hcreate
    rw [← hsame, hsome] at hnew
    cases hnew
  · intro hno
    rcases h ha hl with hd | ⟨hflag, dp, name, -, hm⟩
    · rw [hd]
    · rw [openInode, if_pos hflag] at hrun
      exact absurd ⟨path, ip, t, hpath, hrun, hm.free⟩ (hno hflag)

/-- A file that was just allocated is closed without any effect. -/
theorem fileclose_fresh (hf : (s.file f).ref = 0) (hk : (s.file f).kind = .none) :
    wp (fileclose f) (fun _ t => t = s) E (s.setFile f { s.file f with ref := 1 }) := by
  have hback : { s.file f with ref := 0, kind := .none } = s.file f := by rw [← hf, ← hk]
  unfold fileclose
  simp only [wp_bind, wp_get, State.setFile_file, update_self, hk, lt_self_iff_false,
    if_false, Nat.sub_self, wp_set, if_true]
  simp only [State.setFile, update_idem, hback]
  simp

structure FileOpened [DecidableEq P] (p : P) (pr : Proc) (f : Fin nfile) (ip : ℕ)
    (s t u : State P) : Prop where
  disk : u.disk = t.disk
  inode : u.inode = t.inode
  inOp : u.inOp = t.inOp
  proc : ∃ ofile, u.proc = update s.proc p (some { pr with ofile := ofile })
  others : ∀ f', f' ≠ f → u.file f' = s.file f'
  ref : (u.file f).ref = 1
  kind : (u.file f).kind ≠ .none
  ip : (u.file f).ip = ip

theorem FileOpened.kept [DecidableEq P] {p : P} {pr : Proc} (h : FileOpened p pr f ip s t u)
    (ht : Holding (one ip) s.beginOp t) (hi : t.Locked ip) : Kept s.beginOp u :=
  (ht.kept_one hi).trans (.of_eq ht.consistent h.disk h.inode h.inOp)

variable [Fintype P]

structure OpenResult (pr : Proc) (str : Option (List UInt8)) (omode : ℕ) (s : State P)
    (r : Option ℕ) (t : State P) : Prop where
  kept : Kept s t
  ledger : Ledger t
  files : s.Anchored → s.Alive → ∀ f, SameFile s t f ∨ ((t.file f).writable = true →
    ∃ x, t.disk.info (t.file f).ip = some x ∧ x.type ≠ .dir)
  effect : s.Anchored → s.Alive → t.disk.info = s.disk.info ∨ ∃ path, argstr str = some path ∧
    OpenEffect s.disk.sb.ninodes omode path s.disk.info t.disk.info
  fail : r = none → t.proc = s.proc ∧ (s.Anchored → s.Alive → (t.disk.info = s.disk.info ↔
    (hasFlag omode oCreate = true → CreatesNew pr.cwd str s → Room pr s)))

variable {pr : Proc} {str : Option (List UInt8)} {omode : ℕ}

theorem openBad_spec (hE : Lenient E) (hop : s.inOp = false) (hl : Ledger s)
    (hpath : argstr str = some path) (h : Holding (one ip) s.beginOp t)
    (hfound : Found path omode ip s t)
    (hiff : s.Anchored → s.Alive → (t.disk.info = s.disk.info ↔
      (hasFlag omode oCreate = true → CreatesNew pr.cwd str s → Room pr s))) :
    wp (openBad ip) (OpenResult pr str omode s) E t := by
  have h' : Holding (0 + one ip) s.beginOp t := h.congr (zero_add _)
  unfold openBad
  refine wp_seq (iunlockput_held (hE.logs t) h') (fun _ u hu => ?_)
  have hend : Holding 0 s u.endOp := hu.2.endOp hop
  have hout := hend.outcome hl
  have hdisk (ha : s.Anchored) (hal : s.Alive) : u.disk = t.disk := by
    rcases hfound ha hal with hd | ⟨_, dp, name, _, hm⟩
    · rw [h'.put_disk ha hd hu.1, hd]
      rfl
    · exact hm.put hu.1
  refine ⟨hout.kept, hout.ledger, fun _ _ f => .inl (hout.files f), fun ha hal => .inr
    ⟨path, hpath, ?_⟩, fun _ => ⟨hend.proc, fun ha hal => ?_⟩⟩
  · have heff := hfound.effect ha hal
    rw [← hdisk ha hal] at heff
    exact heff
  · change u.disk.info = _ ↔ _
    rw [hdisk ha hal]
    exact hiff ha hal

variable [DecidableEq P] {p : P}

namespace FileOpened

theorem ledger (h : FileOpened p pr f ip s t u) (ht : Holding (one ip) s.beginOp t)
    (hl : Ledger s) (hp : s.proc p = some pr) (hf : (s.file f).ref = 0) : Ledger u where
  refs j := by
    obtain ⟨ofile, hproc⟩ := h.proc
    have hfile : u.file = update s.file f (u.file f) := by
      funext f'
      by_cases hff : f' = f
      · rw [hff, update_self]
      · rw [update_of_ne hff, h.others f' hff]
    have htp := total_update (Proc.holds j) s.proc p (some { pr with ofile := ofile })
    have htf := total_update (File.holds j) s.file f (u.file f)
    have hold : File.holds j (s.file f) = 0 := if_neg fun hc => by omega
    have hnew : File.holds j (u.file f) = one ip j := by
      rw [File.holds, if_pos ⟨by rw [h.ref]; exact one_pos, h.kind⟩, h.ip]
    have hj : (t.inode j).ref = (s.inode j).ref + one ip j := ht.ref j
    have hr := hl.refs j
    rw [hp] at htp
    simp only [Proc.holds] at htp
    rw [hproc, hfile, h.inode]
    omega
  idle f' hr := by
    by_cases hff : f' = f
    · rw [hff, h.ref] at hr
      exact absurd hr one_ne_zero
    · rw [h.others f' hff] at hr ⊢
      exact hl.idle f' hr

end FileOpened

theorem open_done {n : ℕ} {c : Prop} [Decidable c] (hE : Lenient E) (hop : s.inOp = false)
    (hl : Ledger s) (hp : s.proc p = some pr) (hpath : argstr str = some path)
    (h : Holding (one ip) s.beginOp t) (hi : t.Locked ip) (hfound : Found path omode ip s t)
    (hf : (s.file f).ref = 0) (hu : FileOpened p pr f ip s t u)
    (hw : s.Anchored → s.Alive → (u.file f).writable = true → (t.disk.dinode ip).type ≠ .dir)
    (hc : c → (t.disk.dinode ip).type = .file) :
    wp (do
      if c then itrunc ip else pure ()
      iunlock ip
      endOp
      return some n) (OpenResult pr str omode s) E u := by
  have hku := hu.kept h hi
  have hlu := hu.ledger h hl hp hf
  have hiu : u.Locked ip := by
    rw [State.Locked, hu.inode]
    exact hi
  have hux := Volume.info_of_allocated (hku.consistent.cached ip hiu).2
  have htype : (u.disk.dinode ip).type = (t.disk.dinode ip).type := by rw [hu.disk]
  have hrest : ∀ v, Holding 0 u v → (v.disk.info = u.disk.info ∨
      (t.disk.dinode ip).type = .file ∧ Rewrites ip u.disk.info v.disk.info) →
      wp (do
        iunlock ip
        endOp
        return some n) (OpenResult pr str omode s) E v := by
    intro v hv hinfo
    refine wp_seq (iunlock_spec hE) ?_
    rintro _ v' ⟨rfl, _⟩
    have hkv : Kept s v'.endOp := (hku.trans hv.kept_zero).beginOp_endOp hop
    have hlv := hlu.of_holding hv
    refine ⟨hkv, ⟨hlv.refs, hlv.idle⟩, fun ha hal f' => ?_, fun ha hal => .inr ⟨path, hpath, ?_⟩,
      fun hc => by cases hc⟩
    · change SameFile s v' f' ∨ ((v'.file f').writable = true →
        ∃ x, v'.disk.info (v'.file f').ip = some x ∧ x.type ≠ .dir)
      rw [SameFile, hv.file]
      obtain rfl | hff := eq_or_ne f' f
      · refine .inr fun hwr => ?_
        have hnd : (u.disk.dinode ip).type ≠ .dir := by
          rw [htype]
          exact hw ha hal hwr
        rw [hu.ip]
        rcases hinfo with hinfo | ⟨_, bs, hinfo⟩
        · exact ⟨_, by rw [hinfo, hux], hnd⟩
        · exact ⟨_, by rw [hinfo, update_self, hux]; rfl, hnd⟩
      · rw [hu.others f' hff]
        exact .inl fun hk => ⟨hk, rfl, rfl⟩
    · refine ⟨u.disk.info, ?_, hinfo.imp id fun hr => ⟨ip, _, hux, htype.trans hr.1, hr.2⟩⟩
      rw [hu.disk]
      refine (hfound ha hal).imp (congrArg Volume.info) ?_
      rintro ⟨hc, dp, name, hm⟩
      exact ⟨hc, dp, ip, name, hm⟩
  dsimp only
  split
  next hcc =>
    refine wp_seq (itrunc_spec (hE.logs u) hku.consistent hiu) (fun _ v hv => ?_)
    refine hrest v (hv.holding hiu) (.inr ⟨hc hcc, [], ?_⟩)
    rw [hv.info hku.consistent hiu, hux]
    rfl
  next hcc => exact hrest u (.refl hku.consistent) (.inl rfl)

theorem sysOpen_spec (hE : Lenient E) (h : s.Consistent) (hl : Ledger s) (hop : s.inOp = false)
    (hp : s.proc p = some pr) (hty : E .noType ∨ Safe pr.cwd s) :
    wp (sysOpen p pr str omode) (OpenResult pr str omode s) E s := by
  have hc := hl.cwd_pos hp
  unfold sysOpen
  split
  next hpath =>
    have hout := Outcome.refl h hl
    refine ⟨hout.kept, hl, fun _ _ f => .inl (hout.files f), fun _ _ => .inl rfl,
      fun _ => ⟨rfl, fun _ _ => iff_of_true rfl ?_⟩⟩
    rintro - ⟨path, _, _, hsome, -⟩
    rw [hpath] at hsome
    cases hsome
  next path hpath =>
    rw [wp_bind, beginOp, wp_modify]
    refine wp_seq (wp_and (openInode_spec hE h.beginOp hc hty) (wp_of_ok fun _ _ hrun => hrun)) ?_
    rintro r t ⟨hr, hrun⟩
    cases r with
    | none =>
      obtain ⟨ht, hsame⟩ := hr
      have hend := ht.endOp hop
      have hout := hend.outcome hl
      refine ⟨hout.kept, hout.ledger, fun _ _ f => .inl (hout.files f), fun ha hal =>
        .inl (hsame ha hal), fun _ => ⟨hend.proc, fun ha hal => iff_of_true (hsame ha hal) ?_⟩⟩
      rintro hflag ⟨path', ip, _, hpath', hcreate, -⟩
      rw [openInode, if_pos hflag] at hrun
      obtain rfl : path = path' := Option.some.inj (hpath.symm.trans hpath')
      rw [hrun] at hcreate
      cases hcreate
    | some ip =>
      obtain ⟨ht, hi, hdir, hold, hnew⟩ := hr
      have hfound : Found path omode ip s t := by
        intro ha hal
        cases hflag : hasFlag omode oCreate with
        | false => exact .inl (hold hflag ha)
        | true => exact (hnew hflag ha hal).imp (fun hd => hd.1) fun hm => ⟨rfl, hm⟩
      have hdin := (ht.consistent.cached ip hi).1
      have hfile : t.file = s.file := ht.file
      have hsame ha hal := hfound.same_iff ha hal ht.consistent hi hpath hrun
      have hbad (hno : ¬ Room pr s) : wp (openBad ip) (OpenResult pr str omode s) E t := by
        refine openBad_spec hE hop hl hpath ht hfound fun ha hal => (hsame ha hal).trans ?_
        exact forall₂_congr fun _ _ => by simp [hno]
      rw [wp_bind, wp_get]
      dsimp only
      split
      next hdev =>
        refine openBad_spec hE hop hl hpath ht hfound fun ha hal => ?_
        have hd : t.disk.info = s.disk.info := ?_
        · exact iff_of_true hd fun hf hc => absurd hc ((hsame ha hal).mp hd hf)
        refine congrArg _ ((hfound ha hal).resolve_right fun hm => ?_)
        obtain ⟨_, dp, name, _, hm⟩ := hm
        obtain ⟨y, hy, hyt, _⟩ := hm.new
        have htype : (t.disk.dinode ip).type = .file :=
          (congrArg Info.type (Volume.info_eq_some.mp hy).2).trans hyt
        rw [hdin, htype] at hdev
        exact absurd hdev.1 (by decide)
      next hdev =>
        rw [wp_bind]
        refine filealloc_spec (fun hfull => ?_) fun f hf => ?_
        · refine hbad fun hroom => ?_
          obtain ⟨f, hf⟩ := hroom.2
          exact hfull f (by rw [hfile, hf])
        · rw [wp_bind]
          refine fdalloc_spec (fun hfull => ?_) fun fd => ?_
          · have hk : (t.file f).kind = .none := by
              rw [hfile] at hf ⊢
              exact hl.idle f hf
            refine wp_seq (fileclose_fresh hf hk) ?_
            rintro _ u rfl
            refine hbad fun hroom => ?_
            obtain ⟨fd, hfd⟩ := hroom.1
            have := hfull fd
            rw [hfd] at this
            cases this
          · rw [hfile] at hf
            rw [wp_bind, wp_modify]
            refine open_done hE hop hl hp hpath ht hi hfound hf ?_ ?_ fun hc => ?_
            · have hproc : t.proc = s.proc := ht.proc
              refine ⟨rfl, rfl, rfl, ⟨_, by rw [← hproc]; rfl⟩, fun f' hff => ?_, ?_, ?_, ?_⟩
              · simp [hff, hfile]
              · simp
              · simp only [State.setFile_file, update_self]
                split <;> decide
              · simp
            · intro ha hal hw
              simp only [State.setFile_file, update_self] at hw
              cases hflag : hasFlag omode oCreate with
              | false =>
                intro hd
                rw [hdir hflag hd] at hw
                exact absurd hw (by decide)
              | true =>
                rcases hnew hflag ha hal with ⟨hd, hnd⟩ | ⟨dp, name, _, hm⟩
                · rw [hd]
                  exact hnd
                obtain ⟨y, hy, hyt, _⟩ := hm.new
                rw [← congrArg Info.type (Volume.info_eq_some.mp hy).2] at hyt
                change (t.disk.dinode ip).type = .file at hyt
                rw [hyt]
                decide
            · rw [← hdin]
              exact hc.2

end Xv6.Fs
