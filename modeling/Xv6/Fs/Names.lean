import Xv6.Fs.Create

/-! `sys_link` and `sys_unlink`. -/
namespace Xv6.Fs
open Function Hoare
variable {P : Type} {E : Panic → Prop} {s t u w : State P} {dp ip cwd : ℕ} {g : ℕ → ℕ}
  {path name : List UInt8}

theorem State.Consistent.beginOp (h : s.Consistent) : s.beginOp.Consistent :=
  ⟨h.sound, h.noHole, h.cached⟩

theorem Holding.endOp (h : Holding g s.beginOp t) (hop : s.inOp = false) : Holding g s t.endOp where
  consistent := ⟨h.consistent.sound, h.consistent.noHole, h.consistent.cached⟩
  ref := h.ref
  locked := h.locked
  alloc := h.alloc
  anchored := h.anchored
  short := h.short
  file := h.file
  proc := h.proc
  inOp := hop.symm
  sb := h.sb
  counted := h.counted

theorem put_endOp (hE : Lenient E) (hop : s.inOp = false) (h : Holding (one ip) s.beginOp t)
    (hd : s.Anchored → t.disk = s.disk) {Q : Option ℕ → State P → Prop}
    (hQ : ∀ u, Holding 0 s u → (s.Anchored → u.disk = s.disk) → Q none u) :
    wp (do
      iunlockput ip
      Fs.endOp
      return none) Q E t := by
  refine wp_seq (walked_put hE h hd) (fun _ u hu => ?_)
  exact hQ _ (hu.1.endOp hop) hu.2

/-- The new entry `name` of directory `dp` for inode `ip`. The inode can be gone at the end only if
its link count has wrapped. -/
def LinkMade (dp ip : ℕ) (name : List UInt8) (V V' : ℕ → Option Info) : Prop :=
  ∃ x y off, V ip = some x ∧ x.type ≠ .dir ∧ V dp = some y ∧ y.type = .dir ∧
    (∀ o, ¬ Names y.bytes name o) ∧ Vacant y.bytes off ∧
    Settles ip (update (update V ip
      (some { x with nlink := toShort (x.nlink + 1) })) dp
      (some (y.enter off ⟨ip, strncpy dirsiz name⟩))) V'

theorem toShort_add_sub {n : ℤ} (h : toShort n = n) : toShort (toShort (n + 1) - 1) = n := by
  unfold toShort at *
  rw [Int.bmod_sub_bmod, Int.add_sub_cancel, h]

theorem linkBad_spec (hE : Lenient E) (hop : s.inOp = false) (h : Holding (one ip) s.beginOp w)
    (hi : w.Locked ip) (hV : s.Anchored → ∃ x, s.disk.info ip = some x ∧ w.disk.info =
      update s.disk.info ip (some { x with nlink := toShort (x.nlink + 1) })) :
    wp (linkBad ip) (fun r u => r = none ∧ Holding 0 s u ∧
      (s.Anchored → s.disk.Short → u.disk.info = s.disk.info)) E w := by
  have hcon := h.consistent
  unfold linkBad
  refine wp_seq (ilock_spec hE hcon (.inr (hcon.cached ip hi).2.2)) (fun _ t ht => ?_)
  have hht : Holding (one ip) s.beginOp t := h.step (ht.holding hcon)
  have hct := hht.consistent
  rw [wp_bind, wp_modify, wp_bind]
  refine wp_setNlink (hE.logs t) hct ht.locked (toShort_toShort _) fun u hu hinfo => ?_
  have hhu : Holding (0 + one ip) s.beginOp u := (hht.step hu).congr (zero_add _)
  refine wp_seq (iunlockput_held (hE.logs u) hhu) (fun _ v hv => ?_)
  refine ⟨rfl, hv.2.endOp hop, fun ha hs => ?_⟩
  obtain ⟨x, hx, hw⟩ := hV ha
  have htx : t.disk.info ip = some { x with nlink := toShort (x.nlink + 1) } := by
    rw [ht.disk, hw, update_self]
  have hxs : toShort x.nlink = x.nlink := by
    rw [← Volume.nlink_of_info hx]
    exact hs ip
  -- the count is the old one again
  have hback : u.disk.info = s.disk.info := by
    rw [hinfo _ htx, (hct.cached ip ht.locked).1, Volume.nlink_of_info htx, ht.disk, hw,
      update_idem]
    simp only [toShort_add_sub hxs]
    rw [← hx, update_eq_self]
  change v.disk.info = _
  rw [hhu.put_info ha (by rw [hback]; rfl) hv.1, hback]

theorem Volume.allocated_iff_info {v : Volume} {i : ℕ} : v.Allocated i ↔ ∃ x, v.info i = some x :=
  ⟨fun h => ⟨_, info_of_allocated h⟩, fun ⟨_, h⟩ => allocated_of_info h⟩

theorem Safe.of_nlink {x : Info} {n : ℤ} (h : Safe cwd s) (ha : t.Anchored)
    (hx : s.disk.info ip = some x)
    (ht : t.disk.info = update s.disk.info ip (some { x with nlink := n })) :
    Safe cwd t := by
  have halloc i (hi : s.disk.Allocated i) : t.disk.Allocated i := by
    obtain ⟨y, hy⟩ := Volume.allocated_iff_info.mp hi
    rw [Volume.allocated_iff_info, ht]
    by_cases hip : i = ip
    · rw [hip, update_self]
      exact ⟨_, rfl⟩
    · rw [update_of_ne hip]
      exact ⟨y, hy⟩
  refine ⟨ha, ?_, halloc _ h.2.2.1, halloc _ h.2.2.2⟩
  intro dp y off hy hdir hent hused
  rw [ht] at hy
  obtain rfl | hdp := eq_or_ne dp ip
  · rw [update_self] at hy
    cases hy
    exact halloc _ (h.2.1 dp x off hx hdir hent hused)
  · rw [update_of_ne hdp] at hy
    exact halloc _ (h.2.1 dp y off hy hdir hent hused)

def LinkResult (new : Option (List UInt8)) (s : State P) (r : Option ℕ) (t : State P) : Prop :=
  Holding 0 s t ∧
    (r = none → s.Anchored → s.disk.Short → t.disk.info = s.disk.info) ∧
    (r ≠ none → s.Anchored → ∃ path dp ip name, argstr new = some path ∧ IsElem path name ∧
      LinkMade dp ip name s.disk.info t.disk.info)

theorem link_enter {x : Info} {new : Option (List UInt8)} (hE : Lenient E) (hop : s.inOp = false)
    (hnew : argstr new = some path)
    (h : Holding (one ip) s.beginOp w) (hi : w.Locked ip)
    (hV : s.Anchored → s.disk.info ip = some x ∧ x.type ≠ .dir ∧ w.disk.info =
      update s.disk.info ip (some { x with nlink := toShort (x.nlink + 1) }))
    (hpar : InParent path dp name w t) :
    wp (do
      ilock dp
      if ← dirlink dp name ip then
        iunlockput dp
        iput ip
        endOp
        return some 0
      else
        iunlockput dp
        linkBad ip) (LinkResult new s) E t := by
  refine wp_seq (hpar.ilock hE) (fun _ u hu => ?_)
  refine wp_seq (dirlink_spec hE hu.holding.consistent hu.locked ip) (fun r v hv => ?_)
  have hwv : Holding (0 + one dp) w v := (hu.holding.step hv.holding).congr (zero_add _)
  have hhv : Holding (one ip + one dp) s.beginOp v := h.trans (hwv.congr (zero_add _).symm)
  have hiv := hwv.locked ip hi
  have hwdp (ha : s.Anchored) : w.disk.info dp = some
      (.of (u.disk.dinode dp) (u.disk.contents dp)) := by
    rw [← hu.disk (h.anchored ha)]
    exact Volume.info_of_allocated hu.allocated
  -- giving up the directory frees nothing, as its link count has not changed
  have hput y (hy : Put dp v y) (ha : s.Anchored) : y.disk.info = v.disk.info := by
    refine hwv.put_info (h.anchored ha) ?_ hy
    cases r with
    | false => rw [hv.fail rfl, hu.disk (h.anchored ha)]
    | true =>
      obtain ⟨_, off, _, hent⟩ := hv.view (Volume.info_of_allocated hu.allocated)
      rw [hent, update_self, hwdp ha]
      rfl
  cases r with
  | false =>
    rw [if_neg (by decide)]
    refine wp_seq (iunlockput_held (hE.logs v) hhv) (fun _ y hy => ?_)
    have hiy := hy.1.locked_of hiv (hy.2.pos (by simp))
    refine wp_post (linkBad_spec hE hop hy.2 hiy fun ha => ?_) (fun r z hz => ?_)
    · obtain ⟨hx, _, hinfo⟩ := hV ha
      refine ⟨x, hx, ?_⟩
      rw [hput y hy.1 ha, hv.fail rfl, hu.disk (h.anchored ha), hinfo]
    · obtain ⟨rfl, hz, hsame⟩ := hz
      exact ⟨hz, fun _ => hsame, fun hc => absurd rfl hc⟩
  | true =>
    rw [if_pos rfl]
    refine wp_seq (iunlockput_held (hE.logs v) hhv) (fun _ y hy => ?_)
    have hhy : Holding (0 + one ip) s.beginOp y := hy.2.congr (zero_add _)
    refine wp_seq (iput_held (hE.logs y) hhy) (fun _ z hz => ?_)
    refine ⟨hz.2.endOp hop, (fun hc => by cases hc), fun _ ha => ⟨path, dp, ip, name, hnew,
      hpar.elem, ?_⟩⟩
    obtain ⟨hx, hfile, hinfo⟩ := hV ha
    obtain ⟨hno, off, hvac, hent⟩ := hv.view (Volume.info_of_allocated hu.allocated)
    have hne : dp ≠ ip := by
      rintro rfl
      have hdir := hwdp ha
      rw [hinfo, update_self] at hdir
      have htype : x.type = (u.disk.dinode dp).type := congrArg Info.type (Option.some_inj.mp hdir)
      rw [hu.dir] at htype
      exact hfile htype
    have hsdp := hwdp ha
    rw [hinfo, update_of_ne hne] at hsdp
    refine ⟨x, _, off, hx, hfile, hsdp, hu.dir, hno, hvac, ?_⟩
    have hui : u.disk.info = w.disk.info := congrArg Volume.info (hu.disk (h.anchored ha))
    have hset := hz.1.settles hy.2.consistent
    rw [hput y hy.1 ha, hent, hui, hinfo] at hset
    exact hset

theorem sysLink_spec {pr : Proc} {old new : Option (List UInt8)} (hE : Lenient E)
    (h : s.Consistent) (hop : s.inOp = false) (hc : 0 < (s.inode pr.cwd).ref)
    (hty : E .noType ∨ Safe pr.cwd s) : wp (sysLink pr old new) (LinkResult new s) E s := by
  have hsame : LinkResult new s none s :=
    ⟨.refl h, fun _ _ _ => rfl, fun hn => absurd rfl hn⟩
  have hnone : ∀ u, Holding 0 s u → (s.Anchored → u.disk = s.disk) → LinkResult new s none u :=
    fun u hu hd => ⟨hu, fun _ ha _ => by rw [hd ha], fun hn => absurd rfl hn⟩
  unfold sysLink
  split
  next old' new' _ hnew =>
    rw [wp_bind, beginOp, wp_modify]
    refine wp_seq (namei_spec hE h.beginOp hc hty) (fun r t hr => ?_)
    cases r with
    | none =>
      obtain ⟨ht, hd⟩ := hr
      exact hnone _ (ht.endOp hop) hd
    | some ip =>
      obtain ⟨ht, hd, htype⟩ := hr
      refine wp_seq (walked_lock hE ht hd htype) ?_
      rintro _ u ⟨hu, hhu, hdu⟩
      have hsdin := (hhu.consistent.cached ip hu.locked).1
      have hux := Volume.info_of_allocated (hhu.consistent.cached ip hu.locked).2
      simp only [wp_bind, wp_get]
      split
      · exact put_endOp hE hop hhu hdu hnone
      next hfile =>
        rw [hsdin] at hfile
        rw [wp_bind, wp_modify, wp_bind]
        refine wp_setNlink (hE.logs u) hhu.consistent hu.locked (toShort_toShort _)
          fun w hw hinfo => ?_
        have hhw : Holding (one ip) s.beginOp w := hhu.step hw
        have hiw := hw.locked ip hu.locked
        have hinfo := hinfo _ hux
        rw [hsdin, Volume.nlink_of_info hux] at hinfo
        have hV : s.Anchored → s.disk.info ip = some (.of (u.disk.dinode ip) (u.disk.contents ip)) ∧
            w.disk.info = update s.disk.info ip
              (some { Info.of (u.disk.dinode ip) (u.disk.contents ip) with
                nlink :=
                  toShort ((Info.of (u.disk.dinode ip) (u.disk.contents ip)).nlink + 1) }) := by
          intro ha
          have hui : u.disk.info = s.disk.info := congrArg Volume.info (hdu ha)
          rw [← hui]
          exact ⟨hux, hinfo⟩
        have hcw : 0 < (w.inode pr.cwd).ref := by
          rw [hhw.ref]
          exact Nat.add_pos_left hc _
        have hsafe : E .noType ∨ Safe pr.cwd w := by
          refine hty.imp id fun hs => ?_
          exact hs.of_nlink (hhw.anchored hs.1) (hV hs.1).1 (hV hs.1).2
        refine wp_seq (iunlock_spec hE) (fun _ w' hw' => ?_)
        obtain ⟨rfl, _⟩ := hw'
        refine wp_seq (nameiparent_spec hE hhw.consistent hcw hsafe) (fun r v hr => ?_)
        cases r with
        | none =>
          obtain ⟨hv, hdv⟩ := hr
          refine wp_post (linkBad_spec hE hop (hhw.step hv) (hv.locked ip hiw) fun ha => ?_)
            (fun r z hz => ?_)
          · refine ⟨_, (hV ha).1, ?_⟩
            rw [hdv (hhw.anchored ha), (hV ha).2]
          · obtain ⟨rfl, hz, hback⟩ := hz
            exact ⟨hz, fun _ => hback, fun hc => absurd rfl hc⟩
        | some x =>
          obtain ⟨dp, name⟩ := x
          have hpar := hr
          exact link_enter hE hop hnew hhw hiw (fun ha => ⟨(hV ha).1, hfile, (hV ha).2⟩) hpar
  · exact hsame

def DirEmpty (bs : List UInt8) : Prop :=
  ∀ off, IsEntry bs off → 2 * direntBytes ≤ off → (entry bs off).inum = 0

theorem isdirempty_spec (hE : Lenient E) (h : s.Consistent) (hi : s.Locked ip) :
    wp (isdirempty ip) (fun r t => t = s ∧ (r = true → DirEmpty (s.disk.contents ip))) E s := by
  have herr : E .isdirempty := hE _ (by decide) (by decide) (by decide)
  have hlen := Volume.length_contents (h.cached ip hi).2
  have hloop : ∀ fuel off, off % direntBytes = 0 → 2 * direntBytes ≤ off →
      (s.disk.dinode ip).size ≤ off + fuel →
      (∀ o, IsEntry (s.disk.contents ip) o → 2 * direntBytes ≤ o → o < off →
        (entry (s.disk.contents ip) o).inum = 0) →
      wp (isdiremptyLoop ip fuel off) (fun r t => t = s ∧
        (r = true → DirEmpty (s.disk.contents ip))) E s := by
    intro fuel
    induction fuel with
    | zero =>
      intro off hoff h2 hge hz
      refine ⟨rfl, fun _ o ho ho2 => hz o ho ho2 ?_⟩
      have := ho.2
      simp only [direntBytes] at *
      omega
    | succ fuel ih =>
      intro off hoff h2 hge hz
      unfold isdiremptyLoop
      simp only [wp_bind, wp_get]
      rw [h.size_eq hi]
      split
      next hlt =>
        refine wp_seq (readDirent_spec h hi herr) ?_
        rintro de t ⟨rfl, rfl, hin⟩
        split
        next hde =>
          refine ih (off + direntBytes) (by simp only [direntBytes] at *; omega)
            (by omega) (by simp only [direntBytes] at *; omega) fun o ho ho2 hlt' => ?_
          by_cases hoo : o = off
          · rw [hoo, hde]
          · refine hz o ho ho2 ?_
            have := ho.1
            simp only [direntBytes] at *
            omega
        · exact ⟨rfl, fun hc => by cases hc⟩
      next hge' =>
        refine ⟨rfl, fun _ o ho ho2 => hz o ho ho2 ?_⟩
        have := ho.2
        simp only [direntBytes] at *
        omega
  unfold isdirempty
  simp only [wp_bind, wp_get]
  rw [h.size_eq hi]
  refine hloop _ _ rfl le_rfl (by omega) fun o _ h2 hlt => ?_
  omega

/-- The directory without its entry at `off`, which named a directory if `isdir`. -/
def Info.expel (y : Info) (isdir : Prop) [Decidable isdir] (off : ℕ) : Info :=
  { y.enter off .zero with nlink := if isdir then toShort (y.nlink - 1) else y.nlink }

/-- The entry `name` of directory `dp` for inode `ip` is gone, and so is its link. -/
def UnlinkMade (dp ip : ℕ) (name : List UInt8) (V V' : ℕ → Option Info) : Prop :=
  ∃ x y off V₁ x', V dp = some y ∧ y.type = .dir ∧ Names y.bytes name off ∧
    (entry y.bytes off).inum = ip ∧ V ip = some x ∧ 1 ≤ x.nlink ∧
    (x.type = .dir → DirEmpty x.bytes) ∧
    Settles dp (update V dp (some (y.expel (x.type = .dir) off))) V₁ ∧
    V₁ ip = some x' ∧
    Settles ip (update V₁ ip (some { x' with nlink := toShort (x'.nlink - 1) })) V'

def UnlinkResult (str : Option (List UInt8)) (s : State P) (r : Option ℕ) (t : State P) : Prop :=
  Holding 0 s t ∧ (r = none → s.Anchored → t.disk = s.disk) ∧
    (r ≠ none → s.Anchored → ∃ path dp ip name, argstr str = some path ∧ IsElem path name ∧
      namecmp name dot = false ∧ namecmp name dotdot = false ∧
      UnlinkMade dp ip name s.disk.info t.disk.info)

def unlinkCount (c : Prop) [Decidable c] (dp ip : ℕ) : FsM P (Option ℕ) := do
  if c then
    modify fun s => s.setDin dp ((s.inode dp).din.setNlink (toShort ((s.inode dp).din.nlink - 1)))
    iupdate dp
  else pure ()
  iunlockput dp
  modify fun s => s.setDin ip ((s.inode ip).din.setNlink (toShort ((s.inode ip).din.nlink - 1)))
  iupdate ip
  iunlockput ip
  endOp
  return some 0

theorem unlink_count {c : Prop} [Decidable c] {R : Option ℕ → State P → Prop} (hE : Lenient E)
    (hop : s.inOp = false) (h : Holding (one dp + one ip) s.beginOp t) (hdp : t.Locked dp)
    (hip : t.Locked ip)
    (hR : ∀ u, Holding 0 s u → (∀ y, t.disk.info dp = some y → ∃ V x',
      Settles dp (update t.disk.info dp
        (some { y with nlink := if c then toShort (y.nlink - 1) else y.nlink })) V ∧
      V ip = some x' ∧
      Settles ip (update V ip (some { x' with nlink := toShort (x'.nlink - 1) }))
        u.disk.info) → R (some 0) u) :
    wp (unlinkCount c dp ip) R E t := by
  have hrest : ∀ u, Holding 0 t u → (∀ y, t.disk.info dp = some y → u.disk.info =
      update t.disk.info dp
        (some { y with nlink := if c then toShort (y.nlink - 1) else y.nlink })) →
      wp (do
        iunlockput dp
        modify fun s =>
          s.setDin ip ((s.inode ip).din.setNlink (toShort ((s.inode ip).din.nlink - 1)))
        iupdate ip
        iunlockput ip
        endOp
        return some 0) R E u := by
    intro u hu hinfo
    have hhu : Holding (one ip + one dp) s.beginOp u := (h.step hu).congr (add_comm _ _)
    refine wp_seq (iunlockput_held (hE.logs u) hhu) (fun _ v hv => ?_)
    have hiv : v.Locked ip := hv.1.locked_of (hu.locked ip hip) (hv.2.pos (by simp))
    have hcv := hv.2.consistent
    rw [wp_bind, wp_modify, wp_bind]
    refine wp_setNlink (hE.logs v) hcv hiv (toShort_toShort _) fun w hw hwi => ?_
    have hhw : Holding (0 + one ip) s.beginOp w := (hv.2.step hw).congr (zero_add _)
    refine wp_seq (iunlockput_held (hE.logs w) hhw) (fun _ z hz => ?_)
    refine hR _ (hz.2.endOp hop) fun y hy => ?_
    have hx' := Volume.info_of_allocated (hcv.cached ip hiv).2
    refine ⟨v.disk.info, _, ?_, hx', ?_⟩
    · rw [← hinfo y hy]
      exact hv.1.settles hhu.consistent
    · have hset := hz.1.settles hhw.consistent
      rw [hwi _ hx', (hcv.cached ip hiv).1] at hset
      exact hset
  unfold unlinkCount
  dsimp only
  split
  next hc =>
    rw [wp_bind, wp_modify, wp_bind]
    refine wp_setNlink (hE.logs t) h.consistent hdp (toShort_toShort _) fun u hu hinfo => ?_
    refine hrest u hu fun y hy => ?_
    rw [hinfo y hy, (h.consistent.cached dp hdp).1, Volume.nlink_of_info hy, if_pos hc]
  next hc =>
    refine hrest t (.refl h.consistent) fun y hy => ?_
    rw [if_neg hc, ← hy, update_eq_self]

/-- An inode that an entry other than `.` and `..` names has a link. -/
def Volume.Counted (v : Volume) : Prop :=
  ∀ dp x name off, v.info dp = some x → x.type = .dir → Names x.bytes name off →
    namecmp name dot = false → namecmp name dotdot = false →
    ∀ y, v.info (entry x.bytes off).inum = some y → 1 ≤ y.nlink

theorem unlink_remove {d : Dinode} {off : ℕ} {str : Option (List UInt8)} (hE : Lenient E)
    (hop : s.inOp = false) (hpath : argstr str = some path) (helem : IsElem path name)
    (hdot : namecmp name dot = false) (hdotdot : namecmp name dotdot = false)
    (h : Holding (one dp + one ip) s.beginOp w) (hdp : w.Locked dp) (hip : w.Locked ip)
    (hdisk : s.Anchored → w.disk = s.disk) (hdir : (w.disk.dinode dp).type = .dir)
    (hnames : Names (w.disk.contents dp) name off)
    (hinum : (entry (w.disk.contents dp) off).inum = ip) (hd : d = w.disk.dinode ip)
    (hnl : 1 ≤ d.nlink) (hempty : d.type = .dir → DirEmpty (w.disk.contents ip)) :
    wp (do
      let r ← writei dp Dirent.zero.src off direntBytes
      if r ≠ some direntBytes then throw .unlinkWritei
      else unlinkCount (d.type = .dir) dp ip) (UnlinkResult str s) E w := by
  have herr : E .unlinkWritei := hE _ (by decide) (by decide) (by decide)
  have hwdp := Volume.info_of_allocated (h.consistent.cached dp hdp).2
  have hwip := Volume.info_of_allocated (h.consistent.cached ip hip).2
  have hzero : Dirent.zero.name.length = dirsiz := List.length_replicate
  refine wp_seq (writei_entry (hE.logs w) h.consistent hdp hnames.isEntry.1 hzero)
    (fun r t hr => ?_)
  split
  · exact herr
  next hok =>
    replace hr := hr.1
    rw [if_pos (not_not.mp hok)] at hr
    refine unlink_count hE hop (h.step hr.holding) (hr.holding.locked dp hdp)
      (hr.holding.locked ip hip) fun u hu hinfo => ?_
    refine ⟨hu, (fun hc => by cases hc), fun _ ha => ⟨path, dp, ip, name, hpath, helem, hdot,
      hdotdot, ?_⟩⟩
    have hwi : s.disk.info = w.disk.info := congrArg Volume.info (hdisk ha).symm
    have hview := hr.view hwdp
    have htdp : t.disk.info dp =
        some ((Info.of (w.disk.dinode dp) (w.disk.contents dp)).enter off .zero) := by
      rw [hview, update_self]
    obtain ⟨V, x', hset, hx', hset'⟩ := hinfo _ htdp
    rw [hview, update_idem] at hset
    rw [← hwi] at hwdp hwip hset
    subst hd
    exact ⟨_, _, off, V, x', hwdp, hdir, hnames, hinum, hwip, hnl, hempty, hset, hx', hset'⟩

theorem sysUnlink_spec {pr : Proc} {str : Option (List UInt8)} (hE : Lenient E)
    (h : s.Consistent) (hop : s.inOp = false) (hc : 0 < (s.inode pr.cwd).ref)
    (hty : E .noType ∨ Safe pr.cwd s) (hnl : E .unlinkNlink ∨ s.Anchored ∧ s.disk.Counted) :
    wp (sysUnlink pr str) (UnlinkResult str s) E s := by
  have hnone : ∀ u, Holding 0 s u → (s.Anchored → u.disk = s.disk) → UnlinkResult str s none u :=
    fun u hu hd => ⟨hu, fun _ => hd, fun hn => absurd rfl hn⟩
  unfold sysUnlink
  split
  · exact hnone s (.refl h) fun _ => rfl
  next path hpath =>
    rw [wp_bind, beginOp, wp_modify]
    refine wp_seq (nameiparent_spec hE h.beginOp hc hty) (fun r t hr => ?_)
    cases r with
    | none =>
      obtain ⟨ht, hd⟩ := hr
      exact hnone _ (ht.endOp hop) hd
    | some x =>
      obtain ⟨dp, name⟩ := x
      have hpar := hr
      refine wp_seq (hpar.ilock hE) (fun _ u hu => ?_)
      have hcu := hu.holding.consistent
      split
      · exact put_endOp hE hop hu.holding hu.disk hnone
      next hdots =>
        refine wp_seq (dirlookup_spec hE hcu hu.locked) (fun r v hr => ?_)
        cases r with
        | none =>
          obtain ⟨hv, _⟩ := hr
          subst hv
          exact put_endOp hE hop hu.holding hu.disk hnone
        | some x =>
          obtain ⟨ip, off⟩ := x
          obtain ⟨hgot, hnames, hinum⟩ := hr
          have hv : Holding (one dp + one ip) s.beginOp v := hu.holding.trans (hgot.holding hcu)
          have hlock : E .noType ∨ (v.disk.dinode ip).type ≠ .free := by
            refine hty.imp id fun hs => ?_
            have hs' : Safe pr.cwd s.beginOp := hs
            have hfree := hu.type_ne_free hs' hnames
            rw [hinum] at hfree
            rw [hgot.disk, hu.disk hs.1]
            exact hfree
          refine wp_seq (ilock_spec hE hv.consistent hlock) (fun _ w hw => ?_)
          have hhw : Holding (one dp + one ip) s.beginOp w := hv.step (hw.holding hv.consistent)
          have hcw := hhw.consistent
          have hdu : w.disk = u.disk := hw.disk.trans hgot.disk
          have hdw (ha : s.Anchored) : w.disk = s.disk := hdu.trans (hu.disk ha)
          have hdp : w.Locked dp := hw.locked_of ((hgot.locked_iff dp).mpr hu.locked)
          have hdin := (hcw.cached ip hw.locked).1
          have hwx := Volume.info_of_allocated (hcw.cached ip hw.locked).2
          have hwdp := Volume.info_of_allocated (hcw.cached dp hdp).2
          have hdir : (w.disk.dinode dp).type = .dir := by rw [hdu, hu.dir]
          rw [← hdu] at hnames hinum
          simp only [not_or, Bool.not_eq_true] at hdots
          have hremove := fun hn he => unlink_remove hE hop hpath hu.elem hdots.1 hdots.2 hhw hdp
            hw.locked hdw hdir hnames hinum hdin hn he
          have hkeep : wp (do
              iunlockput ip
              unlinkBad dp) (UnlinkResult str s) E w := by
            refine wp_seq (iunlockput_held (hE.logs w) hhw) (fun _ y hy => ?_)
            exact put_endOp hE hop hy.2 (fun ha => hhw.put_disk ha (hdw ha) hy.1) hnone
          rw [wp_bind, wp_get]
          dsimp only
          refine wp_ite.mpr ⟨fun hlt => ?_, fun hge => wp_ite.mpr ⟨fun _ => ?_, fun hfile => ?_⟩⟩
          · refine hnl.resolve_right fun hcount => ?_
            have hwi : s.disk.info = w.disk.info := congrArg Volume.info (hdw hcount.1).symm
            have hone := hcount.2 dp _ name off (hwi ▸ hwdp) hdir hnames hdots.1 hdots.2
            rw [show (entry (Info.of (w.disk.dinode dp) (w.disk.contents dp)).bytes off).inum = ip
              from hinum] at hone
            have hone := hone _ (hwi ▸ hwx)
            rw [hdin] at hlt
            exact absurd hlt (not_lt.mpr hone)
          · rw [wp_bind]
            refine wp_post (isdirempty_spec hE hcw hw.locked) ?_
            rintro r y ⟨rfl, hr⟩
            cases r with
            | false => exact hkeep
            | true => exact hremove (not_lt.mp hge) fun _ => hr rfl
          · exact hremove (not_lt.mp hge) fun hc => absurd hc hfile

end Xv6.Fs
