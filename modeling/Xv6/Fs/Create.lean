import Xv6.Fs.Sys
import Xv6.Fs.Walk

/-! `create`: it finds a file, makes one, or fails and leaves the name space as it was. -/
namespace Xv6.Fs
open Function Hoare
variable {P : Type} {E : Panic → Prop} {s t u w : State P} {dp ip cwd : ℕ} {g : ℕ → ℕ}
  {path name : List UInt8} {V : ℕ → Option Info}

def State.Alive (s : State P) : Prop := ∀ i, 0 < (s.inode i).ref → s.disk.Allocated i

/-- The view stays, or inode `i` without links is freed. -/
def Settles (i : ℕ) (V V' : ℕ → Option Info) : Prop :=
  V' = V ∨ V' = update V i none ∧ ∃ x, V i = some x ∧ x.nlink = 0

theorem Put.settles {i : ℕ} (h : Put i s t) (hs : s.Consistent) :
    Settles i s.disk.info t.disk.info := by
  have hi := h.info hs
  split at hi
  next hc => exact .inr ⟨hi, _, Volume.info_of_allocated (hs.cached i hc.2.1).2, hc.2.2⟩
  · exact .inl hi

/-- The assignment to the inode that comes before `iupdate(ip)`. -/
theorem wp_change {i : ℕ} {d : Dinode} {R : State P → Prop} (hE : Logs E s) (h : s.Consistent)
    (hi : s.Locked i) (hty : d.type ≠ .free) (ha : d.addrs = (s.disk.dinode i).addrs)
    (hsz : d.size = (s.disk.dinode i).size) (hR : ∀ t, Changed i d s t → R t) :
    wp (iupdate i) (fun _ t => R t) E (s.setDin i d) := by
  rw [wp_iupdate]
  split
  · exact hR _ (changed_iupdate h hi hty ha hsz _)
  next hop => exact hE (by simpa using hop)

theorem toShort_toShort (n : ℤ) : toShort (toShort n) = toShort n := Int.bmod_bmod

theorem wp_setNlink {i : ℕ} {n : ℤ} {R : State P → Prop} (hE : Logs E s) (h : s.Consistent)
    (hi : s.Locked i) (hn : toShort n = n)
    (hR : ∀ t, Holding 0 s t → (∀ x, s.disk.info i = some x →
      t.disk.info = update s.disk.info i (some { x with nlink := n })) → R t) :
    wp (iupdate i) (fun _ t => R t) E (s.setDin i ((s.inode i).din.setNlink n)) := by
  obtain ⟨hdin, halloc⟩ := h.cached i hi
  refine wp_change hE h hi ?_ ?_ ?_ fun t ht => hR t (ht.holding hi fun _ => ?_) fun x hx => ?_
  · simpa [hdin] using halloc.2
  · simp [hdin]
  · simp [hdin]
  · simpa using hn
  · obtain ⟨_, rfl⟩ := Volume.info_eq_some.mp hx
    rw [ht.info h hi (by simp [hdin])]
    simp [Info.of, hdin]

theorem Volume.nlink_of_info {v : Volume} {i : ℕ} {x : Info} (h : v.info i = some x) :
    (v.dinode i).nlink = x.nlink := congrArg Info.nlink (Volume.info_eq_some.mp h).2

/-- The call gives up a reference to an inode with the link count of the start. -/
theorem Holding.put_info {i : ℕ} (h : Holding (g + one i) s t) (hs : s.Anchored)
    (hi : (t.disk.info i).map Info.nlink = (s.disk.info i).map Info.nlink) (hp : Put i t u) :
    u.disk.info = t.disk.info := by
  rw [hp.keep]
  rintro ⟨hr, hl, hn⟩
  have hri := h.ref i
  rw [Pi.add_apply, one_self, hr] at hri
  rw [Volume.info_of_allocated (h.consistent.cached i hl).2, Option.map_some, eq_comm,
    Option.map_eq_some_iff] at hi
  obtain ⟨x, hx, hxn⟩ := hi
  have hpos := (hs i (Volume.allocated_of_info hx) ?_).1
  · omega
  · rw [Volume.nlink_of_info hx, hxn]
    exact hn

theorem createFail_spec (hE : Lenient E) (h : Holding (one dp + one ip) s w) (hi : w.Locked ip)
    (hV : s.Anchored → s.Alive → ¬ s.disk.Allocated ip ∧ s.disk.Allocated dp ∧
      ∃ x, w.disk.info = update s.disk.info ip (some x)) :
    wp (createFail dp ip) (fun r u => r = none ∧ Holding 0 s u ∧
      (s.Anchored → s.Alive → u.disk.info = s.disk.info)) E w := by
  have hcon := h.consistent
  unfold createFail
  rw [wp_bind, wp_modify, wp_bind]
  refine wp_setNlink (hE.logs w) hcon hi (by decide) fun t ht hinfo => ?_
  have hinfo := hinfo _ (Volume.info_of_allocated (hcon.cached ip hi).2)
  have hit := ht.locked ip hi
  have h1 : Holding (one dp + one ip) s t := h.step ht
  refine wp_seq (iunlockput_held (hE.logs t) h1) (fun _ u hu => ?_)
  have h2 : Holding (0 + one dp) s u := hu.2.congr (zero_add _)
  refine wp_seq (iunlockput_held (hE.logs u) h2) (fun _ v hv => ⟨rfl, hv.2, fun ha hl => ?_⟩)
  obtain ⟨hfree, hdp, x, hx⟩ := hV ha hl
  have hne : ip ≠ dp := by
    rintro rfl
    exact hfree hdp
  have hgone : u.disk.info = s.disk.info := by
    have href : (t.inode ip).ref = 1 := by
      have hz : (s.inode ip).ref = 0 := by
        by_contra hc
        exact hfree (hl ip (Nat.pos_of_ne_zero hc))
      rw [h1.ref, hz, Pi.add_apply, one_self, one_of_ne hne]
    have hnl : (t.disk.dinode ip).nlink = 0 :=
      Volume.nlink_of_info (by rw [hinfo, update_self])
    rw [hu.1.info h1.consistent, if_pos ⟨href, hit, hnl⟩, hinfo, hx, update_idem,
      update_idem, ← Volume.info_of_not_allocated hfree, update_eq_self]
  rw [h2.put_info ha (by rw [hgone]) hv.1, hgone]

/-- What `create` makes of a new inode: a directory gets the entries `.` and `..`. -/
def Furnished (ty : FileType) (dp ip : ℕ) (x y : Info) : Prop :=
  if ty = .dir then
    ∃ off off' : ℕ, Vacant x.bytes off ∧
      Vacant (x.enter off ⟨ip, strncpy dirsiz dot⟩).bytes off' ∧
      y = (x.enter off ⟨ip, strncpy dirsiz dot⟩).enter off' ⟨dp, strncpy dirsiz dotdot⟩
  else y = x

theorem createDots_spec {ty : FileType} {x : Info} (hE : Lenient E) (h : s.Consistent)
    (hi : s.Locked ip) (hx : s.disk.info ip = some x) :
    wp (createDots ty dp ip) (fun r t => Holding 0 s t ∧ ∃ y,
      t.disk.info = update s.disk.info ip (some y) ∧
      (r = true → Furnished ty dp ip x y)) E s := by
  have hkeep : s.disk.info = update s.disk.info ip (some x) := by rw [← hx, update_eq_self]
  unfold createDots
  split
  next hdir =>
    refine wp_seq (dirlink_spec hE h hi ip) (fun r t hr => ?_)
    cases r with
    | false => exact ⟨hr.holding, x, (hr.fail rfl).trans hkeep, fun hc => by cases hc⟩
    | true =>
      obtain ⟨_, off, hvac, ht⟩ := hr.view hx
      have hcon := hr.holding.consistent
      refine wp_post (dirlink_spec hE hcon (hr.holding.locked ip hi) dp) (fun r u hu => ?_)
      refine ⟨hr.holding.step hu.holding, ?_⟩
      cases r with
      | false => exact ⟨_, (hu.fail rfl).trans ht, fun hc => by cases hc⟩
      | true =>
        obtain ⟨_, off', hvac', hu'⟩ := hu.view (by rw [ht, update_self])
        refine ⟨_, by rw [hu', ht, update_idem], fun _ => ?_⟩
        rw [Furnished, if_pos hdir]
        exact ⟨off, off', hvac, hvac', rfl⟩
  next hdir =>
    refine ⟨.refl h, x, hkeep, fun _ => ?_⟩
    rw [Furnished, if_neg hdir]

/-- The parent directory with an entry for a new inode of type `ty`. -/
def Info.adopt (x : Info) (ty : FileType) (off : ℕ) (e : Dirent) : Info :=
  { x.enter off e with nlink := if ty = .dir then toShort (x.nlink + 1) else x.nlink }

/-- The new inode `ip < n`, with the entry `name` in directory `dp`. The directory can be gone at
the end only if its link count has wrapped. -/
structure Made (n : ℕ) (ty : FileType) (major minor : ℤ) (dp ip : ℕ) (name : List UInt8)
    (V V' : ℕ → Option Info) : Prop where
  free : V ip = none
  bound : 0 < ip ∧ ip < n
  info : ∃ x y off, V dp = some x ∧ x.type = .dir ∧ (∀ o, ¬ Names x.bytes name o) ∧
    Furnished ty dp ip ⟨ty, toShort major, toShort minor, 1, []⟩ y ∧ Vacant x.bytes off ∧
    Settles dp (update (update V ip (some y)) dp
      (some (x.adopt ty off ⟨ip, strncpy dirsiz name⟩))) V'

def Created (path : List UInt8) (ty : FileType) (major minor : ℤ) (s : State P) (r : Option ℕ)
    (t : State P) : Prop :=
  match r with
  | none => Holding 0 s t ∧ (s.Anchored → s.Alive → t.disk.info = s.disk.info)
  | some ip => Holding (one ip) s t ∧ t.Locked ip ∧ (s.Anchored → s.Alive →
      (ty = .file ∧ t.disk = s.disk ∧ (s.disk.dinode ip).type ≠ .dir) ∨
      ∃ dp name, IsElem path name ∧
        Made s.disk.sb.ninodes ty major minor dp ip name s.disk.info t.disk.info)

variable {ty : FileType} {major minor : ℤ}

/-- `create` gives up the parent directory and returns the new inode. -/
theorem create_done {x y : Info} (off : ℕ) (hE : Lenient E) (h : Holding (one dp + one ip) s w)
    (hip : w.Locked ip) (helem : IsElem path name)
    (hV : s.Anchored → s.Alive → ¬ s.disk.Allocated ip ∧ (0 < ip ∧ ip < s.disk.sb.ninodes) ∧
      s.disk.info dp = some x ∧ x.type = .dir ∧ (∀ o, ¬ Names x.bytes name o) ∧
      Furnished ty dp ip ⟨ty, toShort major, toShort minor, 1, []⟩ y ∧ Vacant x.bytes off ∧
      w.disk.info = update (update s.disk.info ip (some y)) dp
        (some (x.adopt ty off ⟨ip, strncpy dirsiz name⟩))) :
    wp (do
      iunlockput dp
      return some ip) (Created path ty major minor s) E w := by
  have h' : Holding (one ip + one dp) s w := h.congr (add_comm _ _)
  refine wp_seq (iunlockput_held (hE.logs w) h') (fun _ t ht => ?_)
  refine ⟨ht.2, ht.1.locked_of hip (ht.2.pos (by simp)), fun ha hl => .inr ⟨dp, name, helem, ?_⟩⟩
  obtain ⟨hfree, hbound, hx, hdir, hno, hfurn, hvac, hinfo⟩ := hV ha hl
  refine ⟨Volume.info_of_not_allocated hfree, hbound, x, y, off, hx, hdir, hno, hfurn, hvac, ?_⟩
  rw [← hinfo]
  exact ht.1.settles h.consistent

variable (hE : Lenient E)
include hE

theorem create_enter {x y : Info} (h : Holding (one dp + one ip) s w)
    (hip : w.Locked ip) (hdp : w.Locked dp) (helem : IsElem path name)
    (hV : s.Anchored → s.Alive → ¬ s.disk.Allocated ip ∧ (0 < ip ∧ ip < s.disk.sb.ninodes) ∧
      s.disk.info dp = some x ∧ x.type = .dir ∧ (∀ o, ¬ Names x.bytes name o) ∧
      Furnished ty dp ip ⟨ty, toShort major, toShort minor, 1, []⟩ y ∧
      w.disk.info = update s.disk.info ip (some y)) :
    wp (do
      if ← dirlink dp name ip then
        if ty = .dir then
          modify fun s =>
            s.setDin dp ((s.inode dp).din.setNlink (toShort ((s.inode dp).din.nlink + 1)))
          iupdate dp
        else pure ()
        iunlockput dp
        return some ip
      else createFail dp ip) (Created path ty major minor s) E w := by
  refine wp_seq (dirlink_spec hE h.consistent hdp ip) (fun r t hr => ?_)
  have ht := h.step hr.holding
  have hipt := hr.holding.locked ip hip
  have hdpt := hr.holding.locked dp hdp
  cases r with
  | false =>
    refine wp_post (createFail_spec hE ht hipt fun ha hl => ?_) (fun r u hu => ?_)
    · obtain ⟨hfree, _, hx, _, _, _, hw⟩ := hV ha hl
      exact ⟨hfree, Volume.allocated_of_info hx, y, (hr.fail rfl).trans hw⟩
    · obtain ⟨rfl, hu⟩ := hu
      exact hu
  | true =>
    obtain ⟨off, hoff⟩ : ∃ off, s.Anchored → s.Alive → Vacant x.bytes off ∧ t.disk.info =
        update (update s.disk.info ip (some y)) dp
          (some (x.enter off ⟨ip, strncpy dirsiz name⟩)) := by
      by_cases hal : s.Anchored ∧ s.Alive
      · obtain ⟨hfree, _, hx, _, _, _, hw⟩ := hV hal.1 hal.2
        have hne : dp ≠ ip := by
          rintro rfl
          exact hfree (Volume.allocated_of_info hx)
        obtain ⟨_, off, hvac, hinfo⟩ := hr.view (x := x) (by rw [hw, update_of_ne hne, hx])
        exact ⟨off, fun _ _ => ⟨hvac, by rw [hinfo, hw]⟩⟩
      · exact ⟨0, fun ha hl => absurd ⟨ha, hl⟩ hal⟩
    rw [if_pos rfl]
    dsimp only
    split
    next hdir =>
      rw [wp_bind, wp_modify, wp_bind]
      refine wp_setNlink (hE.logs t) ht.consistent hdpt (toShort_toShort _) fun u hu hinfo => ?_
      refine create_done (x := x) (y := y) off hE (ht.step hu) (hu.locked ip hipt) helem
        fun ha hl => ?_
      obtain ⟨hfree, hbound, hx, hxd, hno, hfurn, _⟩ := hV ha hl
      obtain ⟨hvac, hview⟩ := hoff ha hl
      refine ⟨hfree, hbound, hx, hxd, hno, hfurn, hvac, ?_⟩
      have hdpx : t.disk.info dp = some (x.enter off ⟨ip, strncpy dirsiz name⟩) := by
        rw [hview, update_self]
      rw [hinfo _ hdpx, hview, update_idem, (ht.consistent.cached dp hdpt).1, Info.adopt,
        if_pos hdir, Volume.nlink_of_info hdpx]
      rfl
    next hdir =>
      refine create_done (x := x) (y := y) off hE ht hipt helem fun ha hl => ?_
      obtain ⟨hfree, hbound, hx, hxd, hno, hfurn, _⟩ := hV ha hl
      obtain ⟨hvac, hview⟩ := hoff ha hl
      refine ⟨hfree, hbound, hx, hxd, hno, hfurn, hvac, ?_⟩
      rw [hview, Info.adopt, if_neg hdir]
      rfl

theorem create_new (h : InParent path dp name s t)
    (habsent : ∀ off, ¬ Names (t.disk.contents dp) name off) (hty : ty ≠ .free)
    (hfresh : Fresh ip ty t u) :
    wp (do
      ilock ip
      modify fun s => s.setDin ip { (s.inode ip).din with
        major := toShort major, minor := toShort minor, nlink := 1 }
      iupdate ip
      if ← createDots ty dp ip then
        if ← dirlink dp name ip then
          if ty = .dir then
            modify fun s =>
              s.setDin dp ((s.inode dp).din.setNlink (toShort ((s.inode dp).din.nlink + 1)))
            iupdate dp
          else pure ()
          iunlockput dp
          return some ip
        else createFail dp ip
      else createFail dp ip) (Created path ty major minor s) E u := by
  have hcon := h.holding.consistent
  have htype : (u.disk.dinode ip).type ≠ .free := by simpa [hfresh.disk] using hty
  refine wp_seq (ilock_spec hE (hfresh.consistent hcon) (.inr htype)) (fun _ v hv => ?_)
  have hvh := hfresh.holding hv hcon
  have hcv := hvh.consistent
  have hdin : (v.inode ip).din = .fresh ty := by simp [hv.din, hfresh.disk]
  have hsame := (hcv.cached ip hv.locked).1
  rw [wp_bind, wp_modify, wp_bind]
  refine wp_change (hE.logs v) hcv hv.locked ?_ ?_ ?_ fun w hw => ?_
  · simpa [hdin] using hty
  · rw [hsame]
  · rw [hsame]
  have hwh := hw.holding hv.locked fun _ => (by decide : toShort 1 = 1)
  have hhw : Holding (one dp + one ip) s w := (h.holding.trans hvh).step hwh
  have hip := hwh.locked ip hv.locked
  have hdp := hwh.locked dp (hvh.locked dp h.locked)
  -- the view with the new inode, still without contents
  have hinfo : w.disk.info = update t.disk.info ip
      (some ⟨ty, toShort major, toShort minor, 1, []⟩) := by
    have hvi : v.disk.info = update t.disk.info ip (some (.of (.fresh ty) [])) := by
      rw [hv.disk]
      exact hfresh.info hcon hty
    have hbytes := Volume.info_of_allocated (hcv.cached ip hv.locked).2
    rw [hvi, update_self] at hbytes
    have hbytes : [] = v.disk.contents ip := congrArg Info.bytes (Option.some_inj.mp hbytes)
    rw [hw.info hcv hv.locked (by rw [hsame]), hvi, update_idem, ← hbytes, hdin]
    rfl
  refine wp_seq (createDots_spec hE hhw.consistent hip (by rw [hinfo, update_self]))
    (fun r z hz => ?_)
  obtain ⟨hzh, y, hy, hfurn⟩ := hz
  have hhz := hhw.step hzh
  have hzi (ha : s.Anchored) : z.disk.info = update s.disk.info ip (some y) := by
    rw [hy, hinfo, update_idem, h.disk ha]
  have hfree (ha : s.Anchored) : ¬ s.disk.Allocated ip := h.disk ha ▸ hfresh.free
  have halloc (ha : s.Anchored) : s.disk.Allocated dp := h.disk ha ▸ h.allocated
  cases r with
  | false =>
    refine wp_post (createFail_spec hE hhz (hzh.locked ip hip) fun ha _ => ?_) (fun r x hx => ?_)
    · exact ⟨hfree ha, halloc ha, y, hzi ha⟩
    · obtain ⟨rfl, hx⟩ := hx
      exact hx
  | true =>
    refine create_enter (x := .of (t.disk.dinode dp) (t.disk.contents dp)) (y := y) hE hhz
      (hzh.locked ip hip) (hzh.locked dp hdp) h.elem fun ha _ => ?_
    refine ⟨hfree ha, h.disk ha ▸ hfresh.bound, ?_, h.dir, habsent, hfurn rfl, hzi ha⟩
    rw [← h.disk ha]
    exact Volume.info_of_allocated h.allocated

theorem create_found (h : Holding (one ip + one dp) s t) (hd : s.Anchored → t.disk = s.disk)
    (hty : E .noType ∨ s.Anchored ∧ (s.disk.dinode ip).type ≠ .free) :
    wp (do
      iunlockput dp
      ilock ip
      let d := ((← get).inode ip).din
      if ty = .file ∧ (d.type = .file ∨ d.type = .device) then return some ip
      else
        iunlockput ip
        return none) (Created path ty major minor s) E t := by
  refine wp_seq (iunlockput_held (hE.logs t) h) (fun _ u hu => ?_)
  have hdu (ha : s.Anchored) : u.disk = s.disk := h.put_disk ha (hd ha) hu.1
  have htype : E .noType ∨ (u.disk.dinode ip).type ≠ .free := by
    refine hty.imp id fun hs => ?_
    rw [hdu hs.1]
    exact hs.2
  refine wp_seq (ilock_spec hE hu.2.consistent htype) (fun _ v hv => ?_)
  have hhv : Holding (one ip) s v := hu.2.step (hv.holding hu.2.consistent)
  have hdv (ha : s.Anchored) : v.disk = s.disk := hv.disk.trans (hdu ha)
  simp only [wp_bind, wp_get]
  split
  next hkind =>
    refine ⟨hhv, hv.locked, fun ha _ => .inl ⟨hkind.1, hdv ha, ?_⟩⟩
    rw [← hdv ha, ← (hhv.consistent.cached ip hv.locked).1]
    rcases hkind.2 with hk | hk
    · simp [hk]
    · simp [hk]
  · rw [wp_bind]
    refine wp_post (walked_put hE hhv hdv) (fun _ w hw => ?_)
    exact ⟨hw.1, fun ha _ => by rw [hw.2 ha]⟩

theorem create_spec (h : s.Consistent) (hc : 0 < (s.inode cwd).ref)
    (hty : E .noType ∨ Safe cwd s) (hty' : ty ≠ .free) :
    wp (create cwd path ty major minor) (Created path ty major minor s) E s := by
  unfold create
  refine wp_seq (nameiparent_spec hE h hc hty) (fun r t hr => ?_)
  match r, hr with
  | none, ⟨hhold, hdisk⟩ => exact ⟨hhold, fun ha _ => by rw [hdisk ha]⟩
  | some (dp, name), hpar =>
    refine wp_seq (hpar.ilock hE) (fun _ u hu => ?_)
    have hcon := hu.holding.consistent
    refine wp_seq (dirlookup_spec hE hcon hu.locked) (fun r v hr => ?_)
    match r, hr with
    | some (ip, off), ⟨hgot, hnames, hinum⟩ =>
      refine create_found hE ((hu.holding.trans (hgot.holding hcon)).congr (add_comm _ _))
        (fun ha => hgot.disk.trans (hu.disk ha)) (hty.imp id fun hs => ⟨hs.1, ?_⟩)
      rw [← hinum]
      exact hu.type_ne_free hs hnames
    | none, ⟨hv, habsent⟩ =>
      subst hv
      refine wp_seq (ialloc_spec hE hcon ty) (fun r w hr => ?_)
      match r, hr with
      | none, hw =>
        subst hw
        refine wp_seq (walked_put hE hu.holding hu.disk) (fun _ y hy => ?_)
        exact ⟨hy.1, fun ha _ => by rw [hy.2 ha]⟩
      | some ip, hfresh => exact create_new hE hu habsent hty' hfresh

end Xv6.Fs
