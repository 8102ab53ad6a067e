import Xv6.Fs.DirMap
import Xv6.Fs.Image
import Xv6.Fs.Walk

/-! Path resolution. `skipelem` takes a path apart into its elements, and `namex` looks them up one
after the other from the root or the current directory. -/
namespace Xv6.Fs
open Hoare List
variable {P : Type} {E : Panic → Prop} {s t : State P} {cwd : ℕ} {path : List UInt8}

def elems : ℕ → List UInt8 → List (List UInt8)
  | 0, _ => []
  | fuel + 1, path =>
    match skipelem path with
    | none => []
    | some (name, rest) => name :: elems fuel rest

/-- The maximal parts of the path without a slash that are not empty, each cut to `DIRSIZ` bytes. -/
def segments (path : List UInt8) : List (List UInt8) :=
  ((path.splitOnP (· == slash)).filter (· ≠ [])).map (·.take dirsiz)

theorem segments_nil : segments [] = [] := rfl

theorem segments_slash (path : List UInt8) : segments (slash :: path) = segments path := by
  unfold segments
  rw [splitOnP_cons_eq_if_modifyHead]
  simp

theorem segments_dropWhile (path : List UInt8) :
    segments (path.dropWhile (· == slash)) = segments path := by
  induction path with
  | nil => rfl
  | cons c cs ih =>
    obtain rfl | hc := eq_or_ne c slash
    · rw [segments_slash, ← ih]
      simp
    · rw [dropWhile_cons, if_neg (by simpa using hc)]

/-- The first element of a path that does not begin with a slash. -/
theorem segments_cons {c : UInt8} (cs : List UInt8) (hc : c ≠ slash) :
    segments (c :: cs) = ((c :: cs).takeWhile (· != slash)).take dirsiz ::
      segments ((c :: cs).dropWhile (· != slash)) := by
  have hb : (c != slash) = true := by simpa using hc
  have hnone : ∀ x ∈ (c :: cs).takeWhile (· != slash), (x == slash) = false := by
    intro x hx
    have := mem_takeWhile_imp hx
    simpa using this
  have hne : (c :: cs).takeWhile (· != slash) ≠ [] := by
    rw [takeWhile_cons, if_pos hb]
    exact cons_ne_nil _ _
  have hsplit := takeWhile_append_dropWhile (p := (· != slash)) (l := c :: cs)
  cases hd : (c :: cs).dropWhile (· != slash) with
  | nil =>
    rw [hd, append_nil] at hsplit
    rw [hsplit] at hnone ⊢
    rw [segments_nil, segments, splitOnP_eq_singleton hnone]
    rfl
  | cons d ds =>
    have hdslash : (d == slash) = true := by
      have hhead := head_dropWhile_not (· != slash) (l := c :: cs) (by simp [hd])
      simpa [hd] using hhead
    have hd' : d = slash := by simpa using hdslash
    rw [hd] at hsplit
    rw [hd', segments_slash, segments, ← hsplit,
      splitOnP_append_cons_of_forall_mem hnone d hdslash, hsplit]
    simp only [filter_cons_of_pos, hne, ne_eq, not_false_eq_true, decide_true, map_cons]
    rfl

theorem skipelem_none (h : skipelem path = none) : segments path = [] := by
  unfold skipelem at h
  split at h
  next hd => rw [← segments_dropWhile, hd, segments_nil]
  · cases h

/-- What is left of the path has no elements just if it is empty. -/
theorem skipelem_some {name rest : List UInt8} (h : skipelem path = some (name, rest)) :
    segments path = name :: segments rest ∧ (segments rest = [] ↔ rest = []) := by
  unfold skipelem at h
  split at h
  · cases h
  next c cs hd =>
    have hc : c ≠ slash := by
      have hhead := head_dropWhile_not (· == slash) (l := path) (by simp [hd])
      simpa [hd] using hhead
    cases h
    constructor
    · rw [← segments_dropWhile path, hd, segments_cons cs hc, segments_dropWhile]
    · constructor
      · intro hs
        rw [segments_dropWhile] at hs
        cases hr : ((c :: cs).dropWhile (· != slash)).dropWhile (· == slash) with
        | nil => rfl
        | cons d ds =>
          have hne : d ≠ slash := by
            have hhead := head_dropWhile_not (· == slash)
              (l := (c :: cs).dropWhile (· != slash)) (by simp [hr])
            simpa [hr] using hhead
          rw [← segments_dropWhile, hr, segments_cons ds hne] at hs
          cases hs
      · intro hr
        rw [hr, segments_nil]

/-- Iterating `skipelem` yields exactly the elements of the path. -/
theorem elems_eq_segments (fuel : ℕ) : ∀ path : List UInt8, path.length < fuel →
    elems fuel path = segments path := by
  induction fuel with
  | zero => exact fun path h => absurd h (Nat.not_lt_zero _)
  | succ fuel ih =>
    intro path hlt
    unfold elems
    split
    next h => exact (skipelem_none h).symm
    next name rest h =>
      rw [(skipelem_some h).1, ih rest (by have := (skipelem_eq_some h).2.1; omega)]

instance (bs name : List UInt8) (off : ℕ) : Decidable (Names bs name off) :=
  decidable_of_iff (IsEntry bs off ∧ (entry bs off).inum ≠ 0 ∧
    namecmp name (entry bs off).name = true)
    ⟨fun h => ⟨h.1, h.2.1, h.2.2⟩, fun h => ⟨h.1, h.2, h.3⟩⟩

/-- The inode number of the first entry of the directory file `bs` with the name. -/
def lookup (bs name : List UInt8) : Option ℕ :=
  ((List.range bs.length).find? fun off => Names bs name off).map fun off => (entry bs off).inum

theorem lookup_eq_none {bs name : List UInt8} (h : ∀ off, ¬ Names bs name off) :
    lookup bs name = none := by
  unfold lookup
  rw [List.find?_eq_none.mpr fun off _ => by simpa using h off]
  rfl

theorem lookup_eq_some {bs name : List UInt8} {off : ℕ} (h : Names bs name off)
    (hfirst : ∀ o < off, ¬ Names bs name o) : lookup bs name = some (entry bs off).inum := by
  have hlt : off < bs.length := by
    have := h.isEntry.2
    simp only [direntBytes] at this
    omega
  have hfind : (List.range bs.length).find? (fun off => Names bs name off) = some off := by
    rw [List.find?_range_eq_some]
    exact ⟨by simpa using h, mem_range.mpr hlt, fun o ho => by simpa using hfirst o ho⟩
  unfold lookup
  rw [hfind]
  rfl

namespace Volume

/-- Successive lookups from inode `ip`; every inode in which a name is looked up is a directory. -/
def walk (v : Volume) : ℕ → List (List UInt8) → Option ℕ
  | ip, [] => some ip
  | ip, name :: names =>
    if (v.dinode ip).type = .dir then (lookup (v.contents ip) name).bind (v.walk · names) else none

def walkParent (v : Volume) : ℕ → List (List UInt8) → Option (ℕ × List UInt8)
  | _, [] => none
  | ip, [name] => if (v.dinode ip).type = .dir then some (ip, name) else none
  | ip, name :: names =>
    if (v.dinode ip).type = .dir then
      (lookup (v.contents ip) name).bind (v.walkParent · names) else none

/-- The parent is found from all elements but the last, and it is a directory. -/
theorem walkParent_eq (v : Volume) (names : List (List UInt8)) (hne : names ≠ []) : ∀ ip,
    v.walkParent ip names = (v.walk ip names.dropLast).bind fun dp =>
      if (v.dinode dp).type = .dir then some (dp, names.getLast hne) else none := by
  induction names with
  | nil => exact absurd rfl hne
  | cons name names ih =>
    intro ip
    cases names with
    | nil => rfl
    | cons name' names =>
      rw [walkParent, dropLast_cons_of_ne_nil (cons_ne_nil _ _), walk]
      · split
        · cases lookup (v.contents ip) name with
          | none => rfl
          | some next =>
            simp only [Option.bind_some]
            rw [ih (cons_ne_nil _ _) next, getLast_cons (cons_ne_nil _ _)]
        · rfl
      · exact cons_ne_nil _ _

end Volume

attribute [local simp] Volume.walkParent

/-- A tree of directories: entries name allocated inodes and fill their directories, and an inode
without links is held by somebody. The walk runs in a transaction, and the current directory is
referenced. -/
structure Tree (cwd : ℕ) (s : State P) : Prop where
  consistent : s.Consistent
  counted : s.Counted
  safe : Safe cwd s
  aligned : ∀ dp, s.disk.Allocated dp → (s.disk.dinode dp).type = .dir →
    Aligned (s.disk.contents dp)
  inOp : s.inOp = true
  cwd_pos : 0 < (s.inode cwd).ref

def taken : Option ℕ → ℕ → ℕ
  | none => 0
  | some ip => one ip

structure Resolved {α : Type} (ino : α → ℕ) (x : Option α) (s : State P) (r : Option α)
    (t : State P) : Prop where
  result : r = x
  holding : Holding (taken (r.map ino)) s t
  disk : t.disk = s.disk

theorem resolved_put {α : Type} {ino : α → ℕ} {ip : ℕ} (h : Tree cwd s)
    (ht : Holding (one ip) s t) (hd : t.disk = s.disk) :
    wp (do
      iunlockput ip
      return none) (Resolved ino none s) E t := by
  have h0 : Holding (0 + one ip) s t := ht.congr (zero_add _)
  have hlog : Logs E t := by
    intro hno
    rw [ht.inOp, h.inOp] at hno
    cases hno
  refine wp_seq (iunlockput_held hlog h0) (fun _ u hu => ?_)
  exact ⟨rfl, hu.2, h0.put_disk h.safe.1 hd hu.1⟩

def expected (v : Volume) (parent : Bool) (ip : ℕ) (names : List (List UInt8)) :
    Option (ℕ × List UInt8) :=
  if parent then v.walkParent ip names else (v.walk ip names).map (·, [])

attribute [local simp] expected

theorem namexLoop_resolves {parent : Bool} (hE : ninode ≤ s.used + 1 → E .noInodes) (h : Tree cwd s)
    (fuel : ℕ) :
    ∀ ip path (t : State P), path.length < fuel → Holding (one ip) s t → t.disk = s.disk →
      s.disk.Allocated ip → wp (namexLoop parent fuel ip path)
        (Resolved Prod.fst (expected s.disk parent ip (segments path)) s) E t := by
  induction fuel with
  | zero => exact fun ip path t hlt => absurd hlt (Nat.not_lt_zero _)
  | succ fuel ih =>
    intro ip path t hlt ht hd ha
    have hlog : ∀ u : State P, u.inOp = s.inOp → Logs E u := by
      intro u hu hno
      rw [hu, h.inOp] at hno
      cases hno
    unfold namexLoop
    split
    next hskip =>
      rw [skipelem_none hskip]
      split
      next hp =>
        have h0 : Holding (0 + one ip) s t := ht.congr (zero_add _)
        refine wp_seq (iput_held (hlog t ht.inOp) h0) (fun _ u hu => ?_)
        exact ⟨by simp [hp], hu.2, h0.put_disk h.safe.1 hd hu.1⟩
      next hp => exact ⟨by simp [hp, Volume.walk], ht, hd⟩
    next name rest hskip =>
      obtain ⟨hseg, hlast⟩ := skipelem_some hskip
      have hrest := (skipelem_eq_some hskip).2.1
      rw [hseg, wp_bind]
      have hpos : 0 < (t.inode ip).ref := ht.pos (by simp)
      refine wp_post (ilock_whole (.inr hpos) (.inr (hd ▸ ha.1)) (ht.consistent.cached ip)
        (.inr (hd ▸ ha.2))) (fun _ u hu => ?_)
      have hhold : Holding (one ip) s u := ht.step (hu.holding ht.consistent)
      have hdu : u.disk = s.disk := hu.disk.trans hd
      have hdin : (u.inode ip).din = s.disk.dinode ip := hu.din.trans (by rw [hd])
      simp only [wp_bind, wp_get]
      rw [hdin]
      split
      next hty =>
        have hnone : expected s.disk parent ip (name :: segments rest) = none := by
          unfold expected
          split
          · cases hs : segments rest with
            | nil => rw [Volume.walkParent, if_neg hty]
            | cons a l => rw [Volume.walkParent, if_neg hty]; exact cons_ne_nil _ _
          · rw [Volume.walk, if_neg hty]
            rfl
        rw [hnone]
        exact resolved_put h hhold hdu
      next hty =>
        rw [not_not] at hty
        split
        next hend =>
          rw [hlast.mpr hend.2]
          have hpos' : 0 < (u.inode ip).ref := hhold.pos (by simp)
          simp only [iunlock, wp_bind, wp_get]
          rw [if_neg (by omega)]
          exact ⟨by simp [hend.1, hty], hhold, hdu⟩
        next hmid =>
          have halign : ReadsWhole E .dirlookupRead ip u := .inr (hdu ▸ h.aligned ip ha hty)
          -- besides the entries of before, that of the directory is in use
          have hused : u.used ≤ s.used + 1 := hhold.used_le_one h.counted rfl
          refine wp_seq (dirlookup_whole (fun hfull => hE (hfull.trans hused)) halign
            hhold.consistent hu.locked (.inr (hdu ▸ hty))) (fun r v hr => ?_)
          obtain ⟨hr, hfirst⟩ := hr
          rw [← hdu] at hty
          -- the expected result is that of the rest from the inode found
          have hexp : ∀ x, lookup (u.disk.contents ip) name = x →
              expected s.disk parent ip (name :: segments rest) =
                x.bind (expected s.disk parent · (segments rest)) := by
            rintro x rfl
            rw [← hdu]
            unfold expected
            split
            next hp =>
              have hne : segments rest ≠ [] := fun hs => hmid ⟨hp, hlast.mp hs⟩
              rw [Volume.walkParent, if_pos hty]
              exact hne
            · rw [Volume.walk, if_pos hty, Option.map_bind]
              rfl
          cases r with
          | none =>
            obtain ⟨hv, hno⟩ := hr
            subst hv
            rw [hexp _ (lookup_eq_none hno)]
            exact resolved_put h hhold hdu
          | some x =>
            obtain ⟨next, off⟩ := x
            obtain ⟨hgot, hnames, rfl⟩ := hr
            rw [hexp _ (lookup_eq_some hnames (hfirst _ _ rfl)), Option.bind_some]
            have hv : Holding (one (entry (u.disk.contents ip) off).inum + one ip) s v :=
              (hhold.trans (hgot.holding hhold.consistent)).congr (add_comm _ _)
            have hdv : v.disk = s.disk := hgot.disk.trans hdu
            refine wp_seq (iunlockput_held (hlog v hv.inOp) hv) (fun _ w hw => ?_)
            refine ih _ rest w (by omega) hw.2 (hv.put_disk h.safe.1 hdv hw.1) ?_
            rw [hdu] at hty hnames ⊢
            exact h.safe.2.1.allocated ha hty hnames

def start (cwd : ℕ) (path : List UInt8) : ℕ := if path.head? = some slash then rootino else cwd

theorem namex_resolves {parent : Bool} (hE : ninode ≤ s.used + 1 → E .noInodes) (h : Tree cwd s)
    (path : List UInt8) :
    wp (namex cwd parent path)
      (Resolved Prod.fst (expected s.disk parent (start cwd path) (segments path)) s) E s := by
  unfold namex start
  split
  · rw [wp_bind]
    refine wp_post (iget_got fun hfull => hE (hfull.trans (Nat.le_succ _))) (fun _ t ht => ?_)
    exact namexLoop_resolves hE h _ rootino path t (by omega) (ht.holding h.consistent) ht.disk
      h.safe.2.2.2
  · rw [wp_bind]
    refine wp_post (idup_spec h.cwd_pos) (fun _ t ht => ?_)
    exact namexLoop_resolves hE h _ cwd path t (by omega) (ht.holding h.consistent) ht.disk
      h.safe.2.2.1

/-- Path resolution follows the path: `skipelem` yields its elements; `namei` returns the inode that
successive lookups of all elements find, and `nameiparent` the directory that those of all but the
last find, with the last as the name; the only reference taken is one to the inode returned. They
panic only if the inode table has less than two free entries, one for a directory and one for the
inode found in it. -/
theorem path_resolution (h : Tree cwd s) (path : List UInt8) :
    elems (path.length + 1) path = segments path ∧
    wp (namei cwd path) (Resolved id (s.disk.walk (start cwd path) (segments path)) s)
      (fun e => e = .noInodes ∧ ninode ≤ s.used + 1) s ∧
    wp (nameiparent cwd path) (Resolved Prod.fst (if hne : segments path = [] then none
        else (s.disk.walk (start cwd path) (segments path).dropLast).bind fun dp =>
          if (s.disk.dinode dp).type = .dir then some (dp, (segments path).getLast hne)
          else none) s)
      (fun e => e = .noInodes ∧ ninode ≤ s.used + 1) s := by
  refine ⟨elems_eq_segments _ path (Nat.lt_succ_self _), ?_, ?_⟩
  · unfold namei
    refine wp_seq (namex_resolves (fun hfull => ⟨rfl, hfull⟩) h path) (fun r t hr => ?_)
    rw [wp_pure]
    refine ⟨?_, ?_, hr.disk⟩
    · rw [hr.result]
      simp [Function.comp_def]
    · rw [Option.map_map]
      exact hr.holding
  · unfold nameiparent
    refine wp_post (namex_resolves (fun hfull => ⟨rfl, hfull⟩) h path) (fun r t hr => ?_)
    refine ⟨?_, hr.holding, hr.disk⟩
    rw [hr.result]
    split
    next hs => simp [hs]
    next hs => simp [Volume.walkParent_eq _ _ hs]

/-- A disk on which only the root directory is allocated, and its entries name itself. -/
theorem safe_of_root {v : Volume} (honly : ∀ i, v.Allocated i → i = rootino)
    (hroot : v.Allocated rootino) {n : ℕ} (hsize : (v.dinode rootino).size = n * direntBytes)
    (hall : ∀ k < n, (entry (v.contents rootino) (k * direntBytes)).inum = 0 ∨
      (entry (v.contents rootino) (k * direntBytes)).inum = rootino) :
    v.NoDangling ∧ ∀ dp, v.Allocated dp → Aligned (v.contents dp) := by
  have hlen := Volume.length_contents hroot
  rw [hsize] at hlen
  constructor
  · intro dp x off hx _ hent hn
    obtain ⟨ha, hbytes⟩ := Volume.info_eq_some.mp hx
    obtain rfl := honly dp ha
    have hbytes : v.contents rootino = x.bytes := congrArg Info.bytes hbytes
    rw [← hbytes] at hent hn ⊢
    have h1 := hent.1
    have h2 := hent.2
    have hk := hall (off / direntBytes) (by simp only [direntBytes] at *; omega)
    rw [show off / direntBytes * direntBytes = off by simp only [direntBytes] at *; omega] at hk
    rw [hk.resolve_left hn]
    exact hroot
  · intro dp hdp
    obtain rfl := honly dp hdp
    unfold Aligned
    rw [hlen, Nat.mul_mod_left]

/-- The image of mkfs after booting, in a transaction. -/
def rootState : State Unit := (State.boot rootImage ()).beginOp

theorem tree_rootState : Tree rootino rootState := by
  have honly i (h : rootImage.Allocated i) : i = rootino := by
    by_contra hi
    exact h.2 (by rw [rootImage, dinode_image_none hi rfl]; rfl)
  have hroot : rootImage.Allocated rootino := ⟨by decide, by decide⟩
  obtain ⟨hdangling, haligned⟩ := safe_of_root honly hroot (n := 64)
    (by simp [rootImage, image, bsize, direntBytes]) (by decide +kernel)
  refine ⟨⟨sound_rootImage, noHole_rootImage, fun i hi => ?_⟩, State.counted_one (fun _ => rfl) rfl,
    ⟨fun i hi hz => ?_, hdangling, hroot, hroot⟩, fun dp hdp _ => haligned dp hdp, rfl, by decide⟩
  · exact absurd hi.2 (by simp [rootState, State.boot])
  · obtain rfl := honly i hi
    exact absurd hz (by decide)

/-- The path `/.//../abc`. -/
def dotsPath : List UInt8 := [47, 46, 47, 47, 46, 46, 47, 97, 98, 99]

theorem rootState_returns {α : Type} {m : FsM Unit α} {Q : α → State Unit → Prop}
    (h : wp m Q (fun e => e = .noInodes ∧ ninode ≤ rootState.used + 1) rootState) :
    ∃ r t, m rootState = .ok (r, t) ∧ Q r t :=
  wp_total (wp_mono h (fun _ _ => id) fun _ he => absurd he.2 (by decide))

/-- The path has three elements. The first two lead to the root, where there is no `abc`: `namei`
returns 0 for the path, and the root without the last element, as `nameiparent` does with it. -/
theorem path_resolution_dots : segments dotsPath = [[46], [46, 46], [97, 98, 99]] ∧
    (∃ t, namei rootino dotsPath rootState = .ok (none, t)) ∧
    (∃ t, namei rootino (dotsPath.take 6) rootState = .ok (some rootino, t)) ∧
    ∃ t, nameiparent rootino dotsPath rootState = .ok (some (rootino, [97, 98, 99]), t) := by
  have hnamei path r (hr : rootState.disk.walk (start rootino path) (segments path) = r) :
      ∃ t, namei rootino path rootState = .ok (r, t) := by
    obtain ⟨r', t, hrun, hres⟩ := rootState_returns (path_resolution tree_rootState path).2.1
    exact ⟨t, by rw [hrun, hres.result, hr]⟩
  have hparent path r (hr : (if hne : segments path = [] then none
      else (rootState.disk.walk (start rootino path) (segments path).dropLast).bind fun dp =>
        if (rootState.disk.dinode dp).type = .dir then some (dp, (segments path).getLast hne)
          else none) = r) : ∃ t, nameiparent rootino path rootState = .ok (r, t) := by
    obtain ⟨r', t, hrun, hres⟩ := rootState_returns (path_resolution tree_rootState path).2.2
    exact ⟨t, by rw [hrun, hres.result, hr]⟩
  exact ⟨by decide, hnamei _ _ (by decide +kernel), hnamei _ _ (by decide +kernel),
    hparent _ _ (by decide +kernel)⟩

end Xv6.Fs
