import Mathlib.Data.List.GetD
import Mathlib.Data.List.TakeWhile
import Xv6.Fs.Lookup
import Xv6.Lib.Slots

/-! A directory is a finite map. Its entries are slots that hold a name, cut to `DIRSIZ` bytes, and
an inode number; `dirlink` puts a new name in a free slot and `sys_unlink` clears a slot. -/
namespace Xv6.Fs
open Function Hoare Slots List Volume
variable {P : Type} {E : Panic → Prop} {s t : State P} {dp off : ℕ} {nm bs : List UInt8}
  {e : Dirent} {m : List UInt8 → Option ℕ}

/-- What a name is compared by: its first `DIRSIZ` bytes, up to a NUL. -/
def key (name : List UInt8) : List UInt8 := (name.take dirsiz).takeWhile (· != 0)

/-- For a string, which has no NUL in it, that is the name cut to `DIRSIZ` bytes. -/
theorem key_of_string (h : 0 ∉ nm) : key nm = nm.take dirsiz := by
  unfold key
  rw [takeWhile_eq_self_iff]
  intro b hb
  have hne : b ≠ 0 := by
    rintro rfl
    exact h (mem_of_mem_take hb)
  simpa using hne

theorem strncmp_iff (n : ℕ) : ∀ p q : List UInt8, strncmp n p q = true ↔
    (p.take n).takeWhile (· != 0) = (q.take n).takeWhile (· != 0) := by
  induction n with
  | zero =>
    intro p q
    simp [strncmp]
  | succ n ih =>
    intro p q
    unfold strncmp
    cases p with
    | nil =>
      cases q with
      | nil => simp
      | cons b q =>
        by_cases hb : b = 0
        · simp [hb]
        · simp [hb, Ne.symm hb]
    | cons a p =>
      cases q with
      | nil =>
        by_cases ha : a = 0
        · simp [ha]
        · simp [ha]
      | cons b q =>
        by_cases ha : a = 0
        · by_cases hb : b = 0
          · simp [ha, hb]
          · simp [ha, hb, Ne.symm hb]
        obtain rfl | hab := eq_or_ne a b
        · simp [ha, ih]
        · by_cases hb : b = 0
          · simp [ha, hb]
          · simp [ha, hb, hab]

theorem namecmp_iff (p q : List UInt8) : namecmp p q = true ↔ key p = key q :=
  strncmp_iff dirsiz p q

theorem key_strncpy (name : List UInt8) : key (strncpy dirsiz name) = key name := by
  unfold key strncpy
  rw [take_take, min_self, take_append, takeWhile_append]
  split
  next hall =>
    have hzeros : ((List.replicate dirsiz (0 : UInt8)).take (dirsiz - name.length)).takeWhile
        (· != 0) = [] := by
      rw [take_replicate]
      cases min (dirsiz - name.length) dirsiz with
      | zero => rfl
      | succ k => simp [replicate_succ]
    rw [hzeros, append_nil]
    exact ((takeWhile_sublist _).eq_of_length hall).symm
  · rfl

instance (bs : List UInt8) (off : ℕ) : Decidable (IsEntry bs off) :=
  inferInstanceAs (Decidable (_ ∧ _))

def live (bs : List UInt8) (off : ℕ) : Option (List UInt8 × ℕ) :=
  if IsEntry bs off ∧ (entry bs off).inum ≠ 0 then
    some (key (entry bs off).name, (entry bs off).inum)
  else none

theorem live_eq_some {k : List UInt8} {i : ℕ} : live bs off = some (k, i) ↔
    IsEntry bs off ∧ (entry bs off).inum ≠ 0 ∧ key (entry bs off).name = k ∧
      (entry bs off).inum = i := by
  unfold live
  split
  next h => simp [h]
  next h =>
    constructor
    · nofun
    · exact fun hc => absurd ⟨hc.1, hc.2.1⟩ h

private theorem names_iff : Names bs nm off ↔ live bs off = some (key nm, (entry bs off).inum) := by
  rw [live_eq_some]
  constructor
  · exact fun h => ⟨h.isEntry, h.used, ((namecmp_iff _ _).mp h.name).symm, rfl⟩
  · exact fun h => ⟨h.1, h.2.1, (namecmp_iff _ _).mpr h.2.2.1.symm⟩

private theorem not_names_iff (h : Maps (live bs) m) :
    (∀ off, ¬ Names bs nm off) ↔ m (key nm) = none := by
  rw [h.eq_none_iff]
  constructor
  · intro hno off i hl
    refine hno off (names_iff.mpr ?_)
    rw [hl, (live_eq_some.mp hl).2.2.2]
  · exact fun hno off hn => hno off _ (names_iff.mp hn)

theorem ofBytes_bytes (hi : e.inum < 2 ^ 16) (hn : e.name.length = dirsiz) :
    Dirent.ofBytes e.bytes = e := by
  have h1 : (UInt8.ofNat e.inum).toNat + 256 * (UInt8.ofNat (e.inum / 256)).toNat = e.inum := by
    simp only [UInt8.toNat_ofNat']
    omega
  have h2 : (e.bytes.drop 2).take dirsiz = e.name := by simp [Dirent.bytes, ← hn]
  obtain ⟨inum, nm⟩ := e
  simp only [Dirent.ofBytes, h2]
  exact congrArg (Dirent.mk · nm) h1

section Overwrite
variable {a b : List UInt8}

private theorem getElem_overwrite {k : ℕ} (hk : k < (overwrite a off b).length) :
    (overwrite a off b)[k] =
      if off ≤ k ∧ k < off + b.length then b.getD (k - off) 0 else a.getD k 0 := by
  simp [overwrite]

theorem take_drop_overwrite_self {n : ℕ} (hb : b.length = n) :
    ((overwrite a off b).drop off).take n = b := by
  apply ext_getElem
  · simp only [length_take, List.length_drop, length_overwrite]
    omega
  · intro k hk hk'
    simp only [getElem_take, getElem_drop, getElem_overwrite]
    rw [if_pos (by omega), Nat.add_sub_cancel_left, getD_eq_getElem _ _ hk']

theorem take_drop_overwrite_other {n o : ℕ} (hb : b.length = n) (ho : o + n ≤ a.length)
    (hdis : o + n ≤ off ∨ off + n ≤ o) :
    ((overwrite a off b).drop o).take n = (a.drop o).take n := by
  apply ext_getElem
  · simp only [length_take, List.length_drop, length_overwrite]
    omega
  · intro k hk hk'
    simp only [length_take, List.length_drop] at hk'
    simp only [getElem_take, getElem_drop, getElem_overwrite]
    rw [if_neg (by omega), getD_eq_getElem]

end Overwrite

def Aligned (bs : List UInt8) : Prop := bs.length % direntBytes = 0

theorem Aligned.overwrite (h : Aligned bs) (hoff : off % direntBytes = 0)
    (hn : e.name.length = dirsiz) : Aligned (overwrite bs off e.bytes) := by
  have hlen : e.bytes.length = direntBytes := by simp [Dirent.bytes, hn]
  unfold Aligned at h ⊢
  rw [length_overwrite, hlen]
  simp only [direntBytes] at *
  omega

theorem live_overwrite (h : Aligned bs) (hoff : off % direntBytes = 0) (hle : off ≤ bs.length)
    (hi : e.inum < 2 ^ 16) (hn : e.name.length = dirsiz) :
    live (overwrite bs off e.bytes) = update (live bs) off
      (if e.inum = 0 then none else some (key e.name, e.inum)) := by
  have hlen : e.bytes.length = direntBytes := by simp [Dirent.bytes, hn]
  funext o
  obtain rfl | ho := eq_or_ne o off
  · have hent : entry (overwrite bs o e.bytes) o = e := by
      rw [entry, take_drop_overwrite_self hlen, ofBytes_bytes hi hn]
    have his : IsEntry (overwrite bs o e.bytes) o := by
      refine ⟨hoff, ?_⟩
      rw [length_overwrite, hlen]
      omega
    rw [update_self, live, hent]
    by_cases hz : e.inum = 0
    · rw [if_pos hz, if_neg fun hc => hc.2 hz]
    · rw [if_neg hz, if_pos ⟨his, hz⟩]
  · rw [update_of_ne ho]
    have hiff : IsEntry (overwrite bs off e.bytes) o ↔ IsEntry bs o := by
      unfold IsEntry
      unfold Aligned at h
      rw [length_overwrite, hlen]
      simp only [direntBytes] at *
      omega
    by_cases hin : IsEntry bs o
    · have hent : entry (overwrite bs off e.bytes) o = entry bs o := by
        rw [entry, entry, take_drop_overwrite_other hlen hin.2]
        have h1 := hin.1
        simp only [direntBytes] at *
        omega
      rw [live, live, hent]
      simp only [hiff]
    · rw [live, live, if_neg fun hc => hin (hiff.mp hc.1), if_neg fun hc => hin hc.1]

/-- Directory `dp`, locked in a transaction, stands for the map `m`. -/
structure IsDir (dp : ℕ) (s : State P) (m : List UInt8 → Option ℕ) : Prop where
  consistent : s.Consistent
  locked : s.Locked dp
  counted : s.Counted
  inOp : s.inOp = true
  dir : (s.disk.dinode dp).type = .dir
  aligned : Aligned (s.disk.contents dp)
  maps : Maps (live (s.disk.contents dp)) m

/-- The removal of an entry, after `sys_unlink`. -/
def unlinkEntry (dp : ℕ) (name : List UInt8) : FsM P Bool := do
  match ← dirlookup dp name with
  | none => return false
  | some (ip, off) =>
    let r ← writei dp Dirent.zero.src off direntBytes
    if r ≠ some direntBytes then throw .unlinkWritei
    else
      iput ip
      return true

inductive DirOp where
  | link (name : List UInt8) (inum : ℕ)
  | unlink (name : List UInt8)

namespace DirOp

def entryName : DirOp → List UInt8
  | link nm _ | unlink nm => nm

def value : DirOp → Option ℕ
  | link _ inum => some inum
  | unlink _ => none

/-- A name is a string that is not empty, and an inode number is a `ushort` other than zero. -/
def Valid : DirOp → Prop
  | link name inum => name ≠ [] ∧ 0 ∉ name ∧ 0 < inum ∧ inum < 2 ^ 16
  | unlink name => name ≠ [] ∧ 0 ∉ name

def exec (dp : ℕ) : DirOp → FsM P Bool
  | link name inum => dirlink dp name inum
  | unlink name => unlinkEntry dp name

/-- The operation on maps; `r` says whether it succeeds. -/
def after (op : DirOp) (m : List UInt8 → Option ℕ) (r : Bool) : List UInt8 → Option ℕ :=
  if r then update m (key op.entryName) op.value else m

/-- When it succeeds: a link if the name is not there and there is room for it, a removal if the
name is there. -/
def Succeeds (dp : ℕ) (s : State P) (m : List UInt8 → Option ℕ) : DirOp → Prop
  | link name _ => m (key name) = none ∧ EntryRoom dp s
  | unlink name => m (key name) ≠ none

/-- One operation does to the directory what it does to the map. -/
structure Simulates (dp : ℕ) (op : DirOp) (s : State P) (m : List UInt8 → Option ℕ) (r : Bool)
    (t : State P) : Prop where
  isDir : IsDir dp t (op.after m r)
  succeeds : r = true ↔ op.Succeeds dp s m
  fail : r = false → live (t.disk.contents dp) = live (s.disk.contents dp)
  /-- Other names keep their inode numbers and their offsets. -/
  others : ∀ k, k ≠ key op.entryName → ∀ off i,
    live (t.disk.contents dp) off = some (k, i) ↔ live (s.disk.contents dp) off = some (k, i)
  used : t.used ≤ s.used

end DirOp

theorem contents_of_info {v v' : Volume} {i : ℕ} (h : v'.info i = v.info i) :
    v'.contents i = v.contents i := by
  by_cases ha : v.Allocated i
  · rw [info_of_allocated ha] at h
    obtain ⟨_, hx⟩ := info_eq_some.mp h
    exact congrArg Info.bytes hx
  rw [info_of_not_allocated ha] at h
  have ha' : ¬ v'.Allocated i := by
    intro hc
    rw [info_of_allocated hc] at h
    cases h
  rw [Volume.contents, Volume.contents, if_neg ha, if_neg ha']

namespace IsDir

section
variable (h : IsDir dp s m)
include h

theorem logs : Logs E s := by
  intro hno
  rw [h.inOp] at hno
  cases hno

theorem readsWhole (err : Panic) : ReadsWhole E err dp s := .inr h.aligned

/-- `dirlookup` finds the inode number and the offset of its entry. -/
theorem dirlookup (hE : ninode ≤ s.used → E .noInodes) (name : List UInt8) :
    wp (Fs.dirlookup dp name) (fun r t => match r with
      | none => t = s ∧ m (key name) = none
      | some (i, off) => Got i s t ∧ m (key name) = some i ∧
          live (s.disk.contents dp) off = some (key name, i)) E s := by
  refine wp_post (dirlookup_whole hE (h.readsWhole _) h.consistent h.locked (.inr h.dir))
    (fun r t hr => ?_)
  replace hr := hr.1
  cases r with
  | none => exact ⟨hr.1, (not_names_iff h.maps).mp hr.2⟩
  | some x =>
    obtain ⟨i, off⟩ := x
    obtain ⟨hgot, hn, rfl⟩ := hr
    have hl := names_iff.mp hn
    exact ⟨hgot, (h.maps.value _ _).mpr ⟨off, hl⟩, hl⟩

theorem of_holding {m' : List UInt8 → Option ℕ} (ht : Holding 0 s t)
    (hty : (t.disk.dinode dp).type = (s.disk.dinode dp).type)
    (hal : Aligned (t.disk.contents dp)) (hm : Maps (live (t.disk.contents dp)) m') :
    IsDir dp t m' :=
  ⟨ht.consistent, ht.locked dp h.locked, ht.counted h.counted, ht.inOp.trans h.inOp,
    hty.trans h.dir, hal, hm⟩

end

private theorem type_of_info {x : Info} {v : Volume} (h : v.info dp = some x) :
    (v.dinode dp).type = x.type := by
  obtain ⟨_, rfl⟩ := info_eq_some.mp h
  rfl

theorem unchanged (h : IsDir dp s m) (ht : Holding 0 s t) (hinfo : t.disk.info = s.disk.info) :
    IsDir dp t m ∧ t.disk.contents dp = s.disk.contents dp := by
  have hc := contents_of_info (congrFun hinfo dp)
  have ha := (h.consistent.cached dp h.locked).2
  refine ⟨h.of_holding ht ?_ (hc ▸ h.aligned) (hc ▸ h.maps), hc⟩
  have hx := info_of_allocated ha
  rw [← hinfo] at hx
  exact type_of_info hx

theorem entered (h : IsDir dp s m) (ht : Entered dp off e s t) (hoff : off % direntBytes = 0)
    (hle : off ≤ (s.disk.contents dp).length) (hi : e.inum < 2 ^ 16) (hn : e.name.length = dirsiz) :
    live (t.disk.contents dp) = update (live (s.disk.contents dp)) off
      (if e.inum = 0 then none else some (key e.name, e.inum)) ∧
    ∀ m', Maps (live (t.disk.contents dp)) m' → IsDir dp t m' := by
  have hx : t.disk.info dp = some (.of (s.disk.dinode dp)
      (overwrite (s.disk.contents dp) off e.bytes)) := by
    rw [ht.info, update_self]
  have hc : t.disk.contents dp = overwrite (s.disk.contents dp) off e.bytes := by
    obtain ⟨_, hx⟩ := info_eq_some.mp hx
    exact congrArg Info.bytes hx
  refine ⟨hc ▸ live_overwrite h.aligned hoff hle hi hn, fun m' hm => ?_⟩
  exact h.of_holding ht.holding (type_of_info hx) (hc ▸ h.aligned.overwrite hoff hn) hm

end IsDir

theorem Vacant.live_eq_none (h : Vacant bs off) : live bs off = none := by
  refine if_neg fun hc => ?_
  rcases h.empty with hz | hend
  · exact hc.2 hz.2
  · have := hc.1.2
    simp only [direntBytes] at this
    omega

theorem Vacant.le (h : Vacant bs off) : off ≤ bs.length := by
  rcases h.empty with hz | hend
  · exact (Nat.le_add_right _ _).trans hz.1
  · exact hend.le

namespace DirOp

theorem link_simulates {inum : ℕ} (hE : ninode ≤ s.used → E .noInodes) (h : IsDir dp s m)
    (hv : (link nm inum).Valid) :
    wp (dirlink dp nm inum) (Simulates dp (link nm inum) s m) E s := by
  obtain ⟨_, _, hpos, hlt⟩ := hv
  refine wp_post (dirlink_whole hE h.logs (h.readsWhole _) (h.readsWhole _) h.consistent h.locked
    (.inr h.dir) inum) ?_
  rintro r t ⟨hl, hiff⟩
  rw [not_names_iff h.maps] at hiff
  cases r with
  | false =>
    obtain ⟨hd, hc⟩ := h.unchanged hl.holding (hl.fail rfl)
    exact ⟨hd, hiff, fun _ => by rw [hc], fun _ _ _ _ => by rw [hc],
      hl.holding.used_le_zero h.counted rfl⟩
  | true =>
    obtain ⟨_, off, hvac, hent⟩ := hl.ok rfl
    obtain ⟨hlive, hdir⟩ := h.entered hent hvac.aligned hvac.le hlt (length_strncpy _ _)
    rw [if_neg (show inum ≠ 0 by omega), key_strncpy] at hlive
    refine ⟨hdir _ ?_, hiff, nofun, fun k hk o i => ?_, hl.holding.used_le_zero h.counted rfl⟩
    · rw [hlive]
      exact h.maps.put hvac.live_eq_none (hiff.mp rfl).1 inum
    · rw [hlive]
      refine Maps.update_other (k := key nm) (fun _ _ hc => ?_) (fun _ _ hc => ?_) hk o i
      · rw [hvac.live_eq_none] at hc
        cases hc
      · cases hc
        rfl

/-- The reference taken by `dirlookup` is given back, and the directory is as it was. -/
theorem put_got {ip : ℕ} {u : State P} (hE : Logs E s) (hd : s.Locked dp)
    (hu : Holding (0 + one ip) s u) {Q : Unit → State P → Prop}
    (hQ : ∀ v, Holding 0 s v → (v.disk.dinode dp) = u.disk.dinode dp →
      v.disk.contents dp = u.disk.contents dp → Q () v) : wp (iput ip) Q E u := by
  refine wp_post (iput_held (hE.congr hu.inOp) hu) (fun _ v hv => ?_)
  obtain ⟨hput, hv⟩ := hv
  by_cases hfree : (u.inode ip).ref = 1 ∧ u.Locked ip ∧ (u.disk.dinode ip).nlink = 0
  · -- the directory has a reference of its own, so it is not the inode that is freed
    have hne : dp ≠ ip := by
      rintro rfl
      have hr := hu.ref dp
      rw [zero_add, one_self] at hr
      have := hd.1
      omega
    have hsame := (hput.free hfree.1 hfree.2.1 hfree.2.2).1 dp hne
    exact hQ v hv hsame.dinode (hsame.contents hput.sb hu.consistent.noHole)
  · have hdisk := hput.keep hfree
    exact hQ v hv (by rw [hdisk]) (by rw [hdisk])

theorem unlink_simulates (hE : ninode ≤ s.used → E .noInodes) (h : IsDir dp s m) :
    wp (unlinkEntry dp nm) (Simulates dp (unlink nm) s m) E s := by
  unfold unlinkEntry
  refine wp_seq (h.dirlookup hE nm) (fun r t hr => ?_)
  cases r with
  | none =>
    obtain ⟨rfl, hno⟩ := hr
    exact ⟨h, ⟨nofun, fun hc => absurd hno hc⟩, fun _ => rfl, fun _ _ _ _ => Iff.rfl, le_rfl⟩
  | some x =>
    obtain ⟨ip, off⟩ := x
    obtain ⟨hgot, hm, hlive⟩ := hr
    have hzero : Dirent.zero.name.length = dirsiz := length_replicate
    have hin := (live_eq_some.mp hlive).1
    have ht := hgot.holding h.consistent
    have hlt := ht.locked dp h.locked
    have hlen := length_contents_le h.consistent h.locked
    have htd : IsDir dp t m := ⟨ht.consistent, hlt, ht.counted h.counted, ht.inOp.trans h.inOp,
      hgot.disk ▸ h.dir, hgot.disk ▸ h.aligned, hgot.disk ▸ h.maps⟩
    dsimp only
    refine wp_seq (writei_entry htd.logs ht.consistent hlt hin.1 hzero) ?_
    rintro r u ⟨hu, hiff⟩
    obtain rfl := hiff.mpr (writable_of_entry ht.consistent hlt (hgot.disk ▸ hin.2))
    rw [if_pos rfl] at hu
    obtain ⟨hupd, hdir⟩ := htd.entered hu hin.1
      (hgot.disk ▸ (Nat.le_add_right _ _).trans hin.2) (by decide) hzero
    rw [if_pos (show Dirent.zero.inum = 0 from rfl), hgot.disk] at hupd
    have hmaps := h.maps.erase hlive
    rw [← hupd] at hmaps
    rw [if_neg (by simp), wp_bind]
    refine put_got h.logs h.locked ((ht.step hu.holding).congr (zero_add _)) fun v hv hdin hc => ?_
    have hud := hdir _ hmaps
    refine ⟨⟨hv.consistent, hv.locked dp h.locked, hv.counted h.counted, hv.inOp.trans h.inOp,
      hdin ▸ hud.dir, hc ▸ hud.aligned, hc ▸ hmaps⟩, ⟨fun _ => ?_, fun _ => rfl⟩, nofun,
      fun k hk o i => ?_, hv.used_le_zero h.counted rfl⟩
    · rw [Succeeds, hm]
      nofun
    · rw [hc, hupd]
      refine Maps.update_other (k := key nm) (fun _ _ hl => ?_) nofun hk o i
      rw [hlive] at hl
      cases hl
      rfl

theorem exec_simulates (op : DirOp) (hE : ninode ≤ s.used → E .noInodes) (h : IsDir dp s m)
    (hv : op.Valid) : wp (op.exec dp) (op.Simulates dp s m) E s := by
  cases op with
  | link nm inum => exact link_simulates hE h hv
  | unlink nm => exact unlink_simulates hE h

def execAll (dp : ℕ) : List DirOp → FsM P (List Bool)
  | [] => return []
  | op :: ops => do
    let r ← op.exec dp
    let rs ← execAll dp ops
    return r :: rs

/-- The map after the operations of which `rs` says whether they succeeded: a name stands for what
the last successful operation on it gave it. -/
def afterAll : (List UInt8 → Option ℕ) → List DirOp → List Bool → List UInt8 → Option ℕ
  | m, op :: ops, r :: rs => afterAll (op.after m r) ops rs
  | m, _, _ => m

def Conforms (dp : ℕ) :
    State P → (List UInt8 → Option ℕ) → List DirOp → List Bool → State P → Prop
  | s, _, [], [], t => t = s
  | s, m, op :: ops, r :: rs, t =>
    ∃ u, op.Simulates dp s m r u ∧ Conforms dp u (op.after m r) ops rs t
  | _, _, _, _, _ => False

theorem execAll_conforms (ops : List DirOp) : ∀ (s : State P) m,
    (ninode ≤ s.used → E .noInodes) → IsDir dp s m → (∀ op ∈ ops, op.Valid) →
    wp (execAll dp ops) (fun rs t => Conforms dp s m ops rs t ∧
      IsDir dp t (afterAll m ops rs) ∧ t.used ≤ s.used) E s := by
  induction ops with
  | nil => exact fun s m _ h _ => ⟨rfl, h, le_rfl⟩
  | cons op ops ih =>
    intro s m hE h hops
    simp only [execAll, wp_bind]
    refine wp_post (op.exec_simulates hE h (hops op mem_cons_self)) ?_
    intro r u hu
    refine wp_post (ih u _ (fun hfull => hE (hfull.trans hu.used)) hu.isDir
      fun o ho => hops o (mem_cons_of_mem op ho)) ?_
    rintro rs t ⟨hc, hd, hle⟩
    exact ⟨⟨u, hu, hc⟩, hd, hle.trans hu.used⟩

end DirOp

/-- A directory is a finite map from names cut to `DIRSIZ` bytes. In a sequence of links and
removals (they panic only if the inode table is full) every operation succeeds just when it should
and does to the directory what it does to the map, and then `dirlookup` of any name finds what the
map has, with the offset of the one entry that has the name. -/
theorem directory_is_map (h : IsDir dp s m) (ops : List DirOp) (hops : ∀ op ∈ ops, op.Valid) :
    wp (DirOp.execAll dp ops) (fun rs t => DirOp.Conforms dp s m ops rs t ∧
      Maps (live (t.disk.contents dp)) (DirOp.afterAll m ops rs) ∧
      ∀ nm, 0 ∉ nm → wp (dirlookup dp nm) (fun r _ => match r with
        | none => DirOp.afterAll m ops rs (nm.take dirsiz) = none
        | some (i, off) => DirOp.afterAll m ops rs (nm.take dirsiz) = some i ∧
            live (t.disk.contents dp) off = some (nm.take dirsiz, i))
          (fun e => e = .noInodes ∧ ninode ≤ s.used) t)
      (fun e => e = .noInodes ∧ ninode ≤ s.used) s := by
  refine wp_post (DirOp.execAll_conforms ops s m (fun hfull => ⟨rfl, hfull⟩) h hops) ?_
  rintro rs t ⟨hc, hd, hle⟩
  refine ⟨hc, hd.maps, fun nm hnul => ?_⟩
  rw [← key_of_string hnul]
  refine wp_post (hd.dirlookup (fun hfull => ⟨rfl, hfull.trans hle⟩) nm) (fun r u hr => ?_)
  cases r with
  | none | some x => exact hr.2

def emptyDir : Volume := emptyFile.setDinode 1 ((emptyFile.dinode 1).setType .dir)

def emptyDirState : State Unit :=
  { emptyFileState with
    disk := emptyDir
    inode := fun i => ⟨if i = 1 then 1 else 0, i = 1, emptyDir.dinode i⟩ }

theorem size_emptyDir (i : ℕ) : (emptyDir.dinode i).size = 0 := by
  obtain rfl | hi := eq_or_ne i 1
  · rfl
  · simp [emptyDir, emptyFile, hi]

theorem isDir_emptyDirState : IsDir 1 emptyDirState fun _ => none where
  consistent := by
    refine ⟨sound_emptyFile.setDinode ⟨by decide, by decide⟩ (by decide) rfl, ?_, ?_⟩
    · intro i bn _ hlt
      change bn * bsize < (emptyDir.dinode i).size at hlt
      rw [size_emptyDir] at hlt
      omega
    · intro i hi
      have h1 : i = 1 := by simpa [emptyDirState] using hi.2
      subst h1
      exact ⟨rfl, by decide⟩
  locked := ⟨by decide, by decide⟩
  counted := State.counted_one (fun _ => rfl) rfl
  inOp := rfl
  dir := rfl
  aligned := rfl
  maps := by
    have hempty : emptyDirState.disk.contents 1 = [] := by decide
    have hnone off : live (emptyDirState.disk.contents 1) off = none := by
      rw [hempty]
      exact if_neg fun hc => absurd hc.1.2 (by simp [direntBytes])
    constructor
    · intro i j k v w hi
      rw [hnone] at hi
      cases hi
    · intro k v
      simp [hnone]

def relinkOps : List DirOp := [.link [97] 5, .link [97] 6, .unlink [97], .link [97] 7]

/-- `a` is linked twice, removed and linked again; the second link fails. -/
theorem directory_is_map_relink : ∃ rs t, DirOp.execAll 1 relinkOps emptyDirState = .ok (rs, t) ∧
    rs = [true, false, true, true] ∧
    DirOp.Conforms 1 emptyDirState (fun _ => none) relinkOps rs t ∧
    Maps (live (t.disk.contents 1)) (DirOp.afterAll (fun _ => none) relinkOps rs) := by
  have hall ops (hv : ∀ op ∈ ops, op.Valid) rs t
      (hok : DirOp.execAll 1 ops emptyDirState = .ok (rs, t)) : DirOp.Conforms 1 emptyDirState
      (fun _ => none) ops rs t ∧ Maps (live (t.disk.contents 1))
      (DirOp.afterAll (fun _ => none) ops rs) := by
    have hwp := directory_is_map isDir_emptyDirState ops hv
    have hspec := wp_ok hwp hok
    exact ⟨hspec.1, hspec.2.1⟩
  have hrun : (DirOp.execAll 1 relinkOps emptyDirState).toOption.map Prod.fst =
      some [true, false, true, true] := by decide +kernel
  obtain ⟨⟨rs, t⟩, hx, hrs⟩ := Option.map_eq_some_iff.mp hrun
  have hok := toOption_eq_some.mp hx
  exact ⟨rs, t, hok, hrs, hall relinkOps (by simp [relinkOps, DirOp.Valid]) rs t hok⟩

end Xv6.Fs
