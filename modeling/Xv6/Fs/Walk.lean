import Mathlib.Data.List.TakeWhile
import Xv6.Fs.Lookup

/-! Path names: a walk takes one reference to the inode it returns, changes nothing on disk, and
meets no free inode as long as no entry of a directory names one. -/
namespace Xv6.Fs
open Hoare List
variable {P : Type} {E : Panic → Prop} {s t u : State P} {ip cwd : ℕ} {path name : List UInt8}

structure IsElem (path name : List UInt8) : Prop where
  nonempty : name ≠ []
  noSlash : slash ∉ name
  short : name.length ≤ dirsiz
  sub : ∀ b ∈ name, b ∈ path

theorem skipelem_eq_some {rest : List UInt8} (h : skipelem path = some (name, rest)) :
    IsElem path name ∧ rest.length < path.length ∧ ∀ b ∈ rest, b ∈ path := by
  unfold skipelem at h
  split at h
  · cases h
  next c cs hc =>
    cases h
    have hsub : ∀ b ∈ c :: cs, b ∈ path := by
      intro b hb
      rw [← hc] at hb
      exact (dropWhile_sublist _).subset hb
    have hcne : c ≠ slash := by
      have hhead := head_dropWhile_not (· == slash) (l := path) (by simp [hc])
      simpa [hc] using hhead
    have hcb : (c != slash) = true := by simpa using hcne
    have hlen : (c :: cs).length ≤ path.length := by
      rw [← hc]
      exact (dropWhile_sublist _).length_le
    refine ⟨⟨?_, ?_, ?_, ?_⟩, ?_, ?_⟩
    · simp [hcb, dirsiz]
    · intro hs
      have hm := mem_takeWhile_imp (mem_of_mem_take hs)
      simp at hm
    · exact length_take_le _ _
    · intro b hb
      exact hsub b ((takeWhile_sublist _).subset (mem_of_mem_take hb))
    · refine lt_of_lt_of_le ?_ hlen
      rw [dropWhile_cons, if_pos hcb]
      have h1 := (dropWhile_sublist (l := cs.dropWhile (· != slash)) (· == slash)).length_le
      have h2 := (dropWhile_sublist (l := cs) (· != slash)).length_le
      simp only [length_cons]
      omega
    · intro b hb
      refine hsub b ?_
      exact (dropWhile_sublist _).subset ((dropWhile_sublist _).subset hb)

def Volume.NoDangling (v : Volume) : Prop :=
  ∀ dp x off, v.info dp = some x → x.type = .dir → IsEntry x.bytes off →
    (entry x.bytes off).inum ≠ 0 → v.Allocated (entry x.bytes off).inum

theorem Volume.NoDangling.allocated {v : Volume} {dp off : ℕ} (h : v.NoDangling)
    (ha : v.Allocated dp) (hdir : (v.dinode dp).type = .dir)
    (hn : Names (v.contents dp) name off) : v.Allocated (entry (v.contents dp) off).inum :=
  h dp (.of (v.dinode dp) (v.contents dp)) off (info_of_allocated ha) hdir hn.isEntry hn.used

/-- A walk from `s` has found the inode and has one reference to it; with `parent` it is the
directory of the last element. If `ilock` is not to panic, the inode is allocated. -/
def Walked (E : Panic → Prop) (parent : Bool) (path : List UInt8) (s : State P)
    (r : Option (ℕ × List UInt8)) (t : State P) : Prop :=
  match r with
  | none => Holding 0 s t ∧ (s.Anchored → t.disk = s.disk)
  | some (ip, name) => Holding (one ip) s t ∧ (s.Anchored → t.disk = s.disk) ∧
      (E .noType ∨ s.Anchored ∧ s.disk.Allocated ip) ∧
      (parent = true → t.Locked ip ∧ (t.disk.dinode ip).type = .dir ∧ IsElem path name)

section
variable (hE : Lenient E) (h : Holding (one ip) s t) (hd : s.Anchored → t.disk = s.disk)
include hE h hd

theorem walked_put :
    wp (iunlockput ip) (fun _ u => Holding 0 s u ∧ (s.Anchored → u.disk = s.disk)) E t := by
  have h0 : Holding (0 + one ip) s t := h.congr (zero_add _)
  refine wp_post (iunlockput_held (hE.logs t) h0) (fun _ u hu => ?_)
  exact ⟨hu.2, fun ha => h0.put_disk ha (hd ha) hu.1⟩

theorem walked_lock (hty : E .noType ∨ s.Anchored ∧ s.disk.Allocated ip) :
    wp (ilock ip) (fun _ u => Loaded ip t u ∧ Holding (one ip) s u ∧
      (s.Anchored → u.disk = s.disk)) E t := by
  have htype : E .noType ∨ (t.disk.dinode ip).type ≠ .free := by
    refine hty.imp id fun hc => ?_
    rw [hd hc.1]
    exact hc.2.2
  refine wp_post (ilock_spec hE h.consistent htype) (fun _ u hu => ?_)
  exact ⟨hu, h.step (hu.holding h.consistent), fun ha => hu.disk.trans (hd ha)⟩

end

theorem namexLoop_spec {parent : Bool} {path0 : List UInt8} (hE : Lenient E) (fuel : ℕ) :
    ∀ ip path (t : State P), path.length < fuel → (∀ b ∈ path, b ∈ path0) →
      Holding (one ip) s t → (s.Anchored → t.disk = s.disk) →
      (E .noType ∨ s.Anchored ∧ s.disk.NoDangling ∧ s.disk.Allocated ip) →
      wp (namexLoop parent fuel ip path) (Walked E parent path0 s) E t := by
  induction fuel with
  | zero => exact fun ip path t hlt => absurd hlt (Nat.not_lt_zero _)
  | succ fuel ih =>
    intro ip path t hlt hsub h hd hty
    unfold namexLoop
    split
    next hskip =>
      split
      · have h0 : Holding (0 + one ip) s t := h.congr (zero_add _)
        refine wp_seq (iput_held (hE.logs t) h0) (fun _ u hu => ?_)
        exact ⟨hu.2, fun ha => h0.put_disk ha (hd ha) hu.1⟩
      next hp => exact ⟨h, hd, hty.imp id fun hc => ⟨hc.1, hc.2.2⟩, fun hc => absurd hc hp⟩
    next name rest hskip =>
      obtain ⟨helem, hrest, hmem⟩ := skipelem_eq_some hskip
      have helem : IsElem path0 name :=
        ⟨helem.nonempty, helem.noSlash, helem.short, fun b hb => hsub b (helem.sub b hb)⟩
      refine wp_seq (walked_lock hE h hd (hty.imp id fun hc => ⟨hc.1, hc.2.2⟩)) ?_
      rintro _ u ⟨hu, hhold, hdu⟩
      simp only [wp_bind, wp_get]
      have hdin : (u.inode ip).din = u.disk.dinode ip := hu.din.trans (by rw [hu.disk])
      split
      · rw [wp_bind]
        exact walked_put hE hhold hdu
      next hdir =>
        rw [hdin, not_not] at hdir
        split
        next hlast =>
          refine wp_seq (iunlock_spec hE) (fun _ v hv => ?_)
          obtain ⟨rfl, _⟩ := hv
          exact ⟨hhold, hdu, hty.imp id fun hc => ⟨hc.1, hc.2.2⟩, fun _ => ⟨hu.locked, hdir, helem⟩⟩
        · rw [wp_bind]
          refine wp_post (dirlookup_spec hE hhold.consistent hu.locked) (fun r v hr => ?_)
          cases r with
          | none =>
            obtain ⟨hv, _⟩ := hr
            subst hv
            rw [wp_bind]
            exact walked_put hE hhold hdu
          | some x =>
            obtain ⟨next, off⟩ := x
            obtain ⟨hgot, hnames, hinum⟩ := hr
            have hv : Holding (one next + one ip) s v :=
              (hhold.trans (hgot.holding hhold.consistent)).congr (add_comm _ _)
            have hdv (ha : s.Anchored) : v.disk = s.disk := hgot.disk.trans (hdu ha)
            refine wp_seq (iunlockput_held (hE.logs v) hv) (fun _ w hw => ?_)
            refine ih next rest w (by omega) (fun b hb => hsub b (hmem b hb)) hw.2
              (fun ha => hv.put_disk ha (hdv ha) hw.1) (hty.imp id fun hc => ⟨hc.1, hc.2.1, ?_⟩)
            have halloc := (hhold.consistent.cached ip hu.locked).2
            rw [hdu hc.1] at halloc hdir hnames hinum
            rw [← hinum]
            exact hc.2.1.allocated halloc hdir hnames

/-- What a walk needs so as not to meet a free inode. -/
def Safe (cwd : ℕ) (s : State P) : Prop :=
  s.Anchored ∧ s.disk.NoDangling ∧ s.disk.Allocated cwd ∧ s.disk.Allocated rootino

section
variable (hE : Lenient E) (h : s.Consistent) (hc : 0 < (s.inode cwd).ref)
include hE h hc

theorem namex_spec {parent : Bool} (hty : E .noType ∨ Safe cwd s) :
    wp (namex cwd parent path) (Walked E parent path s) E s := by
  unfold namex
  split
  · rw [wp_bind]
    refine wp_post (iget_spec hE) (fun _ t ht => ?_)
    exact namexLoop_spec hE _ rootino path t (by omega) (fun _ => id) (ht.holding h)
      (fun _ => ht.disk) (hty.imp id fun hs => ⟨hs.1, hs.2.1, hs.2.2.2⟩)
  · rw [wp_bind]
    refine wp_post (idup_spec hc) (fun _ t ht => ?_)
    exact namexLoop_spec hE _ cwd path t (by omega) (fun _ => id) (ht.holding h)
      (fun _ => ht.disk) (hty.imp id fun hs => ⟨hs.1, hs.2.1, hs.2.2.1⟩)

theorem namei_spec (hty : E .noType ∨ Safe cwd s) :
    wp (namei cwd path) (fun r t => match r with
      | none => Holding 0 s t ∧ (s.Anchored → t.disk = s.disk)
      | some ip => Holding (one ip) s t ∧ (s.Anchored → t.disk = s.disk) ∧
          (E .noType ∨ s.Anchored ∧ s.disk.Allocated ip)) E s := by
  unfold namei
  refine wp_seq (namex_spec hE h hc hty) (fun r t hr => ?_)
  cases r with
  | none =>
    exact hr
  | some x =>
    obtain ⟨ip, name⟩ := x
    exact ⟨hr.1, hr.2.1, hr.2.2.1⟩

end

/-- The directory `dp` of the last element `name`, locked, before anything has changed. -/
structure InParent (path : List UInt8) (dp : ℕ) (name : List UInt8) (s t : State P) : Prop where
  holding : Holding (one dp) s t
  disk : s.Anchored → t.disk = s.disk
  locked : t.Locked dp
  dir : (t.disk.dinode dp).type = .dir
  elem : IsElem path name

theorem nameiparent_spec (hE : Lenient E) (h : s.Consistent) (hc : 0 < (s.inode cwd).ref)
    (hty : E .noType ∨ Safe cwd s) :
    wp (nameiparent cwd path) (fun r t => match r with
      | none => Holding 0 s t ∧ (s.Anchored → t.disk = s.disk)
      | some (dp, name) => InParent path dp name s t) E s := by
  unfold nameiparent
  refine wp_post (namex_spec hE h hc hty) (fun r t hr => ?_)
  cases r with
  | none =>
    exact hr
  | some x =>
    obtain ⟨dp, name⟩ := x
    obtain ⟨hhold, hdisk, _, hpar⟩ := hr
    obtain ⟨hl, hdir, helem⟩ := hpar rfl
    exact ⟨hhold, hdisk, hl, hdir, helem⟩

namespace InParent
variable {dp : ℕ}
variable (h : InParent path dp name s t)
include h

theorem allocated : t.disk.Allocated dp :=
  (h.holding.consistent.cached dp h.locked).2

theorem ilock (hE : Lenient E) : wp (Fs.ilock dp) (fun _ u => InParent path dp name s u) E t := by
  have hcon := h.holding.consistent
  refine wp_post (ilock_spec hE hcon (.inr h.allocated.2)) (fun _ u hu => ?_)
  exact ⟨h.holding.step (hu.holding hcon), fun ha => hu.disk.trans (h.disk ha), hu.locked,
    by rw [hu.disk, h.dir], h.elem⟩

theorem type_ne_free {off : ℕ} (hs : Safe cwd s) (hn : Names (t.disk.contents dp) name off) :
    (s.disk.dinode (entry (t.disk.contents dp) off).inum).type ≠ .free := by
  have ha := h.allocated
  have hdir := h.dir
  rw [h.disk hs.1] at ha hdir hn ⊢
  exact (hs.2.1.allocated ha hdir hn).2

end InParent

end Xv6.Fs
