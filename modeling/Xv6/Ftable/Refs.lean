import Xv6.Ftable.Backing

/-! The reference count of a file is the number of descriptors that point to it, plus the references
that the call under way has in its local variables. -/
namespace Xv6.Ftable
open Function Hoare Counting
attribute [local simp] File.resource
variable {N : ℕ} {s t : State N} {p : Fin N} {f g : Fin nfile} {fd : Fin nofile} {K : ℕ → ℤ}
  {U : Fin nfile → Prop} {H : Fin nfile → ℕ} {E : Panic → Prop}

namespace State

/-- How many descriptor slots of all processes point to file `f`. -/
def slots (s : State N) (f : Fin nfile) : ℕ :=
  total (total fun x => if x = some f then 1 else 0) s.ofile

theorem slots_setSlot (s : State N) (p : Fin N) (fd : Fin nofile) (x : Option (Fin nfile))
    (f : Fin nfile) : (s.setSlot p fd x).slots f + (if s.ofile p fd = some f then 1 else 0) =
      s.slots f + if x = some f then 1 else 0 := by
  have h1 := total_update (total fun x => if x = some f then 1 else 0) s.ofile p
    (update (s.ofile p) fd x)
  have h2 := total_update (fun x => if x = some f then 1 else 0) (s.ofile p) fd x
  unfold slots
  rw [setSlot_ofile]
  omega

theorem slots_pos (h : s.ofile p fd = some f) : 0 < s.slots f := by
  have h1 := le_total (total fun x => if x = some f then 1 else 0) s.ofile p
  have h2 := le_total (fun x => if x = some f then 1 else 0) (s.ofile p) fd
  rw [if_pos h] at h2
  exact lt_of_lt_of_le (lt_of_lt_of_le Nat.zero_lt_one h2) h1

theorem slots_congr (h : t.ofile = s.ofile) (f : Fin nfile) : t.slots f = s.slots f := by
  unfold slots
  rw [h]

@[grind cases] structure Backed (K : ℕ → ℤ) (U : Fin nfile → Prop) (s : State N) : Prop where
  fresh : ∀ f, (s.file f).ref = 0 → (s.file f).type = .none
  typed : ∀ f, (s.file f).ref ≠ 0 → (s.file f).type = .none → U f
  backing : Backing (fun f => (s.file f).resource) s.pipe s.iref s.log K

@[grind] def Counted (H : Fin nfile → ℕ) (s : State N) : Prop :=
  ∀ f, (s.file f).ref = s.slots f + H f

@[grind] def Closed (s : State N) : Prop := ∀ p, s.live p = false → ∀ fd, s.ofile p fd = none

end State

def bump (H : Fin nfile → ℕ) (f : Fin nfile) : Fin nfile → ℕ := update H f (H f + 1)

attribute [local simp] bump

theorem resource_setFile (s : State N) (f : Fin nfile) (x : File) :
    (fun g => ((s.setFile f x).file g).resource) =
      update (fun g => (s.file g).resource) f x.resource := by
  funext g
  by_cases hg : g = f
  · simp [hg]
  · simp [hg]

theorem resource_of_type {x : File} (h : x.type = .none) : x.resource = none := by
  simp [h]

namespace State.Backed
variable (hs : s.Backed K U)
include hs

theorem mono {V : Fin nfile → Prop}
    (h : ∀ f, (s.file f).ref ≠ 0 → (s.file f).type = .none → U f → V f) : s.Backed K V :=
  ⟨hs.fresh, fun f hr ht => h f hr ht (hs.typed f hr ht), hs.backing⟩

theorem setFile {x : File} (hx : x.resource = (s.file f).resource) (hf : x.ref = 0 → x.type = .none)
    (ht : x.ref ≠ 0 → x.type = .none → U f) : (s.setFile f x).Backed K U := by
  refine ⟨fun g hg => ?_, fun g hg hg' => ?_, ?_⟩
  · obtain rfl | hgf := eq_or_ne g f
    · simpa using hf (by simpa using hg)
    · simpa [hgf] using hs.fresh g (by simpa [hgf] using hg)
  · obtain rfl | hgf := eq_or_ne g f
    · exact ht (by simpa using hg) (by simpa using hg')
    · exact hs.typed g (by simpa [hgf] using hg) (by simpa [hgf] using hg')
  · rw [resource_setFile, hx]
    simpa using hs.backing

theorem setSlot (x : Option (Fin nfile)) : (s.setSlot p fd x).Backed K U :=
  ⟨hs.fresh, hs.typed, hs.backing⟩

theorem addRef (ip : ℕ) (n : ℤ) : (s.addRef ip n).Backed (update K ip (K ip + n)) U :=
  ⟨hs.fresh, hs.typed, hs.backing.iget ip n⟩

theorem alloc (hf : (s.file f).ref = 0) :
    (s.setFile f { s.file f with ref := 1 }).Backed K (fun g => g = f ∨ U g) := by
  have ht := hs.fresh f hf
  refine (hs.mono fun g _ _ hg => Or.inr hg).setFile ?_ (fun h => ?_) fun _ _ => .inl rfl
  · rw [resource_of_type ht]
    exact resource_of_type ht
  · cases h

theorem dup (hf : 0 < (s.file f).ref) :
    (s.setFile f { s.file f with ref := (s.file f).ref + 1 }).Backed K U := by
  have hne : (s.file f).ref ≠ 0 := Nat.ne_of_gt hf
  refine hs.setFile ?_ (fun h => ?_) fun _ ht => hs.typed f hne ht
  · simp [hne]
  · cases h

end State.Backed

namespace State.Counted

theorem congr (hc : s.Counted H) (ho : t.ofile = s.ofile)
    (hr : ∀ f, (t.file f).ref = (s.file f).ref) : t.Counted H := by
  intro g
  rw [hr, slots_congr ho, hc g]

theorem setSlot_some (hc : s.Counted (bump H f)) (hfd : s.ofile p fd = none) :
    (s.setSlot p fd (some f)).Counted H := by
  intro g
  have h1 := hc g
  have h2 := slots_setSlot s p fd (some f) g
  rw [hfd] at h2
  obtain rfl | hg := eq_or_ne g f
  · simp at h1 h2 ⊢
    omega
  · simp [hg, Ne.symm hg] at h1 h2 ⊢
    omega

theorem setSlot_none (hc : s.Counted H) (hfd : s.ofile p fd = some f) :
    (s.setSlot p fd none).Counted (bump H f) := by
  intro g
  have h1 := hc g
  have h2 := slots_setSlot s p fd none g
  rw [hfd] at h2
  obtain rfl | hg := eq_or_ne g f
  · simp at h1 h2 ⊢
    omega
  · simp [hg, Ne.symm hg] at h1 h2 ⊢
    omega

/-- The reference of the call and the count of the file go up together. -/
theorem setFile (hc : s.Counted H) {x : File} (hx : x.ref = (s.file f).ref + 1) :
    (s.setFile f x).Counted (bump H f) := by
  intro g
  have h1 := hc g
  have h2 : (s.setFile f x).slots g = s.slots g := slots_congr rfl g
  obtain rfl | hg := eq_or_ne g f
  · simp only [State.setFile_file, update_self, bump, hx, h1, h2]
    exact Nat.add_assoc _ _ _
  · simpa [hg, h2] using h1

theorem pos (hc : s.Counted H) (hfd : s.ofile p fd = some f) : 0 < (s.file f).ref := by
  rw [hc f]
  exact Nat.add_pos_left (slots_pos hfd) _

end State.Counted

@[grind cases] structure Drops (s : State N) (f : Fin nfile) (t : State N) : Prop where
  ofile : t.ofile = s.ofile
  live : t.live = s.live
  ref : (t.file f).ref + 1 = (s.file f).ref
  other : ∀ g, g ≠ f → t.file g = s.file g

theorem filealloc_spec {Q : Option (Fin nfile) → State N → Prop} (hnone : Q none s)
    (hsome : ∀ f, (s.file f).ref = 0 → Q (some f) (s.setFile f { s.file f with ref := 1 })) :
    wp filealloc Q E s := by
  unfold filealloc
  simp only [wp_bind, wp_get]
  split
  · exact hnone
  next f hf => exact hsome f (by simpa using List.find?_some hf)

theorem fdalloc_spec {Q : Option (Fin nofile) → State N → Prop} (hnone : Q none s)
    (hsome : ∀ fd, s.ofile p fd = none → Q (some fd) (s.setSlot p fd (some f))) :
    wp (fdalloc p f) Q E s := by
  unfold fdalloc
  simp only [wp_bind, wp_get]
  split
  · exact hnone
  next fd hfd => exact hsome fd (by simpa using List.find?_some hfd)

theorem filedup_spec {Q : Unit → State N → Prop} (hf : 0 < (s.file f).ref)
    (hQ : Q () (s.setFile f { s.file f with ref := (s.file f).ref + 1 })) :
    wp (filedup f) Q E s := by
  unfold filedup
  simp only [wp_bind, wp_get]
  rw [if_neg (Nat.not_lt.mpr hf)]
  exact hQ

theorem pipeclose_spec {e : Ends} {pi : ℕ} {w : Bool} {Q : Unit → State N → Prop}
    (he : s.pipe pi = some e) (hQ : Q () (s.setPipe pi (e.close w))) :
    wp (pipeclose pi w) Q E s := by
  unfold pipeclose
  simp only [wp_bind, wp_get, he]
  exact hQ

theorem State.Backed.closed (hs : s.Backed K U) {x : File} (hx : x.ref = 0) (ht : x.type = .none)
    (hfile : t.file = update s.file f x)
    (hb : Backing (update (fun g => (s.file g).resource) f none) t.pipe t.iref t.log K) :
    t.Backed K U := by
  have hres : (fun g => (t.file g).resource) =
      update (fun g => (s.file g).resource) f none := by
    rw [hfile, ← resource_of_type ht]
    exact resource_setFile s f x
  refine ⟨fun g hg => ?_, fun g hg hg' => ?_, by rw [hres]; exact hb⟩
  · obtain rfl | hgf := eq_or_ne g f
    · rw [hfile, update_self]
      exact ht
    · rw [hfile, update_of_ne hgf] at hg ⊢
      exact hs.fresh g hg
  · obtain rfl | hgf := eq_or_ne g f
    · rw [hfile, update_self] at hg
      exact absurd hx hg
    · rw [hfile, update_of_ne hgf] at hg hg'
      exact hs.typed g hg hg'

theorem drops_of_update {x : File} (ho : t.ofile = s.ofile) (hl : t.live = s.live)
    (hfile : t.file = update s.file f x) (hx : x.ref + 1 = (s.file f).ref) :
    Drops s f t :=
  ⟨ho, hl, by rw [hfile, update_self, hx], fun g hg => by rw [hfile, update_of_ne hg]⟩

theorem fileclose_spec (hs : s.Backed K U) (hf : 0 < (s.file f).ref) :
    wp (fileclose f) (fun _ t => t.Backed K U ∧ Drops s f t) E s := by
  unfold fileclose
  simp only [wp_bind, wp_get]
  rw [if_neg (Nat.not_lt.mpr hf)]
  have hne : (s.file f).ref ≠ 0 := Nat.ne_of_gt hf
  by_cases hlast : 0 < (s.file f).ref - 1
  · rw [if_pos hlast]
    refine ⟨hs.setFile ?_ (fun h => ?_) fun _ ht => hs.typed f hne ht,
      drops_of_update rfl rfl rfl (Nat.succ_pred_eq_of_pos hf)⟩
    · simp [hne, Nat.ne_of_gt hlast]
    · exact absurd h (Nat.ne_of_gt hlast)
  · rw [if_neg hlast]
    have hone : 0 + 1 = (s.file f).ref := by omega
    simp only [wp_bind, wp_set]
    cases htype : (s.file f).type with
    | none =>
      refine ⟨hs.setFile ?_ (fun _ => rfl) fun h => absurd rfl h, drops_of_update rfl rfl rfl hone⟩
      grind
    | pipe =>
      have hres : (s.file f).resource = some (.pipeEnd (s.file f).pipe (s.file f).writable) := by
        simp [hne, htype]
      obtain ⟨e, he, hb⟩ := hs.backing.closePipe hres
      simp only [wp_bind]
      refine pipeclose_spec (e := e) he ?_
      exact ⟨hs.closed rfl rfl rfl hb, drops_of_update rfl rfl rfl hone⟩
    | inode | device =>
      have hres : (s.file f).resource = some (.inode (s.file f).ip) := by simp [hne, htype]
      exact ⟨hs.closed rfl rfl rfl (hs.backing.closeInode hres), drops_of_update rfl rfl rfl hone⟩

namespace Drops

theorem counted (h : Drops s f t) (hc : s.Counted (bump H f)) : t.Counted H := by
  intro g
  have h1 := hc g
  rw [State.slots_congr h.ofile g]
  obtain rfl | hg := eq_or_ne g f
  · have h2 := h.ref
    simp only [bump, update_self] at h1
    omega
  · rw [h.other g hg, h1]
    simp [hg]

theorem setSlot (h : Drops s f t) (x : Option (Fin nfile)) :
    Drops (s.setSlot p fd x) f (t.setSlot p fd x) :=
  ⟨by simp [h.ofile], h.live, h.ref, h.other⟩

end Drops

end Xv6.Ftable
