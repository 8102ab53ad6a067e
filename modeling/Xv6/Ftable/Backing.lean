import Xv6.Ftable.Model

/-! What open files stand for: each holds one end of a pipe or one reference to an inode from the
time it acquires it to the time it releases it, and every open end of a pipe and every reference
belongs to a file. -/
namespace Xv6.Ftable
open Function Counting

@[grind] def File.resource (x : File) : Option Resource :=
  if x.ref = 0 then none
  else match x.type with
    | .none => none
    | .pipe => some (.pipeEnd x.pipe x.writable)
    | .inode | .device => some (.inode x.ip)

/-- Acquisitions and releases take turns, and the file now holds `r`. -/
@[grind] def Balanced : List Event → Option Resource → Prop
  | [], none => True
  | .acquired r :: es, some r' => r = r' ∧ Balanced es none
  | .released r :: es, none => Balanced es (some r)
  | _, _ => False

def Ends.isOpen (e : Ends) (writable : Bool) : Bool := if writable then e.writeopen else e.readopen

def openEnd (pipe : ℕ → Option Ends) (pi : ℕ) (writable : Bool) : Bool :=
  (pipe pi).elim false (·.isOpen writable)

def holders (res : Fin nfile → Option Resource) (r : Resource) : ℕ :=
  total (fun x => if x = some r then 1 else 0) res

/-- The pipes, the references to inodes and the history agree with what the files hold; the call
under way has `K ip` more references to inode `ip`. -/
@[grind cases]
structure Backing (res : Fin nfile → Option Resource) (pipe : ℕ → Option Ends) (iref : ℕ → ℤ)
    (log : Fin nfile → List Event) (K : ℕ → ℤ) : Prop where
  ends : ∀ pi w, openEnd pipe pi w = true ↔ ∃ f, res f = some (.pipeEnd pi w)
  one : ∀ f g pi w, res f = some (.pipeEnd pi w) → res g = some (.pipeEnd pi w) → f = g
  alloc : ∀ pi e, pipe pi = some e → e.readopen = true ∨ e.writeopen = true
  iref : ∀ ip, iref ip = holders res (.inode ip) + K ip
  log : ∀ f, Balanced (log f) (res f)

variable {res : Fin nfile → Option Resource} {pipe : ℕ → Option Ends} {iref K : ℕ → ℤ}
  {log : Fin nfile → List Event} {f g : Fin nfile} {pi ip : ℕ} {w : Bool} {r : Resource}

theorem holders_update (res : Fin nfile → Option Resource) (f : Fin nfile) (x : Option Resource)
    (r : Resource) : holders (update res f x) r + (if res f = some r then 1 else 0) =
      holders res r + if x = some r then 1 else 0 :=
  total_update _ res f x

theorem openEnd_update (pipe : ℕ → Option Ends) (pi pi' : ℕ) (x : Option Ends) (w : Bool) :
    openEnd (update pipe pi x) pi' w =
      if pi' = pi then x.elim false (·.isOpen w) else openEnd pipe pi' w := by
  unfold openEnd
  by_cases h : pi' = pi
  · simp [h]
  · simp [h]

theorem isOpen_close (e : Ends) (w v : Bool) : (e.close w).elim false (·.isOpen v) =
    if v = w then false else e.isOpen v := by
  cases e with
  | mk readopen writeopen =>
    cases w <;> cases v <;> cases readopen <;> cases writeopen <;> rfl

private theorem balanced_update {f : Fin nfile} (h : ∀ g, Balanced (log g) (res g)) {e : Event}
    {x : Option Resource} (hx : Balanced (e :: log f) x) (g : Fin nfile) :
    Balanced (update log f (e :: log f) g) (update res f x g) := by grind

theorem update_eq_pipeEnd {x : Option Resource} (hf : ∀ pi v, res f ≠ some (.pipeEnd pi v))
    (hx : ∀ pi v, x ≠ some (.pipeEnd pi v)) (g : Fin nfile) (pi : ℕ) (v : Bool) :
    update res f x g = some (.pipeEnd pi v) ↔ res g = some (.pipeEnd pi v) := by grind

namespace Backing
variable (h : Backing res pipe iref log K)
include h

theorem iget (ip : ℕ) (n : ℤ) : Backing res pipe (update iref ip (iref ip + n)) log
      (update K ip (K ip + n)) := by
  refine ⟨h.ends, h.one, h.alloc, fun jp => ?_, h.log⟩
  grind

theorem openPipe (hfg : f ≠ g) (hf : res f = none) (hg : res g = none) (hp : pipe pi = none) :
    Backing (update (update res f (some (.pipeEnd pi false))) g (some (.pipeEnd pi true)))
      (update pipe pi (some ⟨true, true⟩)) iref
      (update (update log f (.acquired (.pipeEnd pi false) :: log f)) g
        (.acquired (.pipeEnd pi true) :: log g)) K := by
  have hno : ∀ x v, res x ≠ some (.pipeEnd pi v) := by
    intro x v hx
    have hopen := (h.ends pi v).mpr ⟨x, hx⟩
    simp [openEnd, hp] at hopen
  have hres : ∀ x pi' v, update (update res f (some (.pipeEnd pi false))) g
      (some (.pipeEnd pi true)) x = some (.pipeEnd pi' v) ↔
        (pi' = pi ∧ x = if v then g else f) ∨ (pi' ≠ pi ∧ res x = some (.pipeEnd pi' v)) := by grind
  refine ⟨fun pi' v => ?_, fun x y pi' v hx hy => ?_, fun pi' e he => ?_, fun jp => ?_, ?_⟩
  · rw [openEnd_update]
    simp only [hres]
    by_cases hpi : pi' = pi
    · cases v <;> simp [hpi, Ends.isOpen]
    · simp [hpi, h.ends]
  · grind
  · grind
  · have h1 := holders_update (update res f (some (.pipeEnd pi false))) g
      (some (.pipeEnd pi true)) (.inode jp)
    have h2 := holders_update res f (some (.pipeEnd pi false)) (.inode jp)
    simp [hf, hg, hfg.symm] at h1 h2
    rw [h.iref jp, h1, h2]
  · grind

theorem closePipe (hf : res f = some (.pipeEnd pi w)) :
    ∃ e, pipe pi = some e ∧ Backing (update res f none) (update pipe pi (e.close w)) iref
        (update log f (.released (.pipeEnd pi w) :: log f)) K := by
  have hopen := (h.ends pi w).mpr ⟨f, hf⟩
  cases he : pipe pi with
  | none => simp [openEnd, he] at hopen
  | some e =>
    refine ⟨e, rfl, ⟨fun pi' v => ?_, fun x y pi' v hx hy => ?_, fun pi' x hx => ?_, fun jp => ?_,
      balanced_update h.log (by simpa [Balanced, hf] using h.log f)⟩⟩
    · rw [openEnd_update, isOpen_close]
      constructor
      · intro ho
        have hex : openEnd pipe pi' v = true ∧ ¬ (pi' = pi ∧ v = w) := by
          obtain rfl | hpi := eq_or_ne pi' pi
          · by_cases hv : v = w
            · simp [hv] at ho
            · simpa [hv, openEnd, he] using ho
          · simpa [hpi] using ho
        obtain ⟨x, hx⟩ := (h.ends pi' v).mp hex.1
        have hxf : x ≠ f := by grind
        exact ⟨x, by simpa [hxf] using hx⟩
      · rintro ⟨x, hx⟩
        have hxf : x ≠ f := by
          rintro rfl
          simp at hx
        have hx : res x = some (.pipeEnd pi' v) := by simpa [hxf] using hx
        have ho := (h.ends pi' v).mpr ⟨x, hx⟩
        obtain rfl | hpi := eq_or_ne pi' pi
        · have hv : v ≠ w := by
            rintro rfl
            exact hxf (h.one x f pi' v hx hf)
          simpa [hv, openEnd, he] using ho
        · simpa [hpi] using ho
    · grind
    · grind
    · have h1 := holders_update res f none (.inode jp)
      simp [hf] at h1
      rw [h.iref jp, h1]

/-- A file that holds nothing takes over a reference of the call. -/
theorem openInode (hf : res f = none) : Backing (update res f (some (.inode ip))) pipe iref
      (update log f (.acquired (.inode ip) :: log f))
      (update K ip (K ip - 1)) := by
  have hno : ∀ pi v, res f ≠ some (.pipeEnd pi v) := by simp [hf]
  have hres := update_eq_pipeEnd hno (x := some (.inode ip)) (by simp)
  refine ⟨fun pi v => ?_, fun x y pi v hx hy => ?_, h.alloc, fun jp => ?_,
    balanced_update h.log ⟨rfl, hf ▸ h.log f⟩⟩
  · simp only [hres]
    exact h.ends pi v
  · rw [hres] at hx hy
    exact h.one x y pi v hx hy
  · have h1 := holders_update res f (some (.inode ip)) (.inode jp)
    simp only [hf, reduceCtorEq, if_false, add_zero, Option.some_inj, Resource.inode.injEq] at h1
    obtain rfl | hj := eq_or_ne jp ip
    · grind
    · rw [if_neg (Ne.symm hj), add_zero] at h1
      rw [update_of_ne hj, h.iref jp, h1]

theorem closeInode (hf : res f = some (.inode ip)) :
    Backing (update res f none) pipe (update iref ip (iref ip + -1))
      (update log f (.released (.inode ip) :: log f)) K := by
  have hno : ∀ pi v, res f ≠ some (.pipeEnd pi v) := by simp [hf]
  have hres := update_eq_pipeEnd hno (x := none) (by simp)
  refine ⟨fun pi v => ?_, fun x y pi v hx hy => ?_, h.alloc, fun jp => ?_,
    balanced_update h.log (by simpa [Balanced, hf] using h.log f)⟩
  · simp only [hres]
    exact h.ends pi v
  · rw [hres] at hx hy
    exact h.one x y pi v hx hy
  · have h1 := holders_update res f none (.inode jp)
    simp only [hf, reduceCtorEq, if_false, add_zero, Option.some_inj, Resource.inode.injEq] at h1
    obtain rfl | hj := eq_or_ne jp ip
    · grind
    · rw [if_neg (Ne.symm hj), add_zero] at h1
      rw [update_of_ne hj, h.iref jp, h1]

end Backing

end Xv6.Ftable
