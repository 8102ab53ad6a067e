import Xv6.Vm.Copy

/-! Writes to user memory, by stores of the process and by `copyout`, reach the pages of that user
memory only. Two address spaces without a common page stay so, and neither sees the writes of the
other. -/
namespace Xv6.Vm
open Hoare Radix Transition
variable {E : Panic → Prop} {m t u : Mem} {root n : ℕ}

/-- A store of the process: it takes effect when the page is mapped for the user with write
permission, and faults otherwise. -/
def store (root va : ℕ) (c : UInt8) : VmM Unit :=
  modify fun m =>
    let pte := m.lookup root va
    if va < sv39 ∧ pte &&& pteV ≠ 0 ∧ pte &&& pteU ≠ 0 ∧ pte &&& pteW ≠ 0 then
      m.memmove (pte2pa pte) (va % pgsize) [c]
    else m

inductive Write where
  | store (va : ℕ) (c : UInt8)
  | copyout (dstva : ℕ) (src : List UInt8)

def Write.exec (root : ℕ) : Write → VmM Unit
  | .store va c => Vm.store root va c
  | .copyout dstva src => do let _ ← Vm.copyout root dstva src

structure Wrote (root n : ℕ) (m t : Mem) : Prop where
  kernel : SameKernel m t
  free : t.free = m.free
  page : ∀ b, (∀ k, k < n → b ≠ m.frame root (k * pgsize)) → t.page b = m.page b

theorem Wrote.refl (root n : ℕ) (m : Mem) : Wrote root n m m := ⟨⟨rfl, rfl⟩, rfl, fun _ _ => rfl⟩

section
variable (h : Space m root n)
include h

theorem Space.tables_of_wrote (hw : Wrote root n m t) {b : ℕ}
    (hb : b ∈ m.tables root) : t.page b = m.page b := by
  refine hw.page b ?_
  rintro k hk rfl
  have hf := h.frames.tables k hk
  rw [Nat.zero_add] at hf
  exact hf hb

theorem Space.lookup_of_wrote (hw : Wrote root n m t) (x : ℕ) : t.lookup root x = m.lookup root x :=
  lookup_of_same (same_of_pages fun _ hb => h.tables_of_wrote hw hb) x

theorem Space.of_wrote {r l : ℕ} (hw : Wrote r l m t)
    (hag : ∀ b ∈ m.tables root, t.page b = m.page b) : Space t root n := by
  refine h.congr hw.kernel ⟨?_, ?_⟩ (fun b hb => ?_) hag
  · rw [hw.free]
    exact h.table.heap.nodup
  · rw [hw.free]
    exact h.table.heap.page
  · rw [hw.free] at hb
    exact h.ne_of_free hb

theorem Wrote.trans (hw : Wrote root n m t) (hw' : Wrote root n t u) : Wrote root n m u := by
  refine ⟨hw.kernel.trans hw'.kernel, hw'.free.trans hw.free, fun b hb => ?_⟩
  rw [hw'.page b, hw.page b hb]
  intro k hk
  rw [Mem.frame, h.lookup_of_wrote hw]
  exact hb k hk

/-- A write through a mapping for the user reaches a page of the user memory. -/
theorem Space.wrote_memmove {x : ℕ} (hx : x < sv39)
    (hv : m.lookup root x &&& pteV ≠ 0) (hu : m.lookup root x &&& pteU ≠ 0) (off : ℕ)
    (bs : List UInt8) : Wrote root n m (m.memmove (pte2pa (m.lookup root x)) off bs) := by
  have hn : x / pgsize < n := by
    by_contra hge
    rcases h.above x hx (not_lt.mp hge) with hz | hz
    · exact hv hz
    · exact hu hz
  refine ⟨⟨rfl, rfl⟩, rfl, fun b hb => ?_⟩
  have hne : b ≠ pte2pa (m.lookup root x) := by
    have hk := hb _ hn
    have hle : x / pgsize * pgsize < sv39 := (Nat.div_mul_le_self x pgsize).trans_lt hx
    rwa [Mem.frame, lookup_page hx hle (Nat.mul_div_cancel _ (by decide))] at hk
  simp [hne]

theorem store_spec (va : ℕ) (c : UInt8) :
    wp (store root va c) (fun _ t => Wrote root n m t) E m := by
  unfold store
  rw [wp_modify]
  dsimp only
  split
  next hc => exact h.wrote_memmove hc.1 hc.2.1 hc.2.2.1 _ _
  · exact .refl root n m

end

theorem copyoutLoop_spec (fuel : ℕ) : ∀ (m : Mem) (dstva : ℕ) (src : List UInt8), Space m root n →
    wp (copyoutLoop root fuel dstva src) (fun _ t => Wrote root n m t) E m := by
  induction fuel with
  | zero =>
    intro m _ _ _
    exact .refl root n m
  | succ fuel ih =>
    intro m dstva src h
    unfold copyoutLoop
    split
    · exact .refl root n m
    dsimp only
    split
    · exact .refl root n m
    next hlt =>
      have hva := not_le.mp hlt
      refine wp_seq (walk_false hva) ?_
      rintro r t ⟨rfl, rfl⟩
      cases hl : leaf child t.pte (path (pgrounddown dstva)) 2 root with
      | none => exact .refl root n t
      | some b =>
        simp only [Option.map_some, wp_bind, wp_get]
        rw [← lookup_of_leaf hl]
        split
        · exact .refl root n t
        next hperm =>
          simp only [not_or] at hperm
          have hw := h.wrote_memmove (lt_sv39 hva) hperm.1 hperm.2.1
            (dstva - pgrounddown dstva)
            (src.take (min (pgsize - (dstva - pgrounddown dstva)) src.length))
          simp only [wp_bind, wp_modify]
          refine wp_post (ih _ _ _ (h.of_wrote hw fun _ hb => h.tables_of_wrote hw hb)) ?_
          intro _ u hw'
          exact hw.trans h hw'

theorem Write.exec_spec (h : Space m root n) (w : Write) :
    wp (w.exec root) (fun _ t => Wrote root n m t) E m := by
  cases w with
  | store va c => exact store_spec h va c
  | copyout dstva src =>
    rw [exec, Vm.copyout, wp_bind]
    exact wp_post (copyoutLoop_spec src.length m dstva src h) (fun _ _ hw => hw)

structure Apart (m : Mem) (a na b nb : ℕ) : Prop where
  left : Space m a na
  right : Space m b nb
  tables : ∀ j, j < na → m.frame a (j * pgsize) ∉ m.tables b
  tables' : ∀ k, k < nb → m.frame b (k * pgsize) ∉ m.tables a
  frames : ∀ j k, j < na → k < nb → m.frame a (j * pgsize) ≠ m.frame b (k * pgsize)

namespace Apart
variable {a na b nb : ℕ}
variable (h : Apart m a na b nb)
include h

theorem symm : Apart m b nb a na :=
  ⟨h.right, h.left, h.tables', h.tables, fun j k hj hk heq => h.frames k j hk hj heq.symm⟩

theorem tables_of_wrote (hw : Wrote a na m t) {d : ℕ}
    (hd : d ∈ m.tables b) : t.page d = m.page d := by
  refine hw.page d ?_
  rintro k hk rfl
  exact h.tables k hk hd

theorem lookup_of_wrote (hw : Wrote a na m t) (x : ℕ) : t.lookup b x = m.lookup b x :=
  lookup_of_same (same_of_pages fun _ hd => h.tables_of_wrote hw hd) x

theorem page_of_wrote (hw : Wrote a na m t) {k : ℕ} (hk : k < nb) :
    t.page (t.frame b (k * pgsize)) = m.page (m.frame b (k * pgsize)) := by
  rw [Mem.frame, h.lookup_of_wrote hw]
  exact hw.page _ fun j hj heq => h.frames j k hj hk heq.symm

theorem of_wrote (hw : Wrote a na m t) : Apart t a na b nb := by
  have hleft x : t.frame a x = m.frame a x := by
    rw [Mem.frame, Mem.frame, h.left.lookup_of_wrote hw]
  have hright x : t.frame b x = m.frame b x := by rw [Mem.frame, Mem.frame, h.lookup_of_wrote hw]
  have hta : t.tables a = m.tables a :=
    (same_of_pages fun _ hd => h.left.tables_of_wrote hw hd).nodes
  have htb : t.tables b = m.tables b := (same_of_pages fun _ hd => h.tables_of_wrote hw hd).nodes
  refine ⟨h.left.of_wrote hw fun _ hd => h.left.tables_of_wrote hw hd,
    h.right.of_wrote hw fun _ hd => h.tables_of_wrote hw hd, fun j hj => ?_, fun k hk => ?_,
    fun j k hj hk => ?_⟩
  · rw [hleft, htb]
    exact h.tables j hj
  · rw [hright, hta]
    exact h.tables' k hk
  · rw [hleft, hright]
    exact h.frames j k hj hk

end Apart

/-- The copy that `uvmcopy` makes has no page in common with the original. -/
theorem Copied.apart {m0 : Mem} {old new tf : ℕ} {X : Multiset ℕ} (hp : m0.Pool)
    (ho : Space m0 old n) (h : Copied m0 old new n X (procEntry m0.tramp tf) t) :
    Apart t old n new n := by
  have htook := h.built.took
  have hframe x : t.frame old x = m0.frame old x := by
    rw [Mem.frame, Mem.frame, ho.lookup_of_took htook]
  have htab : t.tables old = m0.tables old :=
    (same_of_pages fun b hb => htook.page b (ho.tables_notMem hb)).nodes
  have hold : ∀ j < n, t.frame old (j * pgsize) ∉ m0.free := by
    intro j hj
    have hf := ho.frames.free j hj
    rw [hframe]
    rwa [Nat.zero_add] at hf
  have hnew : ∀ k < n, t.frame new (k * pgsize) ∈ m0.free := fun k hk =>
    htook.mem (Multiset.mem_add.mpr (.inr (frame_mem _ hk)))
  refine ⟨ho.of_took hp htook, h.space hp ho, fun j hj hmem => ?_, fun k hk hmem => ?_,
    fun j k hj hk heq => ?_⟩
  · exact hold j hj (htook.mem (Multiset.mem_add.mpr (.inl hmem)))
  · rw [htab] at hmem
    exact ho.tables_notMem hmem (hnew k hk)
  · refine hold j hj ?_
    rw [heq]
    exact hnew k hk

def writeNext (root : Bool → ℕ) (m : Mem) (w : Bool × Write) : Option Mem :=
  match w.2.exec (root w.1) m with
  | .ok (_, t) => some t
  | .error _ => none

/-- The two address spaces, from the side of process `p`. -/
def ApartFrom (root n : Bool → ℕ) (m : Mem) (p : Bool) : Prop :=
  Apart m (root p) (n p) (root !p) (n !p)

variable {r l : Bool → ℕ}

theorem writeNext_eq (h : ∀ p, ApartFrom r l m p) (w : Bool × Write) :
    ∃ t, writeNext r m w = some t ∧ Wrote (r w.1) (l w.1) m t := by
  obtain ⟨_, t, hrun, hw⟩ := wp_total (w.2.exec_spec (h w.1).left)
  refine ⟨t, ?_, hw⟩
  unfold writeNext
  rw [hrun]

theorem ApartFrom.step {w : Bool × Write} (h : ∀ p, ApartFrom r l m p)
    (hn : writeNext r m w = some t) : ∀ p, ApartFrom r l t p := by
  obtain ⟨t', hn', hw⟩ := writeNext_eq h w
  obtain rfl : t = t' := Option.some.inj (hn.symm.trans hn')
  have hself := (h w.1).of_wrote hw
  intro p
  rcases Bool.eq_or_eq_not p w.1 with rfl | rfl
  · exact hself
  · have hs := hself.symm
    unfold ApartFrom
    rw [Bool.not_not]
    exact hs

theorem run_writes (ws : List (Bool × Write)) : ∀ m, (∀ p, ApartFrom r l m p) →
    ∃ t, run (writeNext r) m ws = some t ∧ ∀ p, ApartFrom r l t p := by
  induction ws with
  | nil => exact fun m h => ⟨m, rfl, h⟩
  | cons w ws ih =>
    intro m h
    obtain ⟨t, hn, _⟩ := writeNext_eq h w
    obtain ⟨u, hr, hu⟩ := ih t (ApartFrom.step h hn)
    refine ⟨u, ?_, hu⟩
    rw [run_cons_eq_some]
    exact ⟨t, hn, hr⟩

/-- Writes of the other process leave the memory of process `p` as it is. -/
theorem run_writes_other {p : Bool} {ws : List (Bool × Write)} (hws : ∀ w ∈ ws, w.1 = !p) :
    ∀ m t, (∀ p, ApartFrom r l m p) → run (writeNext r) m ws = some t →
      (∀ x, t.lookup (r p) x = m.lookup (r p) x) ∧
      ∀ k < l p, t.page (t.frame (r p) (k * pgsize)) = m.page (m.frame (r p) (k * pgsize)) := by
  induction ws with
  | nil =>
    intro m t _ hr
    cases hr
    exact ⟨fun _ => rfl, fun _ _ => rfl⟩
  | cons w ws ih =>
    intro m u h hr
    obtain ⟨t, hn, hr⟩ := run_cons_eq_some.mp hr
    obtain ⟨hlook, hpage⟩ := ih (fun w hw => hws w (List.mem_cons_of_mem _ hw)) t u
      (ApartFrom.step h hn) hr
    obtain ⟨t', hn', hw⟩ := writeNext_eq h w
    obtain rfl : t = t' := Option.some.inj (hn.symm.trans hn')
    have ha := h w.1
    have hp : p = !w.1 := by rw [hws w List.mem_cons_self, Bool.not_not]
    subst hp
    exact ⟨fun x => (hlook x).trans (ha.lookup_of_wrote hw x),
      fun k hk => (hpage k hk).trans (ha.page_of_wrote hw hk)⟩

end Xv6.Vm
