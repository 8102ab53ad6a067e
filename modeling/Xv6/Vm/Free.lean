import Xv6.Vm.Pages

/-! `freewalk` gives back the pages of a page table without mappings. Over a call that allocates and
frees pages, the pages that it has taken and the free list make up the free list it started with. -/
namespace Xv6.Vm
open Hoare Radix Multiset
variable {E : Panic → Prop} {m m₀ t u : Mem} {root pa : ℕ}

theorem kfree_wp (hal : pa % pgsize = 0) (hlo : m.kend ≤ pa) (hhi : pa < phystop) :
    wp (kfree pa) (fun _ t => SameKernel m t ∧ t.free = pa :: m.free ∧
      ∀ b ≠ pa, t.page b = m.page b) E m := by
  unfold kfree
  simp only [wp_bind, wp_get]
  rw [if_neg (by omega), wp_set]
  refine ⟨⟨rfl, rfl⟩, rfl, fun b hb => ?_⟩
  simp [hb]

theorem plain_and {e : ℕ} (h : Plain e) : e &&& (pteR ||| pteW ||| pteX) = 0 := by
  have hmask : (pteR ||| pteW ||| pteX : ℕ) = 0x3FF &&& (pteR ||| pteW ||| pteX) := by decide
  rw [Plain, pteFlags] at h
  rw [hmask, ← Nat.and_assoc, h]
  rfl

/-- The tree of height `n` at `a` has no mappings, and its pages can be freed. -/
structure Hollow (n : ℕ) (m : Mem) (a : ℕ) : Prop where
  nodup : (nodes child m.pte n a).Nodup
  inner : Inner child Plain m.pte n a
  leaf : ∀ p, lookup child 0 m.pte p n a &&& pteV = 0
  page : ∀ b ∈ nodes child m.pte n a, b % pgsize = 0 ∧ m.kend ≤ b ∧ b < phystop

theorem Hollow.child {n a c : ℕ} {i : Fin 512} (h : Hollow (n + 1) m a)
    (hc : Vm.child (m.pte a i) = some c) : Hollow n m c where
  nodup := nodup_child h.nodup hc
  inner := (h.inner i c hc).2
  leaf p := by
    rw [← lookup_child hc p]
    exact h.leaf _
  page b hb := h.page b (mem_nodes_of_child hc hb)

theorem Hollow.congr {n a : ℕ} (h : Hollow n m a) (hk : SameKernel m t)
    (hag : ∀ b ∈ nodes Vm.child m.pte n a, t.page b = m.page b) : Hollow n t a := by
  have hs : Same Vm.child m.pte t.pte n a := same_of_agree fun b hb => Mem.pte_of_page (hag b hb)
  refine ⟨?_, hs.inner _ h.inner, fun p => ?_, fun b hb => ?_⟩
  · rw [hs.nodes]
    exact h.nodup
  · rw [hs.lookup]
    exact h.leaf p
  · rw [hs.nodes] at hb
    rw [hk.1]
    exact h.page b hb

def Mem.kids (m : Mem) (n a : ℕ) (i : Fin 512) : Multiset ℕ :=
  (child (m.pte a i)).elim 0 (nodes child m.pte n)

structure Walking (n a : ℕ) (m : Mem) (l : List (Fin 512)) (t : Mem) : Prop where
  nodup : l.Nodup
  kernel : SameKernel m t
  free : (t.free : Multiset ℕ) + (l.map (m.kids n a)).sum = ∑ i, m.kids n a i + m.free
  entry : ∀ i ∈ l, t.pte a i = m.pte a i
  kids : ∀ i ∈ l, ∀ b ∈ m.kids n a i, t.page b = m.page b
  page : ∀ b, b ∉ nodes child m.pte (n + 1) a → t.page b = m.page b

/-- Memory `t` is `m` with the pages of the tree at `a` freed. -/
structure Gone (n a : ℕ) (m t : Mem) : Prop where
  kernel : SameKernel m t
  free : (t.free : Multiset ℕ) = nodes child m.pte n a + m.free
  page : ∀ b, b ∉ nodes child m.pte n a → t.page b = m.page b

theorem Walking.skip {n a : ℕ} {x : Fin 512} {l : List (Fin 512)} (h : Walking n a m (x :: l) t)
    (hx : child (m.pte a x) = none) : Walking n a m l t where
  nodup := (List.nodup_cons.mp h.nodup).2
  kernel := h.kernel
  free := by
    have hfree := h.free
    rw [List.map_cons, List.sum_cons, Mem.kids, hx] at hfree
    rw [← hfree]
    simp
  entry i hi := h.entry i (List.mem_cons_of_mem _ hi)
  kids i hi := h.kids i (List.mem_cons_of_mem _ hi)
  page := h.page

theorem Walking.step {n a c : ℕ} {x : Fin 512} {l : List (Fin 512)} (hm : Hollow (n + 1) m a)
    (h : Walking n a m (x :: l) t) (hx : child (m.pte a x) = some c)
    (hnodes : nodes child t.pte n c = nodes child m.pte n c) (hg : Gone n c t u) :
    Walking n a m l (u.setPte a x 0) := by
  obtain ⟨hxl, hl⟩ := List.nodup_cons.mp h.nodup
  have ha : a ∉ nodes child t.pte n c := by
    rw [hnodes]
    exact fun hmem => ne_of_mem_child hm.nodup hx hmem rfl
  have hpage : ∀ b ≠ a, b ∉ nodes child m.pte n c →
      (u.setPte a x 0).page b = t.page b := by
    intro b hba hbc
    rw [← hg.page b (hnodes ▸ hbc)]
    simp [hba]
  refine ⟨hl, h.kernel.trans hg.kernel, ?_, fun i hi => ?_, fun i hi b hb => ?_, fun b hb => ?_⟩
  · have hfree := h.free
    rw [List.map_cons, List.sum_cons, Mem.kids, hx, Option.elim_some] at hfree
    rw [Mem.setPte_free, hg.free, hnodes, ← hfree]
    abel
  · have hix : i ≠ x := by
      rintro rfl
      exact hxl hi
    rw [Mem.pte_setPte_slot hix, Mem.pte_of_page (hg.page a ha)]
    exact h.entry i (List.mem_cons_of_mem _ hi)
  · have hix : i ≠ x := by
      rintro rfl
      exact hxl hi
    have hb' := hb
    rw [Mem.kids] at hb'
    cases hd : child (m.pte a i) with
    | none =>
      rw [hd] at hb'
      exact absurd hb' (notMem_zero b)
    | some d =>
      rw [hd, Option.elim_some] at hb'
      rw [hpage b (ne_of_mem_child hm.nodup hd hb') (notMem_other_child hm.nodup hix hd hx hb')]
      exact h.kids i (List.mem_cons_of_mem _ hi) b hb
  · have hba : b ≠ a := by
      rintro rfl
      exact hb self_mem_nodes
    rw [hpage b hba fun hmem => hb (mem_nodes_of_child hx hmem)]
    exact h.page b hb

theorem freeEntry_skip {free : ℕ → VmM Unit} {Q : Unit → Mem → Prop} {a : ℕ} {i : Fin 512}
    (h : t.pte a i &&& pteV = 0) (hQ : Q () t) : wp (freeEntry free a i) Q E t := by
  unfold freeEntry
  simp only [wp_bind, wp_get]
  rw [if_neg (fun hc => hc.1 h), if_neg (not_not.mpr h)]
  exact hQ

theorem and_of_child_none {e : ℕ} (h : child e = none) : e &&& pteV = 0 := by
  by_contra hv
  rw [child, if_pos hv] at h
  cases h

theorem child_eq_some {e c : ℕ} (h : child e = some c) : e &&& pteV ≠ 0 ∧ c = pte2pa e := by
  unfold child at h
  split at h
  next hv => exact ⟨hv, (Option.some.inj h).symm⟩
  · cases h

theorem freeLoop_zero (f : ℕ → VmM Unit) {a : ℕ} (h : Hollow 0 m a) (l : List (Fin 512)) :
    wp (l.forM (freeEntry f a)) (fun _ t => t = m) E m := by
  refine wp_forM (fun _ t => t = m) ?_ l m rfl
  rintro x xs s rfl
  exact freeEntry_skip (h.leaf fun _ => x) rfl

theorem freeLoop_succ (f : ℕ → VmM Unit) {n a : ℕ} (h : Hollow (n + 1) m a)
    (hf : ∀ (c : ℕ) (s : Mem), Hollow n s c → wp (f c) (fun _ t => Gone n c s t) E s)
    (l : List (Fin 512)) (hl : Walking n a m l t) :
    wp (l.forM (freeEntry f a)) (fun _ u => Walking n a m [] u) E t := by
  refine wp_forM (Walking n a m) (fun x xs s hs => ?_) l t hl
  have he := hs.entry x List.mem_cons_self
  cases hx : child (m.pte a x) with
  | none =>
    refine freeEntry_skip ?_ (hs.skip hx)
    rw [he]
    exact and_of_child_none hx
  | some c =>
    obtain ⟨hv, rfl⟩ := child_eq_some hx
    have hplain := (h.inner x _ hx).1
    have hkids : ∀ b ∈ nodes child m.pte n (pte2pa (m.pte a x)), s.page b = m.page b := by
      intro b hb
      refine hs.kids x List.mem_cons_self b ?_
      rw [Mem.kids, hx]
      exact hb
    have hsub := (h.child hx).congr hs.kernel hkids
    have hnodes : nodes child s.pte n (pte2pa (m.pte a x)) =
        nodes child m.pte n (pte2pa (m.pte a x)) :=
      (same_of_agree fun b hb => Mem.pte_of_page (hkids b hb)).nodes
    unfold freeEntry
    simp only [wp_bind, wp_get]
    rw [he, if_pos ⟨hv, plain_and hplain⟩]
    refine wp_seq (hf _ s hsub) ?_
    intro _ u hg
    exact hs.step h hx hnodes hg

theorem freewalk_spec (n : ℕ) : ∀ (a : ℕ) (m : Mem), Hollow n m a →
    wp (freewalk (n + 1) a) (fun _ t => Gone n a m t) E m := by
  induction n with
  | zero =>
    intro a m h
    have hpg := h.page a self_mem_nodes
    rw [freewalk_succ, wp_bind]
    generalize List.finRange 512 = l
    refine wp_post (freeLoop_zero (freewalk 0) h l) ?_
    rintro _ t rfl
    refine wp_post (kfree_wp hpg.1 hpg.2.1 hpg.2.2) ?_
    rintro _ u ⟨hk, hfree, hpage⟩
    refine ⟨hk, ?_, fun b hb => hpage b ?_⟩
    · rw [hfree, nodes_zero]
      rfl
    · rwa [nodes_zero, mem_singleton] at hb
  | succ n ih =>
    intro a m h
    have hpg := h.page a self_mem_nodes
    have hstart : Walking n a m (List.finRange 512) m := by
      refine ⟨List.nodup_finRange 512, ⟨rfl, rfl⟩, ?_, fun _ _ => rfl, fun _ _ _ _ => rfl,
        fun _ _ => rfl⟩
      rw [Fin.sum_univ_def, add_comm]
    rw [freewalk_succ, wp_bind]
    generalize List.finRange 512 = l at hstart ⊢
    refine wp_post (freeLoop_succ (freewalk (n + 1)) h ih l hstart) ?_
    intro _ t ht
    have hlo : t.kend ≤ a := by
      rw [ht.kernel.1]
      exact hpg.2.1
    refine wp_post (kfree_wp hpg.1 hlo hpg.2.2) ?_
    rintro _ u ⟨hk, hfree, hpage⟩
    refine ⟨ht.kernel.trans hk, ?_, fun b hb => ?_⟩
    · have hsum := ht.free
      rw [List.map_nil, List.sum_nil, add_zero] at hsum
      rw [hfree, nodes_succ, ← cons_coe, hsum, cons_add]
      rfl
    · have hba : b ≠ a := by
        rintro rfl
        exact hb self_mem_nodes
      rw [hpage b hba, ht.page b hb]

/-- The pages on the free list are different pages of memory above the kernel, and the trampoline is
in memory. -/
structure Mem.Pool (m : Mem) : Prop where
  nodup : m.free.Nodup
  page : ∀ a ∈ m.free, a % pgsize = 0 ∧ m.kend ≤ a ∧ a < phystop
  tramp : m.tramp + pgsize ≤ 2 ^ 64

/-- The pages `X` have been taken from the free list of `m₀`; only pages of that list have been
written. -/
structure Took (m₀ : Mem) (X : Multiset ℕ) (t : Mem) : Prop where
  kernel : SameKernel m₀ t
  pages : (m₀.free : Multiset ℕ) = X + t.free
  page : ∀ b, b ∉ m₀.free → t.page b = m₀.page b

structure Built (m₀ : Mem) (root : ℕ) (X : Multiset ℕ) (t : Mem) : Prop where
  took : Took m₀ (t.tables root + X) t
  inner : Inner child Plain t.pte 2 root

variable {X : Multiset ℕ} {a b : ℕ}

namespace Took

theorem refl (m : Mem) : Took m 0 m := ⟨⟨rfl, rfl⟩, (zero_add _).symm, fun _ _ => rfl⟩

section
variable (h : Took m₀ X t)
include h

theorem mem (hb : b ∈ X) : b ∈ m₀.free := by
  rw [← mem_coe, h.pages, mem_add]
  exact .inl hb

theorem mem_free (hb : b ∈ t.free) : b ∈ m₀.free := by
  rw [← mem_coe, h.pages, mem_add]
  exact .inr hb

theorem nodup (hp : m₀.Pool) : (X + (t.free : Multiset ℕ)).Nodup := by
  rw [← h.pages]
  exact hp.nodup

theorem range (hp : m₀.Pool) (hb : b ∈ X) : b % pgsize = 0 ∧ t.kend ≤ b ∧ b < phystop := by
  rw [h.kernel.1]
  exact hp.page b (h.mem hb)

theorem notMem_free (hp : m₀.Pool) (hb : b ∈ X) : b ∉ t.free := fun hf =>
  disjoint_left.mp (nodup_add.mp (h.nodup hp)).2.2 hb hf

theorem heap (hp : m₀.Pool) : t.Heap where
  nodup := (nodup_add.mp (h.nodup hp)).2.1
  page a ha := by
    have hpg := hp.page a (h.mem_free ha)
    exact ⟨hpg.1, hpg.2.2.trans (by norm_num [phystop, kernbase])⟩

end

theorem kalloc (h : Took m₀ X m) : wp kalloc (fun r t =>
    match r with
    | none => Took m₀ X t ∧ t.page = m.page
    | some a => Took m₀ (a ::ₘ X) t ∧ ∀ b ≠ a, t.page b = m.page b) E m := by
  refine wp_post kalloc_spec ?_
  rintro r t ⟨hk, hr⟩
  cases r with
  | none =>
    refine ⟨⟨h.kernel.trans hk, ?_, fun b hb => ?_⟩, hr.2⟩
    · rw [hr.1]
      exact h.pages
    · rw [hr.2]
      exact h.page b hb
  | some a =>
    obtain ⟨hfree, hpage⟩ := hr
    refine ⟨⟨h.kernel.trans hk, ?_, fun b hb => ?_⟩, hpage⟩
    · rw [h.pages, hfree, ← cons_coe, add_cons, cons_add]
    · have hba : b ≠ a := by
        rintro rfl
        exact hb (h.mem_free (hfree ▸ List.mem_cons_self))
      rw [hpage b hba]
      exact h.page b hb

theorem kfree (hp : m₀.Pool) (h : Took m₀ (a ::ₘ X) m) : wp (kfree a) (fun _ t =>
    Took m₀ X t ∧ ∀ b ≠ a, t.page b = m.page b) E m := by
  have hr := h.range hp (mem_cons_self a X)
  refine wp_post (kfree_wp hr.1 hr.2.1 hr.2.2) ?_
  rintro _ t ⟨hk, hfree, hpage⟩
  refine ⟨⟨h.kernel.trans hk, ?_, fun b hb => ?_⟩, hpage⟩
  · rw [h.pages, hfree, ← cons_coe, add_cons, cons_add]
  · have hba : b ≠ a := by
      rintro rfl
      exact hb (h.mem (mem_cons_self b X))
    rw [hpage b hba]
    exact h.page b hb

end Took

namespace Built

theorem disjoint (h : Built m₀ root X t) (hp : m₀.Pool) (hb : b ∈ X) : b ∉ t.tables root := by
  have hn := (nodup_add.mp (h.took.nodup hp)).1
  exact fun hmem => disjoint_left.mp (nodup_add.mp hn).2.2 hmem hb

theorem table (h : Built m₀ root X t) (hp : m₀.Pool) : Table t root := by
  have hn := (nodup_add.mp (h.took.nodup hp)).1
  refine ⟨h.took.heap hp, ⟨(nodup_add.mp hn).1, fun b hb hmem => ?_⟩, h.inner⟩
  exact h.took.notMem_free hp (mem_add.mpr (.inl hmem)) hb

theorem congr {Y : Multiset ℕ} (h : Built m₀ root X m)
    (hag : ∀ b ∈ m.tables root, t.page b = m.page b) (ht : Took m₀ (m.tables root + Y) t) :
    Built m₀ root Y t := by
  have hs := same_of_pages hag
  refine ⟨?_, hs.inner _ h.inner⟩
  rw [Mem.tables, hs.nodes]
  exact ht

theorem kalloc (hp : m₀.Pool) (h : Built m₀ root X m) : wp kalloc (fun r t =>
    (∀ b ∈ m.tables root, t.page b = m.page b) ∧
    match r with
    | none => Built m₀ root X t ∧ t.page = m.page
    | some a => Built m₀ root (a ::ₘ X) t ∧ ∀ b ≠ a, t.page b = m.page b) E m := by
  refine wp_post h.took.kalloc ?_
  intro r t hr
  cases r with
  | none =>
    have hag : ∀ b ∈ m.tables root, t.page b = m.page b := fun b _ => congrFun hr.2 b
    exact ⟨hag, h.congr hag hr.1, hr.2⟩
  | some a =>
    obtain ⟨ht, hpage⟩ := hr
    have hag : ∀ b ∈ m.tables root, t.page b = m.page b := by
      intro b hb
      refine hpage b ?_
      rintro rfl
      have hn := (nodup_add.mp (ht.nodup hp)).1
      exact (nodup_cons.mp hn).1 (mem_add.mpr (.inl hb))
    refine ⟨hag, h.congr hag ?_, hpage⟩
    rw [add_cons]
    exact ht

theorem setPage (hp : m₀.Pool) (h : Built m₀ root X m) (ha : a ∈ X) (f : ℕ → UInt8) :
    Built m₀ root X (m.setPage a f) ∧
      ∀ x, (m.setPage a f).lookup root x = m.lookup root x := by
  have hag : ∀ b ∈ m.tables root, (m.setPage a f).page b = m.page b := by
    intro b hb
    have hba : b ≠ a := by
      rintro rfl
      exact h.disjoint hp ha hb
    simp [hba]
  refine ⟨h.congr hag ⟨h.took.kernel, h.took.pages, fun b hb => ?_⟩,
    lookup_of_same (same_of_pages hag)⟩
  have hba : b ≠ a := by
    rintro rfl
    exact hb (h.took.mem (mem_add.mpr (.inr ha)))
  rw [← h.took.page b hb]
  simp [hba]

theorem kfree (hp : m₀.Pool) (h : Built m₀ root (a ::ₘ X) m) : wp (kfree a) (fun _ t =>
    Built m₀ root X t ∧ (∀ x, t.lookup root x = m.lookup root x) ∧
      ∀ b ≠ a, t.page b = m.page b) E m := by
  have ht := h.took
  rw [add_cons] at ht
  refine wp_post (ht.kfree hp) ?_
  rintro _ t ⟨htook, hpage⟩
  have hag : ∀ b ∈ m.tables root, t.page b = m.page b := by
    intro b hb
    refine hpage b ?_
    rintro rfl
    exact h.disjoint hp (mem_cons_self b X) hb
  exact ⟨h.congr hag htook, lookup_of_same (same_of_pages hag), hpage⟩

end Built

end Xv6.Vm
