import Mathlib.Tactic

/-! Radix trees stored in a heap. A node is an array of entries; above the bottom level an entry is
empty or points to a node of the next level, and a path gives the index to follow at each level. -/
namespace Radix
open Function Multiset
variable {A ι E : Type*}

/-- The node of the bottom level in which a path ends. -/
def leaf (child : E → Option A) (h : A → ι → E) (p : ℕ → ι) : ℕ → A → Option A
  | 0, a => some a
  | n + 1, a => (child (h a (p (n + 1)))).bind (leaf child h p n)

/-- The entry at the end of a path, `e₀` when the path breaks off. -/
def lookup (child : E → Option A) (e₀ : E) (h : A → ι → E) (p : ℕ → ι) (n : ℕ) (a : A) : E :=
  (leaf child h p n a).elim e₀ fun b => h b (p 0)

/-- The entries that point to nodes satisfy `P`. -/
def Inner (child : E → Option A) (P : E → Prop) (h : A → ι → E) : ℕ → A → Prop
  | 0, _ => True
  | n + 1, a => ∀ i c, child (h a i) = some c → P (h a i) ∧ Inner child P h n c

variable {child : E → Option A} {h h' h'' : A → ι → E} {n : ℕ} {a b c : A} {p q : ℕ → ι} {i j : ι}
  {e₀ : E} {P : E → Prop}

theorem lookup_empty (hc : ∀ i, h c i = e₀) (he : child e₀ = none) :
    lookup child e₀ h q n c = e₀ := by
  cases n with
  | zero => exact hc _
  | succ n => simp [lookup, leaf, hc, he]

theorem leaf_congr (hpq : ∀ k, 0 < k → k ≤ n → q k = p k) :
    leaf child h q n a = leaf child h p n a := by
  induction n generalizing a with
  | zero => rfl
  | succ n ih =>
    rw [leaf, leaf, hpq (n + 1) (Nat.succ_pos n) le_rfl]
    cases child (h a (p (n + 1))) with
    | none => rfl
    | some c => exact ih fun k hk hkn => hpq k hk (by omega)

theorem lookup_child (hc : child (h a i) = some c) (p : ℕ → ι) :
    lookup child e₀ h (update p (n + 1) i) (n + 1) a = lookup child e₀ h p n c := by
  have hleaf : leaf child h (update p (n + 1) i) (n + 1) a = leaf child h p n c := by
    rw [leaf, update_self, hc, Option.bind_some]
    exact leaf_congr fun k _ hk => update_of_ne (by omega) _ _
  rw [lookup, lookup, hleaf, update_of_ne (by omega)]

variable [Fintype ι]

/-- The nodes of the tree of height `n` at `a`. -/
def nodes (child : E → Option A) (h : A → ι → E) : ℕ → A → Multiset A
  | 0, a => {a}
  | n + 1, a => a ::ₘ ∑ i, (child (h a i)).elim 0 (nodes child h n)

@[simp] theorem self_mem_nodes : a ∈ nodes child h n a := by
  cases n with
  | zero => exact mem_singleton_self a
  | succ n => exact mem_cons_self a _

theorem nodes_zero : nodes child h 0 a = {a} := rfl

theorem nodes_succ : nodes child h (n + 1) a =
    a ::ₘ ∑ i, (child (h a i)).elim 0 (nodes child h n) := rfl

theorem nodes_child_le (hc : child (h a i) = some c) :
    a ::ₘ nodes child h n c ≤ nodes child h (n + 1) a := by
  rw [nodes_succ, cons_le_cons_iff]
  have hle := Finset.single_le_sum (f := fun i => (child (h a i)).elim 0 (nodes child h n))
    (fun _ _ => Multiset.zero_le _) (Finset.mem_univ i)
  simpa [hc] using hle

theorem mem_nodes_of_child (hc : child (h a i) = some c) (hb : b ∈ nodes child h n c) :
    b ∈ nodes child h (n + 1) a :=
  mem_of_le (nodes_child_le hc) (mem_cons_of_mem hb)

section
variable (hn : (nodes child h (n + 1) a).Nodup)
include hn

theorem nodup_child (hc : child (h a i) = some c) : (nodes child h n c).Nodup :=
  (nodup_cons.mp (nodup_of_le (nodes_child_le hc) hn)).2

theorem ne_of_mem_child (hc : child (h a i) = some c) (hb : b ∈ nodes child h n c) : b ≠ a := by
  rintro rfl
  exact (nodup_cons.mp (nodup_of_le (nodes_child_le hc) hn)).1 hb

theorem notMem_other_child (hij : i ≠ j) {d : A} (hc : child (h a i) = some c)
    (hd : child (h a j) = some d) (hb : b ∈ nodes child h n c) : b ∉ nodes child h n d := by
  classical
  rw [nodes_succ] at hn
  have hsum := (nodup_cons.mp hn).2
  rw [← Finset.add_sum_erase _ _ (Finset.mem_univ i)] at hsum
  have hdis := (nodup_add.mp hsum).2.2
  have hle := Finset.single_le_sum (f := fun i => (child (h a i)).elim 0 (nodes child h n))
    (fun _ _ => Multiset.zero_le _) (Finset.mem_erase.mpr ⟨hij.symm, Finset.mem_univ j⟩)
  intro hmem
  have hbi : b ∈ (child (h a i)).elim 0 (nodes child h n) := by simpa [hc] using hb
  exact disjoint_left.mp hdis hbi (mem_of_le hle (by simpa [hd] using hmem))

end

theorem leaf_mem (hl : leaf child h p n a = some b) : b ∈ nodes child h n a := by
  induction n generalizing a with
  | zero =>
    cases hl
    exact self_mem_nodes
  | succ n ih =>
    obtain ⟨c, hc, hl⟩ := Option.bind_eq_some_iff.mp hl
    exact mem_nodes_of_child hc (ih hl)

/-- The tree at `a` is the same in both heaps. -/
structure Same (child : E → Option A) (h h' : A → ι → E) (n : ℕ) (a : A) : Prop where
  nodes : nodes child h' n a = nodes child h n a
  leaf : ∀ p, leaf child h' p n a = leaf child h p n a
  lookup : ∀ e₀ p, lookup child e₀ h' p n a = lookup child e₀ h p n a
  inner : ∀ P, Inner child P h n a → Inner child P h' n a

theorem same_of_agree (hag : ∀ b ∈ nodes child h n a, h' b = h b) : Same child h h' n a := by
  induction n generalizing a with
  | zero =>
    refine ⟨rfl, fun _ => rfl, fun e₀ p => ?_, fun _ _ => trivial⟩
    change h' a (p 0) = h a (p 0)
    rw [hag a self_mem_nodes]
  | succ n ih =>
    have ha : h' a = h a := hag a self_mem_nodes
    have hsub i c (hc : child (h a i) = some c) : Same child h h' n c :=
      ih fun b hb => hag b (mem_nodes_of_child hc hb)
    refine ⟨?_, fun p => ?_, fun e₀ p => ?_, fun P hP i c hc => ?_⟩
    · rw [nodes_succ, nodes_succ, ha]
      congr 1
      refine Finset.sum_congr rfl fun i _ => ?_
      cases hc : child (h a i) with
      | none => rfl
      | some c => exact (hsub i c hc).nodes
    · rw [leaf, leaf, ha]
      cases hc : child (h a (p (n + 1))) with
      | none => rfl
      | some c => exact (hsub _ c hc).leaf p
    · rw [lookup, lookup, leaf, leaf, ha]
      cases hc : child (h a (p (n + 1))) with
      | none => rfl
      | some c => exact (hsub _ c hc).lookup e₀ p
    · rw [ha] at hc ⊢
      exact ⟨(hP i c hc).1, (hsub i c hc).inner P (hP i c hc).2⟩

private theorem sum_of_eq_off {M : Type*} [AddCommMonoid M] {f g : ι → M} {x : M}
    (hoff : ∀ i ≠ j, g i = f i) (hj : g j = f j + x) : ∑ i, g i = ∑ i, f i + x := by
  classical
  rw [← Finset.add_sum_erase _ g (Finset.mem_univ j),
    ← Finset.add_sum_erase _ f (Finset.mem_univ j), hj,
    Finset.sum_congr rfl fun i hi => hoff i (Finset.ne_of_mem_erase hi)]
  exact add_right_comm _ _ _

/-- Heap `h'` differs from `h` in the subtree at index `j` and outside the tree only. -/
structure Below (child : E → Option A) (h h' : A → ι → E) (n : ℕ) (a : A) (j : ι) (c : A) :
    Prop where
  nodup : (nodes child h (n + 1) a).Nodup
  points : child (h a j) = some c
  agree : ∀ b ∈ nodes child h (n + 1) a, b ∉ nodes child h n c → h' b = h b

namespace Below
variable (hb : Below child h h' n a j c)
include hb

theorem root : h' a = h a :=
  hb.agree a self_mem_nodes fun hmem => ne_of_mem_child hb.nodup hb.points hmem rfl

theorem other {d : A} (hij : i ≠ j) (hd : Option.some d = child (h a i)) : Same child h h' n d :=
  same_of_agree fun b hmem => hb.agree b (mem_nodes_of_child hd.symm hmem)
    (notMem_other_child hb.nodup hij hd.symm hb.points hmem)

theorem nodes_eq {F : Multiset A} (hF : nodes child h' n c = nodes child h n c + F) :
    nodes child h' (n + 1) a = nodes child h (n + 1) a + F := by
  rw [nodes_succ, nodes_succ, hb.root, cons_add]
  congr 1
  refine sum_of_eq_off (j := j) (fun i hij => ?_) ?_
  · cases hd : child (h a i) with
    | none => rfl
    | some d => exact (hb.other hij hd.symm).nodes
  · rw [hb.points]
    exact hF

theorem leaf_eq (hq : q (n + 1) = j) : leaf child h' q (n + 1) a = leaf child h' q n c := by
  rw [leaf, hb.root, hq, hb.points]
  rfl

theorem lookup_eq (hq : q (n + 1) = j) :
    lookup child e₀ h' q (n + 1) a = lookup child e₀ h' q n c := by
  rw [lookup, lookup, hb.leaf_eq hq]

theorem leaf_other (hq : q (n + 1) ≠ j) : leaf child h' q (n + 1) a = leaf child h q (n + 1) a := by
  rw [leaf, leaf, hb.root]
  cases hd : child (h a (q (n + 1))) with
  | none => rfl
  | some d => exact (hb.other hq hd.symm).leaf q

theorem lookup_other (hq : q (n + 1) ≠ j) :
    lookup child e₀ h' q (n + 1) a = lookup child e₀ h q (n + 1) a := by
  rw [lookup, lookup, leaf, leaf, hb.root]
  cases hd : child (h a (q (n + 1))) with
  | none => rfl
  | some d => exact (hb.other hq hd.symm).lookup e₀ q

theorem inner (hP : Inner child P h (n + 1) a)
    (hc : Inner child P h' n c) : Inner child P h' (n + 1) a := by
  intro i d hd
  rw [hb.root] at hd ⊢
  refine ⟨(hP i d hd).1, ?_⟩
  obtain rfl | hij := eq_or_ne i j
  · obtain rfl : d = c := Option.some.inj (hd.symm.trans hb.points)
    exact hc
  · exact (hb.other hij hd.symm).inner P (hP i d hd).2

end Below

/-- The tree at `a` has got the nodes `F`, all of them empty. -/
structure Grows (child : E → Option A) (e₀ : E) (P : E → Prop) (h h' : A → ι → E) (n : ℕ) (a : A)
    (F : Multiset A) : Prop where
  nodes : nodes child h' n a = nodes child h n a + F
  lookup : ∀ q, lookup child e₀ h' q n a = lookup child e₀ h q n a
  inner : Inner child P h n a → Inner child P h' n a

namespace Grows
variable {F F' : Multiset A}

theorem refl : Grows child e₀ P h h n a 0 := ⟨(add_zero _).symm, fun _ => rfl, id⟩

theorem trans (hg : Grows child e₀ P h h' n a F) (hg' : Grows child e₀ P h' h'' n a F') :
    Grows child e₀ P h h'' n a (F + F') where
  nodes := by rw [hg'.nodes, hg.nodes, add_assoc]
  lookup q := (hg'.lookup q).trans (hg.lookup q)
  inner hP := hg'.inner (hg.inner hP)

theorem lift (hb : Below child h h' n a j c) (hg : Grows child e₀ P h h' n c F) :
    Grows child e₀ P h h' (n + 1) a F where
  nodes := hb.nodes_eq hg.nodes
  lookup q := by
    by_cases hq : q (n + 1) = j
    · rw [hb.lookup_eq hq, hg.lookup q, Radix.lookup, Radix.lookup, Radix.leaf, hq, hb.points]
      rfl
    · exact hb.lookup_other hq
  inner hP := hb.inner hP (hg.inner (hP j c hb.points).2)

end Grows

theorem nodes_empty (hc : ∀ i, child (h c i) = none) : nodes child h n c = {c} := by
  cases n with
  | zero => rfl
  | succ n => simp [nodes_succ, hc]

theorem grows_of_empty {x : E} (hn : (nodes child h (n + 1) a).Nodup)
    (hfresh : c ∉ nodes child h (n + 1) a) (hj : child (h a j) = none) (he : child e₀ = none)
    (hx : child x = some c) (hPx : P x) (hc : ∀ i, h' c i = e₀) (haj : h' a j = x)
    (hai : ∀ i ≠ j, h' a i = h a i) (hother : ∀ b ≠ a, b ≠ c → h' b = h b) :
    Grows child e₀ P h h' (n + 1) a {c} := by
  have hcn i : child (h' c i) = none := by rw [hc, he]
  have hsame i d (hd : child (h a i) = some d) : Same child h h' n d := by
    refine same_of_agree fun b hb => hother b (ne_of_mem_child hn hd hb) ?_
    rintro rfl
    exact hfresh (mem_nodes_of_child hd hb)
  refine ⟨?_, fun q => ?_, fun hP i d hd => ?_⟩
  · rw [nodes_succ, nodes_succ, cons_add]
    congr 1
    refine sum_of_eq_off (j := j) (fun i hij => ?_) ?_
    · rw [hai i hij]
      cases hd : child (h a i) with
      | none => rfl
      | some d => exact (hsame i d hd).nodes
    · rw [haj, hx, hj]
      exact (nodes_empty hcn).trans (zero_add _).symm
  · rw [lookup, lookup, leaf, leaf]
    by_cases hq : q (n + 1) = j
    · rw [hq, haj, hx, hj]
      exact lookup_empty hc he
    · rw [hai _ hq]
      cases hd : child (h a (q (n + 1))) with
      | none => rfl
      | some d => exact (hsame _ d hd).lookup e₀ q
  · obtain rfl | hij := eq_or_ne i j
    · rw [haj] at hd ⊢
      obtain rfl : c = d := Option.some.inj (hx.symm.trans hd)
      refine ⟨hPx, ?_⟩
      cases n with
      | zero => trivial
      | succ n =>
        intro i d hd
        rw [hcn i] at hd
        cases hd
    · rw [hai i hij] at hd ⊢
      exact ⟨(hP i d hd).1, (hsame i d hd).inner P (hP i d hd).2⟩

def Along (p q : ℕ → ι) (n : ℕ) : Prop := ∀ k, k ≤ n → q k = p k

/-- The entry at the end of path `p` has become `x`. -/
structure Sets (child : E → Option A) (e₀ : E) (P : E → Prop) (h h' : A → ι → E) (n : ℕ) (a : A)
    (p : ℕ → ι) (x : E) : Prop where
  nodes : nodes child h' n a = nodes child h n a
  leaf : ∀ q, leaf child h' q n a = leaf child h q n a
  lookup_self : ∀ q, Along p q n → lookup child e₀ h' q n a = x
  lookup_other : ∀ q, ¬ Along p q n → lookup child e₀ h' q n a = lookup child e₀ h q n a
  inner : Inner child P h n a → Inner child P h' n a

theorem sets_of_leaf {x : E} (hn : (nodes child h n a).Nodup) (hl : leaf child h p n a = some b)
    (hself : h' b (p 0) = x) (hslot : ∀ i ≠ p 0, h' b i = h b i)
    (hother : ∀ d ∈ nodes child h n a, d ≠ b → h' d = h d) : Sets child e₀ P h h' n a p x := by
  induction n generalizing a with
  | zero =>
    cases hl
    refine ⟨rfl, fun _ => rfl, fun q hq => ?_, fun q hq => ?_, fun _ => trivial⟩
    · change h' b (q 0) = x
      rw [hq 0 le_rfl, hself]
    · refine hslot (q 0) fun h0 => hq fun k hk => ?_
      rwa [Nat.le_zero.mp hk]
  | succ n ih =>
    obtain ⟨c, hc, hl⟩ := Option.bind_eq_some_iff.mp hl
    have hbc := leaf_mem hl
    have hbelow : Below child h h' n a (p (n + 1)) c := by
      refine ⟨hn, hc, fun d hd hdc => hother d hd ?_⟩
      rintro rfl
      exact hdc hbc
    have hs := ih (nodup_child hn hc) hl fun d hd hdb => hother d (mem_nodes_of_child hc hd) hdb
    have hdown q (hq : q (n + 1) = p (n + 1)) : leaf child h q (n + 1) a = leaf child h q n c := by
      rw [leaf, hq, hc]
      rfl
    refine ⟨?_, fun q => ?_, fun q hq => ?_, fun q hq => ?_, fun hP => ?_⟩
    · have hnodes := hbelow.nodes_eq (F := 0) (by rw [hs.nodes, add_zero])
      rwa [add_zero] at hnodes
    · by_cases hqp : q (n + 1) = p (n + 1)
      · rw [hbelow.leaf_eq hqp, hdown q hqp, hs.leaf q]
      · exact hbelow.leaf_other hqp
    · rw [hbelow.lookup_eq (hq (n + 1) le_rfl)]
      exact hs.lookup_self q fun k hk => hq k (by omega)
    · by_cases hqp : q (n + 1) = p (n + 1)
      · rw [hbelow.lookup_eq hqp, hs.lookup_other q, lookup, lookup, hdown q hqp]
        intro hal
        refine hq fun k hk => ?_
        rcases Nat.le_succ_iff.mp hk with hk | rfl
        · exact hal k hk
        · exact hqp
      · exact hbelow.lookup_other hqp
    · exact hbelow.inner hP (hs.inner (hP _ c hc).2)

attribute [irreducible] nodes

end Radix
