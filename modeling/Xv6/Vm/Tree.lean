import Xv6.Lib.Radix
import Xv6.Vm.Model

/-! Page tables as radix trees of three levels. `walk` follows the path of a virtual address and
hangs empty pages into the tree where it breaks off. -/
namespace Xv6.Vm
open Hoare Radix List Mem

def child (pte : ℕ) : Option ℕ := if pte &&& pteV ≠ 0 then some (pte2pa pte) else none

theorem child_zero : child 0 = none := rfl

theorem pa2pte_eq (pa : ℕ) : pa2pte pa = (pa / 4096) <<< 10 := by
  rw [pa2pte, Nat.shiftRight_eq_div_pow]

variable {f pa va root : ℕ} {m t : Mem} {E : Panic → Prop}

theorem pa2pte_or (pa : ℕ) (hf : f < 2 ^ 10) : pa2pte pa ||| f = pa / 4096 * 2 ^ 10 + f := by
  rw [pa2pte_eq, ← Nat.shiftLeft_add_eq_or_of_lt hf, Nat.shiftLeft_eq]

theorem pte2pa_pa2pte_or (ha : pa % pgsize = 0) (hf : f < 2 ^ 10) :
    pte2pa (pa2pte pa ||| f) = pa := by
  rw [pa2pte_or pa hf, pte2pa, Nat.shiftRight_eq_div_pow, Nat.shiftLeft_eq]
  simp only [pgsize] at ha
  omega

theorem pteFlags_pa2pte_or (hf : f < 2 ^ 10) : pteFlags (pa2pte pa ||| f) = f := by
  rw [pa2pte_or pa hf, pteFlags, show (0x3FF : ℕ) = 2 ^ 10 - 1 from rfl,
    Nat.and_two_pow_sub_one_eq_mod]
  omega

theorem or_pteV_and (w : ℕ) : (w ||| pteV) &&& pteV ≠ 0 := by
  rw [Nat.and_or_distrib_right, Nat.and_self]
  intro h
  exact absurd (Nat.or_eq_zero_iff.mp h).2 one_ne_zero

theorem perm_or_lt {perm : ℕ} (hp : perm < 2 ^ 10) : perm ||| pteV < 2 ^ 10 :=
  Nat.or_lt_two_pow hp (by decide)

theorem pa2pte_or_lt (ha : pa < 2 ^ 64) (hf : f < 2 ^ 10) : pa2pte pa ||| f < 2 ^ 64 := by
  rw [pa2pte_or pa hf]
  omega

theorem child_pa2pte (ha : pa % pgsize = 0) : child (pa2pte pa ||| pteV) = some pa := by
  rw [child, if_pos (or_pteV_and _), pte2pa_pa2pte_or ha (by decide)]

namespace Mem
variable {b b' w : ℕ} {i i' : Fin 512}

theorem pte_setPage_other {f : ℕ → UInt8} (h : b' ≠ b) : (m.setPage b f).pte b' = m.pte b' := by
  funext i
  simp [pte, h]

theorem pte_of_page (h : t.page b = m.page b) : t.pte b = m.pte b := by
  funext i
  simp [pte, h]

theorem pte_setPte_self (hw : w < 2 ^ 64) : (m.setPte b i w).pte b i = w := by
  have hbytes : ∀ k < 8, (m.setPte b i w).page b (8 * i.val + k) = LittleEndian.byte w k := by
    intro k hk
    simp only [setPte_page, Function.update_self]
    rw [if_pos (by omega), show (8 * i.val + k) % 8 = k by omega]
  rw [pte, LittleEndian.word_congr hbytes, LittleEndian.word_byte]
  exact Nat.mod_eq_of_lt (by simpa using hw)

theorem pte_setPte_slot (h : i' ≠ i) : (m.setPte b i w).pte b i' = m.pte b i' := by
  refine LittleEndian.word_congr fun k hk => ?_
  simp only [setPte_page, Function.update_self]
  rw [if_neg]
  intro hc
  exact h (Fin.ext (by omega))

theorem pte_setPte_other (h : b' ≠ b) : (m.setPte b i w).pte b' = m.pte b' := pte_setPage_other h

theorem pte_memset_zero : (m.memset b 0).pte b i = 0 := by
  rw [pte]
  simp only [memset_page, Function.update_self]
  exact LittleEndian.word_zero 8

end Mem

def path (va : ℕ) : ℕ → Fin 512 := fun level => px level va

/-- The entry for `va` in the page table at `root`, zero where the walk breaks off. -/
def Mem.lookup (m : Mem) (root va : ℕ) : ℕ := Radix.lookup child 0 m.pte (path va) 2 root

def Mem.tables (m : Mem) (root : ℕ) : Multiset ℕ := nodes child m.pte 2 root

theorem px_val (level va : ℕ) : (px level va).val = va / 2 ^ (12 + 9 * level) % 512 := by
  rw [px, Fin.ofNat, Nat.shiftRight_eq_div_pow]

abbrev sv39 : ℕ := 2 ^ 39

theorem lt_sv39 (h : va < maxva) : va < sv39 := h.trans (by norm_num [maxva, sv39])

theorem along_iff {va' : ℕ} (h : va < sv39) (h' : va' < sv39) :
    Along (path va) (path va') 2 ↔ va' / pgsize = va / pgsize := by
  simp only [sv39] at h h'
  constructor
  · intro hal
    have h0 := congrArg Fin.val (hal 0 (by omega))
    have h1 := congrArg Fin.val (hal 1 (by omega))
    have h2 := congrArg Fin.val (hal 2 (by omega))
    simp only [path, px_val] at h0 h1 h2
    simp only [pgsize]
    omega
  · intro heq k hk
    apply Fin.ext
    simp only [path, px_val]
    simp only [pgsize] at heq
    interval_cases k <;> simp only [Nat.reduceMul, Nat.reduceAdd, Nat.reducePow] <;> omega

theorem lookup_page {va' : ℕ} (h : va < sv39) (h' : va' < sv39)
    (heq : va' / pgsize = va / pgsize) : m.lookup root va' = m.lookup root va := by
  have hal := (along_iff h h').mpr heq
  unfold Mem.lookup Radix.lookup
  rw [leaf_congr fun k _ hk => hal k hk, hal 0 (by omega)]

theorem walkLoop_false (va : ℕ) (n a : ℕ) :
    wp (walkLoop va false n a) (fun r t => t = m ∧ r = leaf child m.pte (path va) n a) E m := by
  induction n generalizing a with
  | zero => exact ⟨rfl, rfl⟩
  | succ n ih =>
    unfold walkLoop
    simp only [wp_bind, wp_get]
    split
    next hv =>
      refine wp_post (ih _) ?_
      rintro r t ⟨rfl, rfl⟩
      refine ⟨rfl, ?_⟩
      rw [leaf, child, path, if_pos hv]
      rfl
    next hv =>
      refine ⟨rfl, ?_⟩
      rw [leaf, child, path, if_neg hv]
      rfl

theorem walk_false (hva : va < maxva) : wp (walk root va false) (fun r t => t = m ∧
      r = (leaf child m.pte (path va) 2 root).map fun b => (b, px 0 va)) E m := by
  unfold walk
  rw [if_neg (by omega)]
  refine wp_seq (walkLoop_false va 2 root) ?_
  rintro r t ⟨rfl, rfl⟩
  exact ⟨rfl, rfl⟩

theorem lookup_of_leaf {b : ℕ}
    (h : leaf child m.pte (path va) 2 root = some b) : m.lookup root va = m.pte b (px 0 va) := by
  rw [Mem.lookup, Radix.lookup, h]
  rfl

/-- The pages on the free list are different pages of memory. -/
structure Mem.Heap (m : Mem) : Prop where
  nodup : m.free.Nodup
  page : ∀ a ∈ m.free, a % pgsize = 0 ∧ a < 2 ^ 64

def SameKernel (m t : Mem) : Prop := t.kend = m.kend ∧ t.tramp = m.tramp

theorem SameKernel.trans {u : Mem} (h : SameKernel m t) (h' : SameKernel t u) : SameKernel m u :=
  ⟨h'.1.trans h.1, h'.2.trans h.2⟩

theorem kalloc_spec : wp kalloc (fun r t => SameKernel m t ∧ match r with
    | none => t.free = m.free ∧ t.page = m.page
    | some a => m.free = a :: t.free ∧ ∀ b ≠ a, t.page b = m.page b) E m := by
  unfold kalloc
  simp only [wp_bind, wp_get]
  split
  next a rest hf hfree =>
    refine ⟨⟨rfl, rfl⟩, ?_, fun b hb => ?_⟩
    · simpa using hfree
    · simp [hb]
  · exact ⟨⟨rfl, rfl⟩, rfl, rfl⟩

/-- The tree of height `n` at `a` has its own pages. -/
structure Rooted (n : ℕ) (m : Mem) (a : ℕ) : Prop where
  nodup : (nodes child m.pte n a).Nodup
  fresh : ∀ b ∈ m.free, b ∉ nodes child m.pte n a

/-- Entries that point to pages of the table have no permission bits. -/
def Plain (e : ℕ) : Prop := pteFlags e = pteV

structure Extended (n a : ℕ) (m t : Mem) (F : List ℕ) : Prop where
  kernel : SameKernel m t
  free : m.free = F ++ t.free
  grows : Grows child 0 Plain m.pte t.pte n a (F : Multiset ℕ)
  page : ∀ b, b ∉ nodes child m.pte n a → b ∉ F → t.page b = m.page b

namespace Extended
variable {n a : ℕ} {u : Mem} {F F' : List ℕ}

theorem refl (n a : ℕ) (m : Mem) : Extended n a m m [] :=
  ⟨⟨rfl, rfl⟩, rfl, .refl, fun _ _ _ => rfl⟩

theorem heap (h : Extended n a m t F) (hm : m.Heap) : t.Heap := by
  have hn := hm.nodup
  rw [h.free] at hn
  refine ⟨(nodup_append.mp hn).2.1, fun b hb => hm.page b ?_⟩
  rw [h.free]
  exact mem_append_right F hb

theorem rooted (h : Extended n a m t F) (hm : m.Heap) (hr : Rooted n m a) : Rooted n t a := by
  have hn := hm.nodup
  rw [h.free] at hn
  obtain ⟨hF, _, hdis⟩ := nodup_append.mp hn
  have hfresh : ∀ b ∈ F, b ∉ nodes child m.pte n a := fun b hb =>
    hr.fresh b (h.free ▸ mem_append_left _ hb)
  constructor
  · rw [h.grows.nodes, Multiset.nodup_add]
    refine ⟨hr.nodup, hF, ?_⟩
    rw [Multiset.disjoint_left]
    exact fun hb hbF => hfresh _ hbF hb
  · intro b hb hmem
    rw [h.grows.nodes, Multiset.mem_add] at hmem
    rcases hmem with hmem | hmem
    · exact hr.fresh b (h.free ▸ mem_append_right _ hb) hmem
    · exact hdis b hmem b hb rfl

theorem trans (h : Extended n a m t F) (h' : Extended n a t u F') : Extended n a m u (F ++ F') where
  kernel := h.kernel.trans h'.kernel
  free := by rw [h.free, h'.free, append_assoc]
  grows := by
    rw [← Multiset.coe_add]
    exact h.grows.trans h'.grows
  page b hb hF := by
    simp only [mem_append, not_or] at hF
    rw [h'.page b _ hF.2, h.page b hb hF.1]
    rw [h.grows.nodes, Multiset.mem_add, not_or]
    exact ⟨hb, hF.1⟩

/-- A change in the subtree at index `j` is a change of the whole tree. -/
theorem lift {c : ℕ} {j : Fin 512} (hr : Rooted (n + 1) m a) (hc : child (m.pte a j) = some c)
    (h : Extended n c m t F) : Extended (n + 1) a m t F := by
  have hF : ∀ b ∈ F, b ∉ nodes child m.pte (n + 1) a := fun b hb =>
    hr.fresh b (h.free ▸ mem_append_left _ hb)
  have hbelow : Below child m.pte t.pte n a j c := by
    refine ⟨hr.nodup, hc, fun b hb hbc => pte_of_page (h.page b hbc fun hmem => ?_)⟩
    exact hF b hmem hb
  refine ⟨h.kernel, h.free, h.grows.lift hbelow, fun b hb hbF => h.page b (fun hmem => ?_) hbF⟩
  exact hb (mem_nodes_of_child hc hmem)

end Extended

theorem extended_of_alloc {n a : ℕ} {j : Fin 512} (hr : Rooted (n + 1) m a)
    (hm : m.Heap) (hj : child (m.pte a j) = none) (hk : SameKernel m t)
    (hfree : m.free = pa :: t.free) (hpage : ∀ b ≠ pa, t.page b = m.page b) :
    Extended (n + 1) a m ((t.memset pa 0).setPte a j (pa2pte pa ||| pteV)) [pa] := by
  obtain ⟨hal, hlt⟩ := hm.page pa (hfree ▸ mem_cons_self)
  have hfresh : pa ∉ nodes child m.pte (n + 1) a :=
    hr.fresh pa (hfree ▸ mem_cons_self)
  have hne : a ≠ pa := by
    rintro rfl
    exact hfresh self_mem_nodes
  have hta : (t.memset pa 0).pte a = m.pte a := by
    rw [Mem.memset, pte_setPage_other hne, pte_of_page (hpage a hne)]
  refine ⟨hk, hfree, ?_, fun b hb hbF => ?_⟩
  · refine grows_of_empty hr.nodup hfresh hj child_zero (child_pa2pte hal)
      (pteFlags_pa2pte_or (by decide)) (fun i => ?_) ?_ (fun i hi => ?_) fun b hba hbp => ?_
    · rw [pte_setPte_other hne.symm, pte_memset_zero]
    · exact pte_setPte_self (pa2pte_or_lt hlt (by decide))
    · rw [pte_setPte_slot hi, hta]
    · rw [pte_setPte_other hba, Mem.memset, pte_setPage_other hbp, pte_of_page (hpage b hbp)]
  · have hba : b ≠ a := by
      rintro rfl
      exact hb self_mem_nodes
    have hbp : b ≠ pa := by simpa using hbF
    simp [hba, hbp, hpage b hbp]

def Walked (va n a : ℕ) (m : Mem) (r : Option ℕ) (t : Mem) : Prop :=
  ∃ F, Extended n a m t F ∧ ∀ b, r = some b → leaf child t.pte (path va) n a = some b

theorem walkLoop_true (va : ℕ) (n : ℕ) : ∀ a (m : Mem), m.Heap → Rooted n m a →
    wp (walkLoop va true n a) (Walked va n a m) E m := by
  induction n with
  | zero =>
    intro a m _ _
    refine ⟨[], .refl 0 a m, ?_⟩
    rintro b ⟨⟩
    rfl
  | succ n ih =>
    intro a m hm hr
    unfold walkLoop
    simp only [wp_bind, wp_get]
    split
    next hv =>
      have hc : child (m.pte a (px (n + 1) va)) = some (pte2pa (m.pte a (px (n + 1) va))) :=
        if_pos hv
      have hsub : Rooted n m (pte2pa (m.pte a (px (n + 1) va))) :=
        ⟨nodup_child hr.nodup hc, fun b hb hmem => hr.fresh b hb (mem_nodes_of_child hc hmem)⟩
      refine wp_post (ih _ m hm hsub) ?_
      rintro r t ⟨F, hext, hleaf⟩
      have hup := hext.lift hr hc
      refine ⟨F, hup, fun b hb => ?_⟩
      have hroot : t.pte a = m.pte a := by
        refine pte_of_page (hext.page a (fun hmem => ?_) fun hmem => ?_)
        · exact ne_of_mem_child hr.nodup hc hmem rfl
        · exact hr.fresh a (hext.free ▸ mem_append_left _ hmem) self_mem_nodes
      rw [leaf, hroot, path, hc]
      exact hleaf b hb
    next hv =>
      have hj : child (m.pte a (px (n + 1) va)) = none := if_neg hv
      simp only [Bool.true_eq_false, if_false]
      refine wp_seq kalloc_spec ?_
      rintro r t ⟨hk, hr'⟩
      cases r with
      | none =>
        obtain ⟨hfree, hpage⟩ := hr'
        have hpte : t.pte = m.pte := by
          funext b
          exact pte_of_page (congrFun hpage b)
        refine ⟨[], ⟨hk, hfree.symm, ?_, fun b _ _ => congrFun hpage b⟩, fun _ hb => by cases hb⟩
        rw [hpte]
        exact .refl
      | some pa =>
        obtain ⟨hfree, hpage⟩ := hr'
        simp only [wp_bind, wp_modify]
        have hext := extended_of_alloc hr hm hj hk hfree hpage
        set u := (t.memset pa 0).setPte a (px (n + 1) va) (pa2pte pa ||| pteV) with hu
        have hru := hext.rooted hm hr
        obtain ⟨hal, hlt⟩ := hm.page pa (hfree ▸ mem_cons_self)
        have hcu : child (u.pte a (px (n + 1) va)) = some pa := by
          rw [hu, pte_setPte_self (pa2pte_or_lt hlt (by decide)), child_pa2pte hal]
        have hsub : Rooted n u pa :=
          ⟨nodup_child hru.nodup hcu, fun b hb hmem => hru.fresh b hb (mem_nodes_of_child hcu hmem)⟩
        refine wp_post (ih pa u (hext.heap hm) hsub) ?_
        rintro r v ⟨F, hext', hleaf⟩
        refine ⟨_, hext.trans (hext'.lift hru hcu), fun b hb => ?_⟩
        have hroot : v.pte a = u.pte a := by
          refine pte_of_page (hext'.page a (fun hmem => ?_) fun hmem => ?_)
          · exact ne_of_mem_child hru.nodup hcu hmem rfl
          · exact hru.fresh a (hext'.free ▸ mem_append_left _ hmem) self_mem_nodes
        rw [leaf, hroot, path, hcu]
        exact hleaf b hb

end Xv6.Vm
