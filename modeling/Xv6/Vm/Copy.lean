import Xv6.Vm.Free

/-! `uvmcopy`, `proc_pagetable` and `proc_freepagetable`. A call that fails gives back the pages
that it has taken, wherever memory runs out. -/
namespace Xv6.Vm
open Hoare Radix Multiset
variable {E : Panic → Prop} {m m₀ t u : Mem} {root va pa perm : ℕ} {X : Multiset ℕ}

theorem Built.mappages (hp : m₀.Pool) (h : Built m₀ root X m) (hal : va % pgsize = 0)
    (hva : va + pgsize ≤ maxva) (hpa : pa + pgsize ≤ 2 ^ 64) (hperm : perm < 2 ^ 10)
    (hfree : m.lookup root va &&& pteV = 0) :
    wp (mappages root va pgsize pa perm) (fun r t => Built m₀ root X t ∧
      (∀ b ∉ t.tables root, t.page b = m.page b) ∧
      (∀ x < sv39, (r = true → x / pgsize ≠ va / pgsize) → t.lookup root x = m.lookup root x) ∧
      (r = true → t.lookup root va = pa2pte pa ||| perm ||| pteV)) E m := by
  have hone : pgsize / pgsize = 1 := rfl
  have hlook : ∀ k < pgsize / pgsize, m.lookup root (va + k * pgsize) &&& pteV = 0 := by
    intro k hk
    obtain rfl : k = 0 := by omega
    rwa [Nat.zero_mul, Nat.add_zero]
  refine wp_post (mappages_spec (h.table hp) hal rfl (by decide) hva hpa hperm hlook) ?_
  rintro r t ⟨j, hj, hr, hm⟩
  obtain ⟨F, hF, htab⟩ := hm.taken
  have htook : Took m₀ (t.tables root + X) t := by
    refine ⟨h.took.kernel.trans hm.kernel, ?_, fun b hb => ?_⟩
    · rw [h.took.pages, hF, htab, ← coe_add]
      abel
    · rw [hm.page b, h.took.page b hb]
      intro hmem
      rw [htab, mem_add] at hmem
      rcases hmem with hmem | hmem
      · exact hb (h.took.mem (mem_add.mpr (.inl hmem)))
      · exact hb (h.took.mem_free (hF ▸ List.mem_append_left _ hmem))
  refine ⟨⟨htook, hm.table.inner⟩, hm.page, fun x hx hne => ?_, fun hrt => ?_⟩
  · refine hm.others x hx fun k hk => ?_
    obtain rfl : k = 0 := by omega
    exact hne (hr.mpr (by omega))
  · have hself := hm.self 0 (by have := hr.mp hrt; omega)
    rwa [Nat.zero_mul, Nat.add_zero, Nat.add_zero] at hself

theorem Built.unmapOne (hp : m₀.Pool) (h : Built m₀ root X m) (hal : va % pgsize = 0)
    (hva : va + pgsize ≤ maxva) (hleaf : m.IsLeaf root va) :
    wp (uvmunmap root va 1 false) (fun _ t => Built m₀ root X t ∧
      (∀ x < sv39, t.lookup root x = if x / pgsize = va / pgsize then 0
        else m.lookup root x)) E m := by
  have hl : ∀ k < 1, m.IsLeaf root (va + k * pgsize) := by
    intro k hk
    obtain rfl : k = 0 := by omega
    rwa [Nat.zero_mul, Nat.add_zero]
  refine wp_post (uvmunmap_spec (h.table hp) hal (by rwa [Nat.one_mul]) hl nofun) ?_
  intro _ t hu
  have htab := hu.tables
  refine ⟨⟨⟨h.took.kernel.trans hu.kernel, ?_, fun b hb => ?_⟩, hu.table.inner⟩, fun x hx => ?_⟩
  · rw [hu.free, htab, h.took.pages]
    rfl
  · rw [hu.page b _ nofun, h.took.page b hb]
    exact fun hmem => hb (h.took.mem (mem_add.mpr (.inl hmem)))
  · split
    next heq =>
      have h0 := hu.self 0 (by omega)
      rw [Nat.zero_mul, Nat.add_zero] at h0
      rw [lookup_page (lt_sv39 (by simp only [pgsize] at hva; omega)) hx heq, h0]
    next hne =>
      refine hu.others x hx fun k hk => ?_
      obtain rfl : k = 0 := by omega
      exact hne

theorem Built.freeable {n : ℕ} (hp : m₀.Pool)
    (h : Built m₀ root (X + (m.frames root 0 n : Multiset ℕ)) m) : Freeable root 0 n m := by
  have hmem : ∀ k < n, m.frame root (0 + k * pgsize) ∈
      X + (m.frames root 0 n : Multiset ℕ) := by
    intro k hk
    refine mem_add.mpr (.inr ?_)
    rw [mem_coe, Mem.frames, List.mem_reverse]
    exact List.mem_map_of_mem (List.mem_range.mpr hk)
  have hnodup : (m.frames root 0 n).Nodup := by
    have h1 := (nodup_add.mp (h.took.nodup hp)).1
    exact (nodup_add.mp (nodup_add.mp h1).2.1).2.1
  refine ⟨fun k hk => ?_, fun k hk => h.disjoint hp (hmem k hk), fun k hk => ?_,
    fun j k hjk hk heq => ?_⟩
  · exact (h.took.range hp (mem_add.mpr (.inr (hmem k hk)))).2
  · exact h.took.notMem_free hp (mem_add.mpr (.inr (hmem k hk)))
  · rw [Mem.frames, List.nodup_reverse] at hnodup
    have hinj := List.inj_on_of_nodup_map hnodup (List.mem_range.mpr (hjk.trans hk))
      (List.mem_range.mpr hk) heq
    omega

theorem Built.unmapAll {n : ℕ} (hp : m₀.Pool)
    (h : Built m₀ root (X + (m.frames root 0 n : Multiset ℕ)) m) (hn : n * pgsize ≤ maxva)
    (hleaf : ∀ k < n, m.IsLeaf root (k * pgsize)) :
    wp (uvmunmap root 0 n true) (fun _ t => Built m₀ root X t ∧
      (∀ x < sv39, t.lookup root x = if x / pgsize < n then 0 else m.lookup root x)) E m := by
  have hf := h.freeable hp
  refine wp_post (uvmunmap_spec (h.table hp) rfl (by rwa [Nat.zero_add])
    (fun k hk => by rw [Nat.zero_add]; exact hleaf k hk) fun _ => hf) ?_
  intro _ t hu
  have htab := hu.tables
  refine ⟨⟨⟨h.took.kernel.trans hu.kernel, ?_, fun b hb => ?_⟩, hu.table.inner⟩, fun x hx => ?_⟩
  · rw [hu.free, if_pos rfl, htab, h.took.pages, ← coe_add]
    abel
  · rw [hu.page b, h.took.page b hb]
    · exact fun hb' => hb (h.took.mem (mem_add.mpr (.inl hb')))
    · exact fun _ hb' => hb (h.took.mem (mem_add.mpr (.inr (mem_add.mpr (.inr hb')))))
  · split
    next hlt =>
      have h0 := hu.self _ hlt
      have hxn : 0 + x / pgsize * pgsize < sv39 := by
        have hdiv := Nat.div_mul_le_self x pgsize
        omega
      rw [lookup_page hxn hx, h0]
      rw [Nat.zero_add, Nat.mul_div_cancel _ (by decide)]
    next hge =>
      refine hu.others x hx fun k hk => ?_
      rw [Nat.zero_div]
      omega

theorem lookup_path (m : Mem) (root : ℕ) (p : ℕ → Fin 512) :
    ∃ x < sv39, Radix.lookup child 0 m.pte p 2 root = m.lookup root x := by
  have h0 := (p 0).isLt
  have h1 := (p 1).isLt
  have h2 := (p 2).isLt
  refine ⟨(p 2).val * 2 ^ 30 + (p 1).val * 2 ^ 21 + (p 0).val * 2 ^ 12, ?_, ?_⟩
  · simp only [sv39]
    omega
  · have hpath k (hk : k ≤ 2) : path
        ((p 2).val * 2 ^ 30 + (p 1).val * 2 ^ 21 + (p 0).val * 2 ^ 12) k = p k := by
      apply Fin.ext
      simp only [path, px_val]
      interval_cases k <;> simp only [Nat.reduceMul, Nat.reduceAdd, Nat.reducePow] <;> omega
    unfold Mem.lookup Radix.lookup
    rw [leaf_congr fun k _ hk => hpath k hk, hpath 0 (by omega)]

theorem Built.uvmfree (hp : m₀.Pool) (h : Built m₀ root X m)
    (hz : ∀ x < sv39, m.lookup root x &&& pteV = 0) :
    wp (uvmfree root 0) (fun _ t => Took m₀ X t) E m := by
  have hhol : Hollow 2 m root := by
    refine ⟨(h.table hp).rooted.nodup, h.inner, fun p => ?_, fun b hb => ?_⟩
    · obtain ⟨x, hx, hl⟩ := lookup_path m root p
      rw [hl]
      exact hz x hx
    · exact h.took.range hp (mem_add.mpr (.inl hb))
  unfold Vm.uvmfree
  rw [if_neg (lt_irrefl 0), wp_bind, wp_pure]
  refine wp_post (freewalk_spec 2 root m hhol) ?_
  intro _ t hg
  refine ⟨h.took.kernel.trans hg.kernel, ?_, fun b hb => ?_⟩
  · rw [hg.free, h.took.pages, Mem.tables]
    abel
  · rw [hg.page b, h.took.page b hb]
    exact fun hmem => hb (h.took.mem (mem_add.mpr (.inl hmem)))

/-- The mappings of a page table as `proc_pagetable` leaves it. -/
def procEntry (tramp tf x : ℕ) : ℕ :=
  if x / pgsize = trampoline / pgsize then pa2pte tramp ||| (pteR ||| pteX) ||| pteV
  else if x / pgsize = trapframe / pgsize then pa2pte tf ||| (pteR ||| pteW) ||| pteV
  else 0

theorem isLeaf_of_eq {w perm : ℕ} (hlook : m.lookup root va = pa2pte w ||| perm ||| pteV)
    (hperm : perm < 2 ^ 10) (hne : perm ||| pteV ≠ pteV) : m.IsLeaf root va := by
  refine ⟨?_, ?_⟩
  · rw [hlook]
    exact or_pteV_and _
  · rwa [hlook, Nat.lor_assoc, pteFlags_pa2pte_or (perm_or_lt hperm)]

theorem Took.uvmcreate (hp : m₀.Pool) (h : Took m₀ X m) : wp uvmcreate (fun r t =>
    match r with
    | none => Took m₀ X t
    | some root => Built m₀ root X t ∧ ∀ va, t.lookup root va = 0) E m := by
  refine wp_post (uvmcreate_spec (h.heap hp)) ?_
  rintro r t ⟨hk, hr⟩
  cases r with
  | none =>
    refine ⟨h.kernel.trans hk, ?_, fun b hb => ?_⟩
    · rw [hr.1]
      exact h.pages
    · rw [hr.2]
      exact h.page b hb
  | some root =>
    obtain ⟨hfree, hpage, htab, htabs, hz⟩ := hr
    refine ⟨⟨⟨h.kernel.trans hk, ?_, fun b hb => ?_⟩, htab.inner⟩, hz⟩
    · rw [htabs, h.pages, hfree, ← cons_coe, add_cons, ← cons_add, singleton_add]
    · have hne : b ≠ root := by
        rintro rfl
        exact hb (h.mem_free (hfree ▸ List.mem_cons_self))
      rw [hpage b hne]
      exact h.page b hb

theorem Took.procPagetable {tf : ℕ} (hp : m₀.Pool) (h : Took m₀ X m)
    (htf : tf + pgsize ≤ 2 ^ 64) : wp (procPagetable tf) (fun r t =>
      match r with
      | none => Took m₀ X t
      | some root => Built m₀ root X t ∧
          ∀ x < sv39, t.lookup root x = procEntry m₀.tramp tf x) E m := by
  have htr : m.tramp + pgsize ≤ 2 ^ 64 := by
    rw [h.kernel.2]
    exact hp.tramp
  unfold Vm.procPagetable
  refine wp_seq (h.uvmcreate hp) ?_
  intro r t hr
  cases r with
  | none => exact hr
  | some root =>
    obtain ⟨hb, hz⟩ := hr
    have hk : t.tramp = m.tramp := by rw [hb.took.kernel.2, h.kernel.2]
    simp only [wp_bind, wp_get]
    rw [hk]
    refine wp_post (hb.mappages hp rfl (by decide) htr (by decide) (by rw [hz]; rfl)) ?_
    rintro r u ⟨hb, _, hother, hself⟩
    cases r with
    | false =>
      simp only [Bool.false_eq_true, if_false, wp_bind]
      refine wp_post (hb.uvmfree hp fun x hx => ?_) (fun _ _ ht => ht)
      rw [hother x hx fun hr => (by cases hr), hz]
      rfl
    | true =>
      have htramp := hself rfl
      have hzero : ∀ x < sv39, x / pgsize ≠ trampoline / pgsize → u.lookup root x = 0 :=
        fun x hx hne => (hother x hx fun _ => hne).trans (hz x)
      simp only [if_true, wp_bind]
      refine wp_post (hb.mappages hp rfl (by decide) htf (by decide)
        (by rw [hzero trapframe (by decide) (by decide)]; rfl)) ?_
      rintro r v ⟨hb, _, hother, hself⟩
      cases r with
      | false =>
        simp only [Bool.false_eq_true, if_false, wp_bind]
        have hsame : ∀ x < sv39, v.lookup root x = u.lookup root x := fun x hx =>
          hother x hx fun hr => by cases hr
        have hleaf : v.IsLeaf root trampoline :=
          isLeaf_of_eq ((hsame _ (by decide)).trans htramp) (by decide) (by decide)
        refine wp_post (hb.unmapOne hp rfl (by decide) hleaf) ?_
        rintro _ w ⟨hb, hlook⟩
        refine wp_post (hb.uvmfree hp fun x hx => ?_) (fun _ _ ht => ht)
        rw [hlook x hx]
        split
        · rfl
        next hne =>
          rw [hsame x hx, hzero x hx hne]
          rfl
      | true =>
        refine ⟨hb, fun x hx => ?_⟩
        unfold procEntry
        split
        next heq =>
          rw [lookup_page (show trampoline < sv39 by decide) hx heq,
            hother trampoline (by decide) fun _ => by decide, htramp, h.kernel.2]
        next hne =>
          split
          next heq => rw [lookup_page (show trapframe < sv39 by decide) hx heq, hself rfl]
          next hne' => rw [hother x hx fun _ => hne', hzero x hx hne]

theorem Built.procFreepagetable {tf : ℕ} (hp : m₀.Pool) (h : Built m₀ root X m)
    (hlook : ∀ x < sv39, m.lookup root x = procEntry m₀.tramp tf x) :
    wp (procFreepagetable root 0) (fun _ t => Took m₀ X t) E m := by
  unfold Vm.procFreepagetable
  have htramp : m.IsLeaf root trampoline := by
    refine isLeaf_of_eq (w := m₀.tramp) ?_ (show pteR ||| pteX < 2 ^ 10 by decide) (by decide)
    rw [hlook _ (by decide), procEntry, if_pos rfl]
  refine wp_seq (h.unmapOne hp rfl (by decide) htramp) ?_
  rintro _ t ⟨hb, hl⟩
  have htf : t.IsLeaf root trapframe := by
    refine isLeaf_of_eq (w := tf) ?_ (show pteR ||| pteW < 2 ^ 10 by decide) (by decide)
    rw [hl _ (by decide), if_neg (by decide), hlook _ (by decide), procEntry,
      if_neg (by decide), if_pos rfl]
  refine wp_seq (hb.unmapOne hp rfl (by decide) htf) ?_
  rintro _ u ⟨hb, hl'⟩
  refine wp_post (hb.uvmfree hp fun x hx => ?_) (fun _ _ ht => ht)
  rw [hl' x hx]
  split
  · rfl
  next hne =>
    rw [hl x hx]
    split
    · rfl
    next hne' =>
      rw [hlook x hx, procEntry, if_neg hne', if_neg hne]
      rfl

/-- An address space with `n` pages of user memory. Its pages are its own, and none of them is free;
nothing above them is mapped for the user. -/
structure Space (m : Mem) (root n : ℕ) : Prop where
  table : Table m root
  leaf : ∀ k, k < n → m.IsLeaf root (k * pgsize)
  frames : Freeable root 0 n m
  above : ∀ x, x < sv39 → n ≤ x / pgsize →
    m.lookup root x &&& pteV = 0 ∨ m.lookup root x &&& pteU = 0

variable {old new n k : ℕ} {L : ℕ → ℕ}

/-- Different pages of user memory are different pages of physical memory, so they end far below the
trapframe. -/
theorem Space.le (h : Space m root n) : n * pgsize ≤ phystop := by
  have hinj : Set.InjOn (fun k => m.frame root (0 + k * pgsize) / pgsize) (Finset.range n) := by
    intro j hj k hk heq
    have hj' := Finset.mem_range.mp hj
    have hk' := Finset.mem_range.mp hk
    have haj := frame_aligned m root (0 + j * pgsize)
    have hak := frame_aligned m root (0 + k * pgsize)
    have hfr : m.frame root (0 + j * pgsize) = m.frame root (0 + k * pgsize) := by
      simp only [pgsize] at heq haj hak ⊢
      omega
    rcases lt_trichotomy j k with hlt | heq | hlt
    · exact absurd hfr (h.frames.inj j k hlt hk')
    · exact heq
    · exact absurd hfr.symm (h.frames.inj k j hlt hj')
  have hmaps : ∀ k ∈ Finset.range n, m.frame root (0 + k * pgsize) / pgsize ∈
      Finset.range (phystop / pgsize) := by
    intro k hk
    have hr := (h.frames.range k (Finset.mem_range.mp hk)).2
    have hal := frame_aligned m root (0 + k * pgsize)
    rw [Finset.mem_range]
    simp only [pgsize, phystop, kernbase] at hr hal ⊢
    omega
  have hcard := Finset.card_le_card_of_injOn _ hmaps hinj
  rw [Finset.card_range, Finset.card_range] at hcard
  simp only [pgsize, phystop, kernbase] at hcard ⊢
  omega

theorem Space.tables_notMem (h : Space m root n) {b : ℕ} (hb : b ∈ m.tables root) : b ∉ m.free :=
  fun hf => h.table.rooted.fresh b hf hb

/-- What is taken from the free list leaves the address space alone. -/
theorem Space.lookup_of_took (h : Space m₀ root n) (ht : Took m₀ X t) (x : ℕ) :
    t.lookup root x = m₀.lookup root x :=
  lookup_of_same (same_of_pages fun b hb => ht.page b (h.tables_notMem hb)) x

theorem Space.page_of_took (h : Space m₀ root n) (ht : Took m₀ X t) (hk : k < n) :
    t.page (m₀.frame root (k * pgsize)) = m₀.page (m₀.frame root (k * pgsize)) := by
  have hf := h.frames.free k hk
  rw [Nat.zero_add] at hf
  exact ht.page _ hf

/-- The first `k` pages have been copied; the other entries of the new table are those of `L`. -/
structure Copied (m₀ : Mem) (old new k : ℕ) (X : Multiset ℕ) (L : ℕ → ℕ) (t : Mem) : Prop where
  built : Built m₀ new (X + (t.frames new 0 k : Multiset ℕ)) t
  flags : ∀ j, j < k → pteFlags (t.lookup new (j * pgsize)) = pteFlags (m₀.lookup old (j * pgsize))
  valid : ∀ j, j < k → t.lookup new (j * pgsize) &&& pteV ≠ 0
  data : ∀ j, j < k → t.page (t.frame new (j * pgsize)) = m₀.page (m₀.frame old (j * pgsize))
  others : ∀ x, x < sv39 → k ≤ x / pgsize → t.lookup new x = L x

theorem pteFlags_lt (e : ℕ) : pteFlags e < 2 ^ 10 := by
  rw [pteFlags, show (0x3FF : ℕ) = 2 ^ 10 - 1 from rfl, Nat.and_two_pow_sub_one_eq_mod]
  exact Nat.mod_lt _ (by decide)

theorem add_pgsize_le {a : ℕ} (h : a < phystop) : a + pgsize ≤ 2 ^ 64 :=
  calc a + pgsize ≤ phystop + pgsize := Nat.add_le_add_right h.le pgsize
    _ ≤ 2 ^ 64 := by norm_num [phystop, kernbase, pgsize]

theorem flags_or_pteV {e : ℕ} (h : e &&& pteV ≠ 0) : pteFlags e ||| pteV = pteFlags e := by
  have hv : e &&& pteV = pteV := by
    have hlt := Nat.and_le_right (n := e) (m := pteV)
    simp only [pteV] at h hlt ⊢
    omega
  rw [pteFlags]
  conv_lhs => rw [← hv, ← Nat.and_or_distrib_left]
  rfl

theorem Copied.isLeaf (h : Copied m₀ old new k X L t) (ho : Space m₀ old n) (hk : k ≤ n) {j : ℕ}
    (hj : j < k) : t.IsLeaf new (j * pgsize) := by
  refine ⟨h.valid j hj, ?_⟩
  rw [h.flags j hj]
  exact (ho.leaf j (hj.trans_le hk)).2

theorem Copied.err (hp : m₀.Pool) (h : Copied m₀ old new k X L t) (ho : Space m₀ old n)
    (hk : k ≤ n) (hz : ∀ x < sv39, x / pgsize < n → L x = 0) :
    wp (uvmcopyErr new (k * pgsize)) (fun r u => r = false ∧ Built m₀ new X u ∧
      ∀ x < sv39, u.lookup new x = L x) E t := by
  unfold uvmcopyErr
  have hle : k * pgsize ≤ maxva :=
    calc k * pgsize ≤ n * pgsize := Nat.mul_le_mul_right pgsize hk
      _ ≤ phystop := ho.le
      _ ≤ maxva := by norm_num [phystop, kernbase, maxva]
  rw [Nat.mul_div_cancel _ (by decide)]
  refine wp_seq (h.built.unmapAll hp hle fun j hj => h.isLeaf ho hk hj) ?_
  rintro _ u ⟨hb, hlook⟩
  refine ⟨rfl, hb, fun x hx => ?_⟩
  rw [hlook x hx]
  split
  next hlt => rw [hz x hx (hlt.trans_le hk)]
  next hge => exact h.others x hx (not_lt.mp hge)

theorem mem_frames {b : ℕ} : b ∈ m.frames root 0 n ↔ ∃ j < n, m.frame root (j * pgsize) = b := by
  simp only [Mem.frames, List.mem_reverse, List.mem_map, List.mem_range, Nat.zero_add]

theorem frame_mem (X : Multiset ℕ) {j : ℕ} (hj : j < k) :
    m.frame new (j * pgsize) ∈ X + (m.frames new 0 k : Multiset ℕ) :=
  mem_add.mpr (.inr (mem_coe.mpr (mem_frames.mpr ⟨j, hj, rfl⟩)))

theorem Copied.congr (h : Copied m₀ old new k X L m) (hk : k * pgsize ≤ sv39)
    (hb : Built m₀ new (X + (m.frames new 0 k : Multiset ℕ)) t)
    (hlook : ∀ x < sv39, t.lookup new x = m.lookup new x)
    (hpage : ∀ j < k, t.page (m.frame new (j * pgsize)) = m.page (m.frame new (j * pgsize))) :
    Copied m₀ old new k X L t := by
  have hlt : ∀ j < k, j * pgsize < sv39 := fun j hj =>
    (Nat.mul_lt_mul_of_pos_right hj (by decide)).trans_le hk
  have hframe : ∀ j < k, t.frame new (j * pgsize) = m.frame new (j * pgsize) := by
    intro j hj
    rw [Mem.frame, Mem.frame, hlook _ (hlt j hj)]
  refine ⟨?_, fun j hj => ?_, fun j hj => ?_, fun j hj => ?_, fun x hx hkx => ?_⟩
  · have hlist : t.frames new 0 k = m.frames new 0 k := by
      unfold Mem.frames
      simp only [Nat.zero_add]
      rw [List.map_congr_left fun j hj => hframe j (List.mem_range.mp hj)]
    rw [hlist]
    exact hb
  · rw [hlook _ (hlt j hj)]
    exact h.flags j hj
  · rw [hlook _ (hlt j hj)]
    exact h.valid j hj
  · rw [hframe j hj, hpage j hj]
    exact h.data j hj
  · rw [hlook x hx]
    exact h.others x hx hkx

theorem Copied.step {mem : ℕ} (hp : m₀.Pool) (ho : Space m₀ old n) (hk : k < n)
    (h : Copied m₀ old new k X L m)
    (hb : Built m₀ new (mem ::ₘ (X + (m.frames new 0 k : Multiset ℕ))) t)
    (hdata : t.page mem = m₀.page (m₀.frame old (k * pgsize)))
    (hpage : ∀ j < k, t.page (m.frame new (j * pgsize)) = m.page (m.frame new (j * pgsize)))
    (hother : ∀ x < sv39, x / pgsize ≠ k → t.lookup new x = m.lookup new x)
    (hself : t.lookup new (k * pgsize) =
      pa2pte mem ||| pteFlags (m₀.lookup old (k * pgsize)) ||| pteV) :
    Copied m₀ old new (k + 1) X L t := by
  have hal : mem % pgsize = 0 :=
    (hb.took.range hp (mem_add.mpr (.inr (mem_cons_self _ _)))).1
  have hfl : pteFlags (m₀.lookup old (k * pgsize)) < 2 ^ 10 := pteFlags_lt _
  have hlt : ∀ j ≤ k, j * pgsize < sv39 := by
    intro j hj
    have hn := ho.le
    have hjn := Nat.mul_le_mul_right pgsize (hj.trans hk.le)
    have hps : phystop < sv39 := by norm_num [phystop, kernbase, sv39]
    omega
  have hframe : t.frame new (k * pgsize) = mem := by
    rw [Mem.frame, hself, Nat.lor_assoc, pte2pa_pa2pte_or hal (perm_or_lt hfl)]
  have hsame : ∀ j < k, t.lookup new (j * pgsize) = m.lookup new (j * pgsize) := by
    intro j hj
    refine hother _ (hlt j hj.le) ?_
    rw [Nat.mul_div_cancel _ (by decide)]
    exact hj.ne
  have hframes : ∀ j < k, t.frame new (j * pgsize) = m.frame new (j * pgsize) := fun j hj => by
    rw [Mem.frame, Mem.frame, hsame j hj]
  refine ⟨?_, fun j hj => ?_, fun j hj => ?_, fun j hj => ?_, fun x hx hkx => ?_⟩
  · have hlist : t.frames new 0 (k + 1) = mem :: m.frames new 0 k := by
      rw [Mem.frames, Mem.frames, List.range_succ, List.map_append, List.reverse_append]
      simp only [Nat.zero_add, List.map_cons, List.map_nil, List.reverse_cons, List.reverse_nil,
        List.nil_append, List.singleton_append, hframe, List.cons.injEq, true_and]
      rw [List.map_congr_left fun j hj => hframes j (List.mem_range.mp hj)]
    rw [hlist, ← cons_coe, add_cons]
    exact hb
  · rcases Nat.lt_succ_iff_lt_or_eq.mp hj with hj | rfl
    · rw [hsame j hj]
      exact h.flags j hj
    · rw [hself, Nat.lor_assoc, pteFlags_pa2pte_or (perm_or_lt hfl)]
      exact flags_or_pteV (ho.leaf j hk).1
  · rcases Nat.lt_succ_iff_lt_or_eq.mp hj with hj | rfl
    · rw [hsame j hj]
      exact h.valid j hj
    · rw [hself]
      exact or_pteV_and _
  · rcases Nat.lt_succ_iff_lt_or_eq.mp hj with hj | rfl
    · rw [hframes j hj, hpage j hj]
      exact h.data j hj
    · rw [hframe, hdata]
  · rw [hother x hx (by omega)]
    exact h.others x hx (by omega)

theorem copyLoop_spec (hp : m₀.Pool) (ho : Space m₀ old n)
    (hz : ∀ x < sv39, x / pgsize < n → L x = 0) (l : ℕ) : ∀ (k : ℕ) (m : Mem), k + l = n →
    Copied m₀ old new k X L m →
    wp (copyLoop old new l (k * pgsize)) (fun r t =>
      if r then Copied m₀ old new n X L t
      else Built m₀ new X t ∧ ∀ x < sv39, t.lookup new x = L x) E m := by
  induction l with
  | zero =>
    intro k m hkn h
    rw [Nat.add_zero] at hkn
    subst hkn
    exact h
  | succ l ih =>
    intro k m hkn h
    have hk : k < n := by omega
    have hva : k * pgsize + pgsize ≤ maxva :=
      calc k * pgsize + pgsize = (k + 1) * pgsize := (Nat.succ_mul k pgsize).symm
        _ ≤ n * pgsize := Nat.mul_le_mul_right pgsize hk
        _ ≤ phystop := ho.le
        _ ≤ maxva := by norm_num [phystop, kernbase, maxva]
    have hlt : k * pgsize < maxva := (Nat.lt_add_of_pos_right (by decide)).trans_le hva
    have hold : m.lookup old (k * pgsize) = m₀.lookup old (k * pgsize) :=
      ho.lookup_of_took h.built.took _
    have hleaf := ho.leaf k hk
    have herr : ∀ {u : Mem}, Copied m₀ old new k X L u →
        wp (uvmcopyErr new (k * pgsize)) (fun r t =>
          if r then Copied m₀ old new n X L t
          else Built m₀ new X t ∧ ∀ x < sv39, t.lookup new x = L x) E u := by
      intro u hu
      refine wp_post (hu.err hp ho hk.le hz) ?_
      rintro _ t ⟨rfl, hb⟩
      exact hb
    unfold copyLoop
    refine wp_seq (walk_false hlt) ?_
    rintro r t ⟨rfl, rfl⟩
    cases hl : leaf child t.pte (path (k * pgsize)) 2 old with
    | none =>
      refine absurd ?_ hleaf.1
      rw [← hold, Mem.lookup, Radix.lookup, hl]
      exact Nat.zero_and _
    | some b =>
      simp only [Option.map_some, wp_bind, wp_get]
      rw [← lookup_of_leaf hl, hold, if_neg hleaf.1]
      refine wp_seq (h.built.kalloc hp) ?_
      rintro r u ⟨hag, hr⟩
      have hlook : ∀ x, u.lookup new x = t.lookup new x := lookup_of_same (same_of_pages hag)
      have hk39 : k * pgsize ≤ sv39 := (lt_sv39 hlt).le
      cases r with
      | none => exact herr (h.congr hk39 hr.1 (fun x _ => hlook x) fun j _ => congrFun hr.2 _)
      | some mem =>
        obtain ⟨hb, hpage⟩ := hr
        have hmem : mem ∈ mem ::ₘ (X + (t.frames new 0 k : Multiset ℕ)) :=
          mem_cons_self _ _
        have hrange := hb.took.range hp (mem_add.mpr (.inr hmem))
        have hsub : ∀ j < k, t.frame new (j * pgsize) ∈
            mem ::ₘ (X + (t.frames new 0 k : Multiset ℕ)) := fun j hj =>
          mem_cons_of_mem (frame_mem _ hj)
        have hne : ∀ j < k, t.frame new (j * pgsize) ≠ mem := by
          have hn := (nodup_add.mp (hb.took.nodup hp)).1
          have hn' := (nodup_cons.mp (nodup_add.mp hn).2.1).1
          rintro j hj rfl
          exact hn' (frame_mem _ hj)
        obtain ⟨hbw, hlw⟩ := hb.setPage hp hmem (u.page (m₀.frame old (k * pgsize)))
        have hdata : u.page (m₀.frame old (k * pgsize)) = m₀.page (m₀.frame old (k * pgsize)) :=
          ho.page_of_took hb.took hk
        simp only [wp_bind, wp_modify]
        have hzero : (u.setPage mem (u.page (m₀.frame old (k * pgsize)))).lookup new (k * pgsize)
            &&& pteV = 0 := by
          rw [hlw, hlook, h.others _ (lt_sv39 hlt) (by rw [Nat.mul_div_cancel _ (by decide)]),
            hz _ (lt_sv39 hlt) (by rwa [Nat.mul_div_cancel _ (by decide)])]
          rfl
        have hself : (u.setPage mem (u.page (m₀.frame old (k * pgsize)))).page mem =
            m₀.page (m₀.frame old (k * pgsize)) := by
          simp [hdata]
        have hcopy j (hj : j < k) : (u.setPage mem (u.page (m₀.frame old (k * pgsize)))).page
            (t.frame new (j * pgsize)) = t.page (t.frame new (j * pgsize)) := by
          rw [← hpage _ (hne j hj)]
          simp [hne j hj]
        rw [show pte2pa (m₀.lookup old (k * pgsize)) = m₀.frame old (k * pgsize) from rfl]
        generalize u.setPage mem (u.page (m₀.frame old (k * pgsize))) = w at *
        refine wp_post (hbw.mappages hp (Nat.mul_mod_left _ _) hva (add_pgsize_le hrange.2.2)
          (pteFlags_lt _) hzero) ?_
        rintro r v ⟨hbv, hpv, hov, hsv⟩
        cases r with
        | true =>
          simp only [if_true]
          rw [show k * pgsize + pgsize = (k + 1) * pgsize from (Nat.succ_mul k pgsize).symm]
          refine ih (k + 1) v (by omega) (h.step hp ho hk hbv ?_ (fun j hj => ?_)
            (fun x hx hne => ?_) (hsv rfl))
          · rw [hpv mem (hbv.disjoint hp hmem), hself]
          · rw [hpv _ (hbv.disjoint hp (hsub j hj)), hcopy j hj]
          · rw [hov x hx fun _ => ?_, hlw, hlook]
            rwa [Nat.mul_div_cancel _ (by decide)]
        | false =>
          simp only [Bool.false_eq_true, if_false, wp_bind]
          refine wp_post (hbv.kfree hp) ?_
          rintro _ z ⟨hbz, hlz, hpz⟩
          refine herr (h.congr hk39 hbz (fun x hx => ?_) fun j hj => ?_)
          · rw [hlz, hov x hx (fun hr => by cases hr), hlw, hlook]
          · rw [hpz _ (hne j hj), hpv _ (hbv.disjoint hp (hsub j hj)), hcopy j hj]

def npages (sz : ℕ) : ℕ := (sz + pgsize - 1) / pgsize

/-- `uvmcopy` copies every page, or fails and leaves the new page table as it was. -/
theorem uvmcopy_spec {sz : ℕ} (hp : m₀.Pool) (ho : Space m₀ old (npages sz))
    (hz : ∀ x < sv39, x / pgsize < npages sz → L x = 0) (hb : Built m₀ new X m)
    (hl : ∀ x < sv39, m.lookup new x = L x) :
    wp (uvmcopy old new sz) (fun r t =>
      if r then Copied m₀ old new (npages sz) X L t
      else Built m₀ new X t ∧ ∀ x < sv39, t.lookup new x = L x) E m := by
  have hstart : Copied m₀ old new 0 X L m := by
    refine ⟨?_, nofun, nofun, nofun, fun x hx _ => hl x hx⟩
    rw [show m.frames new 0 0 = [] from rfl, coe_nil, add_zero]
    exact hb
  have hloop := copyLoop_spec (E := E) hp ho hz (npages sz) 0 m (Nat.zero_add _) hstart
  rw [Nat.zero_mul] at hloop
  exact hloop

theorem entry_and {a perm bit : ℕ} (hp : perm < 2 ^ 10) (hb : 0x3FF &&& bit = bit) :
    (pa2pte a ||| perm ||| pteV) &&& bit = (perm ||| pteV) &&& bit := by
  have hfl : pteFlags (pa2pte a ||| (perm ||| pteV)) = perm ||| pteV :=
    pteFlags_pa2pte_or (perm_or_lt hp)
  rw [pteFlags, ← Nat.lor_assoc] at hfl
  rw [← hb, ← Nat.and_assoc, hfl, hb]

theorem procEntry_and (tramp tf x : ℕ) : procEntry tramp tf x &&& pteU = 0 := by
  unfold procEntry
  split
  · rw [entry_and (by decide) (by decide)]
    decide
  · split
    · rw [entry_and (by decide) (by decide)]
      decide
    · rfl

/-- A free page is neither part of the table nor of user memory. -/
theorem Space.ne_of_free (h : Space m root n) {b : ℕ} (hb : b ∈ m.free) :
    b ∉ m.tables root ∧ ∀ j < n, b ≠ m.frame root (j * pgsize) := by
  refine ⟨h.table.rooted.fresh b hb, ?_⟩
  rintro j hj rfl
  have hf := h.frames.free j hj
  rw [Nat.zero_add] at hf
  exact hf hb

/-- Steps that leave the pages of the table alone and free nothing of the address space. -/
theorem Space.congr (h : Space m root n) (hk : SameKernel m t) (hheap : t.Heap)
    (hfree : ∀ b ∈ t.free, b ∉ m.tables root ∧ ∀ j < n, b ≠ m.frame root (j * pgsize))
    (hag : ∀ b ∈ m.tables root, t.page b = m.page b) : Space t root n := by
  have hs := same_of_pages hag
  have hlook : ∀ x, t.lookup root x = m.lookup root x := lookup_of_same hs
  have htab : t.tables root = m.tables root := hs.nodes
  have hframe x : t.frame root x = m.frame root x := by rw [Mem.frame, Mem.frame, hlook]
  refine ⟨⟨hheap, ⟨?_, fun b hb hmem => ?_⟩, hs.inner _ h.table.inner⟩, fun k hk => ?_,
    ⟨fun k hkn => ?_, fun k hkn => ?_, fun k hkn hmem => ?_, fun j k hjk hkn => ?_⟩,
    fun x hx hn => ?_⟩
  · rw [hs.nodes]
    exact h.table.rooted.nodup
  · rw [hs.nodes] at hmem
    exact (hfree b hb).1 hmem
  · unfold Mem.IsLeaf
    rw [hlook]
    exact h.leaf k hk
  · rw [hframe, hk.1]
    exact h.frames.range k hkn
  · rw [hframe, htab]
    exact h.frames.tables k hkn
  · rw [hframe, Nat.zero_add] at hmem
    exact (hfree _ hmem).2 k hkn rfl
  · rw [hframe, hframe]
    exact h.frames.inj j k hjk hkn
  · rw [hlook]
    exact h.above x hx hn

theorem Space.of_took (h : Space m₀ root n) (hp : m₀.Pool) (ht : Took m₀ X t) : Space t root n :=
  h.congr ht.kernel (ht.heap hp) (fun _ hb => h.ne_of_free (ht.mem_free hb)) fun b hb =>
    ht.page b (h.tables_notMem hb)

theorem Copied.space {tf : ℕ} (hp : m₀.Pool) (ho : Space m₀ old n)
    (h : Copied m₀ old new n X (procEntry m₀.tramp tf) t) : Space t new n where
  table := h.built.table hp
  leaf _ hk := h.isLeaf ho le_rfl hk
  frames := h.built.freeable hp
  above x hx hn := by
    rw [h.others x hx hn]
    exact .inr (procEntry_and _ _ _)

theorem Copied.setPage {a : ℕ} (hp : m₀.Pool) (hk : k * pgsize ≤ sv39)
    (h : Copied m₀ old new k X L m) (ha : a ∈ X) (f : ℕ → UInt8) :
    Copied m₀ old new k X L (m.setPage a f) := by
  obtain ⟨hb, hl⟩ := h.built.setPage hp (mem_add.mpr (.inl ha)) f
  refine h.congr hk hb (fun x _ => hl x) fun j hj => ?_
  have hne : m.frame new (j * pgsize) ≠ a := by
    have h1 := (nodup_add.mp (h.built.took.nodup hp)).1
    have h2 := (nodup_add.mp (nodup_add.mp h1).2.1).2.2
    rintro rfl
    refine disjoint_left.mp h2 ha ?_
    rw [mem_coe, Mem.frames, List.mem_reverse, List.mem_map]
    exact ⟨j, List.mem_range.mpr hj, by rw [Nat.zero_add]⟩
  simp [hne]

theorem procEntry_le (tramp tf : ℕ) (h : Space m root n) {x : ℕ} (hx : x / pgsize ≤ n) :
    procEntry tramp tf x = 0 := by
  have hn := h.le
  have hlt : x / pgsize ≤ phystop / pgsize := by
    refine hx.trans ?_
    rwa [Nat.le_div_iff_mul_le (by decide)]
  have htr : phystop / pgsize < trampoline / pgsize := by decide
  have htf : phystop / pgsize < trapframe / pgsize := by decide
  unfold procEntry
  rw [if_neg (hlt.trans_lt htr).ne, if_neg (hlt.trans_lt htf).ne]

theorem procEntry_user (tramp tf : ℕ) (h : Space m root n) {x : ℕ} (hx : x / pgsize < n) :
    procEntry tramp tf x = 0 :=
  procEntry_le tramp tf h hx.le

def twelvePages : Mem where
  kend := 0x80010000
  tramp := 0x80007000
  free := (List.range 12).map fun k => 0x80010000 + k * pgsize
  fail := fun _ => false
  page := fun _ _ => 0

def stateOf {α : Type} (x : VmM α) (m : Mem) : Mem :=
  match x m with
  | .ok (_, t) => t
  | .error _ => m

def onePage : Mem :=
  stateOf (mappages 0x80010000 0 pgsize 0x80020000 (pteR ||| pteW ||| pteU))
    (stateOf uvmcreate twelvePages)

theorem pool_twelvePages : twelvePages.Pool := ⟨by decide, by decide, by decide⟩

def pagetableLife (tf : ℕ) : VmM Unit := do
  match ← procPagetable tf with
  | none => return ()
  | some root => procFreepagetable root 0

/-- Wherever memory runs out, the pages that were free are free again, and no other page is
written. -/
theorem pagetable_life_conserves {tf : ℕ} (hp : m.Pool) (htf : tf + pgsize ≤ 2 ^ 64) :
    ∃ t, pagetableLife tf m = .ok ((), t) ∧ t.free.Perm m.free ∧
      ∀ b ∉ m.free, t.page b = m.page b := by
  have hspec : wp (pagetableLife tf) (fun _ t => Took m 0 t) (fun _ => False) m := by
    refine wp_seq ((Took.refl m).procPagetable hp htf) ?_
    rintro (_ | root) t ht
    · exact ht
    · exact ht.1.procFreepagetable hp ht.2
  obtain ⟨_, t, ht, htook⟩ := wp_total hspec
  refine ⟨t, ht, coe_eq_coe.mp ?_, htook.page⟩
  rw [htook.pages, zero_add]

theorem pagetable_life_conserves_twelve : ∃ t, pagetableLife 0 twelvePages = .ok ((), t) ∧
    t.free.Perm twelvePages.free :=
  (pagetable_life_conserves pool_twelvePages (by decide)).imp fun _ h => ⟨h.1, h.2.1⟩

theorem space_onePage : onePage.Pool ∧ 0 < onePage.kend ∧ Space onePage 0x80010000 1 ∧
    0x80021000 ∉ onePage.free := by
  have hp := pool_twelvePages
  have hc : uvmcreate twelvePages = .ok (some 0x80010000, stateOf uvmcreate twelvePages) := rfl
  have hspec : wp uvmcreate (fun r t => ∀ root, r = some root →
      Built twelvePages root 0 t ∧ ∀ va, t.lookup root va = 0) (fun _ => True) twelvePages := by
    refine wp_post ((Took.refl twelvePages).uvmcreate hp) ?_
    rintro _ t hr root rfl
    exact hr
  obtain ⟨hb, hz⟩ := wp_ok hspec hc 0x80010000 rfl
  have hmap := wp_total (hb.mappages hp (show 0 % pgsize = 0 from rfl) (by decide)
    (show 0x80020000 + pgsize ≤ 2 ^ 64 by norm_num [pgsize])
    (show pteR ||| pteW ||| pteU < 2 ^ 10 by decide) (by rw [hz]; rfl))
  obtain ⟨r, t, hrun, hbt, _, hother, _⟩ := hmap
  obtain rfl : onePage = t := by rw [onePage, stateOf, hrun]
  have hframe : onePage.frame 0x80010000 0 = 0x80020000 := by decide +kernel
  refine ⟨⟨by decide +kernel, by decide +kernel, by decide +kernel⟩, by decide +kernel,
    ⟨hbt.table hp, by unfold Mem.IsLeaf; decide +kernel, ⟨by decide +kernel, fun k hk => ?_,
      by decide +kernel, fun j k hj hk => ?_⟩, fun x hx hn => .inl ?_⟩, by decide +kernel⟩
  · obtain rfl : k = 0 := by omega
    rw [Nat.zero_mul, Nat.add_zero, hframe]
    intro hmem
    have hin := hbt.took.mem (mem_add.mpr (.inl hmem))
    exact absurd hin (by decide)
  · omega
  · rw [hother x hx fun _ => by rw [Nat.zero_div]; omega, hz]
    rfl

end Xv6.Vm
