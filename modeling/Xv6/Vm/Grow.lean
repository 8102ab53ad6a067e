import Xv6.Vm.UserCopy

/-! `uvmalloc`, `uvmdealloc` and `sbrk`: user memory gets pages at its end and gives them back, and
a growth that fails leaves it as it was. -/
namespace Xv6.Vm
open Hoare Radix List
variable {E : Panic → Prop} {m t u v : Mem} {root tf n k perm pa : ℕ}

/-- The page table of a process with `n` pages of user memory: above them there are the trampoline
and the trapframe only. -/
structure UserSpace (m : Mem) (root tf n : ℕ) : Prop where
  pool : m.Pool
  space : Space m root n
  upper : ∀ x, x < sv39 → n ≤ x / pgsize → m.lookup root x = procEntry m.tramp tf x
  nodes : ∀ b ∈ m.tables root, b % pgsize = 0 ∧ m.kend ≤ b ∧ b < phystop

/-- A page that can be mapped: it is in nobody's hands. -/
structure Spare (m : Mem) (root n pa : ℕ) : Prop where
  aligned : pa % pgsize = 0
  range : m.kend ≤ pa ∧ pa < phystop
  free : pa ∉ m.free
  tables : pa ∉ m.tables root
  frames : ∀ j, j < n → m.frame root (j * pgsize) ≠ pa

theorem Space.frame_range (h : Space m root n) {j : ℕ} (hj : j < n) :
    m.kend ≤ m.frame root (j * pgsize) ∧ m.frame root (j * pgsize) < phystop := by
  have hr := h.frames.range j hj
  rwa [Nat.zero_add] at hr

theorem Space.frame_tables (h : Space m root n) {j : ℕ} (hj : j < n) :
    m.frame root (j * pgsize) ∉ m.tables root := by
  have ht := h.frames.tables j hj
  rwa [Nat.zero_add] at ht

theorem Space.frame_ne (h : Space m root n) {i j : ℕ} (hij : i < j) (hj : j < n) :
    m.frame root (i * pgsize) ≠ m.frame root (j * pgsize) := by
  have hi := h.frames.inj i j hij hj
  rwa [Nat.zero_add, Nat.zero_add] at hi

theorem freeable_zero (hr : ∀ j < n, m.kend ≤ m.frame root (j * pgsize) ∧
      m.frame root (j * pgsize) < phystop)
    (ht : ∀ j < n, m.frame root (j * pgsize) ∉ m.tables root)
    (hf : ∀ j < n, m.frame root (j * pgsize) ∉ m.free)
    (hi : ∀ i j, i < j → j < n → m.frame root (i * pgsize) ≠ m.frame root (j * pgsize)) :
    Freeable root 0 n m := by
  refine ⟨fun j hj => ?_, fun j hj => ?_, fun j hj => ?_, fun i j hij hj => ?_⟩
  · rw [Nat.zero_add]
    exact hr j hj
  · rw [Nat.zero_add]
    exact ht j hj
  · rw [Nat.zero_add]
    exact hf j hj
  · rw [Nat.zero_add, Nat.zero_add]
    exact hi i j hij hj

theorem Space.page_lt_sv39 (h : Space m root n) {j : ℕ} (hj : j ≤ n) : j * pgsize < sv39 :=
  calc j * pgsize ≤ n * pgsize := Nat.mul_le_mul_right pgsize hj
    _ ≤ phystop := h.le
    _ < sv39 := by norm_num [phystop, kernbase, sv39]

/-- The first `n` pages of user memory are as they were. -/
structure Keeps (m t : Mem) (root n : ℕ) : Prop where
  kernel : SameKernel m t
  lookup : ∀ x, x < sv39 → x / pgsize < n → t.lookup root x = m.lookup root x
  page : ∀ j, j < n → t.page (m.frame root (j * pgsize)) = m.page (m.frame root (j * pgsize))

namespace Keeps

theorem frame (h : Keeps m t root n) {j : ℕ} (hj : j < n) (hlt : j * pgsize < sv39) :
    t.frame root (j * pgsize) = m.frame root (j * pgsize) := by
  rw [Mem.frame, Mem.frame, h.lookup _ hlt (by rwa [Nat.mul_div_cancel _ (by decide)])]

theorem refl (m : Mem) (root n : ℕ) : Keeps m m root n :=
  ⟨⟨rfl, rfl⟩, fun _ _ _ => rfl, fun _ _ => rfl⟩

theorem trans (hn : n * pgsize ≤ sv39) (h : Keeps m t root n) (h' : Keeps t u root n) :
    Keeps m u root n := by
  refine ⟨h.kernel.trans h'.kernel, fun x hx hlt => ?_, fun j hj => ?_⟩
  · rw [h'.lookup x hx hlt, h.lookup x hx hlt]
  · have hlt : j * pgsize < sv39 :=
      (Nat.mul_lt_mul_of_pos_right hj (by decide)).trans_le hn
    rw [← h.page j hj, ← h.frame hj hlt]
    exact h'.page j hj

theorem mono (h : Keeps m t root n) (hk : k ≤ n) : Keeps m t root k :=
  ⟨h.kernel, fun x hx hlt => h.lookup x hx (hlt.trans_le hk), fun j hj => h.page j (hj.trans_le hk)⟩

end Keeps

/-- Changes outside of the table that free nothing of the process. -/
theorem UserSpace.congr (h : UserSpace m root tf n) (hk : SameKernel m t) (hp : t.Pool)
    (hfree : ∀ b ∈ t.free, b ∉ m.tables root ∧ ∀ j < n, b ≠ m.frame root (j * pgsize))
    (htab : ∀ b ∈ m.tables root, t.page b = m.page b) : UserSpace t root tf n := by
  have hsame := same_of_pages htab
  refine ⟨hp, h.space.congr hk ((Took.refl t).heap hp) hfree htab, fun x hx hn => ?_,
    fun b hb => ?_⟩
  · rw [lookup_of_same hsame, hk.2]
    exact h.upper x hx hn
  · rw [Mem.tables, hsame.nodes] at hb
    rw [hk.1]
    exact h.nodes b hb

theorem UserSpace.keep (h : UserSpace m root tf n) (hk : SameKernel m t) (hp : t.Pool)
    (hfree : ∀ b ∈ t.free, b ∉ m.tables root ∧ ∀ j < n, b ≠ m.frame root (j * pgsize))
    (htab : ∀ b ∈ m.tables root, t.page b = m.page b)
    (hframes : ∀ j, j < n →
      t.page (m.frame root (j * pgsize)) = m.page (m.frame root (j * pgsize))) :
    UserSpace t root tf n ∧ Keeps m t root n :=
  ⟨h.congr hk hp hfree htab, hk, fun x _ _ => lookup_of_same (same_of_pages htab) x, hframes⟩

theorem Mem.Pool.sub (hp : m.Pool) (hk : SameKernel m t) (hn : t.free.Nodup)
    (hfree : ∀ b ∈ t.free, b ∈ m.free) : t.Pool := by
  refine ⟨hn, fun a ha => ?_, ?_⟩
  · rw [hk.1]
    exact hp.page a (hfree a ha)
  · rw [hk.2]
    exact hp.tramp

section
variable (h : UserSpace m root tf n)
include h

theorem UserSpace.kalloc : wp kalloc (fun r t =>
    UserSpace t root tf n ∧ Keeps m t root n ∧ ∀ pa, r = some pa → Spare t root n pa) E m := by
  refine wp_post kalloc_spec ?_
  rintro r t ⟨hk, hr⟩
  cases r with
  | none =>
    obtain ⟨hfree, hpage⟩ := hr
    have hsub : ∀ b ∈ t.free, b ∈ m.free := fun b hb => by rwa [hfree] at hb
    have hn : t.free.Nodup := by
      rw [hfree]
      exact h.pool.nodup
    obtain ⟨hu, hkeep⟩ := h.keep hk (h.pool.sub hk hn hsub)
      (fun b hb => h.space.ne_of_free (hsub b hb)) (fun b _ => congrFun hpage b)
      fun j _ => congrFun hpage _
    exact ⟨hu, hkeep, fun pa hpa => by cases hpa⟩
  | some a =>
    obtain ⟨hfree, hpage⟩ := hr
    have hmem : a ∈ m.free := by
      rw [hfree]
      exact mem_cons_self
    have hsub : ∀ b ∈ t.free, b ∈ m.free := fun b hb => by
      rw [hfree]
      exact mem_cons_of_mem a hb
    have hn := h.pool.nodup
    rw [hfree, nodup_cons] at hn
    have htab : ∀ b ∈ m.tables root, t.page b = m.page b := by
      intro b hb
      refine hpage b ?_
      rintro rfl
      exact h.space.tables_notMem hb hmem
    have hne := (h.space.ne_of_free hmem).2
    obtain ⟨hu, hkeep⟩ := h.keep hk (h.pool.sub hk hn.2 hsub)
      (fun b hb => h.space.ne_of_free (hsub b hb)) htab fun j hj => hpage _ (hne j hj).symm
    refine ⟨hu, hkeep, fun pa hpa => ?_⟩
    cases hpa
    have hpg := h.pool.page a hmem
    refine ⟨hpg.1, ?_, hn.1, ?_, fun j hj => ?_⟩
    · rw [hk.1]
      exact hpg.2
    · rw [Mem.tables, (same_of_pages htab).nodes]
      exact fun ht => h.space.tables_notMem ht hmem
    · rw [hkeep.frame hj (h.space.page_lt_sv39 hj.le)]
      exact (hne j hj).symm

theorem UserSpace.setPage (hs : Spare m root n pa) (f : ℕ → UInt8) :
    UserSpace (m.setPage pa f) root tf n ∧ Keeps m (m.setPage pa f) root n ∧
      Spare (m.setPage pa f) root n pa := by
  have hne : ∀ b ≠ pa, (m.setPage pa f).page b = m.page b := fun b hb => by simp [hb]
  have htab : ∀ b ∈ m.tables root, (m.setPage pa f).page b = m.page b := by
    intro b hb
    refine hne b ?_
    rintro rfl
    exact hs.tables hb
  have hsame := same_of_pages htab
  obtain ⟨hu, hkeep⟩ := h.keep (t := m.setPage pa f) ⟨rfl, rfl⟩
    (h.pool.sub ⟨rfl, rfl⟩ h.pool.nodup fun _ hb => hb) (fun _ hb => h.space.ne_of_free hb) htab
    fun j hj => hne _ (hs.frames j hj)
  refine ⟨hu, hkeep, hs.aligned, hs.range, hs.free, ?_, fun j hj => ?_⟩
  · rw [Mem.tables, hsame.nodes]
    exact hs.tables
  · rw [Mem.frame, lookup_of_same hsame]
    exact hs.frames j hj

theorem UserSpace.kfree (hs : Spare m root n pa) :
    wp (kfree pa) (fun _ t => UserSpace t root tf n ∧ Keeps m t root n) E m := by
  refine wp_post (kfree_wp hs.aligned hs.range.1 hs.range.2) ?_
  rintro _ t ⟨hk, hfree, hpage⟩
  have hmem : ∀ b, b ∈ t.free ↔ b = pa ∨ b ∈ m.free := fun b => by rw [hfree, mem_cons]
  have htab : ∀ b ∈ m.tables root, t.page b = m.page b := by
    intro b hb
    refine hpage b ?_
    rintro rfl
    exact hs.tables hb
  have hnodup : t.free.Nodup := by
    rw [hfree]
    exact nodup_cons.mpr ⟨hs.free, h.pool.nodup⟩
  have hpool : t.Pool := by
    refine ⟨hnodup, fun a ha => ?_, ?_⟩
    · rw [hk.1]
      rcases (hmem a).mp ha with rfl | ha
      · exact ⟨hs.aligned, hs.range⟩
      · exact h.pool.page a ha
    · rw [hk.2]
      exact h.pool.tramp
  refine h.keep hk hpool (fun b hb => ?_) htab fun j hj => hpage _ (hs.frames j hj)
  rcases (hmem b).mp hb with rfl | hb
  · exact ⟨hs.tables, fun j hj => (hs.frames j hj).symm⟩
  · exact h.space.ne_of_free hb

/-- One page is mapped at the end of user memory, or, with `j = 0`, the table has grown only. -/
theorem UserSpace.mapped {j : ℕ} (hs : Spare m root n pa) (hperm : perm < 2 ^ 10)
    (hne : perm ||| pteV ≠ pteV) (hj : j ≤ 1) (hm : Mapped root (n * pgsize) pa perm j m t) :
    UserSpace t root tf (n + j) ∧ Keeps m t root n := by
  have hdiv i : i * pgsize / pgsize = i := Nat.mul_div_cancel i (by decide)
  obtain ⟨F, hfree, htabs⟩ := hm.taken
  have hF : ∀ b ∈ F, b ∈ m.free := fun b hb => by
    rw [hfree]
    exact mem_append_left _ hb
  have hsub : ∀ b ∈ t.free, b ∈ m.free := fun b hb => by
    rw [hfree]
    exact mem_append_right _ hb
  have hmem : ∀ b, b ∈ t.tables root ↔ b ∈ m.tables root ∨ b ∈ F := fun b => by
    rw [htabs, Multiset.mem_add, Multiset.mem_coe]
  have hother : ∀ x < sv39, x / pgsize < n ∨ n + j ≤ x / pgsize →
      t.lookup root x = m.lookup root x := by
    intro x hx hlt
    refine hm.others x hx fun k hk => ?_
    rw [hdiv]
    omega
  have hold : ∀ i < n, t.lookup root (i * pgsize) = m.lookup root (i * pgsize) := fun i hi =>
    hother _ (h.space.page_lt_sv39 hi.le) (.inl (by rwa [hdiv]))
  have hframe : ∀ i < n, t.frame root (i * pgsize) = m.frame root (i * pgsize) := fun i hi => by
    rw [Mem.frame, Mem.frame, hold i hi]
  have hnew (hpos : 0 < j) : t.lookup root (n * pgsize) = pa2pte pa ||| perm ||| pteV := by
    have hself := hm.self 0 hpos
    rwa [Nat.zero_mul, Nat.add_zero, Nat.add_zero] at hself
  have hlast (hpos : 0 < j) : t.frame root (n * pgsize) = pa := by
    rw [Mem.frame, hnew hpos, Nat.lor_assoc, pte2pa_pa2pte_or hs.aligned (perm_or_lt hperm)]
  -- the pages of the grown user memory are those of the old one and perhaps the spare page
  have hcases : ∀ i < n + j, i < n ∨ i = n ∧ 0 < j := fun i hi => by omega
  have hpage i (hi : i < n) : t.page (m.frame root (i * pgsize)) = m.page
      (m.frame root (i * pgsize)) := by
    refine hm.page _ fun hb => ?_
    rcases (hmem _).mp hb with hb | hb
    · exact h.space.frame_tables hi hb
    · exact (h.space.ne_of_free (hF _ hb)).2 i hi rfl
  have hpool : t.Pool := h.pool.sub hm.kernel hm.table.heap.nodup hsub
  have hspace : Space t root (n + j) := by
    refine ⟨hm.table, fun i hi => ?_, freeable_zero (fun i hi => ?_) (fun i hi hb => ?_)
      (fun i hi hb => ?_) fun i k hik hk => ?_, fun x hx hnx => ?_⟩
    · rcases hcases i hi with hlt | ⟨rfl, hpos⟩
      · rw [Mem.IsLeaf, hold i hlt]
        exact h.space.leaf i hlt
      · exact isLeaf_of_eq (hnew hpos) hperm hne
    · rw [hm.kernel.1]
      rcases hcases i hi with hlt | ⟨rfl, hpos⟩
      · rw [hframe i hlt]
        exact h.space.frame_range hlt
      · rw [hlast hpos]
        exact hs.range
    · rw [hmem] at hb
      rcases hcases i hi with hlt | ⟨rfl, hpos⟩
      · rw [hframe i hlt] at hb
        exact hb.elim (h.space.frame_tables hlt) fun hb =>
          (h.space.ne_of_free (hF _ hb)).2 i hlt rfl
      · rw [hlast hpos] at hb
        exact hb.elim hs.tables fun hb => hs.free (hF _ hb)
    · rcases hcases i hi with hlt | ⟨rfl, hpos⟩
      · rw [hframe i hlt] at hb
        exact (h.space.ne_of_free (hsub _ hb)).2 i hlt rfl
      · rw [hlast hpos] at hb
        exact hs.free (hsub _ hb)
    · have hi : i < n := by omega
      rw [hframe i hi]
      rcases hcases k hk with hlt | ⟨rfl, hpos⟩
      · rw [hframe k hlt]
        exact h.space.frame_ne hik hlt
      · rw [hlast hpos]
        exact hs.frames i hi
    · rw [hother x hx (.inr hnx)]
      exact h.space.above x hx (by omega)
  refine ⟨⟨hpool, hspace, fun x hx hnx => ?_, fun b hb => ?_⟩, hm.kernel,
    fun x hx hlt => hother x hx (.inl hlt), hpage⟩
  · rw [hother x hx (.inr hnx), hm.kernel.2]
    exact h.upper x hx (by omega)
  · rw [hm.kernel.1]
    exact ((hmem b).mp hb).elim (h.nodes b) fun hb => h.pool.page b (hF b hb)

theorem UserSpace.mappages (hs : Spare m root n pa)
    (hperm : perm < 2 ^ 10) (hne : perm ||| pteV ≠ pteV) :
    wp (mappages root (n * pgsize) pgsize pa perm) (fun r t => if r then
        UserSpace t root tf (n + 1) ∧ Keeps m t root n ∧
          t.lookup root (n * pgsize) = pa2pte pa ||| perm ||| pteV
      else UserSpace t root tf n ∧ Keeps m t root n ∧ Spare t root n pa) E m := by
  have hone : pgsize / pgsize = 1 := rfl
  have hle := h.space.le
  have hend : n * pgsize + pgsize ≤ maxva :=
    (Nat.add_le_add_right hle pgsize).trans (by norm_num [phystop, kernbase, maxva, pgsize])
  have hfree : ∀ k < pgsize / pgsize, m.lookup root (n * pgsize + k * pgsize) &&& pteV = 0 := by
    intro k hk
    obtain rfl : k = 0 := by omega
    rw [Nat.zero_mul, Nat.add_zero, h.upper _ (h.space.page_lt_sv39 le_rfl)
      (by rw [Nat.mul_div_cancel _ (by decide)]),
      procEntry_le _ _ h.space (by rw [Nat.mul_div_cancel _ (by decide)])]
    rfl
  refine wp_post (mappages_spec h.space.table (Nat.mul_mod_left _ _) rfl (by decide) hend
    (add_pgsize_le hs.range.2) hperm hfree) ?_
  rintro r t ⟨j, hj, hr, hm⟩
  rw [hone] at hj hr
  obtain ⟨hu, hkeep⟩ := h.mapped hs hperm hne hj hm
  cases r with
  | true =>
    obtain rfl := hr.mp rfl
    have hself := hm.self 0 (by decide)
    rw [Nat.zero_mul, Nat.add_zero, Nat.add_zero] at hself
    rw [if_pos rfl]
    exact ⟨hu, hkeep, hself⟩
  | false =>
    obtain rfl : j = 0 := by
      have hj1 : j ≠ 1 := fun h1 => by simpa using hr.mpr h1
      omega
    obtain ⟨F, hfree, htabs⟩ := hm.taken
    have hpa : pa ∉ F := fun hb => hs.free (by rw [hfree]; exact mem_append_left _ hb)
    rw [if_neg (by decide)]
    refine ⟨hu, hkeep, hs.aligned, ?_, fun hb => ?_, ?_, fun i hi => ?_⟩
    · rw [hm.kernel.1]
      exact hs.range
    · exact hs.free (by rw [hfree]; exact mem_append_right _ hb)
    · rw [htabs, Multiset.mem_add, not_or]
      exact ⟨hs.tables, hpa⟩
    · rw [hkeep.frame hi (h.space.page_lt_sv39 hi.le)]
      exact hs.frames i hi

end

theorem UserSpace.uvmunmap (h : UserSpace m root tf (n + k)) :
    wp (uvmunmap root (n * pgsize) k true)
      (fun _ t => UserSpace t root tf n ∧ Keeps m t root n) E m := by
  have hdiv i : i * pgsize / pgsize = i := Nat.mul_div_cancel i (by decide)
  have hva i : n * pgsize + i * pgsize = (n + i) * pgsize :=
    (Nat.add_mul n i pgsize).symm
  have hpos i : n * pgsize + i * pgsize = 0 + (n + i) * pgsize := by rw [hva, Nat.zero_add]
  have hle := h.space.le
  have hend : n * pgsize + k * pgsize ≤ maxva := by
    rw [hva]
    exact hle.trans (by norm_num [phystop, kernbase, maxva])
  have hfree : Freeable root (n * pgsize) k m := by
    have hf := h.space.frames
    refine ⟨fun i hi => ?_, fun i hi => ?_, fun i hi => ?_, fun i j hij hj => ?_⟩
    · rw [hpos]
      exact hf.range (n + i) (by omega)
    · rw [hpos]
      exact hf.tables (n + i) (by omega)
    · rw [hpos]
      exact hf.free (n + i) (by omega)
    · rw [hpos, hpos]
      exact hf.inj (n + i) (n + j) (by omega) (by omega)
  refine wp_post (uvmunmap_spec h.space.table (Nat.mul_mod_left _ _) hend (fun i hi => ?_)
    fun _ => hfree) ?_
  · rw [hva]
    exact h.space.leaf (n + i) (by omega)
  rintro _ t hu
  have hframes : ∀ b, b ∈ m.frames root (n * pgsize) k ↔
      ∃ i < k, m.frame root ((n + i) * pgsize) = b := by
    intro b
    simp only [Mem.frames, mem_reverse, mem_map, mem_range, hva]
  have hmem : ∀ b, b ∈ t.free ↔ b ∈ m.frames root (n * pgsize) k ∨ b ∈ m.free := fun b => by
    rw [hu.free, if_pos rfl, mem_append]
  have hother : ∀ x < sv39, x / pgsize < n ∨ n + k ≤ x / pgsize →
      t.lookup root x = m.lookup root x := by
    intro x hx hlt
    refine hu.others x hx fun i hi => ?_
    rw [hdiv]
    omega
  have hold : ∀ i < n, t.lookup root (i * pgsize) = m.lookup root (i * pgsize) := fun i hi =>
    hother _ (h.space.page_lt_sv39 (by omega)) (.inl (by rwa [hdiv]))
  have hframe : ∀ i < n, t.frame root (i * pgsize) = m.frame root (i * pgsize) := fun i hi => by
    rw [Mem.frame, Mem.frame, hold i hi]
  have hzero : ∀ x < sv39, n ≤ x / pgsize → x / pgsize < n + k → t.lookup root x = 0 := by
    intro x hx hlo hhi
    have hself := hu.self (x / pgsize - n) (by omega)
    rw [hva, Nat.add_sub_cancel' hlo] at hself
    rw [← hself]
    exact lookup_page (h.space.page_lt_sv39 hhi.le) hx (hdiv _).symm
  have hpage i (hi : i < n) : t.page (m.frame root (i * pgsize)) = m.page
      (m.frame root (i * pgsize)) := by
    refine hu.page _ (h.space.frame_tables (by omega)) fun _ hb => ?_
    obtain ⟨j, hj, heq⟩ := (hframes _).mp hb
    exact h.space.frame_ne (show i < n + j by omega) (by omega) heq.symm
  have hpool : t.Pool := by
    refine ⟨hu.table.heap.nodup, fun a ha => ?_, ?_⟩
    · rw [hu.kernel.1]
      rcases (hmem a).mp ha with ha | ha
      · obtain ⟨i, hi, rfl⟩ := (hframes a).mp ha
        exact ⟨frame_aligned _ _ _, h.space.frame_range (by omega)⟩
      · exact h.pool.page a ha
    · rw [hu.kernel.2]
      exact h.pool.tramp
  have hspace : Space t root n := by
    refine ⟨hu.table, fun i hi => ?_, freeable_zero (fun i hi => ?_) (fun i hi => ?_)
      (fun i hi hb => ?_) fun i j hij hj => ?_, fun x hx hnx => ?_⟩
    · rw [Mem.IsLeaf, hold i hi]
      exact h.space.leaf i (by omega)
    · rw [hframe i hi, hu.kernel.1]
      exact h.space.frame_range (by omega)
    · rw [hframe i hi, hu.tables]
      exact h.space.frame_tables (by omega)
    · rw [hframe i hi, hmem] at hb
      rcases hb with hb | hb
      · obtain ⟨j, hj, heq⟩ := (hframes _).mp hb
        exact h.space.frame_ne (show i < n + j by omega) (by omega) heq.symm
      · exact (h.space.ne_of_free hb).2 i (by omega) rfl
    · rw [hframe i (hij.trans hj), hframe j hj]
      exact h.space.frame_ne hij (by omega)
    · rcases Nat.lt_or_ge (x / pgsize) (n + k) with hlt | hge
      · left
        rw [hzero x hx hnx hlt]
        rfl
      · rw [hother x hx (.inr hge)]
        exact h.space.above x hx hge
  refine ⟨⟨hpool, hspace, fun x hx hnx => ?_, fun b hb => ?_⟩, hu.kernel,
    fun x hx hlt => hother x hx (.inl hlt), hpage⟩
  · rcases Nat.lt_or_ge (x / pgsize) (n + k) with hlt | hge
    · rw [hzero x hx hnx hlt, procEntry_user _ _ h.space hlt]
    · rw [hother x hx (.inr hge), hu.kernel.2]
      exact h.upper x hx hge
  · rw [hu.tables] at hb
    rw [hu.kernel.1]
    exact h.nodes b hb

section Sizes
variable {sz newsz : ℕ}

theorem npages_mul (n : ℕ) : npages (n * pgsize) = n := by
  simp only [npages, pgsize]
  omega

theorem le_npages (sz : ℕ) : sz ≤ npages sz * pgsize := by
  simp only [npages, pgsize]
  omega

theorem npages_mono (h : newsz ≤ sz) : npages newsz ≤ npages sz := by
  simp only [npages, pgsize]
  omega

theorem pgroundup_eq (h : sz + pgsize ≤ 2 ^ 64) : pgroundup sz = npages sz * pgsize := by
  rw [pgroundup, u64, Nat.mod_eq_of_lt (by simp only [pgsize] at h ⊢; omega), npages]

theorem UserSpace.size_le (h : UserSpace m root tf (npages sz)) : sz + pgsize ≤ 2 ^ 40 :=
  calc sz + pgsize ≤ npages sz * pgsize + pgsize := Nat.add_le_add_right (le_npages sz) pgsize
    _ ≤ phystop + pgsize := Nat.add_le_add_right h.space.le pgsize
    _ ≤ 2 ^ 40 := by norm_num [phystop, kernbase, pgsize]

theorem ofInt_eq (h : k < 2 ^ 31) : ofInt k = k := by
  have hmod : k % 2 ^ 32 = k := Nat.mod_eq_of_lt (by omega)
  rw [ofInt, hmod, if_pos h]

theorem UserSpace.pages_lt (h : UserSpace m root tf n) : n < 2 ^ 31 := by
  have hle := h.space.le
  norm_num [phystop, kernbase, pgsize] at hle
  omega

theorem UserSpace.uvmdealloc (h : UserSpace m root tf (npages sz)) (hle : newsz ≤ sz) :
    wp (uvmdealloc root sz newsz) (fun r t => r = newsz ∧ UserSpace t root tf (npages newsz) ∧
      Keeps m t root (npages newsz)) E m := by
  have hsz := h.size_le
  have hnp := npages_mono hle
  unfold Vm.uvmdealloc
  refine wp_ite.mpr ⟨fun hge => ?_, fun hlt => ?_⟩
  · obtain rfl : sz = newsz := by omega
    exact ⟨rfl, h, Keeps.refl m root _⟩
  rw [pgroundup_eq (by omega), pgroundup_eq (by omega)]
  refine wp_ite.mpr ⟨fun hpg => ?_, fun hpg => ?_⟩
  · have hk : (npages sz * pgsize - npages newsz * pgsize) / pgsize = npages sz - npages newsz := by
      rw [← Nat.sub_mul, Nat.mul_div_cancel _ (by decide)]
    have hlt := h.pages_lt
    have hadd : npages newsz + (npages sz - npages newsz) = npages sz := by omega
    rw [← hadd] at h
    rw [wp_bind, hk, ofInt_eq (by omega)]
    exact wp_post h.uvmunmap (fun _ t ht => ⟨rfl, ht⟩)
  · have heq : npages newsz = npages sz := by
      refine le_antisymm hnp (Nat.le_of_mul_le_mul_right (not_lt.mp hpg) (by decide))
    rw [heq]
    exact ⟨rfl, h, Keeps.refl m root _⟩

/-- User memory has `k` new pages at its end. -/
structure Grown (m : Mem) (root tf n perm k : ℕ) (t : Mem) : Prop where
  user : UserSpace t root tf (n + k)
  keeps : Keeps m t root n
  entry : ∀ j, j < k → ∃ mem, t.lookup root ((n + j) * pgsize) = pa2pte mem ||| perm ||| pteV

namespace Grown

theorem zero (h : UserSpace m root tf n) : Grown m root tf n perm 0 m :=
  ⟨h, Keeps.refl m root n, fun _ hj => absurd hj (Nat.not_lt_zero _)⟩

variable (h : Grown m root tf n perm k t)
include h

theorem le_sv39 : n * pgsize ≤ sv39 :=
  (h.user.space.page_lt_sv39 (Nat.le_add_right n k)).le

theorem of_keeps (hu : UserSpace u root tf (n + k))
    (hk : Keeps t u root (n + k)) : Grown m root tf n perm k u := by
  refine ⟨hu, h.keeps.trans h.le_sv39 (hk.mono (Nat.le_add_right n k)), fun j hj => ?_⟩
  rw [hk.lookup _ (h.user.space.page_lt_sv39 (by omega))]
  · exact h.entry j hj
  · rw [Nat.mul_div_cancel _ (by decide)]
    omega

theorem succ (hu : UserSpace u root tf (n + k + 1)) (hk : Keeps t u root (n + k))
    (hself : u.lookup root ((n + k) * pgsize) = pa2pte pa ||| perm ||| pteV) :
    Grown m root tf n perm (k + 1) u := by
  refine ⟨hu, h.keeps.trans h.le_sv39 (hk.mono (Nat.le_add_right n k)), fun j hj => ?_⟩
  rcases Nat.lt_succ_iff_lt_or_eq.mp hj with hj | rfl
  · rw [hk.lookup _ (h.user.space.page_lt_sv39 (by omega))]
    · exact h.entry j hj
    · rw [Nat.mul_div_cancel _ (by decide)]
      omega
  · exact ⟨pa, hself⟩

theorem undo : wp (uvmdealloc root ((n + k) * pgsize) (n * pgsize))
      (fun _ u => UserSpace u root tf n ∧ Keeps m u root n) E t := by
  have hu := h.user
  rw [← npages_mul (n + k)] at hu
  refine wp_post (hu.uvmdealloc (Nat.mul_le_mul_right pgsize (Nat.le_add_right n k))) ?_
  rintro _ u ⟨-, hu, hk⟩
  rw [npages_mul] at hu hk
  exact ⟨hu, h.keeps.trans h.le_sv39 hk⟩

end Grown

theorem allocLoop_spec {xperm : ℕ} (hperm : pteR ||| pteU ||| xperm < 2 ^ 10)
    (hne : pteR ||| pteU ||| xperm ||| pteV ≠ pteV) (l : ℕ) : ∀ (k : ℕ) (t : Mem),
    Grown m root tf n (pteR ||| pteU ||| xperm) k t →
    wp (allocLoop root (n * pgsize) xperm l ((n + k) * pgsize)) (fun r u => if r then
        Grown m root tf n (pteR ||| pteU ||| xperm) (k + l) u
      else UserSpace u root tf n ∧ Keeps m u root n) E t := by
  induction l with
  | zero =>
    intro k t h
    exact h
  | succ l ih =>
    intro k t h
    have hundo u (hu : Grown m root tf n (pteR ||| pteU ||| xperm) k u) : wp
        (do let _ ← uvmdealloc root ((n + k) * pgsize) (n * pgsize); return false)
        (fun r u => if r then Grown m root tf n (pteR ||| pteU ||| xperm) (k + (l + 1)) u else
        UserSpace u root tf n ∧ Keeps m u root n) E u := by
      rw [wp_bind]
      exact wp_post hu.undo (fun _ _ hv => hv)
    unfold allocLoop
    refine wp_seq h.user.kalloc ?_
    rintro r u ⟨hu, hkeep, hspare⟩
    have hg := h.of_keeps hu hkeep
    cases r with
    | none => exact hundo u hg
    | some mem =>
      obtain ⟨hu, hkeep, hs⟩ := hu.setPage (hspare mem rfl) fun _ => 0
      have hg := hg.of_keeps hu hkeep
      simp only [wp_bind, wp_modify]
      refine wp_post (hu.mappages hs hperm hne) ?_
      intro r v hr
      cases r with
      | true =>
        obtain ⟨hv, hkeep, hself⟩ := hr
        have hrest := ih (k + 1) v (hg.succ hv hkeep hself)
        rw [if_pos rfl, show (n + k) * pgsize + pgsize = (n + (k + 1)) * pgsize by ring]
        rwa [show k + 1 + l = k + (l + 1) by ring] at hrest
      | false =>
        obtain ⟨hv, hkeep, hs⟩ := hr
        rw [if_neg (by decide)]
        refine wp_seq (hv.kfree hs) ?_
        rintro _ w ⟨hw, hkeep'⟩
        exact hundo w ((hg.of_keeps hv hkeep).of_keeps hw hkeep')

theorem UserSpace.uvmalloc {xperm : ℕ} (hperm : pteR ||| pteU ||| xperm < 2 ^ 10)
    (hne : pteR ||| pteU ||| xperm ||| pteV ≠ pteV) (h : UserSpace m root tf (npages sz))
    (hle : sz ≤ newsz) :
    wp (uvmalloc root sz newsz xperm) (fun r t =>
      r = newsz ∧ Grown m root tf (npages sz) (pteR ||| pteU ||| xperm)
          (npages newsz - npages sz) t ∨
        r = 0 ∧ UserSpace t root tf (npages sz) ∧ Keeps m t root (npages sz)) E m := by
  have hsz := h.size_le
  have hrounds : (newsz - npages sz * pgsize + pgsize - 1) / pgsize = npages newsz - npages sz := by
    simp only [npages, pgsize]
    omega
  unfold Vm.uvmalloc
  rw [if_neg (not_lt.mpr hle)]
  simp only [wp_bind]
  rw [pgroundup_eq (by omega), hrounds]
  have hloop := allocLoop_spec (E := E) hperm hne (npages newsz - npages sz) 0 m (Grown.zero h)
  rw [Nat.add_zero, Nat.zero_add] at hloop
  refine wp_post hloop ?_
  intro r t hr
  cases r with
  | true => exact .inl ⟨rfl, hr⟩
  | false => exact .inr ⟨rfl, hr⟩

end Sizes

noncomputable def Mem.before (m : Mem) (root n : ℕ) : Mem :=
  { m with free := (m.tables root).toList ++ (m.frames root 0 n ++ m.free) }

theorem Space.nodup_frames (h : Space m root n) : (m.frames root 0 n).Nodup := by
  rw [Mem.frames, nodup_reverse]
  refine List.Nodup.map_on (fun i hi j hj heq => ?_) nodup_range
  have hi := mem_range.mp hi
  have hj := mem_range.mp hj
  rcases lt_trichotomy i j with hlt | rfl | hlt
  · exact absurd heq (h.frames.inj i j hlt hj)
  · rfl
  · exact absurd heq.symm (h.frames.inj j i hlt hi)

theorem UserSpace.pool_before (h : UserSpace m root tf n) : (m.before root n).Pool := by
  have htab : ∀ b, b ∈ (m.tables root).toList ↔ b ∈ m.tables root := fun b => Multiset.mem_toList
  refine ⟨?_, fun a ha => ?_, h.pool.tramp⟩
  · refine List.Nodup.append ?_ (List.Nodup.append h.space.nodup_frames h.pool.nodup ?_) ?_
    · rw [← Multiset.coe_nodup, Multiset.coe_toList]
      exact h.space.table.rooted.nodup
    · intro b hb hf
      obtain ⟨j, hj, rfl⟩ := mem_frames.mp hb
      exact (h.space.ne_of_free hf).2 j hj rfl
    · intro b hb hf
      rw [htab] at hb
      rcases mem_append.mp hf with hf | hf
      · obtain ⟨j, hj, rfl⟩ := mem_frames.mp hf
        exact h.space.frame_tables hj hb
      · exact h.space.tables_notMem hb hf
  · rcases mem_append.mp ha with ha | ha
    · exact h.nodes a ((htab a).mp ha)
    · rcases mem_append.mp ha with ha | ha
      · obtain ⟨j, hj, rfl⟩ := mem_frames.mp ha
        exact ⟨frame_aligned _ _ _, h.space.frame_range hj⟩
      · exact h.pool.page a ha

theorem UserSpace.built_before (h : UserSpace m root tf n) :
    Built (m.before root n) root (0 + (m.frames root 0 n : Multiset ℕ)) m := by
  refine ⟨⟨⟨rfl, rfl⟩, ?_, fun _ _ => rfl⟩, h.space.table.inner⟩
  rw [Mem.before, ← Multiset.coe_add, Multiset.coe_toList, ← Multiset.coe_add, zero_add, add_assoc]

theorem UserSpace.procFreepagetable {sz : ℕ} (h : UserSpace m root tf (npages sz)) :
    wp (procFreepagetable root sz) (fun _ t => (t.free : Multiset ℕ) =
      m.tables root + (m.frames root 0 (npages sz) ++ m.free : List ℕ)) E m := by
  have hp := h.pool_before
  have hle := h.space.le
  have hn : npages sz * pgsize ≤ maxva := hle.trans (by norm_num [phystop, kernbase, maxva])
  have hpages : npages sz ≤ phystop / pgsize := by rwa [Nat.le_div_iff_mul_le (by decide)]
  have htr : phystop / pgsize < trampoline / pgsize := by decide
  have htf : phystop / pgsize < trapframe / pgsize := by decide
  have hlow : ∀ j < npages sz, j * pgsize / pgsize < trapframe / pgsize ∧
      j * pgsize / pgsize < trampoline / pgsize := fun j hj => by
    rw [Nat.mul_div_cancel _ (by decide)]
    omega
  unfold Vm.procFreepagetable
  have htramp : m.IsLeaf root trampoline := by
    refine isLeaf_of_eq (w := m.tramp) ?_ (show pteR ||| pteX < 2 ^ 10 by decide) (by decide)
    rw [h.upper _ (by decide) (by omega), procEntry, if_pos rfl]
  refine wp_seq (h.built_before.unmapOne hp rfl (by decide) htramp) ?_
  rintro _ t ⟨hb, hl⟩
  have htf' : t.IsLeaf root trapframe := by
    refine isLeaf_of_eq (w := tf) ?_ (show pteR ||| pteW < 2 ^ 10 by decide) (by decide)
    rw [hl _ (by decide), if_neg (by decide), h.upper _ (by decide) (by omega), procEntry,
      if_neg (by decide), if_pos rfl]
  refine wp_seq (hb.unmapOne hp rfl (by decide) htf') ?_
  rintro _ u ⟨hb, hl'⟩
  -- user memory is as it was, so its pages are freed next
  have hold : ∀ j < npages sz, u.lookup root (j * pgsize) = m.lookup root (j * pgsize) := by
    intro j hj
    have hlt := h.space.page_lt_sv39 hj.le
    rw [hl' _ hlt, if_neg (hlow j hj).1.ne, hl _ hlt, if_neg (hlow j hj).2.ne]
  have hframes : m.frames root 0 (npages sz) = u.frames root 0 (npages sz) := by
    unfold Mem.frames
    rw [map_congr_left]
    intro j hj
    rw [Nat.zero_add, Mem.frame, Mem.frame, hold j (mem_range.mp hj)]
  have hleaf : ∀ j < npages sz, u.IsLeaf root (j * pgsize) := by
    intro j hj
    rw [Mem.IsLeaf, hold j hj]
    exact h.space.leaf j hj
  rw [hframes] at hb
  have hall : wp (if 0 < sz then Vm.uvmunmap root 0 (pgroundup sz / pgsize) true else pure ())
      (fun _ v => Built (m.before root (npages sz)) root 0 v ∧ ∀ x, x < sv39 →
        v.lookup root x = if x / pgsize < npages sz then 0 else u.lookup root x) E u := by
    refine wp_ite.mpr ⟨fun hpos => ?_, fun hzero => ?_⟩
    · rw [pgroundup_eq (h.size_le.trans (by norm_num)), Nat.mul_div_cancel _ (by decide)]
      exact hb.unmapAll hp hn hleaf
    · obtain rfl : sz = 0 := by omega
      have hnone : npages 0 = 0 := rfl
      rw [hnone, Mem.frames] at hb
      refine ⟨hb, fun x hx => ?_⟩
      rw [hnone, if_neg (Nat.not_lt_zero _)]
  unfold Vm.uvmfree
  refine wp_seq hall ?_
  rintro _ v ⟨hb, hlook⟩
  have hz : ∀ x < sv39, v.lookup root x &&& pteV = 0 := by
    intro x hx
    rw [hlook x hx]
    split
    · rfl
    next hge =>
      rw [hl' x hx]
      split
      · rfl
      next hne =>
        rw [hl x hx]
        split
        · rfl
        next hne' =>
          rw [h.upper x hx (not_lt.mp hge), procEntry, if_neg hne', if_neg hne]
          rfl
  have hwalk := hb.uvmfree (E := E) hp hz
  unfold Vm.uvmfree at hwalk
  rw [if_neg (lt_irrefl 0), wp_bind, wp_pure] at hwalk
  refine wp_post hwalk (fun _ w hw => ?_)
  have hpages := hw.pages
  rw [zero_add] at hpages
  rw [← hpages, Mem.before, ← Multiset.coe_add, Multiset.coe_toList]

def addInt (sz : ℕ) (n : ℤ) : ℕ := (((sz : ℤ) + n) % 2 ^ 64).toNat

def growproc (pagetable sz : ℕ) (n : ℤ) : VmM (Option ℕ) := do
  if 0 < n then
    let sz ← uvmalloc pagetable sz (addInt sz n) pteW
    return if sz = 0 then none else some sz
  else if n < 0 then
    let sz ← uvmdealloc pagetable sz (addInt sz n)
    return some sz
  else return some sz

/-- The result of the call, `none` for -1, and the size of the process after it. -/
def sysSbrk (pagetable sz : ℕ) (n : ℤ) : VmM (Option ℕ × ℕ) := do
  let addr := sz
  match ← growproc pagetable sz n with
  | none => return (none, sz)
  | some sz => return (some addr, sz)

section Sbrk
variable {sz : ℕ} {i : ℤ}

theorem addInt_eq (h : sz < 2 ^ 63) (hi : i < 2 ^ 31) (hlo : -(sz : ℤ) ≤ i) :
    (addInt sz i : ℤ) = sz + i := by
  rw [addInt, Int.toNat_of_nonneg (Int.emod_nonneg _ (by norm_num))]
  exact Int.emod_eq_of_lt (by omega) (by omega)

def Resized (m : Mem) (root tf sz : ℕ) (i : ℤ) (r : Option ℕ) (t : Mem) : Prop :=
  match r with
  | some new => (new : ℤ) = sz + i ∧ UserSpace t root tf (npages new)
  | none => UserSpace t root tf (npages sz) ∧ Keeps m t root (npages sz)

section
variable (h : UserSpace m root tf (npages sz)) (hi : i < 2 ^ 31) (hlo : -(sz : ℤ) ≤ i)
include h hi hlo

theorem growproc_spec : wp (growproc root sz i) (Resized m root tf sz i) E m := by
  have hsz := h.size_le
  have hadd : (addInt sz i : ℤ) = sz + i := addInt_eq (by omega) hi hlo
  unfold growproc
  refine wp_ite.mpr ⟨fun hpos => ?_, fun hpos => wp_ite.mpr ⟨fun hneg => ?_, fun hneg => ?_⟩⟩
  · rw [wp_bind]
    refine wp_post (h.uvmalloc (by decide) (by decide) (by omega)) ?_
    rintro r t (⟨rfl, hg⟩ | ⟨rfl, hu⟩)
    · have hu := hg.user
      rw [Nat.add_sub_cancel' (npages_mono (by omega))] at hu
      rw [if_neg (by omega)]
      exact ⟨hadd, hu⟩
    · exact hu
  · rw [wp_bind]
    refine wp_post (h.uvmdealloc (by omega)) ?_
    rintro r t ⟨rfl, hu, _⟩
    exact ⟨hadd, hu⟩
  · obtain rfl : i = 0 := by omega
    exact ⟨(add_zero _).symm, h⟩

theorem sysSbrk_spec : wp (sysSbrk root sz i) (fun r t => UserSpace t root tf (npages r.2) ∧
      (∀ addr, r.1 = some addr → addr = sz ∧ (r.2 : ℤ) = sz + i) ∧
      (r.1 = none → r.2 = sz ∧ Keeps m t root (npages sz))) E m := by
  unfold sysSbrk
  simp only [wp_bind]
  refine wp_post (growproc_spec h hi hlo) ?_
  intro r t hr
  cases r with
  | none => exact ⟨hr.1, fun _ hs => (by cases hs), fun _ => ⟨rfl, hr.2⟩⟩
  | some new =>
    refine ⟨hr.2, fun addr hs => ?_, fun hs => (by cases hs)⟩
    cases hs
    exact ⟨rfl, hr.1⟩

end

/-- The mappings of a process are those of its user memory and of its trampoline and trapframe. -/
theorem Keeps.lookup_eq (hk : Keeps m t root n) (h : UserSpace m root tf n)
    (h' : UserSpace t root tf n) {x : ℕ} (hx : x < sv39) : t.lookup root x = m.lookup root x := by
  rcases Nat.lt_or_ge (x / pgsize) n with hlt | hge
  · exact hk.lookup x hx hlt
  · rw [h.upper x hx hge, h'.upper x hx hge, hk.kernel.2]

/-- What `sbrk` owes its caller: a result other than -1 is the old size and the size has changed by
`i`, and after -1 the size and the mapped pages are as they were. -/
def Accounts (m t : Mem) (root sz : ℕ) (i : ℤ) (r : Option ℕ) (new : ℕ) : Prop :=
  (∀ addr, r = some addr → addr = sz ∧ (new : ℤ) = sz + i) ∧
  (r = none → new = sz ∧ (∀ x, x < sv39 → t.lookup root x = m.lookup root x) ∧
    ∀ j, j < npages sz → t.page (m.frame root (j * pgsize)) = m.page (m.frame root (j * pgsize)))

/-- Below zero `sz + n` wraps around, and `uvmdealloc` takes it for a larger size. -/
theorem sysSbrk_below (hsz : sz < 2 ^ 63) (hi : -2 ^ 31 ≤ i) (hlo : i < -(sz : ℤ)) :
    sysSbrk root sz i m = .ok ((some sz, sz), m) := by
  have hadd : sz ≤ addInt sz i := by
    unfold addInt
    rw [show (sz : ℤ) + i = (2 ^ 64 + sz + i) + 2 ^ 64 * (-1) by ring, Int.add_mul_emod_self_left,
      Int.emod_eq_of_lt (by omega) (by omega)]
    omega
  unfold sysSbrk growproc uvmdealloc
  rw [if_neg (by omega), if_pos (by omega), if_pos hadd]
  rfl

/-- For every `int`, `sbrk` returns and leaves a process of the new size; and it accounts for the
change exactly when it is not asked to take more than the process has. -/
theorem sbrk_accounts (h : UserSpace m root tf (npages sz)) (hi : -2 ^ 31 ≤ i ∧ i < 2 ^ 31) :
    ∃ r new t, sysSbrk root sz i m = .ok ((r, new), t) ∧ UserSpace t root tf (npages new) ∧
      (Accounts m t root sz i r new ↔ -(sz : ℤ) ≤ i) := by
  by_cases hlo : -(sz : ℤ) ≤ i
  · obtain ⟨⟨r, new⟩, t, hrun, hu, hok, hfail⟩ := wp_total (sysSbrk_spec h hi.2 hlo)
    refine ⟨r, new, t, hrun, hu, iff_of_true ⟨hok, fun hr => ?_⟩ hlo⟩
    obtain ⟨rfl, hk⟩ := hfail hr
    exact ⟨rfl, fun x hx => hk.lookup_eq h hu hx, hk.page⟩
  · have hsz := h.size_le
    refine ⟨some sz, sz, m, sysSbrk_below (by omega) hi.1 (by omega), h, iff_of_false ?_ hlo⟩
    rintro ⟨hok, -⟩
    have := (hok sz rfl).2
    omega

theorem procPagetable_userSpace (hp : m.Pool) (htf : tf + pgsize ≤ 2 ^ 64) :
    wp (procPagetable tf) (fun r t => ∀ root, r = some root → UserSpace t root tf 0) E m := by
  refine wp_post ((Took.refl m).procPagetable hp htf) ?_
  rintro _ t hr root rfl
  obtain ⟨hb, hlook⟩ := hr
  have hnone {k : ℕ} {q : Prop} (hk : k < 0) : q := absurd hk (Nat.not_lt_zero _)
  have hpool := hp.sub hb.took.kernel (hb.table hp).heap.nodup fun b hmem => hb.took.mem_free hmem
  refine ⟨hpool, ⟨hb.table hp, fun _ => hnone, ⟨fun _ => hnone, fun _ => hnone, fun _ => hnone,
    fun _ _ _ => hnone⟩, fun x hx _ => .inr ?_⟩, fun x hx _ => ?_, fun b hmem => ?_⟩
  · rw [hlook x hx]
    exact procEntry_and _ _ _
  · rw [hlook x hx, hb.took.kernel.2]
  · exact hb.took.range hp (Multiset.mem_add.mpr (.inl hmem))

def newProc : Mem := stateOf (procPagetable 0x80020000) twelvePages

theorem userSpace_newProc : UserSpace newProc 0x80010000 0x80020000 (npages 0) := by
  have hroot : (procPagetable 0x80020000 twelvePages).toOption.map Prod.fst =
      some (some 0x80010000) := by decide +kernel
  have htf : 0x80020000 + pgsize ≤ 2 ^ 64 := by norm_num [pgsize]
  obtain ⟨r, t, hrun, hu⟩ := wp_total (procPagetable_userSpace pool_twelvePages htf)
  have hst : newProc = t := by rw [newProc, stateOf, hrun]
  rw [hrun] at hroot
  cases hroot
  rw [hst]
  exact hu _ rfl

theorem sbrk_accounts_newProc : ∃ t, sysSbrk 0x80010000 0 100 newProc = .ok ((some 0, 100), t) ∧
    UserSpace t 0x80010000 0x80020000 (npages 100) := by
  obtain ⟨r, new, t, hrun, hu, _⟩ :=
    sbrk_accounts (i := 100) userSpace_newProc ⟨by norm_num, by norm_num⟩
  have hr : (sysSbrk 0x80010000 0 100 newProc).toOption.map Prod.fst = some (some 0, 100) := by
    decide +kernel
  rw [hrun] at hr
  cases hr
  exact ⟨t, hrun, hu⟩

def hundredBytes : Mem := stateOf (growproc 0x80010000 0 100) newProc

theorem userSpace_hundredBytes : UserSpace hundredBytes 0x80010000 0x80020000 (npages 100) := by
  obtain ⟨r, t, hrun, hres⟩ := wp_total
    (growproc_spec (i := 100) userSpace_newProc (by norm_num) (by norm_num))
  have hr : (growproc 0x80010000 0 100 newProc).toOption.map Prod.fst = some (some 100) := by
    decide +kernel
  have hst : hundredBytes = t := by rw [hundredBytes, stateOf, hrun]
  rw [hrun] at hr
  cases hr
  rw [hst]
  exact hres.2

/-- A process of 100 bytes asks for 101 bytes less: `sz + n` wraps around, `uvmdealloc` keeps the
old size, and the call returns as if it had succeeded. -/
theorem sbrk_below_zero : ∃ m, UserSpace m 0x80010000 0x80020000 (npages 100) ∧
    sysSbrk 0x80010000 100 (-101) m = .ok ((some 100, 100), m) :=
  ⟨hundredBytes, userSpace_hundredBytes, rfl⟩

end Sbrk

end Xv6.Vm
