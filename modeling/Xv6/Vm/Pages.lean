import Mathlib.Data.Nat.Bitwise
import Xv6.Lib.Transition
import Xv6.Vm.Tree

/-! A page table is a map from pages below `MAXVA` to entries. `mappages` sets the entries of a
range, or of the first pages of it when memory runs out, and `uvmunmap` clears them. -/
namespace Xv6.Vm
open Hoare Radix Transition List
variable {E : Panic → Prop} {m t u : Mem} {root va pa perm : ℕ}

/-- The page table at `root` has its own pages, and so has the free list. -/
structure Table (m : Mem) (root : ℕ) : Prop where
  heap : m.Heap
  rooted : Rooted 2 m root
  inner : Inner child Plain m.pte 2 root

theorem same_of_pages (h : ∀ b ∈ m.tables root, t.page b = m.page b) :
    Same child m.pte t.pte 2 root :=
  same_of_agree fun b hb => Mem.pte_of_page (h b hb)

theorem lookup_of_same (h : Same child m.pte t.pte 2 root) (x : ℕ) :
    t.lookup root x = m.lookup root x := h.lookup 0 (path x)

variable {F : List ℕ} {doFree : Bool}

theorem Extended.lookup (h : Extended 2 root m t F) (x : ℕ) :
    t.lookup root x = m.lookup root x := h.grows.lookup (path x)

theorem Extended.table (h : Extended 2 root m t F) (hm : Table m root) :
    Table t root := ⟨h.heap hm.heap, h.rooted hm.heap hm.rooted, h.grows.inner hm.inner⟩

structure EntrySet (root va w : ℕ) (m t : Mem) : Prop where
  table : Table t root
  kernel : SameKernel m t
  free : t.free = m.free
  tables : t.tables root = m.tables root
  self : t.lookup root va = w
  others : ∀ x, x < sv39 → x / pgsize ≠ va / pgsize → t.lookup root x = m.lookup root x
  page : ∀ b, b ∉ m.tables root → t.page b = m.page b

theorem entrySet_of_leaf {b w : ℕ} (h : Table m root) (hva : va < maxva) (hw : w < 2 ^ 64)
    (hl : leaf child m.pte (path va) 2 root = some b) :
    EntrySet root va w m (m.setPte b (px 0 va) w) := by
  have hs : Sets child 0 Plain m.pte (m.setPte b (px 0 va) w).pte 2 root (path va) w :=
    sets_of_leaf h.rooted.nodup hl (Mem.pte_setPte_self hw) (fun i hi => Mem.pte_setPte_slot hi)
      fun d _ hd => Mem.pte_setPte_other hd
  refine ⟨⟨⟨h.heap.nodup, h.heap.page⟩, ⟨?_, ?_⟩, hs.inner h.inner⟩, ⟨rfl, rfl⟩, rfl, hs.nodes,
    ?_, ?_, ?_⟩
  · rw [hs.nodes]
    exact h.rooted.nodup
  · rw [hs.nodes]
    exact h.rooted.fresh
  · exact hs.lookup_self _ fun _ _ => rfl
  · intro x hx hne
    exact hs.lookup_other _ fun hal => hne ((along_iff (lt_sv39 hva) hx).mp hal)
  · intro d hd
    have hdb : d ≠ b := by
      rintro rfl
      exact hd (leaf_mem hl)
    simp [hdb]

theorem walk_true (h : Table m root) (hva : va < maxva) : wp (walk root va true) (fun r t =>
    ∃ F, Extended 2 root m t F ∧ ∀ b i, r = some (b, i) →
      i = px 0 va ∧ leaf child t.pte (path va) 2 root = some b) E m := by
  unfold walk
  rw [if_neg (by omega)]
  refine wp_seq (walkLoop_true va 2 root m h.heap h.rooted) ?_
  rintro r t ⟨F, hext, hleaf⟩
  refine ⟨F, hext, fun b i hbi => ?_⟩
  cases r with
  | none => cases hbi
  | some c =>
    cases hbi
    exact ⟨rfl, hleaf b rfl⟩

/-- The entry for `va` as the kernel reads it, zero where `walk` finds none. -/
def translate (root va : ℕ) : VmM ℕ := do
  match ← walk root va false with
  | none => return 0
  | some (b, i) => return (← get).pte b i

theorem translate_eq (hva : va < maxva) : translate root va m = .ok (m.lookup root va, m) := by
  have hspec : wp (translate root va) (fun r t => r = m.lookup root va ∧ t = m)
      (fun _ => False) m := by
    unfold translate
    refine wp_seq (walk_false hva) ?_
    rintro r t ⟨rfl, rfl⟩
    cases hl : leaf child t.pte (path va) 2 root with
    | none =>
      refine ⟨?_, rfl⟩
      rw [Mem.lookup, Radix.lookup, hl]
      rfl
    | some b => exact ⟨(lookup_of_leaf hl).symm, rfl⟩
  obtain ⟨_, _, hrun, rfl, rfl⟩ := wp_total hspec
  exact hrun

/-- The first `j` pages from `va` on are mapped to those from `pa` on; page-table pages may have
come from the free list. -/
structure Mapped (root va pa perm j : ℕ) (m t : Mem) : Prop where
  table : Table t root
  kernel : SameKernel m t
  taken : ∃ F : List ℕ, m.free = F ++ t.free ∧ t.tables root = m.tables root + F
  self : ∀ k, k < j → t.lookup root (va + k * pgsize) = pa2pte (pa + k * pgsize) ||| perm ||| pteV
  others : ∀ x, x < sv39 → (∀ k, k < j → x / pgsize ≠ va / pgsize + k) →
    t.lookup root x = m.lookup root x
  page : ∀ b, b ∉ t.tables root → t.page b = m.page b

theorem mapped_zero (h : Table m root) (hext : Extended 2 root m t F) :
    Mapped root va pa perm 0 m t where
  table := hext.table h
  kernel := hext.kernel
  taken := ⟨F, hext.free, hext.grows.nodes⟩
  self := nofun
  others x _ _ := hext.lookup x
  page b hb := by
    have hnodes := hext.grows.nodes
    rw [Mem.tables, hnodes, Multiset.mem_add, not_or] at hb
    exact hext.page b hb.1 hb.2

private theorem page_add (va k : ℕ) : (va + k * pgsize) / pgsize = va / pgsize + k := by
  simp only [pgsize]
  omega

theorem Mapped.cons {j : ℕ} (hva : va < maxva)
    (hext : Extended 2 root m t F) (hset : EntrySet root va (pa2pte pa ||| perm ||| pteV) t u)
    {v : Mem} (h : Mapped root (va + pgsize) (pa + pgsize) perm j u v) :
    Mapped root va pa perm (j + 1) m v where
  table := h.table
  kernel := (hext.kernel.trans hset.kernel).trans h.kernel
  taken := by
    obtain ⟨F', hfree, htab⟩ := h.taken
    refine ⟨F ++ F', ?_, ?_⟩
    · rw [hext.free, ← hset.free, hfree, append_assoc]
    · rw [htab, hset.tables, ← Multiset.coe_add, ← add_assoc]
      exact congrArg (· + (F' : Multiset ℕ)) hext.grows.nodes
  self k hk := by
    rcases k with _ | k
    · rw [Nat.zero_mul, Nat.add_zero, Nat.add_zero, h.others va (lt_sv39 hva), hset.self]
      intro k _
      simp only [pgsize]
      omega
    · have hk' := h.self k (by omega)
      rwa [show va + pgsize + k * pgsize = va + (k + 1) * pgsize by ring,
        show pa + pgsize + k * pgsize = pa + (k + 1) * pgsize by ring] at hk'
  others x hx hne := by
    have h0 := hne 0 (by omega)
    rw [Nat.add_zero] at h0
    rw [h.others x hx, hset.others x hx h0, hext.lookup]
    intro k hk
    have hk' := hne (k + 1) (by omega)
    have hp := page_add va 1
    rw [Nat.one_mul] at hp
    omega
  page b hb := by
    obtain ⟨F', _, htab⟩ := h.taken
    have hb' := hb
    rw [htab, Multiset.mem_add, not_or, hset.tables] at hb'
    have hb'' := hb'.1
    have hnodes := hext.grows.nodes
    rw [Mem.tables, hnodes, Multiset.mem_add, not_or] at hb''
    rw [h.page b hb, hset.page b hb'.1, hext.page b hb''.1 hb''.2]

theorem mapLoop_spec (hp : perm < 2 ^ 10) (n : ℕ) : ∀ (m : Mem) va pa, Table m root →
    va % pgsize = 0 → va + n * pgsize ≤ maxva → pa + n * pgsize ≤ 2 ^ 64 →
    (∀ k < n, m.lookup root (va + k * pgsize) &&& pteV = 0) →
    wp (mapLoop root perm n va pa) (fun r t => ∃ j ≤ n, (r = true ↔ j = n) ∧
      Mapped root va pa perm j m t) E m := by
  induction n with
  | zero =>
    intro m va pa h _ _ _ _
    exact ⟨0, le_rfl, by simp, mapped_zero h (.refl 2 root m)⟩
  | succ n ih =>
    intro m va pa h hal hva hpa hfree
    have hlt : va < maxva := by
      simp only [pgsize] at hva
      omega
    unfold mapLoop
    refine wp_seq (walk_true h hlt) ?_
    rintro r t ⟨F, hext, hleaf⟩
    cases r with
    | none => exact ⟨0, Nat.zero_le _, by simp, mapped_zero h hext⟩
    | some x =>
      obtain ⟨b, i⟩ := x
      obtain ⟨rfl, hl⟩ := hleaf b i rfl
      have h0 : t.pte b (px 0 va) &&& pteV = 0 := by
        have hz := hfree 0 (Nat.succ_pos n)
        rw [Nat.zero_mul, Nat.add_zero] at hz
        rwa [← lookup_of_leaf hl, hext.lookup]
      simp only [wp_bind, wp_get]
      rw [if_neg (not_not.mpr h0), wp_bind, wp_modify]
      have hpa' : pa < 2 ^ 64 := by
        simp only [pgsize] at hpa
        omega
      have hw : pa2pte pa ||| perm ||| pteV < 2 ^ 64 := by
        rw [Nat.lor_assoc]
        exact pa2pte_or_lt hpa' (perm_or_lt hp)
      have hset := entrySet_of_leaf (hext.table h) hlt hw hl
      refine wp_post (ih _ (va + pgsize) (pa + pgsize) hset.table ?_ ?_ ?_ fun k hk => ?_) ?_
      · simp only [pgsize] at hal ⊢
        omega
      · rw [show va + pgsize + n * pgsize = va + (n + 1) * pgsize by ring]
        exact hva
      · rw [show pa + pgsize + n * pgsize = pa + (n + 1) * pgsize by ring]
        exact hpa
      · have hk' := hfree (k + 1) (by omega)
        rw [show va + pgsize + k * pgsize = va + (k + 1) * pgsize by ring, hset.others, hext.lookup]
        · exact hk'
        · simp only [pgsize, maxva, sv39] at hva ⊢
          omega
        · rw [page_add]
          omega
      · rintro r v ⟨j, hj, hr, hm⟩
        exact ⟨j + 1, by omega, hr.trans (by omega), hm.cons hlt hext hset⟩

theorem mappages_spec {size : ℕ} (h : Table m root) (hal : va % pgsize = 0)
    (hsize : size % pgsize = 0) (hpos : 0 < size) (hva : va + size ≤ maxva)
    (hpa : pa + size ≤ 2 ^ 64) (hp : perm < 2 ^ 10)
    (hfree : ∀ k < size / pgsize, m.lookup root (va + k * pgsize) &&& pteV = 0) :
    wp (mappages root va size pa perm) (fun r t => ∃ j, j ≤ size / pgsize ∧
      (r = true ↔ j = size / pgsize) ∧ Mapped root va pa perm j m t) E m := by
  unfold mappages
  rw [if_neg (not_not.mpr hal), if_neg (not_not.mpr hsize), if_neg (by omega)]
  have hn : size / pgsize * pgsize = size := by
    simp only [pgsize] at hsize ⊢
    omega
  exact mapLoop_spec hp _ m va pa h hal (by rw [hn]; exact hva) (by rw [hn]; exact hpa) hfree

/-- The page of memory to which `va` is mapped. -/
def Mem.frame (m : Mem) (root va : ℕ) : ℕ := pte2pa (m.lookup root va)

/-- There is a mapping for `va`, and not to a page of the table. -/
def Mem.IsLeaf (m : Mem) (root va : ℕ) : Prop :=
  m.lookup root va &&& pteV ≠ 0 ∧ pteFlags (m.lookup root va) ≠ pteV

/-- The pages of memory to which the `n` pages from `va` on are mapped can be freed. -/
structure Freeable (root va n : ℕ) (m : Mem) : Prop where
  range : ∀ k, k < n → m.kend ≤ m.frame root (va + k * pgsize) ∧
    m.frame root (va + k * pgsize) < phystop
  tables : ∀ k, k < n → m.frame root (va + k * pgsize) ∉ m.tables root
  free : ∀ k, k < n → m.frame root (va + k * pgsize) ∉ m.free
  inj : ∀ j k, j < k → k < n → m.frame root (va + j * pgsize) ≠ m.frame root (va + k * pgsize)

instance (root va n : ℕ) (m : Mem) : Decidable (Freeable root va n m) :=
  decidable_of_iff (∀ k < n, (m.kend ≤ m.frame root (va + k * pgsize) ∧
      m.frame root (va + k * pgsize) < phystop) ∧ m.frame root (va + k * pgsize) ∉ m.tables root ∧
      m.frame root (va + k * pgsize) ∉ m.free ∧
      ∀ j < k, m.frame root (va + j * pgsize) ≠ m.frame root (va + k * pgsize))
    ⟨fun h => ⟨fun k hk => (h k hk).1, fun k hk => (h k hk).2.1, fun k hk => (h k hk).2.2.1,
      fun j k hj hk => (h k hk).2.2.2 j hj⟩,
    fun h k hk => ⟨h.range k hk, h.tables k hk, h.free k hk, fun j hj => h.inj j k hj hk⟩⟩

instance (m : Mem) (root va : ℕ) : Decidable (m.IsLeaf root va) :=
  inferInstanceAs (Decidable (_ ∧ _))

/-- The pages that `uvmunmap` frees, last first. -/
def Mem.frames (m : Mem) (root va n : ℕ) : List ℕ :=
  ((List.range n).map fun k => m.frame root (va + k * pgsize)).reverse

structure Unmapped (root va n : ℕ) (doFree : Bool) (m t : Mem) : Prop where
  table : Table t root
  kernel : SameKernel m t
  free : t.free = (if doFree then m.frames root va n else []) ++ m.free
  tables : t.tables root = m.tables root
  self : ∀ k, k < n → t.lookup root (va + k * pgsize) = 0
  others : ∀ x, x < sv39 → (∀ k, k < n → x / pgsize ≠ va / pgsize + k) →
    t.lookup root x = m.lookup root x
  page : ∀ b, b ∉ m.tables root → (doFree = true → b ∉ m.frames root va n) → t.page b = m.page b

theorem frames_succ (m : Mem) (root va n : ℕ) :
    m.frames root va (n + 1) = m.frames root (va + pgsize) n ++ [m.frame root va] := by
  have hmap : (fun k => m.frame root (va + k * pgsize)) ∘ Nat.succ =
      fun k => m.frame root (va + pgsize + k * pgsize) := by
    funext k
    simp only [Function.comp_apply]
    rw [show va + k.succ * pgsize = va + pgsize + k * pgsize by
      rw [Nat.succ_mul]
      omega]
  rw [Mem.frames, Mem.frames, range_succ_eq_map, map_cons, map_map, hmap,
    reverse_cons, Nat.zero_mul, Nat.add_zero]

theorem frame_aligned (m : Mem) (root va : ℕ) : m.frame root va % pgsize = 0 := by
  rw [Mem.frame, pte2pa, Nat.shiftLeft_eq]
  exact Nat.mul_mod_left _ _

structure Freed (root pa : ℕ) (m t : Mem) : Prop where
  table : Table t root
  kernel : SameKernel m t
  free : t.free = pa :: m.free
  same : Same child m.pte t.pte 2 root
  page : ∀ b, b ≠ pa → t.page b = m.page b

theorem kfree_spec (h : Table m root) (hal : pa % pgsize = 0) (hlo : m.kend ≤ pa)
    (hhi : pa < phystop) (htab : pa ∉ m.tables root) (hfree : pa ∉ m.free) :
    wp (kfree pa) (fun _ t => Freed root pa m t) E m := by
  unfold kfree
  simp only [wp_bind, wp_get]
  rw [if_neg (by omega), wp_set]
  have hpage : ∀ b, b ≠ pa →
      ({ m.memset pa 1 with free := pa :: m.free } : Mem).page b = m.page b := by
    intro b hb
    simp [hb]
  generalize hu : ({ m.memset pa 1 with free := pa :: m.free } : Mem) = u at hpage ⊢
  have hfu : u.free = pa :: m.free := by rw [← hu]
  have hku : SameKernel m u := by
    rw [← hu]
    exact ⟨rfl, rfl⟩
  have hsame : Same child m.pte u.pte 2 root := by
    refine same_of_pages fun b hb => hpage b ?_
    rintro rfl
    exact htab hb
  refine ⟨⟨⟨?_, fun a ha => ?_⟩, ⟨?_, fun b hb hmem => ?_⟩, hsame.inner _ h.inner⟩, hku, hfu, hsame,
    hpage⟩
  · rw [hfu]
    exact nodup_cons.mpr ⟨hfree, h.heap.nodup⟩
  · rw [hfu, mem_cons] at ha
    rcases ha with rfl | ha
    · exact ⟨hal, hhi.trans (by norm_num [phystop, kernbase])⟩
    · exact h.heap.page a ha
  · rw [hsame.nodes]
    exact h.rooted.nodup
  · rw [hsame.nodes] at hmem
    rw [hfu, mem_cons] at hb
    rcases hb with rfl | hb
    · exact htab hmem
    · exact h.rooted.fresh b hb hmem

theorem free_round (va : ℕ) (h : Table m root) (hf : doFree = true → Freeable root va 1 m) :
    wp (if doFree then kfree (m.frame root va) else pure ()) (fun _ t =>
      Table t root ∧ SameKernel m t ∧ Same child m.pte t.pte 2 root ∧
      t.free = (if doFree then [m.frame root va] else []) ++ m.free ∧
      ∀ b, (doFree = true → b ≠ m.frame root va) → t.page b = m.page b) E m := by
  cases doFree with
  | false => exact ⟨h, ⟨rfl, rfl⟩, same_of_agree fun _ _ => rfl, rfl, fun _ _ => rfl⟩
  | true =>
    have hf := hf rfl
    have hr := hf.range 0 (by omega)
    have ht := hf.tables 0 (by omega)
    have hfr := hf.free 0 (by omega)
    rw [Nat.zero_mul, Nat.add_zero] at hr ht hfr
    refine wp_post (kfree_spec h (frame_aligned m root va) hr.1 hr.2 ht hfr) ?_
    intro _ t hfd
    exact ⟨hfd.table, hfd.kernel, hfd.same, hfd.free, fun b hb => hfd.page b (hb rfl)⟩

theorem frames_one (m : Mem) (root va : ℕ) : m.frames root va 1 = [m.frame root va] := by
  rw [frames_succ]
  rfl

/-- One round: the page is freed if it is to be, and its entry is cleared. -/
theorem unmapped_one {b : ℕ} (hva : va < maxva) (hl : leaf child m.pte (path va) 2 root = some b)
    (ht : Table t root) (hk : SameKernel m t) (hsame : Same child m.pte t.pte 2 root)
    (hfree : t.free = (if doFree then [m.frame root va] else []) ++ m.free)
    (hpage : ∀ b, (doFree = true → b ≠ m.frame root va) → t.page b = m.page b) :
    Unmapped root va 1 doFree m (t.setPte b (px 0 va) 0) := by
  have hset := entrySet_of_leaf ht hva (show 0 < 2 ^ 64 by norm_num)
    ((hsame.leaf (path va)).trans hl)
  have htab : t.tables root = m.tables root := hsame.nodes
  refine ⟨hset.table, hk.trans hset.kernel, ?_, hset.tables.trans htab, fun k hk => ?_,
    fun x hx hne => ?_, fun d hd hnf => ?_⟩
  · rw [hset.free, hfree, frames_one]
  · obtain rfl : k = 0 := by omega
    rw [Nat.zero_mul, Nat.add_zero]
    exact hset.self
  · have h0 := hne 0 (by omega)
    rw [Nat.add_zero] at h0
    rw [hset.others x hx h0, lookup_of_same hsame]
  rw [hset.page d (htab ▸ hd), hpage d]
  intro hdf hc
  have hmem := hnf hdf
  rw [frames_one, mem_singleton] at hmem
  exact hmem hc

namespace Unmapped
variable {n : ℕ}
variable (h : Unmapped root va 1 doFree m t) (hva : va + (n + 1) * pgsize ≤ maxva)
include h hva

/-- The later pages of the range keep their entries in the first round. -/
theorem lookup_next {k : ℕ} (hk : k < n) :
    t.lookup root (va + pgsize + k * pgsize) = m.lookup root (va + (k + 1) * pgsize) := by
  rw [show va + pgsize + k * pgsize = va + (k + 1) * pgsize by ring]
  refine h.others _ ?_ fun j hj => ?_
  · simp only [pgsize, maxva, sv39] at hva ⊢
    omega
  · rw [page_add]
    omega

theorem frames_next : t.frames root (va + pgsize) n = m.frames root (va + pgsize) n := by
  unfold Mem.frames
  rw [map_congr_left]
  intro k hk
  rw [Mem.frame, Mem.frame, h.lookup_next hva (mem_range.mp hk)]
  rw [show va + pgsize + k * pgsize = va + (k + 1) * pgsize by ring]

theorem freeable_next (hd : doFree = true) (hf : Freeable root va (n + 1) m) : Freeable root
    (va + pgsize) n t := by
  have hframe : ∀ k < n, t.frame root (va + pgsize + k * pgsize) =
      m.frame root (va + (k + 1) * pgsize) := by
    intro k hk
    rw [Mem.frame, Mem.frame, h.lookup_next hva hk]
  refine ⟨fun k hk => ?_, fun k hk => ?_, fun k hk => ?_, fun j k hjk hk => ?_⟩
  · rw [hframe k hk, h.kernel.1]
    exact hf.range (k + 1) (by omega)
  · rw [hframe k hk, h.tables]
    exact hf.tables (k + 1) (by omega)
  · have hinj := hf.inj 0 (k + 1) (by omega) (by omega)
    rw [Nat.zero_mul, Nat.add_zero] at hinj
    rw [hframe k hk, h.free, if_pos hd, frames_one, mem_append, mem_singleton, not_or]
    exact ⟨hinj.symm, hf.free (k + 1) (by omega)⟩
  · rw [hframe j (by omega), hframe k hk]
    exact hf.inj (j + 1) (k + 1) (by omega) (by omega)

theorem cons (h' : Unmapped root (va + pgsize) n doFree t u) :
    Unmapped root va (n + 1) doFree m u := by
  have hlt : va < maxva := by
    simp only [pgsize] at hva
    omega
  have hp := page_add va 1
  rw [Nat.one_mul] at hp
  have hfr := h.frames_next hva
  refine ⟨h'.table, h.kernel.trans h'.kernel, ?_, h'.tables.trans h.tables, fun k hk => ?_,
    fun x hx hne => ?_, fun d hd hnf => ?_⟩
  · rw [h'.free, h.free, hfr, frames_one, frames_succ]
    cases doFree with
    | false => rfl
    | true => simp
  · rcases k with _ | k
    · have h0 := h.self 0 (by omega)
      rw [Nat.zero_mul, Nat.add_zero] at h0 ⊢
      rw [h'.others va (lt_sv39 hlt), h0]
      intro k _
      omega
    · have hk' := h'.self k (by omega)
      rwa [show va + pgsize + k * pgsize = va + (k + 1) * pgsize by ring] at hk'
  · rw [h'.others x hx, h.others x hx]
    · intro k hk
      exact hne k (by omega)
    · intro k hk
      have hk' := hne (k + 1) (by omega)
      omega
  · have hnf' (hdf : doFree = true) : d ∉ m.frames root (va + pgsize) n ∧ d ≠ m.frame root va := by
      have hmem := hnf hdf
      rwa [frames_succ, mem_append, mem_singleton, not_or] at hmem
    rw [h'.page d, h.page d hd]
    · intro hdf
      rw [frames_one, mem_singleton]
      exact (hnf' hdf).2
    · rw [h.tables]
      exact hd
    · intro hdf
      rw [hfr]
      exact (hnf' hdf).1

end Unmapped

theorem unmapLoop_spec (n : ℕ) : ∀ (m : Mem) va, Table m root →
    va + n * pgsize ≤ maxva → (∀ k < n, m.IsLeaf root (va + k * pgsize)) →
    (doFree = true → Freeable root va n m) →
    wp (unmapLoop root doFree n va) (fun _ t => Unmapped root va n doFree m t) E m := by
  induction n with
  | zero =>
    intro m va h _ _ _
    refine ⟨h, ⟨rfl, rfl⟩, ?_, rfl, nofun, fun _ _ _ => rfl, fun _ _ _ => rfl⟩
    cases doFree <;> rfl
  | succ n ih =>
    intro m va h hva hleaf hf
    have hlt : va < maxva := by
      simp only [pgsize] at hva
      omega
    have h0 := hleaf 0 (Nat.succ_pos n)
    rw [Nat.zero_mul, Nat.add_zero] at h0
    unfold unmapLoop
    refine wp_seq (walk_false hlt) ?_
    rintro r t ⟨rfl, rfl⟩
    cases hl : leaf child t.pte (path va) 2 root with
    | none =>
      refine absurd ?_ h0.1
      rw [Mem.lookup, Radix.lookup, hl]
      exact Nat.zero_and _
    | some b =>
      simp only [Option.map_some, wp_bind, wp_get]
      rw [← lookup_of_leaf hl, if_neg h0.1, if_neg h0.2]
      refine wp_seq (free_round va h fun hd => ?_) ?_
      · have hfd := hf hd
        exact ⟨fun k hk => hfd.range k (by omega), fun k hk => hfd.tables k (by omega),
          fun k hk => hfd.free k (by omega), fun j k hjk hk => by omega⟩
      rintro _ u ⟨hu, hku, hsame, hfree, hpage⟩
      rw [wp_bind, wp_modify]
      have hone := unmapped_one hlt hl hu hku hsame hfree hpage
      refine wp_post (ih _ (va + pgsize) hone.table ?_ (fun k hk => ?_) fun hd => ?_) ?_
      · rw [show va + pgsize + n * pgsize = va + (n + 1) * pgsize by ring]
        exact hva
      · have hk' := hleaf (k + 1) (by omega)
        unfold Mem.IsLeaf at hk' ⊢
        rwa [hone.lookup_next hva hk]
      · exact hone.freeable_next hva hd (hf hd)
      · intro _ v hv
        exact hone.cons hva hv

theorem uvmunmap_spec {n : ℕ} (h : Table m root) (hal : va % pgsize = 0)
    (hva : va + n * pgsize ≤ maxva) (hleaf : ∀ k < n, m.IsLeaf root (va + k * pgsize))
    (hf : doFree = true → Freeable root va n m) :
    wp (uvmunmap root va n doFree) (fun _ t => Unmapped root va n doFree m t) E m := by
  unfold uvmunmap
  have hn : (u64 (va + n * pgsize) - va) / pgsize = n := by
    rw [u64, Nat.mod_eq_of_lt (hva.trans_lt (by decide)), Nat.add_sub_cancel_left]
    exact Nat.mul_div_cancel n (by decide)
  rw [if_neg (not_not.mpr hal), hn]
  exact unmapLoop_spec n m va h hva hleaf hf

/-- `uvmcreate` makes an empty page table of a page from the free list. -/
theorem uvmcreate_spec (h : m.Heap) : wp uvmcreate (fun r t => SameKernel m t ∧ match r with
    | none => t.free = m.free ∧ t.page = m.page
    | some root => m.free = root :: t.free ∧ (∀ b ≠ root, t.page b = m.page b) ∧
        Table t root ∧ t.tables root = {root} ∧ ∀ va, t.lookup root va = 0) E m := by
  unfold uvmcreate
  refine wp_seq kalloc_spec ?_
  rintro r t ⟨hk, hr⟩
  cases r with
  | none => exact ⟨hk, hr⟩
  | some root =>
    obtain ⟨hfree, hpage⟩ := hr
    have hn := h.nodup
    rw [hfree] at hn
    obtain ⟨hroot, hrest⟩ := nodup_cons.mp hn
    have hheap : (t.memset root 0).Heap :=
      ⟨hrest, fun a ha => h.page a (hfree ▸ mem_cons_of_mem _ ha)⟩
    have hzero i : (t.memset root 0).pte root i = 0 := Mem.pte_memset_zero
    have hnodes : nodes child (t.memset root 0).pte 2 root = {root} :=
      nodes_empty fun i => by rw [hzero, child_zero]
    rw [wp_bind, wp_modify]
    refine ⟨hk, hfree, fun b hb => ?_, ⟨hheap, ⟨?_, fun b hb => ?_⟩, fun i c hc => ?_⟩, hnodes,
      fun va => lookup_empty hzero child_zero⟩
    · simp [hb, hpage b hb]
    · rw [hnodes]
      exact Multiset.nodup_singleton root
    · rw [hnodes, Multiset.mem_singleton]
      rintro rfl
      exact hroot hb
    · rw [hzero, child_zero] at hc
      cases hc

inductive PtOp where
  | map (va size pa perm : ℕ)
  | unmap (va npages : ℕ) (doFree : Bool)

namespace PtOp

def exec (root : ℕ) : PtOp → VmM Unit
  | map va size pa perm => do let _ ← mappages root va size pa perm
  | unmap va npages doFree => uvmunmap root va npages doFree

def next (root : ℕ) (m : Mem) (op : PtOp) : Option Mem :=
  match op.exec root m with
  | .ok (_, t) => some t
  | .error _ => none

/-- Pages that are not mapped are mapped, and pages that are mapped are unmapped; what is freed is
not part of the table. -/
def Allowed (root : ℕ) (m : Mem) : PtOp → Prop
  | map va size pa perm => va % pgsize = 0 ∧ size % pgsize = 0 ∧ 0 < size ∧ va + size ≤ maxva ∧
      pa % pgsize = 0 ∧ pa + size ≤ 2 ^ 64 ∧ perm < 2 ^ 10 ∧
      ∀ k, k < size / pgsize → m.lookup root (va + k * pgsize) &&& pteV = 0
  | unmap va npages doFree => va % pgsize = 0 ∧ va + npages * pgsize ≤ maxva ∧
      (∀ k, k < npages → m.IsLeaf root (va + k * pgsize)) ∧
      (doFree = true → Freeable root va npages m)

instance (root : ℕ) (m : Mem) (op : PtOp) : Decidable (op.Allowed root m) := by
  cases op <;> exact inferInstanceAs (Decidable (_ ∧ _))

theorem next_table {op : PtOp} (h : Table m root) (ha : op.Allowed root m)
    (hn : next root m op = some t) : Table t root := by
  unfold next at hn
  split at hn
  next r t' hrun =>
    cases hn
    cases op with
    | map va size pa perm =>
      obtain ⟨h1, h2, h3, h4, _, h5, h6, h7⟩ := ha
      have hspec : wp (PtOp.exec root (.map va size pa perm)) (fun _ t => Table t root)
          (fun _ => True) m := by
        unfold exec
        refine wp_seq (mappages_spec h h1 h2 h3 h4 h5 h6 h7) ?_
        rintro r t ⟨j, _, _, hm⟩
        exact hm.table
      have hres := wp_ok hspec hrun
      exact hres
    | unmap va npages doFree =>
      obtain ⟨h1, h2, h3, h4⟩ := ha
      have hspec : wp (PtOp.exec root (.unmap va npages doFree)) (fun _ t => Table t root)
          (fun _ => True) m :=
        wp_post (uvmunmap_spec h h1 h2 h3 h4) (fun _ _ hu => hu.table)
      have hres := wp_ok hspec hrun
      exact hres
  · cases hn

end PtOp

/-- The page table is a map. In every page table that is built by `uvmcreate`, `mappages` and
`uvmunmap`, the kernel's walk yields the entry of each page below `MAXVA`; `mappages` on pages that
are not mapped sets exactly their entries, or when memory runs out those of the first pages of the
range; and `uvmunmap` clears exactly the entries of its pages. -/
theorem page_table_is_map {m₀ m₁ : Mem} {ops : List PtOp} (h : m₀.Heap)
    (hc : uvmcreate m₀ = .ok (some root, m₁))
    (ha : Meets (PtOp.next root) (PtOp.Allowed root) m₁ ops)
    (hr : run (PtOp.next root) m₁ ops = some m) :
    (∀ va, va < maxva → translate root va m = .ok (m.lookup root va, m)) ∧
    (∀ va size pa perm, (PtOp.map va size pa perm).Allowed root m →
      ∃ r t j, mappages root va size pa perm m = .ok (r, t) ∧ j ≤ size / pgsize ∧
        (r = true ↔ j = size / pgsize) ∧
        (∀ k, k < j → t.frame root (va + k * pgsize) = pa + k * pgsize ∧
          pteFlags (t.lookup root (va + k * pgsize)) = perm ||| pteV) ∧
        ∀ x, x < maxva → (∀ k, k < j → x / pgsize ≠ va / pgsize + k) →
          t.lookup root x = m.lookup root x) ∧
    (∀ va npages doFree, (PtOp.unmap va npages doFree).Allowed root m →
      ∃ t, uvmunmap root va npages doFree m = .ok ((), t) ∧
        (∀ k, k < npages → t.lookup root (va + k * pgsize) = 0) ∧
        ∀ x, x < maxva → (∀ k, k < npages → x / pgsize ≠ va / pgsize + k) →
          t.lookup root x = m.lookup root x) := by
  have hcreate : Table m₁ root := by
    have hspec : wp uvmcreate (fun r t => ∀ root, r = some root → Table t root)
        (fun _ => True) m₀ := by
      refine wp_post (uvmcreate_spec h) ?_
      rintro _ t ⟨_, hr⟩ root rfl
      exact hr.2.2.1
    exact wp_ok hspec hc root rfl
  have ht : Table m root :=
    run_invariant_of_meets (fun _ _ _ hi hok hn => PtOp.next_table hi hok hn) hcreate ha hr
  refine ⟨fun va hva => translate_eq hva, ?_, ?_⟩
  · rintro va size pa perm ⟨h1, h2, h3, h4, hal, h5, h6, h7⟩
    obtain ⟨r, t, hrun, j, hj, hiff, hm⟩ := wp_total (mappages_spec ht h1 h2 h3 h4 h5 h6 h7)
    refine ⟨r, t, j, hrun, hj, hiff, fun k hk => ?_, fun x hx => hm.others x (lt_sv39 hx)⟩
    have hlook := hm.self k hk
    have hpa : (pa + k * pgsize) % pgsize = 0 := by
      simp only [pgsize] at hal ⊢
      omega
    rw [Mem.frame, hlook, Nat.lor_assoc]
    exact ⟨pte2pa_pa2pte_or hpa (perm_or_lt h6), pteFlags_pa2pte_or (perm_or_lt h6)⟩
  · rintro va npages doFree ⟨h1, h2, h3, h4⟩
    obtain ⟨_, t, hrun, hu⟩ := wp_total (uvmunmap_spec ht h1 h2 h3 h4)
    exact ⟨t, hrun, hu.self, fun x hx => hu.others x (lt_sv39 hx)⟩

def sixPages : Mem where
  kend := 0x80010000
  tramp := 0x80007000
  free := [0x80010000, 0x80011000, 0x80012000, 0x80013000, 0x80014000, 0x80015000]
  fail := fun _ => false
  page := fun _ _ => 0

def madeTable : Mem :=
  match uvmcreate sixPages with
  | .ok (_, t) => t
  | .error _ => sixPages

/-- Pages 0 and 1, and two pages that differ from them on the second and on the first level. -/
def fourPages : List PtOp :=
  [.map 0 (2 * pgsize) 0x80020000 pteR, .map (2 ^ 21) pgsize 0x80030000 pteR,
    .map (2 ^ 30) pgsize 0x80040000 pteR]

/-- Page 1 is unmapped, and the other pages keep their entries. -/
theorem page_table_is_map_fourPages : ∃ m t,
    run (PtOp.next 0x80010000) madeTable fourPages = some m ∧
    [0, pgsize, 2 ^ 21, 2 ^ 30].map (m.frame 0x80010000) =
      [0x80020000, 0x80021000, 0x80030000, 0x80040000] ∧
    uvmunmap 0x80010000 pgsize 1 false m = .ok ((), t) ∧ t.lookup 0x80010000 pgsize = 0 ∧
    ∀ x ∈ [0, 2 ^ 21, 2 ^ 30], t.lookup 0x80010000 x = m.lookup 0x80010000 x := by
  have hheap : sixPages.Heap := ⟨by decide, by decide⟩
  have hc : uvmcreate sixPages = .ok (some 0x80010000, madeTable) := rfl
  have hmeets : Meets (PtOp.next 0x80010000) (PtOp.Allowed 0x80010000) madeTable fourPages := by
    decide +kernel
  have hrun : ∃ m ∈ run (PtOp.next 0x80010000) madeTable fourPages,
      [0, pgsize, 2 ^ 21, 2 ^ 30].map (m.frame 0x80010000) =
        [0x80020000, 0x80021000, 0x80030000, 0x80040000] ∧
      (PtOp.unmap pgsize 1 false).Allowed 0x80010000 m := by
    decide +kernel
  generalize madeTable = m₁ at hc hmeets hrun ⊢
  obtain ⟨m, hm, hframes, hok⟩ := hrun
  obtain ⟨_, _, hunmap⟩ := page_table_is_map hheap hc hmeets hm
  obtain ⟨t, ht, hself, hothers⟩ := hunmap _ _ _ hok
  refine ⟨m, t, hm, hframes, ht, hself 0 Nat.one_pos, fun x hx => hothers x ?_ fun k hk => ?_⟩
  · revert x
    decide
  · obtain rfl : k = 0 := by omega
    revert x
    decide

end Xv6.Vm
