import Xv6.Umalloc.Alloc

/-! The allocator in whole runs. The sizes of blocks are counted in a `uint`, so the results are
about heaps of fewer than 2³² units; a larger heap is lost when its blocks are joined. -/
namespace Xv6.Umalloc
open Transition List
attribute [local simp] State.start
variable {base top nunits : ℕ} {fl live : List ℕ} {h h' : Heap} {answer : Option ℕ} {s t : State}

theorem free_regions {fuel ap : ℕ} (hf : h.free fuel ap = some h') : h'.regions = h.regions := by
  obtain ⟨p, _, rfl⟩ := Option.map_eq_some_iff.mp hf
  unfold Heap.joinPrev Heap.joinNext
  split <;> split <;> rfl

theorem take_regions (prevp p : ℕ) : (h.take nunits prevp p).1.regions = h.regions := by
  unfold Heap.take
  split <;> rfl

theorem morecore_total {fuel nu : ℕ} (hm : h.morecore fuel nu answer = some (some h')) :
    h'.total = h.total + max nu 4096 := by
  unfold Heap.morecore at hm
  cases answer with
  | none => cases hm
  | some gap =>
    obtain ⟨h'', hf, he⟩ := Option.map_eq_some_iff.mp hm
    obtain rfl := Option.some.inj he
    rw [Heap.total, free_regions hf]
    change (List.map Prod.snd ((h.top + gap, max nu 4096) :: h.regions)).sum = _
    rw [map_cons, sum_cons, Nat.add_comm]
    rfl

theorem mallocLoop_total {fuel prevp p : ℕ} {r : Heap × ℕ}
    (hm : Heap.mallocLoop (Heap.answering answer nunits) nunits fuel h prevp p = some r) :
    h.total ≤ r.1.total := by
  induction fuel generalizing h prevp p with
  | zero => cases hm
  | succ fuel ih =>
    unfold Heap.mallocLoop at hm
    split at hm
    next hc =>
      obtain rfl := Option.some.inj hm
      rw [Heap.total, Heap.total, take_regions]
    next hc =>
      split at hm
      next hp =>
        cases hmc : h.morecore fuel nunits answer with
        | none =>
          rw [Heap.answering, hmc] at hm
          cases hm
        | some o =>
          rw [Heap.answering, hmc] at hm
          cases o with
          | none =>
            obtain rfl := Option.some.inj hm
            exact le_rfl
          | some h' =>
            have ht := morecore_total hmc
            have := ih hm
            omega
      next hp => exact ih hm

/-- When no block is large enough, a call that returns a block has obtained memory. -/
theorem mallocLoop_grows (hok : h.Ok base fl live) (hno : ¬ ∃ q ∈ base :: fl, nunits ≤ h.size q)
    (ha : answer ≠ none) {fuel : ℕ} {r : Heap × ℕ}
    (hm : Heap.mallocLoop (Heap.answering answer nunits) nunits fuel h h.freep (h.ptr h.freep) =
      some r) : h.total + max nunits 4096 ≤ r.1.total := by
  obtain ⟨l, hl, hnot, hmem⟩ := hok.circle
  have hround := mallocLoop_none (Heap.answering answer nunits) l fuel hl hnot fun q hq hle =>
    hno ⟨q, (hmem q).mp hq, hle⟩
  rw [mallocLoop_mono hm] at hround
  cases hmc : h.morecore fuel nunits answer with
  | none =>
    rw [Heap.answering, hmc] at hround
    cases hround
  | some o =>
    rw [Heap.answering, hmc] at hround
    cases o with
    | none =>
      unfold Heap.morecore at hmc
      cases answer with
      | none => exact absurd rfl ha
      | some gap =>
        obtain ⟨_, _, he⟩ := Option.map_eq_some_iff.mp hmc
        cases he
    | some h' =>
      have ht := morecore_total hmc
      have hrest := mallocLoop_total hround.symm
      omega

structure Inv (base : ℕ) (s : State) (fl : List ℕ) : Prop where
  ok : (s.heap.ready base).Ok base fl (s.live.map Prod.fst)
  fits : ∀ e ∈ s.live, e.2 + hdr ≤ hdr * s.heap.size e.1
  none : s.heap.freep = 0 → s.live = [] ∧ fl = []

theorem ready_of_ne (hf : h.freep ≠ 0) : h.ready base = h := if_neg hf

theorem total_ready (base : ℕ) : (h.ready base).total = h.total := by
  unfold Heap.ready
  split <;> rfl

theorem freep_ne_zero (hb : 0 < base) (hok : h.Ok base fl live) : h.freep ≠ 0 := by
  have hr := hok.rover
  intro hz
  rw [hz] at hr
  rcases mem_cons.mp hr with hc | hc
  · omega
  · have := hok.above 0 (mem_append_left live hc)
    omega

theorem inv_start (ht : base < top) : Inv base (State.start top) [] := by
  refine ⟨⟨?_, ?_, ?_, ?_, Tiling.nil, by simp, by simp, ht⟩, by simp, fun _ => ⟨rfl, rfl⟩⟩
  · simp [Heap.ready, Path]
  · exact pairwise_singleton _ _
  · simp [Heap.ready]
  · simp [Heap.ready]

theorem le_nunits (n : ℕ) : n + hdr ≤ hdr * Heap.nunits n := by
  simp only [Heap.nunits, hdr]
  omega

theorem Heap.Ok.perm {live' : List ℕ} (hok : h.Ok base fl live) (hp : live.Perm live') :
    h.Ok base fl live' := by
  have hp' := List.Perm.append_left fl hp
  exact ⟨hok.path, hok.gaps, hok.zero, hok.rover, hok.tiling.perm hp',
    fun a ha => hok.above a (hp'.mem_iff.mpr ha), fun a ha => hok.below a (hp'.mem_iff.mpr ha),
    hok.room⟩

theorem size_ready {a : ℕ} (ha : a ≠ base) : (h.ready base).size a = h.size a := by
  unfold Heap.ready
  split
  · rw [Heap.setSize_size, Function.update_of_ne ha]
    rfl
  · rfl

theorem Inv.size_live (hs : Inv base s fl) {a : ℕ} (ha : a ∈ s.live.map Prod.fst) :
    (s.heap.ready base).size a = s.heap.size a := by
  have := hs.ok.above a (mem_append_right fl ha)
  exact size_ready (by omega)

theorem malloc_spec (hs : Inv base s fl) (htotal : s.heap.total < 2 ^ 32) (n : ℕ)
    (hbig : (∃ q ∈ base :: fl, Heap.nunits n ≤ (s.heap.ready base).size q) ∨ answer = none ∨
      s.heap.total + max (Heap.nunits n) 4096 < 2 ^ 32) :
    ∃ fuel₀ h' r, (∀ fuel, fuel₀ ≤ fuel → s.heap.malloc base fuel n answer = some (h', r)) ∧
      Malloced base (Heap.nunits n) answer (s.heap.ready base) (s.live.map Prod.fst) h' r := by
  refine mallocLoop_spec hs.ok (by rwa [total_ready]) (Nat.succ_pos _) ?_
  rwa [total_ready]

theorem malloced_inv (hb : 0 < base) (hs : Inv base s fl) {n r : ℕ}
    (hm : Malloced base (Heap.nunits n) answer (s.heap.ready base) (s.live.map Prod.fst) h' r) :
    ∃ fl', Inv base ⟨h', if r = 0 then s.live else (r - hdr, n) :: s.live⟩ fl' := by
  rcases hm.result with ⟨rfl, _, rfl⟩ | ⟨q, fl', rfl, hok, hself, hsize⟩
  · have hne := freep_ne_zero hb hs.ok
    refine ⟨fl, ?_, fun e he => ?_, fun hz => absurd hz hne⟩
    · rw [if_pos rfl, ready_of_ne hne]
      exact hs.ok
    · rw [if_pos rfl] at he
      change e.2 + hdr ≤ hdr * (s.heap.ready base).size e.1
      rw [hs.size_live (mem_map_of_mem he)]
      exact hs.fits e he
  · have hne := freep_ne_zero hb hok
    have hq : q + hdr ≠ 0 := by simp
    rw [if_neg hq, Nat.add_sub_cancel]
    refine ⟨fl', ?_, fun e he => ?_, fun hz => absurd hz hne⟩
    · rw [ready_of_ne hne]
      exact hok
    · rcases mem_cons.mp he with rfl | he
      · change n + hdr ≤ hdr * h'.size q
        rw [hself]
        exact le_nunits n
      · change e.2 + hdr ≤ hdr * h'.size e.1
        rw [hsize e.1 (mem_map_of_mem he), hs.size_live (mem_map_of_mem he)]
        exact hs.fits e he

theorem live_filter (hs : Inv base s fl) {e : ℕ × ℕ} (he : e ∈ s.live) : (s.live.map Prod.fst).Perm
      (e.1 :: (s.live.filter fun x => x.1 + hdr ≠ e.1 + hdr).map Prod.fst) := by
  have hnd : (s.live.map Prod.fst).Nodup := by
    have ht := hs.ok.tiling
    have hsub : (s.live.map Prod.fst).Sublist (fl ++ s.live.map Prod.fst) :=
      sublist_append_right _ _
    refine List.Pairwise.imp_of_mem (fun {a b} ha _ hab => ?_) (ht.apart.sublist hsub)
    rintro rfl
    have hp := ht.pos a (hsub.subset ha)
    simp only [Apart, hdr] at hab
    omega
  obtain ⟨A, B, hAB⟩ := append_of_mem he
  rw [hAB] at hnd ⊢
  rw [map_append, map_cons] at hnd
  obtain ⟨hnot, _⟩ := nodup_cons.mp (nodup_middle.mp hnd)
  have hkeep : ∀ x ∈ A ++ B, x.1 ≠ e.1 := by
    intro x hx hc
    rw [← map_append] at hnot
    exact hnot (hc ▸ mem_map_of_mem hx)
  have hA : A.filter (fun x => x.1 + hdr ≠ e.1 + hdr) = A := by
    refine filter_eq_self.mpr fun x hx => ?_
    simpa using hkeep x (mem_append_left B hx)
  have hB : B.filter (fun x => x.1 + hdr ≠ e.1 + hdr) = B := by
    refine filter_eq_self.mpr fun x hx => ?_
    simpa using hkeep x (mem_append_right A hx)
  rw [filter_append, filter_cons, if_neg (by simp), hA, hB, map_append, map_cons, map_append]
  exact perm_middle

theorem free_live (hb : 0 < base) (hs : Inv base s fl) (htotal : s.heap.total < 2 ^ 32)
    {e : ℕ × ℕ} (he : e ∈ s.live) :
    ∃ fuel₀ h' fl', (∀ fuel, fuel₀ ≤ fuel → s.heap.free fuel (e.1 + hdr) = some h') ∧
      Inv base ⟨h', s.live.filter fun x => x.1 + hdr ≠ e.1 + hdr⟩ fl' := by
  have hne : s.heap.freep ≠ 0 := by
    intro hz
    rw [(hs.none hz).1] at he
    cases he
  have hok := hs.ok
  rw [ready_of_ne hne] at hok
  obtain ⟨h', fl', hfree, hfreed⟩ := free_spec (hok.perm (live_filter hs he)) htotal
  have hne' := freep_ne_zero hb hfreed.ok
  refine ⟨_, h', fl', hfree, ⟨?_, fun x hx => ?_, fun hz => absurd hz hne'⟩⟩
  · rw [ready_of_ne hne']
    exact hfreed.ok
  · have hmem := (mem_filter.mp hx).1
    change x.2 + hdr ≤ hdr * h'.size x.1
    rw [hfreed.size x.1 (mem_map_of_mem hx)]
    exact hs.fits x hmem

theorem step_total {a : Act} (ht : s.next base a = some t) : s.heap.total ≤ t.heap.total := by
  cases a with
  | malloc fuel n answer =>
    rw [State.next] at ht
    split at ht
    · obtain ⟨r, hr, rfl⟩ := Option.map_eq_some_iff.mp ht
      rw [← total_ready base]
      exact mallocLoop_total hr
    · cases ht
  | free fuel ap =>
    rw [State.next] at ht
    split at ht
    · obtain ⟨h', hf, rfl⟩ := Option.map_eq_some_iff.mp ht
      rw [Heap.total, Heap.total, free_regions hf]
    · cases ht

theorem step_inv (hb : 0 < base) (hs : Inv base s fl) {a : Act} (ht : s.next base a = some t)
    (htotal : t.heap.total < 2 ^ 32) : ∃ fl', Inv base t fl' := by
  have hmono := step_total ht
  cases a with
  | malloc fuel n answer =>
    rw [State.next] at ht
    split at ht
    next hsmall =>
      obtain ⟨⟨h', r⟩, hr, rfl⟩ := Option.map_eq_some_iff.mp ht
      have hbig : (∃ q ∈ base :: fl, Heap.nunits n ≤ (s.heap.ready base).size q) ∨ answer = none ∨
          s.heap.total + max (Heap.nunits n) 4096 < 2 ^ 32 := by
        by_cases hex : ∃ q ∈ base :: fl, Heap.nunits n ≤ (s.heap.ready base).size q
        · exact .inl hex
        by_cases ha : answer = none
        · exact .inr (.inl ha)
        · have hgrow := mallocLoop_grows hs.ok hex ha hr
          rw [total_ready] at hgrow
          exact .inr (.inr (hgrow.trans_lt htotal))
      obtain ⟨fuel₀, h'', r', hspec, hm⟩ := malloc_spec hs (by omega) n hbig
      have heq : some (h', r) = some (h'', r') := by
        rw [← hspec (fuel + fuel₀) (by omega)]
        exact (mallocLoop_mono hr fuel₀).symm
      obtain ⟨rfl, rfl⟩ := Prod.mk.inj (Option.some.inj heq)
      exact malloced_inv hb hs hm
    next => cases ht
  | free fuel ap =>
    rw [State.next] at ht
    split at ht
    next hmem =>
      obtain ⟨e, he, rfl⟩ := mem_map.mp hmem
      obtain ⟨h', hf, rfl⟩ := Option.map_eq_some_iff.mp ht
      obtain ⟨fuel₀, h'', fl', hspec, hinv⟩ := free_live hb hs (by omega) he
      have heq : some h' = some h'' := by
        rw [← hspec (fuel + fuel₀) (by omega)]
        exact (free_mono hf fuel₀).symm
      obtain rfl := Option.some.inj heq
      exact ⟨fl', hinv⟩
    next => cases ht

/-- The allocator in every state that a program reaches while it has obtained fewer than 2³² units.
The free list goes from `base` through blocks of increasing addresses that do not abut and back;
free blocks and blocks in use are disjoint and cover the memory obtained; a block has the bytes
that were requested; and `malloc` returns, with 0 only when `sbrk` fails, as does `free`. -/
theorem umalloc_invariant (hb : 0 < base) (htop : base < top) {as : List Act}
    (hr : run (State.next base) (State.start top) as = some s) (htotal : s.heap.total < 2 ^ 32) :
    ∃ fl, (s.heap.freep ≠ 0 → Path s.heap.ptr base fl base ∧ s.heap.freep ∈ base :: fl) ∧
      (base :: fl).Pairwise (fun a b => a + hdr * (s.heap.ready base).size a < b) ∧
      (fl ++ s.live.map Prod.fst).Pairwise (Apart (s.heap.ready base).size) ∧
      (∀ x, (∃ a ∈ fl ++ s.live.map Prod.fst, a ≤ x ∧ x < a + hdr * (s.heap.ready base).size a) ↔
        ∃ r ∈ s.heap.regions, r.1 ≤ x ∧ x < r.1 + hdr * r.2) ∧
      (∀ e ∈ s.live, e.2 + hdr ≤ hdr * s.heap.size e.1) ∧
      (∀ n answer, Small n → ((∃ q ∈ base :: fl, Heap.nunits n ≤ (s.heap.ready base).size q) ∨
          answer = none ∨ s.heap.total + max (Heap.nunits n) 4096 < 2 ^ 32) →
        ∃ fuel₀ h' r, (∀ fuel, fuel₀ ≤ fuel → s.heap.malloc base fuel n answer = some (h', r)) ∧
          (r = 0 → answer = none)) ∧
      ∀ e ∈ s.live, ∃ fuel₀ h', ∀ fuel, fuel₀ ≤ fuel → s.heap.free fuel (e.1 + hdr) = some h' := by
  have hinv : s.heap.total < 2 ^ 32 → ∃ fl, Inv base s fl := by
    refine run_invariant (I := fun s => s.heap.total < 2 ^ 32 → ∃ fl, Inv base s fl) ?_
      (fun _ => ⟨[], inv_start htop⟩) hr
    intro s a t hs ht hlt
    obtain ⟨fl, h⟩ := hs ((step_total ht).trans_lt hlt)
    exact step_inv hb h ht hlt
  obtain ⟨fl, h⟩ := hinv htotal
  have hreg : (s.heap.ready base).regions = s.heap.regions := by
    unfold Heap.ready
    split <;> rfl
  refine ⟨fl, fun hne => ?_, h.ok.gaps, h.ok.tiling.apart, fun x => ?_, h.fits,
    fun n answer _ hn => ?_, fun e he => ?_⟩
  · have hok := h.ok
    rw [ready_of_ne hne] at hok
    exact ⟨hok.path, hok.rover⟩
  · rw [← hreg]
    exact h.ok.tiling.cover x
  · obtain ⟨fuel₀, h', r, hspec, hm⟩ := malloc_spec h htotal n hn
    refine ⟨fuel₀, h', r, hspec, fun hz => ?_⟩
    rcases hm.result with ⟨_, ha, _⟩ | ⟨q, _, hq, _⟩
    · exact ha
    · simp only [hdr] at hq
      omega
  · obtain ⟨fuel₀, h', _, hspec, _⟩ := free_live hb h htotal he
    exact ⟨fuel₀, h', hspec⟩

def twoBlocks : List Act := [.malloc 10 100 (some 0), .malloc 10 24 none, .free 10 69520]

theorem umalloc_invariant_twoBlocks :
    ∃ s, run (State.next 16) (State.start 4096) twoBlocks = some s ∧ s.live = [(69456, 24)] ∧
      s.heap.total = 4096 ∧ ∀ e ∈ s.live, e.2 + hdr ≤ hdr * s.heap.size e.1 := by
  have h : ∃ s ∈ run (State.next 16) (State.start 4096) twoBlocks,
      s.live = [(69456, 24)] ∧ s.heap.total = 4096 := by decide +kernel
  obtain ⟨s, hs, hlive, htotal⟩ := h
  obtain ⟨_, _, _, _, _, hfits, _⟩ := umalloc_invariant (by decide) (by decide) hs
    (by rw [htotal]; decide)
  exact ⟨s, hs, hlive, htotal, hfits⟩

def manyBlocks : List Act :=
  List.replicate 33 (.malloc 10 2147483584 (some 0)) ++
    (List.range 33).map fun i => .free 10 (4112 + 2147483600 * i)

/-- The sizes are added in 32 bits: after all blocks are freed the only block of the free list has
2²⁷ - 99 units, while 2³² more were obtained. -/
theorem umalloc_size_wraps : ∃ s ∈ run (State.next 16) (State.start 4096) manyBlocks, s.live = [] ∧
      s.heap.freep ∈ [16, 4096] ∧ s.heap.ptr 16 = 4096 ∧ s.heap.ptr 4096 = 16 ∧
      s.heap.size 4096 = 2 ^ 27 - 99 ∧ s.heap.total = 2 ^ 32 + 2 ^ 27 - 99 := by
  decide +kernel

end Xv6.Umalloc
