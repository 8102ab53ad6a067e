import Xv6.Umalloc.Free

/-! What `malloc` does: it finds a block that is large enough in one round through the free list, or
after one call of `morecore`, and takes the block or its tail. -/
namespace Xv6.Umalloc
open Function List
variable {base x y p q prevp nunits : ℕ} {ptr : ℕ → ℕ} {l fl live : List ℕ} {h h' : Heap}
  {answer : Option ℕ}

namespace Path

theorem rotate (hp : Path ptr base fl base) (hx : x ∈ base :: fl) :
    ∃ l, Path ptr x l x ∧ (x :: l).Perm (base :: fl) := by
  rcases mem_cons.mp hx with rfl | hx
  · exact ⟨fl, hp, List.Perm.refl _⟩
  obtain ⟨A, B, rfl⟩ := append_of_mem hx
  obtain ⟨h1, h2⟩ := append_cons.mp hp
  refine ⟨B ++ base :: A, append_cons.mpr ⟨h2, h1⟩, ?_⟩
  rw [← cons_append, ← cons_append]
  exact perm_append_comm

theorem ptr_mem (hp : Path ptr x l y) {z : ℕ} (hz : z ∈ x :: l) : ptr z ∈ l ++ [y] := by
  induction l generalizing x with
  | nil =>
    obtain rfl := mem_singleton.mp hz
    have he : ptr z = y := hp
    simp [he]
  | cons a l ih =>
    rcases mem_cons.mp hz with rfl | hz
    · rw [hp.1]
      exact (.head _)
    · exact mem_cons_of_mem a (ih hp.2 hz)

theorem ptr_inj (hp : Path ptr x l y) (hn : (l ++ [y]).Nodup) {a b : ℕ} (ha : a ∈ x :: l)
    (hb : b ∈ x :: l) (hab : ptr a = ptr b) : a = b := by
  induction l generalizing x with
  | nil => rw [mem_singleton.mp ha, mem_singleton.mp hb]
  | cons c l ih =>
    have hc := nodup_cons.mp hn
    rcases mem_cons.mp ha with hax | hal
    · rcases mem_cons.mp hb with hbx | hbl
      · rw [hax, hbx]
      · refine absurd (hp.2.ptr_mem hbl) ?_
        rw [← hab, hax, hp.1]
        exact hc.1
    · rcases mem_cons.mp hb with hbx | hbl
      · refine absurd (hp.2.ptr_mem hal) ?_
        rw [hab, hbx, hp.1]
        exact hc.1
      · exact ih hp.2 hc.2 hal hbl

end Path

/-- What `malloc` leaves when it returns the block with header `q`. -/
structure Took (base nunits : ℕ) (h : Heap) (live : List ℕ) (h' : Heap) (q : ℕ) (fl' : List ℕ) :
    Prop where
  ok : h'.Ok base fl' (q :: live)
  self : h'.size q = nunits
  size : ∀ a ∈ live, h'.size a = h.size a
  regions : h'.regions = h.regions

/-- The block in front of the list is empty and is never taken. -/
theorem Heap.Ok.mem_of_le (hok : h.Ok base fl live) (hp : p ∈ base :: fl) (hn : 0 < nunits)
    (hle : nunits ≤ h.size p) : p ∈ fl := by
  refine (mem_cons.mp hp).resolve_left ?_
  rintro rfl
  rw [hok.zero] at hle
  omega

theorem take_all (hok : h.Ok base fl live) (hprev : prevp ∈ base :: fl) (hp : h.ptr prevp = p)
    (hmem : p ∈ fl) (hsize : h.size p = nunits) :
    ∃ fl', Took base nunits h live ((h.setPtr prevp (h.ptr p)).setFreep prevp) p fl' := by
  obtain ⟨A, B, rfl⟩ := append_of_mem hmem
  obtain ⟨h1, h2⟩ := Path.append_cons.mp hok.path
  have hnd : (base :: (A ++ p :: B)).Nodup := (gaps_lt hok.gaps).nodup
  have hlast : prevp = A.getLastD base := by
    have hnd' : (A ++ p :: B ++ [base]).Nodup :=
      (show ([base] ++ (A ++ p :: B)).Perm (A ++ p :: B ++ [base]) from
        perm_append_comm).nodup_iff.mp hnd
    refine hok.path.ptr_inj hnd' hprev ?_ ?_
    · have hmem' : A.getLastD base ∈ base :: A := getLastD_mem_cons
      rw [← cons_append]
      exact mem_append_left _ hmem'
    · rw [hp]
      exact hok.path.right.1.symm
  have hsub : (base :: (A ++ B)).Sublist (base :: (A ++ p :: B)) :=
    ((List.Sublist.refl A).append (sublist_cons_self p B)).cons_cons base
  have hlow : (base :: A).Sublist (base :: (A ++ p :: B)) :=
    (sublist_append_left A (p :: B)).cons_cons base
  have hlastmem : A.getLastD base ∈ base :: A := getLastD_mem_cons
  have hdisj : ∀ z ∈ B, z ≠ prevp := by
    rintro z hz rfl
    rw [← cons_append] at hnd
    exact (nodup_append.mp hnd).2.2 _ (hlast ▸ hlastmem) _ (.tail p hz) rfl
  have hperm : (A ++ p :: B ++ live).Perm (A ++ B ++ p :: live) := by
    rw [append_assoc, cons_append]
    refine perm_middle.trans ?_
    rw [← append_assoc]
    exact perm_middle.symm
  refine ⟨A ++ B, ⟨?_, hok.gaps.sublist hsub, hok.zero, ?_, hok.tiling.perm hperm,
    fun a ha => hok.above a (hperm.mem_iff.mpr ha), fun a ha => hok.below a (hperm.mem_iff.mpr ha),
    hok.room⟩, hsize, fun _ _ => rfl, rfl⟩
  · refine h1.relink (hnd.sublist hlow) (fun v _ hv => ?_) ?_
    · rw [← hlast] at hv
      rw [Heap.setFreep_ptr, Heap.setPtr_ptr, update_of_ne hv]
    · rw [← hlast]
      refine h2.same (by simp) fun z hz => ?_
      rw [Heap.setFreep_ptr, Heap.setPtr_ptr, update_of_ne (hdisj z hz)]
  · change prevp ∈ base :: (A ++ B)
    rw [hlast, ← cons_append]
    exact mem_append_left _ hlastmem

section
variable (hok : h.Ok base fl live) (htotal : h.total < 2 ^ 32) (hprev : prevp ∈ base :: fl)
include hok htotal hprev

theorem take_tail (hmem : p ∈ fl) (hn : 0 < nunits) (hlt : nunits < h.size p) :
    Took base nunits h live (((h.setSize p (h.size p - nunits)).setSize
      (p + hdr * (h.size p - nunits)) nunits).setFreep prevp)
      (p + hdr * (h.size p - nunits)) fl := by
  obtain ⟨A, B, rfl⟩ := append_of_mem hmem
  have hperm : (A ++ p :: B ++ live).Perm (p :: (A ++ B ++ live)) := by
    simp only [append_assoc, cons_append]
    exact perm_middle
  have htil := hok.tiling.perm hperm
  have hle : h.size p ≤ h.total := htil.size_le (.head _)
  set r := p + hdr * (h.size p - nunits) with hr
  have hrp : r ≠ p := by
    simp only [hdr] at hr
    omega
  -- The new header lies inside of block `p`, so it is no other header.
  have hinside : ∀ a ∈ A ++ B ++ live, a ≠ r := by
    intro a ha har
    have hap := rel_of_pairwise_cons htil.apart ha
    have hpa := htil.pos a (.tail p ha)
    simp only [Apart, hdr] at *
    omega
  have hother : ∀ a ≠ p, a ≠ r → (((h.setSize p (h.size p - nunits)).setSize r
      nunits).setFreep prevp).size a = h.size a := by
    intro a hap har
    rw [Heap.setFreep_size, Heap.setSize_size, update_of_ne har, Heap.setSize_size,
      update_of_ne hap]
  have hself : (((h.setSize p (h.size p - nunits)).setSize r nunits).setFreep prevp).size p =
      h.size p - nunits := by
    rw [Heap.setFreep_size, Heap.setSize_size, update_of_ne hrp.symm, Heap.setSize_size,
      update_self, Nat.mod_eq_of_lt (by omega)]
  have hnew : (((h.setSize p (h.size p - nunits)).setSize r nunits).setFreep prevp).size r =
      nunits := by
    rw [Heap.setFreep_size, Heap.setSize_size, update_self, Nat.mod_eq_of_lt (by omega)]
  have hnot : ∀ a ∈ A ++ B ++ live, a ≠ p := by
    rintro a ha rfl
    exact htil.not_mem ha
  have hbase : base ≠ p ∧ base ≠ r := by
    have := hok.above p (by simp)
    simp only [hdr] at hr
    omega
  have hshrink : ∀ a ∈ base :: (A ++ p :: B), (((h.setSize p (h.size p - nunits)).setSize r
      nunits).setFreep prevp).size a ≤ h.size a := by
    intro a ha
    by_cases hap : a = p
    · rw [hap, hself]
      omega
    refine (hother a hap ?_).le
    rcases mem_cons.mp ha with rfl | ha
    · exact hbase.2
    · refine hinside a ?_
      simp only [mem_append, mem_cons] at ha ⊢
      tauto
  have hsplit := htil.split hn hlt hr (fun a ha => hother a (hnot a ha) (hinside a ha)) hself hnew
  have hperm' : (p :: r :: (A ++ B ++ live)).Perm (A ++ p :: B ++ r :: live) := by
    refine (List.Perm.swap r p _).trans ?_
    refine (List.Perm.cons r hperm.symm).trans ?_
    exact perm_middle.symm
  have hends : ∀ a ∈ A ++ p :: B ++ r :: live, base < a ∧ a + hdr * (((h.setSize p (h.size p -
      nunits)).setSize r nunits).setFreep prevp).size a ≤ h.top := by
    intro a ha
    have hpa := hok.above p (by simp)
    have hpb := hok.below p (by simp)
    by_cases har : a = r
    · rw [har, hnew]
      simp only [hdr] at *
      omega
    by_cases hap : a = p
    · rw [hap, hself]
      simp only [hdr] at *
      omega
    have hmem' : a ∈ A ++ p :: B ++ live := by
      simp only [mem_append, mem_cons] at ha ⊢
      tauto
    rw [hother a hap har]
    exact ⟨hok.above a hmem', hok.below a hmem'⟩
  refine ⟨⟨hok.path, ?_, (hother base hbase.1 hbase.2).trans hok.zero, hprev, hsplit.perm hperm',
    fun a ha => (hends a ha).1, fun a ha => (hends a ha).2, hok.room⟩, hnew, fun a ha => ?_, rfl⟩
  · refine List.Pairwise.imp_of_mem (fun {a b} ha _ hab => ?_) hok.gaps
    have hs := hshrink a ha
    unfold Gap at hab ⊢
    simp only [hdr] at *
    omega
  · exact hother a (hnot a (mem_append_right _ ha)) (hinside a (mem_append_right _ ha))

theorem take_spec (hp : h.ptr prevp = p) (hmem : p ∈ base :: fl) (hn : 0 < nunits)
    (hle : nunits ≤ h.size p) :
    ∃ q fl', (h.take nunits prevp p).2 = q + hdr ∧
      Took base nunits h live (h.take nunits prevp p).1 q fl' := by
  have hfl : p ∈ fl := hok.mem_of_le hmem hn hle
  unfold Heap.take
  by_cases hsize : h.size p = nunits
  · rw [if_pos hsize]
    obtain ⟨fl', ht⟩ := take_all hok hprev hp hfl hsize
    exact ⟨p, fl', rfl, ht⟩
  · rw [if_neg hsize]
    exact ⟨_, fl, rfl, take_tail hok htotal hprev hfl hn (by omega)⟩

end

section Loop
variable {M : Type → Type} [AlternativeMonad M] (more : Heap → ℕ → M (Option Heap))

theorem mallocLoop_found (l : List ℕ) : ∀ {prevp : ℕ}, Path h.ptr prevp l h.freep →
    prevp ∈ base :: fl → (∀ a ∈ l ++ [h.freep], a ∈ base :: fl) → h.freep ∉ l →
    (∃ q ∈ l ++ [h.freep], nunits ≤ h.size q) →
    ∃ prevq q, prevq ∈ base :: fl ∧ h.ptr prevq = q ∧ q ∈ base :: fl ∧ nunits ≤ h.size q ∧
      ∀ fuel, l.length < fuel → Heap.mallocLoop more nunits fuel h prevp (h.ptr prevp) =
        pure (h.take nunits prevq q) := by
  induction l with
  | nil =>
    intro prevp hpath hprev hmem _ hq
    obtain ⟨q, hq, hle⟩ := hq
    have hp : h.ptr prevp = h.freep := hpath
    have hqf : q = h.freep := by simpa using hq
    refine ⟨prevp, h.ptr prevp, hprev, rfl, ?_, ?_, fun fuel hf => ?_⟩
    · rw [hp]
      exact hmem _ (by simp)
    · rwa [hp, ← hqf]
    · obtain ⟨k, rfl⟩ : ∃ k, fuel = k + 1 := ⟨fuel - 1, by simp only [length_nil] at hf; omega⟩
      rw [Heap.mallocLoop, if_pos (by rwa [hp, ← hqf])]
  | cons c l ih =>
    intro prevp hpath hprev hmem hnot hq
    have hp : h.ptr prevp = c := hpath.1
    have hc : c ∈ base :: fl := hmem c (by simp)
    have hcf : c ≠ h.freep := fun hcf => hnot (by simp [hcf])
    by_cases hle : nunits ≤ h.size c
    · refine ⟨prevp, c, hprev, hp, hc, hle, fun fuel hf => ?_⟩
      obtain ⟨k, rfl⟩ : ∃ k, fuel = k + 1 := ⟨fuel - 1, by simp only [length_cons] at hf; omega⟩
      rw [Heap.mallocLoop, hp, if_pos hle]
    have hrest : ∃ q ∈ l ++ [h.freep], nunits ≤ h.size q := by
      obtain ⟨q, hq, hqle⟩ := hq
      rcases mem_cons.mp hq with rfl | hq
      · exact absurd hqle hle
      · exact ⟨q, hq, hqle⟩
    obtain ⟨prevq, q, h1, h2, h3, h4, h5⟩ := ih hpath.2 hc
      (fun a ha => hmem a (.tail c ha))
      (fun hf => hnot (.tail c hf)) hrest
    refine ⟨prevq, q, h1, h2, h3, h4, fun fuel hf => ?_⟩
    obtain ⟨k, rfl⟩ : ∃ k, fuel = k + 1 := ⟨fuel - 1, by simp only [length_cons] at hf; omega⟩
    rw [Heap.mallocLoop, hp, if_neg hle, if_neg hcf]
    exact h5 k (Nat.lt_of_succ_lt_succ hf)

/-- A round in which no block is large enough ends with `morecore`. -/
theorem mallocLoop_none (l : List ℕ) :
    ∀ {prevp : ℕ} (fuel : ℕ), Path h.ptr prevp l h.freep →
    h.freep ∉ l → (∀ q ∈ l ++ [h.freep], ¬ nunits ≤ h.size q) →
    Heap.mallocLoop more nunits (fuel + (l.length + 1)) h prevp (h.ptr prevp) = (do
      match ← more h fuel with
      | none => return (h, 0)
      | some h' => Heap.mallocLoop more nunits fuel h' h'.freep (h'.ptr h'.freep)) := by
  induction l with
  | nil =>
    intro prevp fuel hpath _ hq
    have hp : h.ptr prevp = h.freep := hpath
    change Heap.mallocLoop more nunits (fuel + 1) h prevp (h.ptr prevp) = _
    rw [Heap.mallocLoop, hp, if_neg (hq _ (by simp))]
    exact if_pos rfl
  | cons c l ih =>
    intro prevp fuel hpath hnot hq
    have hp : h.ptr prevp = c := hpath.1
    change Heap.mallocLoop more nunits (fuel + (l.length + 1) + 1) h prevp (h.ptr prevp) = _
    rw [Heap.mallocLoop, hp, if_neg (hq c (by simp)), if_neg fun hcf => hnot (by simp [hcf])]
    exact ih fuel hpath.2 (fun hf => hnot (.tail c hf)) fun q hq' => hq q (.tail c hq')

end Loop

theorem Heap.Ok.circle (hok : h.Ok base fl live) : ∃ l, Path h.ptr h.freep l h.freep ∧
    h.freep ∉ l ∧ ∀ a, a ∈ l ++ [h.freep] ↔ a ∈ base :: fl := by
  obtain ⟨l, hl, hperm⟩ := hok.path.rotate hok.rover
  have hnd : (h.freep :: l).Nodup := hperm.nodup_iff.mpr (gaps_lt hok.gaps).nodup
  refine ⟨l, hl, (nodup_cons.mp hnd).1, fun a => ?_⟩
  rw [← hperm.mem_iff]
  simp [or_comm]

theorem sbrk_ok (hok : h.Ok base fl live) (gap : ℕ) {nu : ℕ} (hnu : 0 < nu) (hlt : nu < 2 ^ 32) :
    ((h.sbrk gap nu).setSize (h.top + gap) nu).Ok base fl ((h.top + gap) :: live) := by
  have hne : ∀ a ∈ fl ++ live, a ≠ h.top + gap := by
    intro a ha
    have := hok.below a ha
    have := hok.tiling.pos a ha
    simp only [hdr] at *
    omega
  have hroom := hok.room
  have hother : ∀ a, a ≠ h.top + gap →
      ((h.sbrk gap nu).setSize (h.top + gap) nu).size a = h.size a := by
    intro a ha
    rw [Heap.setSize_size, update_of_ne ha]
    rfl
  have hself : ((h.sbrk gap nu).setSize (h.top + gap) nu).size (h.top + gap) = nu := by
    rw [Heap.setSize_size, update_self, Nat.mod_eq_of_lt hlt]
  have hbase : base ≠ h.top + gap := by omega
  have hperm : (fl ++ (h.top + gap) :: live).Perm ((h.top + gap) :: (fl ++ live)) :=
    perm_middle
  refine ⟨hok.path, ?_, (hother base hbase).trans hok.zero, hok.rover, ?_, fun a ha => ?_,
    fun a ha => ?_, ?_⟩
  · refine List.Pairwise.imp_of_mem (fun {a b} ha _ hab => ?_) hok.gaps
    have hat : a ≠ h.top + gap := by
      rcases mem_cons.mp ha with rfl | ha
      · exact hbase
      · exact hne a (mem_append_left live ha)
    rw [Gap, hother a hat]
    exact hab
  · refine Tiling.perm ?_ hperm.symm
    refine hok.tiling.add hnu (fun a ha => ?_) (fun a ha => hother a (hne a ha)) hself
    exact (hok.below a ha).trans (Nat.le_add_right _ _)
  · rcases mem_cons.mp (hperm.mem_iff.mp ha) with rfl | ha
    · omega
    · exact hok.above a ha
  · change _ ≤ h.top + gap + hdr * nu
    rcases mem_cons.mp (hperm.mem_iff.mp ha) with rfl | ha
    · rw [hself]
    · rw [hother a (hne a ha)]
      exact (hok.below a ha).trans (by omega)
  · change base < h.top + gap + hdr * nu
    omega

structure Malloced (base nunits : ℕ) (answer : Option ℕ) (h : Heap) (live : List ℕ) (h' : Heap)
    (r : ℕ) : Prop where
  result : (r = 0 ∧ answer = none ∧ h' = h) ∨ ∃ q fl', r = q + hdr ∧ h'.Ok base fl' (q :: live) ∧
    h'.size q = nunits ∧ ∀ a ∈ live, h'.size a = h.size a

theorem Took.malloced {q : ℕ} {fl' : List ℕ} {h0 : Heap} (ht : Took base nunits h live h' q fl')
    (hs : ∀ a ∈ live, h.size a = h0.size a) :
    Malloced base nunits answer h0 live h' (q + hdr) :=
  ⟨.inr ⟨q, fl', rfl, ht.ok, ht.self, fun a ha => (ht.size a ha).trans (hs a ha)⟩⟩

theorem mallocLoop_big (answer : Option ℕ) (hok : h.Ok base fl live) (htotal : h.total < 2 ^ 32)
    (hn : 0 < nunits)
    (hbig : ∃ q ∈ base :: fl, nunits ≤ h.size q) :
    ∃ fuel0 h' q fl', (∀ fuel, fuel0 ≤ fuel →
      Heap.mallocLoop (Heap.answering answer nunits) nunits fuel h h.freep (h.ptr h.freep) =
        some (h', q + hdr)) ∧
      Took base nunits h live h' q fl' := by
  obtain ⟨l, hl, hnot, hmem⟩ := hok.circle
  obtain ⟨q, hq, hle⟩ := hbig
  obtain ⟨prevq, q', hprev, hp, hq', hle', hloop⟩ :=
    mallocLoop_found (Heap.answering answer nunits) l hl hok.rover
      (fun a ha => (hmem a).mp ha) hnot ⟨q, (hmem q).mpr hq, hle⟩
  obtain ⟨r, fl', hr, htook⟩ := take_spec hok htotal hprev hp hq' hn hle'
  refine ⟨l.length + 1, (h.take nunits prevq q').1, r, fl', fun fuel hf => ?_, htook⟩
  rw [hloop fuel hf, ← hr]
  rfl

/-- After `morecore` a block is large enough. -/
theorem morecore_spec (hok : h.Ok base fl live) (gap : ℕ)
    (hroom : h.total + max nunits 4096 < 2 ^ 32) : ∃ h₂ fl₂,
    (∀ k, 2 * fl.length + 2 ≤ k → h.morecore k nunits (some gap) = some (some h₂)) ∧
      Freed base (h.top + gap) ((h.sbrk gap (max nunits 4096)).setSize (h.top + gap)
        (max nunits 4096)) fl live h₂ fl₂ ∧ h₂.total < 2 ^ 32 ∧
      ∃ q ∈ base :: fl₂, nunits ≤ h₂.size q := by
  have hok1 := sbrk_ok hok gap (show 0 < max nunits 4096 by omega) (by omega)
  have htotal1 : ((h.sbrk gap (max nunits 4096)).setSize (h.top + gap)
      (max nunits 4096)).total < 2 ^ 32 := by
    change (List.map Prod.snd ((h.top + gap, max nunits 4096) :: h.regions)).sum < _
    rw [map_cons, sum_cons]
    change max nunits 4096 + h.total < _
    omega
  obtain ⟨h₂, fl₂, hfree, hfreed⟩ := free_spec hok1 htotal1
  refine ⟨h₂, fl₂, fun k hk => by rw [Heap.morecore, hfree k hk, Option.map_some], hfreed, ?_, ?_⟩
  · rw [Heap.total, hfreed.regions]
    exact htotal1
  · obtain ⟨a, ha, hle⟩ := hfreed.found
    refine ⟨a, mem_cons_of_mem base ha, le_trans ?_ hle⟩
    rw [Heap.setSize_size, update_self, Nat.mod_eq_of_lt (by omega)]
    exact le_max_left _ _

theorem mallocLoop_spec (hok : h.Ok base fl live) (htotal : h.total < 2 ^ 32) (hn : 0 < nunits)
    (hbig : (∃ q ∈ base :: fl, nunits ≤ h.size q) ∨ answer = none ∨
      h.total + max nunits 4096 < 2 ^ 32) :
    ∃ fuel0 h' r, (∀ fuel, fuel0 ≤ fuel → Heap.mallocLoop (Heap.answering answer nunits) nunits
      fuel h h.freep (h.ptr h.freep) = some (h', r)) ∧
      Malloced base nunits answer h live h' r := by
  by_cases hex : ∃ q ∈ base :: fl, nunits ≤ h.size q
  · obtain ⟨fuel0, h', q, fl', hloop, htook⟩ := mallocLoop_big answer hok htotal hn hex
    exact ⟨fuel0, h', q + hdr, hloop, htook.malloced fun _ _ => rfl⟩
  obtain ⟨l, hl, hnot, hmem⟩ := hok.circle
  have hnone : ∀ q ∈ l ++ [h.freep], ¬ nunits ≤ h.size q :=
    fun q hq hle => hex ⟨q, (hmem q).mp hq, hle⟩
  have hround := fun k => mallocLoop_none (Heap.answering answer nunits) l k hl hnot hnone
  cases answer with
  | none =>
    refine ⟨l.length + 1, h, 0, fun fuel hf => ?_, ⟨.inl ⟨rfl, rfl, rfl⟩⟩⟩
    obtain ⟨k, rfl⟩ : ∃ k, fuel = k + (l.length + 1) := ⟨fuel - (l.length + 1), by omega⟩
    rw [hround k]
    rfl
  | some gap =>
    have hroom : h.total + max nunits 4096 < 2 ^ 32 := by
      rcases hbig with hb | hb | hb
      · exact absurd hb hex
      · cases hb
      · exact hb
    obtain ⟨h₂, fl₂, hmore, hfreed, htotal2, hbig2⟩ := morecore_spec hok gap hroom
    obtain ⟨fuel0, h', q, fl', hloop, htook⟩ := mallocLoop_big (some gap) hfreed.ok htotal2 hn hbig2
    refine ⟨max fuel0 (2 * fl.length + 2) + (l.length + 1), h', q + hdr, fun fuel hf => ?_,
      htook.malloced fun a ha => ?_⟩
    · obtain ⟨k, rfl⟩ : ∃ k, fuel = k + (l.length + 1) := ⟨fuel - (l.length + 1), by omega⟩
      rw [hround k, Heap.answering, hmore k (by omega)]
      exact hloop k (by omega)
    · rw [hfreed.size a ha, Heap.setSize_size, update_of_ne]
      · rfl
      · rintro rfl
        have hbelow := hok.below _ (mem_append_right fl ha)
        have hpos := hok.tiling.pos _ (mem_append_right fl ha)
        simp only [hdr] at *
        omega

theorem place_mono {bp fuel r : ℕ} (hp : h.place bp fuel x = some r) (k : ℕ) :
    h.place bp (fuel + k) x = some r := by
  induction fuel generalizing x with
  | zero => cases hp
  | succ fuel ih =>
    rw [Nat.add_right_comm]
    unfold Heap.place at hp ⊢
    split at hp
    next hc => rwa [if_pos hc]
    next hc =>
      rw [if_neg hc]
      exact ih hp

theorem free_mono {fuel ap : ℕ} (hf : h.free fuel ap = some h') (k : ℕ) :
    h.free (fuel + k) ap = some h' := by
  unfold Heap.free at hf ⊢
  obtain ⟨p, hp, rfl⟩ := Option.map_eq_some_iff.mp hf
  rw [place_mono hp k]
  rfl

theorem morecore_mono {fuel nu : ℕ} {r : Option Heap} (hm : h.morecore fuel nu answer = some r)
    (k : ℕ) : h.morecore (fuel + k) nu answer = some r := by
  unfold Heap.morecore at hm ⊢
  cases answer with
  | none => exact hm
  | some gap =>
    obtain ⟨h', hf, rfl⟩ := Option.map_eq_some_iff.mp hm
    dsimp only
    rw [free_mono hf k]
    rfl

theorem mallocLoop_mono {fuel : ℕ} {r : Heap × ℕ}
    (hm : Heap.mallocLoop (Heap.answering answer nunits) nunits fuel h prevp p = some r) (k : ℕ) :
    Heap.mallocLoop (Heap.answering answer nunits) nunits (fuel + k) h prevp p = some r := by
  induction fuel generalizing h prevp p with
  | zero => cases hm
  | succ fuel ih =>
    rw [Nat.add_right_comm]
    unfold Heap.mallocLoop at hm ⊢
    split at hm
    next hc => rwa [if_pos hc]
    next hc =>
      rw [if_neg hc]
      split at hm
      next hp =>
        rw [if_pos hp]
        cases hmc : h.morecore fuel nunits answer with
        | none =>
          rw [Heap.answering, hmc] at hm
          cases hm
        | some o =>
          rw [Heap.answering, hmc] at hm
          rw [Heap.answering, morecore_mono hmc k]
          cases o with
          | none => exact hm
          | some h' => exact ih hm
      next hp =>
        rw [if_neg hp]
        exact ih hm

end Xv6.Umalloc
