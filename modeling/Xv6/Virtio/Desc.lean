import Xv6.Virtio.Model

/-! Allocation and release of descriptors, and what a formatted chain is. -/
namespace Xv6.Virtio
open List
variable {B : Type} {d : Disk B} {idx : List ℕ} {i j k : ℕ}

namespace Disk

@[simps -fullyApplied, grind] def released (d : Disk B) (idx : List ℕ) : Disk B :=
  { d with
    free := fun i => d.free i || decide (i ∈ idx)
    desc := fun i => if i ∈ idx then ⟨.null, 0, 0, 0⟩ else d.desc i }

private theorem released_append (l l' : List ℕ) :
    (d.released l).released l' = d.released (l ++ l') := by
  simp only [released, mem_append, Bool.or_assoc, Bool.decide_or]
  grind

theorem freeDesc_ok (hi : i < num) (hf : d.free i = false) :
    d.freeDesc i = .ok (d.released [i]) := by
  rw [freeDesc, if_neg (by omega), hf, if_neg (by simp)]
  congr 1
  simp only [setFree, setDesc, released, mem_singleton]
  congr 1
  · funext x
    by_cases h : x = i <;> simp [h]
  · funext x
    by_cases h : x = i <;> simp [h]

theorem foldlM_freeDesc (hn : idx.Nodup) (hf : ∀ i ∈ idx, i < num ∧ d.free i = false) :
    idx.foldlM freeDesc d = .ok (d.released idx) := by
  induction idx generalizing d with
  | nil => simp [released, pure, Except.pure]
  | cons i idx ih =>
    obtain ⟨hni, hn⟩ := nodup_cons.mp hn
    obtain ⟨hi, hfi⟩ := hf i mem_cons_self
    have hrest : ∀ x ∈ idx, x < num ∧ (d.released [i]).free x = false := by grind
    rw [foldlM_cons, freeDesc_ok hi hfi]
    exact (ih hn hrest).trans (by rw [released_append, singleton_append])

/-- The descriptors in `idx` have been taken from those that `d` has free. -/
@[grind cases] structure Taken (d : Disk B) (idx : List ℕ) : Prop where
  nodup : idx.Nodup
  mem : ∀ i ∈ idx, i < num ∧ d.free i = true

@[simps -fullyApplied, grind] def taken (d : Disk B) (idx : List ℕ) : Disk B :=
  { d with free := fun i => d.free i && decide (i ∉ idx) }

theorem allocDesc_some {d' : Disk B} (hd : Taken d idx)
    (h : (d.taken idx).allocDesc = some (i, d')) :
    Taken d (idx ++ [i]) ∧ d' = d.taken (idx ++ [i]) := by
  obtain ⟨i, hi, he⟩ := Option.map_eq_some_iff.mp h
  cases he
  have hfree := List.find?_some hi
  have hlt := mem_range.mp (List.mem_of_find?_eq_some hi)
  simp only [taken_free, Bool.and_eq_true, decide_eq_true_eq] at hfree
  refine ⟨⟨?_, fun x hx => ?_⟩, ?_⟩
  · grind
  · grind
  · simp only [setFree, taken, mem_append, mem_singleton]
    congr 1
    funext x
    by_cases h : x = i <;> simp [h]

/-- What `alloc3_desc` leaves: `n` descriptors taken, or the descriptors in use as they were. -/
inductive Alloced (d : Disk B) (n : ℕ) : Disk B × Option (List ℕ) → Prop where
  | all (idx : List ℕ) (hd : Taken d idx) (hn : idx.length = n) :
      Alloced d n (d.taken idx, some idx)
  | none (idx : List ℕ) (hd : Taken d idx) : Alloced d n ((d.taken idx).released idx, none)

theorem alloc3Loop_spec (n : ℕ) (hd : Taken d idx) :
    ∃ r, alloc3Loop n idx (d.taken idx) = .ok r ∧ Alloced d (idx.length + n) r := by
  induction n generalizing idx with
  | zero => exact ⟨_, rfl, .all idx hd rfl⟩
  | succ n ih =>
    rw [alloc3Loop]
    cases ha : (d.taken idx).allocDesc with
    | some r =>
      obtain ⟨i, d'⟩ := r
      obtain ⟨hd', rfl⟩ := allocDesc_some hd ha
      grind
    | none =>
      have hf : ∀ i ∈ idx, i < num ∧ (d.taken idx).free i = false :=
        fun i hi => ⟨(hd.mem i hi).1, by simp [hi]⟩
      simp only
      rw [foldlM_freeDesc hd.nodup hf]
      exact ⟨_, rfl, .none idx hd⟩

theorem alloc3Desc_spec (d : Disk B) : ∃ r, d.alloc3Desc = .ok r ∧ Alloced d 3 r := by
  have h := alloc3Loop_spec 3 (d := d) ⟨nodup_nil, fun i hi => absurd hi not_mem_nil⟩
  have hd : d.taken [] = d := by simp [taken]
  rwa [hd] at h

/-- The chain `idx` is formatted for the request `r`. -/
inductive Formatted (d : Disk B) (r : Req B) : List ℕ → Prop where
  | intro {i j k : ℕ} (op : d.ops i = ⟨if r.write then 1 else 0, 0, r.sector⟩)
      (first : d.desc i = ⟨.ops i, 16, descNext, j⟩)
      (data : d.desc j = ⟨.data r.b, bsize, (if r.write then 0 else descWrite) ||| descNext, k⟩)
      (last : d.desc k = ⟨.status i, 1, descWrite, 0⟩)
      (buf : (d.info i).b = some r.b) : Formatted d r [i, j, k]

variable {r : Req B}

theorem Formatted.congr {d' : Disk B} (h : Formatted d r idx) (hops : ∀ i ∈ idx, d'.ops i = d.ops i)
    (hdesc : ∀ i ∈ idx, d'.desc i = d.desc i) (hinfo : ∀ i ∈ idx, (d'.info i).b = (d.info i).b) :
    Formatted d' r idx := by
  obtain ⟨op, first, data, last, buf⟩ := h
  simp only [mem_cons, not_mem_nil, or_false, forall_eq_or_imp, forall_eq] at hops hdesc hinfo
  exact ⟨hops.1.trans op, hdesc.1.trans first, hdesc.2.1.trans data, hdesc.2.2.trans last,
    hinfo.1.trans buf⟩

theorem format_formatted (hn : [i, j, k].Nodup) : Formatted (d.format r i j k) r [i, j, k] := by
  simp only [nodup_cons, mem_cons, not_mem_nil, or_false, not_or] at hn
  obtain ⟨⟨hij, hik⟩, hjk, -⟩ := hn
  constructor <;> simp [format, hij, hik, hjk]

theorem format_desc {x : ℕ} (hx : x ∉ [i, j, k]) : (d.format r i j k).desc x = d.desc x := by
  simp only [mem_cons, not_mem_nil, or_false, not_or] at hx
  simp [format, hx]

theorem format_info {x : ℕ} (hx : x ∉ [i, j, k]) : (d.format r i j k).info x = d.info x := by
  simp only [mem_cons, not_mem_nil, or_false, not_or] at hx
  simp [format, hx]

theorem format_ops {x : ℕ} (hx : x ∉ [i, j, k]) : (d.format r i j k).ops x = d.ops x := by
  simp only [mem_cons, not_mem_nil, or_false, not_or] at hx
  simp [format, hx]

theorem freeChain_formatted (h : Formatted d r (i :: idx)) (hn : (i :: idx).Nodup)
    (hf : ∀ x ∈ i :: idx, x < num ∧ d.free x = false) :
    (d.setInfo i { d.info i with b := none }).freeChain num i =
      some (.ok ((d.setInfo i { d.info i with b := none }).released (i :: idx))) := by
  set e := d.setInfo i { d.info i with b := none } with he
  have hdesc : e.desc = d.desc := rfl
  have hfree : e.free = d.free := rfl
  obtain ⟨-, first, data, last, -⟩ := h
  rename_i j k
  simp only [nodup_cons, mem_cons, not_mem_nil, or_false, not_or] at hn
  simp only [mem_cons, not_mem_nil, or_false, forall_eq_or_imp, forall_eq] at hf
  obtain ⟨⟨hij, hik⟩, hjk, -⟩ := hn
  obtain ⟨⟨hi, hfi⟩, ⟨hj, hfj⟩, hk, hfk⟩ := hf
  have hflag : ((if r.write then 0 else descWrite) ||| descNext) &&& descNext ≠ 0 := by
    split <;> decide
  rw [freeChain, freeDesc_ok hi (by rw [hfree, hfi])]
  simp only [hdesc, first]
  rw [if_pos (by decide), freeChain, freeDesc_ok hj (by simp [hfree, hfj, Ne.symm hij])]
  simp only [released_desc, mem_singleton, Ne.symm hij, if_false, hdesc, data]
  rw [if_pos hflag, freeChain, freeDesc_ok hk (by simp [hfree, hfk, Ne.symm hik, Ne.symm hjk])]
  simp only [released_desc, mem_singleton, Ne.symm hik, Ne.symm hjk, if_false, hdesc, last]
  rw [if_neg (by decide), released_append, released_append]
  rfl

theorem writeStatus_formatted (h : Formatted d r (i :: idx)) :
    d.writeStatus i = d.setInfo i { d.info i with status := 0 } := by
  obtain ⟨-, first, data, last, -⟩ := h
  rw [writeStatus, first, data, last]

end Disk
end Xv6.Virtio
