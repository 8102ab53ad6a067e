import Mathlib.Tactic

/-! The sieve of Eratosthenes on lists: the first number is prime, and its multiples are dropped. -/
namespace Sieve
open List

/-- The numbers that are left after the multiples of the first have been dropped. -/
def sift : List ℕ → List ℕ
  | [] => []
  | p :: l => l.filter fun m => ¬ p ∣ m

private theorem length_sift_cons (p : ℕ) (l : List ℕ) : (sift (p :: l)).length < (p :: l).length :=
  Nat.lt_succ_of_le (length_filter_le _ l)

/-- The first numbers of the lists that repeated sifting leaves. -/
def sieve : List ℕ → List ℕ
  | [] => []
  | p :: l => p :: sieve (sift (p :: l))
termination_by l => l.length
decreasing_by exact length_sift_cons p l

@[simp] theorem sieve_nil : sieve [] = [] := by rw [sieve]

theorem sieve_cons (p : ℕ) (l : List ℕ) : sieve (p :: l) = p :: sieve (sift (p :: l)) := by
  rw [sieve]

/-- The numbers up to `N` without a factor below `q`. -/
def rough (q N : ℕ) : List ℕ := (List.range (N + 1)).filter fun m => 2 ≤ m ∧ q ≤ m.minFac

theorem mem_rough {q N m : ℕ} : m ∈ rough q N ↔ m ≤ N ∧ 2 ≤ m ∧ q ≤ m.minFac := by
  simp [rough]

theorem minFac_mem_rough {q N m : ℕ} (h : m ∈ rough q N) : m.minFac ∈ rough q N := by
  obtain ⟨hN, h2, hq⟩ := mem_rough.mp h
  have hp : m.minFac.Prime := Nat.minFac_prime (by omega)
  refine mem_rough.mpr ⟨(Nat.minFac_le (by omega)).trans hN, hp.two_le, ?_⟩
  rwa [hp.minFac_eq]

theorem pairwise_rough (q N : ℕ) : (rough q N).Pairwise (· < ·) :=
  List.Pairwise.filter _ pairwise_lt_range

variable {q N p : ℕ} {l : List ℕ}

private theorem le_minFac_of_rough (h : rough q N = p :: l) {m : ℕ} (hm : m ∈ rough q N) :
    p ≤ m.minFac := by
  have hs := pairwise_rough q N
  have hmem := minFac_mem_rough hm
  rw [h] at hs hmem
  rcases mem_cons.mp hmem with he | he
  · exact he.ge
  · exact (rel_of_pairwise_cons hs he).le

theorem prime_of_rough (h : rough q N = p :: l) : p.Prime := by
  have hmem : p ∈ rough q N := h ▸ mem_cons_self
  obtain ⟨_, h2, _⟩ := mem_rough.mp hmem
  have hle := le_minFac_of_rough h hmem
  have heq : p.minFac = p := le_antisymm (Nat.minFac_le (by omega)) hle
  exact heq ▸ Nat.minFac_prime (by omega)

/-- Sifting leaves the numbers whose factors are beyond the first number. -/
theorem sift_rough (h : rough q N = p :: l) : sift (rough q N) = rough (p + 1) N := by
  have hp := prime_of_rough h
  have hsift : sift (rough q N) = (rough q N).filter fun m => ¬ p ∣ m := by
    rw [h, sift, filter_cons, if_neg (by simp)]
  rw [hsift, rough, filter_filter]
  apply filter_congr
  intro m hm
  have hle : m ∈ rough q N → p ≤ m.minFac := le_minFac_of_rough h
  have hqp : q ≤ p := by
    have hmem : p ∈ rough q N := h ▸ mem_cons_self
    have := (mem_rough.mp hmem).2.2
    rwa [hp.minFac_eq] at this
  have hN : m ≤ N := Nat.lt_succ_iff.mp (mem_range.mp hm)
  by_cases hr : 2 ≤ m ∧ q ≤ m.minFac
  · have hpm := hle (mem_rough.mpr ⟨hN, hr⟩)
    have hdvd : p ∣ m ↔ m.minFac ≤ p := by
      constructor
      · exact Nat.minFac_le_of_dvd hp.two_le
      · intro hmp
        rw [← le_antisymm hmp hpm]
        exact Nat.minFac_dvd m
    simp [hr, hdvd]
  · have hr' : ¬ (2 ≤ m ∧ p + 1 ≤ m.minFac) := fun hc => hr ⟨hc.1, by omega⟩
    simp only [hr, hr', decide_false, Bool.and_false]

theorem sieve_rough (k : ℕ) : ∀ q, (rough q N).length ≤ k →
    sieve (rough q N) = (rough q N).filter fun m => m.Prime := by
  induction k with
  | zero =>
    intro q hk
    rw [length_eq_zero_iff.mp (Nat.le_zero.mp hk)]
    simp
  | succ k ih =>
    intro q hk
    cases h : rough q N with
    | nil => simp
    | cons p l =>
      have hp := prime_of_rough h
      have hsift := sift_rough h
      have hlen := length_sift_cons p l
      rw [h] at hsift hk
      rw [hsift] at hlen
      rw [sieve_cons, hsift, ih (p + 1) (by omega), filter_cons, if_pos (by simpa using hp),
        ← hsift, sift, filter_filter]
      congr 1
      apply filter_congr
      intro m hm
      have hs := pairwise_rough q N
      rw [h] at hs
      have hlt := rel_of_pairwise_cons hs hm
      by_cases hmp : m.Prime
      · have hnd : ¬ p ∣ m := fun hd => by
          have := (Nat.prime_dvd_prime_iff_eq hp hmp).mp hd
          omega
        simp [hmp, hnd]
      · simp [hmp]

theorem range_eq_rough (n : ℕ) : List.range' 2 (n - 1) = rough 0 n := by
  have hperm : (List.range' 2 (n - 1)).Perm (rough 0 n) := by
    refine (perm_ext_iff_of_nodup nodup_range' ?_).mpr fun m => ?_
    · exact (pairwise_rough 0 n).imp fun h => h.ne
    · rw [mem_rough, mem_range'_1]
      constructor
      · exact fun h => ⟨by omega, h.1, Nat.zero_le _⟩
      · exact fun h => ⟨h.2.1, by omega⟩
  exact hperm.eq_of_pairwise (fun a b _ _ hab hba => absurd hab (not_lt.mpr hba.le))
    pairwise_lt_range' (pairwise_rough 0 n)

/-- Sieving the numbers from 2 to `n` gives the primes up to `n`. -/
theorem sieve_range (n : ℕ) :
    sieve (List.range' 2 (n - 1)) = (List.range (n + 1)).filter fun m => m.Prime := by
  rw [range_eq_rough, sieve_rough _ 0 le_rfl, rough, filter_filter]
  apply filter_congr
  intro m _
  by_cases hm : m.Prime
  · simp [hm, hm.two_le]
  · simp [hm]

end Sieve
