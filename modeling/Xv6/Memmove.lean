import Mathlib.Data.BitVec
import Mathlib.Tactic

/-! `memmove` of the kernel (`string.c`) and of the user library (`ulib.c`) on 64-bit addresses. The
two loops are those of `memmove` on the indices of an array as well. -/
namespace Xv6.Memmove
open Function BitVec

abbrev Addr := BitVec 64

abbrev Mem := Addr → UInt8

section Loops
variable {A : Type} [DecidableEq A] [OfNat A 1]

/-- `while(n-- > 0) *d++ = *s++` -/
def copyUp [Add A] (m : A → UInt8) (d s : A) : ℕ → A → UInt8
  | 0 => m
  | n + 1 => copyUp (update m d (m s)) (d + 1) (s + 1) n

/-- `while(n-- > 0) *--d = *--s` -/
def copyDown [Sub A] (m : A → UInt8) (d s : A) : ℕ → A → UInt8
  | 0 => m
  | n + 1 => copyDown (update m (d - 1) (m (s - 1))) (d - 1) (s - 1) n

end Loops

/-- The kernel's function; `n` is a `uint`. -/
def kernelMemmove (m : Mem) (dst src : Addr) (n : BitVec 32) : Addr × Mem :=
  if n = 0 then (dst, m)
  else
    let len := n.setWidth 64
    if src < dst ∧ dst < src + len then (dst, copyDown m (dst + len) (src + len) n.toNat)
    else (dst, copyUp m dst src n.toNat)

/-- The user library's function; `n` is an `int`, and a negative one is no round of a loop. -/
def userMemmove (m : Mem) (dst src : Addr) (n : BitVec 32) : Addr × Mem :=
  if dst < src then (dst, copyUp m dst src n.toInt.toNat)
  else
    let len := n.signExtend 64
    (dst, copyDown m (dst + len) (src + len) n.toInt.toNat)

/-- The `n` bytes at `s` of `m` are at `d` in `m'`, and the other bytes are as before. -/
structure Copied (m m' : Mem) (d s : Addr) (n : ℕ) : Prop where
  copied : ∀ k < n, m' (d + k) = m (s + k)
  frame : ∀ a, (∀ k < n, a ≠ d + k) → m' a = m a

variable {m m' m'' : Mem} {d s : Addr} {n : ℕ}

theorem Copied.unique (h : Copied m m' d s n) (h' : Copied m m'' d s n) : m' = m'' := by
  funext a
  by_cases ha : ∀ k < n, a ≠ d + k
  · rw [h.frame a ha, h'.frame a ha]
  · push Not at ha
    obtain ⟨k, hk, rfl⟩ := ha
    rw [h.copied k hk, h'.copied k hk]

private theorem add_one_add (p : Addr) (k : ℕ) : p + 1 + k = p + (k + 1 : ℕ) := by
  push_cast
  ring

private theorem toNat_add_nat {p : Addr} {k : ℕ} (h : p.toNat + k < 2 ^ 64) :
    (p + k).toNat = p.toNat + k := by
  rw [toNat_add, natCast_eq_ofNat, toNat_ofNat]
  omega

private theorem add_ne {j k : ℕ} (hjk : j < k) (hk : k < 2 ^ 64) : d + j ≠ d + k := by
  intro he
  have hnat := congrArg BitVec.toNat (add_left_cancel he)
  rw [natCast_eq_ofNat, natCast_eq_ofNat, toNat_ofNat, toNat_ofNat] at hnat
  omega

/-- The loop upwards is right if it never writes a byte that it still has to read. -/
theorem copyUp_copied : ∀ {n : ℕ} {m : Mem} {d s : Addr}, n ≤ 2 ^ 64 →
    (∀ j k, j < k → k < n → s + k ≠ d + j) →
    Copied m (copyUp m d s n) d s n
  | 0, m, d, s, _, _ => ⟨fun _ hk => absurd hk (Nat.not_lt_zero _), fun _ _ => rfl⟩
  | n + 1, m, d, s, hn, hsep => by
    have ih : Copied (update m d (m s)) (copyUp m d s (n + 1)) (d + 1) (s + 1) n := by
      refine copyUp_copied (by omega) fun j k hjk hk => ?_
      rw [add_one_add, add_one_add]
      exact hsep _ _ (by omega) (by omega)
    constructor
    · rintro (_ | k) hk
      · rw [Nat.cast_zero, add_zero, add_zero, ih.frame d fun k hk => ?_, update_self]
        rw [add_one_add]
        simpa using add_ne (d := d) (Nat.succ_pos k) (by omega)
      · have hne := hsep 0 (k + 1) (by omega) hk
        rw [Nat.cast_zero, add_zero] at hne
        have hk' := ih.copied k (by omega)
        rwa [add_one_add, add_one_add, update_of_ne hne] at hk'
    · intro a ha
      have hd := ha 0 (by omega)
      rw [Nat.cast_zero, add_zero] at hd
      rw [ih.frame a fun k hk => ?_, update_of_ne hd]
      rw [add_one_add]
      exact ha (k + 1) (by omega)

theorem copyDown_copied : ∀ {n : ℕ} {m : Mem}, n ≤ 2 ^ 64 → (∀ j k, j < k → k < n → s + j ≠ d + k) →
    Copied m (copyDown m (d + n) (s + n) n) d s n
  | 0, m, _, _ => ⟨fun _ hk => absurd hk (Nat.not_lt_zero _), fun _ _ => rfl⟩
  | n + 1, m, hn, hsep => by
    have ih : Copied (update m (d + n) (m (s + n)))
        (copyDown m (d + (n + 1 : ℕ)) (s + (n + 1 : ℕ)) (n + 1)) d s n := by
      have hlast (p : Addr) : p + (n + 1 : ℕ) - 1 = p + n := by
        push_cast
        ring
      rw [copyDown, hlast, hlast]
      exact copyDown_copied (by omega) fun j k hjk hk => hsep j k hjk (by omega)
    constructor
    · intro k hk
      by_cases hkn : k < n
      · rw [ih.copied k hkn, update_of_ne (hsep k n hkn (by omega))]
      · obtain rfl : k = n := by omega
        rw [ih.frame _ fun j hj => (add_ne hj (by omega)).symm, update_self]
    · intro a ha
      rw [ih.frame a fun k hk => ha k (by omega), update_of_ne (ha n (by omega))]

private theorem add_ne_add {j k : ℕ} (hs : s.toNat + j < 2 ^ 64) (hd : d.toNat + k < 2 ^ 64)
    (h : s.toNat + j ≠ d.toNat + k) : s + j ≠ d + k := by
  intro he
  have hnat := congrArg BitVec.toNat he
  rw [toNat_add_nat hs, toNat_add_nat hd] at hnat
  exact h hnat

section Ranges
variable {n : BitVec 32} (hs : s.toNat + n.toNat ≤ 2 ^ 64) (hd : d.toNat + n.toNat ≤ 2 ^ 64)
include hs hd

theorem copyUp_range (h : d.toNat ≤ s.toNat ∨ s.toNat + n.toNat ≤ d.toNat) :
    Copied m (copyUp m d s n.toNat) d s n.toNat :=
  copyUp_copied (by omega) fun j k _ _ => add_ne_add (by omega) (by omega) (by omega)

theorem copyDown_range (h : s.toNat ≤ d.toNat) :
    Copied m (copyDown m (d + n.setWidth 64) (s + n.setWidth 64) n.toNat) d s n.toNat := by
  rw [← ofNat_toNat, ← natCast_eq_ofNat]
  exact copyDown_copied (by omega) fun j k _ _ =>
    add_ne_add (by omega) (by omega) (by omega)

theorem kernelMemmove_copied : ∃ m', kernelMemmove m d s n = (d, m') ∧ Copied m m' d s n.toNat := by
  unfold kernelMemmove
  obtain rfl | hn := eq_or_ne n 0
  · exact ⟨m, if_pos rfl, fun k hk => absurd hk (Nat.not_lt_zero k), fun _ _ => rfl⟩
  rw [if_neg hn]
  by_cases h : s < d ∧ d < s + n.setWidth 64
  · exact ⟨_, if_pos h, copyDown_range hs hd (le_of_lt h.1)⟩
  refine ⟨_, if_neg h, copyUp_range hs hd ?_⟩
  by_contra hc
  push Not at hc
  refine h ⟨hc.1, ?_⟩
  -- The end of the source is below the end of the destination, so that it does not wrap.
  rw [lt_def, ← ofNat_toNat, ← natCast_eq_ofNat, toNat_add_nat (by omega)]
  exact hc.2

theorem userMemmove_copied (hn : n.toNat < 2 ^ 31) :
    ∃ m', userMemmove m d s n = (d, m') ∧ Copied m m' d s n.toNat := by
  have hmsb : n.msb = false := by
    rw [msb_eq_decide]
    exact decide_eq_false (by omega)
  unfold userMemmove
  rw [toInt_eq_toNat_of_msb hmsb, Int.toNat_natCast, signExtend_eq_setWidth_of_msb_false hmsb]
  by_cases h : d < s
  · exact ⟨_, if_pos h, copyUp_range hs hd (.inl (le_of_lt h))⟩
  · exact ⟨_, if_neg h, copyDown_range hs hd (Nat.le_of_not_lt h)⟩

end Ranges

/-- On ranges that may overlap but do not wrap, both functions move the bytes, and they agree
although they choose the direction by different tests. -/
theorem memmove_moves (m : Mem) (dst src : Addr) (n : BitVec 32) (hn : n.toNat < 2 ^ 31)
    (hs : src.toNat + n.toNat ≤ 2 ^ 64) (hd : dst.toNat + n.toNat ≤ 2 ^ 64) :
    ∃ m', kernelMemmove m dst src n = (dst, m') ∧ userMemmove m dst src n = (dst, m') ∧
      (∀ k < n.toNat, m' (dst + k) = m (src + k)) ∧
      ∀ a, (∀ k < n.toNat, a ≠ dst + k) → m' a = m a := by
  obtain ⟨m', hkernel, h⟩ := kernelMemmove_copied (m := m) hs hd
  obtain ⟨m'', huser, h'⟩ := userMemmove_copied (m := m) hs hd hn
  rw [h'.unique h] at huser
  exact ⟨m', hkernel, huser, h.copied, h.frame⟩

/-- Five bytes move up by two, at the end of the address space. -/
theorem memmove_moves_overlap : ∃ m', kernelMemmove (fun a => UInt8.ofNat a.toNat) (-5) (-7) 5 =
    (-5, m') ∧ userMemmove (fun a => UInt8.ofNat a.toNat) (-5) (-7) 5 = (-5, m') ∧
    m' (-1) = 253 ∧ m' (-6) = 250 := by
  obtain ⟨m', hkernel, huser, hcopied, hframe⟩ :=
    memmove_moves (fun a => UInt8.ofNat a.toNat) (-5) (-7) 5 (by decide) (by decide) (by decide)
  refine ⟨m', hkernel, huser, hcopied 4 (by decide), ?_⟩
  rw [hframe (-6) (by decide)]
  rfl

end Xv6.Memmove
