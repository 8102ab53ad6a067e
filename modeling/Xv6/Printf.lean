import Mathlib.Tactic

/-! The numbers that the kernel's `printf` prints with `printint`. The user library's function is
the same loop over other digits and a narrower argument. -/
namespace Xv6.Printf
open List

abbrev bufsize : ℕ := 16

inductive Fault where
  | overflow
  deriving DecidableEq, Repr

/-- The loop over the digits, from the last one on, with room for `room` more. -/
def digitLoop (digit : ℕ → Char) (base : ℕ) : ℕ → ℕ → Except Fault (List Char)
  | 0, _ => .error .overflow
  | room + 1, x =>
    if x / base = 0 then .ok [digit (x % base)]
    else (digitLoop digit base room (x / base)).map fun ds => digit (x % base) :: ds

/-- `printint` for any digits and any width of its argument. -/
def putint (digit : ℕ → Char) {w : ℕ} (xx : BitVec w) (base : ℕ) (sign : Bool) :
    Except Fault (List Char) := do
  let sign := sign && xx.slt 0
  let x := if sign then (-xx).toNat else xx.toNat
  let ds ← digitLoop digit base bufsize x
  if sign then
    if ds.length < bufsize then .ok (ds ++ ['-']).reverse else .error .overflow
  else .ok ds.reverse

def digit (k : ℕ) : Char := "0123456789abcdef".toList.getD k '0'

def printint (xx : BitVec 64) (base : ℕ) (sign : Bool) : Except Fault (List Char) :=
  putint digit xx base sign

/-- The conversions of `printf` that call `printint`. -/
inductive Conv where
  | d | ld | lld | u | lu | llu | x | lx | llx
  deriving DecidableEq, Repr

namespace Conv

def long : Conv → Bool
  | d | u | x => false
  | _ => true

def signed : Conv → Bool
  | d | ld | lld => true
  | _ => false

def base : Conv → ℕ
  | x | lx | llx => 16
  | _ => 10

/-- `va_arg(ap, int)` or `va_arg(ap, uint64)`, converted to `long long`. -/
def fetch (c : Conv) (v : ℤ) : BitVec 64 :=
  if c.long then BitVec.ofInt 64 v else (BitVec.ofInt 32 v).signExtend 64

def print (c : Conv) (v : ℤ) : Except Fault (List Char) := printint (c.fetch v) c.base c.signed

/-- The values of the C type that the conversion is for. -/
def InType (c : Conv) (v : ℤ) : Prop :=
  match c.long, c.signed with
  | false, true => -2 ^ 31 ≤ v ∧ v < 2 ^ 31
  | false, false => 0 ≤ v ∧ v < 2 ^ 32
  | true, true => -2 ^ 63 ≤ v ∧ v < 2 ^ 63
  | true, false => 0 ≤ v ∧ v < 2 ^ 64

/-- The values for which the argument is fetched as it is and has a place in `buf`. -/
def Fits (c : Conv) (v : ℤ) : Prop :=
  match c with
  | d | lx | llx => True
  | u | x => v < 2 ^ 31
  | ld | lld | lu | llu => -10 ^ 15 < v ∧ v < 10 ^ 16

theorem base_bounds (c : Conv) : 1 < c.base ∧ c.base ≤ 16 := by
  cases c <;> decide

end Conv

/-- The numeral of `v`: no leading zeros, and a sign if it is negative. -/
def numeral (base : ℕ) (v : ℤ) : List Char :=
  (if v < 0 then ['-'] else []) ++ Nat.toDigits base v.natAbs

/-- The number that `printint` reads in its argument. -/
def value {w : ℕ} (xx : BitVec w) (sign : Bool) : ℤ := if sign then xx.toInt else xx.toNat

/-- The table `digit` has sixteen digits, which are those of a numeral written in the case `up`. -/
structure Digits (digit : ℕ → Char) (up : Char → Char) : Prop where
  eq : ∀ k < 16, digit k = up (Nat.digitChar k)
  inj : ∀ i < 16, ∀ j < 16, digit i = digit j → i = j
  sign : ∀ k < 16, digit k ≠ '-'
  dash : up '-' = '-'

namespace Digits
variable {digit : ℕ → Char} {up : Char → Char} (h : Digits digit up) {base : ℕ}
  (hb : 1 < base) (hb' : base ≤ 16)
include h hb hb'

theorem digitLoop_eq (room : ℕ) : ∀ x, digitLoop digit base room x =
    if (Nat.toDigits base x).length ≤ room then .ok ((Nat.toDigits base x).map up).reverse
    else .error .overflow := by
  have hdigit x : digit (x % base) = up (Nat.digitChar (x % base)) :=
    h.eq _ ((Nat.mod_lt x (by omega)).trans_le hb')
  induction room with
  | zero =>
    intro x
    have hpos := Nat.length_toDigits_pos (b := base) (n := x)
    rw [digitLoop, if_neg (by omega)]
  | succ room ih =>
    intro x
    rw [digitLoop, hdigit]
    by_cases hx : x < base
    · rw [if_pos (Nat.div_eq_of_lt hx), Nat.toDigits_of_lt_base hx, Nat.mod_eq_of_lt hx]
      simp
    have hle : base ≤ x := Nat.le_of_not_lt hx
    have hne : x / base ≠ 0 := (Nat.div_pos hle (by omega)).ne'
    rw [if_neg hne, ih, Nat.toDigits_of_base_le hb hle, length_append, length_singleton]
    by_cases hroom : (Nat.toDigits base (x / base)).length ≤ room
    · rw [if_pos hroom, if_pos (by omega), map_append, reverse_append]
      rfl
    · rw [if_neg hroom, if_neg (by omega)]
      rfl

/-- `printint` prints the numeral of the number it reads, if that has a place in `buf`. -/
theorem putint_eq {w : ℕ} (xx : BitVec w) (sign : Bool) : putint digit xx base sign =
    if (numeral base (value xx sign)).length ≤ bufsize
      then .ok ((numeral base (value xx sign)).map up) else .error .overflow := by
  have hint := BitVec.toInt_eq_toNat_cond xx
  have hlt := xx.isLt
  have hslt : xx.slt 0 = decide (xx.toInt < 0) := by
    rw [BitVec.slt_eq_decide, BitVec.ofNat_eq_ofNat, BitVec.toInt_zero]
  unfold putint value
  rw [hslt]
  by_cases hneg : sign = true ∧ xx.toInt < 0
  · obtain ⟨rfl, hneg⟩ := hneg
    have hx : (-xx).toNat = xx.toInt.natAbs := by
      rw [BitVec.toNat_neg, Nat.mod_eq_of_lt (by grind)]
      grind
    simp only [hneg, decide_true, Bool.and_self, if_true, hx, h.digitLoop_eq hb hb', numeral,
      length_append, length_singleton, map_append, map_cons, h.dash, map_nil]
    by_cases hlen : 1 + (Nat.toDigits base xx.toInt.natAbs).length ≤ bufsize
    · rw [if_pos hlen, if_pos (by omega)]
      simp only [bind, Except.bind, length_reverse, length_map]
      rw [if_pos (by omega)]
      simp
    · rw [if_neg hlen]
      split
      · simp only [bind, Except.bind, length_reverse, length_map]
        rw [if_neg (by omega)]
      · rfl
  · have hsign : (sign && decide (xx.toInt < 0)) = false := by simpa using hneg
    have hx : (if sign then xx.toInt else (xx.toNat : ℤ)) = xx.toNat := by grind
    have hnot : ¬ (xx.toNat : ℤ) < 0 := by omega
    simp only [hsign, hx, Bool.false_eq_true, if_false, h.digitLoop_eq hb hb', numeral, hnot,
      nil_append, Int.natAbs_natCast]
    split
    · simp [bind, Except.bind]
    · rfl

theorem numeral_nat (n : ℕ) : (Nat.toDigits base n).map up =
    (if n < base then [] else (Nat.toDigits base (n / base)).map up) ++ [digit (n % base)] := by
  rw [h.eq _ ((Nat.mod_lt n (by omega)).trans_le hb')]
  split
  next hn =>
    rw [Nat.toDigits_of_lt_base hn, Nat.mod_eq_of_lt hn]
    rfl
  next hn =>
    rw [Nat.toDigits_of_base_le hb (Nat.le_of_not_lt hn), map_append]
    rfl

/-- The sign and the number are found again in what is printed. -/
theorem sign_append_injective {p q : Prop} [Decidable p] [Decidable q] : ∀ {m n : ℕ},
    (if p then ['-'] else []) ++ (Nat.toDigits base m).map up =
      (if q then ['-'] else []) ++ (Nat.toDigits base n).map up → (p ↔ q) ∧ m = n := by
  have hlt n : n % base < 16 := (Nat.mod_lt n (by omega)).trans_le hb'
  have hsign : ∀ {p : Prop} [Decidable p] {l : List Char} {n : ℕ},
      (if p then ['-'] else []) ≠ l ++ (Nat.toDigits base n).map up := by
    intro p _ l n he
    rw [h.numeral_nat hb hb', ← append_assoc] at he
    split at he
    · have hinj := append_inj' (show [] ++ ['-'] = _ from he) rfl
      exact h.sign _ (hlt n) (singleton_inj.mp hinj.2).symm
    · simp at he
  intro m
  induction m using Nat.strongRecOn with
  | ind m ih =>
    intro n he
    rw [h.numeral_nat hb hb' m, h.numeral_nat hb hb' n, ← append_assoc, ← append_assoc] at he
    obtain ⟨hinit, hlast⟩ := append_inj' he rfl
    have hmod := h.inj _ (hlt m) _ (hlt n) (singleton_inj.mp hlast)
    by_cases hm : m < base <;> by_cases hn : n < base <;>
      simp only [hm, hn, if_true, if_false, append_nil] at hinit
    · rw [Nat.mod_eq_of_lt hm, Nat.mod_eq_of_lt hn] at hmod
      by_cases hp : p <;> by_cases hq : q <;> simp_all
    · exact absurd hinit hsign
    · exact absurd hinit.symm hsign
    · obtain ⟨hpq, hdiv⟩ := ih (m / base) (Nat.div_lt_self (by omega) hb) hinit
      exact ⟨hpq, by rw [← Nat.div_add_mod m base, hdiv, hmod, Nat.div_add_mod]⟩

theorem numeral_injective {v w : ℤ} (he : (numeral base v).map up = (numeral base w).map up) :
    v = w := by
  have hsign (v : ℤ) : (if v < 0 then ['-'] else []).map up = if v < 0 then ['-'] else [] := by
    split <;> simp [h.dash]
  rw [numeral, numeral, map_append, map_append, hsign, hsign] at he
  have := h.sign_append_injective hb hb' he
  omega

/-- What is printed is the numeral of `v` exactly when `v` is the number read and has a place. -/
theorem putint_eq_ok_iff {w : ℕ} (xx : BitVec w) (sign : Bool) (v : ℤ) :
    putint digit xx base sign = .ok ((numeral base v).map up) ↔
      value xx sign = v ∧ (numeral base v).length ≤ bufsize := by
  rw [h.putint_eq hb hb']
  constructor
  · intro he
    split at he
    next hlen =>
      obtain rfl := h.numeral_injective hb hb' (Except.ok.inj he)
      exact ⟨rfl, hlen⟩
    · cases he
  · rintro ⟨rfl, hlen⟩
    rw [if_pos hlen]

end Digits

theorem length_numeral_le_iff {base : ℕ} (hb : 1 < base) {v : ℤ} :
    (numeral base v).length ≤ bufsize ↔ -(base : ℤ) ^ 15 < v ∧ v < (base : ℤ) ^ 16 := by
  have hpos : (0 : ℤ) < (base : ℤ) ^ 15 ∧ (0 : ℤ) < (base : ℤ) ^ 16 := by
    constructor <;> positivity
  have hbuf : bufsize = 16 := rfl
  unfold numeral
  by_cases hneg : v < 0
  · have hdigits := Nat.length_toDigits_le_iff (n := v.natAbs) hb (by decide : 0 < 15)
    zify at hdigits
    rw [abs_of_neg hneg] at hdigits
    rw [if_pos hneg, length_append, length_singleton]
    omega
  · have hdigits := Nat.length_toDigits_le_iff (n := v.natAbs) hb (by decide : 0 < 16)
    zify at hdigits
    rw [abs_of_nonneg (by omega)] at hdigits
    rw [if_neg hneg, nil_append]
    omega

theorem digits : Digits digit id := ⟨by decide, by decide, by decide, rfl⟩

namespace Conv

theorem value_fetch_iff {c : Conv} {v : ℤ} (ht : c.InType v) :
    value (c.fetch v) c.signed = v ↔ c.long = true ∨ c.signed = true ∨ v < 2 ^ 31 := by
  have hcond := BitVec.toInt_eq_toNat_cond (c.fetch v)
  have hlt := (c.fetch v).isLt
  have hshort : c.long = false → (c.fetch v).toInt = v.bmod (2 ^ 32) := by
    intro hl
    rw [fetch, hl, if_neg Bool.false_ne_true, BitVec.toInt_signExtend_of_le (by decide),
      BitVec.toInt_ofInt]
  have hlong : c.long = true → (c.fetch v).toInt = v.bmod (2 ^ 64) := by
    intro hl
    rw [fetch, if_pos hl, BitVec.toInt_ofInt]
  unfold value
  cases c <;> simp [InType, long, signed, Int.bmod_def] at ht hshort hlong ⊢ <;> omega

/-- Every conversion prints the numeral of a value of its type exactly when the argument is fetched
as it is and the numeral has a place in `buf`. -/
theorem print_eq_numeral (c : Conv) (v : ℤ) (ht : c.InType v) :
    c.print v = .ok (numeral c.base v) ↔ c.Fits v := by
  obtain ⟨hb, hb'⟩ := c.base_bounds
  have hiff := digits.putint_eq_ok_iff hb hb' (c.fetch v) c.signed v
  rw [map_id] at hiff
  rw [print, printint, hiff, value_fetch_iff ht, length_numeral_le_iff hb]
  cases c <;> simp [InType, Fits, long, signed, base] at ht ⊢ <;> omega

theorem print_eq_numeral_values : print .d (-2147483648) = .ok (numeral 10 (-2147483648)) ∧
    print .llx 18446744073709551615 = .ok (numeral 16 18446744073709551615) ∧
    print .x 4294967295 ≠ .ok (numeral 16 4294967295) :=
  ⟨(print_eq_numeral .d (-2147483648) (by constructor <;> norm_num)).mpr trivial,
    (print_eq_numeral .llx 18446744073709551615 (by constructor <;> norm_num)).mpr trivial,
    fun he => absurd ((print_eq_numeral .x 4294967295 (by constructor <;> norm_num)).mp he)
      (by norm_num [Fits])⟩

/-- `%u` and `%x` extend the sign of their argument, and a decimal number of 17 characters does not
have a place in `buf`. -/
theorem print_wrong : (InType .u (2 ^ 31) ∧ print .u (2 ^ 31) = .error .overflow) ∧
    (InType .x (2 ^ 31) ∧ print .x (2 ^ 31) = .ok "ffffffff80000000".toList ∧
      numeral 16 (2 ^ 31) = "80000000".toList) ∧
    (InType .lu (10 ^ 16) ∧ print .lu (10 ^ 16) = .error .overflow) ∧
    (InType .ld (-10 ^ 15) ∧ print .ld (-10 ^ 15) = .error .overflow) := by
  refine ⟨⟨by constructor <;> norm_num, ?_⟩, ⟨by constructor <;> norm_num, ?_, ?_⟩,
    ⟨by constructor <;> norm_num, ?_⟩, by constructor <;> norm_num, ?_⟩ <;> decide +kernel

end Conv

end Xv6.Printf
