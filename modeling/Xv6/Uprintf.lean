import Xv6.Printf

/-! The numbers that the user library's `printf` prints. Its `printint` has the loop of the kernel's
with other digits, and works on an `int`. -/
namespace Xv6.Uprintf
open List Printf

def digit (k : ℕ) : Char := "0123456789ABCDEF".toList.getD k '0'

def printint (xx : BitVec 32) (base : ℕ) (sgn : Bool) : Except Fault (List Char) :=
  putint digit xx base sgn

/-- `va_arg(ap, int)`, or `va_arg(ap, uint64)` converted to `int`. -/
def fetch (c : Conv) (v : ℤ) : BitVec 32 :=
  if c.long then (BitVec.ofInt 64 v).setWidth 32 else BitVec.ofInt 32 v

def print (c : Conv) (v : ℤ) : Except Fault (List Char) := printint (fetch c v) c.base c.signed

/-- The value fits into an `int`, or into a `uint`. -/
def Narrow (c : Conv) (v : ℤ) : Prop :=
  if c.signed then -2 ^ 31 ≤ v ∧ v < 2 ^ 31 else 0 ≤ v ∧ v < 2 ^ 32

def numeral (base : ℕ) (v : ℤ) : List Char := (Printf.numeral base v).map Char.toUpper

theorem digits : Digits digit Char.toUpper := ⟨by decide, by decide, by decide, rfl⟩

theorem fetch_eq (c : Conv) (v : ℤ) : fetch c v = BitVec.ofInt 32 v := by
  unfold fetch
  split
  · apply BitVec.eq_of_toNat_eq
    rw [BitVec.toNat_setWidth, BitVec.toNat_ofInt, BitVec.toNat_ofInt]
    omega
  · rfl

theorem value_fetch_iff (c : Conv) (v : ℤ) : value (fetch c v) c.signed = v ↔ Narrow c v := by
  rw [fetch_eq]
  unfold value Narrow
  cases c.signed with
  | true => simp [Int.bmod_def]; omega
  | false => simp; omega

/-- A numeral of 32 bits always has a place in `buf`. -/
theorem print_eq_numeral_iff (c : Conv) (v : ℤ) :
    print c v = .ok (numeral c.base v) ↔ Narrow c v := by
  obtain ⟨hb, hb'⟩ := c.base_bounds
  rw [print, printint, numeral, digits.putint_eq_ok_iff hb hb', value_fetch_iff,
    and_iff_left_iff_imp, length_numeral_le_iff hb]
  cases c <;> simp [Narrow, Conv.signed, Conv.base] <;> omega

theorem narrow_of_inType {c : Conv} {v : ℤ} (ht : c.InType v) (hl : c.long = false) :
    Narrow c v := by
  cases c <;> first | exact ht | cases hl

/-- Each conversion prints the numeral of a value of its type exactly when that has 32 bits, and no
two such values alike. -/
theorem print_narrow (c : Conv) (v : ℤ) (ht : c.InType v) :
    (print c v = .ok (numeral c.base v) ↔ (c.long = true → Narrow c v)) ∧
      ∀ w, c.InType w → (c.long = true → Narrow c v) → (c.long = true → Narrow c w) →
        print c v = print c w → v = w := by
  have hnarrow w (ht : c.InType w) : (c.long = true → Narrow c w) ↔ Narrow c w := by
    cases hl : c.long with
    | true => simp
    | false => simpa using narrow_of_inType ht hl
  rw [hnarrow v ht, print_eq_numeral_iff]
  refine ⟨Iff.rfl, fun w ht' hv hw he => ?_⟩
  rw [hnarrow w ht'] at hw
  rw [(print_eq_numeral_iff c v).mpr hv, (print_eq_numeral_iff c w).mpr hw] at he
  exact digits.numeral_injective c.base_bounds.1 c.base_bounds.2 (Except.ok.inj he)

theorem print_narrow_values : print .d (-2147483648) = .ok "-2147483648".toList ∧
    print .llx 4294967295 = .ok "FFFFFFFF".toList ∧
    print .ld 4294967296 ≠ .ok (numeral 10 4294967296) := by
  have hd := print_narrow .d (-2147483648) (by constructor <;> norm_num)
  have hx := print_narrow .llx 4294967295 (by constructor <;> norm_num)
  have hl := print_narrow .ld 4294967296 (by constructor <;> norm_num)
  exact ⟨hd.1.mpr nofun, hx.1.mpr fun _ => by constructor <;> norm_num,
    fun he => absurd (hl.1.mp he rfl) (by norm_num [Narrow, Conv.signed])⟩

/-- A value of 64 bits is cut to 32: different values are printed alike, and positive ones with a
sign. -/
theorem print_cut :
    (Conv.InType .lu (2 ^ 32) ∧ print .lu (2 ^ 32) = .ok ['0'] ∧ print .lu 0 = .ok ['0']) ∧
    (Conv.InType .ld (2 ^ 31) ∧ print .ld (2 ^ 31) = .ok "-2147483648".toList) ∧
    (Conv.InType .llx (2 ^ 63) ∧ print .llx (2 ^ 63) = .ok ['0']) := by
  refine ⟨⟨by constructor <;> norm_num, ?_, ?_⟩, ⟨by constructor <;> norm_num, ?_⟩,
    by constructor <;> norm_num, ?_⟩ <;> decide +kernel

end Xv6.Uprintf
