import Mathlib.Data.List.GetD
import Mathlib.Tactic

/-! Numbers stored as bytes, the lowest byte first. -/
namespace LittleEndian
open List
variable {f g : ℕ → UInt8}

def byte (w k : ℕ) : UInt8 := UInt8.ofNat (w / 256 ^ k)

def bytes (w n : ℕ) : List UInt8 := (List.range n).map (byte w)

/-- The number that the first `n` bytes of `f` store. -/
def word (f : ℕ → UInt8) : ℕ → ℕ
  | 0 => 0
  | n + 1 => (f 0).toNat + 256 * word (fun k => f (k + 1)) n

theorem byte_succ (w k : ℕ) : byte w (k + 1) = byte (w / 256) k := by
  rw [byte, byte, Nat.div_div_eq_div_mul, pow_succ, mul_comm]

theorem word_byte (w n : ℕ) : word (byte w) n = w % 256 ^ n := by
  induction n generalizing w with
  | zero => simp [word, Nat.mod_one]
  | succ n ih =>
    have hlow : (byte w 0).toNat = w % 256 := by simp [byte]
    simp only [word, byte_succ]
    rw [ih, hlow, pow_succ, mul_comm (256 ^ n), Nat.mod_mul]

theorem word_congr {n : ℕ} (h : ∀ k < n, f k = g k) : word f n = word g n := by
  induction n generalizing f g with
  | zero => rfl
  | succ n ih =>
    rw [word, word, h 0 (Nat.succ_pos n), ih fun k hk => h (k + 1) (by omega)]

theorem word_zero (n : ℕ) : word (fun _ => 0) n = 0 := by
  induction n with
  | zero => rfl
  | succ n ih =>
    rw [word, ih]
    rfl

theorem word_lt (n : ℕ) : word f n < 256 ^ n := by
  induction n generalizing f with
  | zero => exact Nat.one_pos
  | succ n ih =>
    have hhead := (f 0).toNat_lt
    have htail := ih (f := fun k => f (k + 1))
    rw [word, pow_succ]
    omega

theorem length_words (l : List ℕ) (n : ℕ) :
    (l.flatMap fun a => bytes a n).length = l.length * n := by
  induction l with
  | nil => exact (Nat.zero_mul n).symm
  | cons a l ih =>
    rw [flatMap_cons, length_append, ih, bytes, length_map, length_range, length_cons]
    ring

theorem getD_words {n : ℕ} (l : List ℕ) {i k : ℕ} (hi : i < l.length) (hk : k < n) :
    (l.flatMap fun a => bytes a n).getD (n * i + k) 0 = byte (l.getD i 0) k := by
  induction l generalizing i with
  | nil => exact absurd hi (Nat.not_lt_zero i)
  | cons a l ih =>
    have hlen : (bytes a n).length = n := by rw [bytes, length_map, length_range]
    rw [flatMap_cons]
    cases i with
    | zero =>
      rw [Nat.mul_zero, Nat.zero_add, List.getD_append _ _ _ _ (by rwa [hlen]),
        getD_eq_getElem _ _ (by rwa [hlen]), getD_cons_zero]
      simp only [bytes, getElem_map, getElem_range]
    | succ i =>
      rw [getD_append_right _ _ _ _ (by rw [hlen, Nat.mul_succ]; omega), hlen,
        show n * (i + 1) + k - n = n * i + k by rw [Nat.mul_succ]; omega,
        ih (Nat.lt_of_succ_lt_succ hi), getD_cons_succ]

end LittleEndian
