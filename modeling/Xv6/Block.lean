import Xv6.Params

/-! Disk blocks as byte arrays, and the little-endian 32-bit words stored in them. -/
namespace Xv6

abbrev Block := Fin bsize → UInt8

/-- What a device stores: one block for every block number. -/
abbrev Disk := ℕ → Block

namespace Block

def byte (b : Block) (k : ℕ) : UInt8 := if h : k < bsize then b ⟨k, h⟩ else 0

def ofBytes (f : ℕ → UInt8) : Block := fun k => f k.val

def zero : Block := fun _ => 0

theorem byte_ofBytes {f : ℕ → UInt8} {k : ℕ} (h : k < bsize) : (ofBytes f).byte k = f k := by
  unfold byte ofBytes
  rw [dif_pos h]

@[simp] theorem byte_zero (k : ℕ) : zero.byte k = 0 := by
  unfold byte zero
  split <;> rfl

def word (b : Block) (i : ℕ) : ℕ :=
  (b.byte (4 * i)).toNat + 256 * (b.byte (4 * i + 1)).toNat +
    65536 * (b.byte (4 * i + 2)).toNat + 16777216 * (b.byte (4 * i + 3)).toNat

/-- Store `v` in entry `i` of the block read as an array of `uint`. -/
def setWord (b : Block) (i v : ℕ) : Block := fun k =>
  if k.val / 4 = i then UInt8.ofNat (v / 256 ^ (k.val % 4)) else b k

@[simp] theorem word_zero (i : ℕ) : zero.word i = 0 := by simp [word]

private theorem byte_setWord {b : Block} {i v k : ℕ} (h : k < bsize) : (b.setWord i v).byte k =
      if k / 4 = i then UInt8.ofNat (v / 256 ^ (k % 4)) else b.byte k := by
  unfold byte setWord
  simp only [dif_pos h]

theorem word_setWord_self {b : Block} {i v : ℕ} (hi : i < nindirect) (hv : v < 2 ^ 32) :
    (b.setWord i v).word i = v := by
  have hb : ∀ j < 4, ((b.setWord i v).byte (4 * i + j)).toNat = v / 256 ^ j % 256 := by
    intro j hj
    rw [byte_setWord (by simp only [nindirect, bsize] at *; omega), if_pos (by omega)]
    rw [show (4 * i + j) % 4 = j by omega]
    exact UInt8.toNat_ofNat
  have h0 := hb 0 (by omega)
  have h1 := hb 1 (by omega)
  have h2 := hb 2 (by omega)
  have h3 := hb 3 (by omega)
  simp only [Nat.add_zero] at h0
  unfold word
  rw [h0, h1, h2, h3]
  norm_num
  omega

theorem word_setWord_ne {b : Block} {i j v : ℕ} (hj : j < nindirect) (h : j ≠ i) :
    (b.setWord i v).word j = b.word j := by
  have hb : ∀ c < 4, (b.setWord i v).byte (4 * j + c) = b.byte (4 * j + c) := by
    intro c hc
    rw [byte_setWord (by simp only [nindirect, bsize] at *; omega), if_neg (by omega)]
  have h0 := hb 0 (by omega)
  simp only [Nat.add_zero] at h0
  unfold word
  rw [h0, hb 1 (by omega), hb 2 (by omega), hb 3 (by omega)]

end Block
end Xv6
