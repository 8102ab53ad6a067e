import Xv6.Params

/-! Inodes as they are stored on disk. -/
namespace Xv6

/-- The values of `dip->type`: zero, `T_DIR`, `T_FILE` and `T_DEVICE`. -/
inductive FileType where
  | free
  | dir
  | file
  | device
  deriving DecidableEq

/-- `struct dinode`; a `short` is an integer, kept in its range by `toShort`. -/
@[ext] structure Dinode where
  type : FileType
  major : ℤ
  minor : ℤ
  nlink : ℤ
  size : ℕ
  addrs : Fin (ndirect + 1) → ℕ
  deriving DecidableEq

def toShort (x : ℤ) : ℤ := x.bmod 65536

namespace Dinode

/-- `memset(dip, 0, sizeof(*dip))` and `dip->type = type`. -/
@[simps -fullyApplied] def fresh (t : FileType) : Dinode := ⟨t, 0, 0, 0, 0, fun _ => 0⟩

@[simps -fullyApplied] def setType (d : Dinode) (t : FileType) : Dinode := { d with type := t }

@[simps -fullyApplied] def setNlink (d : Dinode) (n : ℤ) : Dinode := { d with nlink := n }

@[simps -fullyApplied] def setSize (d : Dinode) (n : ℕ) : Dinode := { d with size := n }

def addr (d : Dinode) (k : ℕ) : ℕ := if h : k < ndirect + 1 then d.addrs ⟨k, h⟩ else 0

@[simps -fullyApplied] def setAddr (d : Dinode) (k a : ℕ) : Dinode :=
  { d with addrs := fun j => if j.val = k then a else d.addrs j }

theorem addr_setAddr (d : Dinode) {k a j : ℕ} (h : k ≤ ndirect ∨ j ≤ ndirect) :
    (d.setAddr k a).addr j = if j = k then a else d.addr j := by
  unfold addr
  by_cases hj : j < ndirect + 1
  · simp only [dif_pos hj, setAddr_addrs]
  · rw [dif_neg hj, dif_neg hj, if_neg (by omega)]

@[simps -fullyApplied]
def truncated (d : Dinode) : Dinode := { d with size := 0, addrs := fun _ => 0 }

end Dinode
end Xv6
