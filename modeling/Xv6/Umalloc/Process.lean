import Xv6.Umalloc.Run
import Xv6.Vm.Grow

/-! `malloc` in a process, where `sbrk` is the system call: the break of the heap is the size of the
process known to the kernel. -/
namespace Xv6.Umalloc
open Vm List Function

/-- The number of bytes that `morecore` asks for becomes the `int` argument of `sbrk`. -/
def request (nu : ℕ) : ℤ := Int.bmod (hdr * max nu 4096 : ℕ) (2 ^ 32)

def morecore (root nu : ℕ) (h : Heap) (fuel : ℕ) : OptionT VmM (Option Heap) := OptionT.mk do
  let (p, sz) ← sysSbrk root h.top (request nu)
  return (h.morecore fuel nu (p.map fun a => a - h.top)).map fun r =>
    r.map fun h' => { h' with top := sz }

def malloc (root base : ℕ) (h : Heap) (fuel nbytes : ℕ) : VmM (Option (Heap × ℕ)) :=
  (h.mallocWith (morecore root) base fuel nbytes).run

variable {base root tf n nu p q fuel sz : ℕ} {h h' : Heap} {fl live : List ℕ} {m t : Mem}

/-- What a call of `malloc` owes its caller: the block lies below the size of the process, which the
call does not reduce. -/
def Within (h : Heap) (n : ℕ) (h' : Heap) (q : ℕ) : Prop :=
  h.top ≤ h'.top ∧ (q ≠ 0 → q + n ≤ h'.top)

def oneBlock : Heap :=
  ⟨fun a => if a = 16 then 32 else 16, fun a => if a = 32 then 4 else 0, 16, 100, [(32, 4)]⟩

end Xv6.Umalloc
