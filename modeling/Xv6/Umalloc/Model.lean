import Xv6.Lib.Transition
import Xv6.Params

/-! The user-level allocator `umalloc.c`. Pointers are addresses, and a header is named by its
address. The loops have a bound on their rounds, and the result is `none` when it is too small. -/
namespace Xv6.Umalloc

abbrev hdr : ℕ := 16

/-- The fields `s.ptr` and `s.size` of the header at each address, the variable `freep`, the program
break, and the memory obtained from `sbrk` so far, as addresses and numbers of units. -/
structure Heap where
  ptr : ℕ → ℕ
  size : ℕ → ℕ
  freep : ℕ
  top : ℕ
  regions : List (ℕ × ℕ)

namespace Heap

@[simps -fullyApplied] def setPtr (h : Heap) (p q : ℕ) : Heap :=
  { h with ptr := Function.update h.ptr p q }

@[simps -fullyApplied] def setSize (h : Heap) (p n : ℕ) : Heap :=
  { h with size := Function.update h.size p (n % 2 ^ 32) }

@[simps -fullyApplied] def setFreep (h : Heap) (p : ℕ) : Heap := { h with freep := p }

def place (h : Heap) (bp : ℕ) : ℕ → ℕ → Option ℕ
  | 0, _ => none
  | fuel + 1, p =>
    if (p < bp ∧ bp < h.ptr p) ∨ (h.ptr p ≤ p ∧ (p < bp ∨ bp < h.ptr p)) then some p
    else place h bp fuel (h.ptr p)

def joinNext (h : Heap) (bp p : ℕ) : Heap :=
  if bp + hdr * h.size bp = h.ptr p then
    (h.setSize bp (h.size bp + h.size (h.ptr p))).setPtr bp (h.ptr (h.ptr p))
  else h.setPtr bp (h.ptr p)

def joinPrev (h : Heap) (bp p : ℕ) : Heap :=
  if p + hdr * h.size p = bp then (h.setSize p (h.size p + h.size bp)).setPtr p (h.ptr bp)
  else h.setPtr p bp

def free (h : Heap) (fuel ap : ℕ) : Option Heap :=
  (h.place (ap - hdr) fuel h.freep).map fun p =>
    ((h.joinNext (ap - hdr) p).joinPrev (ap - hdr) p).setFreep p

/-- `sbrk` returns memory that begins `gap` bytes above the break. -/
def sbrk (h : Heap) (gap nu : ℕ) : Heap :=
  { h with top := h.top + gap + hdr * nu, regions := (h.top + gap, nu) :: h.regions }

/-- `morecore`; `answer` is the gap of the memory that `sbrk` returns, or `none` for -1. The result
is `some none` for 0. -/
def morecore (h : Heap) (fuel nu : ℕ) (answer : Option ℕ) : Option (Option Heap) :=
  match answer with
  | none => some none
  | some gap =>
    (((h.sbrk gap (max nu 4096)).setSize (h.top + gap) (max nu 4096)).free fuel
      (h.top + gap + hdr)).map some

/-- The block `p` is large enough: take all of it, or its tail. -/
def take (h : Heap) (nunits prevp p : ℕ) : Heap × ℕ :=
  if h.size p = nunits then ((h.setPtr prevp (h.ptr p)).setFreep prevp, p + hdr)
  else
    let r := p + hdr * (h.size p - nunits)
    (((h.setSize p (h.size p - nunits)).setSize r nunits).setFreep prevp, r + hdr)

/-- The loop of `malloc`. `more` is the call of `morecore`, in a program that can run out of rounds;
its result is `none` for 0. -/
def mallocLoop {M : Type → Type} [AlternativeMonad M] (more : Heap → ℕ → M (Option Heap))
    (nunits : ℕ) : ℕ → Heap → ℕ → ℕ → M (Heap × ℕ)
  | 0, _, _, _ => failure
  | fuel + 1, h, prevp, p => do
    if nunits ≤ h.size p then return h.take nunits prevp p
    else if p = h.freep then
      match ← more h fuel with
      | none => return (h, 0)
      | some h' => mallocLoop more nunits fuel h' h'.freep (h'.ptr h'.freep)
    else mallocLoop more nunits fuel h p (h.ptr p)

def nunits (nbytes : ℕ) : ℕ := (nbytes + hdr - 1) / hdr + 1

/-- The free list with nothing but `base`, unless there is one. -/
def ready (base : ℕ) (h : Heap) : Heap :=
  if h.freep = 0 then ((h.setPtr base base).setFreep base).setSize base 0 else h

/-- `malloc`, with `more nunits` for the call of `morecore`. -/
def mallocWith {M : Type → Type} [AlternativeMonad M]
    (more : ℕ → Heap → ℕ → M (Option Heap)) (base : ℕ) (h : Heap) (fuel nbytes : ℕ) :
    M (Heap × ℕ) :=
  mallocLoop (more (nunits nbytes)) (nunits nbytes) fuel (h.ready base) (h.ready base).freep
    ((h.ready base).ptr (h.ready base).freep)

/-- `morecore` when `sbrk` gives the same answer in every call. -/
def answering (answer : Option ℕ) (nunits : ℕ) (h : Heap) (fuel : ℕ) : Option (Option Heap) :=
  h.morecore fuel nunits answer

def malloc (base : ℕ) (h : Heap) (fuel nbytes : ℕ) (answer : Option ℕ) : Option (Heap × ℕ) :=
  mallocWith (answering answer) base h fuel nbytes

end Heap

structure State where
  heap : Heap
  live : List (ℕ × ℕ)

inductive Act where
  | malloc (fuel nbytes : ℕ) (answer : Option ℕ)
  | free (fuel ap : ℕ)

/-- The size in bytes of a request fits in the argument of `sbrk`. -/
def Small (nbytes : ℕ) : Prop := hdr * Heap.nunits nbytes < 2 ^ 31

instance (nbytes : ℕ) : Decidable (Small nbytes) := Nat.decLt _ _

namespace State

/-- A program frees pointers that `malloc` has returned and that it has not freed yet. -/
def next (base : ℕ) (s : State) : Act → Option State
  | .malloc fuel nbytes answer =>
    if Small nbytes then
      (s.heap.malloc base fuel nbytes answer).map fun r =>
        ⟨r.1, if r.2 = 0 then s.live else (r.2 - hdr, nbytes) :: s.live⟩
    else none
  | .free fuel ap =>
    if ap ∈ s.live.map fun e => e.1 + hdr then
      (s.heap.free fuel ap).map fun h => ⟨h, s.live.filter fun e => e.1 + hdr ≠ ap⟩
    else none

def start (top : ℕ) : State := ⟨⟨fun _ => 0, fun _ => 0, 0, top, []⟩, []⟩

end State
end Xv6.Umalloc
