import Mathlib.Data.List.GetD
import Mathlib.Tactic
import Xv6.Memmove

/-! Functions of `ulib.c` on an array of bytes. A pointer is an index into the array; its room is
the number of bytes from there to the end of the array, and an access beyond the room is a
fault. -/
namespace Xv6.Ulib
open Function List Memmove

inductive Fault where
  | bounds | unfinished
  deriving DecidableEq, Repr

abbrev Mem := ℕ → UInt8

def strchr (mem : Mem) (c : UInt8) : ℕ → ℕ → Except Fault (Option ℕ)
  | 0, _ => .error .bounds
  | room + 1, s =>
    if mem s = 0 then .ok none
    else if mem s = c then .ok (some s)
    else strchr mem c room (s + 1)

/-- The string at a pointer, as a function reads it that stops at the NUL. -/
def string (mem : Mem) : ℕ → ℕ → Except Fault (List UInt8)
  | 0, _ => .error .bounds
  | room + 1, s =>
    if mem s = 0 then .ok [] else (string mem room (s + 1)).map fun l => mem s :: l

def bytes (mem : Mem) (s n : ℕ) : List UInt8 := (List.range n).map fun k => mem (s + k)

def Holds (mem : Mem) (s : ℕ) (l : List UInt8) : Prop := bytes mem s l.length = l

theorem bytes_succ (mem : Mem) (s n : ℕ) : bytes mem s (n + 1) = mem s :: bytes mem (s + 1) n := by
  rw [bytes, range_succ_eq_map, map_cons, map_map, bytes]
  congr 2
  funext k
  simp only [Function.comp_apply]
  congr 1
  omega

theorem bytes_add (mem : Mem) (s m n : ℕ) :
    bytes mem s (m + n) = bytes mem s m ++ bytes mem (s + m) n := by
  rw [bytes, range_add, map_append, map_map, bytes, bytes]
  congr 2
  funext k
  simp only [Function.comp_apply]
  congr 1
  omega

@[simp] theorem length_bytes (mem : Mem) (s n : ℕ) : (bytes mem s n).length = n := by
  rw [bytes, length_map, length_range]

variable {mem : Mem} {s : ℕ} {l : List UInt8}

theorem bytes_congr {mem' : Mem} {s' n : ℕ} (h : ∀ k < n, mem' (s' + k) = mem (s + k)) :
    bytes mem' s' n = bytes mem s n :=
  map_congr_left fun k hk => h k (mem_range.mp hk)

theorem holds_nil (mem : Mem) (s : ℕ) : Holds mem s [] := rfl

theorem holds_cons {c : UInt8} : Holds mem s (c :: l) ↔ mem s = c ∧ Holds mem (s + 1) l := by
  rw [Holds, length_cons, bytes_succ, cons_eq_cons]
  exact Iff.rfl

theorem holds_append {l' : List UInt8} :
    Holds mem s (l ++ l') ↔ Holds mem s l ∧ Holds mem (s + l.length) l' := by
  rw [Holds, length_append, bytes_add]
  constructor
  · intro h
    exact append_inj h (length_bytes ..)
  · rintro ⟨h, h'⟩
    rw [h, h']

theorem Holds.congr {mem' : Mem} (h : Holds mem s l)
    (hsame : ∀ k, s ≤ k → k < s + l.length → mem' k = mem k) : Holds mem' s l := by
  rw [Holds, bytes_congr fun k hk => hsame (s + k) (by omega) (by omega)]
  exact h

/-- The first place with the character looked for, if it is there before the NUL. -/
theorem strchr_eq {c t : UInt8} (ht : t = 0 ∨ t = c) : ∀ {l : List UInt8} {s room : ℕ},
    l.length < room → Holds mem s l → mem (s + l.length) = t → (∀ x ∈ l, x ≠ 0) →
    (∀ x ∈ l, x ≠ c) →
    strchr mem c room s = .ok (if t = 0 then none else some (s + l.length)) := by
  intro l
  induction l with
  | nil =>
    intro s room hroom _ hend _ _
    obtain ⟨room, rfl⟩ := Nat.exists_eq_add_one_of_ne_zero (Nat.ne_of_gt hroom)
    rw [length_nil, Nat.add_zero] at hend
    rw [strchr, hend]
    split
    · rfl
    next h0 =>
      rw [if_pos (ht.resolve_left h0)]
      rfl
  | cons a l ih =>
    intro s room hroom hl hend hnul hne
    obtain ⟨room, rfl⟩ := Nat.exists_eq_add_one_of_ne_zero (Nat.ne_zero_of_lt hroom)
    rw [length_cons] at hroom hend ⊢
    obtain ⟨ha, hl⟩ := holds_cons.mp hl
    have hnext : s + (l.length + 1) = s + 1 + l.length := by omega
    rw [strchr, ha, if_neg (hnul a mem_cons_self), if_neg (hne a mem_cons_self), hnext]
    exact ih (by omega) hl (by rw [← hnext]; exact hend)
      (fun x hx => hnul x (mem_cons_of_mem _ hx)) (fun x hx => hne x (mem_cons_of_mem _ hx))

theorem string_eq : ∀ {l : List UInt8} {s room : ℕ}, l.length < room →
    Holds mem s l → mem (s + l.length) = 0 → (∀ x ∈ l, x ≠ 0) → string mem room s = .ok l := by
  intro l
  induction l with
  | nil =>
    intro s room hroom _ hend _
    obtain ⟨room, rfl⟩ := Nat.exists_eq_add_one_of_ne_zero (Nat.ne_of_gt hroom)
    rw [length_nil, Nat.add_zero] at hend
    rw [string, if_pos hend]
  | cons a l ih =>
    intro s room hroom hl hend hnul
    obtain ⟨room, rfl⟩ := Nat.exists_eq_add_one_of_ne_zero (Nat.ne_zero_of_lt hroom)
    rw [length_cons] at hroom hend
    obtain ⟨ha, hl⟩ := holds_cons.mp hl
    have hrest : string mem room (s + 1) = .ok l :=
      ih (by omega) hl (by rw [← hend]; congr 1; omega) (fun x hx => hnul x (mem_cons_of_mem _ hx))
    rw [string, ha, if_neg (hnul a mem_cons_self), hrest]
    rfl

def fill (mem : Mem) (m : ℕ) (l : List UInt8) : Mem :=
  fun k => if m ≤ k ∧ k < m + l.length then l.getD (k - m) 0 else mem k

theorem holds_fill {pre : List UInt8} (h : Holds mem 0 pre) (l : List UInt8) :
    Holds (fill mem pre.length l) 0 (pre ++ l) := by
  refine holds_append.mpr ⟨h.congr fun k _ hk => if_neg (by omega), ?_⟩
  rw [Nat.zero_add, Holds, bytes]
  apply ext_getElem
  · rw [length_map, length_range]
  · intro k hk hkl
    rw [getElem_map, getElem_range, fill, if_pos (by omega), Nat.add_sub_cancel_left,
      getD_eq_getElem _ _ hkl]

def memmove (mem : Mem) (dst src n : ℕ) : Mem :=
  if dst < src then copyUp mem dst src n else copyDown mem (dst + n) (src + n) n

def moved (mem : Mem) (dst src n : ℕ) : Mem :=
  fun k => if dst ≤ k ∧ k < dst + n then mem (src + (k - dst)) else mem k

theorem copyUp_eq (n : ℕ) : ∀ (mem : Mem) (dst src : ℕ), dst < src →
    copyUp mem dst src n = moved mem dst src n := by
  induction n with
  | zero =>
    intro mem dst src _
    funext k
    rw [copyUp, moved, if_neg (by omega)]
  | succ n ih =>
    intro mem dst src hlt
    rw [copyUp, ih _ _ _ (by omega)]
    funext k
    by_cases hk : dst + 1 ≤ k ∧ k < dst + 1 + n
    -- a byte of the source beyond the first is not yet overwritten
    · rw [moved, moved, if_pos hk, if_pos (by omega), update_of_ne (by omega)]
      congr 1
      omega
    · rw [moved, moved, if_neg hk]
      by_cases hd : k = dst
      · rw [if_pos (by omega), hd, update_self, Nat.sub_self, Nat.add_zero]
      · rw [if_neg (by omega), update_of_ne hd]

theorem copyDown_eq (n : ℕ) : ∀ (mem : Mem) (dst src : ℕ), src ≤ dst →
    copyDown mem (dst + n) (src + n) n = moved mem dst src n := by
  induction n with
  | zero =>
    intro mem dst src _
    funext k
    rw [copyDown, moved, if_neg (by omega)]
  | succ n ih =>
    intro mem dst src hle
    rw [copyDown, Nat.add_succ_sub_one, Nat.add_succ_sub_one, ih _ _ _ hle]
    funext k
    by_cases hk : dst ≤ k ∧ k < dst + n
    · rw [moved, moved, if_pos hk, if_pos (by omega), update_of_ne (by omega)]
    · rw [moved, moved, if_neg hk]
      by_cases hd : k = dst + n
      · rw [if_pos (by omega), hd, update_self, Nat.add_sub_cancel_left]
      · rw [if_neg (by omega), update_of_ne hd]

theorem memmove_eq (mem : Mem) (dst src n : ℕ) : memmove mem dst src n = moved mem dst src n := by
  unfold memmove
  split
  next h => exact copyUp_eq n mem dst src h
  next h => exact copyDown_eq n mem dst src (Nat.le_of_not_lt h)

theorem holds_moved {dst src : ℕ} (h : Holds mem src l) :
    Holds (moved mem dst src l.length) dst l := by
  have hsame : bytes (moved mem dst src l.length) dst l.length = bytes mem src l.length := by
    apply bytes_congr
    intro k hk
    rw [moved, if_pos (by omega), Nat.add_sub_cancel_left]
  rw [Holds, hsame]
  exact h

end Xv6.Ulib
