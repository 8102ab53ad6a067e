import Xv6.Itable.Table
import Xv6.Lib.Counting

/-! References and locks of the inode table: each `ref` counts the references held, one entry is in
use for each inode, and whoever holds or waits for a sleep lock has a reference. -/
namespace Xv6.Itable
open Function Counting
variable {P : Type}

namespace Pc

/-- The entry whose sleep lock a process holds at this position inside `ilock` or `iput`. -/
@[grind] def holds : Pc → Option (Fin ninode)
  | .load i | .trunc i | .untype i | .free i | .clear i | .unlock i => some i
  | _ => none

@[grind] def uses : Pc → Option (Fin ninode)
  | .lock i | .load i | .trunc i | .untype i | .free i | .clear i | .unlock i | .drop i => some i
  | _ => none

end Pc

@[grind cases] structure Counted [Fintype P] (s : Table P) : Prop where
  unique : ∀ i j, 0 < (s.inode i).ref → 0 < (s.inode j).ref → (s.inode i).dev = (s.inode j).dev →
    (s.inode i).inum = (s.inode j).inum → i = j
  refs : ∀ i, (s.inode i).ref = total (fun r => r i) s.refs
  holder : ∀ p i, (s.inode i).lock = some p → 0 < s.refs p i
  holds : ∀ p i, (s.pc p).holds = some i → (s.inode i).lock = some p
  uses : ∀ p i, (s.pc p).uses = some i → 0 < s.refs p i
  dropped : ∀ p i, s.pc p = .drop i → (s.inode i).lock ≠ some p

namespace Counted
variable [Fintype P] {s s' : Table P}

theorem init (disk : ℕ → ℕ → Dinode) : Counted (Table.init disk : Table P) where
  unique i j hi := by simp [Table.init] at hi
  refs i := (total_eq_zero.mpr fun _ => rfl).symm
  holder p i hl := by simp [Table.init] at hl
  holds p i hp := by simp [Table.init, Pc.holds] at hp
  uses p i hp := by simp [Table.init, Pc.uses] at hp
  dropped p i hp := by simp [Table.init] at hp

theorem refs_le (h : Counted s) (p : P) (i : Fin ninode) : s.refs p i ≤ (s.inode i).ref := by
  rw [h.refs i]
  exact le_total (fun r => r i) s.refs p

theorem ref_pos_of_lock (h : Counted s) {p : P} {i : Fin ninode}
    (hl : (s.inode i).lock = some p) : 0 < (s.inode i).ref :=
  (h.holder p i hl).trans_le (h.refs_le p i)

variable [DecidableEq P]

theorem refs_eq_zero (h : Counted s) {p q : P} {i : Fin ninode} (hr : (s.inode i).ref = 1)
    (hp : 0 < s.refs p i) (hq : q ≠ p) : s.refs q i = 0 := by
  have hle := add_le_total (fun r => r i) s.refs hq
  rw [← h.refs i] at hle
  omega

/-- A step of `p` at entry `i`: the entry becomes `x`, the process has `n` references on it and
moves to `c`. -/
theorem put (h : Counted s) {p : P} {i : Fin ninode} {x : Inode P} {c : Pc} {n : ℕ}
    (hinode : s'.inode = update s.inode i x) (hpc : s'.pc = update s.pc p c)
    (hrefs : s'.refs = update s.refs p (update (s.refs p) i n))
    (hcount : x.ref + s.refs p i = (s.inode i).ref + n)
    (huniq : ∀ j, 0 < (s.inode j).ref → (s.inode j).dev = x.dev → (s.inode j).inum = x.inum → j = i)
    (hmine : x.lock = some p → 0 < n)
    (hlock : ∀ q ≠ p, x.lock = some q → (s.inode i).lock = some q)
    (hothers : ∀ q ≠ p, (s.pc q).holds = some i → x.lock = some q)
    (hholds : ∀ j, c.holds = some j → j = i ∧ x.lock = some p)
    (huses : ∀ j, c.uses = some j → j = i ∧ 0 < n)
    (hdrop : c = .drop i → x.lock ≠ some p) : Counted s' where
  unique j k hj hk hd hn := by
    rw [hinode] at hj hk hd hn
    grind
  refs j := by
    have ht := total_update (fun r => r j) s.refs p (update (s.refs p) i n)
    have hj := h.refs j
    rw [hinode, hrefs]
    grind
  holder q j hl := by
    rw [hinode] at hl
    rw [hrefs]
    grind
  holds q j hq := by
    rw [hpc] at hq
    rw [hinode]
    grind
  uses q j hq := by
    rw [hpc] at hq
    rw [hrefs]
    grind
  dropped q j hq := by
    rw [hpc] at hq
    rw [hinode]
    grind

end Counted
end Xv6.Itable
