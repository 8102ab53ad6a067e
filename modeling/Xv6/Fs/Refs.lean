import Xv6.Fs.Names
import Xv6.Lib.Counting

/-! The references of the inode table: one for each process in its current directory and one for
each open file. -/
namespace Xv6.Fs
open Counting
variable {P : Type} {s t u : State P} {i : ℕ} {g : ℕ → ℕ}

structure Kept (s t : State P) : Prop where
  consistent : t.Consistent
  anchored : s.Anchored → t.Anchored
  alive : s.Alive → t.Alive
  short : s.disk.Short → t.disk.Short
  inOp : t.inOp = s.inOp
  sb : t.disk.sb = s.disk.sb

namespace Kept

theorem refl (h : s.Consistent) : Kept s s := ⟨h, id, id, id, rfl, rfl⟩

theorem trans (h : Kept s t) (h' : Kept t u) : Kept s u :=
  ⟨h'.consistent, fun ha => h'.anchored (h.anchored ha), fun ha => h'.alive (h.alive ha),
    fun hs => h'.short (h.short hs), h'.inOp.trans h.inOp, h'.sb.trans h.sb⟩

theorem of_eq (h : s.Consistent) (hd : t.disk = s.disk) (hi : t.inode = s.inode)
    (hop : t.inOp = s.inOp) : Kept s t where
  consistent := by
    refine ⟨by rw [hd]; exact h.sound, by rw [hd]; exact h.noHole, ?_⟩
    simp only [State.Locked, hi, hd]
    exact h.cached
  anchored := by
    simp only [State.Anchored, State.Locked, hi, hd]
    exact id
  alive := by
    simp only [State.Alive, hi, hd]
    exact id
  short := by
    rw [hd]
    exact id
  inOp := hop
  sb := by rw [hd]

theorem beginOp_endOp (h : Kept s.beginOp t) (hop : s.inOp = false) : Kept s t.endOp :=
  ⟨⟨h.consistent.sound, h.consistent.noHole, h.consistent.cached⟩, h.anchored, h.alive, h.short,
    hop.symm, h.sb⟩

end Kept

theorem Holding.kept (h : Holding g s t) (hg : ∀ j, 0 < g j → t.disk.Allocated j) : Kept s t where
  consistent := h.consistent
  anchored := h.anchored
  alive ha j hj := by
    by_cases hr : 0 < (s.inode j).ref
    · exact h.alloc j hr (ha j hr)
    · rw [h.ref] at hj
      exact hg j (by omega)
  short := h.short
  inOp := h.inOp
  sb := h.sb

theorem Holding.kept_zero (h : Holding 0 s t) : Kept s t :=
  h.kept fun _ hj => absurd hj (lt_irrefl 0)

theorem Holding.kept_one (h : Holding (one i) s t) (hi : t.Locked i) : Kept s t := by
  refine h.kept fun j hj => ?_
  by_cases hji : j = i
  · rw [hji]
    exact (h.consistent.cached i hi).2
  · rw [one_of_ne hji] at hj
    exact absurd hj (lt_irrefl 0)

theorem Put.kept (h : Put i s t) : Kept s t where
  consistent := h.consistent
  anchored := h.anchored
  alive ha j hj := by
    obtain rfl | hji := eq_or_ne j i
    · rw [h.ref] at hj
      rw [h.disk_of_ref (by omega)]
      exact ha j (by omega)
    · rw [h.others j hji] at hj
      exact h.allocated hji (ha j hj)
  short := h.short
  inOp := h.inOp
  sb := h.sb

def Proc.holds (j : ℕ) : Option Proc → ℕ
  | none => 0
  | some pr => one pr.cwd j

def File.holds (j : ℕ) (x : File) : ℕ := if 0 < x.ref ∧ x.kind ≠ .none then one x.ip j else 0

variable [Fintype P]

/-- The table agrees with the processes and the open files. -/
structure Ledger (s : State P) : Prop where
  refs : ∀ j, (s.inode j).ref = total (Proc.holds j) s.proc + total (File.holds j) s.file
  idle : ∀ f, (s.file f).ref = 0 → (s.file f).kind = .none

namespace Ledger
variable (h : Ledger s)
include h

theorem cwd_pos {p : P} {pr : Proc} (hp : s.proc p = some pr) : 0 < (s.inode pr.cwd).ref := by
  have hle := le_total (Proc.holds pr.cwd) s.proc p
  rw [hp, Proc.holds, one_self] at hle
  rw [h.refs]
  omega

theorem file_pos {f : Fin nfile} (hk : (s.file f).kind ≠ .none) :
    0 < (s.inode (s.file f).ip).ref := by
  have hr : 0 < (s.file f).ref := Nat.pos_of_ne_zero fun hz => hk (h.idle f hz)
  have hle := le_total (File.holds (s.file f).ip) s.file f
  rw [File.holds, if_pos ⟨hr, hk⟩, one_self] at hle
  rw [h.refs]
  omega

theorem of_holding (ht : Holding 0 s t) : Ledger t where
  refs j := by
    rw [ht.ref, ht.proc, ht.file]
    exact h.refs j
  idle := by
    rw [ht.file]
    exact h.idle

theorem setFile {f : Fin nfile} {x : File} (hx : ∀ j, File.holds j x = File.holds j (s.file f))
    (hidle : x.ref = 0 → x.kind = .none) :
    Ledger (s.setFile f x) where
  refs j := by
    have htot := total_update (File.holds j) s.file f x
    rw [hx j] at htot
    simp only [State.setFile_inode, State.setFile_proc, State.setFile_file]
    rw [h.refs j]
    omega
  idle f' hf := by
    obtain rfl | hff := eq_or_ne f' f
    · simp only [State.setFile_file, Function.update_self] at hf ⊢
      exact hidle hf
    · simp only [State.setFile_file, Function.update_of_ne hff] at hf ⊢
      exact h.idle f' hf

theorem setProc [DecidableEq P] {p : P} {x : Option Proc}
    (hx : ∀ j, Proc.holds j x = Proc.holds j (s.proc p)) : Ledger (s.setProc p x) where
  refs j := by
    have htot := total_update (Proc.holds j) s.proc p x
    rw [hx j] at htot
    simp only [State.setProc_inode, State.setProc_proc, State.setProc_file]
    rw [h.refs j]
    omega
  idle := h.idle

end Ledger

end Xv6.Fs
