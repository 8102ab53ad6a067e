import Mathlib.Data.List.GetD
import Xv6.Lib.Counting
import Xv6.Fs.Footprint
import Xv6.Fs.Room
import Xv6.Fs.Table

/-! Processes that write to one open file. Each chunk of a `filewrite` is written, and the offset of
the file advanced, under the lock of the inode; between chunks other calls can come. -/
namespace Xv6.Fs.Sharing
open Function Hoare Transition List
attribute [local simp] Volume.bytes

structure Call where
  src : Src
  n : ℕ

/-- Where a call is, with `i` as in `filewrite` and `r` the result of `writei`. -/
inductive Pc where
  | start
  | top (i : ℕ)
  | begun (i : ℕ)
  | locked (i : ℕ)
  | wrote (i : ℕ) (r : Option ℕ)
  | advanced (i : ℕ) (r : Option ℕ)
  | unlocked (i : ℕ) (r : Option ℕ)
  | done (ret : Option ℕ)

structure Sys (W P : Type) where
  fs : State P
  /-- The call that holds `ip->lock`. -/
  lock : Option W
  outstanding : ℕ
  pc : W → Pc
  /-- The chunks written so far, first first: the call and its `i`. -/
  chunks : List (W × ℕ)

def Call.n1 (c : Call) (i : ℕ) : ℕ := min (c.n - i) filewriteMax

namespace Sys
variable {W P : Type} [DecidableEq W]

@[simps -fullyApplied] def goto (s : Sys W P) (w : W) (a : Pc) : Sys W P :=
  { s with pc := update s.pc w a }

/-- One step of call `w`; `begin_op` is taken when it does not wait. -/
def next (f : Fin nfile) (call : W → Call) (s : Sys W P) (w : W) : Option (Sys W P) :=
  let c := call w
  let x := s.fs.file f
  match s.pc w with
  | .start =>
    if x.writable = false then some (s.goto w (.done none))
    else match x.kind with
      | .none => none
      | .device => some (s.goto w (.done none))
      | .inode => some (s.goto w (.top 0))
  | .top i =>
    if c.n ≤ i then some (s.goto w (.done (if i = c.n then some c.n else none)))
    else some ({ s with
      fs := { s.fs with inOp := true }, outstanding := s.outstanding + 1 }.goto w (.begun i))
  | .begun i =>
    if s.lock = none then
      match ilock x.ip s.fs with
      | .ok (_, t) => some ({ s with fs := t, lock := some w }.goto w (.locked i))
      | .error _ => none
    else none
  | .locked i =>
    match writei x.ip (fun k => c.src (i + k)) x.off (c.n1 i) s.fs with
    | .ok (r, t) => some ({ s with fs := t, chunks := s.chunks ++ [(w, i)] }.goto w (.wrote i r))
    | .error _ => none
  | .wrote i r =>
    some ({ s with fs := s.fs.setFile f { x with off := x.off + r.getD 0 } }.goto w (.advanced i r))
  | .advanced i r =>
    match iunlock x.ip s.fs with
    | .ok (_, t) => some ({ s with fs := t, lock := none }.goto w (.unlocked i r))
    | .error _ => none
  | .unlocked i r =>
    let s' := { s with
      fs := { s.fs with inOp := decide (s.outstanding ≠ 1) }, outstanding := s.outstanding - 1 }
    some (s'.goto w (if r = some (c.n1 i) then .top (i + c.n1 i) else .done none))
  | .done _ => none

end Sys

attribute [local simp] Sys.next

namespace Pc

def holds : Pc → Bool
  | locked _ | wrote _ _ | advanced _ _ => true
  | _ => false

def inOp : Pc → Bool
  | begun _ | locked _ | wrote _ _ | advanced _ _ | unlocked _ _ => true
  | _ => false

def got (c : Call) : Pc → ℕ
  | start => 0
  | top i | begun i | locked i => i
  | wrote i _ | advanced i _ | unlocked i _ => i + c.n1 i
  | done _ => c.n

/-- The bytes that are in the file and not yet counted in its offset. -/
def pending (c : Call) : Pc → ℕ
  | wrote i _ => c.n1 i
  | _ => 0

/-- What holds of a call where it is, when no write is cut short. -/
def Ok (c : Call) : Pc → Prop
  | start => True
  | top i => i ≤ c.n ∧ (i % filewriteMax = 0 ∨ i = c.n)
  | begun i | locked i => i < c.n ∧ i % filewriteMax = 0
  | wrote i r | advanced i r | unlocked i r =>
    i < c.n ∧ i % filewriteMax = 0 ∧ r = some (c.n1 i)
  | done ret => ret = some c.n

def left (c : Call) : Pc → ℕ
  | start => 7 * c.n + 2
  | top i => 7 * (c.n - i) + 1
  | begun i => 7 * (c.n - i)
  | locked i => 7 * (c.n - i) - 1
  | wrote i _ => 7 * (c.n - i) - 2
  | advanced i _ => 7 * (c.n - i) - 3
  | unlocked i _ => 7 * (c.n - i) - 4
  | done _ => 0

end Pc

attribute [local simp] Pc.holds

def starts (g : ℕ) : List ℕ :=
  (List.range ((g + (filewriteMax - 1)) / filewriteMax)).map (· * filewriteMax)

private theorem starts_succ {c : Call} {i : ℕ} (hi : i < c.n) (hm : i % filewriteMax = 0) :
    starts (i + c.n1 i) = starts i ++ [i] := by
  have hmax : filewriteMax = 3072 := rfl
  have h1 : (i + (filewriteMax - 1)) / filewriteMax = i / filewriteMax := by
    rw [hmax] at hm ⊢
    omega
  have h2 : (i + c.n1 i + (filewriteMax - 1)) / filewriteMax = i / filewriteMax + 1 := by
    unfold Call.n1
    rw [hmax] at hm ⊢
    omega
  unfold starts
  rw [h1, h2, range_succ, map_append, map_singleton, Nat.div_mul_cancel (Nat.dvd_of_mod_eq_zero hm)]

def Call.chunk (c : Call) (i : ℕ) : List UInt8 :=
  (List.range (c.n1 i)).map fun k => (c.src (i + k)).getD 0

@[simp] theorem Call.length_chunk (c : Call) (i : ℕ) : (c.chunk i).length = c.n1 i := by
  simp [chunk]

section
variable {W P : Type}

def bytesOf (call : W → Call) (l : List (W × ℕ)) : List UInt8 :=
  l.flatMap fun x => (call x.1).chunk x.2

private theorem bytesOf_concat (call : W → Call) (l : List (W × ℕ)) (w : W) (i : ℕ) :
    bytesOf call (l ++ [(w, i)]) = bytesOf call l ++ (call w).chunk i := by
  simp [bytesOf]

theorem bytesOf_filter [DecidableEq W] (call : W → Call) (l : List (W × ℕ)) (w : W) :
    bytesOf call (l.filter (·.1 = w)) =
      ((l.filter (·.1 = w)).map Prod.snd).flatMap (call w).chunk := by
  rw [bytesOf, flatMap_map]
  refine flatMap_congr fun x hx => ?_
  have hw : x.1 = w := by simpa using (mem_filter.mp hx).2
  rw [hw]

variable [Fintype W] {f : Fin nfile} {call : W → Call} {s t u : Sys W P} {w : W} {i : ℕ}

def total (call : W → Call) : ℕ := ∑ w, (call w).n

def Sys.ip (s : Sys W P) (f : Fin nfile) : ℕ := (s.fs.file f).ip

def Sys.off (s : Sys W P) (f : Fin nfile) : ℕ := (s.fs.file f).off

def blocks (f : Fin nfile) (call : W → Call) (s : Sys W P) : ℕ :=
  (s.off f + total call + (bsize - 1)) / bsize

/-- The calls begin on a regular file with valid buffers and enough space. -/
structure Ready (f : Fin nfile) (call : W → Call) (s : Sys W P) : Prop where
  consistent : s.fs.Consistent
  kind : (s.fs.file f).kind = .inode
  writable : (s.fs.file f).writable = true
  ref : 0 < (s.fs.inode (s.ip f)).ref
  alloc : s.fs.disk.Allocated (s.ip f)
  off_le : s.off f ≤ (s.fs.disk.dinode (s.ip f)).size
  mapped : ∀ w k, k < (call w).n → ((call w).src k).isSome = true
  fits : s.off f + total call ≤ maxfile * bsize
  room : s.fs.disk.Room (s.ip f) (blocks f call s)
  pc : ∀ w, s.pc w = .start
  lock : s.lock = none
  outstanding : s.outstanding = 0
  chunks : s.chunks = []

structure FileInv (f : Fin nfile) (call : W → Call) (s t : Sys W P) : Prop where
  consistent : t.fs.Consistent
  file : t.fs.file f = { s.fs.file f with off := (t.fs.file f).off }
  ref : 0 < (t.fs.inode (s.ip f)).ref
  alloc : t.fs.disk.Allocated (s.ip f)
  loaded : ∀ w, t.lock = some w → t.fs.Locked (s.ip f)
  inOp : t.outstanding ≠ 0 → t.fs.inOp = true
  room : t.fs.disk.Room (s.ip f) (blocks f call s)
  off : t.off f + ∑ w, (t.pc w).pending (call w) = s.off f + (bytesOf call t.chunks).length
  size : (t.fs.disk.dinode (s.ip f)).size =
    max (s.fs.disk.dinode (s.ip f)).size (s.off f + (bytesOf call t.chunks).length)
  byte : ∀ x, x < (t.fs.disk.dinode (s.ip f)).size → t.fs.disk.byte (s.ip f) x =
    if s.off f ≤ x ∧ x < s.off f + (bytesOf call t.chunks).length then
      (bytesOf call t.chunks).getD (x - s.off f) 0
    else s.fs.disk.byte (s.ip f) x

namespace FileInv

theorem of_disk (h : FileInv f call s t) (hdisk : u.fs.disk = t.fs.disk)
    (hchunks : u.chunks = t.chunks) (hcon : u.fs.Consistent)
    (hfile : u.fs.file f = { s.fs.file f with off := (u.fs.file f).off })
    (href : 0 < (u.fs.inode (s.ip f)).ref)
    (hload : ∀ w, u.lock = some w → u.fs.Locked (s.ip f))
    (hop : u.outstanding ≠ 0 → u.fs.inOp = true)
    (hoff : u.off f + ∑ w, (u.pc w).pending (call w) =
      t.off f + ∑ w, (t.pc w).pending (call w)) : FileInv f call s u where
  consistent := hcon
  file := hfile
  ref := href
  alloc := by
    rw [hdisk]
    exact h.alloc
  loaded := hload
  inOp := hop
  room := by
    rw [hdisk]
    exact h.room
  off := by
    rw [hoff, hchunks]
    exact h.off
  size := by
    rw [hdisk, hchunks]
    exact h.size
  byte := by
    rw [hdisk, hchunks]
    exact h.byte

theorem ip_eq (h : FileInv f call s t) : (t.fs.file f).ip = s.ip f := by
  rw [h.file]
  rfl

end FileInv

theorem Ready.fileInv (hs : Ready f call s) : FileInv f call s s where
  consistent := hs.consistent
  file := rfl
  ref := hs.ref
  alloc := hs.alloc
  loaded := by simp [hs.lock]
  inOp ho := absurd hs.outstanding ho
  room := hs.room
  off := by simp [hs.chunks, hs.pc, Pc.pending, bytesOf]
  size := by
    have hle := hs.off_le
    simp only [hs.chunks, bytesOf, flatMap_nil, length_nil]
    omega
  byte x _ := by
    rw [if_neg]
    simp only [hs.chunks, bytesOf, flatMap_nil, length_nil]
    omega

theorem blocks_le (hs : Ready f call s) : blocks f call s ≤ maxfile := by
  have hfits := hs.fits
  unfold blocks
  simp only [bsize] at hfits ⊢
  omega

theorem le_blocks (f : Fin nfile) (call : W → Call) (s : Sys W P) :
    s.off f + total call ≤ blocks f call s * bsize := by
  unfold blocks
  simp only [bsize]
  omega

theorem le_sum (g : W → Pc → ℕ) (pc : W → Pc) (w : W) : g w (pc w) ≤ ∑ v, g v (pc v) :=
  Finset.single_le_sum (f := fun v => g v (pc v)) (fun _ _ => Nat.zero_le _) (Finset.mem_univ w)

variable [DecidableEq W]

structure Control (call : W → Call) (t : Sys W P) : Prop where
  lock : ∀ w, t.lock = some w ↔ (t.pc w).holds = true
  outstanding : t.outstanding = ∑ w, (t.pc w).inOp.toNat
  ok : ∀ w, (t.pc w).Ok (call w)
  order : ∀ w, (t.chunks.filter (·.1 = w)).map Prod.snd = starts ((t.pc w).got (call w))
  length : (bytesOf call t.chunks).length = ∑ w, (t.pc w).got (call w)

private theorem sum_update (g : W → Pc → ℕ) (pc : W → Pc) (w : W) (a : Pc) :
    ∑ v, g v (update pc w a v) + g w (pc w) = ∑ v, g v (pc v) + g w a := by
  have hfun : (fun v => g v (update pc w a v)) =
      update (fun v => g v (pc v)) w (g w a) := by
    funext v
    obtain rfl | hv := eq_or_ne v w
    · simp
    · simp [hv]
  have htot := Counting.total_update (P := W) id (fun v => g v (pc v)) w (g w a)
  unfold Counting.total at htot
  simp only [id_eq] at htot
  rw [hfun]
  exact htot

namespace Control
variable (h : Control call t)
include h

theorem move {a : Pc} {l : Option W} {o : ℕ} {x : State P}
    (hlock : ∀ v, l = some v ↔ if v = w then a.holds = true else t.lock = some v)
    (hout : o + (t.pc w).inOp.toNat = t.outstanding + a.inOp.toNat)
    (hok : a.Ok (call w)) (hgot : a.got (call w) = (t.pc w).got (call w)) :
    Control call ({ t with fs := x, lock := l, outstanding := o }.goto w a) where
  lock v := by
    simp only [Sys.goto_lock, Sys.goto_pc]
    rw [hlock v]
    by_cases hv : v = w
    · simp [hv]
    · simpa [hv] using h.lock v
  outstanding := by
    have hsum := sum_update (fun _ b => b.inOp.toNat) t.pc w a
    have hold := h.outstanding
    simp only [Sys.goto_outstanding, Sys.goto_pc]
    omega
  ok v := by
    simp only [Sys.goto_pc]
    obtain rfl | hv := eq_or_ne v w
    · simpa using hok
    · simpa [hv] using h.ok v
  order v := by
    simp only [Sys.goto_pc, Sys.goto_chunks]
    obtain rfl | hv := eq_or_ne v w
    · rw [update_self, hgot]
      exact h.order v
    · rw [update_of_ne hv]
      exact h.order v
  length := by
    have hsum := sum_update (fun v b => b.got (call v)) t.pc w a
    have hold := h.length
    simp only [Sys.goto_pc, Sys.goto_chunks]
    omega

theorem write {x : State P} (hpc : t.pc w = .locked i) :
    Control call ({ t with fs := x, chunks := t.chunks ++ [(w, i)] }.goto w
      (.wrote i (some ((call w).n1 i)))) where
  lock v := by
    have hv := h.lock v
    simp only [Sys.goto_lock, Sys.goto_pc]
    obtain rfl | hvw := eq_or_ne v w
    · rw [hpc] at hv
      simpa using hv
    · simpa [hvw] using hv
  outstanding := by
    have hsum := sum_update (fun _ b => b.inOp.toNat) t.pc w (.wrote i (some ((call w).n1 i)))
    have hold := h.outstanding
    rw [hpc] at hsum
    have hone : (Pc.locked i).inOp = (Pc.wrote i (some ((call w).n1 i))).inOp := rfl
    rw [hone] at hsum
    simp only [Sys.goto_outstanding, Sys.goto_pc]
    omega
  ok v := by
    have hv := h.ok v
    simp only [Sys.goto_pc]
    obtain rfl | hvw := eq_or_ne v w
    · rw [hpc] at hv
      rw [update_self]
      exact ⟨hv.1, hv.2, rfl⟩
    · simpa [hvw] using hv
  order v := by
    have hv := h.order v
    simp only [Sys.goto_pc, Sys.goto_chunks, filter_append, map_append]
    rw [hv]
    obtain rfl | hvw := eq_or_ne v w
    · have hok := h.ok v
      rw [hpc] at hok ⊢
      rw [update_self]
      simpa [Pc.got] using (starts_succ hok.1 hok.2).symm
    · simp [hvw, Ne.symm hvw]
  length := by
    have hsum := sum_update (fun v b => b.got (call v)) t.pc w (.wrote i (some ((call w).n1 i)))
    have hold := h.length
    rw [hpc] at hsum
    have hgot : (Pc.wrote i (some ((call w).n1 i))).got (call w) =
        (Pc.locked i).got (call w) + (call w).n1 i := rfl
    rw [hgot] at hsum
    simp only [Sys.goto_pc, Sys.goto_chunks]
    unfold bytesOf at hold ⊢
    rw [flatMap_append, length_append, hold]
    simp only [flatMap_cons, flatMap_nil, append_nil, Call.length_chunk]
    omega

theorem got_le (w : W) : (t.pc w).got (call w) ≤ (call w).n := by
  have hok := h.ok w
  cases hpc : t.pc w with
  | start => exact Nat.zero_le _
  | top i =>
    rw [hpc] at hok
    exact hok.1
  | begun i | locked i =>
    rw [hpc] at hok
    exact hok.1.le
  | wrote i r | advanced i r | unlocked i r =>
    rw [hpc] at hok
    have hlt := hok.1
    simp only [Pc.got, Call.n1]
    omega
  | done ret => exact le_rfl

theorem length_le : (bytesOf call t.chunks).length ≤ total call := by
  rw [h.length]
  exact Finset.sum_le_sum fun w _ => h.got_le w

/-- The offset is up to date unless the call with the lock has just written. -/
theorem pending_eq (hl : t.lock = some w) :
    ∑ v, (t.pc v).pending (call v) = (t.pc w).pending (call w) := by
  refine Finset.sum_eq_single w (fun v _ hv => ?_) fun hw => absurd (Finset.mem_univ w) hw
  have hnot : (t.pc v).holds ≠ true := by
    intro hh
    have hlv := (h.lock v).mpr hh
    rw [hl] at hlv
    exact hv (Option.some.inj hlv).symm
  cases hpc : t.pc v with
  | wrote i r =>
    rw [hpc] at hnot
    exact absurd rfl hnot
  | _ => rfl

theorem outstanding_ne (hw : (t.pc w).inOp = true) : t.outstanding ≠ 0 := by
  have hle := le_sum (fun _ b => b.inOp.toNat) t.pc w
  have hone : (t.pc w).inOp.toNat = 1 := by rw [hw]; rfl
  have hold := h.outstanding
  rw [hone] at hle
  omega

end Control

namespace FileInv

theorem move {a : Pc} {l : Option W} {o : ℕ} {b : Bool} (h : FileInv f call s t)
    (hlock : ∀ v, l = some v → t.lock = some v) (hop : o ≠ 0 → b = true)
    (ha : a.pending (call w) = (t.pc w).pending (call w)) :
    FileInv f call s ({ t with fs := { t.fs with inOp := b }, lock := l, outstanding := o }.goto
      w a) := by
  have hcon := h.consistent
  refine h.of_disk rfl rfl ⟨hcon.sound, hcon.noHole, hcon.cached⟩ h.file h.ref
    (fun v hv => h.loaded v (hlock v hv)) hop ?_
  have hsum := sum_update (fun v b => b.pending (call v)) t.pc w a
  simp only [Sys.goto_pc, Sys.off, Sys.goto_fs]
  omega

end FileInv

def Steps (f : Fin nfile) (call : W → Call) (s t : Sys W P) (w : W) : Prop :=
  ∃ u, t.next f call w = some u ∧ Control call u ∧ FileInv f call s u ∧
    (u.pc w).left (call w) < (t.pc w).left (call w) ∧ ∀ v, v ≠ w → u.pc v = t.pc v

theorem steps_start (hs : Ready f call s) (hc : Control call t) (h : FileInv f call s t)
    (hpc : t.pc w = .start) : Steps f call s t w := by
  have hw : (t.fs.file f).writable = true := by
    rw [h.file]
    exact hs.writable
  have hk : (t.fs.file f).kind = .inode := by
    rw [h.file]
    exact hs.kind
  refine ⟨t.goto w (.top 0), ?_, ?_, ?_, ?_, fun v hv => by simp [hv]⟩
  · simp [hpc, hw, hk]
  · refine hc.move (x := t.fs) (l := t.lock) (o := t.outstanding) (fun v => ?_) ?_ ?_ ?_
    · have hv := hc.lock v
      split
      next hvw =>
        rw [hvw, hpc] at hv
        rw [hvw]
        exact hv
      · rfl
    · rw [hpc]
      rfl
    · exact ⟨Nat.zero_le _, .inl rfl⟩
    · rw [hpc]
      rfl
  · exact h.move (l := t.lock) (o := t.outstanding) (b := t.fs.inOp) (fun _ hv => hv) h.inOp
      (by rw [hpc]; rfl)
  · simp [hpc, Pc.left]

section
variable (hc : Control call t) (h : FileInv f call s t)
include hc h

theorem steps_top (hpc : t.pc w = .top i) : Steps f call s t w := by
  have hok := hc.ok w
  rw [hpc] at hok
  have hnot : ∀ a : Pc, a.holds = false → ∀ v, t.lock = some v ↔
      if v = w then a.holds = true else t.lock = some v := by
    intro a ha v
    have hv := hc.lock v
    split
    next hvw =>
      rw [hvw, hpc] at hv
      rw [hvw, ha]
      exact hv
    · rfl
  by_cases hle : (call w).n ≤ i
  · have hin : i = (call w).n := le_antisymm hok.1 hle
    refine ⟨t.goto w (.done (some (call w).n)), ?_, ?_, ?_, ?_, fun v hv => by simp [hv]⟩
    · simp [hpc, hin]
    · refine hc.move (x := t.fs) (l := t.lock) (o := t.outstanding)
        (hnot (.done (some (call w).n)) rfl) ?_ rfl ?_
      · rw [hpc]
        rfl
      · rw [hpc]
        exact hin.symm
    · exact h.move (l := t.lock) (o := t.outstanding) (b := t.fs.inOp) (fun _ hv => hv) h.inOp
        (by rw [hpc]; rfl)
    · simp [hpc, Pc.left]
  · have hlt : i < (call w).n := by omega
    have hmod : i % filewriteMax = 0 := hok.2.resolve_right (by omega)
    refine ⟨{ t with
      fs := { t.fs with inOp := true }, outstanding := t.outstanding + 1 }.goto w (.begun i),
      ?_, ?_, ?_, ?_, fun v hv => by simp [hv]⟩
    · simp [hpc, hle]
    · refine hc.move (l := t.lock) (hnot (.begun i) rfl) ?_ ⟨hlt, hmod⟩ ?_
      · rw [hpc]
        rfl
      · rw [hpc]
        rfl
    · exact h.move (l := t.lock) (fun _ hv => hv) (fun _ => rfl) (by rw [hpc]; rfl)
    · simp only [Sys.goto_pc, update_self, hpc, Pc.left]
      omega

theorem steps_begun (hpc : t.pc w = .begun i) (hl : t.lock = none) : Steps f call s t w := by
  have hok := hc.ok w
  rw [hpc] at hok
  obtain ⟨hlt, hmod⟩ := hok
  obtain ⟨_, fs, hrun, hload⟩ := wp_total (ilock_whole (E := fun _ => False) (.inr h.ref)
    (.inr h.alloc.1) (h.consistent.cached _) (.inr h.alloc.2))
  have hip := h.ip_eq
  refine ⟨{ t with fs := fs, lock := some w }.goto w (.locked i), ?_, ?_, ?_, ?_,
    fun v hv => by simp [hv]⟩
  · simp [hpc, hl, hip, hrun]
  · refine hc.move (o := t.outstanding) (fun v => ?_) ?_ ⟨hlt, hmod⟩ ?_
    · by_cases hv : v = w
      · simp [hv]
      · simp [hv, Ne.symm hv, hl]
    · rw [hpc]
      rfl
    · rw [hpc]
      rfl
  · refine h.of_disk hload.disk rfl (hload.consistent h.consistent) ?_ hload.locked.1
      (fun _ _ => hload.locked) ?_ ?_
    · simp only [Sys.goto_fs, hload.file]
      exact h.file
    · intro ho
      simp only [Sys.goto_fs, hload.inOp]
      exact h.inOp ho
    · have hsum := sum_update (fun v b => b.pending (call v)) t.pc w (.locked i)
      rw [hpc] at hsum
      have hz : (Pc.locked i).pending (call w) = (Pc.begun i).pending (call w) := rfl
      simp only [Sys.goto_pc, Sys.off, Sys.goto_fs, hload.file]
      omega
  · simp only [Sys.goto_pc, update_self, hpc, Pc.left]
    omega

theorem steps_wrote {r : Option ℕ} (hpc : t.pc w = .wrote i r) : Steps f call s t w := by
  have hok := hc.ok w
  rw [hpc] at hok
  obtain ⟨hlt, hmod, rfl⟩ := hok
  refine ⟨{ t with fs := t.fs.setFile f { t.fs.file f with
      off := (t.fs.file f).off + (call w).n1 i } }.goto w (.advanced i (some ((call w).n1 i))),
    ?_, ?_, ?_, ?_, fun v hv => by simp [hv]⟩
  · simp [hpc]
  · refine hc.move (l := t.lock) (o := t.outstanding) (fun v => ?_) ?_ ⟨hlt, hmod, rfl⟩ ?_
    · have hv := hc.lock v
      split
      next hvw =>
        rw [hvw, hpc] at hv
        rw [hvw]
        exact hv
      · rfl
    · rw [hpc]
      rfl
    · rw [hpc]
      rfl
  · have hcon := h.consistent
    refine h.of_disk rfl rfl ⟨hcon.sound, hcon.noHole, hcon.cached⟩ ?_ h.ref h.loaded h.inOp ?_
    · simp only [Sys.goto_fs, State.setFile_file, update_self]
      rw [h.file]
    · have hsum := sum_update (fun v b => b.pending (call v)) t.pc w
        (.advanced i (some ((call w).n1 i)))
      rw [hpc] at hsum
      have h1 : (Pc.wrote i (some ((call w).n1 i))).pending (call w) = (call w).n1 i := rfl
      have h2 : (Pc.advanced i (some ((call w).n1 i))).pending (call w) = 0 := rfl
      rw [h1, h2] at hsum
      simp only [Sys.goto_pc, Sys.off, Sys.goto_fs, State.setFile_file, update_self]
      omega
  · simp only [Sys.goto_pc, update_self, hpc, Pc.left]
    omega

theorem steps_advanced {r : Option ℕ} (hpc : t.pc w = .advanced i r) : Steps f call s t w := by
  have hok := hc.ok w
  rw [hpc] at hok
  have hip := h.ip_eq
  have hspec : wp (iunlock (s.ip f)) (fun _ fs => fs = t.fs) (fun _ => False) t.fs := by
    have href := h.ref
    unfold iunlock
    simp only [wp_bind, wp_get]
    rw [if_neg (by omega)]
    rfl
  obtain ⟨_, _, hrun, rfl⟩ := wp_total hspec
  refine ⟨{ t with lock := none }.goto w (.unlocked i r), ?_, ?_, ?_, ?_, fun v hv => by simp [hv]⟩
  · simp [hpc, hip, hrun]
  · have hw := (hc.lock w).mpr (by rw [hpc]; rfl)
    refine hc.move (x := t.fs) (o := t.outstanding) (fun v => ?_) ?_ hok ?_
    · by_cases hv : v = w
      · simp [hv]
      · rw [if_neg hv, hw]
        simpa using Ne.symm hv
    · rw [hpc]
      rfl
    · rw [hpc]
      rfl
  · exact h.move (o := t.outstanding) (b := t.fs.inOp) (fun _ hv => by cases hv) h.inOp
      (by rw [hpc]; rfl)
  · simp only [Sys.goto_pc, update_self, hpc, Pc.left]
    have hlt := hok.1
    omega

theorem steps_unlocked {r : Option ℕ} (hpc : t.pc w = .unlocked i r) : Steps f call s t w := by
  have hok := hc.ok w
  rw [hpc] at hok
  obtain ⟨hlt, hmod, rfl⟩ := hok
  have hne := hc.outstanding_ne (w := w) (by rw [hpc]; rfl)
  have hn1 : 0 < (call w).n1 i ∧ (call w).n1 i ≤ (call w).n - i := by
    have hmax : filewriteMax = 3072 := rfl
    unfold Call.n1
    omega
  refine ⟨{ t with
      fs := { t.fs with inOp := decide (t.outstanding ≠ 1) }
      outstanding := t.outstanding - 1 }.goto w (.top (i + (call w).n1 i)),
    ?_, ?_, ?_, ?_, fun v hv => by simp [hv]⟩
  · simp [hpc]
  · refine hc.move (l := t.lock) (fun v => ?_) ?_ ⟨by omega, ?_⟩ ?_
    · have hv := hc.lock v
      split
      next hvw =>
        rw [hvw, hpc] at hv
        rw [hvw]
        exact hv
      · rfl
    · rw [hpc]
      have h1 : (Pc.unlocked i (some ((call w).n1 i))).inOp.toNat = 1 := rfl
      have h2 : (Pc.top (i + (call w).n1 i)).inOp.toNat = 0 := rfl
      omega
    · unfold Call.n1 at hn1 ⊢
      by_cases hmin : (call w).n - i ≤ filewriteMax
      · right
        omega
      · left
        rw [min_eq_right (by omega), Nat.add_mod_right, hmod]
    · rw [hpc]
      rfl
  · refine h.move (l := t.lock) (fun _ hv => hv) (fun ho => ?_) (by rw [hpc]; rfl)
    simp only [ne_eq, decide_not, Bool.not_eq_eq_eq_not, Bool.not_true, decide_eq_false_iff_not]
    omega
  · simp only [Sys.goto_pc, update_self, hpc, Pc.left]
    omega

end

def Call.chunkSrc (c : Call) (i : ℕ) : Src := fun k => some ((c.src (i + k)).getD 0)

theorem getD_chunk {c : Call} {k : ℕ} (hk : k < c.n1 i) :
    (c.chunk i).getD k 0 = (c.chunkSrc i k).getD 0 := by
  simp [Call.chunk, Call.chunkSrc, hk]

/-- What a write at the end of what is written does to the file. -/
theorem FileInv.write {fs : State P} (hc : Control call t) (h : FileInv f call s t)
    (hpc : t.pc w = .locked i) (hl : t.lock = some w)
    (hoff : t.off f = s.off f + (bytesOf call t.chunks).length)
    (hw : Written (s.ip f) ((call w).chunkSrc i) (t.off f) ((call w).n1 i) t.fs
      (some ((call w).n1 i)) fs) (hroom : fs.disk.Room (s.ip f) (blocks f call s)) :
    FileInv f call s ({ t with fs := fs, chunks := t.chunks ++ [(w, i)] }.goto w
      (.wrote i (some ((call w).n1 i)))) := by
  have hsz := hw.size _ rfl
  have hlen : (bytesOf call (t.chunks ++ [(w, i)])).length =
      (bytesOf call t.chunks).length + (call w).n1 i := by
    rw [bytesOf_concat, length_append, Call.length_chunk]
  have hlocked := h.loaded w hl
  refine ⟨hw.consistent, ?_, ?_, ?_, fun _ _ => ?_, fun ho => ?_, hroom, ?_, ?_, ?_⟩
  · simp only [Sys.goto_fs, hw.file]
    exact h.file
  · simp only [Sys.goto_fs, hw.ref]
    exact h.ref
  · have halloc := h.alloc
    have hty : (fs.disk.dinode (s.ip f)).type = (t.fs.disk.dinode (s.ip f)).type := by rw [hw.attrs]
    simpa only [Volume.Allocated, Sys.goto_fs, hw.sb, hty] using halloc
  · unfold State.Locked at hlocked ⊢
    simpa only [Sys.goto_fs, hw.ref, hw.valid] using hlocked
  · simp only [Sys.goto_fs, hw.inOp]
    exact h.inOp ho
  · have hsum := sum_update (fun v b => b.pending (call v)) t.pc w (.wrote i (some ((call w).n1 i)))
    rw [hpc, hc.pending_eq hl, hpc] at hsum
    have h1 : (Pc.wrote i (some ((call w).n1 i))).pending (call w) = (call w).n1 i := rfl
    have h2 : (Pc.locked i).pending (call w) = 0 := rfl
    rw [h1, h2] at hsum
    simp only [Sys.goto_pc, Sys.off, Sys.goto_fs, Sys.goto_chunks, hw.file, hlen] at hoff ⊢
    omega
  · simp only [Sys.goto_fs, Sys.goto_chunks, hlen]
    rw [hsz.2.2, h.size, hoff]
    omega
  · intro x hx
    simp only [Sys.goto_fs, Sys.goto_chunks] at hx ⊢
    rw [hw.content _ rfl (fun _ => rfl) x hx, hlen, hoff, bytesOf_concat]
    have hst := h.size
    by_cases hnew : s.off f + (bytesOf call t.chunks).length ≤ x ∧
        x < s.off f + (bytesOf call t.chunks).length + (call w).n1 i
    · have hsub : x - s.off f - (bytesOf call t.chunks).length < (call w).n1 i := by omega
      rw [if_pos hnew, if_pos (by omega), getD_append_right _ _ _ _ (by omega),
        getD_chunk hsub, Nat.sub_sub]
    have hlt : x < (t.fs.disk.dinode (s.ip f)).size := by
      have hsz' := hsz.2.2
      omega
    rw [if_neg hnew, h.byte x hlt]
    by_cases hold : s.off f ≤ x ∧ x < s.off f + (bytesOf call t.chunks).length
    · rw [if_pos hold, if_pos (by omega), List.getD_append _ _ _ _ (by omega)]
    · rw [if_neg hold, if_neg (by omega)]

section
variable (hs : Ready f call s) (hc : Control call t) (h : FileInv f call s t)
include hs hc h

theorem steps_locked (hpc : t.pc w = .locked i) : Steps f call s t w := by
  have hok := hc.ok w
  rw [hpc] at hok
  have hip := h.ip_eq
  have hl : t.lock = some w := (hc.lock w).mpr (by rw [hpc]; rfl)
  have hop : t.fs.inOp = true := h.inOp (hc.outstanding_ne (w := w) (by rw [hpc]; rfl))
  have hoff : t.off f = s.off f + (bytesOf call t.chunks).length := by
    have ho := h.off
    rw [hc.pending_eq hl, hpc] at ho
    exact ho
  have hlen : (bytesOf call t.chunks).length + (call w).n1 i ≤ total call := by
    have hle := (hc.write (x := t.fs) hpc).length_le
    simpa only [Sys.goto_chunks, bytesOf_concat, length_append, Call.length_chunk] using hle
  have hle := le_blocks f call s
  have hsrc : ∀ k < (call w).n1 i, (call w).src (i + k) = (call w).chunkSrc i k := by
    intro k hk
    have hm := hs.mapped w (i + k) (by
      unfold Call.n1 at hk
      omega)
    obtain ⟨b, hb⟩ := Option.isSome_iff_exists.mp hm
    simp [Call.chunkSrc, hb]
  have hE : Logs (fun _ : Panic => False) t.fs := by
    intro hno
    rw [hop] at hno
    cases hno
  have hspec : wp (writei (s.ip f) ((call w).chunkSrc i) (t.off f) ((call w).n1 i))
      (Written (s.ip f) ((call w).chunkSrc i) (t.off f) ((call w).n1 i) t.fs) (fun _ => False)
      t.fs :=
    writei_spec hE h.consistent (h.loaded w hl) (t.off f) ((call w).n1 i)
  obtain ⟨r, fs, hrun, hw, rfl, hroom⟩ := wp_total (wp_and hspec
    (writei_room (fun _ => trivial) h.consistent (h.loaded w hl) (fun _ => rfl) (blocks_le hs)
      (by rw [h.size]; omega) (by omega) h.room))
  refine ⟨{ t with fs := fs, chunks := t.chunks ++ [(w, i)] }.goto w
    (.wrote i (some ((call w).n1 i))), ?_, hc.write hpc, h.write hc hpc hl hoff hw hroom, ?_,
    fun v hv => by simp [hv]⟩
  · rw [← writei_congr hsrc] at hrun
    have hoff' : (t.fs.file f).off = t.off f := rfl
    simp [hpc, hip, hoff', hrun]
  · have hlt := hok.1
    simp only [Sys.goto_pc, update_self, hpc, Pc.left]
    omega

theorem progress : (∃ w, Steps f call s t w) ∨ ∀ w, ∃ ret, t.pc w = .done ret := by
  by_cases hall : ∀ w, ∃ ret, t.pc w = .done ret
  · exact .inr hall
  left
  obtain ⟨w, hw⟩ := not_forall.mp hall
  cases hl : t.lock with
  | some v =>
    have hv := (hc.lock v).mp hl
    cases hpc : t.pc v with
    | locked i => exact ⟨v, steps_locked hs hc h hpc⟩
    | wrote i r => exact ⟨v, steps_wrote hc h hpc⟩
    | advanced i r => exact ⟨v, steps_advanced hc h hpc⟩
    | start | top i | begun i | unlocked i r | done ret => simp [hpc] at hv
  | none =>
    refine ⟨w, ?_⟩
    cases hpc : t.pc w with
    | start => exact steps_start hs hc h hpc
    | top i => exact steps_top hc h hpc
    | begun i => exact steps_begun hc h hpc hl
    | locked i => exact steps_locked hs hc h hpc
    | wrote i r => exact steps_wrote hc h hpc
    | advanced i r => exact steps_advanced hc h hpc
    | unlocked i r => exact steps_unlocked hc h hpc
    | done ret => exact absurd ⟨ret, hpc⟩ hw

theorem steps_of_next (hn : t.next f call w = some u) : Steps f call s t w := by
  cases hpc : t.pc w with
  | start => exact steps_start hs hc h hpc
  | top i => exact steps_top hc h hpc
  | begun i =>
    refine steps_begun hc h hpc ?_
    by_contra hl
    simp [hpc, hl] at hn
  | locked i => exact steps_locked hs hc h hpc
  | wrote i r => exact steps_wrote hc h hpc
  | advanced i r => exact steps_advanced hc h hpc
  | unlocked i r => exact steps_unlocked hc h hpc
  | done ret => simp [hpc] at hn

end

def Sys.left (call : W → Call) (t : Sys W P) : ℕ := ∑ w, (t.pc w).left (call w)

theorem left_lt (hlt : (u.pc w).left (call w) < (t.pc w).left (call w))
    (hother : ∀ v ≠ w, u.pc v = t.pc v) : u.left call < t.left call := by
  refine Finset.sum_lt_sum (fun v _ => ?_) ⟨w, Finset.mem_univ w, hlt⟩
  by_cases hv : v = w
  · rw [hv]
    exact hlt.le
  · rw [hother v hv]

theorem run_steps (hs : Ready f call s) (ws : List W) : ∀ t, Control call t → FileInv f call s t →
    run (Sys.next f call) t ws = some u →
      Control call u ∧ FileInv f call s u ∧ ws.length + u.left call ≤ t.left call := by
  induction ws with
  | nil =>
    intro t hc h hr
    cases hr
    exact ⟨hc, h, by simp⟩
  | cons w ws ih =>
    intro t hc h hr
    obtain ⟨v, hv, hr⟩ := run_cons_eq_some.mp hr
    obtain ⟨v', hv', hc', h', hlt, hother⟩ := steps_of_next hs hc h hv
    rw [hv] at hv'
    cases hv'
    obtain ⟨hcu, hu, hle⟩ := ih v hc' h' hr
    have hleft := left_lt hlt hother
    exact ⟨hcu, hu, by simp only [length_cons]; omega⟩

theorem Ready.control (hs : Ready f call s) : Control call s where
  lock w := by simp [hs.lock, hs.pc w]
  outstanding := by simp [hs.outstanding, hs.pc, Pc.inOp]
  ok w := by simp [hs.pc w, Pc.Ok]
  order w := by simp [hs.chunks, hs.pc w, Pc.got, starts, filewriteMax, maxopblocks, bsize]
  length := by simp [hs.chunks, hs.pc, Pc.got, bytesOf]

def Call.buffer (c : Call) : List UInt8 := (List.range c.n).map fun k => (c.src k).getD 0

theorem flatMap_chunks (c : Call) (j : ℕ) :
    ((List.range j).map (· * filewriteMax)).flatMap c.chunk =
      (List.range (min (j * filewriteMax) c.n)).map fun k => (c.src k).getD 0 := by
  induction j with
  | zero => simp
  | succ j ih =>
    have hadd : min ((j + 1) * filewriteMax) c.n =
        min (j * filewriteMax) c.n + c.n1 (j * filewriteMax) := by
      have hmax : filewriteMax = 3072 := rfl
      unfold Call.n1
      rw [hmax]
      omega
    rw [range_succ, map_append, flatMap_append, ih, hadd, range_add, map_append]
    congr 1
    simp only [map_cons, map_nil, flatMap_cons, flatMap_nil, append_nil, Call.chunk, map_map]
    refine map_congr_left fun k hk => ?_
    have hlt := mem_range.mp hk
    have hmin : min (j * filewriteMax) c.n = j * filewriteMax := by
      unfold Call.n1 at hlt
      omega
    rw [Function.comp_apply, hmin]

theorem flatMap_starts (c : Call) : (starts c.n).flatMap c.chunk = c.buffer := by
  rw [starts, flatMap_chunks, Call.buffer]
  congr 2
  have hmax : filewriteMax = 3072 := rfl
  rw [hmax]
  omega

structure Result (f : Fin nfile) (call : W → Call) (s t : Sys W P) : Prop where
  ret : ∀ w, t.pc w = .done (some (call w).n)
  off : t.off f = s.off f + total call
  size : (t.fs.disk.dinode (s.ip f)).size =
    max (s.fs.disk.dinode (s.ip f)).size (s.off f + total call)
  /-- The chunks stand in the file in the order in which they were written. -/
  bytes : t.fs.disk.bytes (s.ip f) (s.off f) (total call) = bytesOf call t.chunks
  /-- The chunks of each call are in order and make up its buffer. -/
  order : ∀ w, (t.chunks.filter (·.1 = w)).map Prod.snd = starts (call w).n ∧
    bytesOf call (t.chunks.filter (·.1 = w)) = (call w).buffer
  /-- A call of at most one chunk is contiguous. -/
  contiguous : ∀ w, (call w).n ≤ filewriteMax → ∃ k, k + (call w).n ≤ total call ∧
    t.fs.disk.bytes (s.ip f) (s.off f + k) (call w).n = (call w).buffer
  others : ∀ x, x < (t.fs.disk.dinode (s.ip f)).size → (x < s.off f ∨ s.off f + total call ≤ x) →
      t.fs.disk.byte (s.ip f) x = s.fs.disk.byte (s.ip f) x

theorem contiguous_of_bytes (hc : Control call t) (hdone : ∀ w, t.pc w = .done (some (call w).n))
    {v : Volume} {j off : ℕ} (hlen : (bytesOf call t.chunks).length = total call)
    (hbytes : v.bytes j off (total call) = bytesOf call t.chunks) (hw : (call w).n ≤ filewriteMax) :
    ∃ k, k + (call w).n ≤ total call ∧ v.bytes j (off + k) (call w).n = (call w).buffer := by
  rcases Nat.eq_zero_or_pos (call w).n with hz | hpos
  · exact ⟨0, by omega, by simp [Call.buffer, hz]⟩
  have hn1 : (call w).n1 0 = (call w).n := by
    unfold Call.n1
    omega
  have hchunk : (call w).chunk 0 = (call w).buffer := by
    rw [Call.chunk, Call.buffer, hn1]
    simp
  have hmem : (w, 0) ∈ t.chunks := by
    have hord := hc.order w
    have hstart := starts_succ (c := call w) hpos (Nat.zero_mod _)
    rw [Nat.zero_add, hn1] at hstart
    rw [hdone w, Pc.got, hstart] at hord
    have hin : 0 ∈ (t.chunks.filter (·.1 = w)).map Prod.snd := by
      rw [hord]
      simp
    obtain ⟨x, hx, hx0⟩ := mem_map.mp hin
    obtain ⟨hxm, hxw⟩ := mem_filter.mp hx
    have hxe : x = (w, 0) := Prod.ext (by simpa using hxw) hx0
    rwa [← hxe]
  obtain ⟨l1, l2, hl⟩ := append_of_mem hmem
  have hsplit : bytesOf call t.chunks =
      bytesOf call l1 ++ ((call w).buffer ++ bytesOf call l2) := by
    rw [hl]
    simp [bytesOf, hchunk]
  have hbuf : (call w).buffer.length = (call w).n := by simp [Call.buffer]
  rw [hsplit, length_append, length_append, hbuf] at hlen
  refine ⟨(bytesOf call l1).length, by omega, ?_⟩
  rw [hsplit, ← hlen, Volume.bytes_add, Volume.bytes_add] at hbytes
  have htail := (append_inj hbytes (by simp)).2
  exact (append_inj htail (by simp [hbuf])).1

theorem result_of_done (hc : Control call t) (h : FileInv f call s t)
    (hdone : ∀ w, ∃ ret, t.pc w = .done ret) : Result f call s t := by
  have hret w : t.pc w = .done (some (call w).n) := by
    obtain ⟨ret, hpc⟩ := hdone w
    have hok := hc.ok w
    rw [hpc] at hok ⊢
    rw [show ret = some (call w).n from hok]
  have hlen : (bytesOf call t.chunks).length = total call := by
    rw [hc.length]
    exact Finset.sum_congr rfl fun w _ => by rw [hret w]; rfl
  have hsize := h.size
  rw [hlen] at hsize
  have hbytes : t.fs.disk.bytes (s.ip f) (s.off f) (total call) = bytesOf call t.chunks := by
    refine ext_getElem (by simp [hlen]) fun k hk hk' => ?_
    have hb := h.byte (s.off f + k) (by omega)
    rw [if_pos (by omega), Nat.add_sub_cancel_left, getD_eq_getElem _ _ hk'] at hb
    simpa using hb
  refine ⟨hret, ?_, hsize, hbytes, fun w => ?_, fun w hw => ?_, fun x hx hne => ?_⟩
  · have hoff := h.off
    have hz : ∑ w, (t.pc w).pending (call w) = 0 :=
      Finset.sum_eq_zero fun w _ => by rw [hret w]; rfl
    omega
  · have hord := hc.order w
    rw [hret w, Pc.got] at hord
    exact ⟨hord, by rw [bytesOf_filter, hord, flatMap_starts]⟩
  · exact contiguous_of_bytes hc hret hlen hbytes hw
  · rw [h.byte x hx, if_neg (by omega)]

/-- Writers that share an open file do not overwrite each other. A run of their calls, in any
interleaving, has a bounded number of steps, and a call can go on until all have returned their full
lengths; the file then holds the chunks of the calls one after the other. -/
theorem shared_writes_append (hs : Ready f call s) {ws : List W}
    (hr : run (Sys.next f call) s ws = some t) :
    ws.length ≤ ∑ w, (7 * (call w).n + 2) ∧
      ((∃ w u, t.next f call w = some u) ∨ Result f call s t) := by
  obtain ⟨hc, h, hle⟩ := run_steps hs ws s hs.control hs.fileInv hr
  constructor
  · have hleft : s.left call = ∑ w, (7 * (call w).n + 2) :=
      Finset.sum_congr rfl fun w _ => by rw [hs.pc w]; rfl
    omega
  · rcases progress hs hc h with ⟨w, u, hu, _⟩ | hdone
    · exact .inl ⟨w, u, hu⟩
    · exact .inr (result_of_done hc h hdone)

end

def twoCalls (b : Bool) : Call := ⟨fun _ => some (if b then 1 else 2), 3⟩

def twoWriters : Sys Bool Unit := ⟨openEmptyFile.endOp, none, 0, fun _ => .start, []⟩

theorem ready_twoWriters : Ready 0 twoCalls twoWriters where
  consistent :=
    have h := consistent_emptyFileState
    ⟨h.sound, h.noHole, h.cached⟩
  kind := rfl
  writable := rfl
  ref := by decide
  alloc := by decide
  off_le := Nat.zero_le _
  mapped _ _ _ := rfl
  fits := by decide
  room := by
    unfold Volume.Room
    decide +kernel
  pc _ := rfl
  lock := rfl
  outstanding := rfl
  chunks := rfl

/-- Both calls begin, and the second one waits for the lock of the first. -/
theorem shared_writes_append_two : ∃ t, run (Sys.next 0 twoCalls) twoWriters
    [true, true, false, false, true, true, true, true, false, false, false, false, false, false,
      true, true] = some t ∧ Result 0 twoCalls twoWriters t := by
  have hrun : ∃ t ∈ run (Sys.next 0 twoCalls) twoWriters
      [true, true, false, false, true, true, true, true, false, false, false, false, false, false,
        true, true], ∀ w, (t.next 0 twoCalls w).isNone = true := by
    decide +kernel
  have hall : ∀ ws, (∃ t ∈ run (Sys.next 0 twoCalls) twoWriters ws,
      ∀ w, (t.next 0 twoCalls w).isNone = true) →
      ∃ t, run (Sys.next 0 twoCalls) twoWriters ws = some t ∧ Result 0 twoCalls twoWriters t := by
    rintro ws ⟨t, ht, hstop⟩
    have hres := (shared_writes_append ready_twoWriters ht).2
    refine ⟨t, ht, hres.resolve_left ?_⟩
    rintro ⟨w, u, hu⟩
    have hnone := hstop w
    rw [hu] at hnone
    cases hnone
  exact hall _ hrun

end Xv6.Fs.Sharing
