import Xv6.Fs.Itrunc

/-! A file as an array of bytes. Sequences of `readi`, `writei` and `itrunc` behave as on arrays,
one for each inode; a write is cut short only by a full disk. -/
namespace Xv6.Fs
open Function Hoare List Volume
variable {P : Type} {E : Panic → Prop} {s t u : State P} {i : ℕ} {src : Src}

/-- The bytes of inode `i`; an inode that is not allocated has none. -/
def Volume.contents (v : Volume) (i : ℕ) : List UInt8 :=
  if v.Allocated i then v.bytes i 0 (v.dinode i).size else []

/-- The array `a` with the bytes from `off` on replaced by `b`. -/
def overwrite (a : List UInt8) (off : ℕ) (b : List UInt8) : List UInt8 :=
  (List.range (max a.length (off + b.length))).map fun x =>
    if off ≤ x ∧ x < off + b.length then b.getD (x - off) 0 else a.getD x 0

def Src.take (src : Src) (m : ℕ) : List UInt8 := (List.range m).map fun k => (src k).getD 0

inductive FileOp where
  | read (i : ℕ) (dst : ℕ → Bool) (off n : ℕ)
  | write (i : ℕ) (src : Src) (off n : ℕ)
  | trunc (i : ℕ)

inductive FileRes where
  | bytes (bs : Option (List UInt8))
  | count (r : Option ℕ)
  | done

namespace FileOp

def inode : FileOp → ℕ
  | read i _ _ _ | write i _ _ _ | trunc i => i

def Mapped : FileOp → Prop
  | read _ dst _ n => ∀ k, k < n → dst k = true
  | write _ src _ n => ∀ k, k < n → (src k).isSome = true
  | trunc _ => True

def exec : FileOp → FsM P FileRes
  | read i dst off n => .bytes <$> readi i dst off n
  | write i src off n => .count <$> writei i src off n
  | trunc i => (fun _ => .done) <$> itrunc i

/-- The operation on arrays: from `a` it may return `r` and leave `a'`. -/
def OnArrays (a : ℕ → List UInt8) : FileOp → FileRes → (ℕ → List UInt8) → Prop
  | read i _ off n, r, a' => a' = a ∧ r = .bytes (some
      (if off + n < 2 ^ 32 ∧ off ≤ (a i).length then ((a i).drop off).take n else []))
  | write i src off n, r, a' =>
    if (a i).length < off ∨ 2 ^ 32 ≤ off + n ∨ maxfile * bsize < off + n then
      r = .count none ∧ a' = a
    else ∃ m, m ≤ n ∧ r = .count (some m) ∧ a' = update a i (overwrite (a i) off (src.take m))
  | trunc i, r, a' => r = .done ∧ a' = update a i []

end FileOp

theorem length_overwrite (a : List UInt8) (off : ℕ) (b : List UInt8) :
    (overwrite a off b).length = max a.length (off + b.length) := by
  simp [overwrite]

namespace Volume
variable {v v' : Volume}

theorem contents_of_allocated (h : v.Allocated i) :
    v.contents i = v.bytes i 0 (v.dinode i).size := if_pos h

theorem length_contents (h : v.Allocated i) : (v.contents i).length = (v.dinode i).size := by
  rw [contents_of_allocated h, bytes, length_map, length_range]

theorem getD_contents (h : v.Allocated i) {x : ℕ} (hx : x < (v.dinode i).size) :
    (v.contents i).getD x 0 = v.byte i x := by
  simp [contents_of_allocated h, bytes, hx]

theorem SameAt.contents {j : ℕ} (h : SameAt j v v') (hsb : v'.sb = v.sb) (hv : v.NoHole) :
    v'.contents j = v.contents j := by
  by_cases ha : v.Allocated j
  · rw [contents_of_allocated ha, contents_of_allocated ((h.allocated_iff hsb).mpr ha), h.dinode]
    apply map_congr_left
    intro x hx
    have hlt := mem_range.mp hx
    unfold byte
    rw [h.slot]
    congr 1
    apply h.data _ _ (dataSlot_ne _)
    apply hv j _ ha
    exact (Nat.div_mul_le_self _ bsize).trans_lt (by omega)
  · rw [Volume.contents, Volume.contents, if_neg ha, if_neg (mt (h.allocated_iff hsb).mp ha)]

theorem take_drop_contents (h : v.Allocated i) (off n : ℕ) :
    ((v.contents i).drop off).take n = v.bytes i off (min n ((v.dinode i).size - off)) := by
  rw [contents_of_allocated h]
  apply ext_getElem
  · simp [bytes]
  · intro k _ _
    simp [bytes]

end Volume

theorem mapped_congr (src src' : Src) {o m : ℕ} (h : ∀ k < o + m, src k = src' k) :
    src.mapped o m = src'.mapped o m := by
  unfold Src.mapped
  rw [Bool.eq_iff_iff, all_eq_true, all_eq_true]
  refine forall₂_congr fun k hk => ?_
  rw [h]
  have := mem_range.mp hk
  omega

theorem copyin_congr (src src' : Src) {b : Block} {pos m o : ℕ} (h : ∀ k < o + m, src k = src' k) :
    copyin b pos m src o = copyin b pos m src' o := by
  funext k
  unfold copyin
  by_cases hk : pos ≤ k.val ∧ k.val < pos + m
  · rw [mapped_congr src src' fun l hl => h l (by omega), h _ (by omega)]
  · rw [if_neg fun hc => hk ⟨hc.1, hc.2.1⟩, if_neg fun hc => hk ⟨hc.1, hc.2.1⟩]

theorem writeLoop_congr {src' : Src} {n : ℕ} (h : ∀ k < n, src k = src' k) (fuel : ℕ) :
    ∀ off tot, writeLoop (P := P) i src fuel off tot n = writeLoop i src' fuel off tot n := by
  induction fuel with
  | zero => exact fun _ _ => rfl
  | succ fuel ih =>
    intro off tot
    unfold writeLoop
    by_cases hle : n ≤ tot
    · rw [if_pos hle, if_pos hle]
    · have hm : ∀ k < tot + min (n - tot) (bsize - off % bsize), src k = src' k :=
        fun k hk => h k (by omega)
      simp only [ih, copyin_congr src src' hm, mapped_congr src src' hm]

theorem writei_congr {src' : Src} {off n : ℕ} (h : ∀ k < n, src k = src' k) :
    writei (P := P) i src off n = writei i src' off n := by
  simp only [writei, writeLoop_congr h]

/-- One operation does to the contents on disk what it does to arrays. -/
structure FileOp.Simulates (op : FileOp) (s : State P) (r : FileRes) (t : State P) : Prop where
  consistent : t.Consistent
  locked : ∀ j, t.Locked j ↔ s.Locked j
  inOp : t.inOp = s.inOp
  arrays : op.OnArrays s.disk.contents r t.disk.contents
  /-- The result -1 leaves everything as it was. -/
  fail : r = .count none → t = s
  /-- A write is cut short only when no free block is left. -/
  full : ∀ i src off n m, op = .write i src off n → r = .count (some m) → m < n →
    ∀ b, b < t.disk.sb.size → t.disk.bitmap b = true

theorem contents_update {v v' : Volume} (hsb : v'.sb = v.sb) (hv : v.NoHole)
    (h : ∀ j ≠ i, Volume.SameAt j v v') : v'.contents = update v.contents i (v'.contents i) := by
  funext j
  by_cases hj : j = i
  · rw [hj, update_self]
  · rw [update_of_ne hj, (h j hj).contents hsb hv]

theorem Written.contents {off n m : ℕ} (h : Written i src off n s (some m) t)
    (hi : s.disk.Allocated i) (hi' : t.disk.Allocated i) (hsrc : ∀ k, (src k).isSome = true) :
    t.disk.contents i = overwrite (s.disk.contents i) off (src.take m) := by
  obtain ⟨hoff, _, hsize⟩ := h.size m rfl
  have hlen : (src.take m).length = m := by simp [Src.take]
  unfold overwrite
  rw [length_contents hi, hlen, contents_of_allocated hi', hsize]
  apply map_congr_left
  intro x hx
  have hx := mem_range.mp hx
  rw [Nat.zero_add, h.content m rfl hsrc x (by omega)]
  split
  next hr =>
    have hlt : x - off < m := by omega
    simp [Src.take, hlt]
  next hr => rw [getD_contents hi (by omega)]

theorem read_simulates (h : s.Consistent) (hi : s.Locked i) {dst : ℕ → Bool} {off n : ℕ}
    (hm : ∀ k < n, dst k = true) :
    wp (FileOp.read i dst off n).exec (FileOp.Simulates (.read i dst off n) s) E s := by
  unfold FileOp.exec
  rw [wp_map]
  refine wp_post (readi_spec h hi dst off n) ?_
  rintro r _ ⟨rfl, hr⟩
  have ha := (h.cached i hi).2
  refine ⟨h, fun _ => Iff.rfl, rfl, ⟨rfl, ?_⟩, by simp, by simp⟩
  rw [hr hm, take_drop_contents ha, length_contents ha]

theorem write_simulates (hE : Logs E s) (h : s.Consistent) (hi : s.Locked i) {off n : ℕ}
    (hm : ∀ k < n, (src k).isSome = true) :
    wp (FileOp.write i src off n).exec (FileOp.Simulates (.write i src off n) s) E s := by
  -- Past the first `n` bytes the source does not matter.
  have hall : ∀ k < n, src k = some ((src k).getD 0) := by
    intro k hk
    obtain ⟨b, hb⟩ := Option.isSome_iff_exists.mp (hm k hk)
    rw [hb, Option.getD_some]
  have ha := (h.cached i hi).2
  have hlen := length_contents ha
  unfold FileOp.exec
  rw [wp_map, writei_congr hall]
  refine wp_post (writei_spec hE h hi off n) ?_
  intro r t hw
  have hi' := (hw.consistent.cached i ((hw.toLocal.locked_iff i).mpr hi)).2
  refine ⟨hw.consistent, hw.toLocal.locked_iff, hw.inOp, ?_, ?_, ?_⟩
  · simp only [FileOp.OnArrays]
    rw [hlen]
    split
    next hc =>
      have hr := hw.refused.mpr hc
      exact ⟨by rw [hr], by rw [hw.fail hr]⟩
    next hc =>
      obtain ⟨m, rfl⟩ := Option.ne_none_iff_exists'.mp (mt hw.refused.mp hc)
      refine ⟨m, (hw.size m rfl).2.1, rfl, ?_⟩
      rw [contents_update hw.sb h.noHole hw.others, hw.contents ha hi' fun _ => rfl]
      rfl
  · intro hr
    cases r with
    | none => exact hw.fail rfl
    | some m => cases hr
  · intro _ _ _ _ m hop hr hlt
    cases hop
    cases hr
    exact hw.full m rfl hlt fun _ => rfl

theorem trunc_simulates (hE : Logs E s) (h : s.Consistent) (hi : s.Locked i) :
    wp (FileOp.trunc i).exec (FileOp.Simulates (.trunc i) s) E s := by
  unfold FileOp.exec
  rw [wp_map]
  refine wp_post (itrunc_spec hE h hi) ?_
  intro _ t ht
  have ha : t.disk.Allocated i := (ht.consistent.cached i ((ht.toLocal.locked_iff i).mpr hi)).2
  refine ⟨ht.consistent, ht.toLocal.locked_iff, ht.inOp, ⟨rfl, ?_⟩, by simp, by simp⟩
  rw [contents_update ht.sb h.noHole ht.others, contents_of_allocated ha, ht.empty]
  simp [Volume.bytes]

theorem FileOp.exec_simulates (op : FileOp) (hE : Logs E s) (h : s.Consistent)
    (hi : s.Locked op.inode) (hm : op.Mapped) : wp op.exec (op.Simulates s) E s := by
  cases op with
  | read i dst off n => exact read_simulates h hi hm
  | write i src off n => exact write_simulates hE h hi hm
  | trunc i => exact trunc_simulates hE h hi

def FileOp.execAll : List FileOp → FsM P (List FileRes)
  | [] => return []
  | op :: ops => do
    let r ← op.exec
    let rs ← execAll ops
    return r :: rs

def FileOp.Conforms : State P → List FileOp → List FileRes → State P → Prop
  | s, [], [], t => t = s
  | s, op :: ops, r :: rs, t => ∃ u, op.Simulates s r u ∧ Conforms u ops rs t
  | _, _, _, _ => False

theorem FileOp.execAll_conforms (ops : List FileOp) : ∀ s : State P, Logs E s → s.Consistent →
    (∀ op ∈ ops, s.Locked op.inode ∧ op.Mapped) →
      wp (FileOp.execAll ops) (fun rs t => FileOp.Conforms s ops rs t) E s := by
  induction ops with
  | nil =>
    intro s _ _ _
    exact rfl
  | cons op ops ih =>
    intro s hE h hops
    obtain ⟨hi, hm⟩ := hops op mem_cons_self
    simp only [FileOp.execAll, wp_bind]
    refine wp_post (op.exec_simulates hE h hi hm) ?_
    intro r u hu
    refine wp_post (ih u (hE.congr hu.inOp) hu.consistent fun o ho => ?_) ?_
    · obtain ⟨hl, hm⟩ := hops o (mem_cons_of_mem op ho)
      exact ⟨(hu.locked _).mpr hl, hm⟩
    · exact fun rs t ht => ⟨u, hu, ht⟩

/-- An inode is a byte array: a sequence of operations on locked inodes inside a transaction runs to
its end, and the contents on disk change as arrays do. -/
theorem inode_byte_array (h : s.Consistent) (hop : s.inOp = true) (ops : List FileOp)
    (hops : ∀ op ∈ ops, s.Locked op.inode ∧ op.Mapped) :
    ∃ rs t, FileOp.execAll ops s = .ok (rs, t) ∧ FileOp.Conforms s ops rs t := by
  refine wp_total (FileOp.execAll_conforms ops s (fun hno => ?_) h hops)
  rw [hop] at hno
  cases hno

def emptyFile : Volume where
  sb := ⟨fsmagic, fssize, 1954, ninodes, logsize, 2, 32, 45⟩
  bitmap := fun b => b < 46
  dinode := fun i => if i = 1 then ⟨.file, 0, 0, 1, 0, fun _ => 0⟩ else .fresh .free
  data := fun _ => .zero

theorem slot_emptyFile (i k : ℕ) : emptyFile.slot i k = 0 := by
  have haddrs : (emptyFile.dinode i).addrs = fun _ => 0 := by
    simp only [emptyFile]
    split <;> rfl
  have haddr k : (emptyFile.dinode i).addr k = 0 := by simp [Dinode.addr, haddrs]
  unfold Volume.slot slotOf
  simp [haddr]

theorem sound_emptyFile : emptyFile.Sound where
  small := by decide
  reserve := by decide
  area := by decide
  reserved b hb := by
    simp only [emptyFile, Superblock.nmeta, fssize] at hb
    simp only [emptyFile, decide_eq_true_eq]
    omega
  owned := by
    refine ⟨fun x hx => absurd (slot_emptyFile x.1 x.2) hx, fun x y hx =>
      absurd (slot_emptyFile x.1 x.2) hx, ?_⟩
    intro b hb
    have h1 := hb.1
    have h2 := hb.2.2
    simp only [emptyFile, Superblock.nmeta, fssize, decide_eq_true_eq] at h1 h2
    omega

def emptyFileState : State Unit where
  disk := emptyFile
  inode := fun i => ⟨if i = 1 then 1 else 0, i = 1, emptyFile.dinode i⟩
  used := 1
  file := fun _ => ⟨0, .none, false, false, 0, 0, 0⟩
  proc := fun _ => none
  inOp := true
  logged := []

theorem consistent_emptyFileState : emptyFileState.Consistent where
  sound := sound_emptyFile
  noHole i bn _ hlt := by
    change bn * bsize < (emptyFile.dinode i).size at hlt
    unfold emptyFile at hlt
    simp only at hlt
    split at hlt <;> simp at hlt
  cached i hi := by
    have h1 : i = 1 := by simpa [emptyFileState] using hi.2
    subst h1
    exact ⟨rfl, by decide⟩

/-- Write three bytes across the end of the first block, read them back and truncate. -/
theorem inode_byte_array_write_read :
    ∃ rs t, FileOp.execAll [.write 1 (fun _ => some 7) 0 1023, .write 1 (fun _ => some 9) 1023 3,
      .read 1 (fun _ => true) 1022 10, .trunc 1] emptyFileState = .ok (rs, t) ∧
      FileOp.Conforms emptyFileState [.write 1 (fun _ => some 7) 0 1023,
        .write 1 (fun _ => some 9) 1023 3, .read 1 (fun _ => true) 1022 10, .trunc 1] rs t := by
  apply inode_byte_array consistent_emptyFileState rfl
  have hl : emptyFileState.Locked 1 := ⟨by decide, by decide⟩
  simp [FileOp.inode, FileOp.Mapped, hl]

end Xv6.Fs
