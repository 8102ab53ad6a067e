import Xv6.Fs.Dir
import Xv6.Fs.Holding

/-! Directories as byte arrays: what `dirlookup` finds in the entries of a directory, and the one
entry that `dirlink` writes. -/
namespace Xv6.Fs
open Hoare Volume
variable {P : Type} {E : Panic → Prop} {s t u : State P} {dp : ℕ} {name : List UInt8}

def entry (bs : List UInt8) (off : ℕ) : Dirent := .ofBytes ((bs.drop off).take direntBytes)

def IsEntry (bs : List UInt8) (off : ℕ) : Prop :=
  off % direntBytes = 0 ∧ off + direntBytes ≤ bs.length

structure Names (bs : List UInt8) (name : List UInt8) (off : ℕ) : Prop where
  isEntry : IsEntry bs off
  used : (entry bs off).inum ≠ 0
  name : namecmp name (entry bs off).name = true

theorem length_contents_le (h : s.Consistent) (hi : s.Locked dp) :
    (s.disk.contents dp).length ≤ maxfile * bsize := by
  have ha := (h.cached dp hi).2
  rw [length_contents ha]
  by_contra hlt
  refine h.noHole dp maxfile ha (by omega) (slot_of_le ?_)
  decide

variable {err : Panic} {off : ℕ} {e : Dirent}

/-- The entry at `off`; `err` is not needed where there is a whole entry. -/
theorem readDirent_whole (h : s.Consistent) (hi : s.Locked dp)
    (hE : E err ∨ off + direntBytes ≤ (s.disk.contents dp).length) :
    wp (readDirent err dp off) (fun de t => t = s ∧ de = entry (s.disk.contents dp) off ∧
      off + direntBytes ≤ (s.disk.contents dp).length) E s := by
  have ha := (h.cached dp hi).2
  have hlen := length_contents ha
  have hmax := length_contents_le h hi
  unfold readDirent
  refine wp_seq (readi_spec h hi _ off direntBytes) ?_
  rintro r t ⟨rfl, hr⟩
  rw [hr fun _ _ => rfl, take_drop_contents ha off direntBytes |>.symm]
  have hlen' : (((t.disk.contents dp).drop off).take direntBytes).length = direntBytes ↔
      off + direntBytes ≤ (t.disk.dinode dp).size := by
    rw [List.length_take, List.length_drop, hlen]
    simp only [direntBytes]
    omega
  rw [hlen] at hE hmax ⊢
  by_cases hc : off + direntBytes ≤ (t.disk.dinode dp).size ∧ off + direntBytes < 2 ^ 32
  · rw [if_pos ⟨hc.2, by omega⟩]
    dsimp only
    rw [if_pos (hlen'.mpr hc.1)]
    exact ⟨rfl, rfl, hc.1⟩
  have herr : E err := hE.resolve_right fun hle =>
    hc ⟨hle, (hle.trans hmax).trans_lt (by decide)⟩
  by_cases hin : off + direntBytes < 2 ^ 32 ∧ off ≤ (t.disk.dinode dp).size
  · rw [if_pos hin]
    dsimp only
    rw [if_neg (mt hlen'.mp fun hle => hc ⟨hle, hin.1⟩)]
    exact herr
  · rw [if_neg hin]
    exact herr

theorem readDirent_spec (h : s.Consistent) (hi : s.Locked dp) (hE : E err) :
    wp (readDirent err dp off) (fun de t => t = s ∧ de = entry (s.disk.contents dp) off ∧
      off + direntBytes ≤ (s.disk.contents dp).length) E s :=
  readDirent_whole h hi (.inl hE)

/-- A short read is a panic, unless the entries fill the directory. -/
def ReadsWhole (E : Panic → Prop) (err : Panic) (dp : ℕ) (s : State P) : Prop :=
  E err ∨ (s.disk.contents dp).length % direntBytes = 0

theorem ReadsWhole.at (h : ReadsWhole E err dp s)
    (hoff : off % direntBytes = 0) (hlt : off < (s.disk.contents dp).length) :
    E err ∨ off + direntBytes ≤ (s.disk.contents dp).length := by
  refine h.imp id fun hmod => ?_
  simp only [direntBytes] at *
  omega

/-- What `dirlookup` returns: the first entry with the name, and a reference to its inode. -/
def LookedUp (dp : ℕ) (name : List UInt8) (s : State P) (r : Option (ℕ × ℕ)) (t : State P) : Prop :=
  match r with
  | none => t = s ∧ ∀ off, ¬ Names (s.disk.contents dp) name off
  | some (i, off) => Got i s t ∧ Names (s.disk.contents dp) name off ∧
      (entry (s.disk.contents dp) off).inum = i

def First (dp : ℕ) (name : List UInt8) (s : State P) (r : Option (ℕ × ℕ)) : Prop :=
  ∀ i off, r = some (i, off) → ∀ o, o < off → ¬ Names (s.disk.contents dp) name o

section
variable (hE : ninode ≤ s.used → E .noInodes) (hread : ReadsWhole E .dirlookupRead dp s)
    (h : s.Consistent)
include hE hread h

theorem dirlookupLoop_whole (hi : s.Locked dp) (fuel : ℕ) : ∀ off, off % direntBytes = 0 →
      (s.disk.dinode dp).size ≤ off + fuel →
      (∀ o < off, ¬ Names (s.disk.contents dp) name o) →
      wp (dirlookupLoop dp name fuel off) (fun r t => LookedUp dp name s r t ∧
        First dp name s r) E s := by
  have hlen := length_contents (h.cached dp hi).2
  have hend : ∀ off, (s.disk.dinode dp).size ≤ off →
      (∀ o < off, ¬ Names (s.disk.contents dp) name o) →
      ∀ o, ¬ Names (s.disk.contents dp) name o := by
    intro off hle hno o ho
    have h1 := ho.isEntry.2
    refine hno o ?_ ho
    rw [hlen, direntBytes] at h1
    omega
  induction fuel with
  | zero => exact fun off _ hle hno => ⟨⟨rfl, hend off hle hno⟩, nofun⟩
  | succ fuel ih =>
    intro off hoff hle hno
    unfold dirlookupLoop
    simp only [wp_bind, wp_get]
    rw [h.size_eq hi]
    split
    next hlt =>
      refine wp_seq (readDirent_whole h hi (hread.at hoff (hlen ▸ hlt))) ?_
      rintro de t ⟨rfl, rfl, hin⟩
      have hnext (hn : ¬ Names (t.disk.contents dp) name off) : wp
          (dirlookupLoop dp name fuel (off + direntBytes))
          (fun r u => LookedUp dp name t r u ∧ First dp name t r) E t := by
        refine ih (off + direntBytes) (by simp only [direntBytes] at *; omega)
          (by simp only [direntBytes] at *; omega) fun o ho hc => ?_
        by_cases hlo : o < off
        · exact hno o hlo hc
        have h1 := hc.isEntry.1
        have he : o = off := by
          simp only [direntBytes] at *
          omega
        exact hn (he ▸ hc)
      split
      next hz => exact hnext fun hc => hc.used hz
      next hz =>
        split
        next hn =>
          refine wp_seq (iget_got hE) (fun _ u hu => ?_)
          refine ⟨⟨hu, ⟨⟨hoff, hin⟩, hz, hn⟩, rfl⟩, ?_⟩
          rintro _ _ ⟨⟩
          exact hno
        next hn => exact hnext fun hc => hn hc.name
    next hlt => exact ⟨⟨rfl, hend off (Nat.le_of_not_lt hlt) hno⟩, nofun⟩

theorem dirlookup_whole (hi : s.Locked dp) (hdir : E .notDir ∨ (s.disk.dinode dp).type = .dir) :
    wp (dirlookup dp name) (fun r t => LookedUp dp name s r t ∧ First dp name s r) E s := by
  unfold dirlookup
  simp only [wp_bind, wp_get]
  split
  next hty =>
    rw [(h.cached dp hi).1] at hty
    exact hdir.resolve_right hty
  · rw [h.size_eq hi]
    exact dirlookupLoop_whole hE hread h hi _ 0 rfl (by omega)
      fun o ho => absurd ho (Nat.not_lt_zero o)

end

theorem dirlookup_spec (hE : Lenient E) (h : s.Consistent) (hi : s.Locked dp) :
    wp (dirlookup dp name) (LookedUp dp name s) E s :=
  wp_post (dirlookup_whole (fun _ => hE _ (by decide) (by decide) (by decide))
    (.inl (hE _ (by decide) (by decide) (by decide))) h hi
    (.inl (hE _ (by decide) (by decide) (by decide)))) (fun _ _ ht => ht.1)

/-- Where `dirlink` writes: the first entry that is not in use, or the end. -/
structure Vacant (bs : List UInt8) (off : ℕ) : Prop where
  aligned : off % direntBytes = 0
  empty : (off + direntBytes ≤ bs.length ∧ (entry bs off).inum = 0) ∨ off = bs.length

/-- The offset that `dirlink` finds; it is the end only if every entry is in use. -/
theorem emptyDirent_whole (hread : ReadsWhole E .dirlinkRead dp s) (h : s.Consistent)
    (hi : s.Locked dp) (fuel : ℕ) : ∀ off, off % direntBytes = 0 →
      off ≤ (s.disk.dinode dp).size → (s.disk.dinode dp).size ≤ off + fuel →
      (∀ o < off, IsEntry (s.disk.contents dp) o → (entry (s.disk.contents dp) o).inum ≠ 0) →
      wp (emptyDirent dp fuel off) (fun r t => t = s ∧ Vacant (s.disk.contents dp) r ∧
        (r = (s.disk.contents dp).length → ∀ o, IsEntry (s.disk.contents dp) o →
          (entry (s.disk.contents dp) o).inum ≠ 0)) E s := by
  have hlen := length_contents (h.cached dp hi).2
  have hend off (hoff : off = (s.disk.contents dp).length)
      (hall : ∀ o < off, IsEntry (s.disk.contents dp) o → (entry (s.disk.contents dp) o).inum ≠ 0) o
      (ho : IsEntry (s.disk.contents dp) o) : (entry (s.disk.contents dp) o).inum ≠ 0 := by
    have h1 := ho.2
    refine hall o ?_ ho
    simp only [direntBytes] at h1
    omega
  induction fuel with
  | zero =>
    intro off hoff hle hge hall
    exact ⟨rfl, ⟨hoff, .inr (by omega)⟩, fun hr => hend off hr hall⟩
  | succ fuel ih =>
    intro off hoff hle hge hall
    unfold emptyDirent
    simp only [wp_bind, wp_get]
    rw [h.size_eq hi]
    split
    next hlt =>
      refine wp_seq (readDirent_whole h hi (hread.at hoff (hlen ▸ hlt))) ?_
      rintro de t ⟨rfl, rfl, hin⟩
      split
      next hz => exact ⟨rfl, ⟨hoff, .inl ⟨hin, hz⟩⟩, fun hr => hend off hr hall⟩
      next hz =>
        rw [hlen] at hin
        refine ih (off + direntBytes) (by simp only [direntBytes] at *; omega) hin ?_ ?_
        · simp only [direntBytes]
          omega
        · intro o ho hent
          by_cases hlo : o < off
          · exact hall o hlo hent
          have h1 := hent.1
          have he : o = off := by
            simp only [direntBytes] at *
            omega
          rwa [he]
    next hlt =>
      exact ⟨rfl, ⟨hoff, .inr (by omega)⟩, fun hr => hend off hr hall⟩

/-- The loop of `writei` inside one block: it depends on whether `bmap` gets the block. -/
theorem writeLoop_block {i n : ℕ} {src : Src} (hpos : 0 < n) (hn : off % bsize + n ≤ bsize)
    (hsrc : ∀ k < n, (src k).isSome = true) :
    wp (writeLoop i src n off 0 n) (fun m _ => ∃ a t, bmap i (off / bsize) s = .ok (a, t) ∧
      m = if a = 0 then 0 else n) (fun _ => True) s := by
  have hmap : src.mapped 0 n = true := by
    unfold Src.mapped
    rw [List.all_eq_true]
    intro k hk
    rw [Nat.zero_add]
    exact hsrc k (List.mem_range.mp hk)
  obtain ⟨n, rfl⟩ : ∃ k, n = k + 1 := ⟨n - 1, by omega⟩
  have hm : min (n + 1 - 0) (bsize - off % bsize) = n + 1 := by omega
  unfold writeLoop
  rw [if_neg (by omega), wp_bind]
  refine wp_of_ok fun a t hb => ?_
  split
  next hz => exact ⟨a, t, hb, (if_pos hz).symm⟩
  next hz =>
    simp only [hm, wp_bind, wp_modify, hmap, if_true, wp_logWrite]
    split
    · cases n with
      | zero => exact ⟨a, t, hb, (if_neg hz).symm⟩
      | succ n =>
        simp only [writeLoop]
        rw [if_pos (by omega)]
        exact ⟨a, t, hb, by rw [if_neg hz, Nat.zero_add]⟩
    · trivial

/-- A write inside one block is done as a whole or not at all; it is done if it is not refused and
`bmap` gets the block. -/
theorem writei_block {i n : ℕ} {src : Src} (hpos : 0 < n) (hn : off % bsize + n ≤ bsize)
    (hsrc : ∀ k < n, (src k).isSome = true) :
    wp (writei i src off n) (fun r _ => (∀ m, r = some m → m = 0 ∨ m = n) ∧
      (r = some n ↔ off ≤ (s.inode i).din.size ∧ off + n < 2 ^ 32 ∧ off + n ≤ maxfile * bsize ∧
        ∃ a t, a ≠ 0 ∧ bmap i (off / bsize) s = .ok (a, t))) (fun _ => True) s := by
  unfold writei
  simp only [wp_bind, wp_get]
  split
  next hc => exact ⟨fun _ hr => (by cases hr), fun hr => (by cases hr), fun hok => by omega⟩
  next hc =>
    split
    next hmax => exact ⟨fun _ hr => (by cases hr), fun hr => (by cases hr), fun hok => by omega⟩
    next hmax =>
      refine wp_seq (writeLoop_block hpos hn hsrc) (fun m t hm => ?_)
      obtain ⟨a, w, hb, rfl⟩ := hm
      -- what follows the loop does not change the result
      refine wp_seq (wp_trivial _) (fun _ u _ => ?_)
      refine wp_seq (wp_trivial _) (fun _ v _ => ?_)
      by_cases ha : a = 0
      · rw [if_pos ha]
        refine ⟨fun m hm => .inl (by cases hm; rfl), fun hc => ?_, ?_⟩
        · cases hc
          omega
        · rintro ⟨_, _, _, a', w', ha', hb'⟩
          rw [hb] at hb'
          cases hb'
          exact absurd ha ha'
      · rw [if_neg ha]
        exact ⟨fun m hm => .inr (by cases hm; rfl),
          fun _ => ⟨by omega, by omega, by omega, a, w, ha, hb⟩, fun _ => rfl⟩

theorem overwrite_nil {a : List UInt8} (h : off ≤ a.length) : overwrite a off [] = a := by
  unfold overwrite
  apply List.ext_getElem
  · simp [h]
  · intro k hk hk'
    simp [hk']

theorem src_take_bytes (h : e.name.length = dirsiz) : e.src.take direntBytes = e.bytes := by
  have hlen : e.bytes.length = direntBytes := by simp [Dirent.bytes, h]
  unfold Src.take Dirent.src
  apply List.ext_getElem
  · simp [hlen]
  · intro k hk hk'
    simp [hk']

structure Entered (dp off : ℕ) (e : Dirent) (s t : State P) : Prop where
  holding : Holding 0 s t
  info : t.disk.info = Function.update s.disk.info dp
    (some (.of (s.disk.dinode dp) (overwrite (s.disk.contents dp) off e.bytes)))

theorem writei_entry (hE : Logs E s) (h : s.Consistent) (hi : s.Locked dp)
    (hoff : off % direntBytes = 0) (he : e.name.length = dirsiz) :
    wp (writei dp e.src off direntBytes) (fun r t =>
      (if r = some direntBytes then Entered dp off e s t
        else Holding 0 s t ∧ t.disk.info = s.disk.info) ∧
      (r = some direntBytes ↔ off ≤ (s.disk.dinode dp).size ∧ off + direntBytes < 2 ^ 32 ∧
        off + direntBytes ≤ maxfile * bsize ∧
        ∃ a t, a ≠ 0 ∧ bmap dp (off / bsize) s = .ok (a, t))) E s := by
  have ha := (h.cached dp hi).2
  have hlen : e.bytes.length = direntBytes := by simp [Dirent.bytes, he]
  have hmap : ∀ k < direntBytes, (e.src k).isSome = true := by
    intro k hk
    simp [Dirent.src, hlen, hk]
  -- past the entry the source does not matter
  have hall : ∀ k < direntBytes, e.src k = some ((e.src k).getD 0) := by
    intro k hk
    obtain ⟨b, hb⟩ := Option.isSome_iff_exists.mp (hmap k hk)
    rw [hb, Option.getD_some]
  have htake : Src.take (fun k => some ((e.src k).getD 0)) direntBytes = e.bytes := by
    rw [← src_take_bytes he]
    rfl
  rw [writei_congr hall]
  refine wp_post (wp_and (writei_spec hE h hi off direntBytes)
    (writei_block (s := s) (by decide) ?_ fun _ _ => rfl)) ?_
  · simp only [direntBytes, bsize] at *
    omega
  · rintro r t ⟨hw, hwhole, hiff⟩
    rw [h.size_eq hi] at hiff
    refine ⟨?_, hiff⟩
    have hhold := hw.holding hi
    split
    next hr =>
      subst hr
      refine ⟨hhold, ?_⟩
      rw [hw.info h hi fun _ => rfl, htake]
    next hr =>
      refine ⟨hhold, ?_⟩
      cases r with
      | none => rw [hw.fail rfl]
      | some m =>
        obtain rfl := (hwhole m rfl).resolve_right fun hm => hr (by rw [hm])
        rw [hw.info h hi fun _ => rfl]
        have hnil : Src.take (fun k => some ((e.src k).getD 0)) 0 = [] := rfl
        rw [hnil, overwrite_nil (by rw [length_contents ha]; exact (hw.size 0 rfl).1),
          ← info_of_allocated ha, Function.update_eq_self]

structure Linked (dp : ℕ) (name : List UInt8) (inum : ℕ) (s : State P) (r : Bool) (t : State P) :
    Prop where
  holding : Holding 0 s t
  fail : r = false → t.disk.info = s.disk.info
  ok : r = true → (∀ off, ¬ Names (s.disk.contents dp) name off) ∧
    ∃ off, Vacant (s.disk.contents dp) off ∧ Entered dp off ⟨inum, strncpy dirsiz name⟩ s t

theorem length_strncpy (n : ℕ) (t : List UInt8) : (strncpy n t).length = n := by
  simp [strncpy]

/-- There is an entry that is not in use, or the directory can grow: it has not its largest size,
and `bmap` gets a block for the next entry. -/
def EntryRoom (dp : ℕ) (s : State P) : Prop :=
  (∃ o, IsEntry (s.disk.contents dp) o ∧ (entry (s.disk.contents dp) o).inum = 0) ∨
  ((s.disk.contents dp).length < maxfile * bsize ∧
    ∃ a t, a ≠ 0 ∧ bmap dp ((s.disk.contents dp).length / bsize) s = .ok (a, t))

theorem writable_of_entry (h : s.Consistent) (hi : s.Locked dp)
    (hin : off + direntBytes ≤ (s.disk.contents dp).length) :
    off ≤ (s.disk.dinode dp).size ∧ off + direntBytes < 2 ^ 32 ∧
      off + direntBytes ≤ maxfile * bsize ∧
      ∃ a t, a ≠ 0 ∧ bmap dp (off / bsize) s = .ok (a, t) := by
  have ha := (h.cached dp hi).2
  have hmax := length_contents_le h hi
  have hflush := h.flushed_eq hi
  have hlt : off < (s.disk.dinode dp).size := by
    rw [length_contents ha] at hin
    simp only [direntBytes] at hin
    omega
  have hslot := h.slot_ne_zero hi off hlt
  obtain ⟨a, _, hrun, rfl, rfl⟩ := wp_total (bmap_of_slot (E := fun _ => False)
    (hflush ▸ ha) (hflush ▸ hslot))
  refine ⟨hlt.le, (hin.trans hmax).trans_lt (by decide), hin.trans hmax, _, _, ?_, hrun⟩
  rwa [hflush]

/-- Whether the entry can be written at the offset that `emptyDirent` finds. -/
theorem room_iff (h : s.Consistent) (hi : s.Locked dp) (hvac : Vacant (s.disk.contents dp) off)
    (hall : off = (s.disk.contents dp).length → ∀ o, IsEntry (s.disk.contents dp) o →
      (entry (s.disk.contents dp) o).inum ≠ 0) :
    (off ≤ (s.disk.dinode dp).size ∧ off + direntBytes < 2 ^ 32 ∧
      off + direntBytes ≤ maxfile * bsize ∧
      ∃ a t, a ≠ 0 ∧ bmap dp (off / bsize) s = .ok (a, t)) ↔ EntryRoom dp s := by
  have hlen := length_contents (h.cached dp hi).2
  have hmax := length_contents_le h hi
  by_cases hend : off = (s.disk.contents dp).length
  · have hal := hvac.aligned
    constructor
    · rintro ⟨_, _, hle, hb⟩
      rw [← hend] at hmax
      refine .inr ⟨?_, hend ▸ hb⟩
      simp only [direntBytes] at hle
      omega
    · rintro (⟨o, ho, hz⟩ | ⟨hlt, hb⟩)
      · exact absurd hz (hall hend o ho)
      · rw [← hend] at hlt hb
        simp only [direntBytes, bsize, maxfile, ndirect, nindirect] at hal hlt ⊢
        exact ⟨by omega, by omega, by omega, hb⟩
  · obtain ⟨hin, hz⟩ := hvac.empty.resolve_right hend
    exact ⟨fun _ => .inl ⟨off, ⟨hvac.aligned, hin⟩, hz⟩, fun _ => writable_of_entry h hi hin⟩

/-- `dirlink` succeeds just if the name is not there and there is room. -/
theorem dirlink_whole (hE : ninode ≤ s.used → E .noInodes) (hlog : Logs E s)
    (hlook : ReadsWhole E .dirlookupRead dp s) (hread : ReadsWhole E .dirlinkRead dp s)
    (h : s.Consistent) (hi : s.Locked dp) (hdir : E .notDir ∨ (s.disk.dinode dp).type = .dir)
    (inum : ℕ) : wp (dirlink dp name inum) (fun r t => Linked dp name inum s r t ∧
      (r = true ↔ (∀ off, ¬ Names (s.disk.contents dp) name off) ∧ EntryRoom dp s)) E s := by
  unfold dirlink
  refine wp_seq (dirlookup_whole hE hlook h hi hdir) (fun r t hr => ?_)
  replace hr := hr.1
  cases r with
  | some x =>
    obtain ⟨i, off⟩ := x
    obtain ⟨hgot, hnames, _⟩ := hr
    have hhold : Holding (0 + one i) s t := (hgot.holding h).congr (zero_add _)
    refine wp_seq (iput_held (hlog.congr hgot.inOp) hhold) (fun _ u hu => ?_)
    obtain ⟨hput, hu⟩ := hu
    refine ⟨⟨hu, fun _ => ?_, fun hc => by cases hc⟩, nofun, fun hc => absurd hnames (hc.1 off)⟩
    -- the entry in the table is as it was, so the inode is not freed
    rw [hput.keep, hgot.disk]
    rintro ⟨href, hl, _⟩
    have hpos := ((hgot.locked_iff i).mp hl).1
    have hone := hgot.ref
    omega
  | none =>
    obtain ⟨ht, hno⟩ := hr
    subst ht
    simp only [wp_bind, wp_get]
    rw [h.size_eq hi]
    refine wp_post (emptyDirent_whole hread h hi _ 0 rfl (Nat.zero_le _) (by omega)
      fun o ho => absurd ho (Nat.not_lt_zero o)) ?_
    rintro off u ⟨rfl, hvac, hall⟩
    have hroom := room_iff h hi hvac hall
    refine wp_post (writei_entry hlog h hi hvac.aligned (length_strncpy _ _)) ?_
    rintro r v ⟨hv, hiff⟩
    have hok := hiff.trans hroom
    rw [wp_pure]
    refine ⟨?_, fun hr => ⟨hno, hok.mp (of_decide_eq_true hr)⟩,
      fun hr => decide_eq_true (hok.mpr hr.2)⟩
    split at hv
    next hr =>
      refine ⟨hv.holding, fun hc => ?_, fun _ => ⟨hno, off, hvac, hv⟩⟩
      simp [hr] at hc
    next hr =>
      refine ⟨hv.1, fun _ => hv.2, fun hc => ?_⟩
      simp [hr] at hc

theorem dirlink_spec (hE : Lenient E) (h : s.Consistent) (hi : s.Locked dp) (inum : ℕ) :
    wp (dirlink dp name inum) (Linked dp name inum s) E s := by
  have herr : ∀ e ≠ .freeingFreeBlock, e ≠ .noType → e ≠ .unlinkNlink → E e := hE
  refine wp_post (dirlink_whole (fun _ => herr _ (by decide) (by decide) (by decide)) (hE.logs s)
    (.inl (herr _ (by decide) (by decide) (by decide)))
    (.inl (herr _ (by decide) (by decide) (by decide))) h hi
    (.inl (herr _ (by decide) (by decide) (by decide))) inum) (fun _ _ ht => ht.1)

def Info.enter (x : Info) (off : ℕ) (e : Dirent) : Info :=
  { x with bytes := overwrite x.bytes off e.bytes }

theorem Entered.view {x : Info} (h : Entered dp off e s t) (hx : s.disk.info dp = some x) :
    t.disk.info = Function.update s.disk.info dp (some (x.enter off e)) := by
  obtain ⟨_, rfl⟩ := info_eq_some.mp hx
  exact h.info

theorem Linked.view {inum : ℕ} {x : Info} (h : Linked dp name inum s true t)
    (hx : s.disk.info dp = some x) : (∀ off, ¬ Names x.bytes name off) ∧ ∃ off, Vacant x.bytes off ∧
      t.disk.info = Function.update s.disk.info dp
        (some (x.enter off ⟨inum, strncpy dirsiz name⟩)) := by
  obtain ⟨hno, off, hvac, hent⟩ := h.ok rfl
  obtain ⟨_, rfl⟩ := info_eq_some.mp hx
  exact ⟨hno, off, hvac, hent.info⟩

end Xv6.Fs
