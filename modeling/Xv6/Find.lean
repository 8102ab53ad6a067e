import Xv6.Params
import Xv6.Ulib

/-! The program `find`. What a directory contains, and which calls fail, is given by a tree; of the
descriptor table only the number of open descriptors matters. -/
namespace Xv6.Find
open Ulib List

/-- `strcmp`, which looks at no more than `n` bytes of each string. -/
def strcmp : ℕ → Mem → Mem → Option ℤ
  | 0, _, _ => none
  | n + 1, p, q =>
    if p 0 ≠ 0 ∧ p 0 = q 0 then strcmp n (fun k => p (k + 1)) (fun k => q (k + 1))
    else some ((p 0).toNat - (q 0).toNat)

/-- The memory at a pointer to the string `l`. -/
def asMem (l : List UInt8) : Mem := fun k => l.getD k 0

/-- `de.name` in memory: the name, padded with NULs to `DIRSIZ` bytes, and what comes after it. -/
def field (name : List UInt8) (after : Mem) : Mem :=
  fun k => if k < dirsiz then name.getD k 0 else after (k - dirsiz)

/-- `nameComparison`, where one of the strings has `n` characters. -/
def nameComparison (n : ℕ) (name1 name2 : Mem) : Bool :=
  decide (strcmp (n + 1) name1 name2 = some 0)

def isDots (de : Mem) : Bool :=
  nameComparison 1 de (asMem [46]) || nameComparison 2 de (asMem [46, 46])

theorem strcmp_spec (n : ℕ) : ∀ p q : Mem, (∀ k < n, p k ≠ 0 ∨ q k ≠ 0) → (p n = 0 ∨ q n = 0) →
    ∃ r, strcmp (n + 1) p q = some r ∧ (r = 0 ↔ ∀ k ≤ n, p k = q k) := by
  have hstop : ∀ p q : Mem, ((p 0).toNat - (q 0).toNat : ℤ) = 0 ↔ p 0 = q 0 := by
    intro p q
    rw [sub_eq_zero, Nat.cast_inj, UInt8.toNat_inj]
  induction n with
  | zero =>
    intro p q _ hend
    have hnot : ¬ (p 0 ≠ 0 ∧ p 0 = q 0) := fun h => hend.elim h.1 fun hq => h.1 (h.2.trans hq)
    refine ⟨_, if_neg hnot, ?_⟩
    rw [hstop]
    exact ⟨fun h k hk => by rwa [Nat.le_zero.mp hk], fun h => h 0 le_rfl⟩
  | succ n ih =>
    intro p q hne hend
    by_cases hgo : p 0 ≠ 0 ∧ p 0 = q 0
    · obtain ⟨r, hr, hiff⟩ := ih (fun k => p (k + 1)) (fun k => q (k + 1))
        (fun k hk => hne (k + 1) (by omega)) hend
      refine ⟨r, (if_pos hgo).trans hr, hiff.trans ⟨fun h k hk => ?_, fun h k hk => ?_⟩⟩
      · cases k with
        | zero => exact hgo.2
        | succ k => exact h k (by omega)
      · exact h (k + 1) (by omega)
    · refine ⟨_, if_neg hgo, ?_⟩
      have hdiff : p 0 ≠ q 0 := by
        intro h
        rcases hne 0 (by omega) with h0 | h0
        · exact hgo ⟨h0, h⟩
        · exact hgo ⟨h ▸ h0, h⟩
      rw [hstop]
      exact ⟨fun h => absurd h hdiff, fun h => absurd (h 0 (by omega)) hdiff⟩

structure NameOk (m : ℕ) (name : List UInt8) : Prop where
  pos : 0 < name.length
  le : name.length ≤ m
  nul : ∀ x ∈ name, x ≠ 0

private theorem getD_ne_zero {l : List UInt8} (h : ∀ x ∈ l, x ≠ 0) {k : ℕ} (hk : k < l.length) :
    l.getD k 0 ≠ 0 := by
  rw [getD_eq_getElem _ _ hk]
  exact h _ (getElem_mem hk)

private theorem getD_length_le {l : List UInt8} {k : ℕ} (hk : l.length ≤ k) : l.getD k 0 = 0 :=
  getD_eq_default _ _ hk

/-- The bytes of the string `l` stand at the field: it is the name, or it goes on behind a name of
`DIRSIZ` bytes as the memory after the field does. -/
private theorem field_eq_iff {name l : List UInt8} {after : Mem} (hn : NameOk dirsiz name)
    (hl : ∀ x ∈ l, x ≠ 0) : (∀ k ≤ l.length, field name after k = asMem l k) ↔
      name.length < dirsiz ∧ name = l ∨ name.length = dirsiz ∧
        ∃ rest, l = name ++ rest ∧ ∀ k ≤ rest.length, after k = asMem rest k := by
  have hle := hn.le
  constructor
  · intro h
    -- the string cannot end inside the name
    have hlen : name.length ≤ l.length := by
      by_contra hgt
      have hk := h l.length le_rfl
      rw [field, if_pos (by omega), asMem, getD_length_le le_rfl] at hk
      exact getD_ne_zero hn.nul (by omega) hk
    have htake : l.take name.length = name := by
      apply ext_getElem (by simp [hlen])
      intro k hk hkn
      have hk' := h k (by omega)
      rw [field, if_pos (by omega), asMem, getD_eq_getElem _ _ hkn,
        getD_eq_getElem _ _ (by omega)] at hk'
      rw [getElem_take, hk']
    rcases hle.lt_or_eq with hlt | heq
    · refine .inl ⟨hlt, ?_⟩
      have hk := h name.length hlen
      rw [field, if_pos hlt, getD_length_le le_rfl] at hk
      have hge : l.length ≤ name.length := by
        by_contra hgt
        exact getD_ne_zero hl (by omega) hk.symm
      rw [← htake, take_of_length_le hge]
    · refine .inr ⟨heq, l.drop name.length, ?_, fun k hk => ?_⟩
      · conv_rhs => rw [← htake]
        simp [hlen]
      · rw [length_drop] at hk
        have hk' := h (dirsiz + k) (by omega)
        rw [field, if_neg (by omega), Nat.add_sub_cancel_left] at hk'
        rw [hk', asMem, asMem, heq, getD_eq_getElem?_getD, getD_eq_getElem?_getD, getElem?_drop]
  · rintro (⟨hlt, rfl⟩ | ⟨heq, rest, rfl, hrest⟩) k hk
    · rw [field, if_pos (by omega)]
      rfl
    · rw [length_append] at hk
      unfold field
      split
      · rw [asMem, getD_append _ _ _ _ (by omega)]
      · rw [asMem, getD_append_right _ _ _ _ (by omega), heq]
        exact hrest _ (by omega)

theorem nameComparison_iff {n : ℕ} {p q : Mem} (hne : ∀ k < n, p k ≠ 0 ∨ q k ≠ 0)
    (hend : p n = 0 ∨ q n = 0) : nameComparison n p q = true ↔ ∀ k ≤ n, p k = q k := by
  obtain ⟨r, hr, hiff⟩ := strcmp_spec n p q hne hend
  rw [nameComparison, hr, decide_eq_true_eq, Option.some.injEq]
  exact hiff

theorem matches_iff {name fileName : List UInt8} (after : Mem) (hn : NameOk dirsiz name)
    (hf : ∀ x ∈ fileName, x ≠ 0) :
    nameComparison fileName.length (asMem fileName) (field name after) = true ↔
      name.length < dirsiz ∧ name = fileName ∨ name.length = dirsiz ∧
        ∃ rest, fileName = name ++ rest ∧ ∀ k ≤ rest.length, after k = asMem rest k := by
  rw [nameComparison_iff (p := asMem fileName) (fun k hk => .inl (getD_ne_zero hf hk))
    (.inl (getD_length_le le_rfl)), ← field_eq_iff hn hf]
  exact forall₂_congr fun _ _ => eq_comm

theorem isDots_iff {name : List UInt8} {after : Mem} (hn : NameOk dirsiz name) :
    isDots (field name after) = true ↔ name = [46] ∨ name = [46, 46] := by
  have hone (l : List UInt8) (hl : ∀ x ∈ l, x ≠ 0) (hlen : l.length < dirsiz) :
      (nameComparison l.length (field name after) (asMem l) = true ↔ name = l) := by
    rw [nameComparison_iff (q := asMem l) (fun k hk => .inr (getD_ne_zero hl hk))
      (.inr (getD_length_le le_rfl)), field_eq_iff hn hl]
    constructor
    · rintro (h | ⟨heq, rest, rfl, -⟩)
      · exact h.2
      · rw [length_append] at hlen
        omega
    · rintro rfl
      exact .inl ⟨hlen, rfl⟩
  rw [isDots, Bool.or_eq_true]
  exact or_congr (hone [46] (by simp) (by decide)) (hone [46, 46] (by simp) (by decide))

/-- The name has `DIRSIZ` bytes, `fileName` begins with them, and the memory after the field ends
the string where `fileName` goes on, or goes on where it ends. -/
def Misread (name fileName : List UInt8) (after : Mem) : Prop :=
  name.length = dirsiz ∧ ∃ rest, fileName = name ++ rest ∧
    ((∀ k ≤ rest.length, after k = asMem rest k) ↔ rest ≠ [])

/-- Names are compared exactly, unless the bytes after a name of `DIRSIZ` bytes decide wrongly. -/
theorem name_comparison_exact (name fileName : List UInt8) (after : Mem) (hn : NameOk dirsiz name)
    (hf : ∀ x ∈ fileName, x ≠ 0) :
    ((nameComparison fileName.length (asMem fileName) (field name after) = true ↔ name = fileName) ↔
      ¬ Misread name fileName after) ∧
    (isDots (field name after) = true ↔ name = [46] ∨ name = [46, 46]) := by
  refine ⟨?_, isDots_iff hn⟩
  rw [matches_iff after hn hf, Misread]
  rcases hn.le.lt_or_eq with hlt | heq
  · simp [hlt, hlt.ne]
  by_cases hpre : ∃ rest, fileName = name ++ rest
  · obtain ⟨rest, rfl⟩ := hpre
    simp only [heq, lt_self_iff_false, false_and, false_or, true_and, append_cancel_left_eq,
      exists_eq_left', self_eq_append_right]
    tauto
  · have hne : name ≠ fileName := fun h => hpre ⟨[], by simp [h]⟩
    have hno : ∀ q : List UInt8 → Prop, ¬ ∃ rest, fileName = name ++ rest ∧ q rest :=
      fun q ⟨rest, h, _⟩ => hpre ⟨rest, h⟩
    simp [heq, hne, hno]

def longName : List UInt8 := List.replicate 14 97

private theorem nameOk_longName : NameOk dirsiz longName :=
  ⟨by decide, by decide, by simp [longName]⟩

theorem name_comparison_exact_long :
    (nameComparison 14 (asMem longName) (field longName fun _ => 0) = true ↔ longName = longName) ∧
      ¬ Misread longName longName (fun _ => 0) ∧ Misread longName longName (fun _ => 1) := by
  have hzero := name_comparison_exact longName longName (fun _ => 0) nameOk_longName
    (by simp [longName])
  have hcmp : nameComparison 14 (asMem longName) (field longName fun _ => 0) = true := by
    decide +kernel
  exact ⟨iff_of_true hcmp rfl, hzero.1.mp (iff_of_true hcmp rfl), rfl, [], rfl,
    by simp [asMem]⟩

/-- A name of `DIRSIZ` bytes is compared with the bytes after it as well. -/
theorem long_name_not_found : NameOk dirsiz longName ∧
    nameComparison 14 (asMem longName) (field longName fun _ => 1) = false :=
  ⟨nameOk_longName, by decide +kernel⟩

/-- An entry of a directory, and which calls on its path succeed when there is a descriptor. -/
structure Entry where
  name : List UInt8
  isDir : Bool
  stats : Bool
  opens : Bool
  fstats : Bool

/-- The entries of a directory; `sub` is what is in the entry's directory. Where the entries `.` and
`..` lead to does not matter. -/
inductive Entries where
  | nil
  | free (rest : Entries)
  | entry (e : Entry) (sub rest : Entries)

/-- What `find` prints, and which directories it reads; `refused` is a call for which there was no
descriptor. -/
inductive Out where
  | found (path : List UInt8)
  | reading (path : List UInt8)
  | cannotStat (path : List UInt8)
  | cannotOpen
  | cannotFstat
  | tooLong
  | refused
  deriving DecidableEq

structure Result where
  out : List Out
  used : ℕ
  deriving DecidableEq

abbrev bufsize : ℕ := 512

def refusals (used : ℕ) : List Out := if nofile ≤ used then [.refused] else []

/-- `find` on a directory, up to the loop over its entries. The descriptor is not closed when the
path is too long. -/
def findDir (junk : Mem) (opens fstats : Bool) (loop : Mem → ℕ → ℕ → Except Fault Result)
    (currentDir : List UInt8) (used : ℕ) : Except Fault Result :=
  if nofile ≤ used ∨ opens = false then .ok ⟨refusals used ++ [.cannotOpen], used⟩
  else if fstats = false then .ok ⟨[.cannotFstat], used⟩
  else if bufsize < currentDir.length + 1 + dirsiz + 1 then .ok ⟨[.tooLong], used + 1⟩
  else do
    let r ← loop (fill junk 0 (currentDir ++ [47])) (currentDir.length + 1) (used + 1)
    .ok ⟨.reading currentDir :: r.out, r.used - 1⟩

def putName (buf : Mem) (p : ℕ) (de : Mem) : Mem :=
  Function.update (fill buf p (bytes de 0 dirsiz)) (p + dirsiz) 0

def findLoop (fileName : List UInt8) (after junk : Mem) :
    Entries → Mem → ℕ → ℕ → Except Fault Result
  | .nil, _, _, used => .ok ⟨[], used⟩
  | .free rest, buf, p, used => findLoop fileName after junk rest buf p used
  | .entry e sub rest, buf, p, used =>
    let de := field e.name after
    if isDots de then findLoop fileName after junk rest buf p used
    else do
      let buf := putName buf p de
      let path ← string buf bufsize 0
      if nofile ≤ used ∨ e.stats = false then
        let r ← findLoop fileName after junk rest buf p used
        .ok ⟨refusals used ++ .cannotStat path :: r.out, r.used⟩
      else
        let found :=
          if nameComparison fileName.length (asMem fileName) de then [.found path] else []
        let inner ← (if e.isDir then
          findDir junk e.opens e.fstats (findLoop fileName after junk sub) path used
          else .ok ⟨[], used⟩)
        let r ← findLoop fileName after junk rest buf p inner.used
        .ok ⟨found ++ inner.out ++ r.out, r.used⟩

def find (fileName : List UInt8) (after junk : Mem) (opens fstats : Bool) (es : Entries)
    (dir : List UInt8) (used : ℕ) : Except Fault Result :=
  findDir junk opens fstats (findLoop fileName after junk es) dir used

def dots (name : List UInt8) : Bool := decide (name = [46] ∨ name = [46, 46])

/-- The names are at most `m` bytes long, and the paths of the directories at most `L`; `n` is the
length of the path of this one. -/
def Wf (m L : ℕ) : Entries → ℕ → Prop
  | .nil, _ => True
  | .free rest, n => Wf m L rest n
  | .entry e sub rest, n => NameOk m e.name ∧
      (dots e.name = false → e.isDir = true →
        n + 1 + e.name.length ≤ L ∧ Wf m L sub (n + 1 + e.name.length)) ∧ Wf m L rest n

/-- An entry with its path; `reached` says that its `stat` succeeds, and every call on the
directories above it. -/
structure Visit where
  path : List UInt8
  name : List UInt8
  reached : Bool

/-- All the entries below a directory, in depth-first order. -/
def walk : Entries → List UInt8 → Bool → ℕ → List Visit
  | .nil, _, _, _ => []
  | .free rest, dir, ok, used => walk rest dir ok used
  | .entry e sub rest, dir, ok, used =>
    (if dots e.name then []
     else
      let ok := ok && e.stats && decide (used < nofile)
      ⟨dir ++ 47 :: e.name, e.name, ok⟩ ::
        if e.isDir then walk sub (dir ++ 47 :: e.name) (ok && e.opens && e.fstats) (used + 1)
        else []) ++ walk rest dir ok used

def matching (fileName : List UInt8) (vs : List Visit) : List (List UInt8) :=
  (vs.filter fun v => v.reached && decide (v.name = fileName)).map Visit.path

/-- The directory can be entered, as far as the calls on it go. -/
def Entry.enters (e : Entry) : Bool := e.isDir && e.stats && e.opens && e.fstats

/-- The directories below a directory, except those where a call fails. -/
def dirs : Entries → List UInt8 → List (List UInt8)
  | .nil, _ => []
  | .free rest, dir => dirs rest dir
  | .entry e sub rest, dir =>
    (if !dots e.name && e.enters then
      (dir ++ 47 :: e.name) :: dirs sub (dir ++ 47 :: e.name) else []) ++ dirs rest dir

/-- The entries below directories that can be entered are at most `n` levels deep. -/
def Within : ℕ → Entries → Prop
  | _, .nil => True
  | n, .free rest => Within n rest
  | n, .entry e sub rest =>
    (dots e.name = false → 0 < n ∧ (e.enters = true → Within (n - 1) sub)) ∧ Within n rest

def founds (out : List Out) : List (List UInt8) :=
  out.filterMap fun o => match o with | .found path => some path | _ => none

def readings (out : List Out) : List (List UInt8) :=
  out.filterMap fun o => match o with | .reading path => some path | _ => none

theorem matching_append (fileName : List UInt8) (vs vs' : List Visit) :
    matching fileName (vs ++ vs') = matching fileName vs ++ matching fileName vs' := by
  rw [matching, filter_append, map_append, matching, matching]

private theorem matching_walk_false (fileName : List UInt8) (es : Entries) : ∀ dir used,
    matching fileName (walk es dir false used) = [] := by
  induction es with
  | nil => exact fun _ _ => rfl
  | free rest ih => exact ih
  | entry e sub rest ihs ihr =>
    intro dir used
    rw [walk, matching_append, ihr, append_nil]
    split
    · rfl
    · simp only [Bool.false_and]
      split
      · exact ihs _ _
      · rfl

theorem founds_append (a b : List Out) : founds (a ++ b) = founds a ++ founds b :=
  filterMap_append

theorem readings_append (a b : List Out) : readings (a ++ b) = readings a ++ readings b :=
  filterMap_append

theorem refusals_of_lt {used : ℕ} (h : used < nofile) : refusals used = [] :=
  if_neg (Nat.not_le.mpr h)

private theorem founds_refusals (used : ℕ) : founds (refusals used) = [] := by
  unfold refusals
  split <;> rfl

/-- The buffer holds the path of the entry, and the prefix is not touched. -/
theorem putName_spec {buf : Mem} {pre name : List UInt8} (after : Mem) (hpre : Holds buf 0 pre)
    (hroom : pre.length + dirsiz < bufsize) (hnul : ∀ x ∈ pre, x ≠ 0) (hn : NameOk dirsiz name) :
    Holds (putName buf pre.length (field name after)) 0 pre ∧
      string (putName buf pre.length (field name after)) bufsize 0 = .ok (pre ++ name) := by
  have hle := hn.le
  have hde : ∀ k < dirsiz, putName buf pre.length (field name after) (pre.length + k) =
      name.getD k 0 := by
    intro k hk
    rw [putName, Function.update_of_ne (by omega), fill, if_pos (by rw [length_bytes]; omega),
      Nat.add_sub_cancel_left, getD_eq_getElem _ _ (by rwa [length_bytes])]
    simp only [bytes, getElem_map, getElem_range, Nat.zero_add, field, if_pos hk]
  have hkeep : Holds (putName buf pre.length (field name after)) 0 pre := by
    refine hpre.congr fun k _ hk => ?_
    rw [putName, Function.update_of_ne (by omega), fill, if_neg (by omega)]
  refine ⟨hkeep, string_eq (by rw [length_append]; omega) ?_ ?_ ?_⟩
  · refine holds_append.mpr ⟨hkeep, ?_⟩
    rw [Nat.zero_add, Holds, bytes]
    apply ext_getElem
    · rw [length_map, length_range]
    · intro k hk hkn
      rw [getElem_map, getElem_range, hde k (by omega), getD_eq_getElem _ _ hkn]
  · rw [Nat.zero_add, length_append]
    rcases Nat.lt_or_eq_of_le hle with hlt | heq
    · rw [hde _ hlt, getD_length_le le_rfl]
    · rw [heq, putName, Function.update_self]
  · intro x hx
    exact (mem_append.mp hx).elim (hnul x) (hn.nul x)

structure Walked (m : ℕ) (fileName : List UInt8) (es : Entries) (dir : List UInt8) (used : ℕ)
    (r : Result) : Prop where
  kept : r.used = used
  found : m < dirsiz → founds r.out = matching fileName (walk es dir true used)
  within : Out.refused ∉ r.out ↔ Within (nofile - used) es
  whole : Out.refused ∉ r.out → readings r.out = dirs es dir

section
variable {m L : ℕ} {fileName dir : List UInt8} {es : Entries}
  {loop : Mem → ℕ → ℕ → Except Fault Result}

def LoopOk (m : ℕ) (fileName : List UInt8) (es : Entries) (dir : List UInt8)
    (loop : Mem → ℕ → ℕ → Except Fault Result) : Prop :=
  ∀ buf used, Holds buf 0 (dir ++ [47]) →
    ∃ r, loop buf (dir.length + 1) used = .ok r ∧ Walked m fileName es dir used r

theorem findDir_spec (junk : Mem) (opens fstats : Bool) (used : ℕ)
    (hloop : LoopOk m fileName es dir loop) (hlen : dir.length + 1 + dirsiz + 1 ≤ bufsize) :
    ∃ r, findDir junk opens fstats loop dir used = .ok r ∧ r.used = used ∧
      (m < dirsiz → founds r.out =
        matching fileName (walk es dir (opens && fstats && decide (used < nofile)) (used + 1))) ∧
      (Out.refused ∉ r.out ↔ used < nofile ∧
        ((opens && fstats) = true → Within (nofile - (used + 1)) es)) ∧
      (Out.refused ∉ r.out →
        readings r.out = if opens && fstats then dir :: dirs es dir else []) := by
  unfold findDir
  by_cases ho : nofile ≤ used ∨ opens = false
  · rw [if_pos ho]
    refine ⟨_, rfl, rfl, fun _ => ?_, ?_, ?_⟩
    · have hcut : (opens && fstats && decide (used < nofile)) = false := by
        rcases ho with h | h
        · simp [Nat.not_lt.mpr h]
        · simp [h]
      rw [hcut, matching_walk_false, founds_append, founds_refusals]
      rfl
    · rcases ho with h | h
      · simp [refusals, h, Nat.not_lt.mpr h]
      · by_cases hu : nofile ≤ used <;> simp [refusals, hu, h, Nat.lt_of_not_le]
    · intro hno
      rcases ho with h | h
      · simp [refusals, h] at hno
      · rw [h]
        unfold refusals
        split <;> rfl
  rw [if_neg ho]
  obtain ⟨hused, hopens⟩ : used < nofile ∧ opens = true := by
    simpa [not_or] using ho
  cases fstats with
  | false =>
    refine ⟨_, rfl, rfl, fun _ => ?_, by simp [hused], fun _ => by simp [readings]⟩
    rw [hopens, Bool.and_false, Bool.false_and, matching_walk_false]
    rfl
  | true =>
    have hstart : Holds (fill junk 0 (dir ++ [47])) 0 (dir ++ [47]) :=
      holds_fill (holds_nil junk 0) (dir ++ [47])
    obtain ⟨r, hr, hw⟩ := hloop _ (used + 1) hstart
    rw [if_neg (by decide), if_neg (by omega), hr]
    refine ⟨_, rfl, by rw [hw.kept]; rfl, fun hm => ?_, ?_, fun hno => ?_⟩
    · rw [hopens, decide_eq_true hused]
      exact hw.found hm
    · simpa [hopens, hused] using hw.within
    · rw [hopens, ← hw.whole (by simpa using hno)]
      rfl

theorem findLoop_spec (after junk : Mem) (hm : m ≤ dirsiz) (hL : L + 1 + dirsiz + 1 ≤ bufsize)
    (hf : ∀ x ∈ fileName, x ≠ 0) (es : Entries) : ∀ dir, (∀ x ∈ dir, x ≠ 0) → dir.length ≤ L →
    Wf m L es dir.length → LoopOk m fileName es dir (findLoop fileName after junk es) := by
  induction es with
  | nil =>
    intro dir _ _ _ buf used _
    exact ⟨_, rfl, rfl, fun _ => rfl, by simp [Within], fun _ => rfl⟩
  | free rest ih =>
    intro dir hnul hlen hwf buf used hbuf
    obtain ⟨r, hr, hw⟩ := ih dir hnul hlen hwf buf used hbuf
    exact ⟨r, hr, hw.kept, hw.found, hw.within, hw.whole⟩
  | entry e sub rest ihs ihr =>
    intro dir hnul hlen hwf buf used hbuf
    obtain ⟨hname, hsub, hrest⟩ := hwf
    have hn : NameOk dirsiz e.name := ⟨hname.pos, hname.le.trans hm, hname.nul⟩
    have hdots : isDots (field e.name after) = dots e.name := by
      rw [Bool.eq_iff_iff, isDots_iff hn, dots, decide_eq_true_eq]
    rw [findLoop]
    simp only [hdots]
    by_cases hd : dots e.name = true
    · rw [if_pos hd]
      obtain ⟨r, hr, hw⟩ := ihr dir hnul hlen hrest buf used hbuf
      refine ⟨r, hr, hw.kept, fun h => ?_, ?_, fun hno => ?_⟩
      · rw [hw.found h, walk, if_pos hd, nil_append]
      · rw [hw.within, Within, hd]
        simp
      · rw [dirs, hd]
        exact hw.whole hno
    have hd' : dots e.name = false := by simpa using hd
    rw [if_neg hd]
    have hpre : (dir ++ [47]).length = dir.length + 1 := length_append
    have hroom : (dir ++ [47]).length + dirsiz < bufsize := by rw [hpre]; omega
    have hslash : ∀ x ∈ dir ++ [47], x ≠ 0 := by
      intro x hx
      rcases mem_append.mp hx with hx | hx
      · exact hnul x hx
      · rw [mem_singleton.mp hx]
        decide
    obtain ⟨hkeep, hpath⟩ := putName_spec after hbuf hroom hslash hn
    rw [hpre, append_assoc, singleton_append] at hpath
    rw [hpre] at hkeep
    generalize putName buf (dir.length + 1) (field e.name after) = buf' at hkeep hpath
    simp only [hpath, bind, Except.bind]
    by_cases hstat : nofile ≤ used ∨ e.stats = false
    · rw [if_pos hstat]
      obtain ⟨r, hr, hw⟩ := ihr dir hnul hlen hrest buf' used hkeep
      have hcut : (true && e.stats && decide (used < nofile)) = false := by
        rcases hstat with h | h
        · simp [Nat.not_lt.mpr h]
        · simp [h]
      rw [hr]
      refine ⟨_, rfl, hw.kept, fun h => ?_, ?_, fun hno => ?_⟩
      · rw [founds_append, founds_refusals, walk, if_neg hd, hcut, matching_append]
        simp only [Bool.false_and]
        have hnone : matching fileName (⟨dir ++ 47 :: e.name, e.name, false⟩ :: if e.isDir then
              walk sub (dir ++ 47 :: e.name) false (used + 1) else []) = [] := by
          split
          · exact matching_walk_false fileName sub _ _
          · rfl
        rw [hnone, ← hw.found h]
        rfl
      · by_cases hu : nofile ≤ used
        · simp [refusals, hu, Within, hd', Nat.sub_eq_zero_of_le hu]
        · have hs := hstat.resolve_left hu
          have hpos : 0 < nofile - used := by omega
          simpa [refusals, hu, Within, hd', Entry.enters, hs, hpos] using hw.within
      · have hu : ¬ nofile ≤ used := fun hu => by simp [refusals, hu] at hno
        have hs := hstat.resolve_left hu
        rw [refusals_of_lt (by omega)] at hno ⊢
        simpa [dirs, Entry.enters, hs, readings] using hw.whole (by simpa using hno)
    rw [if_neg hstat]
    obtain ⟨hused, hstats⟩ : used < nofile ∧ e.stats = true := by
      simpa [not_or] using hstat
    -- what the recursive call does, if there is one
    have hinner : ∃ r, (if e.isDir then findDir junk e.opens e.fstats
        (findLoop fileName after junk sub) (dir ++ 47 :: e.name) used else .ok ⟨[], used⟩) = .ok r ∧
        r.used = used ∧ (m < dirsiz → founds r.out = matching fileName (if e.isDir then
          walk sub (dir ++ 47 :: e.name) (e.opens && e.fstats) (used + 1) else [])) ∧
        (Out.refused ∉ r.out ↔ (e.enters = true → Within (nofile - used - 1) sub)) ∧
        (Out.refused ∉ r.out → readings r.out = if e.enters then
          (dir ++ 47 :: e.name) :: dirs sub (dir ++ 47 :: e.name) else []) := by
      cases hdir : e.isDir with
      | false =>
        exact ⟨_, rfl, rfl, fun _ => rfl, by simp [Entry.enters, hdir],
          fun _ => by simp [Entry.enters, hdir, readings]⟩
      | true =>
        have hsubl : (dir ++ 47 :: e.name).length = dir.length + 1 + e.name.length := by
          rw [length_append, length_cons]
          omega
        obtain ⟨hle, hwf'⟩ := hsub hd' hdir
        have hloop := ihs (dir ++ 47 :: e.name) (fun x hx => by
          rw [← singleton_append, ← append_assoc] at hx
          exact (mem_append.mp hx).elim (hslash x) (hn.nul x)) (hsubl ▸ hle) (hsubl ▸ hwf')
        obtain ⟨r, hr, hu, hfound, hwithin, hwhole⟩ := findDir_spec junk e.opens e.fstats used
          hloop (by omega)
        have henters : e.enters = (e.opens && e.fstats) := by simp [Entry.enters, hdir, hstats]
        refine ⟨r, hr, hu, fun h => ?_, ?_, ?_⟩
        · rw [hfound h, decide_eq_true hused, Bool.and_true]
          rfl
        · rw [hwithin, henters, Nat.sub_add_eq]
          exact and_iff_right hused
        · rwa [henters]
    obtain ⟨r1, hr1, hu1, hfound1, hwithin1, hwhole1⟩ := hinner
    obtain ⟨r2, hr2, hw⟩ := ihr dir hnul hlen hrest buf' used hkeep
    simp only [hr1, hu1, hr2]
    have hfirst (c : Bool) : Out.refused ∉ (if c then [Out.found (dir ++ 47 :: e.name)] else []) ∧
        readings (if c then [Out.found (dir ++ 47 :: e.name)] else []) = [] := by
      cases c <;> exact ⟨by simp, rfl⟩
    refine ⟨_, rfl, hw.kept, fun h => ?_, ?_, fun hno => ?_⟩
    · have hmatch := matches_iff after hn hf
      rw [and_iff_right (hname.le.trans_lt h), or_iff_left fun he => by
        have := hname.le
        omega] at hmatch
      rw [founds_append, founds_append, hfound1 h, hw.found h, walk, if_neg hd, matching_append]
      simp only [hstats, decide_eq_true hused, Bool.and_true, Bool.true_and]
      congr 1
      by_cases he : e.name = fileName
      · rw [if_pos (hmatch.mpr he)]
        simp [matching, founds, he]
      · rw [if_neg fun h => he (hmatch.mp h)]
        simp [matching, founds, he]
    · have hpos : 0 < nofile - used := by omega
      simp only [mem_append, not_or, (hfirst _).1, not_false_eq_true, true_and, hwithin1,
        hw.within, Within, hd', hpos, forall_const]
    · simp only [mem_append, not_or] at hno
      rw [readings_append, readings_append, (hfirst _).2, hwhole1 hno.1.2, hw.whole hno.2,
        dirs, hd']
      simp

end

/-- `find` reports exactly the entries with the name it looks for that it can reach, in depth-first
order. -/
theorem find_reports_matches (fileName dir : List UInt8) (after junk : Mem) (opens fstats : Bool)
    (es : Entries) (used : ℕ) (hf : ∀ x ∈ fileName, x ≠ 0) (hd : ∀ x ∈ dir, x ≠ 0)
    (hlen : dir.length ≤ bufsize - dirsiz - 2)
    (hwf : Wf (dirsiz - 1) (bufsize - dirsiz - 2) es dir.length) :
    ∃ r, find fileName after junk opens fstats es dir used = .ok r ∧
      founds r.out = matching fileName
        (walk es dir (opens && fstats && decide (used < nofile)) (used + 1)) := by
  have hloop := findLoop_spec after junk (Nat.sub_le _ _) (by decide) hf es dir hd hlen hwf
  obtain ⟨r, hr, _, hfound, _, _⟩ := findDir_spec junk opens fstats used hloop
    (by simp only [bufsize, dirsiz] at *; omega)
  exact ⟨r, hr, hfound (by decide)⟩

def smallTree : Entries :=
  .entry ⟨[97], true, true, true, true⟩ (.entry ⟨[98], false, true, true, true⟩ .nil .nil)
    (.free (.entry ⟨[98], false, true, true, true⟩ .nil .nil))

theorem find_reports_matches_small :
    ∃ r, find [98] (fun _ => 0) (fun _ => 0) true true smallTree [46] 3 = .ok r ∧
      founds r.out = [[46, 47, 97, 47, 98], [46, 47, 98]] :=
  find_reports_matches [98] [46] (fun _ => 0) (fun _ => 0) true true smallTree 3 (by simp)
    (by simp) (by decide)
    ⟨⟨by decide, by decide, by simp⟩, fun _ _ => ⟨by decide, ⟨by decide, by decide, by simp⟩,
      fun _ h => (by cases h), trivial⟩, ⟨by decide, by decide, by simp⟩, fun _ h => (by cases h),
      trivial⟩

/-- All descriptors are closed at the end. No call is refused for lack of a descriptor exactly when
the entries below directories that `find` can enter are at most twelve levels deep, and then every
such directory is read. -/
theorem find_within_descriptors (fileName dir : List UInt8) (after junk : Mem) (opens fstats : Bool)
    (es : Entries) (hf : ∀ x ∈ fileName, x ≠ 0) (hd : ∀ x ∈ dir, x ≠ 0)
    (hlen : dir.length ≤ maxpath - 1) (hwf : Wf dirsiz (maxpath - 1) es dir.length) :
    ∃ r, find fileName after junk opens fstats es dir 3 = .ok r ∧ r.used = 3 ∧
      (Out.refused ∉ r.out ↔ ((opens && fstats) = true → Within 12 es)) ∧
      (Out.refused ∉ r.out →
        readings r.out = if opens && fstats then dir :: dirs es dir else []) := by
  have hloop := findLoop_spec after junk le_rfl (by decide) hf es dir hd hlen hwf
  obtain ⟨r, hr, hu, _, hwithin, hwhole⟩ := findDir_spec junk opens fstats 3 hloop
    (by simp only [bufsize, dirsiz, maxpath] at *; omega)
  exact ⟨r, hr, hu, hwithin.trans (and_iff_right (by decide)), hwhole⟩

def chain : ℕ → Entries
  | 0 => .nil
  | n + 1 => .entry ⟨[97], true, true, true, true⟩ (chain n) .nil

theorem wf_chain (n : ℕ) : ∀ k, k + 2 * n ≤ maxpath - 1 → Wf dirsiz (maxpath - 1) (chain n) k := by
  induction n with
  | zero => exact fun _ _ => trivial
  | succ n ih =>
    intro k hk
    refine ⟨⟨by decide, by decide, by simp⟩, fun _ _ => ⟨?_, ih _ ?_⟩, trivial⟩
    · rw [length_singleton]
      omega
    · rw [length_singleton]
      omega

theorem find_within_descriptors_chain :
    ∃ r, find [98] (fun _ => 0) (fun _ => 0) true true (chain 2) [46] 3 = .ok r ∧ r.used = 3 ∧
      Out.refused ∉ r.out ∧
      readings r.out = [[46], [46, 47, 97], [46, 47, 97, 47, 97]] := by
  obtain ⟨r, hr, hu, hiff, hread⟩ := find_within_descriptors [98] [46] (fun _ => 0) (fun _ => 0)
    true true (chain 2) (by simp) (by simp) (by decide) (wf_chain 2 1 (by decide))
  have hno := hiff.mpr fun _ =>
    ⟨fun _ => ⟨by decide, fun _ => ⟨fun _ => ⟨by decide, fun _ => trivial⟩, trivial⟩⟩, trivial⟩
  exact ⟨r, hr, hu, hno, hread hno⟩

/-- The thirteenth directory is not read: there is no descriptor for its `stat`. -/
theorem find_refused : Wf dirsiz (maxpath - 1) (chain 13) 1 ∧
    (find [98] (fun _ => 0) (fun _ => 0) true true (chain 13) [46] 3).map (fun r =>
      (decide (.refused ∈ r.out), (readings r.out).length)) = .ok (true, 13) ∧
    ([46] :: dirs (chain 13) [46]).length = 14 :=
  ⟨wf_chain 13 1 (by decide), by decide +kernel, by decide +kernel⟩

end Xv6.Find
