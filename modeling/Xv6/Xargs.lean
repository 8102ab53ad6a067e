import Mathlib.Data.List.GetD
import Mathlib.Data.List.TakeWhile
import Xv6.Params
import Xv6.Ulib

/-! `xargs`: one command for each line of its input. Pointers are indices into `buf` or into `argv`;
an index outside of its array is a fault. -/
namespace Xv6.Xargs
open Function List

inductive Fault where
  | buf | xargs | unfinished
  deriving DecidableEq, Repr

/-- A pointer to an argument of `xargs` itself, or into a row of `buf`. -/
inductive Ptr where
  | arg (k : ℕ)
  | buf (row col : ℕ)
  deriving DecidableEq, Repr

abbrev rowSize : ℕ := 100

def whitespace : List UInt8 := [32, 9, 13, 10, 11]

def space (c : UInt8) : Bool := decide (c ∈ whitespace)

/-- The variables of `main`, and the argument vectors of the commands that have been run. -/
structure State where
  argv : List (List UInt8)
  buf : ℕ → ℕ → UInt8
  xargs : ℕ → Option Ptr
  i : ℕ
  ran : List (List (List UInt8))

/-- `gets`, with room for `n` bytes: the bytes that it stores, and the input that is left. -/
def gets : ℕ → List UInt8 → List UInt8 × List UInt8
  | 0, s => ([], s)
  | _ + 1, [] => ([], [])
  | n + 1, c :: s => if c = 10 ∨ c = 13 then ([c], s) else ((c :: (gets n s).1), (gets n s).2)

/-- `strlen` of a row, if there is a NUL in it. -/
def strlen (row : ℕ → UInt8) : Option ℕ := (Ulib.string row rowSize 0).toOption.map length

/-- The loops of `gettoken`, over at most `n` bytes. -/
def scanLoop (p : UInt8 → Bool) (row : ℕ → UInt8) (es : ℕ) : ℕ → ℕ → ℕ
  | 0, s => s
  | n + 1, s => if s < es ∧ p (row s) = true then scanLoop p row es n (s + 1) else s

def scan (p : UInt8 → Bool) (row : ℕ → UInt8) (es s : ℕ) : ℕ := scanLoop p row es (es - s) s

/-- What `gettoken` returns: whether there is a token, where it begins and ends, and the new `s`. -/
structure Token where
  ret : Bool
  q : ℕ
  eq : ℕ
  s : ℕ

def gettoken (row : ℕ → UInt8) (es s : ℕ) : Token :=
  let q := scan space row es s
  let ret := decide (row q ≠ 0)
  let eq := if ret then scan (fun c => !space c) row es q else q
  { ret := ret, q := q, eq := eq, s := scan space row es eq }

def cstr (row : ℕ → UInt8) : ℕ → ℕ → List UInt8
  | 0, _ => []
  | n + 1, k => if row k = 0 then [] else row k :: cstr row n (k + 1)

namespace State

def setArg (x : State) (k : ℕ) (p : Option Ptr) : Except Fault State :=
  if k < maxarg then .ok { x with xargs := update x.xargs k p } else .error .xargs

def setByte (x : State) (row col : ℕ) (c : UInt8) : Except Fault State :=
  if row < maxarg ∧ col < rowSize then
    .ok { x with buf := update x.buf row (update (x.buf row) col c) }
  else .error .buf

/-- `memset` and `gets` on row `i`: the state and the input that is left. -/
def getcmd (x : State) (input : List UInt8) : Except Fault (State × List UInt8) :=
  if x.i < maxarg then
    let (line, rest) := gets (rowSize - 1) input
    .ok ({ x with buf := update x.buf x.i fun k => line.getD k 0 }, rest)
  else .error .buf

def string (x : State) : Ptr → List UInt8
  | .arg k => x.argv.getD k []
  | .buf row col => cstr (x.buf row) rowSize col

/-- The argument vector of `exec`, up to the null pointer. -/
def vector (x : State) : ℕ → ℕ → List (List UInt8)
  | 0, _ => []
  | n + 1, k =>
    match x.xargs k with
    | none => []
    | some p => x.string p :: x.vector n (k + 1)

end State

/-- The loop of `main` over the tokens of the line in row `row`; the result is `j`. -/
def tokenLoop (row es : ℕ) : ℕ → ℕ → ℕ → State → Except Fault (ℕ × State)
  | 0, _, _, _ => .error .unfinished
  | n + 1, s, j, x =>
    let t := gettoken (x.buf row) es s
    if rowSize ≤ t.q then .error .buf
    else if t.ret then do
      let x ← x.setArg j (some (.buf row t.q))
      let x ← x.setByte row t.eq 0
      tokenLoop row es n t.s (j + 1) { x with i := x.i + 1 }
    else .ok (j, x)

/-- The loop over the tokens on the row of a line alone: where the tokens begin, and the row with a
NUL written after each of them. -/
def tokens (es : ℕ) : ℕ → ℕ → (ℕ → UInt8) → Option (List ℕ × (ℕ → UInt8))
  | 0, _, _ => none
  | n + 1, s, row =>
    let t := gettoken row es s
    if t.ret then (tokens es n t.s (update row t.eq 0)).map fun r => (t.q :: r.1, r.2)
    else some ([], row)

def lineLoop (argstart : ℕ) : ℕ → List UInt8 → State → Except Fault State
  | 0, _, _ => .error .unfinished
  | n + 1, input, x => do
    let (x, input) ← x.getcmd input
    if x.buf x.i 0 = 0 then return x
    else
      match strlen (x.buf x.i) with
      | none => .error .buf
      | some es =>
        let (j, x) ← tokenLoop x.i es (rowSize + 1) 0 argstart x
        let x ← x.setArg j none
        lineLoop argstart n input { x with ran := x.ran ++ [x.vector maxarg 0] }

/-- `xargs` starts with its own arguments, from `argv[1]` on. -/
def ownArgs : ℕ → State → Except Fault State
  | 0, x => .ok x
  | n + 1, x => do
    let x ← ownArgs n x
    x.setArg n (some (.arg (n + 1)))

/-- `main`; `junk` is what is in `xargs` at the start. -/
def main (junk : ℕ → Option Ptr) (argv : List (List UInt8)) (input : List UInt8) :
    Except Fault State := do
  let x ← ownArgs (argv.length - 1)
    { argv := argv, buf := fun _ _ => 0, xargs := junk, i := 0, ran := [] }
  lineLoop (argv.length - 1) (input.length + 1) input x

/-- The words of a line: what stands between its whitespace. -/
def words (l : List UInt8) : List (List UInt8) := (l.splitOnP space).filter fun w => decide (w ≠ [])

private theorem words_nil : words [] = [] := rfl

variable {c : UInt8} {l w : List UInt8} {row : ℕ → UInt8} {s : ℕ}

theorem words_cons_space (hc : space c = true) (l : List UInt8) : words (c :: l) = words l := by
  have hsplit := splitOnP_append_cons (p := space) [] l hc
  rw [nil_append, splitOnP_nil] at hsplit
  rw [words, hsplit]
  rfl

theorem words_dropWhile (l : List UInt8) : words (l.dropWhile space) = words l := by
  induction l with
  | nil => rfl
  | cons c l ih =>
    by_cases hc : space c = true
    · rw [dropWhile_cons_of_pos hc, ih, words_cons_space hc]
    · rw [dropWhile_cons_of_neg hc]

theorem words_append (hne : w ≠ []) (hw : ∀ c ∈ w, space c = false)
    (hl : ∀ c ∈ l.head?, space c = true) : words (w ++ l) = w :: words l := by
  cases l with
  | nil =>
    rw [append_nil, words, splitOnP_eq_singleton hw, words_nil]
    simp [hne]
  | cons c l =>
    have hc : space c = true := hl c rfl
    rw [words, splitOnP_append_cons_of_forall_mem hw c hc l, words_cons_space hc]
    simp [hne, words]

private theorem words_newline (l : List UInt8) : words (l ++ [10]) = words l := by
  have hsplit := splitOnP_append_cons (p := space) l [] (show space 10 = true by decide)
  rw [words, hsplit, splitOnP_nil, filter_append]
  simp [words]

def Agree (row : ℕ → UInt8) (s : ℕ) (l : List UInt8) : Prop :=
  ∀ k, k < l.length → row (s + k) = l.getD k 0

theorem Agree.head (h : Agree row s (c :: l)) : row s = c := h 0 (Nat.succ_pos _)

theorem Agree.tail (h : Agree row s (c :: l)) : Agree row (s + 1) l := by
  intro k hk
  have hnext := h (k + 1) (Nat.succ_lt_succ hk)
  rwa [← Nat.add_assoc, Nat.add_right_comm, getD_cons_succ] at hnext

theorem Agree.drop (h : Agree row s (w ++ l)) : Agree row (s + w.length) l := by
  intro k hk
  have hnext := h (w.length + k) (by rw [length_append]; omega)
  rw [getD_append_right _ _ _ _ (Nat.le_add_right _ _), Nat.add_sub_cancel_left,
    ← Nat.add_assoc] at hnext
  exact hnext

theorem Agree.take (h : Agree row s (w ++ l)) : Agree row s w := by
  intro k hk
  have hnext := h k (by rw [length_append]; omega)
  rwa [List.getD_append _ _ _ _ hk] at hnext

theorem Agree.congr {row' : ℕ → UInt8} (h : Agree row s l)
    (hsame : ∀ k, s ≤ k → k < s + l.length → row' k = row k) : Agree row' s l := by
  intro k hk
  rw [hsame _ (by omega) (by omega)]
  exact h k hk

/-- A loop of `gettoken` stops after the first bytes that satisfy `p`. -/
theorem scan_eq (p : UInt8 → Bool) {es : ℕ} (l : List UInt8) : ∀ s : ℕ,
    Agree row s l → es = s + l.length → scan p row es s = s + (l.takeWhile p).length := by
  induction l with
  | nil =>
    intro s _ hes
    rw [scan, hes, length_nil, Nat.add_zero, Nat.sub_self]
    rfl
  | cons c l ih =>
    intro s h hes
    rw [length_cons] at hes
    have hrest : es - s = es - (s + 1) + 1 := by omega
    rw [scan, hrest, scanLoop, h.head]
    by_cases hc : p c = true
    · have hnext := ih (s + 1) h.tail (by omega)
      rw [scan] at hnext
      rw [if_pos ⟨by omega, hc⟩, hnext, takeWhile_cons_of_pos hc, length_cons]
      omega
    · rw [if_neg fun hand => hc hand.2, takeWhile_cons_of_neg hc]
      rfl

theorem Agree.string_eq {n : ℕ} (h : Agree row s l) (hno : 0 ∉ l) (hz : row (s + l.length) = 0)
    (hn : l.length < n) : Ulib.string row n s = .ok l := by
  refine Ulib.string_eq hn (ext_getElem (Ulib.length_bytes ..) fun k hk hkl => ?_) hz
    fun x hx h0 => hno (h0 ▸ hx)
  simp only [Ulib.bytes, getElem_map, getElem_range]
  rw [h k hkl, getD_eq_getElem _ _ hkl]

theorem cstr_of_string (n : ℕ) : ∀ s l, Ulib.string row n s = .ok l → cstr row n s = l := by
  induction n with
  | zero => exact fun s l h => by cases h
  | succ n ih =>
    intro s l h
    rw [Ulib.string] at h
    rw [cstr]
    split at h
    next h0 =>
      cases h
      exact if_pos h0
    next h0 =>
      cases hs : Ulib.string row n (s + 1) with
      | error e =>
        rw [hs] at h
        cases h
      | ok l' =>
        rw [hs] at h
        cases h
        rw [if_neg h0, ih _ _ hs]

theorem cstr_eq (l : List UInt8) (s n : ℕ) (h : Agree row s l) (hno : 0 ∉ l)
    (hz : row (s + l.length) = 0) (hn : l.length < n) : cstr row n s = l :=
  cstr_of_string n s l (h.string_eq hno hz hn)

theorem strlen_eq (h : Agree row 0 l) (hno : 0 ∉ l)
    (hz : row l.length = 0) (hlen : l.length < rowSize) : strlen row = some l.length := by
  rw [strlen, h.string_eq hno (by rwa [Nat.zero_add]) hlen]
  rfl

section Tokens
variable {es : ℕ}

theorem gettoken_none (h : Agree row s l) (hes : es = s + l.length) (hz : row es = 0)
    (hl : l.dropWhile space = []) :
    (gettoken row es s).ret = false ∧ (gettoken row es s).q = es := by
  have hq : scan space row es s = es := by
    rw [scan_eq space l s h hes, hes]
    have hlen := congrArg List.length (takeWhile_append_dropWhile (p := space) (l := l))
    rw [hl, append_nil] at hlen
    rw [hlen]
  refine ⟨?_, hq⟩
  simp [gettoken, hq, hz]

/-- A line that is not blank: whitespace, a word, whitespace, and the rest. -/
structure First (l g w h r : List UInt8) : Prop where
  eq : l = g ++ (w ++ (h ++ r))
  gap : l.takeWhile space = g
  word : (w ++ (h ++ r)).takeWhile (fun c => !space c) = w
  next : (h ++ r).takeWhile space = h
  ne : w ≠ []
  sep : h = [] → r = []
  words : words l = w :: words r

theorem exists_first {l1 : List UInt8} (hl : l.dropWhile space = c :: l1) :
    ∃ g w h r, First l g w h r := by
  have hc : space c = false := by
    have hhead := List.head?_dropWhile_not space l
    rw [hl] at hhead
    simpa using hhead
  have hword : (c :: l1).takeWhile (fun c => !space c) ≠ [] := by
    rw [takeWhile_cons_of_pos (by simp [hc])]
    exact cons_ne_nil _ _
  have hsplit1 : (c :: l1).takeWhile (fun c => !space c) ++
      (c :: l1).dropWhile (fun c => !space c) = c :: l1 := takeWhile_append_dropWhile
  generalize hw : (c :: l1).takeWhile (fun c => !space c) = w at hword hsplit1
  generalize hd : (c :: l1).dropWhile (fun c => !space c) = d at hsplit1
  have hall : ∀ a ∈ w, space a = false := by
    intro a ha
    rw [← hw] at ha
    simpa using mem_takeWhile_imp ha
  have hhead : ∀ a ∈ d.head?, space a = true := by
    intro a ha
    have hnot := List.head?_dropWhile_not (fun c => !space c) (c :: l1)
    rw [hd, Option.mem_def.mp ha] at hnot
    simpa using hnot
  have hsep (hnone : d.takeWhile space = []) : d.dropWhile space = [] := by
    cases d with
    | nil => rfl
    | cons a d =>
      rw [takeWhile_cons_of_pos (hhead a rfl)] at hnone
      cases hnone
  refine ⟨l.takeWhile space, w, d.takeWhile space, d.dropWhile space, ?_, rfl, ?_, ?_, hword, hsep,
    ?_⟩
  · rw [takeWhile_append_dropWhile, hsplit1, ← hl, takeWhile_append_dropWhile]
  · rw [takeWhile_append_dropWhile, hsplit1, hw]
  · rw [takeWhile_append_dropWhile]
  · rw [words_dropWhile, ← words_append hword hall hhead, hsplit1, ← hl, words_dropWhile]

theorem gettoken_some {g h r : List UInt8} (ha : Agree row s l) (hes : es = s + l.length)
    (hno : 0 ∉ l) (hf : First l g w h r) : gettoken row es s =
      ⟨true, s + g.length, s + g.length + w.length, s + g.length + w.length + h.length⟩ := by
  have hq : scan space row es s = s + g.length := by rw [scan_eq space l s ha hes, hf.gap]
  have hag := ha
  rw [hf.eq] at hag hes
  simp only [length_append] at hes
  have hagw := hag.drop
  have hagh := hagw.drop
  obtain ⟨c, w', hw⟩ := exists_cons_of_ne_nil hf.ne
  have hne : row (s + g.length) ≠ 0 := by
    have hc : row (s + g.length) = c := by
      rw [hw] at hagw
      exact hagw.head
    intro h0
    refine hno ?_
    rw [hf.eq, hw, ← h0, hc]
    simp
  have heq : scan (fun c => !space c) row es (s + g.length) = s + g.length + w.length := by
    rw [scan_eq _ _ _ hagw (by simp only [length_append]; omega), hf.word]
  have hs : scan space row es (s + g.length + w.length) = s + g.length + w.length + h.length := by
    rw [scan_eq _ _ _ hagh (by simp only [length_append]; omega), hf.next]
  have hret : decide (row (s + g.length) ≠ 0) = true := decide_eq_true hne
  simp only [gettoken, hq, hret, if_true, heq, hs]

/-- What the loop over a line has done to its row: the words stand at the pointers, each with a NUL
after it, and only whitespace of the line has changed. -/
structure Split (row row' : ℕ → UInt8) (s : ℕ) (l : List UInt8) (qs : List ℕ) : Prop where
  words : ∀ n, l.length < n → qs.map (cstr row' n) = words l
  changed : ∀ k, row' k ≠ row k → s ≤ k ∧ k < s + l.length ∧ space (row k) = true

theorem Split.cons {row' : ℕ → UInt8} {g h r : List UInt8} {qs : List ℕ} (ha : Agree row s l)
    (hno : 0 ∉ l) (hz : row (s + l.length) = 0) (hf : First l g w h r)
    (hs : Split (update row (s + g.length + w.length) 0) row' (s + g.length + w.length + h.length)
      r qs) : Split row row' s l ((s + g.length) :: qs) := by
  have hlen := congrArg List.length hf.eq
  simp only [length_append] at hlen
  have hsep (hh : h.length = 0) : r.length = 0 := by
    rw [hf.sep (eq_nil_of_length_eq_zero hh), length_nil]
  have hsame k (hk : k < s + g.length + w.length + h.length ∨ s + l.length ≤ k) :
      row' k = update row (s + g.length + w.length) 0 k := by
    by_contra hne
    have := hs.changed k hne
    omega
  have hend : row' (s + g.length + w.length) = 0 := by rw [hsame _ (by omega), update_self]
  rw [hf.eq] at ha hno
  constructor
  · intro n hn
    rw [map_cons, hf.words, hs.words n (by omega)]
    congr 1
    refine cstr_eq w _ _ (ha.drop.take.congr fun k hlo hhi => ?_) ?_ hend (by omega)
    · rw [hsame k (by omega), update_of_ne (by omega)]
    · exact fun hm => hno (mem_append_right _ (mem_append_left _ hm))
  · intro k hk
    by_cases hke : k = s + g.length + w.length
    · subst hke
      rw [hend] at hk
      have hpos : 0 < h.length := by
        by_contra hc
        exact hk (by rw [← hz]; congr 1; omega)
      obtain ⟨c, h', hh⟩ := exists_cons_of_length_pos hpos
      refine ⟨by omega, by omega, ?_⟩
      have hag := ha.drop.drop
      rw [hh] at hag
      rw [hag.head]
      have hnext := hf.next
      rw [hh] at hnext
      have hmem : c ∈ ((c :: h') ++ r).takeWhile space := by
        rw [hnext]
        exact .head _
      exact mem_takeWhile_imp hmem
    · have hchanged := hs.changed k
      rw [update_of_ne hke] at hchanged
      have := hchanged hk
      exact ⟨by omega, by omega, this.2.2⟩

theorem tokens_spec (n : ℕ) : ∀ (l : List UInt8) (s : ℕ) (row : ℕ → UInt8), l.length < n →
    Agree row s l → 0 ∉ l → row (s + l.length) = 0 →
    ∃ qs row', tokens (s + l.length) n s row = some (qs, row') ∧ Split row row' s l qs := by
  induction n with
  | zero => exact fun _ _ _ hn => absurd hn (Nat.not_lt_zero _)
  | succ n ih =>
    intro l s row hn ha hno hz
    unfold tokens
    cases hl : l.dropWhile space with
    | nil =>
      obtain ⟨hret, _⟩ := gettoken_none ha rfl hz hl
      have hw : words l = [] := by rw [← words_dropWhile, hl, words_nil]
      simp only [hret, Bool.false_eq_true, if_false]
      exact ⟨[], row, rfl, fun _ _ => hw.symm, fun k hk => absurd rfl hk⟩
    | cons c l1 =>
      obtain ⟨g, w, h, r, hf⟩ := exists_first hl
      have hlen := congrArg List.length hf.eq
      simp only [length_append] at hlen
      have hpos := length_pos_of_ne_nil hf.ne
      have hes : s + l.length = s + g.length + w.length + h.length + r.length := by omega
      have hrest : Agree (update row (s + g.length + w.length) 0)
          (s + g.length + w.length + h.length) r := by
        have hag := ha
        rw [hf.eq] at hag
        refine hag.drop.drop.drop.congr fun k hlo hhi => update_of_ne ?_ _ _
        -- a word without whitespace after it ends the line
        rintro rfl
        rw [hf.sep (eq_nil_of_length_eq_zero (by omega)), length_nil] at hhi
        omega
      have hnor : 0 ∉ r := by
        intro hm
        rw [hf.eq] at hno
        exact hno (mem_append_right _ (mem_append_right _ (mem_append_right _ hm)))
      have hnul : update row (s + g.length + w.length) 0
          (s + g.length + w.length + h.length + r.length) = 0 := by
        rw [← hes, update_apply]
        split
        · rfl
        · exact hz
      obtain ⟨qs, row', hrun, hs⟩ := ih r _ _ (by omega) hrest hnor hnul
      simp only [gettoken_some ha rfl hno hf, if_true]
      rw [hes, hrun]
      exact ⟨_, row', rfl, hs.cons ha hno hz hf⟩

theorem scan_le {p : UInt8 → Bool} (hs : s ≤ es) : scan p row es s ≤ es := by
  unfold scan
  generalize es - s = n
  induction n generalizing s with
  | zero => exact hs
  | succ n ih =>
    rw [scanLoop]
    split
    next hc => exact ih hc.1
    · exact hs

/-- The loop of `main` does to the row of the line what the loop on the row alone does. -/
theorem tokenLoop_eq {i : ℕ} (hi : i < maxarg) (hlt : es < rowSize) (n : ℕ) :
    ∀ {s j : ℕ} {x : State} {qs : List ℕ} {row' : ℕ → UInt8}, s ≤ es →
      tokens es n s (x.buf i) = some (qs, row') →
      j + qs.length < maxarg → tokenLoop i es n s j x = .ok (j + qs.length, { x with
        buf := update x.buf i row'
        xargs := fun k => if j ≤ k ∧ k < j + qs.length then some (.buf i (qs.getD (k - j) 0))
          else x.xargs k
        i := x.i + qs.length }) := by
  induction n with
  | zero => exact fun _ ht => nomatch ht
  | succ n ih =>
    intro s j x qs row' hs ht hj
    rw [tokens] at ht
    rw [tokenLoop]
    have hq : (gettoken (x.buf i) es s).q ≤ es := scan_le hs
    have heq : (gettoken (x.buf i) es s).eq ≤ es := by
      rw [gettoken]
      split
      · exact scan_le (scan_le hs)
      · exact scan_le hs
    have hnext : (gettoken (x.buf i) es s).s ≤ es := scan_le heq
    generalize gettoken (x.buf i) es s = t at *
    rw [if_neg (by omega)]
    by_cases hret : t.ret = true
    · rw [if_pos hret] at ht ⊢
      obtain ⟨⟨qs', row''⟩, hrun, he⟩ := Option.map_eq_some_iff.mp ht
      cases he
      simp only [length_cons] at hj
      have hset : x.setArg j (some (.buf i t.q)) = .ok _ := if_pos (by omega)
      have hbyte (y : State) : y.setByte i t.eq 0 = .ok _ := if_pos ⟨hi, by omega⟩
      simp only [hset, hbyte, bind, Except.bind]
      rw [@ih _ (j + 1) _ qs' row'' hnext (by simpa using hrun) (by omega)]
      simp only [length_cons, update_idem, Except.ok.injEq, Prod.mk.injEq, State.mk.injEq, true_and,
        and_true]
      refine ⟨by omega, funext fun k => ?_, by omega⟩
      obtain rfl | hk := eq_or_ne k j
      · simp
      · rw [update_of_ne hk]
        by_cases hin : j + 1 ≤ k ∧ k < j + 1 + qs'.length
        · rw [if_pos hin, if_pos (by omega), show k - j = k - (j + 1) + 1 by omega, getD_cons_succ]
        · rw [if_neg hin, if_neg (by omega)]
    · rw [if_neg hret] at ht ⊢
      cases ht
      have hnone : ∀ k, ¬ (j ≤ k ∧ k < j) := by omega
      simp [update_eq_self, hnone]

/-- What the loop over the words `ws` of a line has done: each word stands at its pointer, with a
NUL after it. -/
structure Cut (x x' : State) (i es s j : ℕ) (ws : List (List UInt8)) : Prop where
  argv : x'.argv = x.argv
  count : x'.i = x.i + ws.length
  ran : x'.ran = x.ran
  args : ∀ k, k < j → x'.xargs k = x.xargs k
  before : ∀ k, k < s → x'.buf i k = x.buf i k
  nul : x'.buf i es = 0
  word : ∀ k, k < ws.length →
    ∃ q, x'.xargs (j + k) = some (.buf i q) ∧ cstr (x'.buf i) rowSize q = ws.getD k []

theorem tokenLoop_spec {x : State} {i j : ℕ} (hi : i < maxarg) (hlt : es < rowSize) {n : ℕ}
    (hn : l.length < n) (ha : Agree (x.buf i) s l) (hes : es = s + l.length) (hno : 0 ∉ l)
    (hz : x.buf i es = 0) (hj : j + (words l).length < maxarg) :
    ∃ x', tokenLoop i es n s j x = .ok (j + (words l).length, x') ∧
      Cut x x' i es s j (words l) := by
  subst hes
  obtain ⟨qs, row', hrun, hs⟩ := tokens_spec n l s (x.buf i) hn ha hno hz
  have hwords := hs.words rowSize (by omega)
  rw [← hwords, length_map] at hj ⊢
  refine ⟨_, tokenLoop_eq hi hlt n (by omega) hrun hj, rfl, by rw [length_map], rfl, fun k hk => ?_,
    fun k hk => ?_, ?_, fun k hk => ?_⟩
  · exact if_neg (by omega)
  · by_contra hc
    dsimp only at hc
    rw [update_self] at hc
    have := hs.changed k hc
    omega
  · dsimp only
    rw [update_self]
    by_contra hc
    rw [← hz] at hc
    have := hs.changed _ hc
    omega
  · rw [length_map] at hk
    dsimp only
    refine ⟨qs.getD k 0, ?_, ?_⟩
    · rw [if_pos (by omega), Nat.add_sub_cancel_left]
    · rw [update_self, getD_eq_getElem _ _ hk, getD_eq_getElem _ _ (by rwa [length_map]),
        getElem_map]

end Tokens

/-- On a line with a NUL behind it, the calls of `gettoken` find the words in order and then return
0; the writes leave every other byte than whitespace of the line as it was. -/
theorem gettoken_splits_line (row : ℕ → UInt8) (s : ℕ) (l : List UInt8) (ha : Agree row s l)
    (hno : 0 ∉ l) (hz : row (s + l.length) = 0) :
    ∃ qs row', tokens (s + l.length) (l.length + 1) s row = some (qs, row') ∧
      qs.map (cstr row' (l.length + 1)) = words l ∧
      ∀ k, row' k ≠ row k → s ≤ k ∧ k < s + l.length ∧ space (row k) = true := by
  obtain ⟨qs, row', hrun, hs⟩ := tokens_spec _ l s row (Nat.lt_succ_self _) ha hno hz
  exact ⟨qs, row', hrun, hs.words _ (Nat.lt_succ_self _), hs.changed⟩

theorem gettoken_splits_line_two : ∃ qs row',
    tokens 6 7 0 (fun k => [32, 97, 98, 32, 32, 99].getD k 0) = some (qs, row') ∧
      qs.map (cstr row' 7) = [[97, 98], [99]] := by
  obtain ⟨qs, row', hrun, hwords, _⟩ := gettoken_splits_line
    (fun k => [32, 97, 98, 32, 32, 99].getD k 0) 0 [32, 97, 98, 32, 32, 99]
    (fun k _ => by rw [Nat.zero_add]) (by decide) rfl
  exact ⟨qs, row', hrun, hwords⟩

theorem gets_line (l : List UInt8) : ∀ (n : ℕ) (rest : List UInt8), l.length < n → 10 ∉ l → 13 ∉ l →
    gets n (l ++ 10 :: rest) = (l ++ [10], rest) := by
  induction l with
  | nil =>
    intro n rest hn _ _
    obtain ⟨n, rfl⟩ := Nat.exists_eq_succ_of_ne_zero (Nat.ne_zero_of_lt hn)
    rfl
  | cons c l ih =>
    intro n rest hn h10 h13
    obtain ⟨n, rfl⟩ := Nat.exists_eq_succ_of_ne_zero (Nat.ne_zero_of_lt hn)
    rw [mem_cons, not_or] at h10 h13
    have hc : ¬ (c = 10 ∨ c = 13) := fun hc =>
      hc.elim (fun h => h10.1 h.symm) fun h => h13.1 h.symm
    rw [cons_append, gets, if_neg hc, ih n rest (Nat.lt_of_succ_lt_succ hn) h10.2 h13.2]
    rfl

/-- The argument vector is what the pointers up to the null pointer point to. -/
theorem vector_eq {x : State} (vs : List (List UInt8)) : ∀ n a : ℕ, vs.length < n →
    (∀ k < vs.length, ∃ p, x.xargs (a + k) = some p ∧ x.string p = vs.getD k []) →
    x.xargs (a + vs.length) = none → x.vector n a = vs := by
  induction vs with
  | nil =>
    intro n a hn _ hnull
    obtain ⟨n, rfl⟩ := Nat.exists_eq_succ_of_ne_zero (Nat.ne_zero_of_lt hn)
    rw [length_nil, Nat.add_zero] at hnull
    rw [State.vector, hnull]
  | cons v vs ih =>
    intro n a hn hargs hnull
    obtain ⟨n, rfl⟩ := Nat.exists_eq_succ_of_ne_zero (Nat.ne_zero_of_lt hn)
    obtain ⟨p, hp, hv⟩ := hargs 0 (Nat.succ_pos _)
    rw [Nat.add_zero] at hp
    have hrest := ih n (a + 1) (Nat.lt_of_succ_lt_succ hn) (fun k hk => ?_) ?_
    · rw [State.vector, hp]
      simp only [hv, hrest, getD_cons_zero]
    · obtain ⟨p, hp, hv⟩ := hargs (k + 1) (Nat.succ_lt_succ hk)
      refine ⟨p, ?_, hv⟩
      rwa [show a + 1 + k = a + (k + 1) by omega]
    · rwa [show a + 1 + vs.length = a + (v :: vs).length by rw [length_cons]; omega]

/-- A line of the input, without its newline, whose words fit after the arguments `argv`. -/
structure Line (argv : List (List UInt8)) (l : List UInt8) : Prop where
  length : l.length < rowSize - 1
  nul : 0 ∉ l
  newline : 10 ∉ l
  ret : 13 ∉ l
  room : (words l).length + argv.length ≤ maxarg

def commands (argv : List (List UInt8)) (lines : List (List UInt8)) : List (List (List UInt8)) :=
  lines.map fun l => argv.tail ++ words l

def total (lines : List (List UInt8)) : ℕ := (lines.map fun l => (words l).length).sum

def Own (argv : List (List UInt8)) (x : State) : Prop :=
  x.argv = argv ∧ ∀ k, k < argv.length - 1 → x.xargs k = some (.arg (k + 1))

section Lines
variable {argv : List (List UInt8)} {x : State}

theorem line_cut (hl : Line argv l) (hpos : 0 < argv.length) (hi : x.i < maxarg) :
    ∃ y, tokenLoop x.i (l.length + 1) (rowSize + 1) 0 (argv.length - 1)
        { x with buf := update x.buf x.i fun k => (l ++ [10]).getD k 0 } =
          .ok (argv.length - 1 + (words l).length, y) ∧
      Cut { x with buf := update x.buf x.i fun k => (l ++ [10]).getD k 0 } y x.i
        (l.length + 1) 0 (argv.length - 1) (words l) := by
  have hlen : (l ++ [10]).length = l.length + 1 := by simp
  have hroom := hl.room
  have hlt := hl.length
  have hspec := tokenLoop_spec (l := l ++ [10]) (s := 0) (j := argv.length - 1) (n := rowSize + 1)
    (x := { x with buf := update x.buf x.i fun k => (l ++ [10]).getD k 0 }) hi
    (show l.length + 1 < rowSize by omega) (by omega) ?_ (by omega) ?_ ?_
    (by rw [words_newline]; omega)
  · rwa [words_newline] at hspec
  · intro k _
    simp only [update_self, Nat.zero_add]
  · simpa using hl.nul
  · simp only [update_self]
    exact getD_eq_default _ _ hlen.le

theorem vector_line {y : State} {row es : ℕ} (hl : Line argv l) (hpos : 0 < argv.length)
    (ho : Own argv x) (hc : Cut x y row es 0 (argv.length - 1) (words l)) :
    State.vector { y with
        xargs := update y.xargs (argv.length - 1 + (words l).length) none } maxarg 0 =
      argv.tail ++ words l := by
  have htail : argv.tail.length = argv.length - 1 := length_tail
  have hroom := hl.room
  refine vector_eq _ _ _ (by rw [length_append, htail]; omega) (fun k hk => ?_) ?_
  · rw [length_append, htail] at hk
    simp only [Nat.zero_add, update_of_ne hk.ne]
    rcases Nat.lt_or_ge k (argv.length - 1) with hlt | hge
    · refine ⟨.arg (k + 1), ?_, ?_⟩
      · rw [hc.args k hlt]
        exact ho.2 k hlt
      · rw [List.getD_append _ _ _ _ (by rwa [htail]), State.string, hc.argv, ho.1]
        rw [← drop_one, getD_eq_getElem?_getD, getD_eq_getElem?_getD,
          List.getElem?_drop, Nat.add_comm]
    · obtain ⟨k, rfl⟩ := Nat.exists_eq_add_of_le hge
      obtain ⟨q, hq, hstr⟩ := hc.word k (by omega)
      refine ⟨_, hq, ?_⟩
      rw [getD_append_right _ _ _ _ (by rw [htail]; omega), htail, Nat.add_sub_cancel_left]
      exact hstr
  · rw [length_append, htail, Nat.zero_add]
    exact update_self _ _ _

/-- One round of the loop of `main`, on a row that exists. -/
theorem lineLoop_line (hpos : 0 < argv.length) (hl : Line argv l) (ho : Own argv x)
    (hi : x.i < maxarg) (n : ℕ) (input : List UInt8) :
    ∃ y, lineLoop (argv.length - 1) (n + 1) (l ++ 10 :: input) x =
        lineLoop (argv.length - 1) n input y ∧ Own argv y ∧ y.i = x.i + (words l).length ∧
      y.ran = x.ran ++ [argv.tail ++ words l] := by
  have hlen : (l ++ [10]).length = l.length + 1 := by simp
  have hlt := hl.length
  have hroom := hl.room
  have hno : 0 ∉ l ++ [10] := by simpa using hl.nul
  have hget : x.getcmd (l ++ 10 :: input) = .ok
      ({ x with buf := update x.buf x.i fun k => (l ++ [10]).getD k 0 }, input) := by
    rw [State.getcmd, if_pos hi, gets_line l _ _ hl.length hl.newline hl.ret]
  have hfirst : (l ++ [10]).getD 0 0 ≠ 0 := by
    intro h0
    refine hno ?_
    rw [← h0, getD_eq_getElem _ _ (by omega)]
    exact getElem_mem _
  have hstrlen : strlen (fun k => (l ++ [10]).getD k 0) = some (l.length + 1) := by
    rw [← hlen]
    refine strlen_eq (fun k _ => by rw [Nat.zero_add]) hno ?_ (by omega)
    exact getD_eq_default _ _ le_rfl
  obtain ⟨y, hrun, hc⟩ := line_cut hl hpos hi
  have hset : y.setArg (argv.length - 1 + (words l).length) none = .ok { y with
      xargs := update y.xargs (argv.length - 1 + (words l).length) none } :=
    if_pos (by omega)
  have hvec := vector_line hl hpos (x := { x with
    buf := update x.buf x.i fun k => (l ++ [10]).getD k 0 }) ho hc
  refine ⟨{ y with
    xargs := update y.xargs (argv.length - 1 + (words l).length) none
    ran := y.ran ++ [argv.tail ++ words l] }, ?_, ⟨hc.argv.trans ho.1, fun k hk => ?_⟩,
      hc.count, ?_⟩
  · rw [lineLoop, hget]
    simp only [bind, Except.bind, update_self, hfirst, if_false, hstrlen, hrun, hset, hvec]
  · simp only
    rw [update_of_ne (by omega), hc.args k hk]
    exact ho.2 k hk
  · simp only [hc.ran]

/-- The loop runs the commands of all lines, unless their words use up the rows of `buf`: then the
next `getcmd` writes behind it. -/
theorem lineLoop_spec (hpos : 0 < argv.length) (lines : List (List UInt8)) : ∀ (n : ℕ) (x : State),
    lines.length < n → Own argv x → (∀ l ∈ lines, Line argv l) →
    if x.i + total lines < maxarg then
      ∃ y, lineLoop (argv.length - 1) n (lines.flatMap fun l => l ++ [10]) x = .ok y ∧
        y.ran = x.ran ++ commands argv lines
    else lineLoop (argv.length - 1) n (lines.flatMap fun l => l ++ [10]) x = .error .buf := by
  have hfull (n : ℕ) (input : List UInt8) (x : State) (hi : ¬ x.i < maxarg) :
      lineLoop (argv.length - 1) (n + 1) input x = .error .buf := by
    rw [lineLoop, State.getcmd, if_neg hi]
    rfl
  induction lines with
  | nil =>
    intro n x hn _ _
    obtain ⟨n, rfl⟩ := Nat.exists_eq_succ_of_ne_zero (Nat.ne_zero_of_lt hn)
    rw [show total [] = 0 from rfl, Nat.add_zero]
    split
    next hi =>
      refine ⟨{ x with buf := update x.buf x.i fun _ => 0 }, ?_, (append_nil _).symm⟩
      have hget : x.getcmd [] = .ok ({ x with buf := update x.buf x.i fun _ => 0 }, []) :=
        if_pos hi
      rw [flatMap_nil, lineLoop, hget]
      simp only [bind, Except.bind, update_self, if_true]
      rfl
    next hi => exact hfull n _ x hi
  | cons l lines ih =>
    intro n x hn ho hlines
    obtain ⟨n, rfl⟩ := Nat.exists_eq_succ_of_ne_zero (Nat.ne_zero_of_lt hn)
    by_cases hi : x.i < maxarg
    · obtain ⟨y, hrun, hown, hcount, hran⟩ := lineLoop_line hpos (hlines l (.head _)) ho hi n
        (lines.flatMap fun l => l ++ [10])
      have hrest := ih n y (Nat.lt_of_succ_lt_succ hn) hown fun b hb => hlines b (.tail l hb)
      rw [hcount, hran, Nat.add_assoc, append_assoc] at hrest
      rw [flatMap_cons, append_assoc, singleton_append, hrun]
      exact hrest
    · rw [if_neg (by omega)]
      exact hfull n _ x hi

theorem ownArgs_spec (n : ℕ) (hn : n ≤ maxarg) : ∃ y, ownArgs n x = .ok y ∧
    (∀ k < n, y.xargs k = some (.arg (k + 1))) ∧ y.argv = x.argv ∧ y.i = x.i ∧
      y.ran = x.ran := by
  induction n with
  | zero => exact ⟨x, rfl, fun k hk => absurd hk (Nat.not_lt_zero k), rfl, rfl, rfl⟩
  | succ n ih =>
    obtain ⟨y, hrun, hargs, hargv, hi, hran⟩ := ih (Nat.le_of_succ_le hn)
    have hset : y.setArg n (some (.arg (n + 1))) = .ok { y with
        xargs := update y.xargs n (some (.arg (n + 1))) } := if_pos hn
    refine ⟨{ y with xargs := update y.xargs n (some (.arg (n + 1))) }, ?_, fun k hk => ?_,
      hargv, hi, hran⟩
    · rw [ownArgs, hrun]
      simp only [bind, Except.bind, hset]
    · rcases Nat.lt_succ_iff_lt_or_eq.mp hk with hk | rfl
      · simp only [update_of_ne hk.ne]
        exact hargs k hk
      · simp only [update_self]

theorem length_le_input (lines : List (List UInt8)) :
    lines.length ≤ (lines.flatMap fun l => l ++ [10]).length := by
  induction lines with
  | nil => exact Nat.zero_le _
  | cons l lines ih =>
    rw [flatMap_cons, length_append, length_append, length_singleton, length_cons]
    omega

/-- `xargs` runs one command for each line, with its own arguments and the words of the line, and no
index leaves its array, exactly when the lines have fewer than `MAXARG` words in all. -/
theorem xargs_runs_lines (junk : ℕ → Option Ptr) (lines : List (List UInt8))
    (hargc : 2 ≤ argv.length) (hmax : argv.length ≤ maxarg) (hlines : ∀ l ∈ lines, Line argv l) :
    (∃ x, main junk argv (lines.flatMap fun l => l ++ [10]) = .ok x ∧
      x.ran = commands argv lines) ↔ total lines < maxarg := by
  obtain ⟨y, hrun, hargs, hargv, hi, hran⟩ := ownArgs_spec
    (x := { argv := argv, buf := fun _ _ => 0, xargs := junk, i := 0, ran := [] })
    (argv.length - 1) (by omega)
  have hinput := length_le_input lines
  have hloop := lineLoop_spec (show 0 < argv.length by omega) lines
    ((lines.flatMap fun l => l ++ [10]).length + 1) y (by omega) ⟨hargv, hargs⟩ hlines
  rw [hi, Nat.zero_add, hran] at hloop
  have hmain : main junk argv (lines.flatMap fun l => l ++ [10]) = lineLoop (argv.length - 1)
      ((lines.flatMap fun l => l ++ [10]).length + 1) (lines.flatMap fun l => l ++ [10]) y := by
    rw [main, hrun]
    rfl
  rw [hmain]
  split at hloop
  next htotal => exact iff_of_true hloop htotal
  next htotal => exact iff_of_false (fun ⟨x, hx, _⟩ => by rw [hloop] at hx; cases hx) htotal

theorem xargs_runs_lines_two : ∃ x,
    main (fun _ => none) [[120], [101]] [97, 32, 98, 10, 99, 10] = .ok x ∧
      x.ran = [[[101], [97], [98]], [[101], [99]]] := by
  refine (xargs_runs_lines (fun _ => none) [[97, 32, 98], [99]] (by decide) (by decide) ?_).mpr
    (by decide)
  intro l hl
  rw [mem_cons, mem_singleton] at hl
  rcases hl with rfl | rfl
  · exact ⟨by decide, by decide, by decide, by decide, by decide⟩
  · exact ⟨by decide, by decide, by decide, by decide, by decide⟩

/-- After 32 lines of one word the row index is past the last row: the `getcmd` that should see the
end of the input clears memory behind `buf`. -/
theorem xargs_row_overflow : (∀ l ∈ List.replicate 32 [97], Line [[120], [101]] l) ∧
    main (fun _ => none) [[120], [101]] ((List.replicate 32 [97]).flatMap fun l => l ++ [10]) =
      .error .buf := by
  refine ⟨fun l hl => ?_, ?_⟩
  · rw [eq_of_mem_replicate hl]
    exact ⟨by decide, by decide, by decide, by decide, by decide⟩
  · have hrun : ((main (fun _ => none) [[120], [101]]
        ((List.replicate 32 [97]).flatMap fun l => l ++ [10])).map fun x => x.i) =
          .error .buf := by decide +kernel
    cases hm : main (fun _ => none) [[120], [101]]
        ((List.replicate 32 [97]).flatMap fun l => l ++ [10]) with
    | error f =>
      rw [hm] at hrun
      cases hrun
      rfl
    | ok x =>
      rw [hm] at hrun
      cases hrun

end Lines

end Xv6.Xargs
