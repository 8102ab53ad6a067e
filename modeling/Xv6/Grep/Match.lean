import Mathlib.Tactic

/-! The matcher of `grep.c`. A pointer into a string is the list of the characters from there up to
the NUL. The functions `matchhere` and `matchstar` call each other; the pattern gets shorter, or it
stays and the text gets shorter. -/
namespace Xv6.Grep
open List

mutual

def matchhere (re text : List UInt8) : Bool :=
  match re with
  | [] => true
  | c :: re =>
    if re.head? = some 42 then matchstar c re.tail text
    else if c = 36 ∧ re = [] then text.isEmpty
    else
      match text with
      | [] => false
      | t :: text => if c = 46 ∨ c = t then matchhere re text else false
termination_by (re.length, text.length, 0)
decreasing_by
  all_goals simp_wf
  · left
    omega
  · left
    omega

def matchstar (c : UInt8) (re text : List UInt8) : Bool :=
  if matchhere re text then true
  else
    match text with
    | [] => false
    | t :: text => if t = c ∨ c = 46 then matchstar c re text else false
termination_by (re.length, text.length, 1)

end

def matchloop (re : List UInt8) : List UInt8 → Bool
  | [] => matchhere re []
  | t :: text => if matchhere re (t :: text) then true else matchloop re text

def isMatch (re text : List UInt8) : Bool :=
  match re with
  | 94 :: re => matchhere re text
  | re => matchloop re text

inductive Item where
  | star (c : UInt8)
  | any
  | eot
  | lit (c : UInt8)
  deriving DecidableEq, Repr

def single (c : UInt8) : Item := if c = 46 then .any else .lit c

/-- A pattern as a sequence of items. A character before a `*` is repeated, and a `$` at the end is
the end of the text. -/
def items : List UInt8 → List Item
  | [] => []
  | [c] => if c = 36 then [.eot] else [single c]
  | c :: d :: re => if d = 42 then .star c :: items re else single c :: items (d :: re)

inductive Matches (rest : List UInt8) : List Item → List UInt8 → Prop where
  | nil : Matches rest [] []
  | star {c : UInt8} {is : List Item} {u w : List UInt8} (hu : ∀ x ∈ u, c = 46 ∨ x = c)
      (h : Matches rest is w) : Matches rest (.star c :: is) (u ++ w)
  | any {x : UInt8} {is : List Item} {w : List UInt8} (h : Matches rest is w) :
      Matches rest (.any :: is) (x :: w)
  | eot {is : List Item} {w : List UInt8} (hend : w ++ rest = []) (h : Matches rest is w) :
      Matches rest (.eot :: is) w
  | lit {c : UInt8} {is : List Item} {w : List UInt8} (h : Matches rest is w) :
      Matches rest (.lit c :: is) (c :: w)

def MatchesAt (is : List Item) (text : List UInt8) : Prop :=
  ∃ w rest, text = w ++ rest ∧ Matches rest is w

theorem matchesAt_nil (text : List UInt8) : MatchesAt [] text := ⟨[], text, rfl, .nil⟩

theorem matchesAt_eot {text : List UInt8} : MatchesAt [.eot] text ↔ text = [] := by
  constructor
  · rintro ⟨w, rest, rfl, h⟩
    cases h with
    | eot hend _ => exact hend
  · rintro rfl
    exact ⟨[], [], rfl, .eot rfl .nil⟩

/-- One character of the pattern stands for one character of the text. -/
theorem matchesAt_single {c : UInt8} {is : List Item} {text : List UInt8} :
    MatchesAt (single c :: is) text ↔
      ∃ t rest, text = t :: rest ∧ (c = 46 ∨ c = t) ∧ MatchesAt is rest := by
  unfold single
  split
  next hc =>
    constructor
    · rintro ⟨w, rest, rfl, h⟩
      cases h with
      | @any x _ w h => exact ⟨x, w ++ rest, rfl, .inl hc, w, rest, rfl, h⟩
    · rintro ⟨t, _, rfl, _, w, rest, rfl, h⟩
      exact ⟨t :: w, rest, rfl, .any h⟩
  next hc =>
    constructor
    · rintro ⟨w, rest, rfl, h⟩
      cases h with
      | @lit _ _ w h => exact ⟨c, w ++ rest, rfl, .inr rfl, w, rest, rfl, h⟩
    · rintro ⟨t, _, rfl, hct, w, rest, rfl, h⟩
      obtain rfl := hct.resolve_left hc
      exact ⟨c :: w, rest, rfl, .lit h⟩

theorem matchesAt_star {c : UInt8} {is : List Item} {text : List UInt8} :
    MatchesAt (.star c :: is) text ↔
      ∃ u rest, text = u ++ rest ∧ (∀ x ∈ u, c = 46 ∨ x = c) ∧ MatchesAt is rest := by
  constructor
  · rintro ⟨w, rest, rfl, h⟩
    cases h with
    | @star _ _ u w hu h => exact ⟨u, w ++ rest, append_assoc u w rest, hu, w, rest, rfl, h⟩
  · rintro ⟨u, _, rfl, hu, w, rest, rfl, h⟩
    exact ⟨u ++ w, rest, (append_assoc u w rest).symm, .star hu h⟩

theorem matchhere_cons (c : UInt8) (re text : List UInt8) : matchhere (c :: re) text =
    if re.head? = some 42 then matchstar c re.tail text
    else if c = 36 ∧ re = [] then text.isEmpty
    else
      match text with
      | [] => false
      | t :: text => if c = 46 ∨ c = t then matchhere re text else false := by
  rw [matchhere.eq_def]

theorem matchstar_iff {c : UInt8} {re : List UInt8}
    (hre : ∀ text, matchhere re text = true ↔ MatchesAt (items re) text) (text : List UInt8) :
    matchstar c re text = true ↔ MatchesAt (.star c :: items re) text := by
  rw [matchesAt_star]
  induction text with
  | nil =>
    rw [matchstar]
    constructor
    · intro h
      have hnil : matchhere re [] = true := by
        by_contra hno
        simp [hno] at h
      exact ⟨[], [], rfl, fun _ hx => absurd hx not_mem_nil, (hre []).mp hnil⟩
    · rintro ⟨u, rest, heq, _, h⟩
      obtain ⟨rfl, rfl⟩ := append_eq_nil_iff.mp heq.symm
      rw [if_pos ((hre []).mpr h)]
  | cons t text ih =>
    rw [matchstar]
    by_cases hhere : matchhere re (t :: text) = true
    · rw [if_pos hhere]
      exact ⟨fun _ => ⟨[], t :: text, rfl, fun _ hx => absurd hx not_mem_nil,
        (hre _).mp hhere⟩, fun _ => rfl⟩
    rw [if_neg hhere]
    -- nothing matches here, so at least one character is taken
    have hmore : (∃ u rest, t :: text = u ++ rest ∧ (∀ x ∈ u, c = 46 ∨ x = c) ∧
        MatchesAt (items re) rest) ↔ (c = 46 ∨ t = c) ∧ ∃ u rest, text = u ++ rest ∧
          (∀ x ∈ u, c = 46 ∨ x = c) ∧ MatchesAt (items re) rest := by
      constructor
      · rintro ⟨u, rest, heq, hu, h⟩
        cases u with
        | nil =>
          rw [nil_append] at heq
          exact absurd ((hre _).mpr (heq ▸ h)) hhere
        | cons a u =>
          obtain ⟨rfl, rfl⟩ := cons_eq_cons.mp heq
          exact ⟨hu t mem_cons_self, u, rest, rfl, fun x hx => hu x (mem_cons_of_mem _ hx), h⟩
      · rintro ⟨ht, u, rest, rfl, hu, h⟩
        refine ⟨t :: u, rest, rfl, fun x hx => ?_, h⟩
        rcases mem_cons.mp hx with rfl | hx
        · exact ht
        · exact hu x hx
    rw [hmore, ← ih]
    by_cases ht : t = c ∨ c = 46
    · simp only [if_pos ht, ht.symm, true_and]
    · simp only [if_neg ht, Bool.false_eq_true, false_iff]
      exact fun hand => ht hand.1.symm

theorem matchhere_iff (n : ℕ) : ∀ re text : List UInt8, re.length ≤ n →
    (matchhere re text = true ↔ MatchesAt (items re) text) := by
  induction n with
  | zero =>
    intro re text hn
    obtain rfl := length_eq_zero_iff.mp (Nat.le_zero.mp hn)
    rw [matchhere]
    exact ⟨fun _ => matchesAt_nil text, fun _ => rfl⟩
  | succ n ih =>
    intro re text hn
    -- one character that is neither repeated nor the end of the text
    have hone : ∀ (c : UInt8) (re' : List UInt8), re'.length ≤ n → ((match text with
          | [] => false
          | t :: text => if c = 46 ∨ c = t then matchhere re' text else false) = true ↔
            MatchesAt (single c :: items re') text) := by
      intro c re' hlen
      rw [matchesAt_single]
      cases text with
      | nil => simp
      | cons t text =>
        by_cases hc : c = 46 ∨ c = t
        · simp only [if_pos hc, ih re' text hlen]
          constructor
          · exact fun h => ⟨t, text, rfl, hc, h⟩
          · rintro ⟨_, _, heq, _, h⟩
            obtain ⟨rfl, rfl⟩ := cons_eq_cons.mp heq
            exact h
        · simp only [if_neg hc, Bool.false_eq_true, false_iff]
          rintro ⟨_, _, heq, hc', _⟩
          obtain ⟨rfl, rfl⟩ := cons_eq_cons.mp heq
          exact hc hc'
    rcases re with _ | ⟨c, _ | ⟨d, re⟩⟩
    · rw [matchhere]
      exact ⟨fun _ => matchesAt_nil text, fun _ => rfl⟩
    · rw [matchhere_cons, if_neg (by simp)]
      by_cases hc : c = 36
      · rw [if_pos ⟨hc, rfl⟩, items, if_pos hc, matchesAt_eot, List.isEmpty_iff]
      · rw [if_neg fun h => hc h.1, items, if_neg hc]
        exact hone c [] (Nat.zero_le n)
    · rw [length_cons, length_cons] at hn
      rw [matchhere_cons, List.head?_cons, items]
      by_cases hd : d = 42
      · rw [if_pos (by rw [hd]), if_pos hd]
        exact matchstar_iff (fun text => ih re text (by omega)) text
      · rw [if_neg fun h => hd (Option.some.inj h), if_neg (by simp), if_neg hd]
        exact hone c (d :: re) (by rw [length_cons]; omega)

theorem matchloop_iff (re text : List UInt8) : matchloop re text = true ↔
    ∃ pre rest, text = pre ++ rest ∧ MatchesAt (items re) rest := by
  induction text with
  | nil =>
    rw [matchloop, matchhere_iff _ re [] le_rfl]
    constructor
    · exact fun h => ⟨[], [], rfl, h⟩
    · rintro ⟨pre, rest, heq, h⟩
      obtain ⟨rfl, rfl⟩ := append_eq_nil_iff.mp heq.symm
      exact h
  | cons t text ih =>
    rw [matchloop]
    by_cases hhere : matchhere re (t :: text) = true
    · rw [if_pos hhere]
      exact ⟨fun _ => ⟨[], t :: text, rfl, (matchhere_iff _ re _ le_rfl).mp hhere⟩, fun _ => rfl⟩
    rw [if_neg hhere, ih]
    constructor
    · rintro ⟨pre, rest, rfl, h⟩
      exact ⟨t :: pre, rest, rfl, h⟩
    · rintro ⟨pre, rest, heq, h⟩
      cases pre with
      | nil =>
        rw [nil_append] at heq
        exact absurd ((matchhere_iff _ re _ le_rfl).mpr (heq ▸ h)) hhere
      | cons a pre =>
        obtain ⟨rfl, rfl⟩ := cons_eq_cons.mp heq
        exact ⟨pre, rest, rfl, h⟩

/-- A pattern that begins with `^`, and the pattern after it. -/
def anchored (re : List UInt8) : Bool := decide (re.head? = some 94)

def body (re : List UInt8) : List UInt8 := if anchored re then re.tail else re

/-- `match` tells whether a part of the text, a first part if the pattern begins with `^`, matches
the pattern. -/
theorem isMatch_iff (re text : List UInt8) : isMatch re text = true ↔
    ∃ pre w rest, text = pre ++ (w ++ rest) ∧ (anchored re = true → pre = []) ∧
      Matches rest (items (body re)) w := by
  have hloop (ha : anchored re = false) : isMatch re text = matchloop re text := by
    unfold isMatch
    split
    · cases ha
    · rfl
  by_cases ha : anchored re = true
  · obtain ⟨re', rfl⟩ : ∃ re', re = 94 :: re' := by
      cases re with
      | nil => cases ha
      | cons c re' =>
        have hc : c = 94 := by simpa [anchored] using ha
        exact ⟨re', by rw [hc]⟩
    rw [show isMatch (94 :: re') text = matchhere re' text from rfl,
      matchhere_iff _ re' text le_rfl, show body (94 :: re') = re' from rfl]
    constructor
    · rintro ⟨w, rest, rfl, h⟩
      exact ⟨[], w, rest, rfl, fun _ => rfl, h⟩
    · rintro ⟨pre, w, rest, rfl, hpre, h⟩
      rw [hpre rfl]
      exact ⟨w, rest, rfl, h⟩
  · have ha' : anchored re = false := by simpa using ha
    rw [hloop ha', matchloop_iff, body, if_neg ha]
    constructor
    · rintro ⟨pre, _, rfl, w, rest, rfl, h⟩
      exact ⟨pre, w, rest, rfl, fun h => absurd h ha, h⟩
    · rintro ⟨pre, w, rest, rfl, _, h⟩
      exact ⟨pre, w ++ rest, rfl, w, rest, rfl, h⟩

end Xv6.Grep
