import Mathlib.Tactic

/-! A stream cut at its separators: the complete lines, each without its separator, and the line
that is still pending at the end. A stream that arrives in pieces has the same lines. -/
namespace Lines
open List
variable {α : Type*} (p : α → Bool)

def complete (s : List α) : List (List α) := (s.splitOnP p).dropLast

def pending (s : List α) : List α := (s.splitOnP p).getLastD []

variable {p}

theorem splitOnP_line {l : List α} (hl : ∀ c ∈ l, p c = false) {c : α} (hc : p c = true)
    (s : List α) : (l ++ c :: s).splitOnP p = l :: s.splitOnP p :=
  splitOnP_append_cons_of_forall_mem hl c hc s

theorem complete_line {l : List α} (hl : ∀ c ∈ l, p c = false) {c : α} (hc : p c = true)
    (s : List α) : complete p (l ++ c :: s) = l :: complete p s := by
  rw [complete, splitOnP_line hl hc]
  exact dropLast_cons_of_ne_nil (splitOnP_ne_nil p s)

theorem pending_line {l : List α} (hl : ∀ c ∈ l, p c = false) {c : α} (hc : p c = true)
    (s : List α) : pending p (l ++ c :: s) = pending p s := by
  rw [pending, splitOnP_line hl hc, pending]
  obtain ⟨x, xs, hxs⟩ := exists_cons_of_ne_nil (splitOnP_ne_nil p s)
  rw [hxs]
  rfl

theorem complete_of_forall {l : List α} (hl : ∀ c ∈ l, p c = false) : complete p l = [] := by
  rw [complete, splitOnP_eq_singleton hl]
  rfl

theorem pending_of_forall {l : List α} (hl : ∀ c ∈ l, p c = false) : pending p l = l := by
  rw [pending, splitOnP_eq_singleton hl]
  rfl

/-- A stream has a separator, and begins with a line, or it is one pending line. -/
theorem line_cases (s : List α) : (∀ c ∈ s, p c = false) ∨
    ∃ l c t, s = l ++ c :: t ∧ (∀ c ∈ l, p c = false) ∧ p c = true := by
  induction s with
  | nil => exact .inl fun _ hc => absurd hc not_mem_nil
  | cons a s ih =>
    by_cases ha : p a = true
    · exact .inr ⟨[], a, s, rfl, fun _ hc => absurd hc not_mem_nil, ha⟩
    have ha' : p a = false := by simpa using ha
    rcases ih with hs | ⟨l, c, t, rfl, hl, hc⟩
    · exact .inl fun c hc => (mem_cons.mp hc).elim (fun h => h ▸ ha') (hs c)
    · exact .inr ⟨a :: l, c, t, rfl,
        fun c hc => (mem_cons.mp hc).elim (fun h => h ▸ ha') (hl c), hc⟩

theorem line_induction {motive : List α → Prop} (rest : ∀ s, (∀ c ∈ s, p c = false) → motive s)
    (line : ∀ l c s, (∀ c ∈ l, p c = false) → p c = true → motive s → motive (l ++ c :: s))
    (s : List α) : motive s := by
  induction hn : s.length using Nat.strong_induction_on generalizing s with
  | _ n ih =>
    rcases line_cases (p := p) s with hs | ⟨l, c, t, rfl, hl, hc⟩
    · exact rest s hs
    · rw [length_append, length_cons] at hn
      exact line l c t hl hc (ih t.length (by omega) t rfl)

theorem complete_append (s t : List α) :
    complete p (s ++ t) = complete p s ++ complete p (pending p s ++ t) := by
  induction s using line_induction (p := p) with
  | rest s hs => rw [complete_of_forall hs, pending_of_forall hs, nil_append]
  | line l c s hl hc ih =>
    rw [append_assoc, cons_append, complete_line hl hc, complete_line hl hc,
      pending_line hl hc, ih, cons_append]

theorem sep_of_mem_pending (s : List α) : ∀ c ∈ pending p s, p c = false := by
  induction s using line_induction (p := p) with
  | rest s hs => rwa [pending_of_forall hs]
  | line l c s hl hc ih => rwa [pending_line hl hc]

theorem mem_of_mem_pending {s : List α} : ∀ c ∈ pending p s, c ∈ s := by
  induction s using line_induction (p := p) with
  | rest s hs =>
    rw [pending_of_forall hs]
    exact fun _ h => h
  | line l c s hl hc ih =>
    rw [pending_line hl hc]
    exact fun x hx => mem_append_right _ (mem_cons_of_mem _ (ih x hx))

theorem length_lt_of_mem_complete (s : List α) : ∀ l ∈ complete p s, l.length < s.length := by
  induction s using line_induction (p := p) with
  | rest s hs =>
    rw [complete_of_forall hs]
    exact fun _ h => absurd h not_mem_nil
  | line l c s hl hc ih =>
    rw [complete_line hl hc]
    intro l' hl'
    rw [length_append, length_cons]
    rcases mem_cons.mp hl' with rfl | hl'
    · omega
    · have := ih l' hl'
      omega

/-- A stream that begins with a long pending line has no short line at its beginning. -/
theorem le_length_of_head_complete {l : List α} (hl : ∀ c ∈ l, p c = false) (t : List α) :
    ∀ x ∈ (complete p (l ++ t)).head?, l.length ≤ x.length := by
  rcases line_cases (p := p) t with ht | ⟨u, c, t, rfl, hu, hc⟩
  · rw [complete_of_forall fun c hc => (mem_append.mp hc).elim (hl c) (ht c)]
    intro x hx
    cases hx
  rw [← append_assoc, complete_line (fun c hc => (mem_append.mp hc).elim (hl c) (hu c)) hc]
  rintro x ⟨⟩
  rw [length_append]
  exact Nat.le_add_right _ _

end Lines
