import Mathlib.Tactic

/-! Runs of partial transition functions. `next s a` is `none` when action `a` is not enabled
in state `s`; a run is a list of actions that are enabled one after the other. -/
namespace Transition
attribute [grind =] Function.update_apply
variable {σ α : Type*}

/-- An update of a curried function, for `grind`, which rewrites whole applications only. -/
@[grind =] theorem update_apply_apply {β γ : Type*} [DecidableEq α] (f : α → β → γ) (a a' : α)
    (g : β → γ) (b : β) : Function.update f a g a' b = if a' = a then g b else f a' b := by
  rw [Function.update_apply]
  split <;> rfl

def run (next : σ → α → Option σ) : σ → List α → Option σ
  | s, [] => some s
  | s, a :: as => (next s a).bind fun s' => run next s' as

variable {next : σ → α → Option σ}

instance decidableReach {o : Option σ} {p : σ → Prop} [DecidablePred p] :
    Decidable (∃ s, o = some s ∧ p s) :=
  inferInstanceAs (Decidable (∃ s ∈ o, p s))

@[simp] theorem run_nil (s : σ) : run next s [] = some s := rfl

theorem run_cons_eq_some {s s' : σ} {a : α} {as : List α} :
    run next s (a :: as) = some s' ↔ ∃ t, next s a = some t ∧ run next t as = some s' := by
  simp [run, Option.bind_eq_some_iff]

theorem run_append_eq_some {s s' : σ} {as bs : List α} :
    run next s (as ++ bs) = some s' ↔ ∃ t, run next s as = some t ∧ run next t bs = some s' := by
  induction as generalizing s with
  | nil => simp
  | cons a as ih =>
    simp only [List.cons_append, run_cons_eq_some, ih]
    constructor
    · rintro ⟨t, ht, u, hu, hs⟩
      exact ⟨u, ⟨t, ht, hu⟩, hs⟩
    · rintro ⟨u, ⟨t, ht, hu⟩, hs⟩
      exact ⟨t, ht, u, hu, hs⟩

theorem run_concat_eq_some {s s' : σ} {a : α} {as : List α} :
    run next s (as ++ [a]) = some s' ↔ ∃ t, run next s as = some t ∧ next t a = some s' := by
  simp [run_append_eq_some, run_cons_eq_some]

/-- What every enabled action preserves holds at the end of every run. -/
theorem run_invariant {I : σ → Prop} (hstep : ∀ s a s', I s → next s a = some s' → I s')
    {s s' : σ} {as : List α} (hs : I s) (hr : run next s as = some s') : I s' := by
  induction as generalizing s with
  | nil =>
    cases hr
    exact hs
  | cons a as ih =>
    obtain ⟨t, ht, hr⟩ := run_cons_eq_some.mp hr
    exact ih (hstep s a t hs ht) hr

/-- A forward simulation: what each action keeps related stays related along every run. -/
theorem run_simulation {τ : Type*} {next' : τ → α → Option τ} {R : σ → τ → Prop}
    (hstep : ∀ s t a s', R s t → next s a = some s' → ∃ t', next' t a = some t' ∧ R s' t')
    {s s' : σ} {t : τ} {as : List α} (hs : R s t) (hr : run next s as = some s') :
    ∃ t', run next' t as = some t' ∧ R s' t' := by
  induction as generalizing s t with
  | nil =>
    cases hr
    exact ⟨t, rfl, hs⟩
  | cons a as ih =>
    obtain ⟨u, hu, hr⟩ := run_cons_eq_some.mp hr
    obtain ⟨v, hv, huv⟩ := hstep s t a u hs hu
    obtain ⟨t', ht', hst⟩ := ih huv hr
    exact ⟨t', run_cons_eq_some.mpr ⟨v, hv, ht'⟩, hst⟩

/-- Every action of the run meets the condition `C` in the state where it is taken. -/
def Meets (next : σ → α → Option σ) (C : σ → α → Prop) : σ → List α → Prop
  | _, [] => True
  | s, a :: as => C s a ∧ match next s a with
    | none => True
    | some t => Meets next C t as

instance decidableMeets (next : σ → α → Option σ) (C : σ → α → Prop)
    [∀ s a, Decidable (C s a)] : ∀ s as, Decidable (Meets next C s as)
  | _, [] => isTrue trivial
  | s, a :: as =>
    match h : next s a with
    | none => decidable_of_iff (C s a) (by simp [Meets, h])
    | some t =>
      have := decidableMeets next C t as
      decidable_of_iff (C s a ∧ Meets next C t as) (by simp [Meets, h])

theorem meets_of_forall {C : α → Prop} {as : List α} (h : ∀ a ∈ as, C a) (s : σ) :
    Meets next (fun _ a => C a) s as := by
  induction as generalizing s with
  | nil => trivial
  | cons a as ih =>
    refine ⟨h a List.mem_cons_self, ?_⟩
    split
    · trivial
    · exact ih (fun b hb => h b (List.mem_cons_of_mem a hb)) _

theorem Meets.tail {C : σ → α → Prop} {s t : σ} {a : α} {as : List α}
    (h : Meets next C s (a :: as)) (ht : next s a = some t) : Meets next C t as := by
  have h2 := h.2
  rwa [ht] at h2

/-- The invariant rule for runs whose actions all meet a condition. -/
theorem run_invariant_of_meets {I : σ → Prop} {C : σ → α → Prop}
    (hstep : ∀ s a s', I s → C s a → next s a = some s' → I s') {s s' : σ} {as : List α} (hs : I s)
    (hc : Meets next C s as) (hr : run next s as = some s') : I s' := by
  induction as generalizing s with
  | nil =>
    cases hr
    exact hs
  | cons a as ih =>
    obtain ⟨t, ht, hr⟩ := run_cons_eq_some.mp hr
    exact ih (hstep s a t hs hc.1 ht) (hc.tail ht) hr

end Transition
