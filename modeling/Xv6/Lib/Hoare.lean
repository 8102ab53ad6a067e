import Mathlib.Tactic

/-! Programs over a state that can stop with an error, and their weakest preconditions. -/
namespace Hoare
variable {σ ε α β : Type}

/-- A computation that reads and changes a state of type `σ` or stops with an error. -/
abbrev Prog (σ ε α : Type) := StateT σ (Except ε) α

/-- From `s`, program `m` ends in a result and a state that satisfy `Q` or in an error that
satisfies `E`. -/
def wp (m : Prog σ ε α) (Q : α → σ → Prop) (E : ε → Prop) (s : σ) : Prop :=
  match m s with
  | .ok (a, t) => Q a t
  | .error e => E e

variable {Q : α → σ → Prop} {E : ε → Prop} {s : σ}

@[simp] theorem wp_pure (a : α) : wp (pure a : Prog σ ε α) Q E s ↔ Q a s := Iff.rfl

@[simp] theorem wp_bind (m : Prog σ ε β) (f : β → Prog σ ε α) :
    wp (m >>= f) Q E s ↔ wp m (fun b t => wp (f b) Q E t) E s := by
  unfold wp
  change (match (m s >>= fun p => f p.1 p.2) with | .ok (a, t) => Q a t | .error e => E e) ↔ _
  cases m s with
  | error e | ok p => rfl

@[simp] theorem wp_map (m : Prog σ ε β) (f : β → α) :
    wp (f <$> m) Q E s ↔ wp m (fun b t => Q (f b) t) E s := by
  rw [map_eq_pure_bind, wp_bind]
  rfl

@[simp] theorem wp_get {Q : σ → σ → Prop} :
    wp (get : Prog σ ε σ) Q E s ↔ Q s s := Iff.rfl

@[simp] theorem wp_set {Q : PUnit → σ → Prop} (t : σ) :
    wp (set t : Prog σ ε PUnit) Q E s ↔ Q ⟨⟩ t := Iff.rfl

@[simp] theorem wp_modify {Q : PUnit → σ → Prop} (f : σ → σ) :
    wp (modify f : Prog σ ε PUnit) Q E s ↔ Q ⟨⟩ (f s) := Iff.rfl

@[simp] theorem wp_throw (e : ε) : wp (throw e : Prog σ ε α) Q E s ↔ E e := Iff.rfl

theorem wp_ite {c : Prop} [Decidable c] {m m' : Prog σ ε α} :
    wp (if c then m else m') Q E s ↔ (c → wp m Q E s) ∧ (¬ c → wp m' Q E s) := by
  by_cases hc : c
  · simp [hc]
  · simp [hc]

theorem wp_mono {m : Prog σ ε α} {Q' : α → σ → Prop} {E' : ε → Prop} (h : wp m Q E s)
    (hQ : ∀ a t, Q a t → Q' a t) (hE : ∀ e, E e → E' e) : wp m Q' E' s := by
  unfold wp at h ⊢
  cases hm : m s with
  | error e =>
    rw [hm] at h
    exact hE e h
  | ok p =>
    rw [hm] at h
    exact hQ p.1 p.2 h

theorem wp_post {m : Prog σ ε α} {Q' : α → σ → Prop} (h : wp m Q E s)
    (hQ : ∀ a t, Q a t → Q' a t) : wp m Q' E s := wp_mono h hQ fun _ he => he

theorem wp_seq {m : Prog σ ε α} {f : α → Prog σ ε β} {R : β → σ → Prop} (h : wp m Q E s)
    (hf : ∀ a t, Q a t → wp (f a) R E t) : wp (m >>= f) R E s := by
  rw [wp_bind]
  exact wp_post h hf

theorem wp_of_ok {m : Prog σ ε α} (h : ∀ a t, m s = .ok (a, t) → Q a t) :
    wp m Q (fun _ => True) s := by
  unfold wp
  cases hm : m s with
  | error e => trivial
  | ok p => exact h p.1 p.2 hm

theorem wp_trivial (m : Prog σ ε α) : wp m (fun _ _ => True) (fun _ => True) s := by
  unfold wp
  split <;> trivial

theorem wp_and {m : Prog σ ε α} {Q' : α → σ → Prop} (h : wp m Q E s)
    (h' : wp m Q' (fun _ => True) s) : wp m (fun a t => Q a t ∧ Q' a t) E s := by
  unfold wp at h h' ⊢
  cases hm : m s with
  | error e =>
    rw [hm] at h
    exact h
  | ok p =>
    rw [hm] at h h'
    exact ⟨h, h'⟩

theorem wp_ok {m : Prog σ ε α} {a : α} {t : σ} (h : wp m Q E s) (hm : m s = .ok (a, t)) :
    Q a t := by
  unfold wp at h
  rwa [hm] at h

theorem wp_run {m : Prog σ ε α} {a : α} {t : σ} (hm : m s = .ok (a, t)) (h : Q a t) :
    wp m Q E s := by
  unfold wp
  rw [hm]
  exact h

theorem wp_error {m : Prog σ ε α} {e : ε} (h : wp m Q E s) (hm : m s = .error e) : E e := by
  unfold wp at h
  rwa [hm] at h

theorem wp_total {m : Prog σ ε α} (h : wp m Q (fun _ => False) s) :
    ∃ a t, m s = .ok (a, t) ∧ Q a t := by
  unfold wp at h
  cases hm : m s with
  | error e =>
    rw [hm] at h
    exact h.elim
  | ok p =>
    rw [hm] at h
    exact ⟨p.1, p.2, rfl, h⟩

def zoom {τ ε' : Type} (view : σ → τ) (put : τ → σ → σ) (emb : ε' → ε) (m : Prog τ ε' α) :
    Prog σ ε α := fun s =>
  match m (view s) with
  | .ok (a, t) => .ok (a, put t s)
  | .error e => .error (emb e)

@[simp] theorem wp_zoom {τ ε' : Type} {view : σ → τ} {put : τ → σ → σ} {emb : ε' → ε}
    {m : Prog τ ε' α} : wp (zoom view put emb m) Q E s ↔
      wp m (fun a t => Q a (put t s)) (fun e => E (emb e)) (view s) := by
  unfold wp zoom
  cases m (view s) with
  | ok p | error e => rfl

def errorOf (m : Prog σ ε α) (s : σ) : Option ε :=
  match m s with
  | .ok _ => none
  | .error e => some e

theorem errorOf_eq_some {m : Prog σ ε α} {e : ε} : errorOf m s = some e ↔ m s = .error e := by
  unfold errorOf
  cases m s with
  | ok p | error e' => simp

theorem toOption_eq_some {m : Prog σ ε α} {x : α × σ} : (m s).toOption = some x ↔ m s = .ok x := by
  cases m s with
  | ok p | error e => simp [Except.toOption]

@[simp] theorem wp_forM_nil {γ : Type} {body : γ → Prog σ ε PUnit} {Q : PUnit → σ → Prop} :
    wp (List.forM [] body) Q E s ↔ Q ⟨⟩ s := Iff.rfl

@[simp] theorem wp_forM_cons {γ : Type} {body : γ → Prog σ ε PUnit} {Q : PUnit → σ → Prop} (x : γ)
    (xs : List γ) : wp (List.forM (x :: xs) body) Q E s ↔
      wp (body x) (fun _ t => wp (xs.forM body) Q E t) E s :=
  wp_bind (body x) fun _ => xs.forM body

/-- A loop over a list keeps an invariant of what is left of the list. -/
theorem wp_forM {γ : Type} {body : γ → Prog σ ε PUnit} (I : List γ → σ → Prop)
    (hstep : ∀ x xs s, I (x :: xs) s → wp (body x) (fun _ t => I xs t) E s) :
    ∀ (xs : List γ) (s : σ), I xs s → wp (xs.forM body) (fun _ t => I [] t) E s := by
  intro xs
  induction xs with
  | nil => exact fun s h => h
  | cons x xs ih =>
    intro s h
    rw [wp_forM_cons]
    exact wp_mono (hstep x xs s h) (fun _ t ht => ih t ht) fun _ he => he

end Hoare
