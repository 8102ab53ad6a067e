import Xv6.Sh.Parse

/-! The parser accepts exactly the lines that the grammar derives, and returns the tree of the
derivation. -/
namespace Xv6.Sh
open List
variable {s : List UInt8} {ts us vs : List Tok} {t : Tok} {fuel : ℕ}
variable {c : UInt8} {toks : List UInt8} {qs : List Redir}

private theorem ordinary_iff : ordinary c = true ↔ c ∉ whitespace ∧ c ∉ symbols := by
  simp [ordinary]

private theorem skip_of_notMem (hc : c ∉ whitespace) (r : List UInt8) : skip (c :: r) = c :: r := by
  simp [skip, hc]

private theorem skip_of_mem (hc : c ∈ whitespace) (r : List UInt8) : skip (c :: r) = skip r := by
  simp [skip, hc]

theorem Tok.Ends.skip_text (h : t.Ends s) : skip (t.text ++ s) = t.text ++ s := by
  cases t with
  | word w =>
    obtain ⟨hne, hw, -⟩ := h
    obtain ⟨c, w, rfl⟩ := exists_cons_of_ne_nil hne
    exact skip_of_notMem (ordinary_iff.mp (hw c (.head _))).1 _
  | _ => exact skip_of_notMem (by decide) _

theorem Lexes.skip (h : Lexes s ts) : Lexes (skip s) ts := by
  induction h with
  | nil => exact .nil
  | space hc h ih => rwa [skip_of_mem hc]
  | tok ht h ih =>
    rw [ht.skip_text]
    exact .tok ht h

/-- What is left after the whitespace begins with the first token. -/
theorem Lexes.first (h : Lexes s ts) : (ts = [] ∧ Sh.skip s = []) ∨
    ∃ t r us, ts = t :: us ∧ Sh.skip s = t.text ++ r ∧ t.Ends r ∧ Lexes r us := by
  induction h with
  | nil => exact .inl ⟨rfl, rfl⟩
  | space hc h ih => rwa [skip_of_mem hc]
  | @tok t s ts ht h ih => exact .inr ⟨t, s, ts, rfl, ht.skip_text, ht, h⟩

theorem takeWhile_word {w r : List UInt8} (hw : ∀ c ∈ w, ordinary c = true)
    (hr : ∀ c ∈ r.head?, ordinary c = false) :
    (w ++ r).takeWhile ordinary = w ∧ (w ++ r).dropWhile ordinary = r := by
  induction w with
  | nil =>
    cases r with
    | nil => exact ⟨rfl, rfl⟩
    | cons c r =>
      have hc := hr c rfl
      simp [hc]
  | cons c w ih =>
    have hc := hw c (.head _)
    obtain ⟨h1, h2⟩ := ih fun d hd => hw d (.tail c hd)
    simp [hc, h1, h2]

theorem gettoken_spec (h : Lexes s ts) :
    (gettoken s).1 = ts.head? ∧ Lexes (gettoken s).2 ts.tail := by
  rcases h.first with ⟨rfl, hs⟩ | ⟨t, r, us, rfl, hs, hends, hr⟩
  · rw [gettoken, hs]
    exact ⟨rfl, .nil⟩
  rw [gettoken, hs]
  cases t with
  | word w =>
    obtain ⟨hne, hw, hend⟩ := hends
    obtain ⟨c, w, rfl⟩ := exists_cons_of_ne_nil hne
    obtain ⟨htake, hdrop⟩ := takeWhile_word hw hend
    have hc := (ordinary_iff.mp (hw c (.head _))).2
    simp only [symbols, mem_cons, not_mem_nil, or_false, not_or] at hc
    simp only [Tok.text, cons_append, hc, if_false] at htake hdrop ⊢
    rw [htake, hdrop]
    exact ⟨rfl, hr.skip⟩
  | gt =>
    have hne : r.head? ≠ some 62 := hends
    simp only [Tok.text, singleton_append, hne, if_false]
    exact ⟨rfl, hr.skip⟩
  | _ => exact ⟨rfl, hr.skip⟩

def Tok.starts (toks : List UInt8) : Tok → Bool
  | .word _ => false
  | t => t.text.head?.any fun c => decide (c ∈ toks)

theorem peek_spec (h : Lexes s ts) (htoks : toks.all (symbols.contains ·) = true) :
    peek s toks = ts.head?.any (Tok.starts toks) := by
  rcases h.first with ⟨rfl, hs⟩ | ⟨t, r, us, rfl, hs, hends, hr⟩
  · rw [peek, hs]
    rfl
  rw [peek, hs]
  cases t with
  | word w =>
    obtain ⟨hne, hw, -⟩ := hends
    obtain ⟨c, w, rfl⟩ := exists_cons_of_ne_nil hne
    have hc := (ordinary_iff.mp (hw c (.head _))).2
    simp only [Tok.text, cons_append, List.head?_cons, Option.any_some, Tok.starts,
      decide_eq_false_iff_not]
    exact fun hm => hc (contains_iff_mem.mp (all_eq_true.mp htoks c hm))
  | _ => rfl

theorem exists_lexes (s : List UInt8) : ∃ ts, Lexes s ts := by
  induction hn : s.length using Nat.strong_induction_on generalizing s with
  | _ n ih =>
    cases s with
    | nil => exact ⟨[], .nil⟩
    | cons c r =>
      subst hn
      have hlt : r.length < (c :: r).length := by simp
      have hsym (t : Tok) (ht : t.text = [c]) (hends : t.Ends r) : ∃ ts, Lexes (c :: r) ts := by
        obtain ⟨us, hus⟩ := ih _ hlt r rfl
        have htok := Lexes.tok hends hus
        rw [ht] at htok
        exact ⟨_, htok⟩
      by_cases hw : c ∈ whitespace
      · obtain ⟨us, hus⟩ := ih _ hlt r rfl
        exact ⟨us, .space hw hus⟩
      by_cases hc : c ∈ symbols
      · simp only [symbols, mem_cons, not_mem_nil, or_false] at hc
        rcases hc with rfl | rfl | rfl | rfl | rfl | rfl | rfl
        · exact hsym .lt rfl trivial
        · exact hsym .bar rfl trivial
        · by_cases hr : r.head? = some 62
          · cases r with
            | nil => cases hr
            | cons d r =>
              cases hr
              obtain ⟨us, hus⟩ := ih r.length (by simp only [length_cons]; omega) r rfl
              exact ⟨_, .tok (t := .gtgt) trivial hus⟩
          · exact hsym .gt rfl hr
        · exact hsym .amp rfl trivial
        · exact hsym .semi rfl trivial
        · exact hsym .lparen rfl trivial
        · exact hsym .rparen rfl trivial
      · have hord : ordinary c = true := ordinary_iff.mpr ⟨hw, hc⟩
        have hlen : ((c :: r).dropWhile ordinary).length < (c :: r).length := by
          rw [dropWhile_cons_of_pos hord]
          exact (dropWhile_sublist ordinary).length_le.trans_lt hlt
        obtain ⟨us, hus⟩ := ih _ hlen _ rfl
        have hends :
            (Tok.word ((c :: r).takeWhile ordinary)).Ends ((c :: r).dropWhile ordinary) := by
          refine ⟨by simp [hord], fun d hd => all_eq_true.mp all_takeWhile d hd, fun d hd => ?_⟩
          have := List.head?_dropWhile_not ordinary (c :: r)
          rw [hd] at this
          simpa using this
        have htok := Lexes.tok hends hus
        rw [Tok.text, takeWhile_append_dropWhile] at htok
        exact ⟨_, htok⟩

/-- A result for the beginning of the tokens `ts`, or an error other than the bound. -/
def Outcome {α : Type} (R : List Tok → α → Prop) (ts : List Tok) : Result (α × List UInt8) → Prop
  | .ok (a, s) => ∃ us vs, ts = us ++ vs ∧ R us a ∧ Lexes s vs
  | .error e => e ≠ .rounds

theorem Outcome.bind {α β : Type} {R : List Tok → α → Prop} {R' : List Tok → β → Prop}
    {x : Result (α × List UInt8)} {f : α × List UInt8 → Result (β × List UInt8)}
    (hx : Outcome R ts x)
    (hf : ∀ us vs a s, ts = us ++ vs → R us a → Lexes s vs → Outcome R' ts (f (a, s))) :
    Outcome R' ts (x >>= f) := by
  cases x with
  | error e => exact hx
  | ok p =>
    obtain ⟨us, vs, hts, hr, hl⟩ := hx
    exact hf us vs p.1 p.2 hts hr hl

theorem Outcome.append (us : List Tok) {α : Type} {R R' : List Tok → α → Prop}
    {x : Result (α × List UInt8)} (hx : Outcome R vs x) (hR : ∀ ws a, R ws a → R' (us ++ ws) a) :
    Outcome R' (us ++ vs) x := by
  cases x with
  | error e => exact hx
  | ok p =>
    obtain ⟨vs1, vs2, rfl, hr, hl⟩ := hx
    exact ⟨us ++ vs1, vs2, by simp, hR vs1 _ hr, hl⟩

theorem peek_iff (h : Lexes s ts) (htoks : toks.all (symbols.contains ·) = true) :
    peek s toks = true ↔ ∃ t us, ts = t :: us ∧ t.starts toks = true := by
  rw [peek_spec h htoks]
  cases ts with
  | nil | cons t us => simp

theorem gettoken_skip (h : Lexes s (t :: us)) :
    (gettoken (skip s)).1 = some t ∧ Lexes (gettoken (skip s)).2 us :=
  gettoken_spec h.skip

theorem starts_redir (h : t.starts [60, 62] = true) (w) : ∃ r, redirOf t w = some r := by
  cases t <;> first | exact ⟨_, rfl⟩ | exact absurd h (by decide) | cases h

theorem parseredirs_total (rs : List Redir) (h : Lexes s ts) (hf : ts.length < fuel) :
    Outcome (fun us rs' => ∃ qs, rs' = rs ++ qs ∧ Redirs us qs) ts (parseredirs fuel rs s) := by
  induction fuel generalizing s ts rs with
  | zero => omega
  | succ fuel ih =>
    rw [parseredirs]
    by_cases hp : peek s [60, 62] = true
    · obtain ⟨t, us, rfl, ht⟩ := (peek_iff h (by decide)).mp hp
      obtain ⟨htok, hus⟩ := gettoken_skip h
      obtain ⟨hnext, hvs⟩ := gettoken_spec hus
      rw [if_pos hp, htok]
      rcases hg : gettoken (gettoken (skip s)).2 with ⟨o, r⟩
      rw [hg] at hnext hvs
      cases us with
      | nil =>
        cases hnext
        exact nofun
      | cons x us =>
        cases hnext
        cases x with
        | word w =>
          obtain ⟨q, hq⟩ := starts_redir ht w
          have hrest := ih (rs ++ [q]) hvs (by simp only [tail_cons, length_cons] at hf ⊢; omega)
          simp only [Option.bind_some, hq, Option.toList_some]
          refine Outcome.append [t, .word w] hrest ?_
          rintro ws _ ⟨qs, rfl, hqs⟩
          exact ⟨q :: qs, by simp, .cons hq hqs⟩
        | _ => exact nofun
    · rw [if_neg hp]
      exact ⟨[], ts, rfl, ⟨[], by simp, .nil⟩, h.skip⟩

theorem parseargs_total (argv : List Word) (rs : List Redir) (h : Lexes s ts)
    (hf : ts.length < fuel) (hargv : argv.length < maxargs) :
    Outcome (fun us c => ∃ ws qs, Args us ws qs ∧ (argv ++ ws).length < maxargs ∧
      c = wrap (.exec (argv ++ ws)) (rs ++ qs)) ts (parseargs fuel argv rs s) := by
  induction fuel generalizing s ts rs argv with
  | zero => omega
  | succ fuel ih =>
    have hdone : ∀ s' vs, Lexes s' vs → ts = vs →
        Outcome (fun us c => ∃ ws qs, Args us ws qs ∧ (argv ++ ws).length < maxargs ∧
          c = wrap (.exec (argv ++ ws)) (rs ++ qs)) ts (.ok (wrap (.exec argv) rs, s')) :=
      fun s' vs hs hvs => ⟨[], vs, hvs, ⟨[], [], .nil, by simpa using hargv, by simp⟩, hs⟩
    rw [parseargs]
    by_cases hp : peek s [124, 41, 38, 59] = true
    · rw [if_pos hp]
      exact hdone _ _ h.skip rfl
    rw [if_neg hp]
    obtain ⟨hnext, hrest⟩ := gettoken_spec h.skip
    rcases hg : gettoken (skip s) with ⟨o, r⟩
    rw [hg] at hnext hrest
    cases ts with
    | nil =>
      cases hnext
      exact hdone _ _ hrest rfl
    | cons t us =>
      cases hnext
      cases t with
      | word w =>
        dsimp only
        by_cases hmax : maxargs ≤ argv.length + 1
        · rw [if_pos hmax]
          exact nofun
        rw [if_neg hmax]
        simp only [tail_cons, length_cons] at hrest hf
        refine Outcome.append [.word w] (R := fun us c => ∃ ws qs, Args (.word w :: us) ws qs ∧
          (argv ++ ws).length < maxargs ∧ c = wrap (.exec (argv ++ ws)) (rs ++ qs)) ?_
          fun ws c hc => hc
        refine Outcome.bind (parseredirs_total rs hrest (by omega)) ?_
        rintro ts1 ts2 _ s' rfl ⟨qs, rfl, hqs⟩ hl
        have hlen : (argv ++ [w]).length < maxargs := by
          simp only [length_append, length_singleton]
          omega
        refine Outcome.append ts1 (ih (argv ++ [w]) (rs ++ qs) hl
          (by simp only [length_append] at hf; omega) hlen) ?_
        rintro vs1 c ⟨ws, qs', hargs, hn, rfl⟩
        exact ⟨w :: ws, qs ++ qs', .cons hqs hargs, by simpa using hn, by simp⟩
      | _ => exact nofun

theorem parsebacks_total (cmd : Cmd) (h : Lexes s ts) (hf : ts.length < fuel) :
    Outcome (fun us c => ∃ n, us = List.replicate n .amp ∧ c = Cmd.back^[n] cmd) ts
      (parsebacks fuel cmd s) := by
  induction fuel generalizing s ts cmd with
  | zero => omega
  | succ fuel ih =>
    rw [parsebacks]
    by_cases hp : peek s [38] = true
    · obtain ⟨t, us, rfl, ht⟩ := (peek_iff h (by decide)).mp hp
      obtain ⟨-, hus⟩ := gettoken_skip h
      have hamp : t = .amp := by
        cases t <;> first | rfl | exact absurd ht (by decide) | cases ht
      subst hamp
      rw [if_pos hp]
      refine Outcome.append [.amp] (ih (.back cmd) hus (by simpa using hf)) ?_
      rintro us1 c ⟨n, rfl, rfl⟩
      exact ⟨n + 1, rfl, rfl⟩
    · rw [if_neg hp]
      exact ⟨[], ts, rfl, ⟨0, rfl, rfl⟩, h.skip⟩

theorem line_total (h : Lexes s ts)
    (hpipe : Outcome (Derives .pipe) ts (parsepipe fuel s)) (hf : ts.length < fuel)
    (hline : ∀ {s us}, Lexes s us → us.length < ts.length →
      Outcome (Derives .line) us (parseline fuel s)) :
    Outcome (Derives .line) ts (parseline (fuel + 1) s) := by
  rw [parseline]
  refine hpipe.bind fun us vs c s1 hts hc hl => ?_
  subst hts
  simp only [length_append] at hf hline
  refine Outcome.append us (R := fun ws d => Derives .line (us ++ ws) d) ?_ fun ws d hd => hd
  refine Outcome.bind (parsebacks_total c hl (by omega)) ?_
  rintro _ vs _ s2 rfl ⟨n, rfl, rfl⟩ hl2
  dsimp only
  by_cases hp : peek s2 [59] = true
  · obtain ⟨t, ws, rfl, ht⟩ := (peek_iff hl2 (by decide)).mp hp
    obtain ⟨-, hws⟩ := gettoken_skip hl2
    have hsemi : t = .semi := by
      cases t <;> first | rfl | exact absurd ht (by decide) | cases ht
    subst hsemi
    rw [if_pos hp]
    simp only [length_append, length_cons] at hline
    have hsplit : List.replicate n Tok.amp ++ .semi :: ws =
        (List.replicate n .amp ++ [.semi]) ++ ws := by
      simp
    rw [hsplit]
    refine Outcome.append (List.replicate n .amp ++ [.semi])
      (R := fun ws d => Derives .line (us ++ (List.replicate n .amp ++ .semi :: ws)) d) ?_
      fun ws d hd => ?_
    swap
    · simpa using hd
    refine Outcome.bind (hline hws (by omega)) fun vs1 vs2 d s3 hvs hd hl3 => ?_
    exact ⟨vs1, vs2, hvs, .semi n hc hd, hl3⟩
  · rw [if_neg hp]
    exact ⟨List.replicate n .amp, vs, rfl, .pipe n hc, hl2.skip⟩

theorem pipe_total (hexec : Outcome (Derives .exec) ts (parseexec fuel s))
    (hpipe : ∀ {s us}, Lexes s us → us.length < ts.length →
      Outcome (Derives .pipe) us (parsepipe fuel s)) :
    Outcome (Derives .pipe) ts (parsepipe (fuel + 1) s) := by
  rw [parsepipe]
  refine hexec.bind fun us vs c s1 hts hc hl => ?_
  subst hts
  dsimp only
  by_cases hp : peek s1 [124] = true
  · obtain ⟨t, ws, rfl, ht⟩ := (peek_iff hl (by decide)).mp hp
    obtain ⟨-, hws⟩ := gettoken_skip hl
    have hbar : t = .bar := by
      cases t <;> first | rfl | exact absurd ht (by decide) | cases ht
    subst hbar
    rw [if_pos hp]
    simp only [length_append, length_cons] at hpipe
    have hsplit : us ++ .bar :: ws = (us ++ [.bar]) ++ ws := by simp
    rw [hsplit]
    refine Outcome.append (us ++ [.bar]) (R := fun ws d => Derives .pipe (us ++ .bar :: ws) d) ?_
      fun ws d hd => ?_
    swap
    · simpa using hd
    refine Outcome.bind (hpipe hws (by omega)) fun vs1 vs2 d s3 hvs hd hl3 => ?_
    exact ⟨vs1, vs2, hvs, .bar hc hd, hl3⟩
  · rw [if_neg hp]
    exact ⟨us, vs, rfl, .exec hc, hl.skip⟩

theorem exec_total (h : Lexes s ts) (hf : ts.length < fuel) (hblock : ∀ {us}, ts = .lparen :: us →
      Outcome (Derives .exec) ts (parseblock fuel (skip s))) :
    Outcome (Derives .exec) ts (parseexec (fuel + 1) s) := by
  rw [parseexec]
  by_cases hp : peek s [40] = true
  · obtain ⟨t, ws, rfl, ht⟩ := (peek_iff h (by decide)).mp hp
    have hlparen : t = .lparen := by
      cases t <;> first | rfl | exact absurd ht (by decide) | cases ht
    subst hlparen
    rw [if_pos hp]
    exact hblock rfl
  · rw [if_neg hp]
    refine Outcome.bind (parseredirs_total [] h.skip hf) ?_
    rintro us vs _ s1 rfl ⟨rs, rfl, hrs⟩ hl
    simp only [length_append] at hf
    refine Outcome.append us (parseargs_total [] _ hl (by omega) (by decide)) ?_
    rintro ws _ ⟨argv, qs, hargs, hn, rfl⟩
    exact .args hrs hargs hn

theorem block_total (h : Lexes s (.lparen :: us)) (hf : us.length < fuel)
    (hline : ∀ {s}, Lexes s us → Outcome (Derives .line) us (parseline fuel s)) :
    Outcome (Derives .exec) (.lparen :: us) (parseblock (fuel + 1) s) := by
  have hp : peek s [40] = true := (peek_iff h (by decide)).mpr ⟨_, us, rfl, by decide⟩
  obtain ⟨-, hus⟩ := gettoken_skip h
  rw [parseblock, if_pos hp]
  refine Outcome.append [.lparen] (R := fun ws d => Derives .exec (.lparen :: ws) d) ?_
    fun ws d hd => hd
  refine Outcome.bind (hline hus) ?_
  rintro ts vs c s1 rfl hc hl
  dsimp only
  by_cases hp1 : peek s1 [41] = true
  · obtain ⟨t, ws, rfl, ht⟩ := (peek_iff hl (by decide)).mp hp1
    obtain ⟨-, hws⟩ := gettoken_skip hl
    have hrparen : t = .rparen := by
      cases t <;> first | rfl | exact absurd ht (by decide) | cases ht
    subst hrparen
    rw [if_pos hp1]
    simp only [length_append, length_cons] at hf
    have hsplit : ts ++ .rparen :: ws = (ts ++ [.rparen]) ++ ws := by simp
    rw [hsplit]
    refine Outcome.append (ts ++ [.rparen])
      (R := fun ws d => Derives .exec (.lparen :: (ts ++ .rparen :: ws)) d) ?_
      fun ws d hd => ?_
    swap
    · simpa using hd
    refine Outcome.bind (parseredirs_total [] hws (by omega)) ?_
    rintro vs1 vs2 _ s2 rfl ⟨rs, rfl, hrs⟩ hl2
    exact ⟨vs1, vs2, rfl, .block hc hrs, hl2⟩
  · rw [if_neg hp1]
    exact nofun

/-- With enough rounds each parser returns, and what it returns is derived. -/
theorem parse_total (fuel : ℕ) : ∀ {s ts}, Lexes s ts →
    (4 * ts.length + 4 ≤ fuel → Outcome (Derives .line) ts (parseline fuel s)) ∧
    (4 * ts.length + 3 ≤ fuel → Outcome (Derives .pipe) ts (parsepipe fuel s)) ∧
    (4 * ts.length + 2 ≤ fuel → Outcome (Derives .exec) ts (parseexec fuel s)) ∧
    ∀ us, ts = .lparen :: us → 4 * ts.length + 1 ≤ fuel →
      Outcome (Derives .exec) ts (parseblock fuel s) := by
  induction fuel with
  | zero =>
    intro s ts h
    exact ⟨by omega, by omega, by omega, by omega⟩
  | succ fuel ih =>
    intro s ts h
    refine ⟨fun hf => ?_, fun hf => ?_, fun hf => ?_, fun us hts hf => ?_⟩
    · exact line_total h ((ih h).2.1 (by omega)) (by omega) fun h' hlt => (ih h').1 (by omega)
    · exact pipe_total ((ih h).2.2.1 (by omega)) fun h' hlt => (ih h').2.1 (by omega)
    · exact exec_total h (by omega) fun hts => (ih h.skip).2.2.2 _ hts (by omega)
    · subst hts
      simp only [length_cons] at hf
      exact block_total h (by omega) fun h' => (ih h').1 (by omega)

/-- The tokens that may come after what a nonterminal derives. -/
def Nonterminal.follow : Nonterminal → List Tok
  | .line => [.rparen]
  | .pipe => [.rparen, .amp, .semi]
  | .exec => [.rparen, .amp, .semi, .bar]

def Follows (nt : Nonterminal) (vs : List Tok) : Prop := ∀ t ∈ vs.head?, t ∈ nt.follow

/-- The tokens do not begin with one of the characters `toks`. -/
def Avoids (toks : List UInt8) (vs : List Tok) : Prop := ∀ t ∈ vs.head?, t.starts toks = false

theorem Follows.avoids {nt : Nonterminal} (h : Follows nt vs)
    (hno : ∀ t ∈ nt.follow, t.starts toks = false) : Avoids toks vs :=
  fun t ht => hno t (h t ht)

theorem peek_of_avoids (h : Lexes s vs) (htoks : toks.all (symbols.contains ·) = true)
    (ha : Avoids toks vs) : ¬ peek s toks = true := by
  rw [peek_iff h htoks]
  rintro ⟨t, us, rfl, ht⟩
  rw [ha t rfl] at ht
  cases ht

theorem Redirs.starts {rs : List Redir} (h : Redirs (t :: us) rs) : t.starts [60, 62] = true := by
  cases h with
  | cons hr h => cases t <;> first | rfl | cases hr

theorem Redirs.avoids {rs : List Redir} (h : Redirs ts rs)
    (hno : ∀ t ∈ [Tok.lt, .gt, .gtgt], t.starts toks = false) (hus : Avoids toks us) :
    Avoids toks (ts ++ us) := by
  cases h with
  | nil => exact hus
  | @cons t w r ts rs hr h =>
    rintro x ⟨⟩
    cases t <;> first | exact hno _ (by decide) | cases hr

theorem Args.avoids {ws : List Word} (h : Args ts ws qs)
    (hus : Avoids toks us) : Avoids toks (ts ++ us) := by
  cases h with
  | nil => exact hus
  | cons hr h =>
    rintro x ⟨⟩
    rfl

theorem parseredirs_complete (fuel : ℕ) (hr : Redirs us qs) (rs : List Redir)
    (h : Lexes s (us ++ vs)) (hvs : Avoids [60, 62] vs) (hf : us.length < fuel) :
    ∃ s', parseredirs fuel rs s = .ok (rs ++ qs, s') ∧ Lexes s' vs := by
  induction hr generalizing s fuel rs with
  | nil =>
    obtain ⟨k, rfl⟩ : ∃ k, fuel = k + 1 := Nat.exists_eq_succ_of_ne_zero (by omega)
    rw [parseredirs, if_neg (peek_of_avoids h (by decide) hvs)]
    exact ⟨skip s, by simp, h.skip⟩
  | @cons t w r ts qs hr hrs ih =>
    obtain ⟨k, rfl⟩ : ∃ k, fuel = k + 1 := Nat.exists_eq_succ_of_ne_zero (by omega)
    have hp : peek s [60, 62] = true :=
      (peek_iff h (by decide)).mpr ⟨t, _, rfl, (Redirs.cons hr hrs).starts⟩
    obtain ⟨htok, hus⟩ := gettoken_skip h
    obtain ⟨hnext, hvs'⟩ := gettoken_spec hus
    rcases hg : gettoken (gettoken (skip s)).2 with ⟨o, s'⟩
    rw [hg] at hnext hvs'
    cases hnext
    rw [parseredirs, if_pos hp, htok, hg]
    simp only [Option.bind_some, hr, Option.toList_some]
    simp only [length_cons] at hf
    obtain ⟨s'', hs, hl⟩ := ih k (rs ++ [r]) hvs' (by omega)
    exact ⟨s'', by simpa using hs, hl⟩

theorem parseargs_complete (fuel : ℕ) {ws : List Word} (ha : Args us ws qs)
    (argv : List Word) (rs : List Redir) (h : Lexes s (us ++ vs)) (hvs : Follows .exec vs)
    (hf : us.length < fuel) (hn : argv.length + ws.length < maxargs) :
    ∃ s', parseargs fuel argv rs s = .ok (wrap (.exec (argv ++ ws)) (rs ++ qs), s') ∧
      Lexes s' vs := by
  induction ha generalizing s fuel rs argv with
  | nil =>
    obtain ⟨k, rfl⟩ : ∃ k, fuel = k + 1 := Nat.exists_eq_succ_of_ne_zero (by omega)
    rw [parseargs]
    by_cases hp : peek s [124, 41, 38, 59] = true
    · rw [if_pos hp]
      exact ⟨skip s, by simp, h.skip⟩
    rw [if_neg hp]
    obtain ⟨hnext, hrest⟩ := gettoken_spec h.skip
    cases vs with
    | nil =>
      rcases hg : gettoken (skip s) with ⟨o, s'⟩
      rw [hg] at hnext hrest
      cases hnext
      exact ⟨s', by simp, hrest⟩
    | cons t vs =>
      refine absurd ((peek_iff h (by decide)).mpr ⟨t, vs, rfl, ?_⟩) hp
      have hall : ∀ t ∈ Nonterminal.exec.follow, t.starts [124, 41, 38, 59] = true := by decide
      exact hall t (hvs t rfl)
  | @cons w ts us rs' qs ws hr ha ih =>
    obtain ⟨k, rfl⟩ : ∃ k, fuel = k + 1 := Nat.exists_eq_succ_of_ne_zero (by omega)
    have hp : ¬ peek s [124, 41, 38, 59] = true := by
      refine peek_of_avoids h (by decide) ?_
      rintro x ⟨⟩
      rfl
    obtain ⟨hnext, hrest⟩ := gettoken_spec h.skip
    rcases hg : gettoken (skip s) with ⟨o, s'⟩
    rw [hg] at hnext hrest
    cases hnext
    simp only [length_cons, length_append] at hf hn
    have hrest' : Lexes s' (ts ++ (us ++ vs)) := by simpa using hrest
    obtain ⟨s1, hs1, hl1⟩ := parseredirs_complete k hr rs hrest'
      (ha.avoids (hvs.avoids (by decide))) (by omega)
    obtain ⟨s2, hs2, hl2⟩ := ih k (argv ++ [w]) (rs ++ rs') hl1 (by omega)
      (by simp only [length_append, length_singleton]; omega)
    rw [parseargs, if_neg hp, hg]
    dsimp only
    rw [if_neg (by omega), hs1]
    refine ⟨s2, ?_, hl2⟩
    simp only [bind, Except.bind]
    simpa using hs2

theorem parsebacks_complete (fuel n : ℕ) (cmd : Cmd) (h : Lexes s (List.replicate n .amp ++ vs))
    (hvs : Avoids [38] vs) (hf : n < fuel) :
    ∃ s', parsebacks fuel cmd s = .ok (Cmd.back^[n] cmd, s') ∧ Lexes s' vs := by
  induction n generalizing s fuel cmd with
  | zero =>
    obtain ⟨k, rfl⟩ : ∃ k, fuel = k + 1 := Nat.exists_eq_succ_of_ne_zero (by omega)
    have h' : Lexes s vs := h
    rw [parsebacks, if_neg (peek_of_avoids h' (by decide) hvs)]
    exact ⟨skip s, rfl, h'.skip⟩
  | succ n ih =>
    obtain ⟨k, rfl⟩ : ∃ k, fuel = k + 1 := Nat.exists_eq_succ_of_ne_zero (by omega)
    have hp : peek s [38] = true := (peek_iff h (by decide)).mpr ⟨.amp, _, rfl, by decide⟩
    obtain ⟨-, hus⟩ := gettoken_skip h
    rw [parsebacks, if_pos hp]
    exact ih k (.back cmd) hus (by omega)

namespace Nonterminal

def parse : Nonterminal → ℕ → List UInt8 → Result (Cmd × List UInt8)
  | .line => parseline
  | .pipe => parsepipe
  | .exec => parseexec

def level : Nonterminal → ℕ
  | .line => 4
  | .pipe => 3
  | .exec => 2

end Nonterminal

theorem parse_complete (fuel : ℕ) {nt : Nonterminal} {c : Cmd} (hd : Derives nt ts c)
    (h : Lexes s (ts ++ vs)) (hvs : Follows nt vs) (hf : 4 * (ts ++ vs).length + nt.level ≤ fuel) :
    ∃ s', nt.parse fuel s = .ok (c, s') ∧ Lexes s' vs := by
  induction hd generalizing s vs fuel with
  | @block ts us c rs hd hr ih =>
    simp only [Nonterminal.level, length_append, length_cons] at hf
    obtain ⟨k, rfl⟩ : ∃ k, fuel = k + 1 + 1 := ⟨fuel - 2, by omega⟩
    have hp : ∀ {s}, Lexes s (.lparen :: (ts ++ .rparen :: us) ++ vs) → peek s [40] = true :=
      fun h => (peek_iff h (by decide)).mpr ⟨.lparen, _, rfl, by decide⟩
    obtain ⟨-, hline⟩ := gettoken_skip h.skip
    have hline' : Lexes (gettoken (skip (skip s))).2 (ts ++ (.rparen :: (us ++ vs))) := by
      simpa using hline
    obtain ⟨s1, hs1, hl1⟩ := ih k hline' (by rintro x ⟨⟩; decide)
      (by simp only [Nonterminal.level, length_append, length_cons]; omega)
    have hp1 : peek s1 [41] = true := (peek_iff hl1 (by decide)).mpr ⟨.rparen, _, rfl, by decide⟩
    obtain ⟨-, hredirs⟩ := gettoken_skip hl1
    obtain ⟨s2, hs2, hl2⟩ := parseredirs_complete k hr [] hredirs (hvs.avoids (by decide))
      (by omega)
    refine ⟨s2, ?_, hl2⟩
    simp only [Nonterminal.parse] at hs1 ⊢
    rw [parseexec, if_pos (hp h), parseblock, if_pos (hp h.skip), hs1]
    simp only [bind, Except.bind, if_pos hp1, hs2, nil_append]
  | @args ts us ws rs qs hr ha hn =>
    simp only [Nonterminal.level, length_append] at hf
    obtain ⟨k, rfl⟩ : ∃ k, fuel = k + 1 := ⟨fuel - 1, by omega⟩
    have h' : Lexes s (ts ++ (us ++ vs)) := by simpa using h
    have hp : ¬ peek s [40] = true := by
      refine peek_of_avoids h' (by decide) (hr.avoids (by decide) (ha.avoids ?_))
      exact hvs.avoids (by decide)
    obtain ⟨s1, hs1, hl1⟩ := parseredirs_complete k hr [] h'.skip
      (ha.avoids (hvs.avoids (by decide))) (by omega)
    obtain ⟨s2, hs2, hl2⟩ := parseargs_complete k ha [] rs hl1 hvs (by omega) (by simpa using hn)
    refine ⟨s2, ?_, hl2⟩
    rw [Nonterminal.parse, parseexec, if_neg hp, hs1]
    exact hs2
  | @exec ts c hd ih =>
    simp only [Nonterminal.level] at hf ih
    obtain ⟨k, rfl⟩ : ∃ k, fuel = k + 1 := ⟨fuel - 1, by omega⟩
    have hsub : ∀ t ∈ Nonterminal.pipe.follow, t ∈ Nonterminal.exec.follow := by decide
    obtain ⟨s1, hs1, hl1⟩ := ih k h (fun t ht => hsub t (hvs t ht)) (by omega)
    have hp : ¬ peek s1 [124] = true := peek_of_avoids hl1 (by decide) (hvs.avoids (by decide))
    refine ⟨skip s1, ?_, hl1.skip⟩
    simp only [Nonterminal.parse] at hs1 ⊢
    rw [parsepipe, hs1]
    simp only [bind, Except.bind, if_neg hp]
  | @bar ts us c d hl hr ihl ihr =>
    simp only [Nonterminal.level, length_append, length_cons] at hf ihl ihr
    obtain ⟨k, rfl⟩ : ∃ k, fuel = k + 1 := ⟨fuel - 1, by omega⟩
    have h' : Lexes s (ts ++ (.bar :: (us ++ vs))) := by simpa using h
    obtain ⟨s1, hs1, hl1⟩ := ihl k h' (by rintro x ⟨⟩; decide)
      (by simp only [length_append, length_cons]; omega)
    have hp : peek s1 [124] = true := (peek_iff hl1 (by decide)).mpr ⟨.bar, _, rfl, by decide⟩
    obtain ⟨-, hrest⟩ := gettoken_skip hl1
    obtain ⟨s2, hs2, hl2⟩ := ihr k hrest hvs (by omega)
    refine ⟨s2, ?_, hl2⟩
    simp only [Nonterminal.parse] at hs1 hs2 ⊢
    rw [parsepipe, hs1]
    simp only [bind, Except.bind, if_pos hp, hs2]
  | @pipe ts c n hd ih =>
    simp only [Nonterminal.level, length_append, length_replicate] at hf ih
    obtain ⟨k, rfl⟩ : ∃ k, fuel = k + 1 := ⟨fuel - 1, by omega⟩
    have h' : Lexes s (ts ++ (List.replicate n .amp ++ vs)) := by simpa using h
    have hfol : Follows .pipe (List.replicate n .amp ++ vs) := by
      cases n with
      | zero =>
        intro t ht
        have hsub : ∀ t ∈ Nonterminal.line.follow, t ∈ Nonterminal.pipe.follow := by decide
        exact hsub t (hvs t ht)
      | succ n =>
        rintro x ⟨⟩
        decide
    obtain ⟨s1, hs1, hl1⟩ := ih k h' hfol (by simp only [length_append, length_replicate]; omega)
    obtain ⟨s2, hs2, hl2⟩ := parsebacks_complete k n c hl1 (hvs.avoids (by decide)) (by omega)
    have hp : ¬ peek s2 [59] = true := peek_of_avoids hl2 (by decide) (hvs.avoids (by decide))
    refine ⟨skip s2, ?_, hl2.skip⟩
    simp only [Nonterminal.parse] at hs1 ⊢
    rw [parseline, hs1]
    simp only [bind, Except.bind, hs2, if_neg hp]
  | @semi ts us c d n hl hr ihl ihr =>
    simp only [Nonterminal.level, length_append, length_replicate, length_cons] at hf ihl ihr
    obtain ⟨k, rfl⟩ : ∃ k, fuel = k + 1 := ⟨fuel - 1, by omega⟩
    have h' : Lexes s (ts ++ (List.replicate n .amp ++ (.semi :: (us ++ vs)))) := by simpa using h
    have hfol : Follows .pipe (List.replicate n .amp ++ (.semi :: (us ++ vs))) := by
      cases n <;> (rintro x ⟨⟩; decide)
    obtain ⟨s1, hs1, hl1⟩ := ihl k h' hfol
      (by simp only [length_append, length_replicate, length_cons]; omega)
    obtain ⟨s2, hs2, hl2⟩ := parsebacks_complete k n c hl1 (by rintro x ⟨⟩; decide) (by omega)
    have hp : peek s2 [59] = true := (peek_iff hl2 (by decide)).mpr ⟨.semi, _, rfl, by decide⟩
    obtain ⟨-, hrest⟩ := gettoken_skip hl2
    obtain ⟨s3, hs3, hl3⟩ := ihr k hrest hvs (by omega)
    refine ⟨s3, ?_, hl3⟩
    simp only [Nonterminal.parse] at hs1 hs3 ⊢
    rw [parseline, hs1]
    simp only [bind, Except.bind, hs2, if_pos hp, hs3]

end Xv6.Sh
