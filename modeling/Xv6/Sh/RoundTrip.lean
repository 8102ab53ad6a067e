import Mathlib.Data.List.TakeWhile
import Xv6.Sh.Grammar

/-! The printed form of a command is parsed to the command, and the theorem about `parsecmd`. -/
namespace Xv6.Sh
open List
variable {s : List UInt8} {ts us : List Tok} {nt : Nonterminal} {c : Cmd}

def WordOk (w : Word) : Prop := w ≠ [] ∧ (∀ c ∈ w, ordinary c = true) ∧ 0 ∉ w

def Tok.Ok : Tok → Prop
  | .word w => WordOk w
  | _ => True

def RedirOk (file : Word) (mode : ℕ) (fd : Fin 3) : Prop :=
  WordOk file ∧ redirOf (redirTok mode fd) file = some ⟨file, mode, fd⟩

def CmdOk : Cmd → Prop
  | .exec argv => argv.length < maxargs ∧ ∀ w ∈ argv, WordOk w
  | .redir cmd file mode fd => CmdOk cmd ∧ RedirOk file mode fd
  | .pipe left right => CmdOk left ∧ CmdOk right
  | .list left right => CmdOk left ∧ CmdOk right
  | .back cmd => CmdOk cmd

theorem Lexes.tok_ok (h : Lexes s ts) (h0 : 0 ∉ s) : ∀ t ∈ ts, t.Ok := by
  induction h with
  | nil => exact fun t ht => absurd ht not_mem_nil
  | space hc h ih => exact ih fun hm => h0 (.tail _ hm)
  | @tok t s ts hends h ih =>
    rw [mem_append, not_or] at h0
    intro x hx
    rcases mem_cons.mp hx with rfl | hx
    · cases x with
      | word w => exact ⟨hends.1, hends.2.1, h0.1⟩
      | _ => trivial
    · exact ih h0.2 x hx

theorem Redirs.ok {rs : List Redir} (h : Redirs ts rs) (hts : ∀ t ∈ ts, t.Ok) :
    ∀ r ∈ rs, RedirOk r.file r.mode r.fd := by
  induction h with
  | nil => exact fun r hr => absurd hr not_mem_nil
  | @cons t w r ts rs hr h ih =>
    have hw : WordOk w := hts (.word w) (by simp)
    intro q hq
    rcases mem_cons.mp hq with rfl | hq
    · cases t <;> cases hr <;> exact ⟨hw, rfl⟩
    · exact ih (fun t ht => hts t (by simp [ht])) q hq

theorem Args.ok {ws : List Word} {qs : List Redir} (h : Args ts ws qs) (hts : ∀ t ∈ ts, t.Ok) :
    (∀ w ∈ ws, WordOk w) ∧ ∀ r ∈ qs, RedirOk r.file r.mode r.fd := by
  induction h with
  | nil => exact ⟨fun w hw => absurd hw not_mem_nil, fun r hr => absurd hr not_mem_nil⟩
  | @cons w ts us rs qs ws hr h ih =>
    obtain ⟨hws, hqs⟩ := ih fun t ht => hts t (by simp [ht])
    have hrs := hr.ok fun t ht => hts t (by simp [ht])
    have hw : WordOk w := hts (.word w) (by simp)
    refine ⟨fun x hx => ?_, fun r hr => ?_⟩
    · rcases mem_cons.mp hx with rfl | hx
      · exact hw
      · exact hws x hx
    · rcases mem_append.mp hr with hr | hr
      · exact hrs r hr
      · exact hqs r hr

theorem wrap_ok {rs : List Redir} (hc : CmdOk c) (hrs : ∀ r ∈ rs, RedirOk r.file r.mode r.fd) :
    CmdOk (wrap c rs) := by
  induction rs generalizing c with
  | nil => exact hc
  | cons r rs ih =>
    exact ih ⟨hc, hrs r (.head _)⟩ fun q hq => hrs q (.tail r hq)

theorem backs_ok (n : ℕ) (hc : CmdOk c) : CmdOk (Cmd.back^[n] c) := by
  induction n generalizing c with
  | zero => exact hc
  | succ n ih => exact ih (c := .back c) hc

theorem Derives.ok (h : Derives nt ts c) (hts : ∀ t ∈ ts, t.Ok) : CmdOk c := by
  induction h with
  | block h hr ih =>
    exact wrap_ok (ih fun t ht => hts t (by simp [ht])) (hr.ok fun t ht => hts t (by simp [ht]))
  | args hr h hn =>
    obtain ⟨hws, hqs⟩ := h.ok fun t ht => hts t (by simp [ht])
    have hrs := hr.ok fun t ht => hts t (by simp [ht])
    refine wrap_ok ⟨hn, hws⟩ fun r hr => ?_
    rcases mem_append.mp hr with hr | hr
    · exact hrs r hr
    · exact hqs r hr
  | exec h ih => exact ih hts
  | bar hl hr ihl ihr =>
    exact ⟨ihl fun t ht => hts t (by simp [ht]), ihr fun t ht => hts t (by simp [ht])⟩
  | pipe n h ih => exact backs_ok n (ih fun t ht => hts t (by simp [ht]))
  | semi n hl hr ihl ihr =>
    exact ⟨backs_ok n (ihl fun t ht => hts t (by simp [ht])), ihr fun t ht => hts t (by simp [ht])⟩

theorem lexes_printToks (hts : ∀ t ∈ ts, t.Ok) : Lexes (printToks ts) ts := by
  induction ts with
  | nil => exact .nil
  | cons t ts ih =>
    have hrest := Lexes.space (c := 32) (by decide) (ih fun x hx => hts x (.tail t hx))
    have hends : t.Ends (32 :: printToks ts) := by
      have hok := hts t (.head _)
      cases t with
      | word w =>
        refine ⟨hok.1, hok.2.1, ?_⟩
        rintro x ⟨⟩
        decide
      | gt => simp [Tok.Ends]
      | _ => trivial
    have htok := Lexes.tok hends hrest
    simpa [printToks] using htok

theorem toks_ok (hc : CmdOk c) : ∀ t ∈ c.toks, t.Ok := by
  have hsym mode fd : (redirTok mode fd).Ok := by
    unfold redirTok
    split
    · trivial
    · split <;> trivial
  induction c with
  | exec argv =>
    intro t ht
    obtain ⟨w, hw, rfl⟩ := mem_map.mp ht
    exact hc.2 w hw
  | redir c file mode fd ih =>
    intro t ht
    simp only [Cmd.toks, mem_cons, mem_append, not_mem_nil, or_false] at ht
    rcases ht with rfl | ht | rfl | rfl | rfl
    · trivial
    · exact ih hc.1 t ht
    · trivial
    · exact hsym mode fd
    · exact hc.2.1
  | pipe l r ihl ihr | list l r ihl ihr =>
    intro t ht
    simp only [Cmd.toks, mem_cons, mem_append, not_mem_nil, or_false] at ht
    rcases ht with (rfl | ht | rfl) | rfl | rfl | ht | rfl
    · trivial
    · exact ihl hc.1 t ht
    · trivial
    · trivial
    · trivial
    · exact ihr hc.2 t ht
    · trivial
  | back c ih =>
    intro t ht
    simp only [Cmd.toks, mem_cons, mem_append, not_mem_nil, or_false] at ht
    rcases ht with (rfl | ht | rfl) | rfl
    · trivial
    · exact ih hc t ht
    · trivial
    · trivial

theorem notMem_printToks (hts : ∀ t ∈ ts, t.Ok) : 0 ∉ printToks ts := by
  intro hm
  obtain ⟨t, ht, hmem⟩ := mem_flatMap.mp hm
  rcases mem_append.mp hmem with h | h
  · have hok := hts t ht
    cases t with
    | word w => exact hok.2.2 h
    | _ => exact absurd h (by decide)
  · exact absurd h (by decide)

theorem args_words (argv : List Word) : Args (argv.map .word) argv [] := by
  induction argv with
  | nil => exact .nil
  | cons w argv ih => exact .cons .nil ih

theorem Derives.parens (h : Derives .line ts c) : Derives .exec (.lparen :: (ts ++ [.rparen])) c :=
  .block h .nil

theorem Derives.line (h : Derives .exec ts c) : Derives .line ts c := by
  have hline := Derives.pipe 0 (Derives.exec h)
  rwa [replicate_zero, append_nil] at hline

theorem derives_toks (hc : CmdOk c) : Derives .line c.toks c := by
  induction c with
  | exec argv => exact (Derives.args .nil (args_words argv) hc.1).line
  | redir c file mode fd ih =>
    exact (Derives.block (ih hc.1) (.cons hc.2.2 .nil)).line
  | pipe l r ihl ihr =>
    have hbar := Derives.bar (ihl hc.1).parens (.exec (ihr hc.2).parens)
    have hline := Derives.pipe 0 hbar
    rwa [replicate_zero, append_nil] at hline
  | list l r ihl ihr => exact .semi 0 (.exec (ihl hc.1).parens) (ihr hc.2).parens.line
  | back c ih => exact .pipe 1 (.exec (ih hc).parens)

theorem Lexes.length_le (h : Lexes s ts) : ts.length ≤ s.length := by
  induction h with
  | nil => exact le_rfl
  | space hc h ih => exact ih.trans (Nat.le_succ _)
  | @tok t s ts hends h ih =>
    have hpos : 0 < t.text.length := by
      cases t with
      | word w => exact length_pos_of_ne_nil hends.1
      | _ => exact Nat.succ_pos _
    rw [length_append, length_cons]
    omega

theorem parsecmd_eq (h0 : 0 ∉ s) (fuel : ℕ) : parsecmd fuel s =
    (parseline fuel s).bind fun p => if skip p.2 = [] then .ok p.1 else .error .leftovers := by
  have hall : s.takeWhile (fun c => c ≠ 0) = s := by
    rw [takeWhile_eq_self_iff]
    intro c hc
    simpa using ne_of_mem_of_not_mem hc h0
  rw [parsecmd, hall]
  rfl

theorem parsecmd_of_derives (h0 : 0 ∉ s) (hl : Lexes s ts) (hd : Derives .line ts c) {fuel : ℕ}
    (hf : 4 * s.length + 4 ≤ fuel) : parsecmd fuel s = .ok c := by
  have hlen := hl.length_le
  have hl' : Lexes s (ts ++ []) := by rwa [append_nil]
  obtain ⟨s', hs, hrest⟩ := parse_complete fuel hd hl' (fun t ht => by cases ht)
    (by simp only [Nonterminal.level, append_nil]; omega)
  have hskip : skip s' = [] := by
    rcases hrest.first with ⟨-, h⟩ | ⟨_, _, _, h, -⟩
    · exact h
    · cases h
  simp only [Nonterminal.parse] at hs
  rw [parsecmd_eq h0, hs]
  exact if_pos hskip

/-- The parser of the shell returns for every line. It returns the command that the grammar derives
from the tokens of the line, and an error when there is none; and the printed form of a command is
parsed to the command. -/
theorem parsecmd_spec (h0 : 0 ∉ s) {fuel : ℕ} (hf : 4 * s.length + 4 ≤ fuel) :
    parsecmd fuel s ≠ .error .rounds ∧
      (∀ c, parsecmd fuel s = .ok c ↔ ∃ ts, Lexes s ts ∧ Derives .line ts c) ∧
      ∀ ts c, Lexes s ts → Derives .line ts c →
        ∀ fuel, 4 * c.print.length + 4 ≤ fuel → parsecmd fuel c.print = .ok c := by
  obtain ⟨ts, hl⟩ := exists_lexes s
  have hlen := hl.length_le
  have htotal := (parse_total fuel hl).1 (by omega)
  refine ⟨?_, fun c => ⟨fun hc => ?_, ?_⟩, ?_⟩
  · rw [parsecmd_eq h0]
    cases hp : parseline fuel s with
    | error e =>
      rw [hp] at htotal
      exact fun he => htotal (Except.error.inj he)
    | ok p =>
      simp only [Except.bind]
      split <;> exact nofun
  · rw [parsecmd_eq h0] at hc
    cases hp : parseline fuel s with
    | error e =>
      rw [hp] at hc
      cases hc
    | ok p =>
      obtain ⟨d, s'⟩ := p
      rw [hp] at hc htotal
      obtain ⟨us, vs, rfl, hd, hrest⟩ := htotal
      simp only [Except.bind] at hc
      split at hc
      next hskip =>
        cases hc
        -- nothing is left over
        rcases hrest.first with ⟨rfl, -⟩ | ⟨t, r, ws, -, hs', hends, -⟩
        · exact ⟨us, by rwa [append_nil] at hl, hd⟩
        rw [hskip] at hs'
        have htext := (append_eq_nil_iff.mp hs'.symm).1
        cases t with
        | word w => exact absurd htext hends.1
        | _ => cases htext
      next => cases hc
  · rintro ⟨us, hus, hd⟩
    exact parsecmd_of_derives h0 hus hd hf
  · intro us c hus hd fuel hf'
    have hok := hd.ok (hus.tok_ok h0)
    have htoks := toks_ok hok
    exact parsecmd_of_derives (notMem_printToks htoks) (lexes_printToks htoks)
      (derives_toks hok) hf'

/-- `a|b>c`. -/
theorem parsecmd_spec_pipe : ∃ c, parsecmd 24 [97, 124, 98, 62, 99] = .ok c ∧
      c = .pipe (.exec [[97]]) (.redir (.exec [[98]]) [99] 0x601 1) ∧
      (∃ ts, Lexes [97, 124, 98, 62, 99] ts ∧ Derives .line ts c) ∧
      parsecmd 200 c.print = .ok c := by
  have hp : parsecmd 24 [97, 124, 98, 62, 99] =
      .ok (.pipe (.exec [[97]]) (.redir (.exec [[98]]) [99] 0x601 1)) := by decide +kernel
  obtain ⟨-, hiff, hprint⟩ := parsecmd_spec (s := [97, 124, 98, 62, 99]) (by decide)
    (show _ ≤ 24 by decide)
  obtain ⟨ts, hl, hd⟩ := (hiff _).mp hp
  exact ⟨_, hp, rfl, ⟨ts, hl, hd⟩, hprint ts _ hl hd 200 (by decide)⟩

end Xv6.Sh
