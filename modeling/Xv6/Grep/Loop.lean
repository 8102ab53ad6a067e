import Mathlib.Data.List.TakeWhile
import Xv6.Grep.Match
import Xv6.Lib.Lines
import Xv6.Ulib

/-! The loop of `grep`. The input is the bytes that are still to be read; how many of them a `read`
returns is up to the file, as long as it is at least one while there are bytes and there is room. -/
namespace Xv6.Grep
open Function Ulib Lines List

abbrev bufsize : ℕ := 1024

def store (buf : Mem) (q : ℕ) (c : UInt8) : Except Fault Mem :=
  if q < bufsize then .ok (update buf q c) else .error .bounds

/-- The loop over the lines in the buffer, from `p` on: where the last one ends, the buffer, and the
lines that were written. -/
def lineLoop (pattern : List UInt8) : ℕ → ℕ → Mem → Except Fault (ℕ × Mem × List (List UInt8))
  | 0, _, _ => .error .unfinished
  | fuel + 1, p, buf => do
    match ← strchr buf 10 (bufsize - p) p with
    | none => .ok (p, buf, [])
    | some q => do
      let buf ← store buf q 0
      let text ← string buf (bufsize - p) p
      if isMatch pattern text then do
        let buf ← store buf q 10
        let (p', buf', out) ← lineLoop pattern fuel (q + 1) buf
        .ok (p', buf', bytes buf p (q + 1 - p) :: out)
      else lineLoop pattern fuel (q + 1) buf

/-- What `read` returns where it has room for `room` bytes and `avail` are left; `want` is the
file's choice. -/
def readCount (want room avail : ℕ) : ℕ := min (max 1 want) (min room avail)

/-- The loop of `grep`: what it writes. The number of bytes to read would wrap around if `m` were
beyond the buffer. -/
def grepLoop (pattern : List UInt8) :
    ℕ → (ℕ → ℕ) → ℕ → Mem → List UInt8 → Except Fault (List (List UInt8))
  | 0, _, _, _, _ => .error .unfinished
  | fuel + 1, reads, m, buf, input =>
    if bufsize ≤ m then .error .bounds
    else
      let n := readCount (reads 0) (bufsize - m - 1) input.length
      if n = 0 then .ok []
      else do
        let buf := fill buf m (input.take n)
        let m := m + n
        let buf ← store buf m 0
        let (p, buf, out) ← lineLoop pattern bufsize 0 buf
        if m < p ∨ bufsize < m then .error .bounds
        else do
          let m' := if 0 < m then m - p else m
          let buf := if 0 < m then memmove buf 0 p m' else buf
          let out' ← grepLoop pattern fuel (fun k => reads (k + 1)) m' buf (input.drop n)
          .ok (out ++ out')

/-- `grep` on a file with the bytes `input`; `buf` is as the file before has left it. -/
def grep (pattern : List UInt8) (reads : ℕ → ℕ) (buf : Mem) (input : List UInt8) :
    Except Fault (List (List UInt8)) :=
  grepLoop pattern (input.length + 1) reads 0 buf input

def newline (c : UInt8) : Bool := decide (c = 10)

private theorem newline_eq_false {c : UInt8} : newline c = false ↔ c ≠ 10 := by simp [newline]

def matching (pattern : List UInt8) (ls : List (List UInt8)) : List (List UInt8) :=
  (ls.filter fun l => isMatch pattern l).map fun l => l ++ [10]

theorem matching_append (pattern : List UInt8) (ls ls' : List (List UInt8)) :
    matching pattern (ls ++ ls') = matching pattern ls ++ matching pattern ls' := by
  rw [matching, filter_append, map_append, matching, matching]

def fits (l : List UInt8) : Bool := decide (l.length + 1 < bufsize)

/-- The lines of the buffer: those that match are written, and the line that is not complete is left
at the end. -/
theorem lineLoop_spec (pattern s : List UInt8) : ∀ (fuel p : ℕ) (buf : Mem), s.length < fuel →
    p + s.length < bufsize → Holds buf p s → buf (p + s.length) = 0 → (∀ x ∈ s, x ≠ 0) →
    ∃ p' buf', lineLoop pattern fuel p buf = .ok (p', buf', matching pattern (complete newline s)) ∧
      p' + (pending newline s).length = p + s.length ∧ Holds buf' p' (pending newline s) := by
  induction s using line_induction (p := newline) with
  | rest s hs =>
    intro fuel p buf hfuel hroom hheld hend hnul
    obtain ⟨fuel, rfl⟩ := Nat.exists_eq_add_one_of_ne_zero (Nat.ne_zero_of_lt hfuel)
    have hnone : strchr buf 10 (bufsize - p) p = .ok none :=
      strchr_eq (.inl rfl) (by omega) hheld hend hnul fun x hx => newline_eq_false.mp (hs x hx)
    rw [complete_of_forall hs, pending_of_forall hs]
    refine ⟨p, buf, ?_, rfl, hheld⟩
    rw [lineLoop, hnone]
    rfl
  | line l c s hl hc ih =>
    intro fuel p buf hfuel hroom hheld hend hnul
    obtain ⟨fuel, rfl⟩ := Nat.exists_eq_add_one_of_ne_zero (Nat.ne_zero_of_lt hfuel)
    obtain rfl : c = 10 := of_decide_eq_true hc
    rw [complete_line hl hc, pending_line hl hc]
    rw [length_append, length_cons] at hfuel hroom hend ⊢
    obtain ⟨hheldl, hq⟩ := holds_append.mp hheld
    obtain ⟨hq, hhelds⟩ := holds_cons.mp hq
    have hnull : ∀ x ∈ l, x ≠ 0 := fun x hx => hnul x (mem_append_left _ hx)
    have hnuls : ∀ x ∈ s, x ≠ 0 :=
      fun x hx => hnul x (mem_append_right _ (mem_cons_of_mem _ hx))
    have hsome : strchr buf 10 (bufsize - p) p = .ok (some (p + l.length)) :=
      strchr_eq (.inr rfl) (by omega) hheldl hq hnull fun x hx => newline_eq_false.mp (hl x hx)
    -- with a NUL in the place of the newline the line is a string
    have hstring : string (update buf (p + l.length) 0) (bufsize - p) p = .ok l :=
      string_eq (by omega)
        (hheldl.congr fun k _ hk => update_of_ne (Nat.ne_of_lt hk) _ _)
        (update_self ..) hnull
    have hnext : p + (l.length + (s.length + 1)) = p + l.length + 1 + s.length := by omega
    rw [hnext] at hend hroom ⊢
    rw [lineLoop, hsome]
    simp only [bind, Except.bind, store, if_pos (show p + l.length < bufsize by omega), hstring,
      update_idem]
    by_cases hmatch : isMatch pattern l = true
    · rw [if_pos hmatch]
      have hself : update buf (p + l.length) 10 = buf := by rw [← hq, update_eq_self]
      obtain ⟨p', buf', hrest, hp', hheld'⟩ :=
        ih fuel (p + l.length + 1) buf (by omega) hroom hhelds hend hnuls
      have hline : bytes buf p (p + l.length + 1 - p) = l ++ [10] := by
        have hwhole : Holds buf p (l ++ [10]) :=
          holds_append.mpr ⟨hheldl, holds_cons.mpr ⟨hq, holds_nil ..⟩⟩
        rw [Holds, length_append, length_singleton] at hwhole
        rw [show p + l.length + 1 - p = l.length + 1 by omega, hwhole]
      refine ⟨p', buf', ?_, hp', hheld'⟩
      rw [hself, hrest]
      simp only [hline, matching, filter_cons, if_pos hmatch, map_cons]
    · rw [if_neg hmatch]
      obtain ⟨p', buf', hrest, hp', hheld'⟩ :=
        ih fuel (p + l.length + 1) (update buf (p + l.length) 0) (by omega) hroom
          (hhelds.congr fun k hk _ => update_of_ne (by omega) _ _)
          (by rw [update_of_ne (by omega), hend]) hnuls
      refine ⟨p', buf', ?_, hp', hheld'⟩
      rw [hrest]
      simp only [matching, filter_cons, if_neg hmatch]

theorem readCount_le (want room avail : ℕ) : readCount want room avail ≤ room ∧
    readCount want room avail ≤ avail :=
  le_min_iff.mp (min_le_right _ _)

theorem readCount_eq_zero {want room avail : ℕ} (h : readCount want room avail = 0) :
    room = 0 ∨ avail = 0 := by
  unfold readCount at h
  omega

/-- The loop writes the lines that match, up to the first one that does not fit. -/
theorem grepLoop_spec (pattern : List UInt8) (fuel : ℕ) : ∀ (reads : ℕ → ℕ) (buf : Mem)
    (pend input : List UInt8), input.length < fuel → pend.length < bufsize → Holds buf 0 pend →
    (∀ c ∈ pend, newline c = false) → (∀ x ∈ pend, x ≠ 0) → (∀ x ∈ input, x ≠ 0) →
    grepLoop pattern fuel reads pend.length buf input =
      .ok (matching pattern ((complete newline (pend ++ input)).takeWhile fits)) := by
  induction fuel with
  | zero => exact fun _ _ _ _ h => absurd h (Nat.not_lt_zero _)
  | succ fuel ih =>
    intro reads buf pend input hfuel hroom hheld hpend hnulp hnuli
    rw [grepLoop, if_neg (by omega)]
    obtain ⟨hn, hnavail⟩ := readCount_le (reads 0) (bufsize - pend.length - 1) input.length
    generalize hcount :
      readCount (reads 0) (bufsize - pend.length - 1) input.length = n at hn hnavail
    by_cases hzero : n = 0
    · rw [hzero] at hcount
      rw [if_pos hzero]
      suffices hnone : (complete newline (pend ++ input)).takeWhile fits = [] by
        rw [hnone]
        rfl
      rcases readCount_eq_zero hcount with hfull | hempty
      -- the buffer is full, and its line does not end in it
      · have hlong := le_length_of_head_complete hpend input
        cases hlines : complete newline (pend ++ input) with
        | nil => rfl
        | cons x xs =>
          rw [hlines] at hlong
          have hx := hlong x rfl
          exact takeWhile_cons_of_neg (by simp only [fits, decide_eq_true_eq]; omega)
      · rw [length_eq_zero_iff.mp hempty, append_nil, complete_of_forall hpend]
        rfl
    rw [if_neg hzero]
    have hlen : (input.take n).length = n := by
      rw [length_take]
      exact min_eq_left hnavail
    have hs : (pend ++ input.take n).length = pend.length + n := by rw [length_append, hlen]
    have hsplit : pend ++ input = (pend ++ input.take n) ++ input.drop n := by
      rw [append_assoc, take_append_drop]
    have hnuls : ∀ x ∈ pend ++ input.take n, x ≠ 0 := fun x hx =>
      (mem_append.mp hx).elim (hnulp x) fun hx => hnuli x (mem_of_mem_take hx)
    have hfilled := holds_fill hheld (input.take n)
    rw [hsplit]
    generalize pend ++ input.take n = s at hs hnuls hfilled
    obtain ⟨p, buf', hline, hp, hheld'⟩ := lineLoop_spec pattern s bufsize 0
      (update (fill buf pend.length (input.take n)) (pend.length + n) 0)
      (by omega) (by omega)
      (hfilled.congr fun k _ hk => update_of_ne (by omega) _ _)
      (by rw [Nat.zero_add, hs, update_self]) hnuls
    rw [Nat.zero_add, hs] at hp
    have hshort : ∀ l ∈ complete newline s, fits l = true := by
      intro l hl
      have := length_lt_of_mem_complete s l hl
      simp only [fits, decide_eq_true_eq]
      omega
    have hrest := ih (fun k => reads (k + 1)) (memmove buf' 0 p (pending newline s).length)
      (pending newline s) (input.drop n) (by rw [List.length_drop]; omega) (by omega)
      (by rw [memmove_eq]; exact holds_moved hheld') (sep_of_mem_pending s)
      (fun x hx => hnuls x (mem_of_mem_pending x hx)) (fun x hx => hnuli x (mem_of_mem_drop hx))
    have hm' : pend.length + n - p = (pending newline s).length := by omega
    simp only [bind, Except.bind, store, if_pos (show pend.length + n < bufsize by omega), hline,
      if_neg (show ¬ (pend.length + n < p ∨ bufsize < pend.length + n) by omega),
      if_pos (show 0 < pend.length + n by omega), hm', hrest]
    rw [complete_append s, takeWhile_append_of_pos hshort, matching_append]

/-- `grep` writes the lines that match, up to the first one that does not fit into the buffer, for
every way to split the input into reads. -/
theorem grep_eq (pattern : List UInt8) (reads : ℕ → ℕ) (buf : Mem) {input : List UInt8}
    (hnul : ∀ x ∈ input, x ≠ 0) : grep pattern reads buf input =
      .ok (matching pattern ((complete newline input).takeWhile fits)) :=
  grepLoop_spec pattern (input.length + 1) reads buf [] input (Nat.lt_succ_self _) (by decide)
    (holds_nil ..) (fun _ h => absurd h not_mem_nil) (fun _ h => absurd h not_mem_nil) hnul

/-- How the input arrives does not matter: when every line fits into the buffer, `grep` writes the
newline-terminated lines that match, in order. -/
theorem grep_chunking (pattern : List UInt8) (reads : ℕ → ℕ) (buf : Mem) {input : List UInt8}
    (hnul : ∀ x ∈ input, x ≠ 0) (hfit : ∀ l ∈ complete newline input, l.length + 1 ≤ bufsize - 1) :
    grep pattern reads buf input = .ok (matching pattern (complete newline input)) := by
  have hall : (complete newline input).takeWhile fits = complete newline input := by
    apply takeWhile_eq_self_iff.mpr
    intro l hl
    have := hfit l hl
    simp only [fits, decide_eq_true_eq]
    omega
  rw [grep_eq pattern reads buf hnul, hall]

theorem grep_chunking_bytes : grep [97] (fun _ => 1) (fun _ => 0) [97, 98, 10, 98] =
    .ok (matching [97] (complete newline [97, 98, 10, 98])) :=
  grep_chunking [97] (fun _ => 1) (fun _ => 0) (by simp) (by decide)

theorem length_matching_takeWhile_le (pattern : List UInt8) (ls : List (List UInt8)) :
    (matching pattern (ls.takeWhile fits)).length ≤ (matching pattern ls).length := by
  rw [matching, matching, length_map, length_map]
  exact ((takeWhile_sublist _).filter _).length_le

/-- A line that matches is written exactly when it and the lines before it fit into the buffer. -/
theorem grep_writes_after_fitting (pattern : List UInt8) (reads : ℕ → ℕ) (buf : Mem)
    {input : List UInt8} {ls ls' : List (List UInt8)} {l : List UInt8}
    (hnul : ∀ x ∈ input, x ≠ 0) (hlines : complete newline input = ls ++ l :: ls')
    (hmatch : isMatch pattern l = true) :
    (∃ out, grep pattern reads buf input = .ok (matching pattern ls ++ (l ++ [10]) :: out)) ↔
      ∀ l' ∈ ls ++ [l], l'.length + 1 ≤ bufsize - 1 := by
  have hfits : (∀ l' ∈ ls ++ [l], l'.length + 1 ≤ bufsize - 1) ↔
      ∀ l' ∈ ls ++ [l], fits l' = true := by
    refine forall₂_congr fun l' _ => ?_
    simp only [fits, decide_eq_true_eq]
    omega
  rw [grep_eq pattern reads buf hnul, hlines, hfits]
  constructor
  · rintro ⟨out, hout⟩
    by_contra hnot
    -- the lines read before one that does not fit are among those before `l`
    have hcut : (ls ++ l :: ls').takeWhile fits = ls.takeWhile fits := by
      rw [takeWhile_append]
      split
      next hlen =>
        have hpre : ls.takeWhile fits <+: ls := takeWhile_prefix fits
        have hall := hpre.eq_of_length hlen
        have hl : ¬ fits l = true := by
          intro hl
          refine hnot fun l' hl' => (mem_append.mp hl').elim ?_ fun h => mem_singleton.mp h ▸ hl
          exact takeWhile_eq_self_iff.mp hall l'
        rw [takeWhile_cons_of_neg hl, append_nil, hall]
      · rfl
    rw [hcut] at hout
    have hlen := congrArg length (Except.ok.inj hout)
    have hle := length_matching_takeWhile_le pattern ls
    rw [length_append, length_cons] at hlen
    omega
  · intro hbefore
    refine ⟨matching pattern (ls'.takeWhile fits), ?_⟩
    rw [← singleton_append, ← append_assoc, takeWhile_append_of_pos hbefore, matching_append,
      matching_append, append_assoc]
    simp [matching, hmatch]

theorem grep_writes_after_fitting_second :
    ∃ out, grep [98] (fun _ => 1) (fun _ => 0) [97, 10, 98, 10] =
      .ok (matching [98] [[97]] ++ ([98] ++ [10]) :: out) := by
  have hlines : complete newline [97, 10, 98, 10] = [[97]] ++ [98] :: [] := by decide
  exact (grep_writes_after_fitting [98] (fun _ => 1) (fun _ => 0) (by simp) hlines
    (by simp [isMatch, matchloop, matchhere_cons, matchhere])).mpr (by decide)

def blinding : List UInt8 := List.replicate 1023 97 ++ [10, 98, 10]

/-- The line `b` after it is not written, however the input is split. -/
theorem grep_blind : (∀ x ∈ blinding, x ≠ 0) ∧
    complete newline blinding = [List.replicate 1023 97, [98]] ∧ isMatch [98] [98] = true ∧
    ∀ reads buf, grep [98] reads buf blinding = .ok [] := by
  have hlong : ∀ x ∈ List.replicate 1023 (97 : UInt8), newline x = false := by
    intro x hx
    rw [eq_of_mem_replicate hx]
    decide
  have hnul : ∀ x ∈ blinding, x ≠ 0 := by
    intro x hx
    rw [blinding, mem_append] at hx
    rcases hx with hx | hx
    · rw [eq_of_mem_replicate hx]
      decide
    · revert x
      simp
  have hlines : complete newline blinding = [List.replicate 1023 97, [98]] := by
    rw [blinding, complete_line hlong (by decide)]
    rfl
  refine ⟨hnul, hlines, by simp [isMatch, matchloop, matchhere_cons, matchhere], ?_⟩
  intro reads buf
  have hunfit : fits (List.replicate 1023 97) = false := by
    rw [fits, length_replicate]
    decide
  rw [grep_eq [98] reads buf hnul, hlines, takeWhile_cons_of_neg (by rw [hunfit]; decide)]
  rfl

end Xv6.Grep
