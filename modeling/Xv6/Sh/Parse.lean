import Xv6.Sh.Cmd

/-! The parser of the shell, and the grammar of its commands. A pointer into the line is the list
of the characters from there up to the end. A word is kept as its characters; `nulterminate` ends
each word where its characters end. The recursion has a bound, and the error `rounds` says that it
is too small. -/
namespace Xv6.Sh

abbrev maxargs : ℕ := 10

def whitespace : List UInt8 := [32, 9, 13, 10, 11]

def symbols : List UInt8 := [60, 124, 62, 38, 59, 40, 41]

def ordinary (c : UInt8) : Bool := decide (c ∉ whitespace ∧ c ∉ symbols)

/-- What `gettoken` returns, with the characters of a word. -/
inductive Tok where
  | word (w : Word)
  | bar
  | lparen
  | rparen
  | semi
  | amp
  | lt
  | gt
  | gtgt
  deriving DecidableEq

inductive ParseError where
  | leftovers
  | missingFile
  | noBlock
  | missingParen
  | unexpected
  | tooManyArgs
  | rounds
  deriving DecidableEq

structure Redir where
  file : Word
  mode : ℕ
  fd : Fin 3
  deriving DecidableEq

def wrap (cmd : Cmd) (rs : List Redir) : Cmd :=
  rs.foldl (fun c r => .redir c r.file r.mode r.fd) cmd

/-- The modes are `O_RDONLY`, `O_WRONLY|O_CREATE|O_TRUNC` and `O_WRONLY|O_CREATE`. -/
def redirOf : Tok → Word → Option Redir
  | .lt, w => some ⟨w, 0x000, 0⟩
  | .gt, w => some ⟨w, 0x601, 1⟩
  | .gtgt, w => some ⟨w, 0x201, 1⟩
  | _, _ => none

def skip (s : List UInt8) : List UInt8 := s.dropWhile fun c => decide (c ∈ whitespace)

/-- The token is `none` at the end of the line. -/
def gettoken (s : List UInt8) : Option Tok × List UInt8 :=
  match skip s with
  | [] => (none, [])
  | c :: r =>
    if c = 124 then (some .bar, skip r)
    else if c = 40 then (some .lparen, skip r)
    else if c = 41 then (some .rparen, skip r)
    else if c = 59 then (some .semi, skip r)
    else if c = 38 then (some .amp, skip r)
    else if c = 60 then (some .lt, skip r)
    else if c = 62 then
      if r.head? = some 62 then (some .gtgt, skip r.tail) else (some .gt, skip r)
    else (some (.word ((c :: r).takeWhile ordinary)), skip ((c :: r).dropWhile ordinary))

/-- The test of `peek`, which also moves the pointer to `skip s`. -/
def peek (s : List UInt8) (toks : List UInt8) : Bool :=
  match skip s with
  | [] => false
  | c :: _ => decide (c ∈ toks)

abbrev Result := Except ParseError

/-- The loop of `parseredirs`, with the redirections `rs` around the command. -/
def parseredirs : ℕ → List Redir → List UInt8 → Result (List Redir × List UInt8)
  | 0, _, _ => .error .rounds
  | fuel + 1, rs, s =>
    if peek s [60, 62] then
      match gettoken (gettoken (skip s)).2 with
      | (some (.word w), s') =>
        parseredirs fuel (rs ++ ((gettoken (skip s)).1.bind fun tok => redirOf tok w).toList) s'
      | _ => .error .missingFile
    else .ok (rs, skip s)

/-- The loop of `parseexec`, with the words `argv` and the redirections `rs` so far. -/
def parseargs : ℕ → List Word → List Redir → List UInt8 → Result (Cmd × List UInt8)
  | 0, _, _, _ => .error .rounds
  | fuel + 1, argv, rs, s =>
    if peek s [124, 41, 38, 59] then .ok (wrap (.exec argv) rs, skip s)
    else
      match gettoken (skip s) with
      | (none, s') => .ok (wrap (.exec argv) rs, s')
      | (some (.word w), s') =>
        if maxargs ≤ argv.length + 1 then .error .tooManyArgs
        else do
          let (rs, s') ← parseredirs fuel rs s'
          parseargs fuel (argv ++ [w]) rs s'
      | _ => .error .unexpected

def parsebacks : ℕ → Cmd → List UInt8 → Result (Cmd × List UInt8)
  | 0, _, _ => .error .rounds
  | fuel + 1, cmd, s =>
    if peek s [38] then parsebacks fuel (.back cmd) (gettoken (skip s)).2 else .ok (cmd, skip s)

mutual

def parseline : ℕ → List UInt8 → Result (Cmd × List UInt8)
  | 0, _ => .error .rounds
  | fuel + 1, s => do
    let (cmd, s) ← parsepipe fuel s
    let (cmd, s) ← parsebacks fuel cmd s
    if peek s [59] then
      let (right, s) ← parseline fuel (gettoken (skip s)).2
      .ok (.list cmd right, s)
    else .ok (cmd, skip s)

def parsepipe : ℕ → List UInt8 → Result (Cmd × List UInt8)
  | 0, _ => .error .rounds
  | fuel + 1, s => do
    let (cmd, s) ← parseexec fuel s
    if peek s [124] then
      let (right, s) ← parsepipe fuel (gettoken (skip s)).2
      .ok (.pipe cmd right, s)
    else .ok (cmd, skip s)

def parseexec : ℕ → List UInt8 → Result (Cmd × List UInt8)
  | 0, _ => .error .rounds
  | fuel + 1, s =>
    if peek s [40] then parseblock fuel (skip s)
    else do
      let (rs, s) ← parseredirs fuel [] (skip s)
      parseargs fuel [] rs s

def parseblock : ℕ → List UInt8 → Result (Cmd × List UInt8)
  | 0, _ => .error .rounds
  | fuel + 1, s =>
    if peek s [40] then do
      let (cmd, s) ← parseline fuel (gettoken (skip s)).2
      if peek s [41] then
        let (rs, s) ← parseredirs fuel [] (gettoken (skip s)).2
        .ok (wrap cmd rs, s)
      else .error .missingParen
    else .error .noBlock

end

def parsecmd (fuel : ℕ) (buf : List UInt8) : Result Cmd := do
  let (cmd, s) ← parseline fuel (buf.takeWhile fun c => c ≠ 0)
  if skip s = [] then .ok cmd else .error .leftovers

def Tok.text : Tok → List UInt8
  | .word w => w
  | .bar => [124]
  | .lparen => [40]
  | .rparen => [41]
  | .semi => [59]
  | .amp => [38]
  | .lt => [60]
  | .gt => [62]
  | .gtgt => [62, 62]

def Tok.Ends (s : List UInt8) : Tok → Prop
  | .word w => w ≠ [] ∧ (∀ c ∈ w, ordinary c = true) ∧ ∀ c ∈ s.head?, ordinary c = false
  | .gt => s.head? ≠ some 62
  | _ => True

/-- The tokens of a line, with whitespace between them where one likes. -/
inductive Lexes : List UInt8 → List Tok → Prop where
  | nil : Lexes [] []
  | space {c : UInt8} {s : List UInt8} {ts : List Tok} (hc : c ∈ whitespace) (h : Lexes s ts) :
      Lexes (c :: s) ts
  | tok {t : Tok} {s : List UInt8} {ts : List Tok} (ht : t.Ends s) (h : Lexes s ts) :
      Lexes (t.text ++ s) (t :: ts)

inductive Redirs : List Tok → List Redir → Prop where
  | nil : Redirs [] []
  | cons {t : Tok} {w : Word} {r : Redir} {ts : List Tok} {rs : List Redir}
      (hr : redirOf t w = some r) (h : Redirs ts rs) : Redirs (t :: .word w :: ts) (r :: rs)

inductive Args : List Tok → List Word → List Redir → Prop where
  | nil : Args [] [] []
  | cons {w : Word} {ts us : List Tok} {rs qs : List Redir} {ws : List Word} (hr : Redirs ts rs)
      (h : Args us ws qs) : Args (.word w :: (ts ++ us)) (w :: ws) (rs ++ qs)

inductive Nonterminal where
  | line
  | pipe
  | exec
  deriving DecidableEq

/-- The grammar, with the tree that belongs to each derivation. -/
inductive Derives : Nonterminal → List Tok → Cmd → Prop where
  | block {ts us : List Tok} {c : Cmd} {rs : List Redir} (h : Derives .line ts c)
      (hr : Redirs us rs) : Derives .exec (.lparen :: (ts ++ .rparen :: us)) (wrap c rs)
  | args {ts us : List Tok} {ws : List Word} {rs qs : List Redir} (hr : Redirs ts rs)
      (h : Args us ws qs) (hn : ws.length < maxargs) :
      Derives .exec (ts ++ us) (wrap (.exec ws) (rs ++ qs))
  | exec {ts : List Tok} {c : Cmd} (h : Derives .exec ts c) : Derives .pipe ts c
  | bar {ts us : List Tok} {c d : Cmd} (hl : Derives .exec ts c) (hr : Derives .pipe us d) :
      Derives .pipe (ts ++ .bar :: us) (.pipe c d)
  | pipe {ts : List Tok} {c : Cmd} (n : ℕ) (h : Derives .pipe ts c) :
      Derives .line (ts ++ List.replicate n .amp) (Cmd.back^[n] c)
  | semi {ts us : List Tok} {c d : Cmd} (n : ℕ) (hl : Derives .pipe ts c)
      (hr : Derives .line us d) :
      Derives .line (ts ++ (List.replicate n .amp ++ .semi :: us)) (.list (Cmd.back^[n] c) d)

def redirTok (mode : ℕ) (fd : Fin 3) : Tok :=
  if fd = 0 then .lt else if mode = 0x601 then .gt else .gtgt

/-- A command as tokens, with parentheses around its parts. -/
def Cmd.toks : Cmd → List Tok
  | .exec argv => argv.map .word
  | .redir cmd file mode fd => .lparen :: (cmd.toks ++ [.rparen, redirTok mode fd, .word file])
  | .pipe left right =>
    .lparen :: (left.toks ++ [.rparen]) ++ .bar :: .lparen :: (right.toks ++ [.rparen])
  | .list left right =>
    .lparen :: (left.toks ++ [.rparen]) ++ .semi :: .lparen :: (right.toks ++ [.rparen])
  | .back cmd => .lparen :: (cmd.toks ++ [.rparen]) ++ [.amp]

def printToks (ts : List Tok) : List UInt8 := ts.flatMap fun t => t.text ++ [32]

def Cmd.print (cmd : Cmd) : List UInt8 := printToks cmd.toks

end Xv6.Sh
