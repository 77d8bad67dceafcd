import SystemProgramming.Xv6.ShGrammar

/-!
# The parser of the shell

A pointer into the line is written as the bytes from there to the end `es`, so `*s` at `es` is the
terminating NUL, and `s < es` says that the list is not empty. A counted string is the pair of
pointers that `gettoken` sets. When the line has been parsed, `nulterminate` overwrites the byte
behind each counted string, and from then on the pointers to the starts are enough.

The parser is recursive, so it is given a bound for the depth of its calls; `Stop.outOfFuel` is
what comes of a bound that is too small.

## What is assumed

`malloc` returns memory, and the user stack, which is one page in xv6, has room for the recursion,
whose depth is bounded by the length of the line. The line has no NUL: `gets` cuts it there. `panic`
ends the process; here it is the result `Stop.panic`, with what has been printed.

## Main definitions

* `gettoken`, `peek` — the lexical functions
* `parseline`, `parsepipe`, `parseexec`, `parseblock` — the parser
* `nulterminate`, `parsecmd` — what `runcmd` is given
-/

namespace SystemProgramming

namespace Xv6

namespace Sh

/-- A counted string: the pointers to its first byte and to the byte behind it. -/
structure Span where
  q : List UInt8
  eq : List UInt8
  deriving DecidableEq, Repr

/-- The bytes of a counted string. -/
def Span.word (w : Span) : List UInt8 := w.q.take (w.q.length - w.eq.length)

/-- Why the shell gives a line up. -/
inductive Error where
  | leftovers (s : List UInt8)
  | missingFile
  | parseblock
  | missingParen
  | unexpected
  | tooManyArgs
  deriving DecidableEq, Repr

/-- What is printed then. -/
def Error.message : Error → List UInt8
  | .leftovers s => ascii "leftovers: " ++ s ++ ascii "\nsyntax\n"
  | .missingFile => ascii "missing file for redirection\n"
  | .parseblock => ascii "parseblock\n"
  | .missingParen => ascii "syntax - missing )\n"
  | .unexpected => ascii "syntax\n"
  | .tooManyArgs => ascii "too many args\n"

/-- How a call can end without a result. -/
inductive Stop where
  | panic (e : Error)
  | outOfFuel
  deriving DecidableEq, Repr

/-- A result, and where the parser is. -/
abbrev Parse := Except Stop (Cmd Span × List UInt8)

/-! ### Tokens -/

/-- `while(s < es && strchr(whitespace, *s)) s++` -/
def skipBlanks (s : List UInt8) : List UInt8 := s.dropWhile isBlank

/-- What `gettoken` returns and sets. -/
structure Got where
  ret : UInt8
  span : Span
  ps : List UInt8
  deriving DecidableEq, Repr

/-- The case `>` of `gettoken`: one or two of them. -/
def outputAt : List UInt8 → UInt8 × List UInt8
  | 62 :: s => (43, s)
  | s => (62, s)

/-- The value of a token, and where it ends; `s` begins with it. -/
def tokenAt : List UInt8 → UInt8 × List UInt8
  | [] => (0, [])
  | c :: s =>
    if (ascii "|();&<").contains c then (c, s)
    else if c = 62 then outputAt s
    else (97, (c :: s).dropWhile isWordByte)

def gettoken (ps : List UInt8) : Got :=
  let s := skipBlanks ps
  let t := tokenAt s
  ⟨t.1, ⟨s, t.2⟩, skipBlanks t.2⟩

/-- `peek`, and where it leaves `*ps`. -/
def peek (ps toks : List UInt8) : Bool × List UInt8 :=
  let s := skipBlanks ps
  (s.head?.any toks.contains, s)

/-! ### The parser -/

/-- `while(peek(ps, es, "&"))` in `parseline`. -/
def parseamps : ℕ → Cmd Span → List UInt8 → Parse
  | 0, _, _ => .error .outOfFuel
  | fuel + 1, cmd, s =>
    let p := peek s (ascii "&")
    if p.1 then parseamps fuel (.back cmd) (gettoken p.2).ps else .ok (cmd, p.2)

/-- `redircmd`, as the operator asks for. -/
def redircmd (cmd : Cmd Span) (file : Span) (tok : UInt8) : Cmd Span :=
  if tok = 60 then .redir cmd file .input
  else if tok = 62 then .redir cmd file .output
  else if tok = 43 then .redir cmd file .append
  else cmd

def parseredirs : ℕ → Cmd Span → List UInt8 → Parse
  | 0, _, _ => .error .outOfFuel
  | fuel + 1, cmd, s =>
    let p := peek s (ascii "<>")
    if p.1 then
      let tok := gettoken p.2
      let file := gettoken tok.ps
      if file.ret ≠ 97 then .error (.panic .missingFile)
      else parseredirs fuel (redircmd cmd file.span tok.ret) file.ps
    else .ok (cmd, p.2)

/-- The loop of `parseexec`; `argc` words have been read. -/
def parseargs : ℕ → Cmd Span → ℕ → List UInt8 → Parse
  | 0, _, _, _ => .error .outOfFuel
  | fuel + 1, ret, argc, s =>
    let p := peek s (ascii "|)&;")
    if p.1 then .ok (ret, p.2)
    else
      let tok := gettoken p.2
      if tok.ret = 0 then .ok (ret, tok.ps)
      else if tok.ret ≠ 97 then .error (.panic .unexpected)
      else if maxArgs ≤ argc + 1 then .error (.panic .tooManyArgs)
      else do
        let r ← parseredirs fuel (ret.addArg tok.span) tok.ps
        parseargs fuel r.1 (argc + 1) r.2

mutual

def parseline : ℕ → List UInt8 → Parse
  | 0, _ => .error .outOfFuel
  | fuel + 1, s => do
    let r ← parsepipe fuel s
    let r ← parseamps fuel r.1 r.2
    let p := peek r.2 (ascii ";")
    if p.1 then do
      let right ← parseline fuel (gettoken p.2).ps
      .ok (.list r.1 right.1, right.2)
    else .ok (r.1, p.2)

def parsepipe : ℕ → List UInt8 → Parse
  | 0, _ => .error .outOfFuel
  | fuel + 1, s => do
    let r ← parseexec fuel s
    let p := peek r.2 (ascii "|")
    if p.1 then do
      let right ← parsepipe fuel (gettoken p.2).ps
      .ok (.pipe r.1 right.1, right.2)
    else .ok (r.1, p.2)

def parseexec : ℕ → List UInt8 → Parse
  | 0, _ => .error .outOfFuel
  | fuel + 1, s =>
    let p := peek s (ascii "(")
    if p.1 then parseblock fuel p.2
    else do
      let r ← parseredirs fuel (.exec []) p.2
      parseargs fuel r.1 0 r.2

def parseblock : ℕ → List UInt8 → Parse
  | 0, _ => .error .outOfFuel
  | fuel + 1, s =>
    let p := peek s (ascii "(")
    if p.1 then do
      let r ← parseline fuel (gettoken p.2).ps
      let p := peek r.2 (ascii ")")
      if p.1 then parseredirs fuel r.1 (gettoken p.2).ps
      else .error (.panic .missingParen)
    else .error (.panic .parseblock)

end

/-! ### The whole line -/

/-- Where a counted string ends in the array that holds a line of `n` bytes. -/
def Span.stop (n : ℕ) (w : Span) : ℕ := n - w.eq.length

/-- `*efile = 0` -/
def terminate (n : ℕ) (buf : List UInt8) (w : Span) : List UInt8 := buf.set (w.stop n) 0

def nulterminate (n : ℕ) : Cmd Span → List UInt8 → List UInt8
  | .exec argv, buf => argv.foldl (terminate n) buf
  | .redir cmd file _, buf => terminate n (nulterminate n cmd buf) file
  | .pipe left right, buf => nulterminate n right (nulterminate n left buf)
  | .list left right, buf => nulterminate n right (nulterminate n left buf)
  | .back cmd, buf => nulterminate n cmd buf

/-- Calls that deep are enough for a line of `n` bytes. -/
def fuelFor (n : ℕ) : ℕ := 4 * n + 4

/-- `parsecmd`: the command, and what the array holds then. -/
def parsecmd (s : List UInt8) : Except Stop (Cmd Span × List UInt8) := do
  let r ← parseline (fuelFor s.length) s
  let p := peek r.2 []
  if p.2 ≠ [] then .error (.panic (.leftovers p.2))
  else .ok (r.1, nulterminate s.length r.1 (s ++ [0]))

/-- The string that a pointer to the start of `w` is once the array holds `buf`. -/
def stringAt (n : ℕ) (buf : List UInt8) (w : Span) : List UInt8 :=
  cstring (buf.drop (n - w.q.length))

/-- The command that `runcmd` is given for a line. -/
def commandOf (s : List UInt8) : Except Stop (Cmd (List UInt8)) :=
  (parsecmd s).map fun r => r.1.map (stringAt s.length r.2)

end Sh

end Xv6

end SystemProgramming
