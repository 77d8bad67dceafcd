import SystemProgramming.Library.CString

/-!
# Command lines

What a line of the shell means: it is spelled with tokens, which blanks may separate, and the
tokens are derived from a command by a grammar. Nothing here looks for a token or decides which
rule is to be used; that is what the parser does.

A redirection is a command around the one that it redirects, and a later one stands around an
earlier one. There is no command for a pair of parentheses.

## Why this grammar

It is the grammar that `parseline`, `parsepipe` and `parseexec` have in mind, with their
peculiarities: any number of ampersands may stand behind a pipeline, each of them another command
around it; nothing need stand behind a semicolon, or between two of them, as a simple command
without words is a command; redirections may stand between the words. `|` and `;` group to the
right.

## Main definitions

* `Cmd` — commands, over what stands for a word
* `Token`, `Spells` — tokens, and the texts they are spelled by
* `Part`, `redirected`, `backs` — what simple commands, redirections and ampersands come to
* `Phrase`, `Derives` — the grammar

## Main results

* `map_congr`, `map_addArg` — the same command with other words
* `addArg_redirected` — an argument behind a redirection belongs to the command inside
* `redirected_append`, `partTokens_ofRedirs_append` — redirections one after the other
-/

namespace SystemProgramming

namespace Xv6

namespace Sh

/-- `O_RDONLY`, `O_WRONLY|O_CREATE|O_TRUNC`, `O_WRONLY|O_CREATE` as `parseredirs` uses them. -/
inductive Redirection where
  | input | output | append
  deriving DecidableEq, Repr

/-- `struct cmd` with its five kinds. -/
inductive Cmd (W : Type) where
  | exec (argv : List W)
  | redir (cmd : Cmd W) (file : W) (mode : Redirection)
  | pipe (left right : Cmd W)
  | list (left right : Cmd W)
  | back (cmd : Cmd W)
  deriving DecidableEq, Repr

namespace Cmd

variable {W V : Type}

/-- The same command with other words. -/
def map (f : W → V) : Cmd W → Cmd V
  | .exec argv => .exec (argv.map f)
  | .redir cmd file mode => .redir (cmd.map f) (f file) mode
  | .pipe left right => .pipe (left.map f) (right.map f)
  | .list left right => .list (left.map f) (right.map f)
  | .back cmd => .back (cmd.map f)

/-- The words of a command. -/
def words : Cmd W → List W
  | .exec argv => argv
  | .redir cmd file _ => cmd.words ++ [file]
  | .pipe left right => left.words ++ right.words
  | .list left right => left.words ++ right.words
  | .back cmd => cmd.words

/-- `argv[argc] = q` in the command that redirections have been put around since. -/
def addArg (w : W) : Cmd W → Cmd W
  | .exec argv => .exec (argv ++ [w])
  | .redir cmd file mode => .redir (cmd.addArg w) file mode
  | cmd => cmd

theorem map_congr {f g : W → V} : ∀ {c : Cmd W}, (∀ w ∈ c.words, f w = g w) → c.map f = c.map g
  | .exec argv, h => by
    have hargv : argv.map f = argv.map g := List.map_congr_left h
    rw [map, map, hargv]
  | .redir cmd file mode, h => by
    have hcmd : cmd.map f = cmd.map g := map_congr fun w hw => h w (List.mem_append_left _ hw)
    rw [map, map, hcmd, h file (List.mem_append_right _ List.mem_cons_self)]
  | .pipe left right, h => by
    have hleft : left.map f = left.map g := map_congr fun w hw => h w (List.mem_append_left _ hw)
    have hright : right.map f = right.map g :=
      map_congr fun w hw => h w (List.mem_append_right _ hw)
    rw [map, map, hleft, hright]
  | .list left right, h => by
    have hleft : left.map f = left.map g := map_congr fun w hw => h w (List.mem_append_left _ hw)
    have hright : right.map f = right.map g :=
      map_congr fun w hw => h w (List.mem_append_right _ hw)
    rw [map, map, hleft, hright]
  | .back cmd, h => by
    have hcmd : cmd.map f = cmd.map g := map_congr h
    rw [map, map, hcmd]

theorem map_addArg (f : W → V) (w : W) : ∀ c : Cmd W, (c.addArg w).map f = (c.map f).addArg (f w)
  | .exec argv => by rw [addArg, map, map, addArg, List.map_append, List.map_singleton]
  | .redir cmd file mode => by rw [addArg, map, map, addArg, map_addArg f w cmd]
  | .pipe _ _ => rfl
  | .list _ _ => rfl
  | .back _ => rfl

theorem mem_words_addArg {v w : W} : ∀ {c : Cmd W}, v ∈ (c.addArg w).words → v ∈ c.words ∨ v = w
  | .exec argv, h => by
    rw [addArg, words, List.mem_append, List.mem_singleton] at h
    exact h
  | .redir cmd file mode, h => by
    rw [addArg, words, List.mem_append] at h
    rw [words, List.mem_append]
    rcases h with h | h
    · exact (mem_words_addArg h).imp_left Or.inl
    · exact Or.inl (Or.inr h)
  | .pipe _ _, h => Or.inl h
  | .list _ _, h => Or.inl h
  | .back _, h => Or.inl h

end Cmd

/-! ### Tokens -/

def whitespace : List UInt8 := ascii " \t\r\n\x0b"

def symbols : List UInt8 := ascii "<|>&;()"

/-- Whether `strchr(whitespace, *s)` finds the byte. -/
def isBlank (b : UInt8) : Bool := whitespace.contains b

/-- The bytes that a word goes on with. -/
def isWordByte (b : UInt8) : Bool := !isBlank b && !symbols.contains b

inductive Token where
  | word (w : List UInt8)
  | lt | gt | gtgt | bar | amp | semi | lpar | rpar
  deriving DecidableEq, Repr

/-- A word that can be written: one byte or more, and none of them ends a word. -/
structure IsWord (w : List UInt8) : Prop where
  ne_nil : w ≠ []
  bytes : ∀ b ∈ w, isWordByte b = true

namespace Token

/-- The bytes of a token. -/
def text : Token → List UInt8
  | .word w => w
  | .lt => ascii "<"
  | .gt => ascii ">"
  | .gtgt => ascii ">>"
  | .bar => ascii "|"
  | .amp => ascii "&"
  | .semi => ascii ";"
  | .lpar => ascii "("
  | .rpar => ascii ")"

/-- What cannot follow a token, because it would be read as a part of it. -/
def stops (t : Token) (s : List UInt8) : Bool :=
  match t with
  | .word _ => s.head?.all (!isWordByte ·)
  | .gt => s.head? != some 62
  | _ => true

/-- A token that can be written. -/
def Proper : Token → Prop
  | .word w => IsWord w
  | _ => True

end Token

/-- The text is these tokens, with blanks between them where one likes. -/
inductive Spells : List Token → List UInt8 → Prop
  | nil {blanks} (hblanks : ∀ b ∈ blanks, isBlank b = true) : Spells [] blanks
  | cons {t ts blanks s} (hblanks : ∀ b ∈ blanks, isBlank b = true) (ht : t.Proper)
      (hstop : t.stops s = true) (hs : Spells ts s) : Spells (t :: ts) (blanks ++ t.text ++ s)

/-! ### The grammar -/

/-- What a simple command consists of. -/
inductive Part (W : Type) where
  | arg (w : W)
  | redir (file : W) (mode : Redirection)
  deriving DecidableEq, Repr

section Parts

variable {W : Type}

/-- The words of a simple command. -/
def args : List (Part W) → List W
  | [] => []
  | .arg w :: parts => w :: args parts
  | .redir _ _ :: parts => args parts

/-- The redirections of a simple command, with their files. -/
def redirs : List (Part W) → List (W × Redirection)
  | [] => []
  | .arg _ :: parts => redirs parts
  | .redir file mode :: parts => (file, mode) :: redirs parts

/-- Redirections of a command. -/
def redirected (c : Cmd W) (rs : List (W × Redirection)) : Cmd W :=
  rs.foldl (fun c r => .redir c r.1 r.2) c

/-- The command with `n` ampersands behind it. -/
def backs : ℕ → Cmd W → Cmd W
  | 0, c => c
  | n + 1, c => backs n (.back c)

/-- The operator of a redirection. -/
def operator : Redirection → Token
  | .input => .lt
  | .output => .gt
  | .append => .gtgt

/-- The tokens of redirections. -/
def redirTokens (rs : List (List UInt8 × Redirection)) : List Token :=
  rs.flatMap fun r => [operator r.2, .word r.1]

/-- The tokens of a simple command. -/
def partTokens : List (Part (List UInt8)) → List Token
  | [] => []
  | .arg w :: parts => .word w :: partTokens parts
  | .redir file mode :: parts => operator mode :: .word file :: partTokens parts

@[simp] theorem redirected_nil (c : Cmd W) : redirected c [] = c := rfl

@[simp] theorem redirected_cons (c : Cmd W) (r : W × Redirection) (rs : List (W × Redirection)) :
    redirected c (r :: rs) = redirected (.redir c r.1 r.2) rs := rfl

@[simp] theorem redirTokens_nil : redirTokens [] = [] := rfl

@[simp] theorem redirTokens_cons (r : List UInt8 × Redirection)
    (rs : List (List UInt8 × Redirection)) :
    redirTokens (r :: rs) = operator r.2 :: .word r.1 :: redirTokens rs := rfl

theorem length_redirTokens (rs : List (List UInt8 × Redirection)) :
    (redirTokens rs).length = 2 * rs.length := by
  induction rs with
  | nil => rfl
  | cons r rs ih =>
    rw [redirTokens_cons, List.length_cons, List.length_cons, List.length_cons, ih]
    omega

/-- A word that comes behind redirections goes to the command that they stand around. -/
theorem addArg_redirected (w : W) (rs : List (W × Redirection)) : ∀ c : Cmd W,
    (redirected c rs).addArg w = redirected (c.addArg w) rs := by
  induction rs with
  | nil => exact fun c => rfl
  | cons r rs ih =>
    intro c
    rw [redirected_cons, ih, redirected_cons, Cmd.addArg]

theorem redirected_append (c : Cmd W) (rs rs' : List (W × Redirection)) :
    redirected c (rs ++ rs') = redirected (redirected c rs) rs' := List.foldl_append ..

/-- Redirections as parts of a simple command. -/
def ofRedirs (rs : List (W × Redirection)) : List (Part W) := rs.map fun r => .redir r.1 r.2

theorem args_ofRedirs_append (rs : List (W × Redirection)) (parts : List (Part W)) :
    args (ofRedirs rs ++ parts) = args parts := by
  induction rs with
  | nil => rfl
  | cons r rs ih => exact ih

theorem redirs_ofRedirs_append (rs : List (W × Redirection)) (parts : List (Part W)) :
    redirs (ofRedirs rs ++ parts) = rs ++ redirs parts := by
  induction rs with
  | nil => rfl
  | cons r rs ih => exact congrArg (r :: ·) ih

theorem partTokens_ofRedirs_append (rs : List (List UInt8 × Redirection))
    (parts : List (Part (List UInt8))) :
    partTokens (ofRedirs rs ++ parts) = redirTokens rs ++ partTokens parts := by
  induction rs with
  | nil => rfl
  | cons r rs ih => exact congrArg (operator r.2 :: .word r.1 :: ·) ih

end Parts

/-- The three kinds of phrases. -/
inductive Phrase where
  | line | pipe | exec
  deriving DecidableEq, Repr

def maxArgs : ℕ := 10

/-- The tokens are a phrase that means the command. -/
inductive Derives : Phrase → List Token → Cmd (List UInt8) → Prop
  | exec (parts : List (Part (List UInt8))) (hargs : (args parts).length < maxArgs) :
      Derives .exec (partTokens parts) (redirected (.exec (args parts)) (redirs parts))
  | block {ts c} (rs : List (List UInt8 × Redirection)) (h : Derives .line ts c) :
      Derives .exec (.lpar :: ts ++ .rpar :: redirTokens rs) (redirected c rs)
  | one {ts c} (h : Derives .exec ts c) : Derives .pipe ts c
  | pipe {ts ts' c c'} (h : Derives .exec ts c) (h' : Derives .pipe ts' c') :
      Derives .pipe (ts ++ .bar :: ts') (.pipe c c')
  | back {ts c} (n : ℕ) (h : Derives .pipe ts c) :
      Derives .line (ts ++ List.replicate n .amp) (backs n c)
  | list {ts ts' c c'} (n : ℕ) (h : Derives .pipe ts c) (h' : Derives .line ts' c') :
      Derives .line (ts ++ List.replicate n .amp ++ .semi :: ts') (.list (backs n c) c')

end Sh

end Xv6

end SystemProgramming
