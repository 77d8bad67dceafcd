import SystemProgramming.Library.Strtok

/-!
# The arguments of the commands

`lab9-lyjae/pipe.c` before `pipe(pipefd)`: the two command strings are copied, and the copies are
cut into the argument vectors that the children pass to `execvp`. Reading behind a copy has no
result.

## Two limits

The strings are those of the command line, of any length. `strncpy` copies 256 bytes of each, with
no terminator where the string is as long as that, and `strtok` then reads behind the copy. The
vectors have `MAX_ARGS` entries, of which the last is `NULL`; words that do not fit are dropped.

## Main definitions

* `parseCommand` — where the arguments begin, and what is left of the copy
* `arguments`, `vectors` — the strings of one vector, and of both

## Main results

* `parse_terminated`, `parse_unterminated` — the loop, on a copy with a NUL and without
* `arguments_eq_iff`, `vectors_iff` — when the arguments are the words of the commands
-/

namespace SystemProgramming

namespace Pipe

def maxArgs : ℕ := 16

/-- The size of `cmd1_buf` and `cmd2_buf`. -/
def bufSize : ℕ := 256

/-- The separators: `" "`. -/
def isBlank (c : UInt8) : Bool := c == 32

/-- `while (token != NULL && i < MAX_ARGS - 1)`, with the room that is left in `argv`: the positions
that are stored, and what is left of the string. -/
def parseLoop : ℕ → Cut → Option (List ℕ × List UInt8)
  | 0, cut => some ([], cut.buf)
  | room + 1, cut =>
    match cut.token with
    | none => some ([], cut.buf)
    | some token =>
      (strtok isBlank cut.buf cut.saved).bind fun cut =>
        (parseLoop room cut).map fun argv => (token :: argv.1, argv.2)

/-- `parse_command`. The position behind the last argument is `NULL`. -/
def parseCommand (input : List UInt8) : Option (List ℕ × List UInt8) :=
  (strtok isBlank input 0).bind (parseLoop (maxArgs - 1))

/-- The strings at the positions of a vector. -/
def strings (argv : List ℕ × List UInt8) : Option (List (List UInt8)) :=
  argv.1.mapM fun token => readString (argv.2.drop token)

/-- The vector that `main` makes of a command. -/
def arguments (command : List UInt8) : Option (List (List UInt8)) :=
  (parseCommand (strncpy bufSize command)).bind strings

/-- `cmd1_argv` and `cmd2_argv`. -/
def vectors (command₁ command₂ : List UInt8) :
    Option (List (List UInt8) × List (List UInt8)) :=
  (arguments command₁).bind fun argv₁ => (arguments command₂).map fun argv₂ => (argv₁, argv₂)

/-! ### The loop -/

/-- A call of `strtok`, and the loop behind it. -/
def parseFrom (room : ℕ) (buf : List UInt8) (pos : ℕ) : Option (List ℕ × List UInt8) :=
  (strtok isBlank buf pos).bind (parseLoop room)

theorem isBlank_zero : isBlank 0 = false := rfl

theorem parseLoop_none (room : ℕ) (buf : List UInt8) (saved : ℕ) :
    parseLoop room ⟨none, buf, saved⟩ = some ([], buf) := by
  cases room with
  | zero => rfl
  | succ room => rfl

theorem parseLoop_some (room token : ℕ) (buf : List UInt8) (saved : ℕ) :
    parseLoop (room + 1) ⟨some token, buf, saved⟩ =
      (parseFrom room buf saved).map fun argv => (token :: argv.1, argv.2) := by
  rw [parseFrom, Option.map_bind]
  rfl

/-- The positions are at most as many as there is room for. -/
theorem length_parseLoop : ∀ {room : ℕ} {cut : Cut} {argv : List ℕ × List UInt8},
    parseLoop room cut = some argv → argv.1.length ≤ room := by
  intro room
  induction room with
  | zero =>
    intro cut argv h
    obtain rfl := Option.some.inj h
    exact Nat.le_refl 0
  | succ room ih =>
    intro cut argv h
    obtain ⟨token, buf, saved⟩ := cut
    cases token with
    | none =>
      obtain rfl := Option.some.inj h
      exact Nat.zero_le _
    | some token =>
      rw [parseLoop_some, parseFrom] at h
      obtain ⟨rest, hrest, rfl⟩ := Option.map_eq_some_iff.mp h
      obtain ⟨cut, -, hloop⟩ := Option.bind_eq_some_iff.mp hrest
      exact Nat.succ_le_succ (ih hloop)

/-- Behind the last token there is nothing to be found. -/
theorem parseFrom_blank {seps : List UInt8} (hseps : ∀ b ∈ seps, isBlank b = true) (room : ℕ)
    (done pad : List UInt8) :
    parseFrom room (done ++ seps ++ 0 :: pad) done.length =
      some ([], done ++ seps ++ 0 :: pad) := by
  rw [parseFrom, strtok_blank hseps isBlank_zero, Option.bind_some, parseLoop_none]

theorem strings_cons {token : ℕ} {argv : List ℕ} {buf word : List UInt8}
    {words : List (List UInt8)} (hword : readString (buf.drop token) = some word)
    (h : strings (argv, buf) = some words) :
    strings (token :: argv, buf) = some (word :: words) := by
  have hwords : argv.mapM (fun token => readString (buf.drop token)) = some words := h
  show (token :: argv).mapM (fun token => readString (buf.drop token)) = _
  rw [List.mapM_cons, hword, hwords]
  rfl

theorem length_strings {buf : List UInt8} : ∀ {argv : List ℕ} {words : List (List UInt8)},
    strings (argv, buf) = some words → words.length = argv.length := by
  intro argv
  induction argv with
  | nil =>
    intro words h
    obtain rfl := Option.some.inj h
    rfl
  | cons token argv ih =>
    intro words h
    have hmap : (token :: argv).mapM (fun token => readString (buf.drop token)) = some words := h
    rw [List.mapM_cons] at hmap
    obtain ⟨word, -, hrest⟩ := Option.bind_eq_some_iff.mp hmap
    obtain ⟨words', hwords, heq⟩ := Option.bind_eq_some_iff.mp hrest
    obtain rfl := Option.some.inj heq
    exact congrArg (· + 1) (ih hwords)

/-- A word that is followed by NUL. -/
theorem readString_drop {word : List UInt8} (h : 0 ∉ word) (done rest : List UInt8) :
    readString ((done ++ (word ++ 0 :: rest)).drop done.length) = some word := by
  rw [List.drop_left, readString_append _ h]

/-- **A terminated string.** What is in front of it stays as it is, and the positions are those of
its first tokens. -/
theorem parse_terminated (room : ℕ) : ∀ (done : List UInt8) {s : List UInt8} (pad : List UInt8),
    0 ∉ s →
    ∃ argv rest, parseFrom room (done ++ (s ++ 0 :: pad)) done.length =
        some (argv, done ++ rest) ∧
      strings (argv, done ++ rest) = some ((tokens isBlank s).take room) := by
  induction room with
  | zero =>
    intro done s pad hs
    cases begins isBlank hs with
    | blank hseps =>
      rw [← List.append_assoc, parseFrom_blank hseps, List.append_assoc]
      exact ⟨[], _, rfl, rfl⟩
    | last hseps hword =>
      rw [← List.append_assoc, ← List.append_assoc, parseFrom, strtok_last hseps hword,
        Option.bind_some, List.append_assoc, List.append_assoc]
      exact ⟨[], _, rfl, rfl⟩
    | word hseps hword hc rest =>
      rw [List.append_assoc, List.cons_append, ← List.append_assoc, ← List.append_assoc, parseFrom,
        strtok_word hseps hword hc isBlank_zero, Option.bind_some, List.append_assoc,
        List.append_assoc]
      exact ⟨[], _, rfl, rfl⟩
  | succ room ih =>
    intro done s pad hs
    cases begins isBlank hs with
    | blank hseps =>
      rw [← List.append_assoc, parseFrom_blank hseps, List.append_assoc, tokens_blank hseps]
      exact ⟨[], _, rfl, rfl⟩
    | @last seps word hseps hword =>
      have hnone : parseFrom room (done ++ seps ++ word ++ 0 :: pad) (done ++ seps ++ word).length =
          some ([], done ++ seps ++ word ++ 0 :: pad) := by
        have hblank := parseFrom_blank (List.forall_mem_nil _) room (done ++ seps ++ word) pad
        rwa [List.append_nil] at hblank
      refine ⟨[(done ++ seps).length], seps ++ word ++ 0 :: pad, ?_, ?_⟩
      · rw [← List.append_assoc, ← List.append_assoc, parseFrom, strtok_last hseps hword,
          Option.bind_some, parseLoop_some, hnone]
        rfl
      · rw [tokens_last hseps hword, List.take_succ_cons, List.take_nil]
        refine strings_cons ?_ rfl
        rw [List.append_assoc, ← List.append_assoc, readString_drop hword.zero_notMem]
    | @word seps word c hseps hword hc rest =>
      have hrest : 0 ∉ rest := fun hmem =>
        hs (List.mem_append_right _ (List.mem_cons_of_mem _ hmem))
      obtain ⟨argv, more, hparse, hstrings⟩ :=
        ih (done ++ seps ++ word ++ [0]) pad hrest
      have hfront : ∀ l : List UInt8, done ++ seps ++ word ++ [0] ++ l =
          done ++ seps ++ (word ++ 0 :: l) := by
        intro l
        simp
      refine ⟨(done ++ seps).length :: argv, seps ++ (word ++ 0 :: more), ?_, ?_⟩
      · rw [List.append_assoc, List.cons_append, ← List.append_assoc, ← List.append_assoc,
          parseFrom, strtok_word hseps hword hc isBlank_zero, Option.bind_some, parseLoop_some,
          List.append_assoc _ word, ← hfront, hparse, hfront, List.append_assoc]
        rfl
      · rw [tokens_word hseps hword hc, List.take_succ_cons, ← List.append_assoc]
        refine strings_cons (readString_drop hword.zero_notMem _ _) ?_
        rw [← hfront]
        exact hstrings

/-- **A string without an end** in the array: a call leaves the array, or a separator is found, and
the loop goes on behind it. -/
theorem unterminated_cases {room : ℕ} {done s : List UInt8} {argv : List ℕ × List UInt8}
    (hs : 0 ∉ s) (h : parseFrom room (done ++ s) done.length = some argv) :
    ∃ seps word c rest, s = seps ++ word ++ c :: rest ∧
      (∀ t, tokens isBlank (s ++ t) = word :: tokens isBlank (rest ++ t)) ∧
      parseLoop room ⟨some (done ++ seps).length, done ++ seps ++ word ++ [0] ++ rest,
        (done ++ seps ++ word ++ [0]).length⟩ = some argv := by
  cases begins isBlank hs with
  | blank hseps =>
    have hnone := strtok_outside hseps (Or.inl rfl) done
    rw [List.append_nil] at hnone
    rw [parseFrom, hnone] at h
    cases h
  | last hseps hword =>
    rw [← List.append_assoc, parseFrom, strtok_outside hseps (Or.inr hword)] at h
    cases h
  | @word seps word c hseps hword hc rest =>
    refine ⟨seps, word, c, rest, rfl, ?_, ?_⟩
    · intro t
      rw [List.append_assoc, List.cons_append, tokens_word hseps hword hc]
    · rw [← List.append_assoc, ← List.append_assoc, parseFrom,
        strtok_word hseps hword hc isBlank_zero, Option.bind_some] at h
      rw [List.append_assoc]
      exact h

/-- More tokens are found than there is room for. -/
theorem parse_unterminated (room : ℕ) : ∀ {done s : List UInt8} {argv : List ℕ × List UInt8},
    0 ∉ s → parseFrom room (done ++ s) done.length = some argv →
      ∀ t : List UInt8, room < (tokens isBlank (s ++ t)).length := by
  induction room with
  | zero =>
    intro done s argv hs h t
    obtain ⟨seps, word, c, rest, -, htokens, -⟩ := unterminated_cases hs h
    rw [htokens]
    exact Nat.succ_pos _
  | succ room ih =>
    intro done s argv hs h t
    obtain ⟨seps, word, c, rest, rfl, htokens, hloop⟩ := unterminated_cases hs h
    rw [parseLoop_some] at hloop
    obtain ⟨argv', hrest, -⟩ := Option.map_eq_some_iff.mp hloop
    rw [htokens]
    exact Nat.succ_lt_succ (ih (fun hmem =>
      hs (List.mem_append_right _ (List.mem_cons_of_mem _ hmem))) hrest t)

/-! ### The vectors -/

/-- **A command that fits** with its terminator: its first words, and no more than there is room
for. -/
theorem arguments_of_lt {command : List UInt8} (h0 : 0 ∉ command)
    (hlen : command.length < bufSize) :
    arguments command = some ((tokens isBlank command).take (maxArgs - 1)) := by
  obtain ⟨-, pad, hpad⟩ := holds_strncpy h0 hlen
  obtain ⟨argv, rest, hparse, hstrings⟩ := parse_terminated (maxArgs - 1) [] pad h0
  rw [List.nil_append, List.length_nil, ← hpad] at hparse
  have hparse' : parseCommand (strncpy bufSize command) = some (argv, [] ++ rest) := hparse
  rw [arguments, hparse', Option.bind_some, hstrings]

/-- **A command that does not fit** has more words than are found, if its copy is not left. -/
theorem lt_length_tokens {command : List UInt8} {argv : List (List UInt8)} (h0 : 0 ∉ command)
    (hlen : bufSize ≤ command.length) (h : arguments command = some argv) :
    argv.length < (tokens isBlank command).length := by
  obtain ⟨found, hparse, hstrings⟩ := Option.bind_eq_some_iff.mp h
  have hmore : maxArgs - 1 < (tokens isBlank command).length := by
    have hparse' :
        parseFrom (maxArgs - 1) ([] ++ strncpy bufSize command) ([] : List UInt8).length =
        some found := hparse
    have hlt := parse_unterminated (maxArgs - 1) (zero_notMem_strncpy h0 hlen) hparse'
      (command.drop bufSize)
    rwa [strncpy_of_le hlen, List.take_append_drop] at hlt
  obtain ⟨cut, -, hloop⟩ := Option.bind_eq_some_iff.mp hparse
  have hroom := length_parseLoop hloop
  have hlength : argv.length = found.1.length := length_strings hstrings
  omega

/-- **The arguments are the words** exactly when the command fits and has no more words than there
is room for. -/
theorem arguments_eq_iff {command : List UInt8} (h0 : 0 ∉ command) :
    arguments command = some (tokens isBlank command) ↔
      command.length < bufSize ∧ (tokens isBlank command).length < maxArgs := by
  rcases Nat.lt_or_ge command.length bufSize with hlen | hlen
  · rw [arguments_of_lt h0 hlen, Option.some_inj, List.take_eq_self_iff, and_iff_right hlen,
      maxArgs]
    omega
  · constructor
    · intro h
      exact absurd (lt_length_tokens h0 hlen h) (Nat.lt_irrefl _)
    · rintro ⟨hlt, -⟩
      exact absurd hlt (Nat.not_lt.mpr hlen)

/-- **Both commands are run as they were given** exactly when each is shorter than its copy and has
fewer than `MAX_ARGS` words. -/
theorem vectors_iff {command₁ command₂ : List UInt8} (h₁ : 0 ∉ command₁) (h₂ : 0 ∉ command₂) :
    vectors command₁ command₂ = some (tokens isBlank command₁, tokens isBlank command₂) ↔
      (command₁.length < bufSize ∧ (tokens isBlank command₁).length < maxArgs) ∧
        command₂.length < bufSize ∧ (tokens isBlank command₂).length < maxArgs := by
  rw [← arguments_eq_iff h₁, ← arguments_eq_iff h₂]
  constructor
  · intro h
    obtain ⟨argv₁, hargv₁, hrest⟩ := Option.bind_eq_some_iff.mp h
    obtain ⟨argv₂, hargv₂, heq⟩ := Option.map_eq_some_iff.mp hrest
    obtain ⟨rfl, rfl⟩ := Prod.mk.inj heq
    exact ⟨hargv₁, hargv₂⟩
  · rintro ⟨hargv₁, hargv₂⟩
    rw [vectors, hargv₁, hargv₂]
    rfl

/-- `ls -l` and `sort`. -/
theorem vectors_ls_sort : vectors (ascii "ls -l") (ascii "sort") =
    some ([ascii "ls", ascii "-l"], [ascii "sort"]) :=
  (vectors_iff (by decide) (by decide)).mpr (by decide)

/-- Two commands, the first one of 16 words: the last word is lost. -/
theorem sixteen_words_cut : vectors (ascii "a b c d e f g h i j k l m n o p") (ascii "sort") ≠
    some (tokens isBlank (ascii "a b c d e f g h i j k l m n o p"),
      tokens isBlank (ascii "sort")) := by
  intro hvectors
  obtain ⟨argv, hargv, hrest⟩ := Option.bind_eq_some_iff.mp hvectors
  obtain ⟨_, _, heq⟩ := Option.map_eq_some_iff.mp hrest
  rw [(Prod.mk.inj heq).1] at hargv
  exact absurd ((arguments_eq_iff (by decide)).mp hargv).2 (by decide)

end Pipe

end SystemProgramming
