import SystemProgramming.Psh.Prompt

/-!
# The prompting shells at the end of their input

When `fgets` has nothing more to deliver, the loop of `main` takes the branch of an empty line. It
runs the command that has been typed, and from then on it only asks for the next one. What ends the
loop is a word `exit` in `psh3`, and `MAXARGS` arguments in a row; both have to come before the
input is over.

That is so while the standard input is left alone. Where it can be seeked in, a command that is not
there moves its offset back, and the shell gets other pieces: in a file with that command, an empty
line and fifteen words it reads the words twice, and ends.

## How it goes

While the standard input is left alone, a shell is a loop over the pieces that `fgets` delivers, and
all that it keeps of them is their number since the last empty line. `Closes` computes from the
pieces whether the loop will be left before they are used up. If so, the number of pieces that are
left goes down with every round until it is. If not, the shell comes to the end of its input, and
from there on every round leads back to the same state: no schedule can make it end.

The condition is for all outcomes of `malloc`, `fork` and `execvp` together. `malloc` and `fork` may
end a shell early, so to show that a shell goes on for ever it is enough to let them succeed.

## Main definitions

* `Closes` — the loop is left while there is input

## Main results

* `closes_step`, `open_step` — a round keeps whether the loop will be left
* `closes_zero_iff` — the pieces of an input with which it is
* `ends_iff` — the inputs with which a shell ends
-/

namespace SystemProgramming

namespace Psh

/-- From `numargs` on, the loop is left while there is input. -/
def Closes (shell : Shell) : ℕ → List (List UInt8) → Prop
  | numargs, [] => maxArgs ≤ numargs
  | numargs, piece :: pieces => maxArgs ≤ numargs ∨
      if IsWord piece then
        Ends shell (argument piece) ∨ Closes shell (numargs + 1) pieces
      else Closes shell 0 pieces

instance decidableCloses (shell : Shell) : ∀ numargs pieces, Decidable (Closes shell numargs pieces)
  | numargs, [] => inferInstanceAs (Decidable (maxArgs ≤ numargs))
  | numargs, piece :: pieces =>
    have := decidableCloses shell (numargs + 1) pieces
    have := decidableCloses shell 0 pieces
    inferInstanceAs (Decidable (maxArgs ≤ numargs ∨ if IsWord piece then
      Ends shell (argument piece) ∨ Closes shell (numargs + 1) pieces else Closes shell 0 pieces))

/-- The pieces that `fgets` has still to deliver. -/
def State.pieces (s : State) : List (List UInt8) := fgetsFrom argLen [] s.stdin.upcoming

section Rounds

variable {shell : Shell} {s s' : State} {a : Act} {es : List Event} {n : ℕ}
  {piece : List UInt8} {pieces : List (List UInt8)}

theorem closes_of_full (h : maxArgs ≤ n) : Closes shell n pieces := by
  cases pieces with
  | nil => exact h
  | cons piece pieces => exact Or.inl h

theorem closes_word (hc : IsWord piece) (hroom : n < maxArgs) :
    Closes shell n (piece :: pieces) ↔
      Ends shell (argument piece) ∨ Closes shell (n + 1) pieces := by
  rw [Closes, if_pos hc]
  exact or_iff_right (by omega)

theorem closes_empty (hc : ¬ IsWord piece) (hroom : n < maxArgs) :
    Closes shell n (piece :: pieces) ↔ Closes shell 0 pieces := by
  rw [Closes, if_neg hc]
  exact or_iff_right (by omega)

variable {possible : Child → Bool} {stdin : InputFile}

theorem stopped_of_ended (h : s.status ≠ .running) : (machine shell possible stdin).Stopped s := by
  rintro ⟨mallocOk, child⟩
  exact if_neg fun hrun => h hrun.1

/-- Behind an empty line the shell is at `Arg[0]`, or it has ended. -/
theorem noArgument_quiet {child : Child} (hquiet : child.Quiet s.stdin.seekable) :
    (noArgument s child).1.status ≠ .running ∧ child = .forkFails ∨
      (noArgument s child).1 = { s with arglist := [] } := by
  obtain ⟨status, f, args⟩ := s
  rw [noArgument]
  by_cases hargs : 0 < args.length
  · rw [if_pos hargs]
    by_cases hchild : child = .forkFails
    · rw [if_pos hchild]
      exact Or.inl ⟨by simp, hchild⟩
    · rw [if_neg hchild, quiet_after hquiet]
      exact Or.inr rfl
  · rw [if_neg hargs]
    obtain rfl : args = [] := List.eq_nil_of_length_eq_zero (by omega)
    exact Or.inr rfl

/-- What `fgets` delivers is the first of the pieces. -/
theorem pieces_fgets (f : InputFile) :
    (f.upcoming = [] ∧ (InputFile.fgets (argLen - 1) f).1 = [] ∧
        (InputFile.fgets (argLen - 1) f).2.upcoming = []) ∨
      (InputFile.fgets (argLen - 1) f).1 ≠ [] ∧ fgetsFrom argLen [] f.upcoming =
        (InputFile.fgets (argLen - 1) f).1 ::
          fgetsFrom argLen [] (InputFile.fgets (argLen - 1) f).2.upcoming := by
  have hnil := @InputFile.fgets_eq_nil_iff f (argLen - 1) (by decide)
  by_cases hend : f.upcoming = []
  · have hall := @InputFile.fgets_append_upcoming f (argLen - 1)
    rw [hnil.mpr hend, hend, List.nil_append] at hall
    exact Or.inl ⟨hend, hnil.mpr hend, hall⟩
  · exact Or.inr ⟨mt hnil.mp hend, InputFile.fgetsFrom_upcoming (by decide) hend⟩

/-- The body of the loop, with the first of the pieces. -/
theorem body_fst (s : State) (mallocOk : Bool) (child : Child) :
    (body shell s mallocOk child).1 =
      (branch shell { s with stdin := (InputFile.fgets (argLen - 1) s.stdin).2 }
        (InputFile.fgets (argLen - 1) s.stdin).1 mallocOk child).1 := rfl

/-- A round of a shell that will leave the loop: it leaves it, or there is less input. -/
theorem closes_step (hquiet : a.Quiet s.stdin.seekable)
    (h : Closes shell s.arglist.length s.pieces)
    (hstep : step shell possible s a = some (s', es)) :
    s'.status ≠ .running ∨
      Closes shell s'.arglist.length s'.pieces ∧ s'.pieces.length < s.pieces.length := by
  obtain ⟨mallocOk, child⟩ := a
  obtain ⟨status, f, args⟩ := s
  obtain ⟨⟨rfl, -⟩, hstep⟩ := Option.ite_none_right_eq_some.mp hstep
  by_cases hroom : args.length < maxArgs
  · rw [if_pos hroom] at hstep
    have hs' : (body shell ⟨.running, f, args⟩ mallocOk child).1 = s' :=
      congrArg Prod.fst (Option.some.inj hstep)
    rw [body_fst] at hs'
    have hseek := @InputFile.seekable_fgets (argLen - 1) f
    rcases pieces_fgets f with ⟨hend, -, -⟩ | ⟨-, hpieces⟩
    · -- there is no input left, so the loop has been left
      rw [State.pieces, hend] at h
      exact absurd hroom (Nat.not_lt.mpr h)
    · have hlen : State.pieces ⟨.running, f, args⟩ = _ := hpieces
      generalize InputFile.fgets (argLen - 1) f = r at hs' hseek hlen
      rw [hlen] at h ⊢
      by_cases hc : IsWord r.1
      · rw [closes_word hc hroom] at h
        rw [branch, if_pos hc, takeArgument] at hs'
        by_cases hend : Ends shell (argument r.1)
        · rw [if_pos hend] at hs'
          exact Or.inl (hs' ▸ by simp)
        · rw [if_neg hend] at hs'
          cases mallocOk with
          | false => exact Or.inl (hs' ▸ by simp)
          | true =>
            subst hs'
            refine Or.inr ⟨?_, Nat.lt_succ_self _⟩
            rw [if_pos rfl, List.length_append]
            exact h.resolve_left hend
      · rw [closes_empty hc hroom] at h
        rw [branch, if_neg hc] at hs'
        have hquiet' : child.Quiet (State.stdin ⟨.running, r.2, args⟩).seekable := by
          rw [hseek]
          exact hquiet
        rcases noArgument_quiet hquiet' with ⟨hexited, -⟩ | hback
        · exact Or.inl (hs' ▸ hexited)
        · subst hs'
          rw [hback]
          exact Or.inr ⟨h, Nat.lt_succ_self _⟩
  · rw [if_neg hroom] at hstep
    obtain ⟨rfl, -⟩ := Prod.mk.inj (Option.some.inj hstep)
    exact Or.inl (by simp)

/-- A round without failures of a shell that will not leave the loop. -/
theorem open_step (hran : possible .ran = true) (hrunning : s.status = .running)
    (h : ¬ Closes shell s.arglist.length s.pieces) :
    ∃ s' es, step shell possible s (.round true .ran) = some (s', es) ∧ s'.status = .running ∧
      ¬ Closes shell s'.arglist.length s'.pieces := by
  obtain ⟨status, f, args⟩ := s
  obtain rfl : status = .running := hrunning
  have hroom : args.length < maxArgs := by
    by_contra hfull
    exact h (closes_of_full (Nat.le_of_not_lt hfull))
  refine ⟨(body shell ⟨.running, f, args⟩ true .ran).1,
    (body shell ⟨.running, f, args⟩ true .ran).2,
    (if_pos ⟨rfl, hran⟩).trans (if_pos hroom), ?_⟩
  rw [body_fst]
  have hback : ∀ f' : InputFile,
      (noArgument ⟨.running, f', args⟩ .ran).1 = ⟨.running, f', []⟩ := by
    intro f'
    have hquiet : Child.ran.Quiet (State.stdin ⟨.running, f', args⟩).seekable := trivial
    exact (noArgument_quiet hquiet).resolve_left fun hno => nomatch hno.2
  rcases pieces_fgets f with ⟨-, hnil, hend⟩ | ⟨-, hpieces⟩
  · rw [hnil, branch, if_neg fun hword => hword.1 rfl, hback, State.pieces, hend]
    exact ⟨rfl, show ¬ maxArgs ≤ 0 by decide⟩
  · have hlen : State.pieces ⟨.running, f, args⟩ = _ := hpieces
    generalize InputFile.fgets (argLen - 1) f = r at hlen
    rw [hlen] at h
    by_cases hc : IsWord r.1
    · rw [closes_word hc hroom, not_or] at h
      rw [branch, if_pos hc, takeArgument, if_neg h.1, if_pos rfl]
      refine ⟨rfl, ?_⟩
      rw [List.length_append]
      exact h.2
    · rw [closes_empty hc hroom] at h
      rw [branch, if_neg hc, hback]
      exact ⟨rfl, h⟩

end Rounds

/-! ### The whole input -/

section Input

variable {shell : Shell} {possible : Child → Bool} {stdin : InputFile} {n : ℕ}
  {pieces : List (List UInt8)}

/-- Arguments: pieces that are not empty lines. -/
def Words (pieces : List (List UInt8)) : Prop := ∀ piece ∈ pieces, IsWord piece

instance (pieces : List (List UInt8)) : Decidable (Words pieces) :=
  inferInstanceAs (Decidable (∀ _ ∈ _, _))

/-- A word `exit` is not an empty line. -/
theorem charAt_of_ends {piece : List UInt8} (h : Ends shell (argument piece)) :
    IsWord piece := by
  obtain ⟨-, h⟩ := h
  cases piece with
  | nil => cases h
  | cons c piece =>
    refine ⟨by simp, fun hc => ?_⟩
    obtain rfl : c = 10 := hc
    cases h

theorem words_cons {piece : List UInt8} {words : List (List UInt8)} :
    Words (piece :: words) ↔ IsWord piece ∧ Words words :=
  List.forall_mem_cons

/-- What is left behind a piece is left from the piece on. -/
theorem closes_cons {piece : List UInt8} (h : ∀ n, Closes shell n pieces) :
    Closes shell n (piece :: pieces) := by
  by_cases hroom : n < maxArgs
  · by_cases hc : IsWord piece
    · exact (closes_word hc hroom).mpr (Or.inr (h (n + 1)))
    · exact (closes_empty hc hroom).mpr (h 0)
  · exact closes_of_full (Nat.le_of_not_lt hroom)

theorem closes_of_ends : ∀ {n : ℕ}, (∃ piece ∈ pieces, Ends shell (argument piece)) →
    Closes shell n pieces := by
  induction pieces with
  | nil =>
    rintro n ⟨piece, hpiece, -⟩
    cases hpiece
  | cons piece pieces ih =>
    rintro n ⟨p, hp, hend⟩
    rcases List.mem_cons.mp hp with rfl | hp
    · by_cases hroom : n < maxArgs
      · exact (closes_word (charAt_of_ends hend) hroom).mpr (Or.inl hend)
      · exact closes_of_full (Nat.le_of_not_lt hroom)
    · exact closes_cons fun n => ih ⟨p, hp, hend⟩

theorem closes_of_prefix : ∀ {n : ℕ} {words : List (List UInt8)}, words <+: pieces →
    maxArgs ≤ n + words.length → Words words → Closes shell n pieces := by
  induction pieces with
  | nil =>
    intro n words hwords hn _
    obtain rfl := List.prefix_nil.mp hwords
    exact hn
  | cons piece pieces ih =>
    intro n words hwords hn hall
    by_cases hroom : n < maxArgs
    · cases words with
      | nil => exact absurd hn (Nat.not_le.mpr hroom)
      | cons word words =>
        obtain ⟨rfl, hrest⟩ := List.cons_prefix_cons.mp hwords
        obtain ⟨hc, hall⟩ := words_cons.mp hall
        rw [List.length_cons] at hn
        exact (closes_word hc hroom).mpr (Or.inr (ih hrest (by omega) hall))
    · exact closes_of_full (Nat.le_of_not_lt hroom)

theorem closes_of_infix {words : List (List UInt8)} (hn : maxArgs ≤ words.length)
    (hall : Words words) : ∀ {n : ℕ}, words <:+: pieces → Closes shell n pieces := by
  induction pieces with
  | nil =>
    intro n hwords
    exact closes_of_prefix (List.prefix_nil.mpr (List.infix_nil.mp hwords))
      (Nat.le_add_left_of_le hn) hall
  | cons piece pieces ih =>
    intro n hwords
    rcases List.infix_cons_iff.mp hwords with hwords | hwords
    · exact closes_of_prefix hwords (Nat.le_add_left_of_le hn) hall
    · exact closes_cons fun n => ih hwords

/-- The other direction: the arguments that have been collected count for the first pieces. -/
theorem of_closes : ∀ {n : ℕ}, Closes shell n pieces →
    (∃ piece ∈ pieces, Ends shell (argument piece)) ∨
      (∃ words, words <+: pieces ∧ maxArgs ≤ n + words.length ∧ Words words) ∨
        ∃ words, words <:+: pieces ∧ maxArgs ≤ words.length ∧ Words words := by
  induction pieces with
  | nil =>
    intro n h
    exact Or.inr (Or.inl ⟨[], List.prefix_rfl, h, fun _ hmem => absurd hmem List.not_mem_nil⟩)
  | cons piece pieces ih =>
    intro n h
    by_cases hroom : n < maxArgs
    · by_cases hc : IsWord piece
      · rcases (closes_word hc hroom).mp h with hend | h
        · exact Or.inl ⟨piece, List.mem_cons_self, hend⟩
        rcases ih h with ⟨p, hp, hend⟩ | ⟨words, hwords, hn, hall⟩ | ⟨words, hwords, hn⟩
        · exact Or.inl ⟨p, List.mem_cons_of_mem _ hp, hend⟩
        · refine Or.inr (Or.inl ⟨piece :: words, List.cons_prefix_cons.mpr ⟨rfl, hwords⟩, ?_,
            words_cons.mpr ⟨hc, hall⟩⟩)
          rw [List.length_cons]
          omega
        · exact Or.inr (Or.inr ⟨words, List.infix_cons hwords, hn⟩)
      · rcases ih ((closes_empty hc hroom).mp h) with
          ⟨p, hp, hend⟩ | ⟨words, hwords, hn, hall⟩ | ⟨words, hwords, hn⟩
        · exact Or.inl ⟨p, List.mem_cons_of_mem _ hp, hend⟩
        · rw [Nat.zero_add] at hn
          exact Or.inr (Or.inr ⟨words, List.infix_cons hwords.isInfix, hn, hall⟩)
        · exact Or.inr (Or.inr ⟨words, List.infix_cons hwords, hn⟩)
    · exact Or.inr (Or.inl ⟨[], List.nil_prefix, by rw [List.length_nil]; omega,
        fun _ hmem => absurd hmem List.not_mem_nil⟩)

/-- From `Arg[0]`, the loop is left if there is an `exit`, or if `MAXARGS` arguments follow each
other. -/
theorem closes_zero_iff : Closes shell 0 pieces ↔
    (∃ piece ∈ pieces, Ends shell (argument piece)) ∨
      ∃ words, words <:+: pieces ∧ maxArgs ≤ words.length ∧ Words words := by
  constructor
  · intro h
    rcases of_closes h with hend | ⟨words, hwords, hn, hall⟩ | hwords
    · exact Or.inl hend
    · rw [Nat.zero_add] at hn
      exact Or.inr ⟨words, hwords.isInfix, hn, hall⟩
    · exact Or.inr hwords
  · rintro (hend | ⟨words, hwords, hn, hall⟩)
    · exact closes_of_ends hend
    · exact closes_of_infix hn hall hwords

/-- No schedule keeps a shell going for ever, if the loop will be left while there is input. -/
theorem ensures_of_closes (hquiet : ∀ child, possible child = true → child.Quiet stdin.seekable)
    (hran : possible .ran = true) {s : State} (hseek : s.stdin.seekable = stdin.seekable)
    (h : Closes shell s.arglist.length s.pieces) :
    (machine shell possible stdin).Ensures (fun _ => True) s := by
  induction hlength : s.pieces.length using Nat.strong_induction_on generalizing s with
  | _ length ih =>
    by_cases hrunning : s.status = .running
    · refine .next ?_ ?_
      · by_cases hroom : s.arglist.length < maxArgs
        · exact ⟨.round true .ran, _, (if_pos ⟨hrunning, hran⟩).trans (if_pos hroom)⟩
        · exact ⟨.round true .ran, _, (if_pos ⟨hrunning, hran⟩).trans (if_neg hroom)⟩
      · rintro ⟨mallocOk, child⟩ s' es hstep
        have hchild := (Option.ite_none_right_eq_some.mp hstep).1.2
        have hq : (Act.round mallocOk child).Quiet s.stdin.seekable := by
          rw [hseek]
          exact hquiet child hchild
        rcases closes_step hq h hstep with hended | ⟨h', hless⟩
        · exact .stopped (stopped_of_ended hended) trivial
        · exact ih _ (hlength ▸ hless) ((reads_of_step hq hstep).1.trans hseek) h' rfl
    · exact .stopped (stopped_of_ended hrunning) trivial

/-- Where the loop is not left, a schedule without failures keeps the shell going. -/
theorem not_ensures_of_open (hran : possible .ran = true) {s : State}
    (hrunning : s.status = .running) (h : ¬ Closes shell s.arglist.length s.pieces) :
    ¬ (machine shell possible stdin).Ensures (fun _ => True) s := by
  refine Machine.not_ensures_of_forever (R := fun s =>
    s.status = .running ∧ ¬ Closes shell s.arglist.length s.pieces) ?_ ⟨hrunning, h⟩
  rintro s ⟨hrunning, h⟩
  obtain ⟨s', es, hstep, hopen⟩ := open_step hran hrunning h
  exact ⟨.round true .ran, [], (s', es ++ []),
    Machine.runFrom_cons_eq_some.mpr ⟨_, hstep, _, Machine.runFrom_nil s', rfl⟩, hopen⟩

/-- **A shell ends**, on a system where commands can run and leave the standard input alone, if,
before its input is over, it reads `exit` as `psh3` does, or `MAXARGS` arguments that follow each
other; and with no other input. -/
theorem ends_iff (hquiet : ∀ child, possible child = true → child.Quiet stdin.seekable)
    (hran : possible .ran = true) : (machine shell possible stdin).Ensures (fun _ => True)
        (machine shell possible stdin).init ↔
    (∃ piece ∈ fgetsFrom argLen [] stdin.upcoming, Ends shell (argument piece)) ∨
      ∃ words, words <:+: fgetsFrom argLen [] stdin.upcoming ∧ maxArgs ≤ words.length ∧
        Words words := by
  rw [← closes_zero_iff]
  constructor
  · intro h
    by_contra hopen
    exact not_ensures_of_open hran rfl hopen h
  · intro h
    exact ensures_of_closes hquiet hran rfl h

/-- A `psh3` on a terminal, with a command that is not there and then `exit`, ends. -/
theorem exit_ends : (machine .psh3 (fun child => child = .ran ∨ child = .execFails)
    (.opened (ascii "nosuch\n\nexit\n") false fun _ => 0)).Ensures (fun _ => True)
      ⟨.running, .opened (ascii "nosuch\n\nexit\n") false fun _ => 0, []⟩ := by
  refine (ends_iff (fun child hchild => ?_) (by decide)).mpr (Or.inl ?_)
  · rcases of_decide_eq_true hchild with rfl | rfl
    · trivial
    · rfl
  · exact ⟨ascii "exit\n", by decide, by decide⟩

/-- `ls`, an empty line, and the end of the input, in a file. -/
def lsInput : InputFile := .opened (ascii "ls\n\n") true fun _ => 4095

/-- Neither shell ends then. -/
theorem ls_never_ends :
    (¬ (machine .psh2 (· = .ran) lsInput).Ensures (fun _ => True)
        (machine .psh2 (· = .ran) lsInput).init) ∧
      ¬ (machine .psh3 (· = .ran) lsInput).Ensures (fun _ => True)
        (machine .psh3 (· = .ran) lsInput).init :=
  ⟨not_ensures_of_open (by decide) rfl (by decide),
    not_ensures_of_open (by decide) rfl (by decide)⟩

end Input

end Psh

end SystemProgramming
