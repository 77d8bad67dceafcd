import SystemProgramming.MiniShell.Script

/-!
# Conditional blocks

`handle_if_block` takes the lines of a block off the script before it runs the condition, and has
a return for a block with more than `MAX_BLOCK_LINES` lines. That return leaves the rest of the
block on the script, where the main loop finds it.

What a block is asked for is about the child of the condition and not about the result of
`execute_external_command`, by which the shell decides: no line of the body is executed before a
child of the condition has exited with status 0 (`BodyGuarded`), and behind the block the main loop
goes on with the line after the `fi` (`ResumesAt`). The two agree where the result is `Honest`.

Everything here is about an arbitrary `Interpreter` and about lines that are delivered once and in
order. `Conditional` has what it comes to for the three shells and for a script that the children
share.

## How it goes

A block anywhere in a script is reached by cutting the run: the main loop takes a line, and with it
perhaps the lines of a block, and goes on with what is left (`mainLoop_round`). Every event has the
number of its line, and a round has only events of the lines that it has taken, so the events before
the block are about earlier lines and those behind it about later ones (`mainLoop_eq_append`). What
is left to prove is about the round that takes the first line of the block.

If the body is not too long, this round reads up to the `fi`, and runs the body only behind a
condition with the result 0. If it is too long, the round ends in the middle of the body. The lines
of the body that are left are taken by the main loop, one by one, and the first of them is not the
line behind the `fi`; so `ResumesAt` fails whatever the lines are.

Before the block there may be lines that open no block and blocks that are complete (`Item`). With
anything else before it, its first line may be inside another block.

## Main definitions

* `Block` — the lines of a block
* `BodyGuarded`, `ResumesAt`, `Block.Works` — what a run is asked for
* `Honest` — a result 0 is the status of a child
* `Interpreter.Stems` — a condition comes from a call of `execute_external_command`

## Main results

* `mainLoop_eq_append` — a run, cut where the main loop takes a line off the script
* `Block.works_iff` — a block works exactly when its body is not too long
* `stems_mainLoop` — every condition of a run stems from a call
-/

namespace SystemProgramming

namespace MiniShell

variable {σ ε : Type*}

/-! ### What is asked for -/

/-- `if C`, `then`, a body, `fi`. -/
structure Block where
  ifLine : List UInt8
  thenLine : List UInt8
  body : List (List UInt8)
  fiLine : List UInt8
  opens : opensBlock ifLine = true
  firstWord_then : firstWord thenLine = some (ascii "then")
  firstWord_body : ∀ line ∈ body,
    firstWord line ≠ some (ascii "if") ∧ firstWord line ≠ some (ascii "fi")
  firstWord_fi : firstWord fiLine = some (ascii "fi")

/-- The lines of a block, as they stand in a script. -/
def Block.lines (b : Block) : List (List UInt8) :=
  b.ifLine :: b.thenLine :: (b.body ++ [b.fiLine])

/-- The number of lines of a body that are not blank. -/
def nonBlank (body : List (List UInt8)) : ℕ := body.countP (!isBlankLine ·)

/-- The condition of the block that line `n` opens was executed, and a child exited with status 0.
What `execute_external_command` returned does not count. -/
def Event.isSuccess (n : ℕ) : Event ε → Bool
  | .condition m _ _ success => m == n && success
  | _ => false

/-- Before the condition of line `n` has succeeded, none of the lines from `lo` to `hi - 1` is
executed. -/
def BodyGuarded (log : List (Event ε)) (n lo hi : ℕ) : Prop :=
  ∀ e ∈ log.takeWhile (!Event.isSuccess n ·), ∀ m args, e = .executed m args → ¬ (lo ≤ m ∧ m < hi)

/-- The lines that the main loop took off the script, in order. -/
def processedLines (log : List (Event ε)) : List ℕ :=
  log.filterMap fun
    | .processed n => some n
    | _ => none

/-- If the condition of line `n` was executed with the result 0, a child exited with that status. -/
def Honest (log : List (Event ε)) (n : ℕ) : Prop := ∀ args, .condition n args 0 false ∉ log

/-- After line `n`, the next line that the main loop takes off the script is line `m`, if it takes
one. -/
def ResumesAt (log : List (Event ε)) (n m : ℕ) : Prop :=
  ∀ next, ((processedLines log).dropWhile (· != n)).tail.head? = some next → next = m

/-- In a run that takes the line `n` that opens the block, no line of the body is executed before
the condition has succeeded, and the main loop goes on behind the `fi`. -/
def Block.Works (b : Block) (log : List (Event ε)) (n : ℕ) : Prop :=
  BodyGuarded log n (n + 2) (n + 2 + b.body.length) ∧ ResumesAt log n (n + b.body.length + 3)

/-! ### Line numbers -/

/-- The line an event happened to. -/
def Event.line : Event ε → Option ℕ
  | .processed n => some n
  | .condition n _ _ _ => some n
  | .executed n _ => some n
  | .effect _ => none

/-- If the event happened to a line, then to one with the property. -/
def Event.On (P : ℕ → Prop) (e : Event ε) : Prop := ∀ n, e.line = some n → P n

theorem Event.On.imp {P Q : ℕ → Prop} {e : Event ε} (h : e.On P) (himp : ∀ n, P n → Q n) :
    e.On Q :=
  fun n hn => himp n (h n hn)

theorem on_effects (P : ℕ → Prop) (es : List ε) : ∀ e ∈ es.map Event.effect, e.On P := by
  intro e he
  obtain ⟨x, -, rfl⟩ := List.mem_map.mp he
  intro n hn
  cases hn

@[simp] theorem processedLines_append (log log' : List (Event ε)) :
    processedLines (log ++ log') = processedLines log ++ processedLines log' :=
  List.filterMap_append

theorem mem_processedLines {log : List (Event ε)} {n : ℕ} :
    n ∈ processedLines log ↔ .processed n ∈ log := by
  rw [processedLines, List.mem_filterMap]
  constructor
  · rintro ⟨e, he, hn⟩
    cases e <;> simp_all
  · exact fun h => ⟨_, h, rfl⟩

/-- No line was taken off the script by the main loop. -/
def Quiet (log : List (Event ε)) : Prop := processedLines log = []

theorem quiet_append {log log' : List (Event ε)} :
    Quiet (log ++ log') ↔ Quiet log ∧ Quiet log' := by
  rw [Quiet, processedLines_append, List.append_eq_nil_iff]
  rfl

theorem quiet_effects (es : List ε) : Quiet (es.map Event.effect) := by
  simp [Quiet, processedLines]

/-! ### Runs -/

/-- What is done after a run comes after it. -/
theorem Run.andThen_log (r : Run σ ε) (next : σ → Run σ ε) :
    (r.andThen next).1 = r.1 ∨ ∃ s, r.2 = .running s ∧ (r.andThen next).1 = r.1 ++ (next s).1 := by
  rw [Run.andThen]
  cases h : r.2 with
  | running s => exact Or.inr ⟨s, rfl, rfl⟩
  | exited s => exact Or.inl rfl
  | undefined => exact Or.inl rfl

theorem Run.andThen_of_running {r : Run σ ε} {s : σ} (h : r.2 = .running s)
    (next : σ → Run σ ε) : (r.andThen next).1 = r.1 ++ (next s).1 := by
  rw [Run.andThen, h]

/-- The script some lines later. -/
def Input.advance (input : Input) (k : ℕ) : Input := ⟨input.position + k, input.lines.drop k⟩

theorem Input.advance_advance (input : Input) (k l : ℕ) :
    (input.advance k).advance l = input.advance (k + l) := by
  simp [Input.advance, Nat.add_assoc]

/-- The script that a block read leaves behind. -/
def BlockRead.rest : BlockRead → Input
  | .foundFi _ rest => rest
  | .tooMany rest => rest
  | .missingFi rest => rest

/-- Reading a block takes lines off the script, and what it keeps is numbered by them. -/
theorem readBlock_rest : ∀ (lines : List (List UInt8)) (n : ℕ) (block : List (ℕ × List UInt8)),
    ∃ k, (readBlock block n lines).rest = Input.advance ⟨n, lines⟩ k
  | [], n, block => ⟨0, rfl⟩
  | line :: lines, n, block => by
    rw [readBlock]
    split
    · obtain ⟨k, hk⟩ := readBlock_rest lines (n + 1) block
      exact ⟨k + 1, by rw [hk]; simp [Input.advance]; omega⟩
    · split
      · exact ⟨1, rfl⟩
      · split
        · exact ⟨1, rfl⟩
        · obtain ⟨k, hk⟩ := readBlock_rest lines (n + 1) (block ++ [(n, copyLine line)])
          exact ⟨k + 1, by rw [hk]; simp [Input.advance]; omega⟩

/-- The lines of a block are numbered by where they stood. -/
theorem mem_block : ∀ (lines : List (List UInt8)) (n : ℕ) (block : List (ℕ × List UInt8))
    {block' : List (ℕ × List UInt8)} {rest : Input},
    readBlock block n lines = .foundFi block' rest →
    n ≤ rest.position ∧ ∀ x ∈ block', x ∈ block ∨ n ≤ x.1 ∧ x.1 < rest.position
  | [], n, block, block', rest, h => by cases h
  | line :: lines, n, block, block', rest, h => by
    rw [readBlock] at h
    split at h
    · obtain ⟨hle, hmem⟩ := mem_block lines (n + 1) block h
      refine ⟨by omega, fun x hx => (hmem x hx).imp_right fun hlt => ⟨by omega, hlt.2⟩⟩
    · split at h
      · cases h
        exact ⟨by simp, fun x hx => Or.inl hx⟩
      · split at h
        · cases h
        · obtain ⟨hle, hmem⟩ := mem_block lines (n + 1) _ h
          refine ⟨by omega, fun x hx => ?_⟩
          rcases hmem x hx with hx | hlt
          · rcases List.mem_append.mp hx with hx | hx
            · exact Or.inl hx
            · obtain rfl := List.mem_singleton.mp hx
              exact Or.inr ⟨le_rfl, hle⟩
          · exact Or.inr ⟨by omega, hlt.2⟩

section Events

variable (I : Interpreter σ ε)

/-- What is executed for line `n` happens to line `n`, and takes no line off the script. -/
theorem runLine_events (s : σ) (n : ℕ) (line : List UInt8) :
    (∀ e ∈ (runLine I s n line).1, e.On (· = n)) ∧ Quiet (runLine I s n line).1 := by
  rw [runLine]
  cases I.parseCommand s line with
  | none => exact ⟨by simp, rfl⟩
  | some r =>
    constructor
    · intro e he
      rcases List.mem_append.mp he with he | he
      · exact on_effects _ _ e he
      · rcases List.mem_cons.mp he with rfl | he
        · intro m hm
          exact (Option.some.inj hm).symm
        · exact on_effects _ _ e he
    · exact quiet_append.mpr ⟨quiet_effects _, quiet_effects _⟩

/-- What is executed of a block happens to its lines. -/
theorem runBlock_events {P : ℕ → Prop} : ∀ (block : List (ℕ × List UInt8)) (s : σ),
    (∀ x ∈ block, P x.1) →
    (∀ e ∈ (runBlock I block s).1, e.On P) ∧ Quiet (runBlock I block s).1
  | [], s, _ => ⟨by simp [runBlock], rfl⟩
  | (n, line) :: block, s, hP => by
    obtain ⟨hon, hquiet⟩ := runLine_events I s n line
    have hline : ∀ e ∈ (runLine I s n line).1, e.On P := fun e he =>
      (hon e he).imp fun m hm => hm ▸ hP (n, line) List.mem_cons_self
    rw [runBlock]
    rcases Run.andThen_log (runLine I s n line) (runBlock I block) with hlog | ⟨s', -, hlog⟩
    · rw [hlog]
      exact ⟨hline, hquiet⟩
    · obtain ⟨hrest, hquiet'⟩ :=
        runBlock_events block s' fun x hx => hP x (List.mem_cons_of_mem _ hx)
      rw [hlog]
      refine ⟨fun e he => ?_, quiet_append.mpr ⟨hquiet, hquiet'⟩⟩
      rcases List.mem_append.mp he with he | he
      · exact hline e he
      · exact hrest e he

/-- The events of a condition: effects, the condition itself, and if it succeeds the block. -/
theorem runCondition_log (s : σ) (n : ℕ) (condLine : List UInt8)
    (block : List (ℕ × List UInt8)) :
    (runCondition I s n condLine block).1 = [] ∨
      ∃ (es : List ε) (args : List (List UInt8)) (s' : σ),
        (runCondition I s n condLine block).1 =
          es.map .effect ++ .condition n args (I.executeExternalCommand s args).1
              (I.succeeded (I.executeExternalCommand s args).2.2) ::
            if (I.executeExternalCommand s args).1 = 0 then (runBlock I block s').1 else [] := by
  rw [runCondition]
  cases I.parseCommand s condLine with
  | none => exact Or.inl rfl
  | some r =>
    refine Or.inr ⟨r.2 ++ (I.executeExternalCommand s r.1).2.2, r.1,
      (I.executeExternalCommand s r.1).2.1, ?_⟩
    rw [Run.andThen_of_running rfl, List.map_append, List.append_assoc _ [_], List.singleton_append]
    congr 2
    split <;> rfl

theorem runCondition_events {P : ℕ → Prop} (s : σ) {n : ℕ} (condLine : List UInt8)
    {block : List (ℕ × List UInt8)} (hn : P n) (hblock : ∀ x ∈ block, P x.1) :
    (∀ e ∈ (runCondition I s n condLine block).1, e.On P) ∧
      Quiet (runCondition I s n condLine block).1 := by
  rcases runCondition_log I s n condLine block with hlog | ⟨es, args, s', hlog⟩
  · rw [hlog]
    exact ⟨by simp, rfl⟩
  · obtain ⟨hon, hquiet⟩ := runBlock_events I block s' hblock
    rw [hlog]
    constructor
    · intro e he
      rcases List.mem_append.mp he with he | he
      · exact on_effects _ _ e he
      · rcases List.mem_cons.mp he with rfl | he
        · intro m hm
          obtain rfl : n = m := Option.some.inj hm
          exact hn
        · split at he
          · exact hon e he
          · cases he
    · refine quiet_append.mpr ⟨quiet_effects _, ?_⟩
      show Quiet (if (I.executeExternalCommand s args).1 = 0 then (runBlock I block s').1 else [])
      split
      · exact hquiet
      · rfl

theorem report_events (P : ℕ → Prop) (text : List UInt8) :
    (∀ e ∈ (I.report text).map Event.effect, e.On P) ∧ Quiet ((I.report text).map Event.effect) :=
  ⟨on_effects P _, quiet_effects _⟩

/-- A block takes lines off the script, and what happens happens to these or to its first line. -/
theorem handleIfBlock_events (s : σ) (n : ℕ) (ifLine : List UInt8) (lines : List (List UInt8)) :
    (∃ k, (handleIfBlock I s n ifLine ⟨n + 1, lines⟩).2 = Input.advance ⟨n + 1, lines⟩ k) ∧
      (∀ e ∈ (handleIfBlock I s n ifLine ⟨n + 1, lines⟩).1.1,
        e.On fun m => n ≤ m ∧ m < (handleIfBlock I s n ifLine ⟨n + 1, lines⟩).2.position) ∧
      Quiet (handleIfBlock I s n ifLine ⟨n + 1, lines⟩).1.1 := by
  cases lines with
  | nil => exact ⟨⟨0, rfl⟩, report_events I _ _⟩
  | cons line lines =>
    simp only [handleIfBlock]
    split
    · exact ⟨⟨1, rfl⟩, report_events I _ _⟩
    · obtain ⟨k, hk⟩ := readBlock_rest lines (n + 1 + 1) []
      have hadv : (readBlock [] (n + 1 + 1) lines).rest =
          Input.advance ⟨n + 1, line :: lines⟩ (k + 1) := by
        rw [hk]
        simp [Input.advance]
        omega
      cases hread : readBlock [] (n + 1 + 1) lines with
      | tooMany rest => exact ⟨⟨k + 1, by rw [← hadv, hread]; rfl⟩, report_events I _ _⟩
      | missingFi rest => exact ⟨⟨k + 1, by rw [← hadv, hread]; rfl⟩, report_events I _ _⟩
      | foundFi block rest =>
        obtain ⟨hle, hmem⟩ := mem_block lines (n + 1 + 1) [] hread
        refine ⟨⟨k + 1, by rw [← hadv, hread]; rfl⟩, ?_⟩
        refine runCondition_events I s _ ⟨le_rfl, by change n < rest.position; omega⟩ ?_
        intro x hx
        rcases hmem x hx with hx | ⟨hlo, hhi⟩
        · cases hx
        · exact ⟨by omega, hhi⟩

/-- **A line of the main loop.** It takes the lines behind it off the script up to some point,
what happens happens to itself or to these, and the main loop takes none. -/
theorem processLine_events (s : σ) (n : ℕ) (line : List UInt8) (lines : List (List UInt8)) :
    (∃ k, (processLine I s n line ⟨n + 1, lines⟩).2 = Input.advance ⟨n + 1, lines⟩ k) ∧
      (∀ e ∈ (processLine I s n line ⟨n + 1, lines⟩).1.1,
        e.On fun m => n ≤ m ∧ m < (processLine I s n line ⟨n + 1, lines⟩).2.position) ∧
      Quiet (processLine I s n line ⟨n + 1, lines⟩).1.1 := by
  rw [processLine]
  split
  · exact ⟨⟨0, rfl⟩, by simp, rfl⟩
  · split
    · exact handleIfBlock_events I s n line lines
    · obtain ⟨hon, hquiet⟩ := runLine_events I s n line
      refine ⟨⟨0, rfl⟩, fun e he => (hon e he).imp fun m hm => ?_, hquiet⟩
      subst hm
      exact ⟨le_rfl, Nat.lt_succ_self _⟩

/-! ### The main loop -/

theorem mainLoop_nil (rounds : ℕ) (s : σ) (n : ℕ) : (mainLoop I rounds s ⟨n, []⟩).1 = [] := by
  cases rounds <;> rfl

theorem mainLoop_cons (rounds : ℕ) (s : σ) (n : ℕ) (line : List UInt8)
    (lines : List (List UInt8)) :
    mainLoop I (rounds + 1) s ⟨n, line :: lines⟩ =
      Run.andThen (.processed n :: (processLine I s n line ⟨n + 1, lines⟩).1.1,
          (processLine I s n line ⟨n + 1, lines⟩).1.2)
        fun s' => mainLoop I rounds s' (processLine I s n line ⟨n + 1, lines⟩).2 := rfl

/-- **A round of the main loop.** It takes line `n` off the script, what happens happens to this
line and those behind it up to some point, and the next round begins there, if there is one. -/
theorem mainLoop_round (rounds : ℕ) {s : σ} {n : ℕ} {line : List UInt8}
    {lines : List (List UInt8)} {later : Input}
    (hlater : (processLine I s n line ⟨n + 1, lines⟩).2 = later) :
    ∃ log : List (Event ε), processedLines log = [n] ∧
      (∀ e ∈ log, e.On fun m => n ≤ m ∧ m < later.position) ∧
      ((mainLoop I (rounds + 1) s ⟨n, line :: lines⟩).1 = log ∨
        ∃ s', (mainLoop I (rounds + 1) s ⟨n, line :: lines⟩).1 =
          log ++ (mainLoop I rounds s' later).1) := by
  obtain ⟨⟨k, hk⟩, hon, hquiet⟩ := processLine_events I s n line lines
  subst hlater
  refine ⟨.processed n :: (processLine I s n line ⟨n + 1, lines⟩).1.1, ?_, ?_, ?_⟩
  · show n :: processedLines _ = [n]
    rw [hquiet]
  · intro e he
    rcases List.mem_cons.mp he with rfl | he
    · intro m hm
      obtain rfl : n = m := Option.some.inj hm
      rw [hk]
      exact ⟨le_rfl, Nat.lt_of_lt_of_le (Nat.lt_succ_self n) (Nat.le_add_right _ k)⟩
    · exact hon e he
  · exact (Run.andThen_log _ _).imp id fun ⟨s', _, hlog⟩ => ⟨s', hlog⟩

theorem exists_later (s : σ) (n : ℕ) (line : List UInt8) (lines : List (List UInt8)) :
    ∃ k, (processLine I s n line ⟨n + 1, lines⟩).2 =
      Input.advance ⟨n, line :: lines⟩ (k + 1) := by
  obtain ⟨⟨k, hk⟩, -, -⟩ := processLine_events I s n line lines
  refine ⟨k, ?_⟩
  rw [hk]
  simp [Input.advance]
  omega

/-- The main loop does nothing to lines that are not on the script any more. -/
theorem mainLoop_on : ∀ (rounds : ℕ) (s : σ) (input : Input),
    ∀ e ∈ (mainLoop I rounds s input).1, e.On (input.position ≤ ·)
  | 0, s, input => by simp [mainLoop]
  | rounds + 1, s, ⟨n, []⟩ => by simp [mainLoop_nil]
  | rounds + 1, s, ⟨n, line :: lines⟩ => by
    obtain ⟨k, hlater⟩ := exists_later I s n line lines
    obtain ⟨log, -, hon, hlog | ⟨s', hlog⟩⟩ := mainLoop_round I rounds hlater
    · rw [hlog]
      exact fun e he => (hon e he).imp fun m hm => hm.1
    · rw [hlog]
      intro e he
      rcases List.mem_append.mp he with he | he
      · exact (hon e he).imp fun m hm => hm.1
      · exact (mainLoop_on rounds s' _ e he).imp fun m hm => (Nat.le_add_right n _).trans hm

/-- The main loop takes the next line off the script. -/
theorem head_processedLines_mainLoop_cons (rounds : ℕ) (s : σ) (n : ℕ) (line : List UInt8)
    (lines : List (List UInt8)) :
    (processedLines (mainLoop I (rounds + 1) s ⟨n, line :: lines⟩).1).head? = some n := by
  obtain ⟨k, hlater⟩ := exists_later I s n line lines
  obtain ⟨log, hlines, -, hlog | ⟨s', hlog⟩⟩ := mainLoop_round I rounds hlater
  · rw [hlog, hlines]
    rfl
  · rw [hlog, processedLines_append, hlines]
    rfl

/-- Whatever line it takes first, it is that one. -/
theorem head_processedLines_mainLoop (rounds : ℕ) (s : σ) (input : Input) {m : ℕ}
    (h : (processedLines (mainLoop I rounds s input).1).head? = some m) : m = input.position := by
  obtain ⟨n, lines⟩ := input
  cases lines with
  | nil => simp [mainLoop_nil, processedLines] at h
  | cons line lines =>
    cases rounds with
    | zero => simp [mainLoop, processedLines] at h
    | succ rounds =>
      rw [head_processedLines_mainLoop_cons] at h
      exact (Option.some.inj h).symm

/-- **Cutting a run where the main loop takes line `m` off the script.** What happened before
happened to earlier lines, and the rest is the main loop from there, with rounds enough. -/
theorem mainLoop_eq_append {m : ℕ} : ∀ (rounds : ℕ) (s : σ) (input : Input),
    input.lines.length ≤ rounds → .processed m ∈ (mainLoop I rounds s input).1 →
    ∃ (log : List (Event ε)) (rounds' : ℕ) (s' : σ) (k : ℕ), m = input.position + k ∧
      (mainLoop I rounds s input).1 = log ++ (mainLoop I rounds' s' (input.advance k)).1 ∧
      (input.advance k).lines.length ≤ rounds' ∧ ∀ e ∈ log, e.On (· < m)
  | 0, s, input, _, h => by simp [mainLoop] at h
  | rounds + 1, s, ⟨n, []⟩, _, h => by simp [mainLoop_nil] at h
  | rounds + 1, s, ⟨n, line :: lines⟩, hlen, h => by
    by_cases hm : m = n
    · exact ⟨[], rounds + 1, s, 0, hm, rfl, hlen, by simp⟩
    · obtain ⟨k, hlater⟩ := exists_later I s n line lines
      obtain ⟨log, hlines, hon, hlog⟩ := mainLoop_round I rounds hlater
      have hlog' : .processed m ∉ log := by
        rw [← mem_processedLines, hlines, List.mem_singleton]
        exact hm
      rcases hlog with hlog | ⟨s', hlog⟩
      · rw [hlog] at h
        exact absurd h hlog'
      · rw [hlog] at h
        have hlen' : (Input.advance ⟨n, line :: lines⟩ (k + 1)).lines.length ≤ rounds := by
          simp [Input.advance] at hlen ⊢
          omega
        obtain ⟨log', rounds', s'', l, hml, hsplit, hrounds, hbefore⟩ :=
          mainLoop_eq_append rounds s' _ hlen' ((List.mem_append.mp h).resolve_left hlog')
        rw [Input.advance_advance] at hsplit hrounds
        have hml' : m = n + (k + 1 + l) := hml.trans (Nat.add_assoc ..)
        refine ⟨log ++ log', rounds', s'', k + 1 + l, hml', ?_, hrounds, ?_⟩
        · rw [hlog, hsplit, List.append_assoc]
        · intro e he
          rcases List.mem_append.mp he with he | he
          · refine (hon e he).imp fun j hj => hj.2.trans_le ?_
            rw [hml']
            show n + (k + 1) ≤ n + (k + 1 + l)
            omega
          · exact hbefore e he

end Events

/-! ### What a run is asked for, piece by piece -/

theorem mem_takeWhile_append {α : Type*} {p : α → Bool} {x : α} : ∀ {l l' : List α},
    x ∈ (l ++ l').takeWhile p → x ∈ l.takeWhile p ∨ x ∈ l'.takeWhile p
  | [], l', h => Or.inr h
  | y :: l, l', h => by
    rw [List.cons_append, List.takeWhile_cons] at h
    rw [List.takeWhile_cons]
    split at h
    · rename_i hy
      rw [if_pos hy]
      rcases List.mem_cons.mp h with rfl | h
      · exact Or.inl List.mem_cons_self
      · exact (mem_takeWhile_append h).imp (List.mem_cons_of_mem _) id
    · cases h

theorem BodyGuarded.append {log log' : List (Event ε)} {n lo hi : ℕ}
    (h : BodyGuarded log n lo hi) (h' : BodyGuarded log' n lo hi) :
    BodyGuarded (log ++ log') n lo hi := by
  intro e he
  rcases mem_takeWhile_append he with he | he
  · exact h e he
  · exact h' e he

theorem Honest.of_subset {log log' : List (Event ε)} {n : ℕ} (h : Honest log' n)
    (hsub : log ⊆ log') : Honest log n :=
  fun args hmem => h args (hsub hmem)

theorem bodyGuarded_of_on {log : List (Event ε)} {n lo hi : ℕ}
    (h : ∀ e ∈ log, e.On fun m => ¬ (lo ≤ m ∧ m < hi)) : BodyGuarded log n lo hi := by
  intro e he m args heq
  exact h e ((List.takeWhile_prefix _).subset he) m (by rw [heq]; rfl)

/-- **The block of a condition is guarded by it**, if its result is honest. -/
theorem bodyGuarded_runCondition (I : Interpreter σ ε) (s : σ) (n : ℕ) (condLine : List UInt8)
    (block : List (ℕ × List UInt8)) (lo hi : ℕ)
    (hhonest : Honest (runCondition I s n condLine block).1 n) :
    BodyGuarded (runCondition I s n condLine block).1 n lo hi := by
  rcases runCondition_log I s n condLine block with hlog | ⟨es, words, s', hlog⟩
  · rw [hlog]
    exact bodyGuarded_of_on (by simp)
  · rw [hlog] at hhonest ⊢
    refine (bodyGuarded_of_on (on_effects _ es)).append ?_
    generalize (I.executeExternalCommand s words).1 = result at hhonest ⊢
    generalize I.succeeded (I.executeExternalCommand s words).2.2 = success at hhonest ⊢
    have hsuccess : result = 0 → success = true := by
      rintro rfl
      by_contra hfalse
      rw [Bool.not_eq_true] at hfalse
      exact hhonest words (by simp [hfalse])
    intro e he m args heq
    by_cases hresult : result = 0
    · simp [hresult, hsuccess hresult, Event.isSuccess] at he
    · rw [if_neg hresult] at he
      obtain rfl : e = .condition n words result success :=
        List.mem_singleton.mp ((List.takeWhile_prefix _).subset he)
      cases heq

/-- Only what comes after line `n` counts. -/
theorem resumesAt_append {log log' : List (Event ε)} {n m : ℕ} (h : ∀ e ∈ log, e.On (· < n)) :
    ResumesAt (log ++ .processed n :: log') n m ↔
      ∀ next, (processedLines log').head? = some next → next = m := by
  have hall : ∀ k ∈ processedLines log, (k != n) = true := by
    intro k hk
    have hlt := h _ (mem_processedLines.mp hk) k rfl
    simp only [bne_iff_ne]
    omega
  have hlines : processedLines (log ++ .processed n :: log') =
      processedLines log ++ n :: processedLines log' := processedLines_append ..
  rw [ResumesAt, hlines, List.dropWhile_append_of_pos hall]
  simp

/-! ### The lines of a script -/

theorem length_of_mem_readLines {script line : List UInt8} (h : line ∈ readLines script) :
    line.length < maxLine := by
  obtain ⟨piece, hpiece, rfl⟩ := List.mem_map.mp h
  exact (length_cstring_le piece).trans_lt
    (length_of_mem_fgetsFrom (by decide) (by decide) hpiece)

theorem copyLine_eq {line : List UInt8} (h : line.length < maxLine) : copyLine line = line :=
  List.take_of_length_le (Nat.le_pred_of_lt h)

theorem isBlankLine_of_opensBlock {line : List UInt8} (h : opensBlock line = true) :
    isBlankLine line = false := by
  have hzero : strncmp line (ascii "if ") (ascii "if ").length = 0 := eq_of_beq h
  obtain ⟨t, rfl⟩ := (strncmp_length_eq_zero_iff line (by decide)).mp hzero
  rfl

/-- A line whose first word is `fi` is not blank. -/
theorem isBlankLine_of_firstWord_fi {line : List UInt8} (h : firstWord line = some (ascii "fi")) :
    isBlankLine line = false := by
  have hf : (102 : UInt8) ∈ line :=
    mem_of_mem_tokens (List.mem_of_mem_head? h) (show (102 : UInt8) ∈ ascii "fi" by decide)
  rw [isBlankLine, List.all_eq_false]
  exact ⟨102, hf, by decide⟩

/-! ### Reading the block -/

/-- The lines of a body that are not blank, with their numbers; the first of all is line `n`. -/
def numbered : ℕ → List (List UInt8) → List (ℕ × List UInt8)
  | _, [] => []
  | n, line :: body =>
    if isBlankLine line then numbered (n + 1) body else (n, line) :: numbered (n + 1) body

/-- A body that is not too long is read up to its `fi`. -/
theorem readBlock_of_le {fiLine : List UInt8} (hfi : firstWord fiLine = some (ascii "fi"))
    (hfilen : fiLine.length < maxLine) (rest : List (List UInt8)) :
    ∀ (body : List (List UInt8)) (n : ℕ) (block : List (ℕ × List UInt8)),
    (∀ line ∈ body, line.length < maxLine ∧ firstWord line ≠ some (ascii "fi")) →
    block.length + nonBlank body ≤ maxBlockLines →
    readBlock block n (body ++ fiLine :: rest) =
      .foundFi (block ++ numbered n body) ⟨n + body.length + 1, rest⟩
  | [], n, block, _, _ => by
    rw [List.nil_append, readBlock, isBlankLine_of_firstWord_fi hfi, copyLine_eq hfilen, hfi]
    simp [numbered]
  | line :: body, n, block, hbody, hle => by
    obtain ⟨hlen, hword⟩ := hbody line List.mem_cons_self
    have hbody' := fun l hl => hbody l (List.mem_cons_of_mem line hl)
    have hpos : n + (line :: body).length + 1 = n + 1 + body.length + 1 := by
      rw [List.length_cons]
      omega
    rw [List.cons_append, readBlock, numbered, copyLine_eq hlen, hpos]
    cases hblank : isBlankLine line with
    | true =>
      have hcount : nonBlank (line :: body) = nonBlank body := by simp [nonBlank, hblank]
      exact readBlock_of_le hfi hfilen rest body (n + 1) block hbody' (hcount ▸ hle)
    | false =>
      have hcount : nonBlank (line :: body) = nonBlank body + 1 := by simp [nonBlank, hblank]
      rw [if_neg (by decide), if_neg hword, if_neg (by omega),
        readBlock_of_le hfi hfilen rest body (n + 1) _ hbody']
      · simp
      · rw [List.length_append, List.length_singleton]
        omega

/-- A body that is too long is read up to its first line too many. -/
theorem readBlock_of_lt (tail : List (List UInt8)) :
    ∀ (body : List (List UInt8)) (n : ℕ) (block : List (ℕ × List UInt8)),
    (∀ line ∈ body, line.length < maxLine ∧ firstWord line ≠ some (ascii "fi")) →
    block.length ≤ maxBlockLines → maxBlockLines < block.length + nonBlank body →
    ∃ k, k ≤ body.length ∧ readBlock block n (body ++ tail) =
      .tooMany ⟨n + k, (body ++ tail).drop k⟩
  | [], n, block, _, hle, hlt => by
    have hnil : nonBlank [] = 0 := rfl
    omega
  | line :: body, n, block, hbody, hle, hlt => by
    obtain ⟨hlen, hword⟩ := hbody line List.mem_cons_self
    have hbody' := fun l hl => hbody l (List.mem_cons_of_mem line hl)
    rw [List.cons_append, readBlock, copyLine_eq hlen]
    cases hblank : isBlankLine line with
    | true =>
      have hcount : nonBlank (line :: body) = nonBlank body := by simp [nonBlank, hblank]
      obtain ⟨k, hk, hread⟩ := readBlock_of_lt tail body (n + 1) block hbody' hle (hcount ▸ hlt)
      refine ⟨k + 1, by simpa using hk, ?_⟩
      rw [if_pos rfl, hread, List.drop_succ_cons, Nat.add_right_comm, Nat.add_assoc n]
    | false =>
      have hcount : nonBlank (line :: body) = nonBlank body + 1 := by simp [nonBlank, hblank]
      rw [if_neg (by decide), if_neg hword]
      by_cases hfull : maxBlockLines ≤ block.length
      · exact ⟨1, by simp, by rw [if_pos hfull]; rfl⟩
      · obtain ⟨k, hk, hread⟩ := readBlock_of_lt tail body (n + 1) (block ++ [(n, line)]) hbody'
          (by rw [List.length_append, List.length_singleton]; omega)
          (by rw [List.length_append, List.length_singleton]; omega)
        refine ⟨k + 1, by simpa using hk, ?_⟩
        rw [if_neg hfull, hread, List.drop_succ_cons, Nat.add_right_comm, Nat.add_assoc n]

/-- A block whose body is not too long: its condition is run, and the script goes on behind it. -/
theorem processLine_block (I : Interpreter σ ε) (s : σ) (n : ℕ) (rest : List (List UInt8))
    {ifLine thenLine fiLine : List UInt8} {body : List (List UInt8)}
    (hif : opensBlock ifLine = true) (hthen : firstWord thenLine = some (ascii "then"))
    (hfi : firstWord fiLine = some (ascii "fi")) (hfilen : fiLine.length < maxLine)
    (hbody : ∀ line ∈ body, line.length < maxLine ∧ firstWord line ≠ some (ascii "fi"))
    (hle : nonBlank body ≤ maxBlockLines) :
    processLine I s n ifLine ⟨n + 1, thenLine :: (body ++ fiLine :: rest)⟩ =
      (runCondition I s n (copyLine (ifLine.drop 3)) (numbered (n + 2) body),
        ⟨n + body.length + 3, rest⟩) := by
  have hread := readBlock_of_le hfi hfilen rest body (n + 1 + 1) [] hbody (by simpa using hle)
  have hpos : n + 1 + 1 + body.length + 1 = n + body.length + 3 := by omega
  simp only [processLine, isBlankLine_of_opensBlock hif, hif, handleIfBlock, hthen, hread, ← hpos]
  rfl

/-! ### A block of a script -/

namespace Block

variable (b : Block) (I : Interpreter σ ε) (s : σ) (n : ℕ) (rest : List (List UInt8))

theorem processLine_of_le (hshort : ∀ line ∈ b.lines, line.length < maxLine)
    (hle : nonBlank b.body ≤ maxBlockLines) :
    processLine I s n b.ifLine ⟨n + 1, b.thenLine :: (b.body ++ b.fiLine :: rest)⟩ =
      (runCondition I s n (copyLine (b.ifLine.drop 3)) (numbered (n + 2) b.body),
        ⟨n + b.body.length + 3, rest⟩) :=
  processLine_block I s n rest b.opens b.firstWord_then b.firstWord_fi (hshort _ (by simp [lines]))
    (fun line hl => ⟨hshort _ (by simp [lines, hl]), (b.firstWord_body line hl).2⟩) hle

/-- A block whose body is too long: an error is reported, and the script goes on inside it. -/
theorem processLine_of_lt (hshort : ∀ line ∈ b.lines, line.length < maxLine)
    (hlt : maxBlockLines < nonBlank b.body) :
    ∃ text k, k ≤ b.body.length ∧
      processLine I s n b.ifLine ⟨n + 1, b.thenLine :: (b.body ++ b.fiLine :: rest)⟩ =
        (((I.report text).map .effect, .running s),
          ⟨n + 2 + k, (b.body ++ b.fiLine :: rest).drop k⟩) := by
  obtain ⟨k, hk, hread⟩ := readBlock_of_lt (b.fiLine :: rest) b.body (n + 1 + 1) []
    (fun line hl => ⟨hshort _ (by simp [lines, hl]), (b.firstWord_body line hl).2⟩)
    (Nat.zero_le _) (by simpa using hlt)
  refine ⟨ascii "Error: too many lines in if block\n", k, hk, ?_⟩
  simp only [processLine, isBlankLine_of_opensBlock b.opens, b.opens, handleIfBlock,
    b.firstWord_then, hread]
  rfl

/-- From the line that opens it on, a block that is not too long does what it is asked for. -/
theorem mainLoop_of_le (hshort : ∀ line ∈ b.lines, line.length < maxLine)
    (hle : nonBlank b.body ≤ maxBlockLines) (rounds : ℕ) :
    ∃ log, (mainLoop I (rounds + 1) s ⟨n, b.lines ++ rest⟩).1 = .processed n :: log ∧
      (Honest log n → BodyGuarded log n (n + 2) (n + 2 + b.body.length)) ∧
      ∀ next, (processedLines log).head? = some next → next = n + b.body.length + 3 := by
  let condLine := copyLine (b.ifLine.drop 3)
  let block := numbered (n + 2) b.body
  have hline := b.processLine_of_le I s n rest hshort hle
  have hlines : b.lines ++ rest = b.ifLine :: b.thenLine :: (b.body ++ b.fiLine :: rest) := by
    simp [lines]
  have hquiet : Quiet (runCondition I s n condLine block).1 :=
    (runCondition_events I s (P := fun _ => True) condLine trivial fun _ _ => trivial).2
  have hguard := bodyGuarded_runCondition I s n condLine block (n + 2) (n + 2 + b.body.length)
  rw [hlines, mainLoop_cons, hline]
  rcases Run.andThen_log _ _ with hlog | ⟨s', -, hlog⟩
  · refine ⟨_, hlog, hguard, ?_⟩
    intro next hnext
    rw [hquiet] at hnext
    cases hnext
  · refine ⟨(runCondition I s n condLine block).1 ++
      (mainLoop I rounds s' ⟨n + b.body.length + 3, rest⟩).1, hlog, ?_, ?_⟩
    · intro hhonest
      have hfirst := hguard (hhonest.of_subset (List.subset_append_left _ _))
      refine hfirst.append (bodyGuarded_of_on fun e he => ?_)
      refine (mainLoop_on I _ _ _ e he).imp fun m hm => ?_
      change n + b.body.length + 3 ≤ m at hm
      omega
    · intro next hnext
      rw [processedLines_append, hquiet, List.nil_append] at hnext
      exact head_processedLines_mainLoop I _ _ _ hnext

/-- From the line that opens it on, a block that is too long goes on inside its body. -/
theorem mainLoop_of_lt (hshort : ∀ line ∈ b.lines, line.length < maxLine)
    (hlt : maxBlockLines < nonBlank b.body) {rounds : ℕ} (hrounds : b.lines.length ≤ rounds + 1) :
    ∃ log k, (mainLoop I (rounds + 1) s ⟨n, b.lines ++ rest⟩).1 = .processed n :: log ∧
      k ≤ b.body.length ∧ (processedLines log).head? = some (n + 2 + k) := by
  obtain ⟨text, k, hk, hline⟩ := b.processLine_of_lt I s n rest hshort hlt
  have hlines : b.lines ++ rest = b.ifLine :: b.thenLine :: (b.body ++ b.fiLine :: rest) := by
    simp [lines]
  obtain ⟨line, lines', hdrop⟩ :
      ∃ line lines', (b.body ++ b.fiLine :: rest).drop k = line :: lines' := by
    refine List.exists_cons_of_ne_nil fun hnil => ?_
    have := List.drop_eq_nil_iff.mp hnil
    simp at this
    omega
  obtain ⟨rounds', rfl⟩ : ∃ rounds', rounds = rounds' + 1 := by
    refine ⟨rounds - 1, ?_⟩
    simp [Block.lines] at hrounds
    omega
  rw [hlines, mainLoop_cons, hline, hdrop, Run.andThen_of_running rfl]
  refine ⟨(I.report text).map .effect ++
    (mainLoop I (rounds' + 1) s ⟨n + 2 + k, line :: lines'⟩).1, k, rfl, hk, ?_⟩
  rw [processedLines_append, quiet_effects, List.nil_append]
  exact head_processedLines_mainLoop_cons I ..

end Block

/-! ### What stands before a block -/

/-- A piece of a script that leaves the main loop behind its last line: a line that opens no
block, or a block that is not too long. -/
inductive Item
  | command (line : List UInt8) (h : opensBlock line = false)
  | block (b : Block) (h : nonBlank b.body ≤ maxBlockLines)

def Item.lines : Item → List (List UInt8)
  | .command line _ => [line]
  | .block b _ => b.lines

theorem Item.length_pos (item : Item) : 0 < item.lines.length := by
  cases item <;> simp [lines, Block.lines]

/-- The next round begins behind the item. -/
theorem Item.processLine_rest (item : Item) (I : Interpreter σ ε) (s : σ) (n : ℕ)
    (rest : List (List UInt8)) (hshort : ∀ line ∈ item.lines, line.length < maxLine) :
    ∃ line lines, item.lines ++ rest = line :: lines ∧
      (processLine I s n line ⟨n + 1, lines⟩).2 = ⟨n + item.lines.length, rest⟩ := by
  cases item with
  | command line h =>
    refine ⟨line, rest, rfl, ?_⟩
    rw [processLine]
    split
    · rfl
    · rw [if_neg (by simp [h])]
      rfl
  | block b h =>
    have hline := b.processLine_of_le I s n rest hshort h
    refine ⟨b.ifLine, b.thenLine :: (b.body ++ b.fiLine :: rest), by simp [lines, Block.lines], ?_⟩
    rw [hline]
    simp [lines, Block.lines]
    omega

/-- Behind complete items, the main loop comes to the next line, unless the run has ended. -/
theorem mainLoop_items (I : Interpreter σ ε) {rest : List (List UInt8)} (hrest : rest ≠ []) :
    ∀ (items : List Item) (rounds : ℕ) (s : σ) (n : ℕ),
    (∀ line ∈ items.flatMap Item.lines, line.length < maxLine) →
    (items.flatMap Item.lines ++ rest).length ≤ rounds →
    .processed (n + (items.flatMap Item.lines).length) ∈
        (mainLoop I rounds s ⟨n, items.flatMap Item.lines ++ rest⟩).1 ∨
      ∀ e ∈ (mainLoop I rounds s ⟨n, items.flatMap Item.lines ++ rest⟩).1,
        e.On (· < n + (items.flatMap Item.lines).length)
  | [], rounds, s, n, _, hrounds => by
    obtain ⟨line, lines, rfl⟩ := List.exists_cons_of_ne_nil hrest
    obtain ⟨rounds, rfl⟩ : ∃ r, rounds = r + 1 := ⟨rounds - 1, by simp at hrounds; omega⟩
    left
    rw [← mem_processedLines]
    exact List.mem_of_mem_head? (head_processedLines_mainLoop_cons I ..)
  | item :: items, rounds, s, n, hshort, hrounds => by
    have hitem : ∀ line ∈ item.lines, line.length < maxLine := by
      intro line hl
      exact hshort line (by simp [hl])
    have hitems : ∀ line ∈ items.flatMap Item.lines, line.length < maxLine := by
      intro line hl
      rw [List.flatMap_cons] at hshort
      exact hshort line (List.mem_append.mpr (Or.inr hl))
    have happ : (item :: items).flatMap Item.lines ++ rest =
        item.lines ++ (items.flatMap Item.lines ++ rest) := by
      rw [List.flatMap_cons, List.append_assoc]
    have hlen : n + ((item :: items).flatMap Item.lines).length =
        n + item.lines.length + (items.flatMap Item.lines).length := by
      rw [List.flatMap_cons, List.length_append]
      omega
    obtain ⟨line, lines, hlines, hlater⟩ :=
      item.processLine_rest I s n (items.flatMap Item.lines ++ rest) hitem
    rw [happ, hlines] at hrounds ⊢
    obtain ⟨rounds, rfl⟩ : ∃ r, rounds = r + 1 := ⟨rounds - 1, by simp at hrounds; omega⟩
    have hrounds' : (items.flatMap Item.lines ++ rest).length ≤ rounds := by
      have hlen' := congrArg List.length hlines
      have hpos := item.length_pos
      rw [List.length_append, List.length_cons] at hlen'
      rw [List.length_cons] at hrounds
      omega
    obtain ⟨log, -, hon, hrun⟩ := mainLoop_round I rounds hlater
    have hbefore : ∀ e ∈ log,
        e.On (· < n + item.lines.length + (items.flatMap Item.lines).length) :=
      fun e he => (hon e he).imp fun m hm => hm.2.trans_le (Nat.le_add_right _ _)
    rcases hrun with hlog | ⟨s', hlog⟩
    · rw [hlog, hlen]
      exact Or.inr hbefore
    · rw [hlog, hlen]
      rcases mainLoop_items I hrest items rounds s' (n + item.lines.length) hitems hrounds' with
        hmem | hrest'
      · exact Or.inl (List.mem_append.mpr (Or.inr hmem))
      · right
        intro e he
        rcases List.mem_append.mp he with he | he
        · exact hbefore e he
        · exact hrest' e he

/-! ### Conditional blocks -/

/-- Nothing happens to the body of a block, and no line is taken after it, in a run that ends
before the block. -/
theorem Block.works_of_before (b : Block) {log : List (Event ε)} {n : ℕ}
    (h : ∀ e ∈ log, e.On (· < n)) : b.Works log n := by
  constructor
  · exact bodyGuarded_of_on fun e he => (h e he).imp fun k hk => by omega
  · intro next hnext
    have hall : ∀ k ∈ processedLines log, (k != n) = true := by
      intro k hk
      have hlt := h _ (mem_processedLines.mp hk) k rfl
      simp only [bne_iff_ne]
      omega
    have hnil : (processedLines log).dropWhile (· != n) = [] := List.dropWhile_eq_nil_iff.mpr hall
    rw [hnil] at hnext
    cases hnext

section Works

variable (I : Interpreter σ ε) (s : σ) (b : Block) {before rest : List (List UInt8)}
  {rounds : ℕ} {log : List (Event ε)}

/-- A block whose first line the main loop takes off the script. -/
theorem Block.works_iff_of_processed
    (hshort : ∀ line ∈ before ++ (b.lines ++ rest), line.length < maxLine)
    (hrounds : (before ++ (b.lines ++ rest)).length ≤ rounds)
    (hlog : (mainLoop I rounds s ⟨0, before ++ (b.lines ++ rest)⟩).1 = log)
    (hhonest : Honest log before.length) (hread : .processed before.length ∈ log) :
    b.Works log before.length ↔ nonBlank b.body ≤ maxBlockLines := by
  have hblock : ∀ line ∈ b.lines, line.length < maxLine :=
    fun line hl => hshort line (by simp [hl])
  subst hlog
  obtain ⟨log, rounds', s', k, hk, hsplit, hrounds', hbefore⟩ :=
    mainLoop_eq_append I rounds s _ hrounds hread
  obtain rfl : before.length = k := by simpa using hk
  have hadv : Input.advance ⟨0, before ++ (b.lines ++ rest)⟩ before.length =
      ⟨before.length, b.lines ++ rest⟩ := by
    simp [Input.advance]
  rw [hadv] at hsplit hrounds'
  have hlen : b.lines.length ≤ rounds' := by
    rw [List.length_append] at hrounds'
    omega
  obtain ⟨rounds', rfl⟩ : ∃ r, rounds' = r + 1 := by
    refine ⟨rounds' - 1, ?_⟩
    rw [Block.lines, List.length_cons] at hlen
    omega
  rw [hsplit] at hhonest ⊢
  constructor
  · rintro ⟨-, hresume⟩
    by_contra hlt
    obtain ⟨log', k, hlog', hk', hhead⟩ :=
      b.mainLoop_of_lt I s' before.length rest hblock (not_le.mp hlt) hlen
    rw [hlog', resumesAt_append hbefore] at hresume
    have hnext := hresume _ hhead
    omega
  · intro hle
    obtain ⟨log', hlog', hguard, hhead⟩ :=
      b.mainLoop_of_le I s' before.length rest hblock hle rounds'
    rw [hlog'] at hhonest
    rw [hlog', Block.Works, resumesAt_append hbefore]
    have hfirst : BodyGuarded ([.processed before.length] : List (Event ε)) before.length
        (before.length + 2) (before.length + 2 + b.body.length) := by
      intro e he m args heq
      obtain rfl := List.mem_singleton.mp ((List.takeWhile_prefix _).subset he)
      cases heq
    have hafter := hguard (hhonest.of_subset fun e he => by simp [he])
    refine ⟨BodyGuarded.append ?_ (hfirst.append hafter), hhead⟩
    exact bodyGuarded_of_on fun e he => (hbefore e he).imp fun m hm => by omega

/-- **When a block works**, if its condition is honest. Once the main loop takes its first line
off the script: exactly when at most `MAX_BLOCK_LINES` lines of the body are not blank. When
everything before the block is complete: exactly when that is the case or the run ends before. -/
theorem Block.works_iff
    (hshort : ∀ line ∈ before ++ (b.lines ++ rest), line.length < maxLine)
    (hrounds : (before ++ (b.lines ++ rest)).length ≤ rounds)
    (hlog : (mainLoop I rounds s ⟨0, before ++ (b.lines ++ rest)⟩).1 = log)
    (hhonest : Honest log before.length) :
    (.processed before.length ∈ log →
      (b.Works log before.length ↔ nonBlank b.body ≤ maxBlockLines)) ∧
    ∀ items : List Item, before = items.flatMap Item.lines →
      (b.Works log before.length ↔
        (nonBlank b.body ≤ maxBlockLines ∨ .processed before.length ∉ log)) := by
  have hprocessed := b.works_iff_of_processed I s hshort hrounds hlog hhonest
  refine ⟨hprocessed, ?_⟩
  rintro items rfl
  by_cases hread : .processed (items.flatMap Item.lines).length ∈ log
  · simp only [hread, not_true_eq_false, or_false]
    exact hprocessed hread
  · simp only [hread, not_false_eq_true, or_true, iff_true]
    have hitems : ∀ line ∈ items.flatMap Item.lines, line.length < maxLine :=
      fun line hl => hshort line (List.mem_append.mpr (Or.inl hl))
    have hne : b.lines ++ rest ≠ [] := by simp [Block.lines]
    have hrun := mainLoop_items I hne items rounds s 0 hitems hrounds
    rw [Nat.zero_add, hlog] at hrun
    exact b.works_of_before (hrun.resolve_left hread)

end Works

/-! ### Where a condition comes from -/

/-- The result of a condition and the success of its child are those of one call of
`execute_external_command`. -/
def Interpreter.Stems (I : Interpreter σ ε) : Event ε → Prop
  | .condition _ args result success =>
    ∃ s, (I.executeExternalCommand s args).1 = result ∧
      I.succeeded (I.executeExternalCommand s args).2.2 = success
  | _ => True

section Stems

variable (I : Interpreter σ ε)

theorem stems_effects (es : List ε) : ∀ e ∈ es.map Event.effect, I.Stems e := by
  intro e he
  obtain ⟨x, -, rfl⟩ := List.mem_map.mp he
  trivial

theorem stems_andThen {r : Run σ ε} {next : σ → Run σ ε} (h : ∀ e ∈ r.1, I.Stems e)
    (hnext : ∀ s, ∀ e ∈ (next s).1, I.Stems e) : ∀ e ∈ (r.andThen next).1, I.Stems e := by
  rcases Run.andThen_log r next with hlog | ⟨s, -, hlog⟩
  · rwa [hlog]
  · rw [hlog]
    exact List.forall_mem_append.mpr ⟨h, hnext s⟩

theorem stems_runLine (s : σ) (n : ℕ) (line : List UInt8) :
    ∀ e ∈ (runLine I s n line).1, I.Stems e := by
  rw [runLine]
  rcases I.parseCommand s line with _ | ⟨args, warning⟩
  · simp
  · refine List.forall_mem_append.mpr ⟨stems_effects I _, ?_⟩
    exact List.forall_mem_cons.mpr ⟨trivial, stems_effects I _⟩

theorem stems_runBlock : ∀ (block : List (ℕ × List UInt8)) (s : σ),
    ∀ e ∈ (runBlock I block s).1, I.Stems e
  | [], s => by simp [runBlock]
  | (n, line) :: block, s => stems_andThen I (stems_runLine I s n line) (stems_runBlock block)

theorem stems_runCondition (s : σ) (n : ℕ) (condLine : List UInt8)
    (block : List (ℕ × List UInt8)) : ∀ e ∈ (runCondition I s n condLine block).1, I.Stems e := by
  rcases runCondition_log I s n condLine block with hlog | ⟨es, args, s', hlog⟩
  · simp [hlog]
  · rw [hlog]
    refine List.forall_mem_append.mpr ⟨stems_effects I es, ?_⟩
    refine List.forall_mem_cons.mpr ⟨⟨s, rfl, rfl⟩, ?_⟩
    split
    · exact stems_runBlock I block s'
    · simp

theorem stems_processLine (s : σ) (n : ℕ) (line : List UInt8) (input : Input) :
    ∀ e ∈ (processLine I s n line input).1.1, I.Stems e := by
  rw [processLine]
  split
  · simp
  · split
    · simp only [handleIfBlock]
      split
      · exact stems_effects I _
      · split
        · exact stems_effects I _
        · split
          · exact stems_effects I _
          · exact stems_effects I _
          · exact stems_runCondition I s n _ _
    · exact stems_runLine I s n line

/-- **Every condition of a run stems from a call of `execute_external_command`.** -/
theorem stems_mainLoop : ∀ (rounds : ℕ) (s : σ) (input : Input),
    ∀ e ∈ (mainLoop I rounds s input).1, I.Stems e
  | 0, s, input => by simp [mainLoop]
  | rounds + 1, s, ⟨n, []⟩ => by simp [mainLoop]
  | rounds + 1, s, ⟨n, line :: lines⟩ => by
    rw [mainLoop_cons]
    exact stems_andThen I
      (List.forall_mem_cons.mpr ⟨trivial, stems_processLine I s n line ⟨n + 1, lines⟩⟩)
      fun s' => stems_mainLoop rounds s' _

end Stems

end MiniShell

end SystemProgramming
