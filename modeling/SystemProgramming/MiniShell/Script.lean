import SystemProgramming.Library.SharedInput
import SystemProgramming.MiniShell.Execute

/-!
# How the mini-shells read a script

`main`, `process_line` and `handle_if_block` share one `FILE`: the main loop takes a line off it,
and when that line opens a block, `handle_if_block` takes the lines of the block. The three shells
do this with the same code, except that `mini-shell-3` prints no syntax errors; they differ in
what they do with the words of a line, which is a parameter here (`Interpreter`).

An `Input` is what successive calls of `fgets` deliver, and the number of calls so far. All calls
have the same size, so it does not matter who makes them, and the lines of a run are numbered by
the calls. What the calls deliver is not settled by the contents of the script alone: the children
share the offset of the script. In particular a child whose `execvp` fails calls `exit`, with a
copy of the buffer of the shell, and when the script can be seeked in, this moves the offset back,
so that lines are read again that have been executed. `runFile` therefore takes a function that
says where the children have left the offset before each call (`InputFile.deliveries`), and
`runScript` is what it comes to when they leave it alone (`runFile_of_still`).

A run returns what happened, in order, with the number of the line it happened to, and how the
shell goes on. A condition is recorded with its words, with what `execute_external_command`
returned for them, which decides about the block, and with whether a child was waited for and
exited with 0. The two are not the same (`Conditional`).

## What is left out

The prompt of the interactive loop, and the messages of `fopen`. A line that is longer than
`MAX_LINE - 1` bytes is delivered in pieces, as `fgets` does it, and a NUL in a line ends it for all
functions of the shell. The copies of a line that `handle_if_block` makes are as long as `strncpy`
and the terminator allow.

## Main definitions

* `Interpreter`, `miniShell1` — what a shell does with the words of a line
* `Input`, `readLines` — the script
* `handleIfBlock`, `processLine`, `mainLoop` — the functions of the source
* `runScript`, `runFile` — the loop of `main` on a script
* `constantSystem` — a system for concrete scripts

## Main results

* `runFile_of_still` — a script whose offset is left alone is read once and in order
-/

namespace SystemProgramming

namespace MiniShell

def maxBlockLines : ℕ := 32

/-- What a shell with states `σ` and effects `ε` does with a line, once it has been read. -/
structure Interpreter (σ ε : Type*) where
  parseCommand : σ → List UInt8 → Option (List (List UInt8) × List ε)
  executeExternalCommand : σ → List (List UInt8) → ℤ × σ × List ε
  executeCommand : σ → List (List UInt8) → List ε × Flow σ
  /-- Reporting an error of `handle_if_block`. -/
  report : List UInt8 → List ε
  /-- These effects include a child that was waited for and exited with status 0. -/
  succeeded : List ε → Bool

/-- A child has been waited for, and has exited with status 0. -/
def Effect.isSuccess : Effect → Bool
  | .child _ (.exited code) => code == 0
  | _ => false

/-- `mini-shell-1` -/
def miniShell1 {W : Type*} (sys : System W) : Interpreter (Shell W) Effect where
  parseCommand sh line :=
    (MiniShell.parseCommand sh.store line).map fun r => (r.1, stderrOf r.2)
  executeExternalCommand := MiniShell.executeExternalCommand sys
  executeCommand := MiniShell.executeCommand sys
  report text := [.stderr text]
  succeeded es := es.any Effect.isSuccess

/-- What a run is judged by. -/
inductive Event (ε : Type*)
  /-- The main loop took line `n` off the script. -/
  | processed (n : ℕ)
  /-- The words of the condition of the block that line `n` opens were executed, with this result;
  whether a child exited with status 0. -/
  | condition (n : ℕ) (args : List (List UInt8)) (result : ℤ) (success : Bool)
  /-- The words of line `n` were handed to `execute_command`. -/
  | executed (n : ℕ) (args : List (List UInt8))
  | effect (e : ε)

/-- What has happened, and how the shell goes on. -/
abbrev Run (σ ε : Type*) := List (Event ε) × Flow σ

/-- Go on after a run, if the shell does. -/
def Run.andThen {σ ε : Type*} (r : Run σ ε) (next : σ → Run σ ε) : Run σ ε :=
  match r.2 with
  | .running s => (r.1 ++ (next s).1, (next s).2)
  | _ => r

/-- A `FILE`: the number of lines delivered, and those still to come. -/
structure Input where
  position : ℕ
  lines : List (List UInt8)

/-- The lines of a script, as `fgets` delivers them to `char line[MAX_LINE]`. -/
def readLines (script : List UInt8) : List (List UInt8) :=
  (fgetsFrom maxLine [] script).map cstring

def isBlankLine (line : List UInt8) : Bool := line.all isspace

/-- The first word of a line, as `strtok` finds it. -/
def firstWord (line : List UInt8) : Option (List UInt8) := (tokens isSep line).head?

/-- `strncmp(line, "if ", 3) == 0` -/
def opensBlock (line : List UInt8) : Bool := strncmp line (ascii "if ") 3 == 0

/-- `strncpy(dst, line, MAX_LINE); dst[MAX_LINE - 1] = '\0';` -/
def copyLine (line : List UInt8) : List UInt8 := line.take (maxLine - 1)

/-- How the loop that reads a block ends. -/
inductive BlockRead
  | foundFi (block : List (ℕ × List UInt8)) (rest : Input)
  | tooMany (rest : Input)
  | missingFi (rest : Input)

/-- The loop that reads a block, of which some lines have been read, up to its `fi`. -/
def readBlock (block : List (ℕ × List UInt8)) : ℕ → List (List UInt8) → BlockRead
  | n, [] => .missingFi ⟨n, []⟩
  | n, line :: lines =>
    if isBlankLine line then readBlock block (n + 1) lines
    else if firstWord (copyLine line) = some (ascii "fi") then .foundFi block ⟨n + 1, lines⟩
    else if maxBlockLines ≤ block.length then .tooMany ⟨n + 1, lines⟩
    else readBlock (block ++ [(n, copyLine line)]) (n + 1) lines

section Program

variable {σ ε : Type*} (I : Interpreter σ ε)

/-- `parse_command(line, args); execute_command(args);` for line `n`. -/
def runLine (s : σ) (n : ℕ) (line : List UInt8) : Run σ ε :=
  match I.parseCommand s line with
  | none => ([], .undefined)
  | some (args, warning) =>
    let r := I.executeCommand s args
    (warning.map .effect ++ .executed n args :: r.1.map .effect, r.2)

/-- The loop that executes a block. -/
def runBlock : List (ℕ × List UInt8) → σ → Run σ ε
  | [], s => ([], .running s)
  | (n, line) :: block, s => (runLine I s n line).andThen (runBlock block)

/-- Executing the condition of the block that line `n` opens, and then the block. -/
def runCondition (s : σ) (n : ℕ) (condLine : List UInt8) (block : List (ℕ × List UInt8)) :
    Run σ ε :=
  match I.parseCommand s condLine with
  | none => ([], .undefined)
  | some (args, warning) =>
    let r := I.executeExternalCommand s args
    let condition := .condition n args r.1 (I.succeeded r.2.2)
    Run.andThen (warning.map .effect ++ r.2.2.map .effect ++ [condition], .running r.2.1)
      fun s => if r.1 = 0 then runBlock I block s else ([], .running s)

/-- `handle_if_block`, for the block that line `n` opens, and what it leaves of the script. -/
def handleIfBlock (s : σ) (n : ℕ) (ifLine : List UInt8) (input : Input) : Run σ ε × Input :=
  let condLine := copyLine (ifLine.drop 3)
  let report text : Run σ ε := ((I.report text).map .effect, .running s)
  match input.lines with
  | [] => (report (ascii "Syntax error: expected 'then'\n"), input)
  | line :: lines =>
    if firstWord line ≠ some (ascii "then") then
      (report (ascii "Syntax error: expected 'then'\n"), ⟨input.position + 1, lines⟩)
    else
      match readBlock [] (input.position + 1) lines with
      | .tooMany rest => (report (ascii "Error: too many lines in if block\n"), rest)
      | .missingFi rest => (report (ascii "Syntax error: missing 'fi'\n"), rest)
      | .foundFi block rest => (runCondition I s n condLine block, rest)

/-- `process_line`, for line `n`. -/
def processLine (s : σ) (n : ℕ) (line : List UInt8) (input : Input) : Run σ ε × Input :=
  if isBlankLine line then (([], .running s), input)
  else if opensBlock line then handleIfBlock I s n line input
  else (runLine I s n line, input)

/-- The loop of `main`, for so many rounds. -/
def mainLoop : ℕ → σ → Input → Run σ ε
  | 0, s, _ => ([], .running s)
  | rounds + 1, s, input =>
    match input.lines with
    | [] => ([], .running s)
    | line :: lines =>
      let p := processLine I s input.position line ⟨input.position + 1, lines⟩
      Run.andThen (.processed input.position :: p.1.1, p.1.2) fun s => mainLoop rounds s p.2

/-- The loop of `main` on a script; no run takes more rounds than there are lines. -/
def runScript (s : σ) (script : List UInt8) : Run σ ε :=
  mainLoop I (readLines script).length s ⟨0, readLines script⟩

/-- The loop of `main` on a script that its children share with it, as far as so many calls of
`fgets` come; before the call with the number `n` they have left the offset of the script at
`moved n`, if they have moved it. -/
def runFile (s : σ) (script : InputFile) (moved : ℕ → Option ℕ) (calls : ℕ) : Run σ ε :=
  mainLoop I calls s ⟨0, (script.deliveries maxLine moved calls 0).map cstring⟩

/-- While the children leave the offset alone, the lines are those of the script. -/
theorem runFile_of_still (s : σ) {script : InputFile} {moved : ℕ → Option ℕ}
    (hstill : ∀ n, moved n = none) {calls : ℕ}
    (hcalls : (readLines script.upcoming).length ≤ calls) :
    runFile I s script moved calls = mainLoop I calls s ⟨0, readLines script.upcoming⟩ := by
  have hlen : (fgetsFrom maxLine [] script.upcoming).length ≤ calls := by
    rwa [readLines, List.length_map] at hcalls
  rw [runFile, InputFile.deliveries_of_still (by decide) hstill, List.take_of_length_le hlen,
    readLines]

end Program

/-- A script that can be seeked in: the child of `nosuch` calls `exit` before the second call of
`fgets`, and the line behind it is read twice. -/
example :
    let script := InputFile.opened (ascii "nosuch\necho a\n") true fun _ => 4095
    let afterFirst := (InputFile.fgets (maxLine - 1) script).2
    afterFirst.childExits.offset = 7 ∧
      script.deliveries maxLine (fun n => if n = 1 then some 7 else none) 5 0 =
        [ascii "nosuch\n", ascii "echo a\n", ascii "echo a\n"] := by
  decide

/-! ### A simple system -/

/-- A system in which no file can be opened and every child exits with one status. -/
def constantSystem (code : UInt8) : System Unit where
  openInput w _ := (none, w)
  openOutput w _ := (none, w)
  run w _ := (some (.exited code), w)

/-- A shell before its first command, with an empty environment. -/
def freshShell : Shell Unit := ⟨.initial fun _ => none, ()⟩

end MiniShell

end SystemProgramming
