import SystemProgramming.MiniShell.Variables

/-!
# From a line to its words

`expand_variables` and `parse_command`, which are the same in the three mini-shells. The expansion
is written to `buffer[MAX_LINE]`, and each name on the way to `varname[64]`, without a test of
either bound; where one is exceeded the behaviour is undefined and the translation is `none`.

## What is left out

`strtok` keeps its place in a static variable, but nobody uses it while `parse_command` is at work,
so the words are those of the line (`tokens`). The words point into the line; as the line is not
changed until the next one is read, they are values here. The warning about too many words is
printed by `mini-shell-1` and `-2` only, and `Conditional` leaves it out for `mini-shell-3`.

## Main definitions

* `expandVariables`, `parseCommand` — the functions of the source

## Main results

* `expandVariables_of_literal` — a line without `$` stays as it is
* `expandVariables_reference` — a line that is one reference
-/

namespace SystemProgramming

namespace MiniShell

def maxLine : ℕ := 1024

def maxArgs : ℕ := 64

/-- `isalnum` in the C locale. -/
def isalnum (b : UInt8) : Bool :=
  (48 ≤ b && b ≤ 57) || (65 ≤ b && b ≤ 90) || (97 ≤ b && b ≤ 122)

/-- A byte of a variable name. -/
def isNameByte (b : UInt8) : Bool := isalnum b || b == 95

/-- The byte that opens a reference. -/
abbrev dollar : UInt8 := 36

/-- The separators of `parse_command`. -/
def isSep (b : UInt8) : Bool := b == 32 || b == 9 || b == 10

/-- What the loop of `expand_variables` writes for the rest of a line, of which the inner loop has
already read `k` bytes as part of a name. -/
def expandFrom (s : Store) : ℕ → List UInt8 → Option (List UInt8)
  | _, [] => some []
  | k + 1, _ :: line => expandFrom s k line
  | 0, c :: line =>
    if c = dollar then
      let varname := line.takeWhile isNameByte
      if varname.length < 64 then
        (getVarValue s varname).bind fun val =>
          (expandFrom s varname.length line).map (val ++ ·)
      else none
    else (expandFrom s 0 line).map (c :: ·)

/-- `expand_variables`: what it leaves in `line`. -/
def expandVariables (s : Store) (line : List UInt8) : Option (List UInt8) :=
  (expandFrom s 0 line).bind fun buffer => if buffer.length < maxLine then some buffer else none

/-- `parse_command`: `args`, and what is printed to `stderr`. -/
def parseCommand (s : Store) (line : List UInt8) : Option (List (List UInt8) × List UInt8) :=
  (expandVariables s line).map fun line =>
    let words := tokens isSep line
    (words.take (maxArgs - 1),
      if words.length ≤ maxArgs - 1 then []
      else ascii "Warning: too many arguments (max 63); some were ignored\n")

/-! ### Lines without references, and references -/

theorem expandFrom_of_literal (s : Store) : ∀ {line : List UInt8}, dollar ∉ line →
    expandFrom s 0 line = some line
  | [], _ => rfl
  | c :: line, h => by
    have hc : c ≠ dollar := fun hc => h (by simp [hc])
    have hline : dollar ∉ line := fun hm => h (List.mem_cons_of_mem _ hm)
    rw [expandFrom, if_neg hc, expandFrom_of_literal s hline]
    rfl

/-- Nothing is substituted where nothing is referenced. -/
theorem expandVariables_of_literal (s : Store) {line : List UInt8} (h : dollar ∉ line)
    (hlen : line.length < maxLine) : expandVariables s line = some line := by
  rw [expandVariables, expandFrom_of_literal s h, Option.bind_some, if_pos hlen]

/-- The inner loop has read all of the line. -/
theorem expandFrom_length (s : Store) : ∀ line : List UInt8,
    expandFrom s line.length line = some []
  | [] => rfl
  | _ :: line => expandFrom_length s line

/-- A reference alone is replaced by the value of the name. -/
theorem expandVariables_reference {s : Store} {name value : List UInt8}
    (hname : ∀ b ∈ name, isNameByte b = true) (hlen : name.length < 64)
    (hvalue : getVarValue s name = some value) (hfits : value.length < maxLine) :
    expandVariables s (dollar :: name) = some value := by
  have hword : name.takeWhile isNameByte = name := List.takeWhile_eq_self_iff.mpr hname
  have hloop : expandFrom s 0 (dollar :: name) = some value := by
    rw [expandFrom, if_pos rfl]
    simp only [hword, hlen, if_true, hvalue, Option.bind_some, expandFrom_length]
    simp
  rw [expandVariables, hloop, Option.bind_some, if_pos hfits]

/-- A line without references is cut into its words. -/
theorem parseCommand_of_literal (s : Store) {line : List UInt8} (h : dollar ∉ line)
    (hlen : line.length < maxLine) (hwords : (tokens isSep line).length < maxArgs) :
    parseCommand s line = some (tokens isSep line, []) := by
  have hle : (tokens isSep line).length ≤ maxArgs - 1 := Nat.le_pred_of_lt hwords
  rw [parseCommand, expandVariables_of_literal s h hlen, Option.map_some]
  simp only [hle, if_true, List.take_of_length_le hle]

end MiniShell

end SystemProgramming
