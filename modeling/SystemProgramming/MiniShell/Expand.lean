import SystemProgramming.Library.Stores
import SystemProgramming.MiniShell.Lookup
import SystemProgramming.MiniShell.Parse

/-!
# `expand_variables` and its arrays

The expansion works with three arrays: the `line` it reads and at last overwrites, `buffer`, in
which the result grows, and `varname`, in which it collects a name. `expandInPlace` is the function
on these arrays, with a log of every byte it stores to `varname` and `buffer`; `expandVariables` is
what it leaves in `line`.

What it is for is said without cursors: a line is a sequence of `Piece`s, and the result is the
line with the value of each name in its place.

## How it goes

Each piece of a line takes the cursors from its beginning to its end: a byte that is no `$` is
copied, and a reference is replaced by what the lookup of its name returns; what has been written to
`buffer` is never read again. The induction is on the pieces. Only the bounds of the two arrays have
to be carried along, as the indices of the stores are those of what has been written so far.

## Why two translations

`expandVariables` is what the rest of the shell is modelled with: a function on strings, which is
`none` where the expansion has no meaning. It has the two bounds as tests that the source lacks. The
function on arrays has no such tests. It stores where the source stores, and stops at the first
store that is outside; that it agrees with the other one, and that its stores are inside exactly
when the tests would have succeeded, are the two results about it.

## Main definitions

* `Line`, `Locals`, `expandInPlace` — the arrays, and the function on them
* `pieces`, `substitute` — what the expansion is for

## Main results

* `expandInPlace_result` — the arrays end up holding `expandVariables`
* `expand_stores_inside_iff` — when all stores are inside the arrays
* `expand_line_eq_substitute` — the expansion is substitution
-/

namespace SystemProgramming

namespace MiniShell

/-! ### The function on its arrays -/

/-- `char line[MAX_LINE]`, holding a string. -/
structure Line where
  text : List UInt8
  pad : List UInt8
  zero_notMem : 0 ∉ text
  length_eq : text.length + 1 + pad.length = maxLine

/-- The bytes of the array. -/
def Line.bytes (line : Line) : List UInt8 := line.text ++ 0 :: line.pad

/-- The array after `strncpy(line, text, MAX_LINE)`. -/
def Line.make (text : List UInt8) (h0 : 0 ∉ text) (hlen : text.length < maxLine) : Line :=
  ⟨text, List.replicate (maxLine - 1 - text.length) 0, h0, by rw [List.length_replicate]; omega⟩

/-- `char varname[64]` and `char buffer[MAX_LINE]`, uninitialised. -/
structure Locals where
  varname : List UInt8
  buffer : List UInt8
  varname_length : varname.length = 64
  buffer_length : buffer.length = maxLine

/-- A byte stored to one of the arrays, by its index. -/
inductive Write
  | varname (i : ℕ)
  | buffer (i : ℕ)
  deriving DecidableEq

/-- The index is one of the array. -/
def Write.Inside : Write → Prop
  | .varname i => i < 64
  | .buffer i => i < maxLine

instance : DecidablePred Write.Inside
  | .varname i => inferInstanceAs (Decidable (i < 64))
  | .buffer i => inferInstanceAs (Decidable (i < maxLine))

open Traced Write

/-- `while (isalnum(line[i]) || line[i] == '_') varname[vi++] = line[i++];` -/
def readName : List UInt8 → List UInt8 → ℕ → Traced Write (List UInt8 × ℕ)
  | [], array, vi => pure (array, vi)
  | c :: line, array, vi =>
    if isNameByte c then do
      let array ← store varname array vi c
      readName line array (vi + 1)
    else pure (array, vi)

/-- A name and its terminator: `varname` and `vi`. -/
def readVarname (line array : List UInt8) : Traced Write (List UInt8 × ℕ) := do
  let word ← readName line array 0
  let array ← store varname word.1 word.2 0
  pure (array, word.2)

/-- The outer loop on the rest of a line, of which the inner one has already read `k` bytes:
`buffer` and `bi`. -/
def expandLoop (s : Store) : ℕ → List UInt8 → List UInt8 → List UInt8 → ℕ →
    Traced Write (List UInt8 × ℕ)
  | _, [], _, out, bi => pure (out, bi)
  | k + 1, _ :: line, array, out, bi => expandLoop s k line array out bi
  | 0, c :: line, array, out, bi =>
    if c = dollar then do
      let word ← readVarname line array
      let name ← ofOption (readString word.1)
      let val ← ofOption (getVarValue s name)
      let copied ← storeAll buffer val out bi
      expandLoop s word.2 line word.1 copied.1 copied.2
    else do
      let out ← store buffer out bi c
      expandLoop s 0 line array out (bi + 1)

/-- `expand_variables` on its arrays: the bytes of `line` afterwards. -/
def expandInPlace (s : Store) (l : Locals) (line : List UInt8) :
    Traced Write (List UInt8) := do
  let text ← ofOption (readString line)
  let written ← expandLoop s 0 text l.varname l.buffer 0
  let out ← store buffer written.1 written.2 0
  let text ← ofOption (readString out)
  pure (strncpy maxLine text)

/-! ### What a line consists of -/

/-- A part of a line. -/
inductive Piece
  | literal (c : UInt8)
  | reference (name : List UInt8)
  deriving DecidableEq

/-- A reference is a `$` with the longest run of letters, digits and underscores behind it, which
may be empty. -/
def pieces : List UInt8 → List Piece
  | [] => []
  | c :: line =>
    if c = dollar then .reference (line.takeWhile isNameByte) :: pieces (line.dropWhile isNameByte)
    else .literal c :: pieces line
termination_by line => line.length
decreasing_by
  · exact Nat.lt_succ_of_le (List.length_dropWhile_le _ _)
  · exact Nat.lt_succ_self _

/-- The names referenced in a line. -/
def references (line : List UInt8) : List (List UInt8) :=
  (pieces line).filterMap fun
    | .literal _ => none
    | .reference name => some name

/-- What stands for a piece when the names have these values. -/
def Piece.text (value : List UInt8 → List UInt8) : Piece → List UInt8
  | .literal c => [c]
  | .reference name => value name

/-- The line with each reference replaced by the value of its name, and nothing read twice. -/
def substitute (value : List UInt8 → List UInt8) (line : List UInt8) : List UInt8 :=
  (pieces line).flatMap (Piece.text value)

/-- The number of bytes that stand for a piece: one, or the length of the value. -/
def Piece.width (s : Store) : Piece → ℕ
  | .literal _ => 1
  | .reference name => ((getVarValue s name).getD []).length

/-- The number of bytes the expansion takes in `buffer`, without the terminator. -/
def expandedLength (s : Store) (line : List UInt8) : ℕ := ((pieces line).map (Piece.width s)).sum

/-- The name fits `varname`, and its value ends inside the table it stands in. -/
def Readable (s : Store) (name : List UInt8) : Prop :=
  name.length < 64 ∧ (getVarValue s name).isSome

instance (s : Store) : DecidablePred (Readable s) :=
  fun _ => inferInstanceAs (Decidable (_ ∧ _))

theorem pieces_dollar (line : List UInt8) :
    pieces (dollar :: line)
      = .reference (line.takeWhile isNameByte) :: pieces (line.dropWhile isNameByte) := by
  rw [pieces, if_pos rfl]

theorem pieces_literal {c : UInt8} (hc : c ≠ dollar) (line : List UInt8) :
    pieces (c :: line) = .literal c :: pieces line := by
  rw [pieces, if_neg hc]

theorem drop_length_takeWhile (p : UInt8 → Bool) (line : List UInt8) :
    line.drop (line.takeWhile p).length = line.dropWhile p := by
  have hsplit : (line.takeWhile p ++ line.dropWhile p).drop (line.takeWhile p).length
      = line.dropWhile p := List.drop_left
  rwa [List.takeWhile_append_dropWhile] at hsplit

@[simp] theorem references_nil : references [] = [] := by
  simp [references, pieces]

theorem references_dollar (line : List UInt8) :
    references (dollar :: line)
      = line.takeWhile isNameByte :: references (line.dropWhile isNameByte) := by
  simp only [references, pieces_dollar, List.filterMap_cons]

theorem references_literal {c : UInt8} (hc : c ≠ dollar) (line : List UInt8) :
    references (c :: line) = references line := by
  simp only [references, pieces_literal hc, List.filterMap_cons]

@[simp] theorem substitute_nil (value : List UInt8 → List UInt8) : substitute value [] = [] := by
  simp [substitute, pieces]

theorem substitute_dollar (value : List UInt8 → List UInt8) (line : List UInt8) :
    substitute value (dollar :: line)
      = value (line.takeWhile isNameByte) ++ substitute value (line.dropWhile isNameByte) := by
  simp only [substitute, pieces_dollar, List.flatMap_cons, Piece.text]

theorem substitute_literal (value : List UInt8 → List UInt8) {c : UInt8} (hc : c ≠ dollar)
    (line : List UInt8) : substitute value (c :: line) = c :: substitute value line := by
  simp only [substitute, pieces_literal hc, List.flatMap_cons, Piece.text, List.singleton_append]

/-- **The loop computes the substitution.** It is undefined when one of the names is too long, or
when the value of one cannot be read. -/
theorem expandFrom_eq (s : Store) (line : List UInt8) : ∀ k : ℕ, expandFrom s k line
    = if ∀ name ∈ references (line.drop k), Readable s name then
        some (substitute (fun name => (getVarValue s name).getD []) (line.drop k))
      else none := by
  induction line with
  | nil =>
    intro k
    simp [expandFrom]
  | cons c line ih =>
    intro k
    cases k with
    | succ k => exact ih k
    | zero =>
      rw [List.drop_zero, expandFrom]
      by_cases hc : c = dollar
      · subst hc
        rw [if_pos rfl, references_dollar, substitute_dollar, ← drop_length_takeWhile]
        generalize line.takeWhile isNameByte = word
        simp only [List.forall_mem_cons, ih word.length]
        by_cases hlen : word.length < 64
        · cases hval : getVarValue s word with
          | none => simp [Readable, hval]
          | some val =>
            have hword : Readable s word := ⟨hlen, by rw [hval]; rfl⟩
            simp only [if_pos hlen, Option.bind_some, hword, true_and, Option.getD_some]
            split <;> rfl
        · simp [Readable, hlen]
      · rw [if_neg hc, references_literal hc, substitute_literal _ hc, ih 0, List.drop_zero]
        split <;> rfl

/-! ### The arrays hold the expansion -/

theorem zero_notMem_takeWhile (line : List UInt8) : 0 ∉ line.takeWhile isNameByte := by
  intro hmem
  exact absurd (List.mem_takeWhile_imp hmem) (by decide)

theorem readName_eq (line : List UInt8) : ∀ (array : List UInt8) (vi : ℕ),
    readName line array vi = storeAll varname (line.takeWhile isNameByte) array vi := by
  induction line with
  | nil => exact fun _ _ => rfl
  | cons c line ih =>
    intro array vi
    rw [readName, List.takeWhile_cons]
    by_cases hc : isNameByte c
    · rw [if_pos hc, if_pos hc, storeAll]
      simp only [ih]
    · rw [if_neg hc, if_neg hc, storeAll]

theorem result_readVarname {line array : List UInt8} (hlen : array.length = 64) :
    (readVarname line array).result
      = if (line.takeWhile isNameByte).length < 64 then
          some (line.takeWhile isNameByte ++
            0 :: array.drop ((line.takeWhile isNameByte).length + 1),
            (line.takeWhile isNameByte).length)
        else none := by
  rw [readVarname, readName_eq]
  generalize line.takeWhile isNameByte = word
  rw [result_bind, result_storeAll _ _ (Nat.zero_le _), hlen, Nat.zero_add]
  by_cases hle : word.length ≤ 64
  · have hword : (overwrite array 0 word).length = 64 := by
      rw [length_overwrite (by omega), hlen]
    rw [if_pos hle, Option.bind_some, result_bind, result_store, hword]
    by_cases hlt : word.length < 64
    · have hterm : overwrite (overwrite array 0 word) word.length [0]
          = overwrite array 0 (word ++ [0]) := by
        rw [← overwrite_overwrite [0] (by omega), Nat.zero_add]
      rw [if_pos hlt, if_pos hlt, Option.bind_some, hterm, overwrite_zero]
      simp
    · rw [if_neg hlt, if_neg hlt]
      rfl
  · rw [if_neg hle, if_neg (by omega)]
    rfl

/-- `buffer` and `bi` after `text` has been appended. -/
def grown (out : List UInt8) (bi : ℕ) (text : List UInt8) : Option (List UInt8 × ℕ) :=
  if bi + text.length ≤ maxLine then some (overwrite out bi text, bi + text.length) else none

theorem grown_eq_some {out text : List UInt8} {bi : ℕ} {p : List UInt8 × ℕ}
    (hout : out.length = maxLine) (h : grown out bi text = some p) :
    p.1.length = maxLine ∧ p.2 ≤ maxLine := by
  rw [grown] at h
  split at h
  · rename_i hfits
    cases h
    exact ⟨by rw [length_overwrite (by omega), hout], hfits⟩
  · cases h

theorem grown_append {out : List UInt8} (hout : out.length = maxLine) (bi : ℕ)
    (val text : List UInt8) :
    grown out bi (val ++ text) = (grown out bi val).bind fun p => grown p.1 p.2 text := by
  rw [grown, grown, List.length_append, ← Nat.add_assoc]
  by_cases hval : bi + val.length ≤ maxLine
  · rw [if_pos hval, Option.bind_some, grown, overwrite_overwrite text (by omega)]
  · rw [if_neg hval, if_neg (by omega)]
    rfl

/-- Appending to `buffer` first what comes first. -/
theorem bind_grown {out : List UInt8} (hout : out.length = maxLine) (bi : ℕ) (val : List UInt8)
    (rest : Option (List UInt8)) :
    (rest.map (val ++ ·)).bind (grown out bi)
      = (grown out bi val).bind fun p => rest.bind (grown p.1 p.2) := by
  cases rest with
  | none => cases grown out bi val <;> rfl
  | some text => exact grown_append hout bi val text

theorem result_storeAll_buffer {out : List UInt8} {bi : ℕ} (hout : out.length = maxLine)
    (hbi : bi ≤ maxLine) (val : List UInt8) :
    (storeAll buffer val out bi).result = grown out bi val := by
  rw [result_storeAll _ _ (by omega), hout]
  rfl

/-- One byte grows the buffer as a string of one byte does. -/
theorem result_store_buffer {out : List UInt8} (hout : out.length = maxLine) (bi : ℕ) (c : UInt8) :
    (store buffer out bi c).result = (grown out bi [c]).map Prod.fst := by
  have hgrown : grown out bi [c]
      = if bi < maxLine then some (overwrite out bi [c], bi + 1) else none := rfl
  rw [result_store, hout, hgrown]
  split <;> rfl

theorem snd_of_grown {out text : List UInt8} {bi : ℕ} {p : List UInt8 × ℕ}
    (h : grown out bi text = some p) : p.2 = bi + text.length := by
  rw [grown] at h
  split at h
  · cases h
    rfl
  · cases h

/-- `varname` with a terminated name in it. -/
theorem length_terminated {word array : List UInt8} (harray : array.length = 64)
    (hlen : word.length < 64) : (word ++ 0 :: array.drop (word.length + 1)).length = 64 := by
  simp only [List.length_append, List.length_cons, List.length_drop]
  omega

theorem result_expandLoop (s : Store) (line : List UInt8) :
    ∀ (k : ℕ) {array out : List UInt8} {bi : ℕ}, array.length = 64 → out.length = maxLine →
      bi ≤ maxLine → (expandLoop s k line array out bi).result
        = (expandFrom s k line).bind (grown out bi) := by
  induction line with
  | nil =>
    intro k array out bi _ _ hbi
    rw [expandLoop, expandFrom, result_pure]
    simp [grown, hbi]
  | cons c line ih =>
    intro k array out bi harray hout hbi
    cases k with
    | succ k => exact ih k harray hout hbi
    | zero =>
      rw [expandLoop, expandFrom]
      by_cases hc : c = dollar
      · rw [if_pos hc, if_pos hc, result_bind, result_readVarname harray]
        have hzero := zero_notMem_takeWhile line
        generalize line.takeWhile isNameByte = word at hzero ⊢
        by_cases hlen : word.length < 64
        · simp only [if_pos hlen, Option.bind_some, result_bind, result_ofOption,
            readString_append _ hzero]
          cases hval : getVarValue s word with
          | none => rfl
          | some val =>
            rw [Option.bind_some, Option.bind_some, result_storeAll_buffer hout hbi,
              bind_grown hout]
            refine Option.bind_congr fun p hp => ?_
            obtain ⟨hp1, hp2⟩ := grown_eq_some hout hp
            exact ih word.length (length_terminated harray hlen) hp1 hp2
        · rw [if_neg hlen, if_neg hlen]
          rfl
      · rw [if_neg hc, if_neg hc, result_bind, result_store_buffer hout]
        refine Eq.trans ?_ (bind_grown hout bi [c] (expandFrom s 0 line)).symm
        rw [Option.bind_map]
        refine Option.bind_congr fun p hp => ?_
        obtain ⟨hp1, hp2⟩ := grown_eq_some hout hp
        have hbi' : p.2 = bi + 1 := snd_of_grown hp
        rw [← hbi']
        exact ih 0 harray hp1 hp2

/-- **The arrays hold the expansion**: `line` holds it afterwards, read up to a NUL, and the rest
of the array is zero. -/
theorem expandInPlace_result (s : Store) (l : Locals) (line : Line) :
    (expandInPlace s l line.bytes).result
      = (expandVariables s line.text).map fun text => strncpy maxLine (cstring text) := by
  rw [expandInPlace, Line.bytes, expandVariables, readString_append _ line.zero_notMem]
  simp only [result_bind, result_ofOption, Option.bind_some,
    result_expandLoop s line.text 0 l.varname_length l.buffer_length (Nat.zero_le _)]
  cases expandFrom s 0 line.text with
  | none => rfl
  | some text =>
    rw [Option.bind_some, Option.bind_some, grown, Nat.zero_add]
    by_cases hlt : text.length < maxLine
    · have hle : 0 + text.length ≤ l.buffer.length := by
        rw [l.buffer_length]
        omega
      have hout : (overwrite l.buffer 0 text).length = maxLine := by
        rw [length_overwrite hle, l.buffer_length]
      have hterm := overwrite_overwrite [0] hle
      rw [Nat.zero_add] at hterm
      rw [if_pos hlt, if_pos hlt.le, Option.bind_some, result_store, hout, if_pos hlt, hterm,
        overwrite_zero, Option.bind_some, List.append_assoc, List.singleton_append,
        readString_append_zero]
      rfl
    · rw [if_neg hlt]
      by_cases hle : text.length ≤ maxLine
      · have hout : (overwrite l.buffer 0 text).length = maxLine := by
          rw [length_overwrite (by rw [l.buffer_length]; omega), l.buffer_length]
        rw [if_pos hle, Option.bind_some, result_store, hout, if_neg hlt]
        rfl
      · rw [if_neg hle]
        rfl

/-! ### When all stores are inside -/

theorem stopsOutside_readVarname (line : List UInt8) {array : List UInt8}
    (hlen : array.length = 64) : (readVarname line array).StopsOutside Write.Inside := by
  have hplace : ∀ i, (varname i).Inside ↔ i < 64 := fun _ => Iff.rfl
  rw [readVarname, readName_eq]
  refine (stopsOutside_storeAll hplace _ hlen 0).bind fun word hword => ?_
  refine (stopsOutside_store hplace ?_ _ _).bind fun _ _ => stopsOutside_pure _
  rw [result_storeAll _ _ (Nat.zero_le _)] at hword
  split at hword
  · cases hword
    rw [length_overwrite ‹_›, hlen]
  · cases hword

theorem stopsOutside_expandLoop (s : Store) (line : List UInt8) :
    ∀ (k : ℕ) {array out : List UInt8} {bi : ℕ}, array.length = 64 → out.length = maxLine →
      bi ≤ maxLine → (∀ name ∈ references (line.drop k), (getVarValue s name).isSome) →
        (expandLoop s k line array out bi).StopsOutside Write.Inside := by
  have hplace : ∀ i, (buffer i).Inside ↔ i < maxLine := fun _ => Iff.rfl
  induction line with
  | nil => exact fun _ _ _ _ _ _ _ _ => stopsOutside_pure _
  | cons c line ih =>
    intro k array out bi harray hout hbi hread
    cases k with
    | succ k => exact ih k harray hout hbi hread
    | zero =>
      rw [List.drop_zero] at hread
      rw [expandLoop]
      by_cases hc : c = dollar
      · rw [hc, references_dollar, ← drop_length_takeWhile, List.forall_mem_cons] at hread
        rw [if_pos hc]
        refine (stopsOutside_readVarname line harray).bind fun word hword => ?_
        rw [result_readVarname harray] at hword
        have hzero := zero_notMem_takeWhile line
        generalize line.takeWhile isNameByte = name at hword hzero hread
        split at hword
        · cases hword
          rw [readString_append _ hzero]
          obtain ⟨val, hval⟩ := Option.isSome_iff_exists.mp hread.1
          refine (stopsOutside_ofOption rfl).bind fun name' hname => ?_
          obtain rfl : name = name' := Option.some.inj hname
          refine (stopsOutside_ofOption hread.1).bind fun val' hval' => ?_
          refine (stopsOutside_storeAll hplace val' hout bi).bind fun p hp => ?_
          rw [result_storeAll_buffer hout hbi] at hp
          obtain ⟨hp1, hp2⟩ := grown_eq_some hout hp
          exact ih name.length (length_terminated harray ‹_›) hp1 hp2 hread.2
        · cases hword
      · rw [references_literal hc] at hread
        rw [if_neg hc]
        refine (stopsOutside_store hplace hout bi c).bind fun out' hout' => ?_
        rw [result_store, hout] at hout'
        split at hout'
        · rename_i hlt
          cases hout'
          refine ih 0 harray ?_ hlt (by rwa [List.drop_zero])
          rw [length_overwrite (by rw [hout]; exact hlt), hout]
        · cases hout'

theorem stopsOutside_expandInPlace (s : Store) (l : Locals) (line : Line)
    (hread : ∀ name ∈ references line.text, (getVarValue s name).isSome) :
    (expandInPlace s l line.bytes).StopsOutside Write.Inside := by
  have hplace : ∀ i, (buffer i).Inside ↔ i < maxLine := fun _ => Iff.rfl
  have hloop := stopsOutside_expandLoop s line.text 0 l.varname_length l.buffer_length
    (Nat.zero_le _) (by rwa [List.drop_zero])
  rw [expandInPlace, Line.bytes, readString_append _ line.zero_notMem]
  refine (stopsOutside_ofOption rfl).bind fun text htext => ?_
  obtain rfl : line.text = text := Option.some.inj htext
  refine hloop.bind fun p hp => ?_
  have hlen : p.1.length = maxLine := by
    rw [result_expandLoop s line.text 0 l.varname_length l.buffer_length (Nat.zero_le _)] at hp
    obtain ⟨text, -, hgrown⟩ := Option.bind_eq_some_iff.mp hp
    exact (grown_eq_some l.buffer_length hgrown).1
  refine (stopsOutside_store hplace hlen p.2 0).bind fun out hout => ?_
  refine StopsOutside.bind (stopsOutside_ofOption ?_) fun _ _ => stopsOutside_pure _
  -- the terminator is in the array
  rw [result_store] at hout
  split at hout
  · cases hout
    have hzero : 0 ∈ overwrite p.1 p.2 [0] := by simp [overwrite]
    obtain ⟨text, htext⟩ := exists_readString hzero
    rw [htext]
    rfl
  · cases hout

theorem length_substitute (s : Store) (line : List UInt8) :
    (substitute (fun name => (getVarValue s name).getD []) line).length
      = expandedLength s line := by
  rw [substitute, expandedLength, List.length_flatMap]
  refine congrArg List.sum (List.map_congr_left fun piece _ => ?_)
  cases piece <;> rfl

theorem expandVariables_eq (s : Store) (line : List UInt8) : expandVariables s line
    = if (∀ name ∈ references line, Readable s name) ∧ expandedLength s line < maxLine then
        some (substitute (fun name => (getVarValue s name).getD []) line)
      else none := by
  rw [expandVariables, expandFrom_eq, List.drop_zero, ← length_substitute]
  by_cases hread : ∀ name ∈ references line, Readable s name
  · rw [if_pos hread, Option.bind_some]
    simp only [and_iff_right hread]
  · rw [if_neg hread, if_neg fun h => hread h.1]
    rfl

theorem isSome_expandInPlace_iff (s : Store) (l : Locals) (line : Line) :
    (expandInPlace s l line.bytes).result.isSome ↔
      (∀ name ∈ references line.text, Readable s name) ∧ expandedLength s line.text < maxLine := by
  rw [expandInPlace_result, Option.isSome_map, expandVariables_eq]
  split
  · simp_all
  · simp_all

/-- **When the expansion stays inside its arrays.** `expand_variables` reads no value past its table
and comes to its end with every store inside, terminators included, if and only if the names in the
line have less than 64 bytes, their values end inside the tables, and the bytes outside references
and the values together are fewer than `MAX_LINE`. Where the values can be read, this is also when
every store is inside. -/
theorem expand_stores_inside_iff (s : Store) (l : Locals) (line : Line) :
    (((expandInPlace s l line.bytes).result.isSome ∧
        ∀ w ∈ (expandInPlace s l line.bytes).log, w.Inside) ↔
      (∀ name ∈ references line.text, name.length < 64 ∧ (getVarValue s name).isSome) ∧
        expandedLength s line.text < maxLine) ∧
    ((∀ name ∈ references line.text, (getVarValue s name).isSome) →
      ((∀ w ∈ (expandInPlace s l line.bytes).log, w.Inside) ↔
        (∀ name ∈ references line.text, name.length < 64) ∧
          expandedLength s line.text < maxLine)) := by
  have hsome := isSome_expandInPlace_iff s l line
  constructor
  · refine Iff.trans ⟨And.left, fun h => ⟨h, ?_⟩⟩ hsome
    have hread : ∀ name ∈ references line.text, (getVarValue s name).isSome :=
      fun name hname => ((hsome.mp h).1 name hname).2
    exact (stopsOutside_expandInPlace s l line hread).inside_iff.mpr h
  · intro hread
    rw [(stopsOutside_expandInPlace s l line hread).inside_iff, hsome]
    refine and_congr_left fun _ => forall₂_congr fun name hname => ?_
    exact and_iff_left (hread name hname)

/-- The arrays of a first call, as zero bytes. -/
def Locals.zero : Locals :=
  ⟨List.replicate 64 0, List.replicate maxLine 0, List.length_replicate, List.length_replicate⟩

/-- A reference to a name of 64 letters, in a shell that has just been started: the terminator of
the name is stored behind `varname`. -/
theorem expand_store_outside :
    ¬ ∀ w ∈ (expandInPlace (.initial fun _ => none) .zero
      (Line.make (dollar :: List.replicate 64 65) (by decide) (by decide)).bytes).log,
        w.Inside := by
  decide

/-! ### The expansion is substitution -/

theorem isNameByte_of_mem_references {line name : List UInt8} (h : name ∈ references line) :
    ∀ b ∈ name, isNameByte b = true := by
  induction line using pieces.induct with
  | case1 => simp at h
  | case2 line ih =>
    rw [references_dollar] at h
    rcases List.mem_cons.mp h with rfl | hrest
    · exact fun b hb => List.mem_takeWhile_imp hb
    · exact ih hrest
  | case3 c line hc ih =>
    rw [references_literal hc] at h
    exact ih h

theorem zero_notMem_of_mem_references {line name : List UInt8} (h : name ∈ references line) :
    0 ∉ name :=
  fun h0 => absurd (isNameByte_of_mem_references h 0 h0) (by decide)

/-- Only the values of the names in the line matter. -/
theorem substitute_congr {value value' : List UInt8 → List UInt8} {line : List UInt8}
    (h : ∀ name ∈ references line, value name = value' name) :
    substitute value line = substitute value' line := by
  induction line using pieces.induct with
  | case1 => simp
  | case2 line ih =>
    rw [references_dollar, List.forall_mem_cons] at h
    rw [substitute_dollar, substitute_dollar, h.1, ih h.2]
  | case3 c line hc ih =>
    rw [references_literal hc] at h
    rw [substitute_literal _ hc, substitute_literal _ hc, ih h]

/-- A byte of the result is one of the line or of a value. -/
theorem mem_substitute {value : List UInt8 → List UInt8} {line : List UInt8} {b : UInt8}
    (h : b ∈ substitute value line) :
    (b ∈ line ∧ b ≠ dollar) ∨ ∃ name ∈ references line, b ∈ value name := by
  induction line using pieces.induct with
  | case1 => simp at h
  | case2 line ih =>
    rw [substitute_dollar] at h
    rw [references_dollar]
    rcases List.mem_append.mp h with hval | hrest
    · exact Or.inr ⟨_, List.mem_cons_self, hval⟩
    · rcases ih hrest with ⟨hb, hne⟩ | ⟨name, hname, hb⟩
      · exact Or.inl ⟨List.mem_cons_of_mem _ ((List.dropWhile_suffix _).subset hb), hne⟩
      · exact Or.inr ⟨name, List.mem_cons_of_mem _ hname, hb⟩
  | case3 c line hc ih =>
    rw [substitute_literal _ hc] at h
    rw [references_literal hc]
    rcases List.mem_cons.mp h with rfl | hrest
    · exact Or.inl ⟨List.mem_cons_self, hc⟩
    · rcases ih hrest with ⟨hb, hne⟩ | hval
      · exact Or.inl ⟨List.mem_cons_of_mem _ hb, hne⟩
      · exact Or.inr hval

theorem zero_notMem_of_isValue {s : Store}
    (henv : ∀ name value, s.environ name = some value → 0 ∉ value) {name value : List UInt8}
    (h : IsValue s name value) : 0 ∉ value := by
  cases h with
  | localVar _ hvalue => exact zero_notMem_of_readString hvalue
  | exported _ _ hvalue => exact zero_notMem_of_readString hvalue
  | environ _ _ hvalue => exact henv _ _ hvalue
  | undefined => exact List.not_mem_nil

/-- **The expansion is substitution in one pass.** When the names referenced in a line have at most
63 bytes and the result at most `MAX_LINE - 1`, `expand_variables` leaves in `line` the text in
which each `$` with the run of letters, digits and underscores behind it is replaced by the value
of that name, every other byte standing as it was; what was substituted is not read again. The
strings of the environment contain no NUL. -/
theorem expand_line_eq_substitute (s : Store) (l : Locals) (line : Line)
    (value : List UInt8 → List UInt8)
    (henv : ∀ name v, s.environ name = some v → 0 ∉ v)
    (hvalue : ∀ name ∈ references line.text, IsValue s name (value name))
    (hnames : ∀ name ∈ references line.text, name.length ≤ 63)
    (hfits : (substitute value line.text).length ≤ maxLine - 1) :
    ∃ after : Line, (expandInPlace s l line.bytes).result = some after.bytes ∧
      after.text = substitute value line.text := by
  have hget : ∀ name ∈ references line.text, getVarValue s name = some (value name) := by
    intro name hname
    have hlen := hnames name hname
    exact getVarValue_eq (zero_notMem_of_mem_references hname) (by omega) (hvalue name hname)
  have hread : ∀ name ∈ references line.text, Readable s name := by
    intro name hname
    have hlen := hnames name hname
    exact ⟨by omega, by rw [hget name hname]; rfl⟩
  have hsub : substitute (fun name => (getVarValue s name).getD []) line.text
      = substitute value line.text :=
    substitute_congr fun name hname => by rw [hget name hname]; rfl
  have hlt : (substitute value line.text).length < maxLine := Nat.lt_of_le_pred (by decide) hfits
  have h0 : 0 ∉ substitute value line.text := by
    intro hmem
    rcases mem_substitute hmem with ⟨hline, -⟩ | ⟨name, hname, hval⟩
    · exact line.zero_notMem hline
    · exact zero_notMem_of_isValue henv (hvalue name hname) hval
  refine ⟨Line.make _ h0 hlt, ?_, rfl⟩
  rw [expandInPlace_result, expandVariables_eq, ← length_substitute, hsub, if_pos ⟨hread, hlt⟩,
    Option.map_some, cstring_eq_self h0, strncpy, List.take_of_length_le hlt.le, Line.bytes,
    Line.make, ← List.replicate_succ]
  congr 3
  omega

/-- A local variable whose value looks like a reference, before a reference to one that is not
set. -/
theorem expand_line_eq_substitute_dollar :
    ∃ after : Line, (expandInPlace ⟨⟨[.make (ascii "A") (ascii "$B")], by decide⟩, .empty,
        fun _ => none⟩ .zero (Line.make (ascii "x$A $B") (by decide) (by decide)).bytes).result
          = some after.bytes ∧ after.text = ascii "x$B " := by
  have hrefs : references (ascii "x$A $B") = [ascii "A", ascii "B"] := by
    simp [references, pieces, ascii, isNameByte, isalnum, dollar]
  have hsub : substitute (fun name => if name = ascii "A" then ascii "$B" else [])
      (ascii "x$A $B") = ascii "x$B " := by
    simp [substitute, pieces, Piece.text, ascii, isNameByte, isalnum, dollar]
  obtain ⟨after, hresult, htext⟩ := expand_line_eq_substitute
    ⟨⟨[.make (ascii "A") (ascii "$B")], by decide⟩, .empty, fun _ => none⟩ .zero
    (Line.make (ascii "x$A $B") (by decide) (by decide))
    (fun name => if name = ascii "A" then ascii "$B" else []) (by simp)
    (by
      show ∀ name ∈ references (ascii "x$A $B"), _
      rw [hrefs]
      refine List.forall_mem_cons.mpr ⟨?_, List.forall_mem_cons.mpr ⟨?_, by simp⟩⟩
      · refine .localVar (i := 0) ⟨by decide, by decide, by simp⟩ (by decide)
      · refine .undefined ?_ ?_ rfl
        · intro i hi
          obtain rfl : i = 0 := Nat.lt_one_iff.mp hi
          decide
        · exact fun i hi => absurd hi (Nat.not_lt_zero i))
    (by
      show ∀ name ∈ references (ascii "x$A $B"), _
      rw [hrefs]
      decide)
    (by
      show (substitute _ (ascii "x$A $B")).length ≤ _
      rw [hsub]
      decide)
  refine ⟨after, hresult, ?_⟩
  rw [htext]
  exact hsub

end MiniShell

end SystemProgramming
