import SystemProgramming.Library.CString
import SystemProgramming.Library.MaximalRuns

/-!
# Counting words in a piece of text

`lab8-lyjae/wc_mt.c` and `lab8-lyjae/wc_mt_overlap.c` count words with the same loop: a counter,
and a flag saying whether the previous byte was a word character. Both programs cut their input
into pieces and count each piece separately, so everything about them rests on what the loop
computes on a piece: it is `runStarts`, the pass of `MaximalRuns`, started without a memory; the
skip loop of `count_words_in_chunk` restores the memory of the piece before.

`is_word_char` is `isalnum`, here `isWordChar`. What is proved of the loops does not depend on it:
there the predicate is an arbitrary one.

## Main definitions

* `isWordChar` — `is_word_char`, in the C locale
* `countLoop`, `countWordsInChunk` — the loop, and the loop behind the rest of a word

## Main results

* `countLoop_eq` — the loop is the pass `runStarts`
-/

namespace SystemProgramming

/-- `is_word_char`, which is `isalnum`. A byte above 127 is a negative `char`; it is none. -/
def isWordChar (b : UInt8) : Bool := isdigit b || (65 ≤ b && b ≤ 90) || (97 ≤ b && b ≤ 122)

variable (isWordChar : UInt8 → Bool)

/-- The loop shared by `count_words` and `count_words_in_chunk`, over the bytes it visits. -/
def countLoop : ℕ → Bool → List UInt8 → ℕ
  | count, _, [] => count
  | count, inWord, c :: bytes =>
    if isWordChar c then countLoop (if inWord then count else count + 1) true bytes
    else countLoop count false bytes

/-- `count_words_in_chunk`: skip the rest of a word that began before the chunk, then count. -/
def countWordsInChunk (buf : List UInt8) (size : ℕ) (startsInsideWord : Bool) : ℕ :=
  let rest :=
    if startsInsideWord then (buf.take size).dropWhile isWordChar else buf.take size
  countLoop isWordChar 0 false rest

variable {isWordChar}

theorem countLoop_eq (count : ℕ) (inWord : Bool) (bytes : List UInt8) :
    countLoop isWordChar count inWord bytes = count + runStarts isWordChar inWord bytes := by
  induction bytes generalizing count inWord with
  | nil => rfl
  | cons c bytes ih =>
    by_cases hc : isWordChar c
    · cases inWord <;> simp [countLoop, runStarts, ih, hc, Nat.add_assoc]
    · simp [countLoop, runStarts, ih, hc]

/-- The flag handed to `count_words_in_chunk` is the memory of the pass. -/
theorem countWordsInChunk_eq (buf : List UInt8) (size : ℕ) (startsInsideWord : Bool) :
    countWordsInChunk isWordChar buf size startsInsideWord
      = runStarts isWordChar startsInsideWord (buf.take size) := by
  cases startsInsideWord with
  | false => simp [countWordsInChunk, countLoop_eq]
  | true => simp [countWordsInChunk, countLoop_eq, runStarts_true]

end SystemProgramming
