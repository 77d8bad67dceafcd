import SystemProgramming.Library.CString
import SystemProgramming.WordCount.ChunkBuffer
import SystemProgramming.WordCount.WcMt

/-!
# The word counters and `wc -w`

`wc -w` counts the maximal runs of bytes that are not white space. `is_word_char` is `isalnum`, so
the two programs of lab 8 count the maximal runs of letters and digits. The two numbers differ by
what punctuation does: a run of letters and digits that begins behind punctuation is a word of the
programs only, and a run of other bytes that begins with punctuation is a word of `wc -w` first.

The models of the two programs count without a bound, and the chunks of the second one have room for
any word. The programs themselves count in an `int`, and write to `malloc(CHUNK_SIZE + 256)`: what
they print has no meaning when the count does not fit, or when a byte has been written behind the
chunk. The counts only grow, so a partial sum does not fit only if the total does not.

## How it goes

Both counts are numbers of maximal runs, of a predicate and of a weaker one. Going through the file,
the two counts differ only where one of them begins a run and the other does not, and these are the
two kinds of neighbours that `resumed` and `introduced` count. Apostrophes and hyphens inside words
are of the first kind, and words that begin with a bracket or consist of punctuation are of the
second. The two may cancel out, so it is not enough to look for a single difference in a file.

## Main definitions

* `isWcChar`, beside `isWordChar` — the two kinds of bytes, in the C locale
* `WcMt.printed`, `WcMtOverlap.printed` — what the programs print, where it has a meaning
* `resumed`, `introduced` — the places where the two notions of a word differ

## Main results

* `runCount_add_introduced` — the two counts
* `counters_agree_iff` — when the programs print what `wc -w` prints
-/

namespace SystemProgramming

/-- A byte of a word of `wc -w`. -/
def isWcChar (b : UInt8) : Bool := !isspace b

/-- Neither a word character nor white space. -/
def isPunctuation (b : UInt8) : Bool := isWcChar b && !isWordChar b

def intMax : ℕ := 2 ^ 31 - 1

/-- The number that `wc_mt` prints: `int total`. -/
def WcMt.printed (file : List UInt8) (numThreads : ℕ) : Option ℕ :=
  match WcMt.main isWordChar file numThreads with
  | some (.ok total) => if total ≤ intMax then some total else none
  | _ => none

/-- The number that `wc_mt_overlap` prints at the end of a run: `int total_word_count`. -/
def WcMtOverlap.printed {n : ℕ} (file : List UInt8) (s : WcMtOverlap.State n) : Option ℕ :=
  if (∀ i ∈ producerWrites isWordChar file, i < bufSize) ∧ s.totalWordCount ≤ intMax then
    some s.totalWordCount
  else none

/-- The number of word characters right behind punctuation. -/
def resumed (file : List UInt8) : ℕ :=
  countPairs (fun before c => isWordChar c && before.any isPunctuation) none file

/-- The number of words of `wc -w` that begin with punctuation. -/
def introduced (file : List UInt8) : ℕ :=
  countPairs (fun before c => isPunctuation c && !before.any isWcChar) none file

theorem isWcChar_of_isWordChar {b : UInt8} (h : isWordChar b) : isWcChar b := by
  simp only [isWordChar, isdigit, Bool.or_eq_true, Bool.and_eq_true, decide_eq_true_eq,
    UInt8.le_iff_toNat_le, UInt8.toNat_ofNat, Nat.reduceMod, Nat.reducePow] at h
  have hblank : b ≠ 32 := by
    rintro rfl
    revert h
    decide
  simp only [isWcChar, isspace, Bool.not_or, Bool.and_eq_true, Bool.not_eq_true',
    beq_eq_false_iff_ne, Bool.and_eq_false_iff, decide_eq_false_iff_not, UInt8.le_iff_toNat_le,
    UInt8.toNat_ofNat, Nat.reduceMod, Nat.reducePow]
  exact ⟨hblank, by omega⟩

/-- **The two notions of a word.** -/
theorem runCount_add_introduced (file : List UInt8) :
    runCount isWordChar file + introduced file = runCount isWcChar file + resumed file := by
  rw [runCount_eq_runStarts, runCount_eq_runStarts]
  exact runStarts_add_countPairs (fun _ => isWcChar_of_isWordChar) file none

theorem runCount_eq_iff (file : List UInt8) :
    runCount isWordChar file = runCount isWcChar file ↔ resumed file = introduced file := by
  have hsum := runCount_add_introduced file
  omega

/-- No word that the end of a full chunk cuts goes on for 256 bytes, with another byte of the file
behind them. -/
def ChunksFit (file : List UInt8) : Prop :=
  ∀ p, WcMtOverlap.ChunkStart isWordChar file p →
    ¬ (p + WcMtOverlap.chunkSize + 256 < file.length ∧
      ∀ j, p + WcMtOverlap.chunkSize ≤ j + 1 → j < p + WcMtOverlap.chunkSize + 256 →
        inRun isWordChar file j)

theorem chunksFit_of_length_le {file : List UInt8}
    (hshort : file.length ≤ WcMtOverlap.chunkSize + 256) : ChunksFit file :=
  fun _ _ hlong => by omega

/-- A number that fits an `int` and is the other one. -/
theorem ite_eq_some_iff {P : Prop} [Decidable P] {total words : ℕ} :
    (if P ∧ total ≤ intMax then some total else none) = some words ↔
      total = words ∧ P ∧ words ≤ intMax := by
  rw [Option.ite_none_right_eq_some, Option.some_inj]
  constructor
  · rintro ⟨⟨hP, hle⟩, rfl⟩
    exact ⟨rfl, hP, hle⟩
  · rintro ⟨rfl, hP, hle⟩
    exact ⟨⟨hP, hle⟩, rfl⟩

/-- **The programs print what `wc -w` prints**, whatever the number of threads, if as many word
characters stand right behind punctuation as words of `wc -w` begin with punctuation, and the words
can be counted in an `int`; and, `wc_mt_overlap`, if all words have room in the chunks. They do so
only then. -/
theorem counters_agree_iff (file : List UInt8) :
    (∀ n : ℕ, 1 ≤ n → n ≤ WcMt.maxThreads →
      (WcMt.printed file n = some (runCount isWcChar file) ↔
        resumed file = introduced file ∧ runCount isWcChar file ≤ intMax)) ∧
      ∀ n : ℕ, 1 ≤ n → ∀ (as : List (WcMtOverlap.Act n)) (s : WcMtOverlap.State n)
        (es : List (WcMtOverlap.Event n)),
        (WcMtOverlap.machine isWordChar file n).run as = some (s, es) → s.AllReturned →
          (WcMtOverlap.printed file s = some (runCount isWcChar file) ↔
            resumed file = introduced file ∧ ChunksFit file ∧
              runCount isWcChar file ≤ intMax) := by
  constructor
  · intro n hn hmax
    have hprinted : WcMt.printed file n = if True ∧ runCount isWordChar file ≤ intMax then
        some (runCount isWordChar file) else none := by
      rw [WcMt.printed, WcMt.main_eq isWordChar file n hn hmax]
      simp only [true_and]
    rw [hprinted, ite_eq_some_iff, runCount_eq_iff, true_and]
  · intro n hn as s es h hall
    rw [WcMtOverlap.printed, ite_eq_some_iff, WcMtOverlap.total_of_allReturned hn h hall,
      runCount_eq_iff, WcMtOverlap.producerWrites_lt_iff, ChunksFit]

/-- One consumer, and a file of one chunk. -/
def oneChunk : List (WcMtOverlap.Act 1) :=
  [.read, .enqueue none, .read, .close, .dequeue 0 none, .add 0, .dequeue 0 none]

/-- Brackets around a word. -/
theorem counters_agree_brackets :
    WcMt.printed (ascii "(one) two") 2 = some (runCount isWcChar (ascii "(one) two")) ∧
      ∃ q, (WcMtOverlap.machine isWordChar (ascii "(one) two") 1).run oneChunk = some q ∧
        WcMtOverlap.printed (ascii "(one) two") q.1 =
          some (runCount isWcChar (ascii "(one) two")) := by
  have hagree : resumed (ascii "(one) two") = introduced (ascii "(one) two") := by decide
  have hfew : runCount isWcChar (ascii "(one) two") ≤ intMax := by decide
  have hfit : ChunksFit (ascii "(one) two") := chunksFit_of_length_le (by decide)
  have hend : ((WcMtOverlap.machine isWordChar (ascii "(one) two") 1).run oneChunk).any
      (fun q => decide q.1.AllReturned) := by decide
  obtain ⟨q, hrun, hall⟩ := (Option.any_eq_true _ _).mp hend
  refine ⟨((counters_agree_iff _).1 2 (by decide) (by decide)).mpr ⟨hagree, hfew⟩, q, hrun, ?_⟩
  exact ((counters_agree_iff _).2 1 (by decide) _ _ _ hrun (of_decide_eq_true hall)).mpr
    ⟨hagree, hfit, hfew⟩

/-- An apostrophe in a word: two words for the programs, and one for `wc -w`. -/
theorem apostrophe_counts_twice :
    WcMt.printed (ascii "don't") 1 ≠ some (runCount isWcChar (ascii "don't")) ∧
      ∃ q, (WcMtOverlap.machine isWordChar (ascii "don't") 1).run oneChunk = some q ∧
        q.1.AllReturned ∧
        WcMtOverlap.printed (ascii "don't") q.1 ≠ some (runCount isWcChar (ascii "don't")) := by
  have hone : runCount isWcChar (ascii "don't") = 1 := by decide
  have hend : ((WcMtOverlap.machine isWordChar (ascii "don't") 1).run oneChunk).any
      (fun q => decide (q.1.AllReturned ∧ q.1.totalWordCount = 2)) := by decide
  obtain ⟨q, hrun, hq⟩ := (Option.any_eq_true _ _).mp hend
  obtain ⟨hall, htwo⟩ := of_decide_eq_true hq
  rw [hone]
  refine ⟨?_, q, hrun, hall, ?_⟩
  · have hmain := WcMt.main_eq isWordChar (ascii "don't") 1 (by decide) (by decide)
    rw [WcMt.printed, hmain]
    decide
  · rw [WcMtOverlap.printed, htwo, ne_eq, ite_eq_some_iff]
    exact fun h => absurd h.1 (by decide)

end SystemProgramming
