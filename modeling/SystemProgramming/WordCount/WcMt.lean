import SystemProgramming.WordCount.Counting
import Mathlib.Data.List.Basic
import Mathlib.Algebra.BigOperators.Group.List.Basic

/-!
# `wc_mt`: counting one buffer with several threads

`lab8-lyjae/wc_mt.c` cuts the buffer into `num_threads` blocks and then pushes the start and the
end of every range forward to the end of the word it falls into, each by its own loop. Nothing in
the source says that the end of one range and the start of the next end up at the same place;
they do, because both loops start from the same product `(i + 1) * block` and look at the same
bytes. `cut` names that common place, and a range is `[cut i, cut (i + 1))`.

A read outside the file is a fault here: `buffer[pos]?` is `none` from `size` on, and the whole
computation is then `none`. That `threadArgs` is always `some` says that no such read happens.

## What is assumed

`fopen`, `malloc`, `fread` and `pthread_create` succeed, and `size`, which `ftell` returns, is the
number of bytes that `fread` stores. The threads read one buffer and write their own `count`, so the
order of their steps does not matter and each is a function of its argument. The elapsed times have
no part in what is claimed and are left out.

The counts are natural numbers here. The program adds them in an `int`; `Baseline` says for which
files that is the same.

## Main results

* `threadArgs_eq` — the ranges are `[cut i, cut (i + 1))`, and no read faults
* `wcMt_ranges_and_count` — the ranges partition the file and their counts add up to its words
-/

namespace SystemProgramming

namespace WcMt

def maxThreads : ℕ := 16

/-- The part of `ThreadArg` that `main` fills in; `stop` is the field `end` of the source. -/
structure ThreadArg where
  buffer : List UInt8
  start : ℕ
  stop : ℕ
  deriving DecidableEq, Repr

variable (isWordChar : UInt8 → Bool)

/-- `count_words`, the function a thread runs. -/
def countWords (t : ThreadArg) : ℕ :=
  countLoop isWordChar 0 false ((t.buffer.drop t.start).take (t.stop - t.start))

/-- `while (pos < size && is_word_char(buffer[pos])) pos++;` -/
def skipWord (buffer : List UInt8) (size pos : ℕ) : Option ℕ :=
  if pos < size then
    (buffer[pos]?).bind fun c =>
      if isWordChar c then skipWord buffer size (pos + 1) else some pos
  else some pos
termination_by size - pos

/-- One round of the loop in `main`: the argument of thread `i`. -/
def threadArg (buffer : List UInt8) (size numThreads i : ℕ) : Option ThreadArg :=
  let block := size / numThreads
  let start := i * block
  let stop := if i = numThreads - 1 then size else (i + 1) * block
  (if i ≠ 0 then skipWord isWordChar buffer size start else some start).bind fun start =>
    (if i ≠ numThreads - 1 then skipWord isWordChar buffer size stop else some stop).bind
      fun stop => some ⟨buffer, start, stop⟩

/-- The loop in `main`; `size` is the length of the file. -/
def threadArgs (buffer : List UInt8) (numThreads : ℕ) : Option (List ThreadArg) :=
  (List.range numThreads).mapM (threadArg isWordChar buffer buffer.length numThreads)

/-- `total`: the counts of all threads, joined in order. -/
def total (buffer : List UInt8) (numThreads : ℕ) : Option ℕ :=
  (threadArgs isWordChar buffer numThreads).map fun args =>
    (args.map (countWords isWordChar)).sum

/-- `main` from the check of the thread count on: the message it rejects the count with, or the
number it prints. -/
def main (buffer : List UInt8) (numThreads : ℤ) : Option (Except String ℕ) :=
  if numThreads ≤ 0 ∨ numThreads > maxThreads then
    some (.error "Thread count must be between 1 and 16")
  else (total isWordChar buffer numThreads.toNat).map .ok

/-! ### Pushing a position forward -/

/-- Pushing forward stays in the file, never reads beyond it, and stops at the first position that
is not inside a word. -/
theorem skipWord_spec (buffer : List UInt8) {pos : ℕ} (hpos : pos ≤ buffer.length) :
    ∃ r, skipWord isWordChar buffer buffer.length pos = some r ∧ pos ≤ r ∧ r ≤ buffer.length ∧
      (∀ j < r, pos ≤ j → inRun isWordChar buffer j) ∧ ¬ inRun isWordChar buffer r := by
  induction hn : buffer.length - pos generalizing pos with
  | zero =>
    have hend : pos = buffer.length := by omega
    subst hend
    refine ⟨buffer.length, by rw [skipWord, if_neg (by omega)], le_rfl, le_rfl,
      fun j hj hj' => by omega, fun h => ?_⟩
    exact absurd (inRun_lt h) (Nat.lt_irrefl _)
  | succ n ih =>
    have hlt : pos < buffer.length := by omega
    by_cases hc : isWordChar buffer[pos]
    · obtain ⟨r, hr, hle, hsize, hin, hout⟩ := ih hlt (by omega)
      refine ⟨r, ?_, by omega, hsize, fun j hj hj' => ?_, hout⟩
      · rw [skipWord]
        simp [hlt, hc, hr]
      · rcases Nat.eq_or_lt_of_le hj' with rfl | hj''
        · simp [inRun, hlt, hc]
        · exact hin j hj hj''
    · refine ⟨pos, ?_, le_rfl, hpos, fun j hj hj' => by omega, by simp [inRun, hlt, hc]⟩
      rw [skipWord]
      simp [hlt, hc]

/-- The place where the ranges of threads `i - 1` and `i` meet. -/
def cut (buffer : List UInt8) (numThreads i : ℕ) : ℕ :=
  if i = 0 then 0
  else if i = numThreads then buffer.length
  else (skipWord isWordChar buffer buffer.length (i * (buffer.length / numThreads))).getD 0

section Cuts

variable (buffer : List UInt8) (n : ℕ)

@[simp] theorem cut_zero : cut isWordChar buffer n 0 = 0 := rfl

theorem cut_last (hn : 1 ≤ n) : cut isWordChar buffer n n = buffer.length := by
  have hne : n ≠ 0 := by omega
  simp [cut, hne]

theorem mul_block_le {i : ℕ} (hi : i ≤ n) : i * (buffer.length / n) ≤ buffer.length :=
  (Nat.mul_le_mul_right _ hi).trans (Nat.mul_div_le _ _)

/-- What an inner cut is: the push from the block boundary, succeeding. -/
theorem cut_spec {i : ℕ} (hi : 0 < i) (hin : i < n) :
    skipWord isWordChar buffer buffer.length (i * (buffer.length / n))
        = some (cut isWordChar buffer n i) ∧
      i * (buffer.length / n) ≤ cut isWordChar buffer n i ∧
      cut isWordChar buffer n i ≤ buffer.length ∧
      (∀ j < cut isWordChar buffer n i, i * (buffer.length / n) ≤ j →
        inRun isWordChar buffer j) ∧
      ¬ inRun isWordChar buffer (cut isWordChar buffer n i) := by
  obtain ⟨r, hr, h⟩ := skipWord_spec isWordChar buffer
    (mul_block_le buffer n hin.le)
  have hcut : cut isWordChar buffer n i = r := by
    simp [cut, hi.ne', hin.ne, hr]
  rw [hcut]
  exact ⟨hr, h⟩

theorem cut_le_length {i : ℕ} (hi : i ≤ n) : cut isWordChar buffer n i ≤ buffer.length := by
  rcases Nat.eq_zero_or_pos i with rfl | hpos
  · simp
  · rcases Nat.eq_or_lt_of_le hi with rfl | hlt
    · rw [cut_last isWordChar buffer i hpos]
    · exact (cut_spec isWordChar buffer n hpos hlt).2.2.1

/-- No cut but the first falls inside a word. -/
theorem not_inRun_cut {i : ℕ} (hpos : 0 < i) (hi : i ≤ n) :
    ¬ inRun isWordChar buffer (cut isWordChar buffer n i) := by
  rcases Nat.eq_or_lt_of_le hi with rfl | hlt
  · rw [cut_last isWordChar buffer i hpos]
    exact fun h => absurd (inRun_lt h) (Nat.lt_irrefl _)
  · exact (cut_spec isWordChar buffer n hpos hlt).2.2.2.2

/-- The cuts are in order: the next cut is not inside a word, and everything between a block
boundary and its cut is. -/
theorem cut_le_cut_succ {i : ℕ} (hi : i < n) :
    cut isWordChar buffer n i ≤ cut isWordChar buffer n (i + 1) := by
  rcases Nat.eq_zero_or_pos i with rfl | hpos
  · simp
  obtain ⟨-, -, hle, hinside, -⟩ := cut_spec isWordChar buffer n hpos hi
  have hsucc : i + 1 = n ∨ i + 1 < n := by omega
  rcases hsucc with hlast | hlt
  · rw [hlast, cut_last isWordChar buffer n (by omega)]
    exact hle
  · obtain ⟨-, hge, -, -, hout⟩ :=
      cut_spec isWordChar buffer n (i := i + 1) (by omega) hlt
    by_contra hcon
    refine hout (hinside _ (by omega) (le_trans ?_ hge))
    exact Nat.mul_le_mul_right _ (Nat.le_succ i)

theorem cut_le_cut {i j : ℕ} (hij : i ≤ j) (hj : j ≤ n) :
    cut isWordChar buffer n i ≤ cut isWordChar buffer n j := by
  induction j, hij using Nat.le_induction with
  | base => exact le_rfl
  | succ j _ ih => exact (ih (by omega)).trans (cut_le_cut_succ isWordChar buffer n hj)

/-! ### The ranges -/

theorem threadArg_eq {i : ℕ} (hi : i < n) :
    threadArg isWordChar buffer buffer.length n i
      = some ⟨buffer, cut isWordChar buffer n i, cut isWordChar buffer n (i + 1)⟩ := by
  have hstart : (if i ≠ 0 then skipWord isWordChar buffer buffer.length
        (i * (buffer.length / n)) else some (i * (buffer.length / n)))
      = some (cut isWordChar buffer n i) := by
    rcases Nat.eq_zero_or_pos i with rfl | hpos
    · simp
    · rw [if_pos hpos.ne', (cut_spec isWordChar buffer n hpos hi).1]
  have hstop : (if i ≠ n - 1 then skipWord isWordChar buffer buffer.length
        (if i = n - 1 then buffer.length else (i + 1) * (buffer.length / n))
        else some (if i = n - 1 then buffer.length else (i + 1) * (buffer.length / n)))
      = some (cut isWordChar buffer n (i + 1)) := by
    by_cases hlast : i = n - 1
    · have hn : i + 1 = n := by omega
      rw [if_neg (by omega), if_pos hlast, hn, cut_last isWordChar buffer n (by omega)]
    · rw [if_pos hlast, if_neg hlast, (cut_spec isWordChar buffer n (by omega) (by omega)).1]
  simp only [threadArg, hstart, hstop, Option.bind_some]

/-- The arguments `main` hands out: consecutive ranges between the cuts. -/
def cutArgs : List ThreadArg :=
  (List.range n).map fun i =>
    ⟨buffer, cut isWordChar buffer n i, cut isWordChar buffer n (i + 1)⟩

theorem threadArgs_eq : threadArgs isWordChar buffer n = some (cutArgs isWordChar buffer n) := by
  have h : ∀ l : List ℕ, (∀ i ∈ l, i < n) →
      l.mapM (threadArg isWordChar buffer buffer.length n) = some (l.map fun i =>
        ⟨buffer, cut isWordChar buffer n i, cut isWordChar buffer n (i + 1)⟩) := by
    intro l
    induction l with
    | nil => intro _; rfl
    | cons i l ih =>
      intro hl
      rw [List.mapM_cons, threadArg_eq isWordChar buffer n (hl i (List.mem_cons_self ..)),
        ih fun j hj => hl j (List.mem_cons_of_mem _ hj)]
      rfl
  exact h _ fun i hi => List.mem_range.mp hi

/-- The counts of the first `k` ranges add up to the words before the `k`-th cut. -/
theorem sum_countWords_cut : ∀ {k : ℕ}, k ≤ n →
    ((List.range k).map fun i => countWords isWordChar
        ⟨buffer, cut isWordChar buffer n i, cut isWordChar buffer n (i + 1)⟩).sum
      = runStarts isWordChar false (buffer.take (cut isWordChar buffer n k))
  | 0, _ => by simp [runStarts]
  | k + 1, hk => by
    have hle := cut_le_cut_succ isWordChar buffer n (i := k) (by omega)
    set a := cut isWordChar buffer n k
    set b := cut isWordChar buffer n (k + 1)
    have hsplit : buffer.take b = buffer.take a ++ (buffer.drop a).take (b - a) := by
      rw [← List.take_add, Nat.add_sub_cancel' hle]
    have hcount : countWords isWordChar ⟨buffer, a, b⟩
        = runStarts isWordChar false ((buffer.drop a).take (b - a)) := by
      simp [countWords, countLoop_eq]
    rw [List.range_succ, List.map_append, List.sum_append, sum_countWords_cut (by omega), hsplit]
    simp only [List.map_cons, List.map_nil, List.sum_cons, List.sum_nil, Nat.add_zero]
    rw [hcount]
    rcases Nat.eq_zero_or_pos k with rfl | hpos
    · simp [a, runStarts]
    · rw [runStarts_append_of_boundary]
      -- the range begins at a cut, so no word reaches into it
      intro hin
      refine not_inRun_cut isWordChar buffer n hpos (by omega) ?_
      have hlen : 0 < b - a := by
        have := inRun_lt hin
        simp only [List.length_take] at this
        omega
      simpa [inRun, List.getElem?_take, hlen] using hin

/-- Every byte of the file lies between two neighbouring cuts, and only between those two. -/
theorem existsUnique_between_cuts (hn : 1 ≤ n) {k : ℕ} (hk : k < buffer.length) :
    ∃! i, i < n ∧ cut isWordChar buffer n i ≤ k ∧ k < cut isWordChar buffer n (i + 1) := by
  have hex : ∃ i, k < cut isWordChar buffer n (i + 1) :=
    ⟨n - 1, by rw [Nat.sub_add_cancel hn, cut_last isWordChar buffer n hn]; exact hk⟩
  classical
  have hfirst : Nat.find hex < n := by
    have := Nat.find_min' hex (m := n - 1)
      (by rw [Nat.sub_add_cancel hn, cut_last isWordChar buffer n hn]; exact hk)
    omega
  refine ⟨Nat.find hex, ⟨hfirst, ?_, Nat.find_spec hex⟩, ?_⟩
  · cases hzero : Nat.find hex with
    | zero => simp
    | succ j =>
      have := Nat.find_min hex (m := j) (by omega)
      omega
  · rintro j ⟨hj, hle, hlt⟩
    refine (Nat.eq_or_lt_of_le (Nat.find_min' hex hlt)).elim Eq.symm fun hbefore => ?_
    have hmono := cut_le_cut isWordChar buffer n
      (i := Nat.find hex + 1) (j := j) hbefore (by omega)
    have := Nat.find_spec hex
    omega

theorem length_cutArgs : (cutArgs isWordChar buffer n).length = n := by simp [cutArgs]

theorem get_cutArgs (i : Fin (cutArgs isWordChar buffer n).length) :
    (cutArgs isWordChar buffer n).get i
      = ⟨buffer, cut isWordChar buffer n i, cut isWordChar buffer n (i + 1)⟩ := by
  rw [List.get_eq_getElem]
  simp [cutArgs]

theorem pairwise_cutArgs :
    (cutArgs isWordChar buffer n).Pairwise (fun s t => s.stop ≤ t.start) := by
  rw [List.pairwise_iff_get]
  intro i j hij
  rw [get_cutArgs, get_cutArgs]
  have hj : j.val < n := j.isLt.trans_eq (length_cutArgs isWordChar buffer n)
  exact cut_le_cut isWordChar buffer n hij hj.le

theorem existsUnique_cutArgs (hn : 1 ≤ n) {k : ℕ} (hk : k < buffer.length) :
    ∃! i : Fin (cutArgs isWordChar buffer n).length,
      ((cutArgs isWordChar buffer n).get i).start ≤ k ∧
        k < ((cutArgs isWordChar buffer n).get i).stop := by
  obtain ⟨i, ⟨hi, hle, hlt⟩, huniq⟩ :=
    existsUnique_between_cuts isWordChar buffer n hn hk
  refine ⟨⟨i, by rw [length_cutArgs]; exact hi⟩, ?_, ?_⟩
  · simp only [get_cutArgs]
    exact ⟨hle, hlt⟩
  · intro j hj
    simp only [get_cutArgs] at hj
    have hjn : j.val < n := j.isLt.trans_eq (length_cutArgs isWordChar buffer n)
    exact Fin.ext (huniq j ⟨hjn, hj⟩)

theorem sum_countWords_cutArgs (hn : 1 ≤ n) :
    ((cutArgs isWordChar buffer n).map (countWords isWordChar)).sum
      = runCount isWordChar buffer := by
  have hsum := sum_countWords_cut isWordChar buffer n le_rfl
  rw [cut_last isWordChar buffer n hn, List.take_length, ← runCount_eq_runStarts] at hsum
  rw [← hsum, cutArgs, List.map_map]
  rfl

theorem main_eq (hn : 1 ≤ n) (hmax : n ≤ maxThreads) :
    main isWordChar buffer n = some (.ok (runCount isWordChar buffer)) := by
  have hguard : ¬ ((n : ℤ) ≤ 0 ∨ (n : ℤ) > maxThreads) := by omega
  rw [main, if_neg hguard, total, Int.toNat_natCast, threadArgs_eq, Option.map_some,
    sum_countWords_cutArgs isWordChar buffer n hn]
  rfl

end Cuts

/-- **The ranges of `wc_mt`.** For every file and every admissible number of threads the ranges
are computed without a read outside the file; they are in order, none is inverted, every byte of
the file is in exactly one of them, and the counts add up to the number of words, which is what
`main` prints whatever the number of threads. -/
theorem wcMt_ranges_and_count (isWordChar : UInt8 → Bool) (buffer : List UInt8)
    (numThreads : ℕ) (hpos : 1 ≤ numThreads) (hmax : numThreads ≤ maxThreads) :
    ∃ args : List ThreadArg,
      threadArgs isWordChar buffer numThreads = some args ∧
      args.length = numThreads ∧
      (∀ t ∈ args, t.buffer = buffer ∧ t.start ≤ t.stop ∧ t.stop ≤ buffer.length) ∧
      args.Pairwise (fun s t => s.stop ≤ t.start) ∧
      (∀ k < buffer.length, ∃! i : Fin args.length,
        (args.get i).start ≤ k ∧ k < (args.get i).stop) ∧
      (args.map (countWords isWordChar)).sum = runCount isWordChar buffer ∧
      main isWordChar buffer numThreads = some (.ok (runCount isWordChar buffer)) := by
  refine ⟨cutArgs isWordChar buffer numThreads, threadArgs_eq isWordChar buffer numThreads,
    length_cutArgs isWordChar buffer numThreads, fun t ht => ?_,
    pairwise_cutArgs isWordChar buffer numThreads,
    fun k hk => existsUnique_cutArgs isWordChar buffer numThreads hpos hk,
    sum_countWords_cutArgs isWordChar buffer numThreads hpos,
    main_eq isWordChar buffer numThreads hpos hmax⟩
  obtain ⟨i, hi, rfl⟩ := List.mem_map.mp ht
  have hi' : i < numThreads := List.mem_range.mp hi
  exact ⟨rfl, cut_le_cut_succ isWordChar buffer numThreads hi',
    cut_le_length isWordChar buffer numThreads hi'⟩

/-- Three threads on eight bytes, words marked by nonzero bytes: the second block begins inside a
word, and the ranges meet at its end. -/
theorem wcMt_ranges_and_count_three :
    ∃ args : List ThreadArg,
      threadArgs (· != 0) [1, 1, 1, 0, 0, 1, 0, 1] 3 = some args ∧
      args.length = 3 ∧
      (args.map (countWords (· != 0))).sum = runCount (· != 0) [1, 1, 1, 0, 0, 1, 0, 1] ∧
      runCount (· != 0) ([1, 1, 1, 0, 0, 1, 0, 1] : List UInt8) = 3 := by
  obtain ⟨args, hargs, hlen, -, -, -, hsum, -⟩ :=
    wcMt_ranges_and_count (· != 0) [1, 1, 1, 0, 0, 1, 0, 1] 3 (by decide) (by decide)
  exact ⟨args, hargs, hlen, hsum, by decide⟩

end WcMt

end SystemProgramming
