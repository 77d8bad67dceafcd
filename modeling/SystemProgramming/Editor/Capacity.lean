import SystemProgramming.Editor.Autosave

/-!
# What the editor can keep

`MAX_LINES` counts what `fgets` returns, and `fgets` cuts a line that does not fit into the buffer
into pieces. A text of at most `MAX_LINES` lines may therefore be too long.

## How it goes

The number of times that `fgets` returns is the sum over the lines of the number of their pieces,
and a line of `n` bytes with its newline has one piece for each `MAX_LINE_LEN - 1` bytes that have
been begun. The editor stops reading at `MAX_LINES` pieces. So what is saved is the text exactly
when that sum is at most `MAX_LINES`.

## Main results

* `exists_run_read` — every input is read to its end
* `saves_whole_iff` — the texts that are kept as a whole
-/

namespace SystemProgramming

namespace Editor

variable {input : List UInt8} {lines : List (List UInt8)} {as : List Act} {s : State}
  {es : List Event}

/-- The number of pieces in which `fgets` returns the lines. -/
def pieceCount (lines : List (List UInt8)) : ℕ :=
  (lines.map fun line => line.length / (maxLineLen - 1) + 1).sum

/-! ### Reading to the end -/

/-- One round of the loop reads one piece. -/
theorem exists_round {piece : List UInt8} {rest : List (List UInt8)} (hline : s.line = .fgets)
    (hstdin : s.stdin = piece :: rest) : ∃ as q, (machine input).runFrom s as = some q ∧
      q.1.line = .fgets ∧ q.1.stdin = rest := by
  obtain ⟨line, stdin, buffer, lines, lineCount⟩ := s
  obtain rfl : line = .fgets := hline
  obtain rfl : stdin = piece :: rest := hstdin
  by_cases hroom : lineCount < maxLines
  · refine ⟨[.next, .next, .next, .next], ⟨⟨.fgets, rest, piece,
      Function.update lines lineCount (some (cstring piece)), lineCount + 1⟩, [.read piece]⟩, ?_,
      rfl, rfl⟩
    simp [Machine.runFrom, machine, step, execute, hroom]
  · refine ⟨[.next, .next, .next], ⟨⟨.fgets, rest, piece, lines, lineCount⟩, [.read piece]⟩, ?_,
      rfl, rfl⟩
    simp [Machine.runFrom, machine, step, execute, hroom]

theorem exists_runFrom_read : ∀ {stdin : List (List UInt8)} {s : State}, s.line = .fgets →
    s.stdin = stdin → ∃ as q, (machine input).runFrom s as = some q ∧ q.1.line = .fgets ∧
      q.1.stdin = [] := by
  intro stdin
  induction stdin with
  | nil =>
    intro s hline hstdin
    exact ⟨[], (s, []), rfl, hline, hstdin⟩
  | cons piece rest ih =>
    intro s hline hstdin
    obtain ⟨as₁, q₁, hrun₁, hline₁, hstdin₁⟩ := exists_round hline hstdin
    obtain ⟨as₂, q₂, hrun₂, hline₂, hstdin₂⟩ := ih hline₁ hstdin₁
    refine ⟨as₁ ++ as₂, (q₂.1, q₁.2 ++ q₂.2), ?_, hline₂, hstdin₂⟩
    exact Machine.runFrom_append_eq_some.mpr ⟨q₁, hrun₁, q₂, hrun₂, rfl⟩

/-- Every input is read to its end. -/
theorem exists_run_read (input : List UInt8) : ∃ as s es, (machine input).run as = some (s, es) ∧
    s.line = .fgets ∧ s.stdin = [] := by
  have hread : ∃ as q, (machine input).runFrom (machine input).init as = some q ∧
      q.1.line = .fgets ∧ q.1.stdin = [] := exists_runFrom_read rfl rfl
  obtain ⟨as, q, hrun, hline, hstdin⟩ := hread
  exact ⟨as, q.1, q.2, hrun, hline, hstdin⟩

/-! ### Counting pieces -/

theorem length_fgetsFrom_unlines : ∀ {lines : List (List UInt8)}, (∀ line ∈ lines, 10 ∉ line) →
    (fgetsFrom maxLineLen [] (unlines lines)).length = pieceCount lines := by
  intro lines
  induction lines with
  | nil =>
    intro _
    rfl
  | cons line lines ih =>
    intro h
    obtain ⟨hline, hlines⟩ := List.forall_mem_cons.mp h
    have hone : (fgetsFrom maxLineLen [] (line ++ 10 :: unlines lines)).length = _ :=
      length_fgetsFrom_line (by decide) (unlines lines) hline (by decide)
    rw [unlines_cons, hone, ih hlines, pieceCount, pieceCount, List.map_cons, List.sum_cons,
      List.length_nil, Nat.zero_add]

/-- What is kept of an input that has been read. -/
theorem saves_all_iff (h0 : 0 ∉ input) (h : (machine input).run as = some (s, es))
    (hstdin : s.stdin = []) (hline : s.line = .fgets) :
    saveLines s.lines s.lineCount = some input ↔
      (fgetsFrom maxLineLen [] input).length ≤ maxLines := by
  have hsound := sound_of_run h0 h
  have hpieces := hsound.pieces
  rw [hstdin, List.append_nil] at hpieces
  have hkept := hsound.holds
  rw [Holds, hline, hpieces] at hkept
  have hcount := hkept.count
  have hall := flatten_fgetsFrom maxLineLen input []
  rw [List.nil_append] at hall
  rw [hkept.saveLines le_rfl]
  constructor
  · intro heq
    by_contra hmany
    -- the pieces behind the capacity are not empty
    have hsplit := congrArg List.flatten (List.take_append_drop s.lineCount
      (fgetsFrom maxLineLen [] input))
    rw [List.flatten_append, Option.some.inj heq, hall] at hsplit
    have hrest : ((fgetsFrom maxLineLen [] input).drop s.lineCount).flatten = [] := by
      simpa using hsplit
    have hlt : s.lineCount < (fgetsFrom maxLineLen [] input).length := by omega
    refine ne_nil_of_mem_fgetsFrom (List.getElem_mem hlt) (List.flatten_eq_nil_iff.mp hrest _ ?_)
    rw [List.drop_eq_getElem_cons hlt]
    exact List.mem_cons_self
  · intro hfew
    rw [List.take_of_length_le (by omega), hall]

/-- **The texts that are kept.** When a text has been read, a save writes the whole of it exactly
when its lines make at most `MAX_LINES` pieces. -/
theorem saves_whole_iff (hlines : ∀ line ∈ lines, 10 ∉ line ∧ 0 ∉ line)
    (h : (machine (unlines lines)).run as = some (s, es)) (hstdin : s.stdin = [])
    (hline : s.line = .fgets) :
    saveLines s.lines s.lineCount = some (unlines lines) ↔ pieceCount lines ≤ maxLines := by
  have h0 : 0 ∉ unlines lines := by
    intro hzero
    obtain ⟨line, hmem, hzero⟩ := List.mem_flatMap.mp hzero
    have hnot := (hlines line hmem).2
    simp_all
  rw [saves_all_iff h0 h hstdin hline, length_fgetsFrom_unlines
    fun line hmem => (hlines line hmem).1]

/-- A short line, and one that is cut in two. -/
theorem saves_whole_short : ∃ s es, (machine (unlines [ascii "ab", List.replicate 300 97])).run
    (List.replicate 12 .next) = some (s, es) ∧ s.lineCount = 3 ∧
      saveLines s.lines s.lineCount = some (unlines [ascii "ab", List.replicate 300 97]) := by
  have hrun : ((machine (unlines [ascii "ab", List.replicate 300 97])).run
      (List.replicate 12 .next)).map (fun p => (p.1.line, p.1.stdin, p.1.lineCount)) =
        some (.fgets, [], 3) := by decide +kernel
  obtain ⟨⟨s, es⟩, hs, heq⟩ := Option.map_eq_some_iff.mp hrun
  obtain ⟨hline, hstdin, hcount⟩ : s.line = .fgets ∧ s.stdin = [] ∧ s.lineCount = 3 := by
    simpa using heq
  have hlines : ∀ line ∈ [ascii "ab", List.replicate 300 97], 10 ∉ line ∧ 0 ∉ line := by
    decide +kernel
  exact ⟨s, es, hs, hcount, (saves_whole_iff hlines hs hstdin hline).mpr (by decide +kernel)⟩

/-- A hundred lines, the first of 255 bytes and the others empty. -/
def longAndEmpty : List (List UInt8) := List.replicate 255 97 :: List.replicate 99 []

/-- The last of a hundred lines is lost. -/
theorem long_line_lost : longAndEmpty.length ≤ maxLines ∧
    (∀ line ∈ longAndEmpty, 10 ∉ line ∧ 0 ∉ line) ∧
    ∃ as s es, (machine (unlines longAndEmpty)).run as = some (s, es) ∧ s.line = .fgets ∧
      s.stdin = [] ∧ saveLines s.lines s.lineCount ≠ some (unlines longAndEmpty) := by
  have hlines : ∀ line ∈ longAndEmpty, 10 ∉ line ∧ 0 ∉ line := by decide
  obtain ⟨as, s, es, hrun, hline, hstdin⟩ := exists_run_read (unlines longAndEmpty)
  refine ⟨by decide, hlines, as, s, es, hrun, hline, hstdin, ?_⟩
  rw [Ne, saves_all_iff (by decide) hrun hstdin hline,
    length_fgetsFrom_unlines
    fun line hmem => (hlines line hmem).1]
  decide +kernel

end Editor

end SystemProgramming
