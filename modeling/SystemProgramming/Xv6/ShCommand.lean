import SystemProgramming.Xv6.ShParse

/-!
# From a line to a command

`nulterminate` writes a NUL behind every word of the command. That is where a blank, a symbol or
the end of the line was, so no word is changed, and each is a string from then on.

## How it goes

The parser has found the words as pairs of pointers into the line, and they become strings when the
byte behind each is overwritten. The order in which that is done does not matter, and no write can
damage a word: the byte behind a word is none that a word goes on with, so it belongs to no word
(`Marks.kept`). It may be the byte behind two words at most if both end there, which is the same
write. Behind the last word of the line it is the NUL of the line itself.

For the other direction a line is written for every command, with every part in parentheses and
blanks everywhere. Nobody would type it, but it shows that the parser leaves no command out.

## Main definitions

* `Marks` — which bytes of the line are still there
* `Proper`, `render` — the commands that can be written, and a line for each

## Main results

* `commandOf_eq_ok_iff` — the command that `runcmd` is given is the one that the grammar derives
* `proper_iff_exists_line` — the commands that there is a line for
-/

namespace SystemProgramming

namespace Xv6

namespace Sh

variable {text s buf : List UInt8} {ts : List Token} {w : Span}

/-! ### `nulterminate` -/

/-- The array still has the bytes of all words, and a NUL behind the words of `ws`. -/
structure Marks (text : List UInt8) (ws : List Span) (buf : List UInt8) : Prop where
  length_eq : buf.length = text.length + 1
  kept : ∀ (i : ℕ) (b : UInt8), text[i]? = some b → isWordByte b = true → buf[i]? = some b
  ended : ∀ w ∈ ws, buf[w.stop text.length]? = some 0

theorem marks_nil (text : List UInt8) : Marks text [] (text ++ [0]) where
  length_eq := by rw [List.length_append, List.length_singleton]
  kept i b h _ := by
    obtain ⟨hi, -⟩ := List.getElem?_eq_some_iff.mp h
    rw [List.getElem?_append_left hi, h]
  ended w hw := absurd hw List.not_mem_nil

/-- The byte behind a word is no word byte. -/
theorem Counted.getElem?_stop (h : Counted text w) {b : UInt8}
    (hb : text[w.stop text.length]? = some b) : isWordByte b = false := by
  obtain ⟨before, hline⟩ := h.suffix
  rw [h.split] at hline
  have hstop := h.stop
  have hlength : w.stop text.length = (before ++ w.word).length := by
    rw [Span.stop, ← hline, List.length_append, List.length_append, List.length_append]
    omega
  rw [hlength, ← hline, ← List.append_assoc, List.getElem?_append_right le_rfl, Nat.sub_self,
    ← List.head?_eq_getElem?] at hb
  rw [hb] at hstop
  simpa using hstop

theorem Marks.terminate {ws : List Span} (h : Marks text ws buf) (hw : Counted text w) :
    Marks text (ws ++ [w]) (terminate text.length buf w) := by
  refine ⟨(List.length_set ..).trans h.length_eq, fun i b hi hb => ?_, fun v hv => ?_⟩
  · have hne : w.stop text.length ≠ i := by
      rintro rfl
      rw [hw.getElem?_stop hi] at hb
      cases hb
    rw [Sh.terminate, List.getElem?_set_ne hne, h.kept i b hi hb]
  · have hlt : w.stop text.length < buf.length := by
      rw [h.length_eq, Span.stop]
      omega
    by_cases heq : w.stop text.length = v.stop text.length
    · rw [Sh.terminate, ← heq, List.getElem?_set_self hlt]
    · rw [Sh.terminate, List.getElem?_set_ne heq]
      rcases List.mem_append.mp hv with hv | hv
      · exact h.ended v hv
      · exact absurd (by rw [List.mem_singleton.mp hv]) heq

theorem Marks.foldl : ∀ {argv ws : List Span} {buf : List UInt8}, Marks text ws buf →
    (∀ w ∈ argv, Counted text w) →
      Marks text (ws ++ argv) (argv.foldl (Sh.terminate text.length) buf)
  | [], ws, buf, h, _ => by rwa [List.append_nil]
  | w :: argv, ws, buf, h, hargv => by
    obtain ⟨hw, hrest⟩ := List.forall_mem_cons.mp hargv
    have htail := (h.terminate hw).foldl hrest
    rwa [List.append_assoc, List.singleton_append] at htail

/-- What `nulterminate` does to the array. -/
theorem Marks.nulterminate : ∀ {c : Cmd Span} {ws : List Span} {buf : List UInt8},
    Marks text ws buf → AllCounted text c →
      Marks text (ws ++ c.words) (nulterminate text.length c buf)
  | .exec argv, ws, buf, h, hc => h.foldl hc
  | .redir cmd file mode, ws, buf, h, hc => by
    have hcmd := h.nulterminate (c := cmd) fun w hw => hc w (List.mem_append_left _ hw)
    rw [Cmd.words, ← List.append_assoc]
    exact hcmd.terminate (hc file (List.mem_append_right _ List.mem_cons_self))
  | .pipe left right, ws, buf, h, hc => by
    have hleft := h.nulterminate (c := left) fun w hw => hc w (List.mem_append_left _ hw)
    rw [Cmd.words, ← List.append_assoc]
    exact hleft.nulterminate fun w hw => hc w (List.mem_append_right _ hw)
  | .list left right, ws, buf, h, hc => by
    have hleft := h.nulterminate (c := left) fun w hw => hc w (List.mem_append_left _ hw)
    rw [Cmd.words, ← List.append_assoc]
    exact hleft.nulterminate fun w hw => hc w (List.mem_append_right _ hw)
  | .back cmd, ws, buf, h, hc => Marks.nulterminate (c := cmd) h hc

/-- The pointer to a word is the word, once there is a NUL behind it. -/
theorem stringAt_eq {ws : List Span} (h0 : 0 ∉ text) (h : Marks text ws buf)
    (hw : Counted text w) (hmem : w ∈ ws) : stringAt text.length buf w = w.word := by
  obtain ⟨before, hline⟩ := hw.suffix
  rw [hw.split] at hline
  have hstart : text.length - w.q.length = before.length := by
    rw [← hline, hw.split, List.length_append, List.length_append]
    omega
  have hend : w.stop text.length = before.length + w.word.length := by
    rw [Span.stop, ← hline, List.length_append, List.length_append]
    omega
  have htake : (buf.drop before.length).take w.word.length = w.word := by
    refine List.ext_getElem? fun i => ?_
    by_cases hi : i < w.word.length
    · rw [List.getElem?_take_of_lt hi, List.getElem?_drop, List.getElem?_eq_getElem hi]
      refine h.kept _ _ ?_ (hw.isWord.bytes _ (List.getElem_mem hi))
      rw [← hline, List.getElem?_append_right (Nat.le_add_right _ _), Nat.add_sub_cancel_left,
        List.getElem?_append_left hi, List.getElem?_eq_getElem hi]
    · have hlength := List.length_take_le w.word.length (buf.drop before.length)
      rw [List.getElem?_eq_none (by omega), List.getElem?_eq_none (by omega)]
  have hbyte := h.ended w hmem
  rw [hend] at hbyte
  obtain ⟨hlt, hzero⟩ := List.getElem?_eq_some_iff.mp hbyte
  have hmem : buf.drop before.length =
      w.word ++ 0 :: buf.drop (before.length + w.word.length + 1) := by
    calc buf.drop before.length
        = (buf.drop before.length).take w.word.length ++
            (buf.drop before.length).drop w.word.length := (List.take_append_drop _ _).symm
      _ = _ := by rw [htake, List.drop_drop, List.drop_eq_getElem_cons hlt, hzero]
  have hword : ∀ b ∈ w.word, (b != 0) = true := by
    intro b hb
    rw [bne_iff_ne]
    rintro rfl
    exact h0 (by rw [← hline]; simp [hb])
  rw [stringAt, hstart, hmem, cstring, List.takeWhile_append_of_pos hword,
    List.takeWhile_cons_of_neg (by simp), List.append_nil]

/-! ### The command of a line -/

/-- What a line that is read to its end is found to be. -/
theorem found_of_parseline (h : Spells ts s) :
    Meets (Found s .line ts) (parseline (fuelFor s.length) s) := by
  have hlength := h.length_le
  exact (sound _).ofLine ⟨List.suffix_refl s, h⟩ (by rw [fuelFor]; omega)

theorem parsecmd_of_parseline {c : Cmd Span} {s' : List UInt8}
    (h : parseline (fuelFor s.length) s = .ok (c, s')) :
    parsecmd s = if skipBlanks s' ≠ [] then .error (.panic (.leftovers (skipBlanks s')))
      else .ok (c, nulterminate s.length c (s ++ [0])) := by
  rw [parsecmd, h]
  rfl

/-- The pointers of the command stand for its words. -/
theorem map_stringAt_eq {c : Cmd Span} (h0 : 0 ∉ s) (hc : AllCounted s c) :
    c.map (stringAt s.length (nulterminate s.length c (s ++ [0]))) = c.map Span.word :=
  Cmd.map_congr fun w hw => stringAt_eq h0 ((marks_nil s).nulterminate hc) (hc w hw)
    (List.mem_append_right _ hw)

theorem commandOf_ne_outOfFuel (s : List UInt8) : commandOf s ≠ .error .outOfFuel := by
  obtain ⟨ts, hspells⟩ := exists_spells s
  have hfound := found_of_parseline hspells
  cases hline : parseline (fuelFor s.length) s with
  | error e =>
    cases e with
    | panic e =>
      rw [commandOf, parsecmd, hline]
      exact fun h => by cases h
    | outOfFuel =>
      rw [hline] at hfound
      exact hfound.elim
  | ok r =>
    rw [commandOf, parsecmd_of_parseline hline]
    split <;> exact fun h => by cases h

theorem derives_of_commandOf {c : Cmd (List UInt8)} (h0 : 0 ∉ s) (h : commandOf s = .ok c) :
    ∃ ts, Spells ts s ∧ Derives .line ts c := by
  obtain ⟨ts, hspells⟩ := exists_spells s
  have hfound := found_of_parseline hspells
  cases hline : parseline (fuelFor s.length) s with
  | error e =>
    rw [commandOf, parsecmd, hline] at h
    cases h
  | ok r =>
    obtain ⟨c', s'⟩ := r
    rw [hline] at hfound
    obtain ⟨ts₁, ts₂, rfl, hrest, hcounted, hderives⟩ := hfound
    rw [commandOf, parsecmd_of_parseline hline] at h
    split at h
    · cases h
    · rename_i hskip
      obtain rfl : c'.map Span.word = c :=
        (map_stringAt_eq h0 hcounted).symm.trans (Except.ok.inj h)
      cases ts₂ with
      | nil => exact ⟨ts₁ ++ [], hspells, by rwa [List.append_nil]⟩
      | cons t ts₂ =>
        obtain ⟨ht, s'', hs'', -⟩ := spells_cons_iff.mp hrest.spells
        obtain ⟨text, htext⟩ := Token.text_eq_cons ht
        rw [hs'', htext] at hskip
        exact absurd hskip (by simp)

theorem commandOf_of_derives {c : Cmd (List UInt8)} (h0 : 0 ∉ s) (hspells : Spells ts s)
    (h : Derives .line ts c) : commandOf s = .ok c := by
  have hlength := hspells.length_le
  have hrest : Rest s (ts ++ []) s := ⟨List.suffix_refl s, by rwa [List.append_nil]⟩
  obtain ⟨c', s', hline, hend, rfl⟩ := parse_of_derives h (fuelFor s.length) hrest
    (fun t ht => by cases ht)
    (by rw [List.append_nil, Phrase.calls, fuelFor]; omega)
  have hfound := found_of_parseline hspells
  rw [show parseline (fuelFor s.length) s = _ from hline] at hfound
  obtain ⟨ts₁, ts₂, -, -, hcounted, -⟩ := hfound
  rw [commandOf, parsecmd_of_parseline hline, spells_nil_iff.mp hend.spells,
    if_neg (not_not.mpr rfl)]
  exact congrArg Except.ok (map_stringAt_eq h0 hcounted)

/-- **The shell runs what the grammar says.** The command that `runcmd` is given is the one that
the grammar derives from the line; there is one whenever the line is derived at all, and the parser
always comes to an end. -/
theorem commandOf_eq_ok_iff (h0 : 0 ∉ s) : commandOf s ≠ .error .outOfFuel ∧
    ∀ c, commandOf s = .ok c ↔ ∃ ts, Spells ts s ∧ Derives .line ts c := by
  refine ⟨commandOf_ne_outOfFuel s, fun c => ⟨derives_of_commandOf h0, ?_⟩⟩
  rintro ⟨ts, hspells, h⟩
  exact commandOf_of_derives h0 hspells h

/-- `echo a >b|(wc)` -/
theorem commandOf_eq_ok_iff_echo :
    commandOf (ascii "echo a >b|(wc)") = .ok (.pipe
      (.redir (.exec [ascii "echo", ascii "a"]) (ascii "b") .output) (.exec [ascii "wc"])) ∧
    ∃ ts, Spells ts (ascii "echo a >b|(wc)") ∧ Derives .line ts (.pipe
      (.redir (.exec [ascii "echo", ascii "a"]) (ascii "b") .output) (.exec [ascii "wc"])) := by
  have h : commandOf (ascii "echo a >b|(wc)") = .ok (.pipe
      (.redir (.exec [ascii "echo", ascii "a"]) (ascii "b") .output) (.exec [ascii "wc"])) := by
    rfl
  exact ⟨h, ((commandOf_eq_ok_iff (by decide)).2 _).mp h⟩

/-! ### A line for a command -/

/-- A command that can be written: its words are, and no simple command has too many. -/
def Proper : Cmd (List UInt8) → Prop
  | .exec argv => argv.length < maxArgs ∧ ∀ w ∈ argv, IsWord w ∧ 0 ∉ w
  | .redir cmd file _ => Proper cmd ∧ IsWord file ∧ 0 ∉ file
  | .pipe left right => Proper left ∧ Proper right
  | .list left right => Proper left ∧ Proper right
  | .back cmd => Proper cmd

/-- Tokens with a blank behind each. -/
def spell (ts : List Token) : List UInt8 := ts.flatMap fun t => t.text ++ [32]

/-- Tokens for a command: every command that is a part of another one stands in parentheses. -/
def tokensOf : Cmd (List UInt8) → List Token
  | .exec argv => argv.map .word
  | .redir cmd file mode =>
    .lpar :: tokensOf cmd ++ [.rpar, operator mode, .word file]
  | .pipe left right =>
    .lpar :: tokensOf left ++ .rpar :: .bar :: .lpar :: tokensOf right ++ [.rpar]
  | .list left right =>
    .lpar :: tokensOf left ++ .rpar :: .semi :: .lpar :: tokensOf right ++ [.rpar]
  | .back cmd => .lpar :: tokensOf cmd ++ [.rpar, .amp]

/-- A line for a command. -/
def render (c : Cmd (List UInt8)) : List UInt8 := spell (tokensOf c)

theorem stops_blank (t : Token) (s : List UInt8) : t.stops (32 :: s) = true := by
  cases t with
  | word w => exact show (!isWordByte 32) = true by decide
  | gt => exact show (some (32 : UInt8) != some 62) = true by decide
  | _ => rfl

theorem spells_spell : ∀ {ts : List Token}, (∀ t ∈ ts, t.Proper) → Spells ts (spell ts)
  | [], _ => .nil fun _ h => absurd h List.not_mem_nil
  | t :: ts, h => by
    obtain ⟨ht, hts⟩ := List.forall_mem_cons.mp h
    have hrest : Spells ts (32 :: spell ts) := by
      rw [← spells_skipBlanks, show skipBlanks (32 :: spell ts) = skipBlanks (spell ts) from rfl]
      exact spells_skipBlanks.mpr (spells_spell hts)
    have hcons : Spells (t :: ts) ([] ++ t.text ++ 32 :: spell ts) :=
      .cons (fun _ h => absurd h List.not_mem_nil) ht (stops_blank t (spell ts)) hrest
    simpa [spell] using hcons

/-- A simple command without redirections. -/
theorem derives_words {argv : List (List UInt8)} (h : argv.length < maxArgs) :
    Derives .line (argv.map .word) (.exec argv) := by
  have hparts : ∀ argv : List (List UInt8), partTokens (argv.map .arg) = argv.map .word ∧
      args (argv.map Part.arg) = argv ∧ redirs (argv.map Part.arg) = [] := by
    intro argv
    induction argv with
    | nil => exact ⟨rfl, rfl, rfl⟩
    | cons w argv ih =>
      obtain ⟨htokens, hargs, hredirs⟩ := ih
      simp [partTokens, args, redirs, htokens, hargs, hredirs]
  obtain ⟨htokens, hargs, hredirs⟩ := hparts argv
  have hexec := Derives.exec (argv.map .arg) (by rwa [hargs])
  rw [htokens, hargs, hredirs] at hexec
  simpa [backs] using Derives.back 0 (.one hexec)

theorem derives_tokensOf : ∀ {c : Cmd (List UInt8)}, Proper c → Derives .line (tokensOf c) c
  | .exec argv, h => derives_words h.1
  | .redir cmd file mode, h => by
    have hblock := Derives.block [(file, mode)] (derives_tokensOf h.1)
    simpa [tokensOf, backs] using Derives.back 0 (.one hblock)
  | .pipe left right, h => by
    have hleft := Derives.block [] (derives_tokensOf h.1)
    have hright := Derives.block [] (derives_tokensOf h.2)
    simpa [tokensOf, backs] using Derives.back 0 (.pipe hleft (.one hright))
  | .list left right, h => by
    have hleft := Derives.block [] (derives_tokensOf h.1)
    have hright := Derives.block [] (derives_tokensOf h.2)
    simpa [tokensOf, backs] using Derives.list 0 (.one hleft) (.back 0 (.one hright))
  | .back cmd, h => by
    have hblock := Derives.block [] (derives_tokensOf (c := cmd) h)
    simpa [tokensOf, backs] using Derives.back 1 (.one hblock)

/-- A token that can be written in a C string. -/
def Token.Clean : Token → Prop
  | .word w => IsWord w ∧ 0 ∉ w
  | _ => True

theorem clean_operator (mode : Redirection) : (operator mode).Clean := by
  cases mode <;> trivial

theorem Token.Clean.proper {t : Token} (h : t.Clean) : t.Proper := by
  cases t with
  | word w => exact h.1
  | _ => trivial

theorem Token.Clean.zero_notMem {t : Token} (h : t.Clean) : 0 ∉ t.text := by
  cases t with
  | word w => exact h.2
  | _ => decide

theorem clean_tokensOf : ∀ {c : Cmd (List UInt8)}, Proper c → ∀ t ∈ tokensOf c, t.Clean
  | .exec argv, h, t, ht => by
    obtain ⟨w, hw, rfl⟩ := List.mem_map.mp ht
    exact h.2 w hw
  | .redir cmd file mode, h, t, ht => by
    have ih := clean_tokensOf h.1
    simp only [tokensOf, List.cons_append, List.mem_cons, List.mem_append, List.not_mem_nil,
      or_false] at ht
    rcases ht with rfl | ht | rfl | rfl | rfl
    · trivial
    · exact ih t ht
    · trivial
    · exact clean_operator mode
    · exact h.2
  | .pipe left right, h, t, ht => by
    simp only [tokensOf, List.cons_append, List.mem_cons, List.mem_append, List.not_mem_nil,
      or_false] at ht
    rcases ht with rfl | (ht | rfl | rfl | rfl | ht) | rfl
    · trivial
    · exact clean_tokensOf h.1 t ht
    · trivial
    · trivial
    · trivial
    · exact clean_tokensOf h.2 t ht
    · trivial
  | .list left right, h, t, ht => by
    simp only [tokensOf, List.cons_append, List.mem_cons, List.mem_append, List.not_mem_nil,
      or_false] at ht
    rcases ht with rfl | (ht | rfl | rfl | rfl | ht) | rfl
    · trivial
    · exact clean_tokensOf h.1 t ht
    · trivial
    · trivial
    · trivial
    · exact clean_tokensOf h.2 t ht
    · trivial
  | .back cmd, h, t, ht => by
    simp only [tokensOf, List.cons_append, List.mem_cons, List.mem_append, List.not_mem_nil,
      or_false] at ht
    rcases ht with rfl | ht | rfl | rfl
    · trivial
    · exact clean_tokensOf (c := cmd) h t ht
    · trivial
    · trivial

/-- **A line for every command.** What is written for it is read as the command. -/
theorem commandOf_render {c : Cmd (List UInt8)} (h : Proper c) :
    0 ∉ render c ∧ commandOf (render c) = .ok c := by
  have htokens := clean_tokensOf h
  have h0 : 0 ∉ render c := by
    intro hmem
    obtain ⟨t, ht, hbyte⟩ := List.mem_flatMap.mp hmem
    rcases List.mem_append.mp hbyte with hbyte | hbyte
    · exact (htokens t ht).zero_notMem hbyte
    · exact absurd hbyte (by decide)
  exact ⟨h0, commandOf_of_derives h0 (spells_spell fun t ht => (htokens t ht).proper)
    (derives_tokensOf h)⟩

/-! ### What is found is proper -/

theorem Spells.clean (h0 : 0 ∉ s) (h : Spells ts s) : ∀ t ∈ ts, t.Clean := by
  induction h with
  | nil => exact fun t ht => absurd ht List.not_mem_nil
  | @cons t ts blanks s _ ht _ _ ih =>
    rw [List.mem_append, List.mem_append, not_or, not_or] at h0
    obtain ⟨⟨-, htext⟩, hs⟩ := h0
    refine List.forall_mem_cons.mpr ⟨?_, ih hs⟩
    cases t with
    | word w => exact ⟨ht, htext⟩
    | _ => trivial

theorem proper_backs : ∀ (n : ℕ) {c : Cmd (List UInt8)}, Proper c → Proper (backs n c)
  | 0, _, h => h
  | n + 1, c, h => proper_backs n (c := .back c) h

theorem proper_redirected : ∀ {rs : List (List UInt8 × Redirection)} {c : Cmd (List UInt8)},
    Proper c → (∀ r ∈ rs, IsWord r.1 ∧ 0 ∉ r.1) → Proper (redirected c rs)
  | [], _, h, _ => h
  | r :: _, c, h, hrs =>
    proper_redirected (c := .redir c r.1 r.2) ⟨h, hrs r List.mem_cons_self⟩
      fun r' hr' => hrs r' (List.mem_cons_of_mem _ hr')

theorem clean_redirTokens {rs : List (List UInt8 × Redirection)}
    (h : ∀ t ∈ redirTokens rs, t.Clean) : ∀ r ∈ rs, IsWord r.1 ∧ 0 ∉ r.1 := fun r hr =>
  h (.word r.1) (List.mem_flatMap.mpr ⟨r, hr, by simp⟩)

/-- The words of the parts of a simple command. -/
theorem clean_partTokens : ∀ {parts : List (Part (List UInt8))},
    (∀ t ∈ partTokens parts, t.Clean) →
      (∀ w ∈ args parts, IsWord w ∧ 0 ∉ w) ∧ ∀ r ∈ redirs parts, IsWord r.1 ∧ 0 ∉ r.1
  | [], _ => ⟨fun _ h => absurd h List.not_mem_nil, fun _ h => absurd h List.not_mem_nil⟩
  | .arg w :: parts, h => by
    obtain ⟨hw, hparts⟩ := List.forall_mem_cons.mp h
    obtain ⟨hargs, hredirs⟩ := clean_partTokens hparts
    exact ⟨List.forall_mem_cons.mpr ⟨hw, hargs⟩, hredirs⟩
  | .redir file mode :: parts, h => by
    obtain ⟨-, hrest⟩ := List.forall_mem_cons.mp h
    obtain ⟨hfile, hparts⟩ := List.forall_mem_cons.mp hrest
    obtain ⟨hargs, hredirs⟩ := clean_partTokens hparts
    exact ⟨hargs, List.forall_mem_cons.mpr ⟨hfile, hredirs⟩⟩

theorem proper_of_derives {ph : Phrase} {c : Cmd (List UInt8)} (h : Derives ph ts c)
    (hts : ∀ t ∈ ts, t.Clean) : Proper c := by
  induction h with
  | exec parts hargs =>
    obtain ⟨hwords, hfiles⟩ := clean_partTokens hts
    exact proper_redirected ⟨hargs, hwords⟩ hfiles
  | block _ _ ih =>
    obtain ⟨hleft, hright⟩ := List.forall_mem_append.mp hts
    exact proper_redirected (ih fun t ht => hleft t (List.mem_cons_of_mem _ ht))
      (clean_redirTokens fun t ht => hright t (List.mem_cons_of_mem _ ht))
  | one _ ih => exact ih hts
  | pipe _ _ ih ih' =>
    obtain ⟨hleft, hright⟩ := List.forall_mem_append.mp hts
    exact ⟨ih hleft, ih' fun t ht => hright t (List.mem_cons_of_mem _ ht)⟩
  | back n _ ih => exact proper_backs n (ih (List.forall_mem_append.mp hts).1)
  | list n _ _ ih ih' =>
    obtain ⟨hleft, hright⟩ := List.forall_mem_append.mp hts
    exact ⟨proper_backs n (ih (List.forall_mem_append.mp hleft).1),
      ih' fun t ht => hright t (List.mem_cons_of_mem _ ht)⟩

/-- **The commands of lines.** The commands that `runcmd` is given for some line are those whose
words can be written and whose simple commands have less than `MAXARGS` words. -/
theorem proper_iff_exists_line (c : Cmd (List UInt8)) :
    Proper c ↔ ∃ s, 0 ∉ s ∧ commandOf s = .ok c := by
  constructor
  · intro h
    exact ⟨render c, commandOf_render h⟩
  · rintro ⟨s, h0, h⟩
    obtain ⟨ts, hspells, hderives⟩ := derives_of_commandOf h0 h
    exact proper_of_derives hderives (hspells.clean h0)

end Sh

end Xv6

end SystemProgramming
