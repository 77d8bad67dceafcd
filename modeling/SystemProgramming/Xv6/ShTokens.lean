import SystemProgramming.Xv6.Sh
import Mathlib.Data.List.DropRight

/-!
# What the shell takes for a token

`Spells` says which tokens a text is made of; `gettoken` and `peek` find the first of them.

## How it goes

`gettoken` skips blanks, looks at one byte, and goes on for `>` and for words. What it does depends
on the first token of the rest of the line alone, so there is a lemma for every kind of it; the word
ends where the token says it ends because of `stops`, which is part of what it means that a text is
spelled by tokens. `peek` compares the first byte of the token with a list of symbols, and as no
word begins with a symbol it never mistakes one for the other.

The parser is followed with `Rest`: what is left of the line, together with the tokens that it is
made of. A call that takes a token leaves a `Rest` with one token less.

## Main definitions

* `Rest` — what is left of a line, and the tokens it is made of
* `Counted` — a pair of pointers that delimits a word of the line

## Main results

* `gettoken_word`, `gettoken_ps`, `gettoken_ret` — `gettoken` takes the first token
* `peek_cons`, `peek_nil` — `peek` looks at it
* `exists_spells` — every text is made of tokens
-/

namespace SystemProgramming

namespace Xv6

namespace Sh

variable {line s : List UInt8} {t : Token} {ts : List Token}

/-! ### Blanks -/

theorem skipBlanks_append {blanks : List UInt8} (h : ∀ b ∈ blanks, isBlank b = true)
    (s : List UInt8) : skipBlanks (blanks ++ s) = skipBlanks s :=
  List.dropWhile_append_of_pos h

theorem skipBlanks_of_head {b : UInt8} (h : isBlank b = false) (s : List UInt8) :
    skipBlanks (b :: s) = b :: s :=
  List.dropWhile_cons_of_neg (by simp [h])

theorem skipBlanks_suffix (s : List UInt8) : skipBlanks s <:+ s := List.dropWhile_suffix _

theorem skipBlanks_idem (s : List UInt8) : skipBlanks (skipBlanks s) = skipBlanks s :=
  List.dropWhile_idempotent _ s

theorem of_dropWhile_eq_cons {p : UInt8 → Bool} {b : UInt8} {rest : List UInt8}
    (h : s.dropWhile p = b :: rest) : p b = false := by
  have hhead := List.head?_dropWhile_not p s
  rw [h] at hhead
  simpa using hhead

theorem isBlank_of_isWordByte {b : UInt8} (h : isWordByte b = true) : isBlank b = false := by
  rw [isWordByte, Bool.and_eq_true, Bool.not_eq_true'] at h
  exact h.1

theorem symbols_of_isWordByte {b : UInt8} (h : isWordByte b = true) :
    symbols.contains b = false := by
  rw [isWordByte, Bool.and_eq_true, Bool.not_eq_true', Bool.not_eq_true'] at h
  exact h.2

/-! ### The first token -/

/-- The first byte of a token. -/
def Token.first (t : Token) : UInt8 := t.text.headD 0

/-- What `gettoken` returns for a token. -/
def Token.code : Token → UInt8
  | .word _ => 97
  | .gtgt => 43
  | t => t.first

theorem Token.text_eq_cons (h : t.Proper) : ∃ rest, t.text = t.first :: rest := by
  cases t with
  | word w =>
    obtain ⟨b, rest, rfl⟩ := List.exists_cons_of_ne_nil h.ne_nil
    exact ⟨rest, rfl⟩
  | _ => exact ⟨_, rfl⟩

theorem Token.isBlank_first (h : t.Proper) : isBlank t.first = false := by
  cases t with
  | word w =>
    obtain ⟨b, rest, rfl⟩ := List.exists_cons_of_ne_nil h.ne_nil
    exact isBlank_of_isWordByte (h.bytes b List.mem_cons_self)
  | _ => rfl

/-- The text behind the blanks begins with the first token. -/
theorem spells_cons_iff : Spells (t :: ts) s ↔
    t.Proper ∧ ∃ s', skipBlanks s = t.text ++ s' ∧ t.stops s' = true ∧ Spells ts s' := by
  constructor
  · intro h
    cases h with
    | @cons _ _ blanks s' hblanks ht hstop hs =>
      refine ⟨ht, s', ?_, hstop, hs⟩
      obtain ⟨rest, hrest⟩ := Token.text_eq_cons ht
      rw [List.append_assoc, skipBlanks_append hblanks, hrest, List.cons_append,
        skipBlanks_of_head (Token.isBlank_first ht)]
  · rintro ⟨ht, s', hs', hstop, hs⟩
    have hsplit : s = s.takeWhile isBlank ++ t.text ++ s' := by
      rw [List.append_assoc, ← hs', skipBlanks, List.takeWhile_append_dropWhile]
    rw [hsplit]
    exact .cons (fun b hb => List.mem_takeWhile_imp hb) ht hstop hs

theorem spells_nil_iff : Spells [] s ↔ skipBlanks s = [] := by
  constructor
  · intro h
    cases h with
    | nil hblanks => exact List.dropWhile_eq_nil_iff.mpr hblanks
  · exact fun h => .nil (List.dropWhile_eq_nil_iff.mp h)

theorem spells_skipBlanks : ∀ {ts : List Token}, Spells ts (skipBlanks s) ↔ Spells ts s
  | [] => by rw [spells_nil_iff, spells_nil_iff, skipBlanks_idem]
  | _ :: _ => by rw [spells_cons_iff, spells_cons_iff, skipBlanks_idem]

/-- The value and the end of the token that a text begins with. -/
theorem tokenAt_text (ht : t.Proper) (hstop : t.stops s = true) :
    tokenAt (t.text ++ s) = (t.code, s) := by
  cases t with
  | word w =>
    obtain ⟨b, rest, rfl⟩ := List.exists_cons_of_ne_nil ht.ne_nil
    have hb := symbols_of_isWordByte (ht.bytes b List.mem_cons_self)
    have hsymbol : ∀ toks : List UInt8, toks ⊆ symbols → toks.contains b = false := by
      intro toks htoks
      rw [Bool.eq_false_iff, ne_eq, List.contains_iff_mem] at hb ⊢
      exact fun h => hb (htoks h)
    have hgt : b ≠ 62 := fun h => by
      rw [h] at hb
      exact absurd hb (by decide)
    have hend : s.dropWhile isWordByte = s := by
      cases s with
      | nil => rfl
      | cons c s => exact List.dropWhile_cons_of_neg (by simpa [Token.stops] using hstop)
    show tokenAt (b :: (rest ++ s)) = _
    rw [tokenAt, if_neg (by rw [hsymbol _ (by decide)]; exact Bool.false_ne_true), if_neg hgt,
      ← List.cons_append, List.dropWhile_append_of_pos ht.bytes, hend]
    rfl
  | gt =>
    cases s with
    | nil => rfl
    | cons c s =>
      have hc : c ≠ 62 := by simpa [Token.stops] using hstop
      show outputAt (c :: s) = (62, c :: s)
      rw [outputAt]
      exact fun _ h => hc (List.cons.inj h).1
  | _ => rfl

/-! ### What is left of a line -/

/-- The text is what is left of the line, and it is made of the tokens. -/
structure Rest (line : List UInt8) (ts : List Token) (s : List UInt8) : Prop where
  suffix : s <:+ line
  spells : Spells ts s

/-- The pointers delimit a word of the line, which goes on with a byte that ends the word. -/
structure Counted (line : List UInt8) (w : Span) : Prop where
  suffix : w.q <:+ line
  isWord : IsWord w.word
  split : w.q = w.word ++ w.eq
  stop : w.eq.head?.all (!isWordByte ·) = true

theorem Rest.skipBlanks (h : Rest line ts s) : Rest line ts (skipBlanks s) :=
  ⟨(skipBlanks_suffix s).trans h.suffix, spells_skipBlanks.mpr h.spells⟩

theorem gettoken_eq (h : Rest line (t :: ts) s) :
    ∃ s', Sh.skipBlanks s = t.text ++ s' ∧
      gettoken s = ⟨t.code, ⟨t.text ++ s', s'⟩, Sh.skipBlanks s'⟩ ∧
      t.Proper ∧ t.stops s' = true ∧ Spells ts s' := by
  obtain ⟨ht, s', hs', hstop, hs⟩ := spells_cons_iff.mp h.spells
  refine ⟨s', hs', ?_, ht, hstop, hs⟩
  rw [gettoken, hs', tokenAt_text ht hstop]

theorem gettoken_ret (h : Rest line (t :: ts) s) : (gettoken s).ret = t.code := by
  obtain ⟨s', -, heq, -⟩ := gettoken_eq h
  rw [heq]

/-- What is left behind the first token. -/
theorem gettoken_ps (h : Rest line (t :: ts) s) : Rest line ts (gettoken s).ps := by
  obtain ⟨s', hskip, heq, -, -, hs⟩ := gettoken_eq h
  have hsuffix : s' <:+ line := by
    refine List.IsSuffix.trans ?_ h.skipBlanks.suffix
    rw [hskip]
    exact List.suffix_append _ _
  rw [heq]
  exact Rest.skipBlanks ⟨hsuffix, hs⟩

theorem gettoken_word {w : List UInt8} (h : Rest line (.word w :: ts) s) :
    (gettoken s).span.word = w ∧ Counted line (gettoken s).span := by
  obtain ⟨s', hskip, heq, hproper, hstop, hs⟩ := gettoken_eq h
  have hword : Span.word ⟨w ++ s', s'⟩ = w := by
    rw [Span.word, List.length_append, Nat.add_sub_cancel, List.take_left]
  have hsuffix := h.skipBlanks.suffix
  rw [hskip] at hsuffix
  rw [heq]
  refine ⟨hword, hsuffix, ?_, ?_, hstop⟩
  · show IsWord (Span.word ⟨w ++ s', s'⟩)
    rw [hword]
    exact hproper
  · show w ++ s' = Span.word ⟨w ++ s', s'⟩ ++ s'
    rw [hword]

theorem gettoken_nil (h : Rest line [] s) :
    (gettoken s).ret = 0 ∧ Rest line [] (gettoken s).ps := by
  have hskip := spells_nil_iff.mp h.spells
  have hps : (gettoken s).ps = [] := by
    rw [gettoken, hskip]
    rfl
  refine ⟨by rw [gettoken, hskip]; rfl, ?_⟩
  rw [hps]
  exact ⟨List.nil_suffix, .nil (by simp)⟩

/-- Whether a token is one of those that `peek` is to look for. -/
def Token.isOneOf (toks : List UInt8) : Token → Bool
  | .word _ => false
  | t => toks.contains t.first

theorem peek_snd (toks : List UInt8) (h : Rest line ts s) : Rest line ts (peek s toks).2 :=
  h.skipBlanks

theorem peek_nil (toks : List UInt8) (h : Rest line [] s) : (peek s toks).1 = false := by
  show (Sh.skipBlanks s).head?.any toks.contains = false
  rw [spells_nil_iff.mp h.spells]
  rfl

/-- `peek` looks at the first byte of the first token, and no word begins with a symbol. -/
theorem peek_cons {toks : List UInt8} (htoks : toks ⊆ symbols) (h : Rest line (t :: ts) s) :
    (peek s toks).1 = t.isOneOf toks := by
  obtain ⟨ht, s', hs', -, -⟩ := spells_cons_iff.mp h.spells
  obtain ⟨rest, hrest⟩ := Token.text_eq_cons ht
  have hpeek : (peek s toks).1 = toks.contains t.first := by
    show (Sh.skipBlanks s).head?.any toks.contains = _
    rw [hs', hrest]
    rfl
  rw [hpeek]
  cases t with
  | word w =>
    obtain ⟨b, rest, rfl⟩ := List.exists_cons_of_ne_nil ht.ne_nil
    have hb := symbols_of_isWordByte (ht.bytes b List.mem_cons_self)
    show toks.contains b = false
    rw [Bool.eq_false_iff, ne_eq, List.contains_iff_mem] at hb ⊢
    exact fun h => hb (htoks h)
  | _ => rfl

/-! ### Every text -/

/-- A byte that is not a blank begins a token. -/
theorem exists_token {b : UInt8} (hb : isBlank b = false) (s : List UInt8) :
    ∃ (t : Token) (s' : List UInt8), t.Proper ∧ b :: s = t.text ++ s' ∧ t.stops s' = true := by
  by_cases hword : isWordByte b = true
  · refine ⟨.word ((b :: s).takeWhile isWordByte), (b :: s).dropWhile isWordByte, ⟨?_, ?_⟩, ?_, ?_⟩
    · rw [List.takeWhile_cons_of_pos hword]
      exact List.cons_ne_nil _ _
    · exact fun c hc => List.mem_takeWhile_imp hc
    · exact List.takeWhile_append_dropWhile.symm
    · show ((b :: s).dropWhile isWordByte).head?.all (!isWordByte ·) = true
      cases hrest : (b :: s).dropWhile isWordByte with
      | nil => rfl
      | cons c rest =>
        show (!isWordByte c) = true
        rw [of_dropWhile_eq_cons hrest]
        rfl
  · have hsymbol : symbols.contains b = true := by
      rw [isWordByte, hb] at hword
      simpa using hword
    have hmem : b ∈ [60, 124, 62, 38, 59, 40, 41] := List.contains_iff_mem.mp hsymbol
    simp only [List.mem_cons, List.not_mem_nil, or_false] at hmem
    rcases hmem with rfl | rfl | rfl | rfl | rfl | rfl | rfl
    · exact ⟨.lt, s, trivial, rfl, rfl⟩
    · exact ⟨.bar, s, trivial, rfl, rfl⟩
    · by_cases hnext : s.head? = some 62
      · obtain ⟨s', rfl⟩ : ∃ s', s = 62 :: s' := by
          cases s with
          | nil => cases hnext
          | cons c s' => exact ⟨s', by rw [Option.some.inj hnext]⟩
        exact ⟨.gtgt, s', trivial, rfl, rfl⟩
      · exact ⟨.gt, s, trivial, rfl, by simpa [Token.stops] using hnext⟩
    · exact ⟨.amp, s, trivial, rfl, rfl⟩
    · exact ⟨.semi, s, trivial, rfl, rfl⟩
    · exact ⟨.lpar, s, trivial, rfl, rfl⟩
    · exact ⟨.rpar, s, trivial, rfl, rfl⟩

theorem Spells.length_le (h : Spells ts s) : ts.length ≤ s.length := by
  induction h with
  | nil => exact Nat.zero_le _
  | @cons t ts blanks s _ ht _ _ ih =>
    obtain ⟨text, htext⟩ := Token.text_eq_cons ht
    rw [htext, List.length_append, List.length_append, List.length_cons, List.length_cons]
    omega

theorem exists_spells (s : List UInt8) : ∃ ts, Spells ts s := by
  induction hn : s.length using Nat.strong_induction_on generalizing s with
  | _ n ih =>
    cases hskip : skipBlanks s with
    | nil => exact ⟨[], spells_nil_iff.mpr hskip⟩
    | cons b rest =>
      obtain ⟨t, s', ht, heq, hstop⟩ := exists_token (of_dropWhile_eq_cons hskip) rest
      have hlength : s'.length < n := by
        obtain ⟨text, htext⟩ := Token.text_eq_cons ht
        have hlength := congrArg List.length (hskip.trans heq)
        have hle := (skipBlanks_suffix s).length_le
        rw [htext, List.length_append, List.length_cons] at hlength
        omega
      obtain ⟨ts, hts⟩ := ih s'.length hlength s' rfl
      exact ⟨t :: ts, spells_cons_iff.mpr ⟨ht, s', hskip.trans heq, hstop, hts⟩⟩

end Sh

end Xv6

end SystemProgramming
