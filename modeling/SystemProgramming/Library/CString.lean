import Mathlib.Algebra.Order.Ring.Int
import Mathlib.Data.List.Basic
import Mathlib.Data.List.TakeWhile
import Mathlib.Data.List.Infix

/-!
# C strings

A C string is the list of its bytes up to the terminating NUL, which is not in the list. An array
of bytes holds the string `cstring` of it; the byte at index `i` of a string is `charAt`, which is
NUL at the end of the string.

The functions of `string.h` and `stdio.h` that programs use on such strings are given here as
recursions on the lists, with one lemma each that says what they decide.

## How strings and arrays are kept apart

A list that stands for a string has no NUL in it, and its length is `strlen`. A list that stands for
an array has as many bytes as the array, with NULs anywhere. `cstring` goes from the second to the
first, and the lemmas that need it ask for `0 ∉ s`.

`fgets` is not modelled call by call here. `fgetsFrom` is the list of what all calls together
deliver of a file that nobody else reads: the pieces joined are the file (`flatten_fgetsFrom`), so
that nothing is lost or read twice. In the same way `tokens` is the list of what all calls of
`strtok` return. Functions on arrays, where a NUL may be missing, are in `CharArray` and `Strtok`.

Numbers are integers, as `strtol` reads them: the digits are summed without a bound first, and what
does not fit is cut off at the end. The locale is the C locale throughout.

## Main results

* `strncmp_length_eq_zero_iff` — comparing as many bytes as the second string has is asking
  whether it is a prefix of the first
* `tokens_append_cons` — a token ends at the first separator
* `tokens_eq_scanWord` — `%s` takes the next token
* `splitAtByte_append` — `strchr` finds the first occurrence
* `length_intercalate_le_of_sublist` — tokens that are joined again fit where they came from
-/

namespace SystemProgramming

/-- The bytes of an ASCII literal. -/
def ascii (s : String) : List UInt8 := s.toList.map fun c => UInt8.ofNat c.toNat

/-- The string that an array of bytes holds. -/
def cstring (buf : List UInt8) : List UInt8 := buf.takeWhile (· != 0)

/-- `s[i]`, for `i` up to the terminating NUL. -/
def charAt (s : List UInt8) (i : ℕ) : UInt8 := s.getD i 0

theorem charAt_append_length (s t : List UInt8) : charAt (s ++ t) s.length = t.head?.getD 0 := by
  cases t <;> simp [charAt]

theorem cstring_eq_self {s : List UInt8} (h : 0 ∉ s) : cstring s = s := by
  refine List.takeWhile_eq_self_iff.mpr fun b hb => ?_
  simp only [bne_iff_ne]
  rintro rfl
  exact h hb

theorem zero_notMem_cstring (buf : List UInt8) : 0 ∉ cstring buf := fun h => by
  have hne := List.mem_takeWhile_imp h
  simp at hne

theorem length_cstring_le (buf : List UInt8) : (cstring buf).length ≤ buf.length :=
  (List.takeWhile_prefix _).length_le

/-- What successive calls of `fgets(buf, size, file)` deliver of the bytes still unread, when
`piece` has been read since the last of them: a line with its newline, or `size - 1` bytes of it,
or what is left at the end. -/
def fgetsFrom (size : ℕ) : List UInt8 → List UInt8 → List (List UInt8)
  | piece, [] => if piece.isEmpty then [] else [piece]
  | piece, c :: file =>
    if c = 10 ∨ size ≤ piece.length + 2 then (piece ++ [c]) :: fgetsFrom size [] file
    else fgetsFrom size (piece ++ [c]) file

/-- A line that fits is delivered whole. -/
theorem fgetsFrom_line {size : ℕ} (file : List UInt8) : ∀ {line piece : List UInt8},
    10 ∉ line → piece.length + line.length + 1 < size →
      fgetsFrom size piece (line ++ 10 :: file) = (piece ++ line ++ [10]) :: fgetsFrom size [] file
  | [], piece, _, _ => by simp [fgetsFrom]
  | c :: line, piece, hline, hsize => by
    have hc : c ≠ 10 := fun hc => hline (by simp [hc])
    have hrest : 10 ∉ line := fun hm => hline (List.mem_cons_of_mem _ hm)
    rw [List.length_cons] at hsize
    have hroom : ¬ size ≤ piece.length + 2 := by omega
    rw [List.cons_append, fgetsFrom, if_neg (by simp [hc, hroom]), fgetsFrom_line file hrest]
    · simp
    · rw [List.length_append, List.length_singleton]
      omega

/-- The newline that ends a part of a file ends the lines of the part. -/
theorem fgetsFrom_append {size : ℕ} (file : List UInt8) : ∀ (text piece : List UInt8),
    fgetsFrom size piece (text ++ 10 :: file) =
      fgetsFrom size piece (text ++ [10]) ++ fgetsFrom size [] file
  | [], piece => by simp [fgetsFrom]
  | c :: text, piece => by
    rw [List.cons_append, List.cons_append, fgetsFrom, fgetsFrom]
    split
    · rw [fgetsFrom_append file text [], List.cons_append]
    · exact fgetsFrom_append file text (piece ++ [c])

/-- A text of lines that each end in a newline. -/
def unlines (lines : List (List UInt8)) : List UInt8 := lines.flatMap (· ++ [10])

@[simp] theorem unlines_nil : unlines [] = [] := rfl

@[simp] theorem unlines_cons (line : List UInt8) (lines : List (List UInt8)) :
    unlines (line :: lines) = line ++ 10 :: unlines lines := by
  simp [unlines]

/-- Lines that fit are delivered one by one. -/
theorem fgetsFrom_unlines {size : ℕ} (file : List UInt8) : ∀ {lines : List (List UInt8)},
    (∀ line ∈ lines, 10 ∉ line ∧ line.length + 1 < size) →
      fgetsFrom size [] (unlines lines ++ file) =
        lines.map (· ++ [10]) ++ fgetsFrom size [] file
  | [], _ => rfl
  | line :: lines, h => by
    obtain ⟨⟨hline, hfits⟩, hlines⟩ := List.forall_mem_cons.mp h
    rw [unlines_cons, List.append_assoc, List.cons_append,
      fgetsFrom_line _ hline (by simpa using hfits), fgetsFrom_unlines file hlines, List.nil_append,
      List.map_cons, List.cons_append]

theorem length_of_mem_fgetsFrom {size : ℕ} (hsize : 1 < size) {line : List UInt8} :
    ∀ {file piece : List UInt8}, piece.length + 1 < size → line ∈ fgetsFrom size piece file →
      line.length < size
  | [], piece, hpiece, h => by
    rw [fgetsFrom] at h
    split at h
    · cases h
    · obtain rfl := List.mem_singleton.mp h
      omega
  | c :: file, piece, hpiece, h => by
    rw [fgetsFrom] at h
    split at h
    · rcases List.mem_cons.mp h with rfl | h
      · simpa using hpiece
      · exact length_of_mem_fgetsFrom hsize (by simpa using hsize) h
    · rename_i hmore
      push Not at hmore
      exact length_of_mem_fgetsFrom hsize (by simpa using hmore.2) h

/-- Nothing is lost, and nothing is read twice. -/
theorem flatten_fgetsFrom (size : ℕ) : ∀ file piece : List UInt8,
    (fgetsFrom size piece file).flatten = piece ++ file
  | [], piece => by
    rw [fgetsFrom]
    split
    · rename_i hempty
      simp [List.isEmpty_iff.mp hempty]
    · simp
  | c :: file, piece => by
    rw [fgetsFrom]
    split
    · rw [List.flatten_cons, flatten_fgetsFrom size file []]
      simp
    · rw [flatten_fgetsFrom size file (piece ++ [c])]
      simp

theorem ne_nil_of_mem_fgetsFrom {size : ℕ} {line : List UInt8} : ∀ {file piece : List UInt8},
    line ∈ fgetsFrom size piece file → line ≠ []
  | [], piece, h => by
    rw [fgetsFrom] at h
    split at h
    · cases h
    · rename_i hne
      obtain rfl := List.mem_singleton.mp h
      simpa using hne
  | c :: file, piece, h => by
    rw [fgetsFrom] at h
    split at h
    · rcases List.mem_cons.mp h with rfl | h
      · simp
      · exact ne_nil_of_mem_fgetsFrom h
    · exact ne_nil_of_mem_fgetsFrom h

/-- The number of pieces in which a line is delivered: one more than there are full ones in it. -/
theorem length_fgetsFrom_line {size : ℕ} (hsize : 1 < size) (file : List UInt8) :
    ∀ {line piece : List UInt8}, 10 ∉ line → piece.length + 1 < size →
      (fgetsFrom size piece (line ++ 10 :: file)).length =
        (piece.length + line.length) / (size - 1) + 1 + (fgetsFrom size [] file).length
  | [], piece, _, hpiece => by
    rw [List.nil_append, fgetsFrom, if_pos (Or.inl rfl), List.length_cons, List.length_nil,
      Nat.add_zero, Nat.div_eq_of_lt (by omega)]
    omega
  | c :: line, piece, hline, hpiece => by
    have hc : c ≠ 10 := fun hc => hline (by simp [hc])
    have hrest : 10 ∉ line := fun hm => hline (List.mem_cons_of_mem _ hm)
    rw [List.cons_append, fgetsFrom]
    by_cases hfull : size ≤ piece.length + 2
    · rw [if_pos (Or.inr hfull), List.length_cons,
        length_fgetsFrom_line hsize file hrest (by simpa using hsize)]
      have hsum : piece.length + (c :: line).length = line.length + (size - 1) := by
        rw [List.length_cons]
        omega
      rw [hsum, Nat.add_div_right _ (by omega), List.length_nil, Nat.zero_add]
      omega
    · rw [if_neg (by simp [hc, hfull]), length_fgetsFrom_line hsize file hrest (by simp; omega)]
      have hsum : (piece ++ [c]).length + line.length = piece.length + (c :: line).length := by
        rw [List.length_append, List.length_singleton, List.length_cons]
        omega
      rw [hsum]

/-! ### Comparing -/

def strncmp : List UInt8 → List UInt8 → ℕ → ℤ
  | _, _, 0 => 0
  | [], [], _ + 1 => 0
  | [], b :: _, _ + 1 => -(b.toNat : ℤ)
  | a :: _, [], _ + 1 => a.toNat
  | a :: s, b :: t, n + 1 => if a = b then strncmp s t n else (a.toNat : ℤ) - b.toNat

/-- **A prefix test.** -/
theorem strncmp_length_eq_zero_iff : ∀ {t : List UInt8} (s : List UInt8), 0 ∉ t →
    (strncmp s t t.length = 0 ↔ t <+: s)
  | [], s, _ => by simp [strncmp]
  | b :: t, [], h => by
    have hb : b ≠ 0 := fun hb => h (by simp [hb])
    have hb' : b.toNat ≠ 0 := fun hn => hb (UInt8.toNat_inj.mp hn)
    simp [strncmp, hb']
  | b :: t, a :: s, h => by
    have ht : 0 ∉ t := fun hm => h (List.mem_cons_of_mem _ hm)
    rw [List.length_cons, strncmp, List.cons_prefix_cons]
    by_cases hab : a = b
    · subst hab
      rw [if_pos rfl, strncmp_length_eq_zero_iff s ht]
      simp
    · have hne : a.toNat ≠ b.toNat := fun hn => hab (UInt8.toNat_inj.mp hn)
      rw [if_neg hab]
      constructor
      · intro hz
        omega
      · rintro ⟨rfl, -⟩
        exact absurd rfl hab

/-! ### Printing -/

/-- What `snprintf(buf, size, ..)` leaves in `buf` when the text to print is `text`. -/
def snprintf (size : ℕ) (text : List UInt8) : List UInt8 := text.take (size - 1)

theorem snprintf_eq_self {size : ℕ} {text : List UInt8} (h : text.length < size) :
    snprintf size text = text :=
  List.take_of_length_le (by omega)

/-! ### Scanning -/

/-- `isspace` in the C locale: a blank, or one of the five controls from tab to carriage return. -/
def isspace (b : UInt8) : Bool := b == 32 || (9 ≤ b && b ≤ 13)

def isdigit (b : UInt8) : Bool := 48 ≤ b && b ≤ 57

/-- The number at the start of the string, behind white space; 0 when there is none. -/
def leadingInteger (s : List UInt8) : ℤ :=
  let number (digits : List UInt8) : ℤ :=
    (digits.takeWhile isdigit).foldl (fun n b => 10 * n + (b.toNat - 48)) 0
  match s.dropWhile isspace with
  | 45 :: digits => -number digits
  | 43 :: digits => number digits
  | digits => number digits

/-- `strtol(s, NULL, 10)`: a number that a `long` cannot hold is replaced by the next one that it
can. -/
def strtol (s : List UInt8) : ℤ := max (-2 ^ 63) (min (leadingInteger s) (2 ^ 63 - 1))

/-- A number is one of `int`. -/
def IsInt (n : ℤ) : Prop := -2 ^ 31 ≤ n ∧ n < 2 ^ 31

instance (n : ℤ) : Decidable (IsInt n) := inferInstanceAs (Decidable (_ ∧ _))

/-- `atoi`, which is `(int) strtol(s, NULL, 10)`: the standard leaves numbers that an `int` cannot
hold open, and the C library keeps their last 32 bits. -/
def atoi (s : List UInt8) : ℤ := (strtol s).bmod (2 ^ 32)

theorem atoi_of_isInt {s : List UInt8} (h : IsInt (leadingInteger s)) :
    atoi s = leadingInteger s := by
  obtain ⟨hlow, hhigh⟩ := h
  have hstrtol : strtol s = leadingInteger s := by
    rw [strtol]
    omega
  rw [atoi, hstrtol]
  exact Int.bmod_eq_of_le (by omega) (by omega)

/-- What `%d` prints. -/
def decimal (n : ℤ) : List UInt8 := ascii (toString n)

/-- `%s`: skip white space, then take the bytes up to the next white space; `none` when the string
ends before a word. The second component is the rest of the string. -/
def scanWord (s : List UInt8) : Option (List UInt8 × List UInt8) :=
  let s := s.dropWhile isspace
  if s.isEmpty then none else some (s.takeWhile (!isspace ·), s.dropWhile (!isspace ·))

/-! ### Splitting -/

/-- The string up to the first `c`, and the string behind it: what is left of `s` and what
`strchr(s, c) + 1` points to once the `c` has been overwritten with NUL. -/
def splitAtByte (c : UInt8) (s : List UInt8) : Option (List UInt8 × List UInt8) :=
  if c ∈ s then some (s.takeWhile (· != c), (s.dropWhile (· != c)).tail) else none

theorem splitAtByte_append {c : UInt8} {s t : List UInt8} (h : c ∉ s) :
    splitAtByte c (s ++ c :: t) = some (s, t) := by
  have hall : ∀ b ∈ s, (b != c) = true := by
    intro b hb
    simp only [bne_iff_ne]
    rintro rfl
    exact h hb
  rw [splitAtByte, if_pos (by simp), List.takeWhile_append_of_pos hall,
    List.dropWhile_append_of_pos hall]
  simp

theorem splitAtByte_of_notMem {c : UInt8} {s : List UInt8} (h : c ∉ s) : splitAtByte c s = none :=
  if_neg h

theorem append_of_splitAtByte {c : UInt8} {s name value : List UInt8}
    (h : splitAtByte c s = some (name, value)) : name ++ c :: value = s := by
  by_cases hc : c ∈ s
  · obtain ⟨l, r, rfl, hl⟩ := List.eq_append_cons_of_mem hc
    rw [splitAtByte_append hl] at h
    cases h
    rfl
  · rw [splitAtByte_of_notMem hc] at h
    cases h

section Tokens

variable (isSep : UInt8 → Bool)

/-- What further calls of `strtok` return, when `word` has been passed since the last separator. -/
def tokensFrom : List UInt8 → List UInt8 → List (List UInt8)
  | word, [] => if word.isEmpty then [] else [word]
  | word, c :: s =>
    if isSep c then
      if word.isEmpty then tokensFrom [] s else word :: tokensFrom [] s
    else tokensFrom (word ++ [c]) s

/-- What successive calls of `strtok` return. -/
def tokens (s : List UInt8) : List (List UInt8) := tokensFrom isSep [] s

variable {isSep}

theorem tokensFrom_append {w : List UInt8} (h : ∀ b ∈ w, isSep b = false) :
    ∀ word s : List UInt8, tokensFrom isSep word (w ++ s) = tokensFrom isSep (word ++ w) s := by
  induction w with
  | nil => simp
  | cons c w ih =>
    intro word s
    have hc := h c List.mem_cons_self
    rw [List.cons_append, tokensFrom, hc, if_neg (by decide),
      ih (fun b hb => h b (List.mem_cons_of_mem _ hb))]
    simp

/-- A token ends at the first separator. -/
theorem tokens_append_cons {w : List UInt8} {c : UInt8} (hw : w ≠ [])
    (h : ∀ b ∈ w, isSep b = false) (hc : isSep c = true) (s : List UInt8) :
    tokens isSep (w ++ c :: s) = w :: tokens isSep s := by
  rw [tokens, tokensFrom_append h, List.nil_append, tokensFrom, if_pos hc,
    if_neg (by simpa using hw)]
  rfl

@[simp] theorem tokens_nil : tokens isSep [] = [] := rfl

theorem mem_of_mem_tokensFrom {w : List UInt8} {b : UInt8} (hb : b ∈ w) :
    ∀ {s word : List UInt8}, w ∈ tokensFrom isSep word s → b ∈ word ∨ b ∈ s
  | [], word, h => by
    rw [tokensFrom] at h
    split at h
    · cases h
    · exact Or.inl (List.mem_singleton.mp h ▸ hb)
  | c :: s, word, h => by
    rw [tokensFrom] at h
    split at h
    · split at h
      · rcases mem_of_mem_tokensFrom hb h with hw | hs
        · cases hw
        · exact Or.inr (List.mem_cons_of_mem _ hs)
      · rcases List.mem_cons.mp h with rfl | h
        · exact Or.inl hb
        · rcases mem_of_mem_tokensFrom hb h with hw | hs
          · cases hw
          · exact Or.inr (List.mem_cons_of_mem _ hs)
    · rcases mem_of_mem_tokensFrom hb h with hw | hs
      · rcases List.mem_append.mp hw with hw | hc
        · exact Or.inl hw
        · exact Or.inr (List.mem_cons.mpr (Or.inl (List.mem_singleton.mp hc)))
      · exact Or.inr (List.mem_cons_of_mem _ hs)

/-- The bytes of a token are bytes of the string. -/
theorem mem_of_mem_tokens {s w : List UInt8} {b : UInt8} (h : w ∈ tokens isSep s) (hb : b ∈ w) :
    b ∈ s :=
  (mem_of_mem_tokensFrom hb h).resolve_left List.not_mem_nil

theorem tokens_dropWhile :
    ∀ s : List UInt8, tokens isSep (s.dropWhile isSep) = tokens isSep s
  | [] => rfl
  | c :: s => by
    by_cases hc : isSep c = true
    · rw [List.dropWhile_cons_of_pos hc, tokens_dropWhile s]
      simp [tokens, tokensFrom, hc]
    · rw [List.dropWhile_cons_of_neg hc]

/-- A string that begins with a word. -/
theorem tokens_eq_takeWhile_cons {s : List UInt8} (h : s.takeWhile (!isSep ·) ≠ []) :
    tokens isSep s = s.takeWhile (!isSep ·) :: tokens isSep (s.dropWhile (!isSep ·)) := by
  have hword : ∀ b ∈ s.takeWhile (!isSep ·), isSep b = false := fun b hb => by
    simpa using List.mem_takeWhile_imp hb
  have hsplit : s = s.takeWhile (!isSep ·) ++ s.dropWhile (!isSep ·) :=
    List.takeWhile_append_dropWhile.symm
  rcases hrest : s.dropWhile (!isSep ·) with _ | ⟨c, rest⟩
  · rw [hrest, List.append_nil] at hsplit
    conv_lhs => rw [hsplit, tokens, ← List.append_nil (s.takeWhile _), tokensFrom_append hword]
    simpa [tokensFrom] using h
  · have hc : isSep c = true := by
      have hhead := List.head?_dropWhile_not (!isSep ·) s
      rw [hrest] at hhead
      simpa using hhead
    rw [hrest] at hsplit
    conv_lhs => rw [hsplit, tokens_append_cons h hword hc]
    rw [← tokens_dropWhile (c :: rest), List.dropWhile_cons_of_pos hc, tokens_dropWhile]

/-- **`%s` takes the next token.** -/
theorem tokens_eq_scanWord (s : List UInt8) :
    tokens isspace s = (scanWord s).elim [] fun p => p.1 :: tokens isspace p.2 := by
  rw [← tokens_dropWhile s, scanWord]
  rcases hs : s.dropWhile isspace with _ | ⟨c, rest⟩
  · rfl
  · have hc : isspace c = false := by
      have hhead := List.head?_dropWhile_not isspace s
      rw [hs] at hhead
      simpa using hhead
    have hword : (c :: rest).takeWhile (!isspace ·) ≠ [] := by simp [hc]
    exact tokens_eq_takeWhile_cons hword

/-! ### Joining tokens -/

/-- The length of words, each with one more byte. -/
def spaced (ws : List (List UInt8)) : ℕ := (ws.map fun w => w.length + 1).sum

theorem spaced_cons (w : List UInt8) (ws : List (List UInt8)) :
    spaced (w :: ws) = w.length + 1 + spaced ws := List.sum_cons

theorem spaced_le_of_sublist {ws ws' : List (List UInt8)} (h : ws.Sublist ws') :
    spaced ws ≤ spaced ws' := by
  induction h with
  | slnil => exact Nat.le_refl _
  | cons w _ ih =>
    rw [spaced_cons]
    omega
  | cons_cons w _ ih =>
    rw [spaced_cons, spaced_cons]
    omega

/-- The joined words have one separator less than there are words. -/
theorem length_intercalate_singleton (sep : UInt8) : ∀ ws : List (List UInt8),
    (List.intercalate [sep] ws).length = spaced ws - 1
  | [] => rfl
  | [w] => by simp [List.intercalate, spaced]
  | w :: w' :: ws => by
    have ih := length_intercalate_singleton sep (w' :: ws)
    rw [spaced_cons] at ih
    rw [List.intercalate, List.intersperse_cons_cons, List.flatten_cons, List.flatten_cons,
      List.length_append, List.length_append, ← List.intercalate, ih, spaced_cons, spaced_cons,
      List.length_singleton]
    omega

/-- Each token is followed by a separator, or is the last one. -/
theorem spaced_tokensFrom_le : ∀ s word : List UInt8,
    spaced (tokensFrom isSep word s) ≤ word.length + s.length + 1
  | [], word => by
    rw [tokensFrom]
    split
    · exact Nat.zero_le _
    · simp [spaced]
  | c :: s, word => by
    have hrest := spaced_tokensFrom_le s []
    have hlonger := spaced_tokensFrom_le s (word ++ [c])
    rw [List.length_nil] at hrest
    rw [List.length_append, List.length_singleton] at hlonger
    rw [tokensFrom, List.length_cons]
    split
    · split
      · omega
      · rw [spaced_cons]
        omega
    · omega

/-- **Tokens fit where they came from.** Some of the tokens of a string, joined by single bytes,
are no longer than the string. -/
theorem length_intercalate_le_of_sublist {s : List UInt8} {ws : List (List UInt8)}
    (h : ws.Sublist (tokens isSep s)) (sep : UInt8) :
    (List.intercalate [sep] ws).length ≤ s.length := by
  have hsub := spaced_le_of_sublist h
  have htokens := @spaced_tokensFrom_le isSep s []
  rw [List.length_nil] at htokens
  have hall : spaced (tokens isSep s) ≤ 0 + s.length + 1 := htokens
  rw [length_intercalate_singleton]
  omega

end Tokens

end SystemProgramming
