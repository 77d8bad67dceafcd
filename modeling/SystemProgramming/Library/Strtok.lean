import SystemProgramming.Library.CharArray

/-!
# `strtok` on an array

`strtok` cuts a string where it stands: it overwrites the separator behind a token with NUL, and
remembers where to go on. The array may hold no NUL at all; a call that would read behind its end
has no result.

The array is written `done ++ rest`, where a call begins at `done.length`, and `rest` begins with
separators, followed by a word or by the end of the string.

## Three outcomes

What a call does depends on what stands at the position where it begins: only separators up to the
NUL, a word in front of a NUL, or a word in front of a separator. Each is one lemma, for arbitrary
text before and behind, and `begins` says that every string is of one of these forms. A program
that calls `strtok` in a loop is followed by induction on the string with these cases.

Behind a word that ends at a separator the next call begins one byte further on; behind a word that
ends with the string it begins at the NUL, finds nothing, and does not move any more. An array
without a NUL is a fourth form, and there the call has no meaning.

## Main definitions

* `Cut`, `strtok` — a call, and what it leaves

## Main results

* `strtok_blank`, `strtok_word`, `strtok_last` — the three outcomes of a call
* `strtok_outside` — when a call reads behind the array
* `begins`, `tokens_word` — what a string begins with, and its tokens
-/

namespace SystemProgramming

/-- The first position from `pos` on whose byte does not satisfy `p`; `mem` is what the array holds
from `pos` on. -/
def skipWhile (p : UInt8 → Bool) : List UInt8 → ℕ → Option ℕ
  | [], _ => none
  | c :: mem, pos => if p c then skipWhile p mem (pos + 1) else some pos

/-- What a call of `strtok` returns, and what it leaves: the array, and the position it
remembers. -/
structure Cut where
  token : Option ℕ
  buf : List UInt8
  saved : ℕ
  deriving DecidableEq

/-- `strtok`, from the position `pos` on: it is 0 for a new string, and else the remembered one. -/
def strtok (isSep : UInt8 → Bool) (buf : List UInt8) (pos : ℕ) : Option Cut :=
  (skipWhile isSep (buf.drop pos) pos).bind fun start =>
    if charAt buf start = 0 then some ⟨none, buf, start⟩
    else
      (skipWhile (fun c => !isSep c && c != 0) (buf.drop start) start).map fun stop =>
        if charAt buf stop = 0 then ⟨some start, buf, stop⟩
        else ⟨some start, buf.set stop 0, stop + 1⟩

/-! ### Skipping -/

section Skip

variable {p : UInt8 → Bool} {w : List UInt8} {c : UInt8}

theorem skipWhile_append (hw : ∀ b ∈ w, p b = true) (hc : p c = false) (mem : List UInt8) :
    ∀ pos : ℕ, skipWhile p (w ++ c :: mem) pos = some (pos + w.length) := by
  induction w with
  | nil =>
    intro pos
    rw [List.nil_append, skipWhile, hc]
    rfl
  | cons b w ih =>
    intro pos
    rw [List.cons_append, skipWhile, if_pos (hw b List.mem_cons_self),
      ih (fun b hb => hw b (List.mem_cons_of_mem _ hb)), List.length_cons]
    congr 1
    omega

theorem skipWhile_outside (hw : ∀ b ∈ w, p b = true) : ∀ pos : ℕ, skipWhile p w pos = none := by
  induction w with
  | nil =>
    intro pos
    rfl
  | cons b w ih =>
    intro pos
    rw [skipWhile, if_pos (hw b List.mem_cons_self)]
    exact ih (fun b hb => hw b (List.mem_cons_of_mem _ hb)) _

end Skip

/-! ### One call -/

section Call

variable {isSep : UInt8 → Bool} {seps word : List UInt8} {c : UInt8}

/-- A word: bytes that are neither separators nor NUL, at least one. -/
structure IsWord (isSep : UInt8 → Bool) (word : List UInt8) : Prop where
  ne_nil : word ≠ []
  not_sep : ∀ b ∈ word, isSep b = false
  zero_notMem : 0 ∉ word

theorem IsWord.skips (h : IsWord isSep word) : ∀ b ∈ word, (!isSep b && b != 0) = true := by
  intro b hb
  rw [h.not_sep b hb, Bool.not_false, Bool.true_and, bne_iff_ne]
  exact ne_of_mem_of_not_mem hb h.zero_notMem

/-- The separators in front of a word are skipped. -/
theorem strtok_of_word (hseps : ∀ b ∈ seps, isSep b = true) (h : IsWord isSep word)
    (done rest : List UInt8) :
    strtok isSep (done ++ seps ++ word ++ rest) done.length =
      (skipWhile (fun c => !isSep c && c != 0) (word ++ rest) (done ++ seps).length).map fun stop =>
        if charAt (done ++ seps ++ word ++ rest) stop = 0 then
          ⟨some (done ++ seps).length, done ++ seps ++ word ++ rest, stop⟩
        else ⟨some (done ++ seps).length, (done ++ seps ++ word ++ rest).set stop 0, stop + 1⟩ := by
  obtain ⟨b, word, rfl⟩ := List.exists_cons_of_ne_nil h.ne_nil
  have hb : b ≠ 0 := ne_of_mem_of_not_mem List.mem_cons_self h.zero_notMem
  have hmem : (done ++ seps ++ b :: word ++ rest).drop done.length =
      seps ++ b :: (word ++ rest) := by
    rw [List.append_assoc, List.append_assoc, List.drop_left, List.cons_append]
  have hstart : charAt (done ++ seps ++ b :: word ++ rest) (done ++ seps).length = b := by
    rw [List.append_assoc, charAt_append_length]
    rfl
  have hrest : (done ++ seps ++ b :: word ++ rest).drop (done ++ seps).length =
      b :: word ++ rest := by
    rw [List.append_assoc, List.drop_left]
  rw [strtok, hmem, skipWhile_append hseps (h.not_sep b List.mem_cons_self), Option.bind_some,
    ← List.length_append, hstart, if_neg hb, hrest]

/-- **A token that ends at a separator.** -/
theorem strtok_word (hseps : ∀ b ∈ seps, isSep b = true) (h : IsWord isSep word)
    (hc : isSep c = true) (h0 : isSep 0 = false) (done rest : List UInt8) :
    strtok isSep (done ++ seps ++ word ++ c :: rest) done.length =
      some ⟨some (done ++ seps).length, done ++ seps ++ word ++ 0 :: rest,
        (done ++ seps ++ word ++ [0]).length⟩ := by
  have hne : c ≠ 0 := by
    rintro rfl
    exact absurd (hc.symm.trans h0) (by decide)
  have hstop : charAt (done ++ seps ++ word ++ c :: rest) (done ++ seps ++ word).length = c :=
    charAt_append_length _ _
  have hsaved : (done ++ seps ++ word ++ [0]).length = (done ++ seps ++ word).length + 1 :=
    List.length_append
  rw [strtok_of_word hseps h, skipWhile_append h.skips (by rw [hc]; rfl), Option.map_some,
    ← List.length_append, hstop, if_neg hne, List.set_append_right _ _ le_rfl, Nat.sub_self,
    List.set_cons_zero, hsaved]

/-- **A token that ends with the string.** -/
theorem strtok_last (hseps : ∀ b ∈ seps, isSep b = true) (h : IsWord isSep word)
    (done pad : List UInt8) :
    strtok isSep (done ++ seps ++ word ++ 0 :: pad) done.length =
      some ⟨some (done ++ seps).length, done ++ seps ++ word ++ 0 :: pad,
        (done ++ seps ++ word).length⟩ := by
  have hstop : charAt (done ++ seps ++ word ++ 0 :: pad) (done ++ seps ++ word).length = 0 :=
    charAt_append_length _ _
  rw [strtok_of_word hseps h, skipWhile_append h.skips (by simp), Option.map_some,
    ← List.length_append, hstop, if_pos rfl]

/-- **No token is left.** -/
theorem strtok_blank (hseps : ∀ b ∈ seps, isSep b = true) (h0 : isSep 0 = false)
    (done pad : List UInt8) :
    strtok isSep (done ++ seps ++ 0 :: pad) done.length =
      some ⟨none, done ++ seps ++ 0 :: pad, (done ++ seps).length⟩ := by
  have hmem : (done ++ seps ++ 0 :: pad).drop done.length = seps ++ 0 :: pad := by
    rw [List.append_assoc, List.drop_left]
  have hstart : charAt (done ++ seps ++ 0 :: pad) (done ++ seps).length = 0 :=
    charAt_append_length _ _
  rw [strtok, hmem, skipWhile_append hseps h0, Option.bind_some, ← List.length_append, hstart,
    if_pos rfl]

/-- **Outside the array**: it ends with separators, or with a word. -/
theorem strtok_outside (hseps : ∀ b ∈ seps, isSep b = true)
    (h : word = [] ∨ IsWord isSep word) (done : List UInt8) :
    strtok isSep (done ++ seps ++ word) done.length = none := by
  rcases h with rfl | h
  · rw [List.append_nil, strtok, List.drop_left, skipWhile_outside hseps, Option.bind_none]
  · have hall := strtok_of_word hseps h done []
    rw [List.append_nil, List.append_nil, skipWhile_outside h.skips, Option.map_none] at hall
    exact hall

/-! ### What a string begins with -/

/-- A string is separators, or separators and a word, and then perhaps a separator and more. -/
inductive Begins (isSep : UInt8 → Bool) : List UInt8 → Prop
  | blank {seps : List UInt8} (hseps : ∀ b ∈ seps, isSep b = true) : Begins isSep seps
  | last {seps word : List UInt8} (hseps : ∀ b ∈ seps, isSep b = true)
      (hword : IsWord isSep word) : Begins isSep (seps ++ word)
  | word {seps word : List UInt8} {c : UInt8} (hseps : ∀ b ∈ seps, isSep b = true)
      (hword : IsWord isSep word) (hc : isSep c = true) (rest : List UInt8) :
      Begins isSep (seps ++ word ++ c :: rest)

theorem begins (isSep : UInt8 → Bool) {s : List UInt8} (hs : 0 ∉ s) : Begins isSep s := by
  have hseps : ∀ b ∈ s.takeWhile isSep, isSep b = true := fun b hb => List.mem_takeWhile_imp hb
  have hsplit : s.takeWhile isSep ++ s.dropWhile isSep = s := List.takeWhile_append_dropWhile
  have hsplit' : (s.dropWhile isSep).takeWhile (!isSep ·) ++
      (s.dropWhile isSep).dropWhile (!isSep ·) = s.dropWhile isSep :=
    List.takeWhile_append_dropWhile
  rcases hmore : s.dropWhile isSep with _ | ⟨b, more⟩
  · rw [hmore, List.append_nil] at hsplit
    exact hsplit ▸ .blank hseps
  · have hb : isSep b = false := by
      have hhead := List.head?_dropWhile_not isSep s
      rw [hmore] at hhead
      simpa using hhead
    have hword : IsWord isSep ((s.dropWhile isSep).takeWhile (!isSep ·)) := by
      refine ⟨?_, ?_, ?_⟩
      · rw [hmore, List.takeWhile_cons_of_pos (by rw [hb]; rfl)]
        exact List.cons_ne_nil _ _
      · intro b hb
        have hnot := List.mem_takeWhile_imp hb
        simpa using hnot
      · intro hmem
        exact hs ((List.dropWhile_sublist _).subset ((List.takeWhile_prefix _).subset hmem))
    rcases hrest : (s.dropWhile isSep).dropWhile (!isSep ·) with _ | ⟨c, rest⟩
    · rw [hrest, List.append_nil] at hsplit'
      rw [← hsplit'] at hsplit
      exact hsplit ▸ .last hseps (hsplit'.symm ▸ hword)
    · have hc : isSep c = true := by
        have hhead := List.head?_dropWhile_not (!isSep ·) (s.dropWhile isSep)
        rw [hrest] at hhead
        simpa using hhead
      rw [hrest] at hsplit'
      rw [← hsplit', ← List.append_assoc] at hsplit
      exact hsplit ▸ .word hseps hword hc rest

theorem tokens_append_seps (hseps : ∀ b ∈ seps, isSep b = true) (s : List UInt8) :
    tokens isSep (seps ++ s) = tokens isSep s := by
  rw [← tokens_dropWhile (seps ++ s), List.dropWhile_append_of_pos hseps, tokens_dropWhile]

theorem tokens_blank (hseps : ∀ b ∈ seps, isSep b = true) : tokens isSep seps = [] := by
  have hall := tokens_append_seps hseps []
  rwa [List.append_nil] at hall

theorem tokens_word (hseps : ∀ b ∈ seps, isSep b = true) (h : IsWord isSep word)
    (hc : isSep c = true) (rest : List UInt8) :
    tokens isSep (seps ++ word ++ c :: rest) = word :: tokens isSep rest := by
  rw [List.append_assoc, tokens_append_seps hseps, tokens_append_cons h.ne_nil h.not_sep hc]

theorem tokens_last (hseps : ∀ b ∈ seps, isSep b = true) (h : IsWord isSep word) :
    tokens isSep (seps ++ word) = [word] := by
  have hone := tokensFrom_append h.not_sep [] []
  rw [List.append_nil, List.nil_append] at hone
  rw [tokens_append_seps hseps, tokens, hone, tokensFrom, if_neg]
  exact fun hempty => h.ne_nil (List.isEmpty_iff.mp hempty)

end Call

end SystemProgramming
