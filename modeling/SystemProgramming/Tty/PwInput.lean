import SystemProgramming.Library.CharArray
import SystemProgramming.Library.LineEdit

/-!
# Reading a password

`lab4-lyjae/pw_input.c`: the loop of `main`, which reads from the standard input until the line ends
or the array is full, and the NUL behind the password. A store outside the array has no result.

## What is assumed

The terminal is in the mode that the program has set: keys are delivered one by one, and erasing is
up to the program. `getchar` returns the next byte, or `EOF`, of which the assignment to a `char`
makes the byte 255. The array is not assigned before the loop, so its contents are arbitrary where
nothing has been stored.

## Main definitions

* `readLoop`, `main` — the program
* `held` — what `password` holds in the end

## Main results

* `main_eq_held` — every input is read, and no store is outside
* `password_iff` — when the password is what was typed
-/

namespace SystemProgramming

namespace PwInput

def maxPasswordLength : ℕ := 128

/-- `getchar()`: the next byte, or `EOF`. -/
def getchar : List UInt8 → ℤ × List UInt8
  | [] => (-1, [])
  | c :: stdin => (c.toNat, stdin)

/-- The `char` that an `int` is assigned to. -/
def toChar (c : ℤ) : UInt8 := UInt8.ofNat (c % 256).toNat

/-- `ch == '\\n' || ch == '\\r'` -/
def isEnd (ch : UInt8) : Bool := ch == 10 || ch == 13

/-- `password[i] = c` -/
def store (password : List UInt8) (i : ℕ) (c : UInt8) : Option (List UInt8) :=
  if i < password.length then some (password.set i c) else none

/-- `while (index < MAX_PASSWORD_LENGTH - 1)`: the array and `index` behind the loop. -/
def readLoop (stdin password : List UInt8) (index : ℕ) : Option (List UInt8 × ℕ) :=
  if index < maxPasswordLength - 1 then
    let ch := toChar (getchar stdin).1
    if isEnd ch then some (password, index)
    else if isEraseKey ch then
      readLoop (getchar stdin).2 password (if 0 < index then index - 1 else index)
    else
      (store password index ch).bind fun password =>
        readLoop (getchar stdin).2 password (index + 1)
  else some (password, index)
termination_by (stdin.length, maxPasswordLength - index)
decreasing_by
  · cases stdin with
    | nil =>
      have heof : isEraseKey (toChar (-1)) = true := ‹isEraseKey _ = true›
      exact absurd heof (by decide)
    | cons c stdin => exact Prod.Lex.left _ _ (Nat.lt_succ_self _)
  · cases stdin with
    | nil => exact Prod.Lex.right _ (Nat.sub_succ_lt_self _ _ (by omega))
    | cons c stdin => exact Prod.Lex.left _ _ (Nat.lt_succ_self _)

/-- `main`, with what is in the array before: the password that is printed. -/
def main (password stdin : List UInt8) : Option (List UInt8) :=
  (readLoop stdin password 0).bind fun p => (store p.1 p.2 0).bind readString

/-! ### The loop -/

theorem toChar_byte (c : UInt8) : toChar c.toNat = c := by
  have hlt : (c.toNat : ℤ) < 256 := by exact_mod_cast c.toNat_lt
  rw [toChar, Int.emod_eq_of_lt (by omega) hlt, Int.toNat_natCast, UInt8.ofNat_toNat]

/-- What the array holds in the end, when it has held `text`: the text that is typed, and, where the
input ends before the line and before the array is full, `EOF` as a `char` in the rest. -/
def heldFrom (text stdin : List UInt8) : List UInt8 :=
  let line := (stdin.takeWhile (!isEnd ·)).foldl (press isEraseKey (maxPasswordLength - 1)) text
  if stdin.any isEnd then line
  else line ++ List.replicate (maxPasswordLength - 1 - line.length) (toChar (-1))

/-- The same, for the array at the start. -/
def held (stdin : List UInt8) : List UInt8 := heldFrom [] stdin

/-- The array holds a text, and there is room for a NUL behind it. -/
structure HasText (password text : List UInt8) : Prop where
  length_eq : password.length = maxPasswordLength
  length_lt : text.length < maxPasswordLength
  prefix_eq : password.take text.length = text

section Loop

variable {password text stdin : List UInt8} {c : UInt8}

theorem HasText.store (h : HasText password text) (hroom : text.length < maxPasswordLength - 1)
    (c : UInt8) : ∃ p, store password text.length c = some p ∧ HasText p (text ++ [c]) := by
  have hlt : text.length < password.length := by
    rw [h.length_eq]
    exact h.length_lt
  refine ⟨password.set text.length c, if_pos hlt, ?_, ?_, ?_⟩
  · rw [List.length_set, h.length_eq]
  · rw [List.length_append, List.length_singleton]
    omega
  · rw [List.length_append, List.length_singleton, List.take_add_one, List.take_set_of_le le_rfl,
      h.prefix_eq, List.getElem?_set_self hlt]
    rfl

theorem HasText.dropLast (h : HasText password text) : HasText password text.dropLast := by
  have hle : text.dropLast.length = text.length - 1 := List.length_dropLast
  refine ⟨h.length_eq, by rw [hle]; have := h.length_lt; omega, ?_⟩
  rw [hle, List.dropLast_eq_take, ← h.prefix_eq, List.take_take, List.length_take]
  congr 1
  omega

theorem heldFrom_of_full (h : maxPasswordLength - 1 ≤ text.length) (stdin : List UInt8) :
    heldFrom text stdin = text := by
  have hline : ∀ keys : List UInt8,
      keys.foldl (press isEraseKey (maxPasswordLength - 1)) text = text := by
    intro keys
    induction keys with
    | nil => rfl
    | cons key keys ih => rw [List.foldl_cons, press_of_full h, ih]
  rw [heldFrom, hline, Nat.sub_eq_zero_of_le h, List.replicate_zero, List.append_nil, ite_self]

theorem heldFrom_end (h : isEnd c = true) : heldFrom text (c :: stdin) = text := by
  simp [heldFrom, h]

theorem heldFrom_key (h : isEnd c = false) :
    heldFrom text (c :: stdin) =
      heldFrom (press isEraseKey (maxPasswordLength - 1) text c) stdin := by
  simp [heldFrom, h]

/-- `EOF` is stored like any other character. -/
theorem heldFrom_nil (h : text.length < maxPasswordLength - 1) :
    heldFrom text [] = heldFrom (text ++ [toChar (-1)]) [] := by
  have hrest : maxPasswordLength - 1 - text.length =
      maxPasswordLength - 1 - (text ++ [toChar (-1)]).length + 1 := by
    rw [List.length_append, List.length_singleton]
    omega
  show text ++ _ = text ++ [_] ++ _
  rw [List.takeWhile_nil, List.foldl_nil, hrest, List.replicate_succ, List.append_assoc]
  rfl

theorem readLoop_of_full (h : maxPasswordLength - 1 ≤ text.length) (hp : HasText password text) :
    ∃ p, readLoop stdin password text.length = some (p, (heldFrom text stdin).length) ∧
      HasText p (heldFrom text stdin) := by
  rw [heldFrom_of_full h, readLoop, if_neg (Nat.not_lt.mpr h)]
  exact ⟨password, rfl, hp⟩

/-- One character is stored, and the loop goes on. -/
theorem readLoop_store (stdin : List UInt8) (h : text.length < maxPasswordLength - 1)
    (hp : HasText password text)
    (hend : isEnd (toChar (getchar stdin).1) = false)
    (herase : isEraseKey (toChar (getchar stdin).1) = false) :
    ∃ p, HasText p (text ++ [toChar (getchar stdin).1]) ∧ readLoop stdin password text.length =
      readLoop (getchar stdin).2 p (text ++ [toChar (getchar stdin).1]).length := by
  obtain ⟨p, hstore, hp'⟩ := hp.store h (toChar (getchar stdin).1)
  refine ⟨p, hp', ?_⟩
  rw [readLoop, if_pos h]
  simp only [hend, herase, hstore, Bool.false_eq_true, if_false, Option.bind_some,
    List.length_append, List.length_singleton]

/-- Behind the end of the input, the loop fills the array. -/
theorem readLoop_nil : ∀ {n : ℕ} {password text : List UInt8},
    maxPasswordLength - 1 - text.length = n → HasText password text →
      ∃ p, readLoop [] password text.length = some (p, (heldFrom text []).length) ∧
        HasText p (heldFrom text []) := by
  intro n
  induction n with
  | zero =>
    intro password text hn hp
    exact readLoop_of_full (Nat.sub_eq_zero_iff_le.mp hn) hp
  | succ n ih =>
    intro password text hn hp
    have h : text.length < maxPasswordLength - 1 := by omega
    obtain ⟨p, hp', hloop⟩ := readLoop_store [] h hp (by decide) (by decide)
    rw [hloop, heldFrom_nil h]
    refine ih ?_ hp'
    rw [List.length_append, List.length_singleton]
    omega

/-- **The loop** returns for every input, and no store is outside the array. -/
theorem readLoop_eq (stdin : List UInt8) : ∀ {password text : List UInt8},
    HasText password text →
      ∃ p, readLoop stdin password text.length = some (p, (heldFrom text stdin).length) ∧
        HasText p (heldFrom text stdin) := by
  induction stdin with
  | nil =>
    intro password text hp
    exact readLoop_nil rfl hp
  | cons c stdin ih =>
    intro password text hp
    rcases Nat.lt_or_ge text.length (maxPasswordLength - 1) with h | h
    · have hchar : toChar (getchar (c :: stdin)).1 = c := toChar_byte c
      cases hend : isEnd c with
      | true =>
        rw [heldFrom_end hend, readLoop, if_pos h]
        simp only [hchar, hend, if_true]
        exact ⟨password, rfl, hp⟩
      | false =>
        rw [heldFrom_key hend]
        cases herase : isEraseKey c with
        | true =>
          rw [press_erase h herase, readLoop, if_pos h]
          simp only [hchar, hend, herase, Bool.false_eq_true, if_false, if_true]
          have hindex : (if 0 < text.length then text.length - 1 else text.length) =
              text.dropLast.length := by
            rw [List.length_dropLast]
            split <;> omega
          rw [hindex]
          exact ih hp.dropLast
        | false =>
          obtain ⟨p, hp', hloop⟩ := readLoop_store (c :: stdin) h hp
            (hchar.symm ▸ hend) (hchar.symm ▸ herase)
          rw [hchar] at hp' hloop
          rw [press_char h herase, hloop]
          exact ih hp'
    · exact readLoop_of_full h hp

end Loop

/-! ### What is printed -/

/-- What was typed before the end of the line. -/
def typedPassword (stdin : List UInt8) : List UInt8 :=
  typed isEraseKey (maxPasswordLength - 1) (stdin.takeWhile (!isEnd ·))

theorem mem_of_mem_typedPassword {stdin : List UInt8} {c : UInt8} (h : c ∈ typedPassword stdin) :
    c ∈ stdin :=
  (List.takeWhile_prefix _).subset (mem_of_mem_typed h)

/-- **Every run** prints the string that the array holds. -/
theorem main_eq_held {password : List UInt8} (h : password.length = maxPasswordLength)
    (stdin : List UInt8) : main password stdin = some (cstring (held stdin)) := by
  have hempty : HasText password [] := ⟨h, by decide, rfl⟩
  obtain ⟨p, hloop, hp⟩ := readLoop_eq stdin hempty
  have hlt : (held stdin).length < p.length := by
    rw [hp.length_eq]
    exact hp.length_lt
  have hset : p.set (held stdin).length 0 =
      held stdin ++ 0 :: p.drop ((held stdin).length + 1) := by
    rw [List.set_eq_take_append_cons_drop, if_pos hlt]
    exact congrArg (· ++ _) hp.prefix_eq
  have hstore : store p (held stdin).length 0 = some (p.set (held stdin).length 0) := if_pos hlt
  rw [List.length_nil] at hloop
  rw [main, hloop, Option.bind_some]
  exact (congrArg (·.bind readString) hstore).trans
    ((congrArg readString hset).trans (readString_append_zero _ _))

theorem held_eq (stdin : List UInt8) : held stdin = if stdin.any isEnd then typedPassword stdin
    else typedPassword stdin ++
      List.replicate (maxPasswordLength - 1 - (typedPassword stdin).length) (toChar (-1)) := rfl

/-- **The password is what was typed** exactly when no NUL is typed, and the line ends or the array
is full before the input ends. -/
theorem password_iff {password : List UInt8} (h : password.length = maxPasswordLength)
    (stdin : List UInt8) :
    (main password stdin = some (typedPassword stdin) ∧ ∀ c ∈ typedPassword stdin, c ∈ stdin) ↔
      0 ∉ typedPassword stdin ∧
        (stdin.any isEnd = true ∨ maxPasswordLength - 1 ≤ (typedPassword stdin).length) := by
  rw [main_eq_held h, Option.some_inj, and_iff_left fun _ => mem_of_mem_typedPassword]
  constructor
  · intro heq
    have hzero : 0 ∉ typedPassword stdin := heq ▸ zero_notMem_cstring (held stdin)
    refine ⟨hzero, or_iff_not_imp_left.mpr ?_⟩
    intro hend
    have hfill : 0 ∉ List.replicate (maxPasswordLength - 1 - (typedPassword stdin).length)
        (toChar (-1)) := by
      intro hmem
      exact absurd (List.eq_of_mem_replicate hmem) (by decide)
    rw [held_eq, if_neg hend, cstring_eq_self
      (fun hmem => (List.mem_append.mp hmem).elim hzero hfill)] at heq
    have hnone := congrArg List.length (List.append_right_eq_self.mp heq)
    rw [List.length_replicate, List.length_nil] at hnone
    omega
  · rintro ⟨hzero, hend⟩
    have hheld : held stdin = typedPassword stdin := by
      rw [held_eq]
      rcases hend with hend | hfull
      · rw [if_pos hend]
      · rw [Nat.sub_eq_zero_of_le hfull, List.replicate_zero, List.append_nil, ite_self]
    rw [hheld, cstring_eq_self hzero]

/-- `ab`, an erased `b`, `c`, and the end of the line. -/
theorem password_after_erase : main (List.replicate maxPasswordLength 0) [97, 98, 8, 99, 10] =
    some (ascii "ac") :=
  ((password_iff List.length_replicate [97, 98, 8, 99, 10]).mpr (by decide)).1

/-- `abc`, and the end of the input. -/
theorem end_of_input_typed : ¬ ∀ password : List UInt8, password.length = maxPasswordLength →
    ∀ stdin : List UInt8,
      main password stdin = some (typedPassword stdin) ∧ ∀ c ∈ typedPassword stdin, c ∈ stdin := by
  intro hclaim
  have hmain := (hclaim (List.replicate maxPasswordLength 0) List.length_replicate (ascii "abc")).1
  rw [main_eq_held List.length_replicate, Option.some_inj] at hmain
  -- the fourth character is `EOF`
  exact absurd (congrArg (charAt · 3) hmain) (by decide)

end PwInput

end SystemProgramming
