import Mathlib.Computability.Language

/-!
# Patterns of symbols and repeated symbols

A pattern is a sequence of items, each of them one symbol of a class or any number of symbols of a
class, and it may be tied to the start and to the end of the text. Its language is a product of
languages in the sense of Mathlib; what the items in front of a language do to it is read off the
first symbol of a word, which is how a matcher works.

## Languages

Nothing is said here about how a pattern is searched for. The language of a pattern is built from
Mathlib's product, star and top, so what it is can be read off the definition. A matcher that goes
through the text symbol by symbol is compared with it through two lemmas, for a symbol and for a
repeated symbol in front of a language; both ask only about the first symbol of the text.

## Main definitions

* `oneOf` — the words of one symbol
* `Item`, `StarPattern` — patterns, and their languages

## Main results

* `cons_mem_oneOf_mul`, `kstar_oneOf_mul` — what an item does to the language behind it
* `mem_top_mul`, `cons_mem_top_mul` — words that end with a word of a language
* `tailLanguage_one`, `tailLanguage_many` — the same for the items of a pattern
-/

namespace SystemProgramming

open scoped Computability

variable {α : Type*}

/-- The words that are one symbol of `s`. -/
def oneOf (s : Set α) : Language α := {w | ∃ c ∈ s, w = [c]}

/-- An item of a pattern over symbols that `accepts` compares: one symbol, or any number of them. -/
inductive Item (α : Type*) where
  | one (c : α)
  | many (c : α)
  deriving DecidableEq, Repr

/-- A pattern: its items, and whether they begin where the text begins and end where it ends. -/
structure StarPattern (α : Type*) where
  atStart : Bool
  items : List (Item α)
  atEnd : Bool
  deriving DecidableEq, Repr

section Language

variable {s : Set α} {l m : Language α} {c : α} {w : List α}

theorem nil_notMem_oneOf_mul : [] ∉ oneOf s * l := by
  rintro ⟨x, ⟨c, -, rfl⟩, y, -, h⟩
  exact List.cons_ne_nil c y h

/-- The first symbol is in the class, and the rest is in the language behind it. -/
theorem cons_mem_oneOf_mul : c :: w ∈ oneOf s * l ↔ c ∈ s ∧ w ∈ l := by
  constructor
  · rintro ⟨x, ⟨b, hb, rfl⟩, y, hy, h⟩
    obtain ⟨rfl, rfl⟩ := List.cons.inj h
    exact ⟨hb, hy⟩
  · rintro ⟨hc, hw⟩
    exact ⟨[c], ⟨c, hc, rfl⟩, w, hw, rfl⟩

/-- No symbol, or one more of the class. -/
theorem kstar_oneOf_mul : (oneOf s)∗ * l = l + oneOf s * ((oneOf s)∗ * l) := by
  calc (oneOf s)∗ * l = (1 + oneOf s * (oneOf s)∗) * l := by
        rw [Language.one_add_self_mul_kstar_eq_kstar]
    _ = l + oneOf s * ((oneOf s)∗ * l) := by rw [add_mul, one_mul, mul_assoc]

theorem nil_mem_kstar_oneOf_mul : [] ∈ (oneOf s)∗ * l ↔ [] ∈ l := by
  rw [kstar_oneOf_mul, Language.mem_add, or_iff_left nil_notMem_oneOf_mul]

theorem cons_mem_kstar_oneOf_mul :
    c :: w ∈ (oneOf s)∗ * l ↔ c :: w ∈ l ∨ c ∈ s ∧ w ∈ (oneOf s)∗ * l := by
  rw [kstar_oneOf_mul, Language.mem_add, cons_mem_oneOf_mul, ← kstar_oneOf_mul]

/-- The words that end with a word of `l`. -/
theorem mem_top_mul : w ∈ ⊤ * l ↔ ∃ v ∈ l, v <:+ w := by
  constructor
  · rintro ⟨x, -, y, hy, rfl⟩
    exact ⟨y, hy, List.suffix_append x y⟩
  · rintro ⟨v, hv, x, rfl⟩
    exact ⟨x, trivial, v, hv, rfl⟩

theorem nil_mem_top_mul : [] ∈ ⊤ * l ↔ [] ∈ l := by
  rw [mem_top_mul]
  constructor
  · rintro ⟨v, hv, hsuffix⟩
    rwa [← List.suffix_nil.mp hsuffix]
  · intro h
    exact ⟨[], h, List.suffix_refl _⟩

/-- Either the whole word is in the language, or a word behind the first symbol is. -/
theorem cons_mem_top_mul : c :: w ∈ ⊤ * l ↔ c :: w ∈ l ∨ w ∈ ⊤ * l := by
  rw [mem_top_mul, mem_top_mul]
  constructor
  · rintro ⟨v, hv, hsuffix⟩
    rcases List.suffix_cons_iff.mp hsuffix with rfl | h
    · exact Or.inl hv
    · exact Or.inr ⟨v, hv, h⟩
  · rintro (h | ⟨v, hv, hsuffix⟩)
    · exact ⟨_, h, List.suffix_refl _⟩
    · exact ⟨v, hv, hsuffix.trans (List.suffix_cons c w)⟩

end Language

namespace StarPattern

variable (accepts : α → Set α)

/-- The words an item stands for, where `accepts c` is the class that the symbol `c` names. -/
def itemLanguage : Item α → Language α
  | .one c => oneOf (accepts c)
  | .many c => (oneOf (accepts c))∗

/-- The words that items and an end stand for. -/
def tailLanguage (items : List (Item α)) (atEnd : Bool) : Language α :=
  (items.map (itemLanguage accepts)).prod * if atEnd then 1 else ⊤

/-- The texts a pattern is found in. -/
def language (p : StarPattern α) : Language α :=
  (if p.atStart then 1 else ⊤) * tailLanguage accepts p.items p.atEnd

variable {accepts} {items : List (Item α)} {atEnd : Bool} {c : α} {w : List α}

theorem mem_tailLanguage_nil : w ∈ tailLanguage accepts [] atEnd ↔ (atEnd = true → w = []) := by
  rw [tailLanguage, List.map_nil, List.prod_nil, one_mul]
  cases atEnd
  · simp only [Bool.false_eq_true, if_false, false_implies, iff_true]
    trivial
  · simp only [if_true, true_implies]
    exact Language.mem_one w

theorem tailLanguage_one : tailLanguage accepts (.one c :: items) atEnd =
    oneOf (accepts c) * tailLanguage accepts items atEnd := by
  rw [tailLanguage, List.map_cons, List.prod_cons, mul_assoc]
  rfl

theorem tailLanguage_many : tailLanguage accepts (.many c :: items) atEnd =
    (oneOf (accepts c))∗ * tailLanguage accepts items atEnd := by
  rw [tailLanguage, List.map_cons, List.prod_cons, mul_assoc]
  rfl

end StarPattern

end SystemProgramming
