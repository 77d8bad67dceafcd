import SystemProgramming.Library.CString

/-!
# Canonical paths

A canonical absolute path is a list of names. It is written as a string by putting a slash before
every name, and as `/` when there is none. A program that has only the strings decides whether one
path lies below another by a prefix test and a look at the byte that follows the prefix. That this
is the prefix relation between the lists of names is `render_append_iff`; it needs that no name
contains a slash, and it has one exception, the root, whose string ends in a slash itself.

## Why the root is special

The string of a path other than the root does not end in a slash, so where it is a prefix of
another string, a slash behind it means that a name has ended there. The string of the root is the
slash. What follows it in `/a` is the `a`, and the test for a slash fails, although `/a` lies below
the root. So the test is right for every base but this one, and for this one it accepts the root
alone.

That a prefix of strings is a prefix of names is by induction on the names of the base. Both
strings begin with a slash; the first name ends, in both, where the next slash or the end is, as no
name has a slash in it, so the first names agree and the rests can be compared.

## Main definitions

* `CanonicalPath` — a list of names, none of them empty, `.`, `..`, or with a slash or a NUL in it
* `CanonicalPath.render` — the string
* `AtSlash` — a rest of a string that begins where a name has ended

## Main results

* `render_append_iff` — the string test is the prefix test on names
-/

namespace SystemProgramming

/-- The byte between two names. -/
abbrev slash : UInt8 := 47

/-- The name of a directory entry other than `.` and `..`. -/
def IsName (c : List UInt8) : Prop :=
  c ≠ [] ∧ 0 ∉ c ∧ slash ∉ c ∧ c ≠ ascii "." ∧ c ≠ ascii ".."

instance (c : List UInt8) : Decidable (IsName c) :=
  inferInstanceAs (Decidable (_ ∧ _ ∧ _ ∧ _ ∧ _))

/-- A canonical absolute path. -/
structure CanonicalPath where
  /-- The names from the root down. -/
  names : List (List UInt8)
  isName : ∀ c ∈ names, IsName c
  deriving DecidableEq

/-- A rest of a path that begins where a name has ended. -/
def AtSlash (rest : List UInt8) : Prop := ∀ b, rest.head? = some b → b = slash

/-- The string of a list of names, each with a slash before it. -/
def slashed (names : List (List UInt8)) : List UInt8 := names.flatMap (slash :: ·)

@[simp] theorem slashed_nil : slashed [] = [] := rfl

@[simp] theorem slashed_cons (c : List UInt8) (names : List (List UInt8)) :
    slashed (c :: names) = slash :: c ++ slashed names := rfl

@[simp] theorem slashed_append (l l' : List (List UInt8)) :
    slashed (l ++ l') = slashed l ++ slashed l' :=
  List.flatMap_append

theorem atSlash_nil : AtSlash [] := by
  intro b hb
  cases hb

theorem atSlash_slashed : ∀ names : List (List UInt8), AtSlash (slashed names)
  | [] => atSlash_nil
  | c :: names => by
    intro b hb
    simpa using hb.symm

theorem AtSlash.append {u v : List UInt8} (hu : AtSlash u) (hv : AtSlash v) : AtSlash (u ++ v) := by
  cases u with
  | nil => exact hv
  | cons b u =>
    intro b' hb'
    exact hu b' (by simpa using hb')

/-- A name ends at the first slash, or at the end of the string. -/
theorem takeWhile_of_atSlash {c rest : List UInt8} (hc : slash ∉ c) (hrest : AtSlash rest) :
    (c ++ rest).takeWhile (· != slash) = c := by
  have hall : ∀ b ∈ c, (b != slash) = true := by
    intro b hb
    simp only [bne_iff_ne]
    rintro rfl
    exact hc hb
  rw [List.takeWhile_append_of_pos hall]
  cases rest with
  | nil => simp
  | cons b rest => simp [hrest b rfl]

/-- Two names that begin the same string and are followed by no further byte of a name are the
same. -/
theorem name_append_inj {c d u v : List UInt8} (hc : slash ∉ c) (hd : slash ∉ d) (hu : AtSlash u)
    (hv : AtSlash v) (h : c ++ u = d ++ v) : c = d ∧ u = v := by
  have hcd : c = d := by
    rw [← takeWhile_of_atSlash hc hu, h, takeWhile_of_atSlash hd hv]
  refine ⟨hcd, ?_⟩
  rw [hcd] at h
  exact List.append_cancel_left h

/-- **A string prefix that ends at a slash is a prefix of names.** -/
theorem prefix_of_slashed_append : ∀ {l m : List (List UInt8)} {rest : List UInt8},
    (∀ c ∈ l, IsName c) → (∀ c ∈ m, IsName c) → AtSlash rest →
    slashed m = slashed l ++ rest → l <+: m
  | [], m, rest, _, _, _, _ => List.nil_prefix
  | c :: l, [], rest, _, _, _, h => by simp at h
  | c :: l, d :: m, rest, hl, hm, hrest, h => by
    have hc := (hl c List.mem_cons_self).2.2.1
    have hd := (hm d List.mem_cons_self).2.2.1
    have happ : d ++ slashed m = c ++ (slashed l ++ rest) := by
      simpa using h
    obtain ⟨rfl, htail⟩ := name_append_inj hd hc (atSlash_slashed m)
      ((atSlash_slashed l).append hrest) happ
    rw [List.cons_prefix_cons]
    exact ⟨rfl, prefix_of_slashed_append (fun x hx => hl x (List.mem_cons_of_mem _ hx))
      (fun x hx => hm x (List.mem_cons_of_mem _ hx)) hrest htail⟩

namespace CanonicalPath

/-- `/` -/
def root : CanonicalPath := ⟨[], by simp⟩

/-- The path as a string. -/
def render (p : CanonicalPath) : List UInt8 := if p.names = [] then [slash] else slashed p.names

/-- `p` is `base` or lies below it, name by name. -/
def Below (base p : CanonicalPath) : Prop := base.names <+: p.names

instance (base p : CanonicalPath) : Decidable (base.Below p) :=
  inferInstanceAs (Decidable (_ <+: _))

theorem names_eq_nil {p : CanonicalPath} : p.names = [] ↔ p = root := by
  constructor
  · intro h
    cases p
    simpa [root] using h
  · rintro rfl
    rfl

@[simp] theorem render_root : root.render = [slash] := rfl

theorem render_of_ne_root {p : CanonicalPath} (h : p ≠ root) : p.render = slashed p.names := by
  rw [render, if_neg (fun hn => h (names_eq_nil.mp hn))]

/-- The first name of a path other than the root. -/
theorem exists_render_eq_cons {p : CanonicalPath} (h : p ≠ root) :
    ∃ b rest, p.render = slash :: b :: rest ∧ b ≠ slash := by
  rw [render_of_ne_root h]
  obtain ⟨c, l, hcl⟩ := List.exists_cons_of_ne_nil (fun hn => h (names_eq_nil.mp hn))
  have hc := p.isName c (by simp [hcl])
  obtain ⟨b, c', rfl⟩ := List.exists_cons_of_ne_nil hc.1
  refine ⟨b, c' ++ slashed l, by simp [hcl], ?_⟩
  rintro rfl
  exact hc.2.2.1 List.mem_cons_self

theorem zero_notMem_render (p : CanonicalPath) : 0 ∉ p.render := by
  by_cases hp : p = root
  · subst hp
    decide
  · rw [render_of_ne_root hp, slashed, List.mem_flatMap]
    rintro ⟨c, hc, h0⟩
    rcases List.mem_cons.mp h0 with h0 | h0
    · exact absurd h0 (by decide)
    · exact (p.isName c hc).2.1 h0

/-- **The string test.** A path's string continues the base's at a slash, or not at all, exactly
when the path is below the base; only the base `/`, whose string has its slash at the end, has
nothing below it but itself. -/
theorem render_append_iff (base p : CanonicalPath) :
    (∃ rest, p.render = base.render ++ rest ∧ AtSlash rest) ↔
      base.Below p ∧ (base = root → p = root) := by
  by_cases hbase : base = root
  · subst hbase
    constructor
    · rintro ⟨rest, happ, hrest⟩
      refine ⟨List.nil_prefix, fun _ => ?_⟩
      by_contra hp
      obtain ⟨b, t, hbt, hb⟩ := exists_render_eq_cons hp
      rw [hbt, render_root] at happ
      obtain rfl : b :: t = rest := by simpa using happ
      exact hb (hrest b rfl)
    · rintro ⟨-, hp⟩
      rw [hp rfl]
      exact ⟨[], by simp, atSlash_nil⟩
  · simp only [hbase, false_implies, and_true]
    constructor
    · rintro ⟨rest, happ, hrest⟩
      have hp : p ≠ root := by
        rintro rfl
        obtain ⟨b, t, hbt, -⟩ := exists_render_eq_cons hbase
        simp [hbt] at happ
      rw [render_of_ne_root hbase, render_of_ne_root hp] at happ
      exact prefix_of_slashed_append base.isName p.isName hrest happ
    · rintro ⟨l, hl⟩
      have hp : p ≠ root := by
        rintro rfl
        exact hbase (names_eq_nil.mp (List.append_eq_nil_iff.mp hl).1)
      refine ⟨slashed l, ?_, atSlash_slashed l⟩
      rw [render_of_ne_root hbase, render_of_ne_root hp, ← hl, slashed_append]

end CanonicalPath

end SystemProgramming
