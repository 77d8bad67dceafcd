import SystemProgramming.Library.CString

/-!
# Strings in fixed arrays

`char field[n]` holds a string only if a NUL is among its `n` bytes. `strncpy` leaves one there
exactly when the source is shorter than `n`; otherwise what is read back goes on into whatever
follows in memory. The functions here read from a list of bytes that begins where the string
begins and ends where the enclosing object ends, and answer `none` where the code would read past
that.

`Holds field s` is the good case: the string `s`, terminated inside the field. It is all a program
needs to know of a field (`readString_of_holds`, `strcmpEq_of_holds`), and what `strncpy`
establishes (`holds_strncpy`).

A field without a NUL is read on (`readString_append_of_notMem`), so a string can be read back from
a field that is too small for it, if the rest of it happens to follow
(`readString_strncpy_append_iff`). `ReadsAlike` says of two pieces of memory that no such reading
tells them apart.

## Why an answer may be missing

To read behind the end of an object has no meaning in C, so a function that would do so has no
result here. Every result of a program that is put together from such functions is then one that
does not depend on what lies behind its objects. Where a program is right although a field has no
NUL, this shows too: the reading goes on into the next field of the same object, which is there.
-/

namespace SystemProgramming

/-- The `n` bytes that `strncpy(dst, src, n)` writes. -/
def strncpy (n : ℕ) (src : List UInt8) : List UInt8 :=
  src.take n ++ List.replicate (n - src.length) 0

@[simp] theorem length_strncpy (n : ℕ) (src : List UInt8) : (strncpy n src).length = n := by
  rw [strncpy, List.length_append, List.length_take, List.length_replicate]
  omega

/-- The string that begins at the start of `mem`. -/
def readString : List UInt8 → Option (List UInt8)
  | [] => none
  | b :: mem => if b = 0 then some [] else (readString mem).map (b :: ·)

/-- `strcmp(s, t) == 0` for the string `s` that begins at the start of `mem`. -/
def strcmpEq : List UInt8 → List UInt8 → Option Bool
  | [], _ => none
  | b :: _, [] => some (b == 0)
  | b :: mem, c :: t => if b = c then strcmpEq mem t else some false

/-- The field holds the string `s`, with its terminator. -/
def Holds (field s : List UInt8) : Prop := 0 ∉ s ∧ ∃ pad, field = s ++ 0 :: pad

theorem Holds.zero_notMem {field s : List UInt8} (h : Holds field s) : 0 ∉ s := h.1

theorem readString_append : ∀ {s : List UInt8} (mem : List UInt8), 0 ∉ s →
    readString (s ++ 0 :: mem) = some s
  | [], mem, _ => by simp [readString]
  | b :: s, mem, h => by
    have hb : b ≠ 0 := fun hb => h (by simp [hb])
    have hs : 0 ∉ s := fun hm => h (List.mem_cons_of_mem _ hm)
    rw [List.cons_append, readString, if_neg hb, readString_append mem hs]
    rfl

theorem readString_of_holds {field s : List UInt8} (h : Holds field s) (mem : List UInt8) :
    readString (field ++ mem) = some s := by
  obtain ⟨h0, pad, rfl⟩ := h
  rw [List.append_assoc, List.cons_append, readString_append _ h0]

/-- A field without a NUL is read on into what follows. -/
theorem readString_append_of_notMem : ∀ {field : List UInt8} (mem : List UInt8), 0 ∉ field →
    readString (field ++ mem) = (readString mem).map (field ++ ·)
  | [], mem, _ => by simp
  | b :: field, mem, h => by
    have hb : b ≠ 0 := fun hb => h (by simp [hb])
    have hfield : 0 ∉ field := fun hm => h (List.mem_cons_of_mem _ hm)
    rw [List.cons_append, readString, if_neg hb, readString_append_of_notMem mem hfield]
    simp [Function.comp_def]

theorem holds_cstring {field : List UInt8} (h : 0 ∈ field) : Holds field (cstring field) := by
  obtain ⟨s, pad, rfl, hs⟩ := List.eq_append_cons_of_mem h
  have hstring : cstring (s ++ 0 :: pad) = s := by
    rw [cstring, List.takeWhile_append_of_pos fun b hb =>
      bne_iff_ne.mpr (ne_of_mem_of_not_mem hb hs)]
    simp
  rw [hstring]
  exact ⟨hs, pad, rfl⟩

theorem readString_eq_some_iff {mem s : List UInt8} : readString mem = some s ↔ Holds mem s := by
  refine ⟨fun h => ?_, fun h => ?_⟩
  · by_cases h0 : 0 ∈ mem
    · have hread := readString_of_holds (holds_cstring h0) []
      rw [List.append_nil, h] at hread
      exact Option.some.inj hread ▸ holds_cstring h0
    · have hread := readString_append_of_notMem [] h0
      rw [List.append_nil, h] at hread
      cases hread
  · have hread := readString_of_holds h []
    rwa [List.append_nil] at hread

theorem Holds.length_lt {field s : List UInt8} (h : Holds field s) : s.length < field.length := by
  obtain ⟨-, pad, rfl⟩ := h
  simp

theorem exists_readString {mem : List UInt8} (h : 0 ∈ mem) : ∃ s, readString mem = some s :=
  ⟨_, readString_eq_some_iff.mpr (holds_cstring h)⟩

theorem zero_notMem_of_readString {mem s : List UInt8} (h : readString mem = some s) : 0 ∉ s :=
  (readString_eq_some_iff.mp h).zero_notMem

/-- A string that is shorter than the field it begins in ends there. -/
theorem holds_of_readString_append {field mem s : List UInt8}
    (h : readString (field ++ mem) = some s) (hlen : s.length < field.length) : Holds field s := by
  by_cases h0 : 0 ∈ field
  · rw [readString_of_holds (holds_cstring h0) mem] at h
    exact Option.some.inj h ▸ holds_cstring h0
  · rw [readString_append_of_notMem mem h0] at h
    obtain ⟨rest, -, rfl⟩ := Option.map_eq_some_iff.mp h
    rw [List.length_append] at hlen
    exact absurd hlen (Nat.not_lt.mpr (Nat.le_add_right _ _))

/-- A string that is at least as long as the field it begins in goes on after the field. -/
theorem exists_of_readString_append {field mem s : List UInt8}
    (h : readString (field ++ mem) = some s) (hlen : field.length ≤ s.length) :
    0 ∉ field ∧ ∃ rest, readString mem = some rest ∧ field ++ rest = s := by
  have h0 : 0 ∉ field := by
    intro h0
    rw [readString_of_holds (holds_cstring h0) mem] at h
    cases h
    exact absurd hlen (holds_cstring h0).length_lt.not_ge
  rw [readString_append_of_notMem mem h0] at h
  exact ⟨h0, Option.map_eq_some_iff.mp h⟩

theorem readString_append_zero (mem : List UInt8) : ∀ s : List UInt8,
    readString (s ++ 0 :: mem) = some (cstring s)
  | [] => by simp [readString, cstring]
  | b :: s => by
    rw [List.cons_append, readString, readString_append_zero mem s]
    by_cases hb : b = 0
    · simp [hb, cstring]
    · simp [hb, cstring]

/-- A comparison that ends before the memory does. -/
theorem strcmpEq_of_length_lt : ∀ {mem t : List UInt8}, 0 ∉ t → t.length < mem.length →
    strcmpEq mem t = some (decide (readString mem = some t))
  | b :: mem, [], _, _ => by
    by_cases hb : b = 0
    · simp [strcmpEq, readString, hb]
    · simp [strcmpEq, readString, hb]
  | b :: mem, c :: t, ht, hlen => by
    have hc : c ≠ 0 := fun hc => ht (by simp [hc])
    have ht' : 0 ∉ t := fun hm => ht (List.mem_cons_of_mem _ hm)
    rw [strcmpEq, strcmpEq_of_length_lt ht' (Nat.lt_of_succ_lt_succ hlen), readString]
    by_cases hbc : b = c
    · simp [hbc, hc]
    · by_cases hb : b = 0
      · simp [hb, Ne.symm hc]
      · simp [hb, hbc]

/-- A comparison that finds the strings equal has read the terminator. -/
theorem strcmpEq_eq_some_true_iff : ∀ {mem t : List UInt8}, 0 ∉ t →
    (strcmpEq mem t = some true ↔ readString mem = some t)
  | [], t, _ => by simp [strcmpEq, readString]
  | b :: mem, [], _ => by
    rw [strcmpEq, readString]
    by_cases hb : b = 0
    · simp [hb]
    · simp [hb]
  | b :: mem, c :: t, ht => by
    have hc : c ≠ 0 := fun hc => ht (by simp [hc])
    have ht' : 0 ∉ t := fun hm => ht (List.mem_cons_of_mem _ hm)
    rw [strcmpEq, readString]
    by_cases hbc : b = c
    · rw [if_pos hbc, strcmpEq_eq_some_true_iff ht', hbc, if_neg hc]
      simp
    · by_cases hb : b = 0
      · simp [hb, Ne.symm hc]
      · simp [hb, hbc]

theorem strcmpEq_append : ∀ {s t : List UInt8} (mem : List UInt8), 0 ∉ s → 0 ∉ t →
    strcmpEq (s ++ 0 :: mem) t = some (decide (s = t))
  | [], [], mem, _, _ => by simp [strcmpEq]
  | [], c :: t, mem, _, ht => by
    have hc : (0 : UInt8) ≠ c := fun hc => ht (by simp [hc])
    simp [strcmpEq, hc]
  | b :: s, [], mem, hs, _ => by
    have hb : b ≠ 0 := fun hb => hs (by simp [hb])
    simp [strcmpEq, hb]
  | b :: s, c :: t, mem, hs, ht => by
    have hs' : 0 ∉ s := fun hm => hs (List.mem_cons_of_mem _ hm)
    have ht' : 0 ∉ t := fun hm => ht (List.mem_cons_of_mem _ hm)
    rw [List.cons_append, strcmpEq]
    by_cases hbc : b = c
    · rw [if_pos hbc, strcmpEq_append mem hs' ht']
      simp [hbc]
    · rw [if_neg hbc]
      simp [hbc]

theorem strcmpEq_of_zero_mem {t : List UInt8} (ht : 0 ∉ t) {mem : List UInt8} (h : 0 ∈ mem) :
    (strcmpEq mem t).isSome := by
  obtain ⟨s, rest, rfl, hs⟩ := List.eq_append_cons_of_mem h
  rw [strcmpEq_append rest hs ht]
  rfl

theorem strcmpEq_of_holds {field s t : List UInt8} (h : Holds field s) (ht : 0 ∉ t)
    (mem : List UInt8) : strcmpEq (field ++ mem) t = some (decide (s = t)) := by
  obtain ⟨h0, pad, rfl⟩ := h
  rw [List.append_assoc, List.cons_append, strcmpEq_append _ h0 ht]

/-- A string shorter than the field is held by it after `strncpy`. -/
theorem holds_strncpy {n : ℕ} {s : List UInt8} (h0 : 0 ∉ s) (h : s.length < n) :
    Holds (strncpy n s) s := by
  refine ⟨h0, List.replicate (n - s.length - 1) 0, ?_⟩
  rw [strncpy, List.take_of_length_le (by omega), ← List.replicate_succ]
  congr 2
  omega

theorem strncpy_of_le {n : ℕ} {src : List UInt8} (h : n ≤ src.length) :
    strncpy n src = src.take n := by
  rw [strncpy, Nat.sub_eq_zero_of_le h, List.replicate_zero, List.append_nil]

/-- A string that the field has no room for leaves no NUL in it. -/
theorem zero_notMem_strncpy {n : ℕ} {src : List UInt8} (h0 : 0 ∉ src) (h : n ≤ src.length) :
    0 ∉ strncpy n src := by
  rw [strncpy_of_le h]
  exact fun hm => h0 (List.mem_of_mem_take hm)

theorem eq_of_holds_strncpy {n : ℕ} {src s : List UInt8} (h0 : 0 ∉ src)
    (h : Holds (strncpy n src) s) : s = src := by
  rcases lt_or_ge src.length n with hlt | hge
  · have hread := readString_of_holds h []
    rw [readString_of_holds (holds_strncpy h0 hlt) []] at hread
    exact (Option.some.inj hread).symm
  · obtain ⟨-, pad, heq⟩ := h
    exact absurd (heq ▸ List.mem_append_right _ List.mem_cons_self) (zero_notMem_strncpy h0 hge)

/-- **What is read back after `strncpy`** is what was copied when it fits, or when the rest of it
follows. -/
theorem readString_strncpy_append_iff {n : ℕ} {src : List UInt8} (h0 : 0 ∉ src)
    (mem : List UInt8) : readString (strncpy n src ++ mem) = some src ↔
      src.length < n ∨ readString mem = some (src.drop n) := by
  rcases lt_or_ge src.length n with hlt | hge
  · simp only [readString_of_holds (holds_strncpy h0 hlt) mem, hlt, true_or]
  · rw [readString_append_of_notMem mem (zero_notMem_strncpy h0 hge), strncpy_of_le hge,
      Option.map_eq_some_iff, or_iff_right hge.not_gt]
    refine ⟨?_, fun h => ⟨_, h, List.take_append_drop n src⟩⟩
    rintro ⟨rest, hrest, heq⟩
    rw [hrest, List.append_cancel_left (heq.trans (List.take_append_drop n src).symm)]

/-- Copying a string to where it is read changes nothing. -/
theorem readString_strncpy_append_self {field mem s : List UInt8}
    (h : readString (field ++ mem) = some s) :
    readString (strncpy field.length s ++ mem) = some s := by
  rw [readString_strncpy_append_iff (zero_notMem_of_readString h)]
  rcases lt_or_ge s.length field.length with hlt | hge
  · exact Or.inl hlt
  · obtain ⟨-, rest, hrest, rfl⟩ := exists_of_readString_append h hge
    rw [List.drop_left]
    exact Or.inr hrest

/-- `readString` and `strcmpEq` cannot tell the two apart. -/
structure ReadsAlike (mem mem' : List UInt8) : Prop where
  readString_eq : readString mem = readString mem'
  strcmpEq_eq : ∀ t, 0 ∉ t → strcmpEq mem t = strcmpEq mem' t

namespace ReadsAlike

variable {mem mem' : List UInt8}

theorem refl (mem : List UInt8) : ReadsAlike mem mem := ⟨rfl, fun _ _ => rfl⟩

theorem cons (h : ReadsAlike mem mem') (b : UInt8) : ReadsAlike (b :: mem) (b :: mem') where
  readString_eq := by rw [readString, readString, h.readString_eq]
  strcmpEq_eq t ht := by
    cases t with
    | nil => rfl
    | cons c t =>
      rw [strcmpEq, strcmpEq, h.strcmpEq_eq t fun hm => ht (List.mem_cons_of_mem _ hm)]

theorem append (h : ReadsAlike mem mem') : ∀ field : List UInt8,
    ReadsAlike (field ++ mem) (field ++ mem')
  | [] => h
  | b :: field => (h.append field).cons b

/-- Where the same string is read, nothing else matters. -/
theorem of_readString {s : List UInt8} (h : readString mem = some s)
    (h' : readString mem' = some s) : ReadsAlike mem mem' where
  readString_eq := h.trans h'.symm
  strcmpEq_eq t ht := by
    have hcmp := strcmpEq_of_holds (readString_eq_some_iff.mp h) ht []
    have hcmp' := strcmpEq_of_holds (readString_eq_some_iff.mp h') ht []
    rw [List.append_nil] at hcmp hcmp'
    rw [hcmp, hcmp']

/-- What follows a field with a NUL does not matter. -/
theorem of_zero_mem {field : List UInt8} (h : 0 ∈ field) (mem mem' : List UInt8) :
    ReadsAlike (field ++ mem) (field ++ mem') :=
  of_readString (readString_of_holds (holds_cstring h) mem)
    (readString_of_holds (holds_cstring h) mem')

end ReadsAlike

end SystemProgramming
