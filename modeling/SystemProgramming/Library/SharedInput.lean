import SystemProgramming.Library.CString

/-!
# An input that a program shares with its children

A `FILE` reads ahead. What has been read and not been handed out is in the buffer of the process;
how far the file has been read is the offset of the open file, which the process shares with every
child it forks. So the offset may move between two calls of `fgets`: a child that reads from the
same file takes what is there, a child that seeks leaves the offset anywhere, and a child that
calls `exit` with bytes in its copy of the buffer moves the offset back by their number, if the
file can be seeked in. The buffer of the process stays as it is, and is followed by what is at the
offset when it is used up: bytes may be read twice, or never.

How many bytes a `read` delivers at an offset is given by the file (`block`): for a regular file as
many as fit into the buffer, for a pipe or a terminal whatever there is. Nothing depends on it
while the offset is left alone. The end of the file is sticky, as in the C standard: once a `read`
has delivered nothing, `fgets` does not ask again.

## How it is used

The calls of a program on its input are `fgets` alone. Between two of them the children may act,
and what matters of them is where they leave the offset. A model of the program leaves that to the
schedule: either as an argument of the action that runs a child, or as the function `moved` of
`deliveries`. A theorem for all schedules then covers every way in which children may interfere, and
one that needs the input to be read once and in order has to say that they do not.

## Main definitions

* `InputFile` — a `FILE` and the open file behind it
* `InputFile.upcoming` — what will be delivered if the offset is left alone
* `InputFile.fgets` — the function of `stdio.h`
* `InputFile.childExits`, `InputFile.childLeaves` — what a child does to the offset
* `InputFile.deliveries` — successive calls of `fgets`, with an offset that may be moved in between

## Main results

* `fgets_fst`, `upcoming_fgets` — a call delivers the first piece of what is upcoming, and the rest
  is upcoming then
* `childExits_of_not_seekable` — a pipe or a terminal is not affected by an `exit`
* `deliveries_of_still` — while the offset is left alone, a file is delivered once and in order
-/

namespace SystemProgramming

/-! ### Pieces -/

/-- What a call of `fgets` takes off some bytes, with room for so many: a line with its newline, or
as much of it as there is room for. -/
def firstPiece : ℕ → List UInt8 → List UInt8
  | 0, _ => []
  | _ + 1, [] => []
  | room + 1, c :: s => if c = 10 then [c] else c :: firstPiece room s

theorem firstPiece_eq_nil_iff {room : ℕ} (hroom : 0 < room) {s : List UInt8} :
    firstPiece room s = [] ↔ s = [] := by
  obtain ⟨room, rfl⟩ : ∃ r, room = r + 1 := ⟨room - 1, by omega⟩
  cases s with
  | nil => exact iff_of_true rfl rfl
  | cons c s =>
    rw [firstPiece]
    split <;> simp

theorem firstPiece_append_drop (room : ℕ) (s : List UInt8) :
    firstPiece room s ++ s.drop (firstPiece room s).length = s := by
  induction room generalizing s with
  | zero => rfl
  | succ room ih =>
    cases s with
    | nil => rfl
    | cons c s =>
      rw [firstPiece]
      split
      · rfl
      · exact congrArg (c :: ·) (ih s)

theorem firstPiece_line (rest : List UInt8) : ∀ {line : List UInt8} {room : ℕ}, 10 ∉ line →
    line.length < room → firstPiece room (line ++ 10 :: rest) = line ++ [10]
  | [], room, _, hfits => by
    obtain ⟨room, rfl⟩ : ∃ r, room = r + 1 := ⟨room - 1, by rw [List.length_nil] at hfits; omega⟩
    rfl
  | c :: line, room, hline, hfits => by
    obtain ⟨room, rfl⟩ : ∃ r, room = r + 1 := ⟨room - 1, by rw [List.length_cons] at hfits; omega⟩
    obtain ⟨hc, hline⟩ := not_or.mp (mt List.mem_cons.mpr hline)
    rw [List.cons_append, firstPiece, if_neg (Ne.symm hc),
      firstPiece_line rest hline (by rw [List.length_cons] at hfits; omega)]
    rfl

/-- Taking off one piece after the other. -/
theorem fgetsFrom_eq_cons {size : ℕ} : ∀ {s piece : List UInt8} {room : ℕ},
    piece.length + room + 1 = size → 0 < room → s ≠ [] ∨ piece ≠ [] →
      fgetsFrom size piece s = (piece ++ firstPiece room s) ::
        fgetsFrom size [] (s.drop (firstPiece room s).length)
  | [], piece, room, _, hroom, hne => by
    have hpiece : piece ≠ [] := hne.resolve_left (absurd rfl)
    have hnil : firstPiece room [] = [] := (firstPiece_eq_nil_iff hroom).mpr rfl
    rw [fgetsFrom, if_neg (by simpa using hpiece), hnil]
    simp [fgetsFrom]
  | c :: s, piece, room, hsize, hroom, _ => by
    obtain ⟨room, rfl⟩ : ∃ r, room = r + 1 := ⟨room - 1, by omega⟩
    rw [fgetsFrom, firstPiece]
    by_cases hc : c = 10
    · rw [if_pos (Or.inl hc), if_pos hc]
      rfl
    · rw [if_neg hc]
      by_cases hfull : room = 0
      · subst hfull
        rw [if_pos (Or.inr (by omega))]
        rfl
      · have hlen : (piece ++ [c]).length + room + 1 = size := by
          rw [List.length_append, List.length_singleton]
          omega
        rw [if_neg (by rw [not_or]; exact ⟨hc, by omega⟩),
          fgetsFrom_eq_cons hlen (Nat.pos_of_ne_zero hfull) (Or.inr (by simp))]
        simp

/-! ### A `FILE` -/

/-- A `FILE`, and the open file behind it. -/
structure InputFile where
  /-- The contents; what a pipe or a terminal will deliver in all. -/
  file : List UInt8
  seekable : Bool
  /-- At an offset, a `read` delivers one byte more than this, or what is left. -/
  block : ℕ → ℕ
  /-- The offset of the open file, which is shared. -/
  offset : ℕ
  /-- What has been read and not been handed out. -/
  buffered : List UInt8
  /-- A `read` has delivered nothing. -/
  eof : Bool

namespace InputFile

/-- A file that has just been opened. -/
def opened (file : List UInt8) (seekable : Bool) (block : ℕ → ℕ) : InputFile :=
  ⟨file, seekable, block, 0, [], false⟩

variable (f : InputFile)

/-- What the next `read` begins with. -/
def unread : List UInt8 := f.file.drop f.offset

/-- What `fgets` will deliver, if the offset is left alone. -/
def upcoming : List UInt8 := f.buffered ++ if f.eof then [] else f.unread

@[simp] theorem upcoming_opened (file : List UInt8) (seekable : Bool) (block : ℕ → ℕ) :
    (opened file seekable block).upcoming = file := rfl

/-- A `read`, when the buffer is empty. -/
def fill : InputFile :=
  if f.unread = [] then { f with eof := true }
  else
    { f with
      buffered := f.unread.take (f.block f.offset + 1)
      offset := f.offset + (f.unread.take (f.block f.offset + 1)).length }

/-- The buffer is in use, or there is nothing more. -/
def ready : InputFile := if f.buffered = [] ∧ f.eof = false then f.fill else f

def getc : Option UInt8 × InputFile :=
  (f.ready.buffered.head?, { f.ready with buffered := f.ready.buffered.tail })

/-- The loop of `fgets`, with room for so many bytes. -/
def fgets : ℕ → InputFile → List UInt8 × InputFile
  | 0, f => ([], f)
  | room + 1, f =>
    match f.getc with
    | (none, f) => ([], f)
    | (some c, f) => if c = 10 then ([c], f) else (c :: (fgets room f).1, (fgets room f).2)

/-! ### What `fgets` delivers -/

section Deliver

variable {f} {room : ℕ}

theorem take_append_drop_take (l : List UInt8) (n : ℕ) :
    l.take n ++ l.drop (l.take n).length = l := by
  conv_rhs => rw [← List.take_append_drop n l]
  rcases le_total n l.length with hle | hle
  · rw [List.length_take, min_eq_left hle]
  · rw [List.take_of_length_le hle, List.drop_of_length_le le_rfl, List.drop_of_length_le hle]

theorem upcoming_ready : f.ready.upcoming = f.upcoming := by
  rw [ready]
  split
  · rename_i h
    rw [fill]
    split
    · rename_i hnone
      simp [upcoming, h.1, h.2, hnone]
    · simp only [upcoming, unread, h.1, h.2, List.nil_append, Bool.false_eq_true, if_false]
      rw [← List.drop_drop]
      exact take_append_drop_take _ _
  · rfl

/-- With a buffer that is empty, there is nothing more. -/
theorem upcoming_of_ready_nil (h : f.ready.buffered = []) : f.upcoming = [] := by
  rw [← upcoming_ready, upcoming, h, List.nil_append]
  rw [ready] at h ⊢
  split at h
  · rename_i hempty
    rw [if_pos hempty]
    rw [fill] at h ⊢
    split at h
    · rename_i hnone
      rw [if_pos hnone]
      rfl
    · rename_i hsome
      exact absurd h (by simpa using hsome)
  · rename_i hfull
    rw [if_neg hfull, if_pos]
    simpa [h] using hfull

/-- What the buffer holds is upcoming, and what follows it. -/
theorem upcoming_eq_ready : f.upcoming = f.ready.buffered ++
    if f.ready.buffered = [] then [] else if f.ready.eof then [] else f.ready.unread := by
  by_cases hb : f.ready.buffered = []
  · rw [upcoming_of_ready_nil hb, hb]
    rfl
  · rw [if_neg hb, ← upcoming_ready]
    rfl

theorem getc_fst : f.getc.1 = f.upcoming.head? := by
  rw [getc, upcoming_eq_ready]
  rcases f.ready.buffered with _ | ⟨c, rest⟩ <;> rfl

theorem upcoming_getc : f.getc.2.upcoming = f.upcoming.tail := by
  by_cases hb : f.ready.buffered = []
  · have hnil := upcoming_of_ready_nil hb
    have hend : f.getc.2.upcoming = f.ready.upcoming := by
      rw [getc, upcoming, upcoming, hb]
      rfl
    rw [hend, upcoming_ready, hnil]
    rfl
  · obtain ⟨c, rest, hcons⟩ := List.exists_cons_of_ne_nil hb
    rw [upcoming_eq_ready (f := f), if_neg hb, getc, upcoming, hcons]
    rfl

/-- **`fgets` delivers the first piece of what is upcoming.** -/
theorem fgets_fst : ∀ {room : ℕ} {f : InputFile},
    (fgets room f).1 = firstPiece room f.upcoming
  | 0, f => rfl
  | room + 1, f => by
    have hc := f.getc_fst
    have hrest := f.upcoming_getc
    rw [fgets]
    rcases hg : f.getc with ⟨_ | c, f'⟩
    · rw [hg] at hc
      rw [List.head?_eq_none_iff.mp hc.symm]
      rfl
    · rw [hg] at hc hrest
      obtain ⟨s, hs⟩ : ∃ s, f.upcoming = c :: s := List.head?_eq_some_iff.mp hc.symm
      rw [hs] at hrest ⊢
      rw [firstPiece]
      by_cases h10 : c = 10
      · simp only [if_pos h10]
      · simp only [if_neg h10]
        rw [fgets_fst]
        exact congrArg (fun s => c :: firstPiece room s) hrest

/-- What it does not deliver is upcoming then. -/
theorem upcoming_fgets : ∀ {room : ℕ} {f : InputFile},
    (fgets room f).2.upcoming = f.upcoming.drop (firstPiece room f.upcoming).length
  | 0, f => rfl
  | room + 1, f => by
    have hc := f.getc_fst
    have hrest := f.upcoming_getc
    rw [fgets]
    rcases hg : f.getc with ⟨_ | c, f'⟩
    · rw [hg] at hc hrest
      rw [List.head?_eq_none_iff.mp hc.symm] at hrest ⊢
      exact hrest
    · rw [hg] at hc hrest
      obtain ⟨s, hs⟩ : ∃ s, f.upcoming = c :: s := List.head?_eq_some_iff.mp hc.symm
      rw [hs] at hrest ⊢
      rw [firstPiece]
      by_cases h10 : c = 10
      · simp only [if_pos h10]
        exact hrest
      · simp only [if_neg h10]
        rw [upcoming_fgets, show f'.upcoming = s from hrest]
        rfl

/-- What has been delivered and what is upcoming is what was upcoming. -/
theorem fgets_append_upcoming :
    (fgets room f).1 ++ (fgets room f).2.upcoming = f.upcoming := by
  rw [fgets_fst, upcoming_fgets, firstPiece_append_drop]

/-- At the end nothing is delivered. -/
theorem fgets_eq_nil_iff (hroom : 0 < room) : (fgets room f).1 = [] ↔ f.upcoming = [] := by
  rw [fgets_fst, firstPiece_eq_nil_iff hroom]

/-- A line that is upcoming and fits is delivered. -/
theorem fgets_line {line rest : List UInt8} (hline : 10 ∉ line) (hfits : line.length < room)
    (h : f.upcoming = line ++ 10 :: rest) :
    (fgets room f).1 = line ++ [10] ∧ (fgets room f).2.upcoming = rest := by
  have hpiece := firstPiece_line rest hline hfits
  rw [fgets_fst, upcoming_fgets, h, hpiece]
  exact ⟨rfl, by simp⟩

/-- The pieces that are upcoming, one call after the other. -/
theorem fgetsFrom_upcoming {size : ℕ} (hsize : 1 < size) (h : f.upcoming ≠ []) :
    fgetsFrom size [] f.upcoming =
      (fgets (size - 1) f).1 :: fgetsFrom size [] (fgets (size - 1) f).2.upcoming := by
  have hroom : ([] : List UInt8).length + (size - 1) + 1 = size := by
    rw [List.length_nil]
    omega
  rw [upcoming_fgets, fgets_fst, fgetsFrom_eq_cons hroom (by omega) (Or.inl h)]
  rfl

theorem seekable_ready : f.ready.seekable = f.seekable := by
  rw [ready]
  split
  · rw [fill]
    split <;> rfl
  · rfl

theorem seekable_fgets : ∀ {room : ℕ} {f : InputFile}, (fgets room f).2.seekable = f.seekable
  | 0, f => rfl
  | room + 1, f => by
    have hg : f.getc.2.seekable = f.seekable := seekable_ready
    rw [fgets]
    rcases hc : f.getc with ⟨_ | c, f'⟩
    · rwa [hc] at hg
    · rw [hc] at hg
      by_cases h10 : c = 10
      · simp only [if_pos h10]
        exact hg
      · simp only [if_neg h10]
        rw [seekable_fgets]
        exact hg

end Deliver

/-! ### Children -/

/-- A child calls `exit`: it seeks back over what is in its copy of the buffer, if that can be
done. -/
def childExits : InputFile :=
  if f.seekable ∧ f.buffered.length ≤ f.offset then
    { f with offset := f.offset - f.buffered.length }
  else f

/-- A child leaves the offset somewhere; in a pipe or a terminal there is no way back. -/
def childLeaves (offset : ℕ) : InputFile :=
  { f with offset := if f.seekable then offset else max f.offset offset }

variable {f}

theorem childExits_of_not_seekable (h : f.seekable = false) : f.childExits = f :=
  if_neg (by simp [h])

/-- To exit is one of the ways to leave the offset somewhere. -/
theorem childExits_eq_childLeaves (f : InputFile) :
    f.childExits = f ∨ f.childExits = f.childLeaves (f.offset - f.buffered.length) := by
  rw [childExits, childLeaves]
  split
  · rename_i h
    right
    rw [if_pos h.1]
  · left
    rfl

@[simp] theorem seekable_childExits : f.childExits.seekable = f.seekable := by
  rw [childExits]
  split <;> rfl

/-! ### Successive calls -/

/-- What so many calls of `fgets(line, size, file)` deliver, up to the end of the file, where
before the call with the number `n` the children have left the offset at `moved n`, if they have
moved it. -/
def deliveries (size : ℕ) (moved : ℕ → Option ℕ) : ℕ → ℕ → InputFile → List (List UInt8)
  | 0, _, _ => []
  | calls + 1, n, f =>
    let r := fgets (size - 1) ((moved n).elim f f.childLeaves)
    if r.1.isEmpty then [] else r.1 :: deliveries size moved calls (n + 1) r.2

/-- **While the offset is left alone, a file is delivered once and in order.** -/
theorem deliveries_of_still {size : ℕ} (hsize : 1 < size) {moved : ℕ → Option ℕ}
    (hstill : ∀ n, moved n = none) : ∀ (calls n : ℕ) (f : InputFile),
    deliveries size moved calls n f = (fgetsFrom size [] f.upcoming).take calls
  | 0, _, _ => rfl
  | calls + 1, n, f => by
    have hroom : 0 < size - 1 := by omega
    have hcall : deliveries size moved (calls + 1) n f =
        if (fgets (size - 1) f).1.isEmpty then []
        else (fgets (size - 1) f).1 ::
          deliveries size moved calls (n + 1) (fgets (size - 1) f).2 := by
      rw [deliveries, hstill n]
      rfl
    rw [hcall, deliveries_of_still hsize hstill, upcoming_fgets]
    by_cases hend : f.upcoming = []
    · rw [if_pos (List.isEmpty_iff.mpr ((fgets_eq_nil_iff hroom).mpr hend)), hend]
      rfl
    · rw [if_neg (by rwa [List.isEmpty_iff, fgets_eq_nil_iff hroom]),
        fgetsFrom_upcoming hsize hend, ← upcoming_fgets]
      rfl

end InputFile

end SystemProgramming
