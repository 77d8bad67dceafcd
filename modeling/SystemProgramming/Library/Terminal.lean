import Mathlib.Data.List.Basic
import Mathlib.Data.List.Induction

/-!
# A terminal that prints

What a program sends to a terminal is not what can be read on the screen: a backspace moves the
cursor to the left, and the next byte goes over what is there. `Terminal` is the text in front of
the cursor and the rest of its row. Every byte but backspace and newline takes one cell, and a
backspace does not leave the row.

## Main definitions

* `Terminal` — the text in front of the cursor, and what is behind it in its row
* `Terminal.put`, `Terminal.print` — one byte, and several
* `Terminal.Clean` — nothing can be seen behind the cursor

## Main results

* `print_rubOut`, `print_rubOuts` — backspace, space, backspace: the last cell of the row is blank
  again
-/

namespace SystemProgramming

/-- The text in front of the cursor, and what is in the row of the cursor behind it. -/
structure Terminal where
  before : List UInt8
  behind : List UInt8
  deriving DecidableEq

namespace Terminal

def backspace : UInt8 := 8

def newline : UInt8 := 10

def blank : UInt8 := 32

/-- One byte is sent to the terminal. -/
def put (t : Terminal) (b : UInt8) : Terminal :=
  if b = backspace then
    match t.before.getLast? with
    | some c => if c = newline then t else ⟨t.before.dropLast, c :: t.behind⟩
    | none => t
  else if b = newline then ⟨t.before ++ [b], []⟩
  else ⟨t.before ++ [b], t.behind.tail⟩

/-- Several bytes are sent. -/
def print (t : Terminal) (bs : List UInt8) : Terminal := bs.foldl put t

/-- What makes the last cell of the row blank. -/
def rubOut : List UInt8 := [backspace, blank, backspace]

/-- The screen at the start. -/
def clear : Terminal := ⟨[], []⟩

/-- Nothing but blanks behind the cursor. -/
def Clean (t : Terminal) : Prop := ∀ b ∈ t.behind, b = blank

variable {t : Terminal} {text : List UInt8} {b c : UInt8}

theorem print_append (t : Terminal) (bs cs : List UInt8) :
    t.print (bs ++ cs) = (t.print bs).print cs := List.foldl_append

theorem put_backspace (h : t.before = text ++ [c]) (hc : c ≠ newline) :
    t.put backspace = ⟨text, c :: t.behind⟩ := by
  rw [put, if_pos rfl, h, List.getLast?_concat, List.dropLast_concat]
  exact if_neg hc

theorem put_blank (t : Terminal) : t.put blank = ⟨t.before ++ [blank], t.behind.tail⟩ := rfl

theorem before_put (hb : b ≠ backspace) : (t.put b).before = t.before ++ [b] := by
  rw [put, if_neg hb]
  split <;> rfl

theorem Clean.put (h : t.Clean) (hb : b ≠ backspace) : (t.put b).Clean := by
  rw [Terminal.put, if_neg hb]
  split
  · exact fun _ hmem => absurd hmem List.not_mem_nil
  · exact fun c hmem => h c (List.mem_of_mem_tail hmem)

/-- Rubbing out the last cell of the row. -/
theorem print_rubOut (h : t.before = text ++ [c]) (hc : c ≠ newline) :
    t.print rubOut = ⟨text, blank :: t.behind⟩ := by
  show ((t.put backspace).put blank).put backspace = _
  rw [put_backspace h hc, put_blank]
  exact put_backspace rfl (by decide)

theorem Clean.rubOut (h : t.Clean) : Clean ⟨text, blank :: t.behind⟩ := by
  intro b hb
  rcases List.mem_cons.mp hb with rfl | hb
  · rfl
  · exact h b hb

/-- Rubbing out the end of the row. -/
theorem print_rubOuts {line : List UInt8} (h : t.before = text ++ line) (hline : newline ∉ line)
    (hclean : t.Clean) :
    (t.print (List.replicate line.length rubOut).flatten).before = text ∧
      (t.print (List.replicate line.length rubOut).flatten).Clean := by
  induction line using List.reverseRecOn generalizing t with
  | nil => exact ⟨h.trans (List.append_nil _), hclean⟩
  | append_singleton line c ih =>
    rw [← List.append_assoc] at h
    rw [List.mem_append, List.mem_singleton, not_or] at hline
    rw [List.length_append, List.length_singleton, List.replicate_succ, List.flatten_cons,
      print_append, print_rubOut h (Ne.symm hline.2)]
    exact ih rfl hline.1 hclean.rubOut

end Terminal

end SystemProgramming
