import SystemProgramming.Library.Descriptors
import SystemProgramming.Xv6.ShGrammar
import Mathlib.Tactic.IntervalCases

/-!
# What the shell runs

`runcmd` is what a process of the shell does with a command: it opens files, makes pipes, starts
processes that do the same with parts of the command, and becomes the program of a simple command.
All of it is done with `close`, `open`, `pipe` and `dup`, which hand out the lowest free descriptor.

A process is named by the part of the command that it executes, and so is the pipe that it makes:
`false` and `true` are the left and the right part. `World` says which calls succeed.

## What is assumed

A process does not run out of memory, and a program that is executed does not return. The pipes that
a command makes are known to the processes of that command only. The processes run in any order; as
no call of one depends on another before it reads or waits, what they hold is a function of the
command, and is computed without a schedule.

## Main definitions

* `runcmd` — the programs a command starts, and the calls of `wait`, with the descriptors
* `plan` — the same, with the input and the output of every process instead of a table

## Main results

* `runcmd_std` — every process has the descriptors of its plan and no others
* `held_of_mem_runcmd` — the ends of a pipe are held by the two sides of it only
-/

namespace SystemProgramming

namespace Xv6

namespace Sh

/-- A part of a command. -/
abbrev Place := List Bool

/-- An open file: one that the shell was started with, one that a redirection has opened, or an end
of the pipe that the process at a place has made. -/
inductive File where
  | inherited (n : ℕ)
  | named (name : List UInt8) (mode : Redirection)
  | readEnd (p : Place)
  | writeEnd (p : Place)
  deriving DecidableEq, Repr

/-- Which calls succeed; a process calls `fork1` at most twice for a part of a command. -/
structure World where
  opens : Place → Bool
  pipes : Place → Bool
  forks : Place → Bool → Bool

/-- What a process does besides starting others. -/
inductive Call where
  | exec (argv : List (List UInt8))
  | wait
  deriving DecidableEq, Repr

/-- A call, the part of the command it is made for, and the descriptors of the process. -/
structure Event where
  place : Place
  call : Call
  table : Table File

/-! ### Descriptors -/

def nofile : ℕ := 16

def fdalloc (t : Table File) : Option ℕ := (List.range nofile).find? fun fd => (t fd).isNone

/-- A descriptor for an open file, as `open`, `pipe` and `dup` find it. -/
def allot (t : Table File) (f : File) : Option (ℕ × Table File) :=
  (fdalloc t).map fun fd => (fd, t.install fd f)

/-- `dup(fd)`, whose result nobody looks at. -/
def dup (t : Table File) (fd : ℕ) : Table File :=
  match (t fd).bind (allot t) with
  | some r => r.2
  | none => t

/-- `pipe(p)`: `p[0]`, `p[1]` and the new table. -/
def pipe (t : Table File) (place : Place) : Option (ℕ × ℕ × Table File) :=
  (allot t (.readEnd place)).bind fun r =>
    (allot r.2 (.writeEnd place)).map fun r' => (r.1, r'.1, r'.2)

/-- The descriptor that a redirection replaces. -/
def Redirection.fd : Redirection → ℕ
  | .input => 0
  | .output => 1
  | .append => 1

/-! ### `runcmd` -/

/-- `runcmd(cmd)` in a process with the descriptors `t`, and in all that it starts. A call that
fails ends the process. -/
def runcmd (w : World) : Cmd (List UInt8) → Place → Table File → List Event
  | .exec argv, place, t => if argv = [] then [] else [⟨place, .exec argv, t⟩]
  | .redir cmd file mode, place, t =>
    match (if w.opens place then allot (t.close mode.fd) (.named file mode) else none) with
    | none => []
    | some r => runcmd w cmd (place ++ [false]) r.2
  | .list left right, place, t =>
    if w.forks place false then
      runcmd w left (place ++ [false]) t ++ ⟨place, .wait, t⟩ ::
        runcmd w right (place ++ [true]) t
    else []
  | .pipe left right, place, t =>
    match (if w.pipes place then pipe t place else none) with
    | none => []
    | some (p₀, p₁, t) =>
      let closed := (t.close p₀).close p₁
      if w.forks place false then
        runcmd w left (place ++ [false]) (((dup (t.close 1) p₁).close p₀).close p₁) ++
          if w.forks place true then
            runcmd w right (place ++ [true]) (((dup (t.close 0) p₀).close p₀).close p₁) ++
              [⟨place, .wait, closed⟩, ⟨place, .wait, closed⟩]
          else []
      else []
  | .back cmd, place, t => if w.forks place false then runcmd w cmd (place ++ [false]) t else []

/-! ### The plan -/

/-- A call, and the input and the output of the process. -/
structure Planned where
  place : Place
  call : Call
  input : File
  output : File
  deriving DecidableEq, Repr

/-- Who runs with which input and output. -/
def plan (w : World) : Cmd (List UInt8) → Place → File → File → List Planned
  | .exec argv, place, i, o => if argv = [] then [] else [⟨place, .exec argv, i, o⟩]
  | .redir cmd file mode, place, i, o =>
    if w.opens place then
      plan w cmd (place ++ [false]) (if mode.fd = 0 then .named file mode else i)
        (if mode.fd = 1 then .named file mode else o)
    else []
  | .list left right, place, i, o =>
    if w.forks place false then
      plan w left (place ++ [false]) i o ++ ⟨place, .wait, i, o⟩ ::
        plan w right (place ++ [true]) i o
    else []
  | .pipe left right, place, i, o =>
    if w.pipes place && w.forks place false then
      plan w left (place ++ [false]) i (.writeEnd place) ++
        if w.forks place true then
          plan w right (place ++ [true]) (.readEnd place) o ++
            [⟨place, .wait, i, o⟩, ⟨place, .wait, i, o⟩]
        else []
    else []
  | .back cmd, place, i, o => if w.forks place false then plan w cmd (place ++ [false]) i o else []

/-- The table with standard input, output and error, and nothing else. -/
def std (i o e : File) : Table File
  | 0 => some i
  | 1 => some o
  | 2 => some e
  | _ => none

variable {i o e f : File}

/-- The table behind `pipe`, before any of its descriptors is closed. -/
def piped (i o e : File) (place : Place) : Table File
  | 0 => some i
  | 1 => some o
  | 2 => some e
  | 3 => some (.readEnd place)
  | 4 => some (.writeEnd place)
  | _ => none

/-- Tables are compared descriptor by descriptor. -/
theorem table_ext {t t' : Table File} (h : ∀ fd < 5, t fd = t' fd)
    (hrest : ∀ fd, t (fd + 5) = t' (fd + 5)) : t = t' := by
  funext fd
  by_cases hfd : fd < 5
  · exact h fd hfd
  · obtain ⟨n, rfl⟩ := Nat.exists_eq_add_of_le' (Nat.le_of_not_lt hfd)
    exact hrest n

/-- `close` and `open` put the file in the place of the input or the output. -/
theorem allot_redir (mode : Redirection) (f : File) : allot ((std i o e).close mode.fd) f =
    some (mode.fd, std (if mode.fd = 0 then f else i) (if mode.fd = 1 then f else o) e) := by
  have htable : ((std i o e).close mode.fd).install mode.fd f =
      std (if mode.fd = 0 then f else i) (if mode.fd = 1 then f else o) e := by
    refine table_ext (fun fd hfd => ?_) fun fd => by cases mode <;> rfl
    interval_cases fd <;> cases mode <;> rfl
  rw [← htable]
  cases mode <;> rfl

theorem pipe_std (place : Place) : pipe (std i o e) place = some (3, 4, piped i o e place) := by
  have htable : ((std i o e).install 3 (.readEnd place)).install 4 (.writeEnd place) =
      piped i o e place := by
    refine table_ext (fun fd hfd => ?_) fun fd => rfl
    interval_cases fd <;> rfl
  rw [← htable]
  rfl

/-- The descriptors of the process on the left of a pipe. -/
theorem left_of_piped (place : Place) :
    ((dup ((piped i o e place).close 1) 4).close 3).close 4 = std i (.writeEnd place) e := by
  refine table_ext (fun fd hfd => ?_) fun fd => rfl
  interval_cases fd <;> rfl

/-- The descriptors of the process on the right. -/
theorem right_of_piped (place : Place) :
    ((dup ((piped i o e place).close 0) 3).close 3).close 4 = std (.readEnd place) o e := by
  refine table_ext (fun fd hfd => ?_) fun fd => rfl
  interval_cases fd <;> rfl

/-- The descriptors of the process that has made the pipe, when it waits. -/
theorem closed_of_piped (place : Place) :
    ((piped i o e place).close 3).close 4 = std i o e := by
  refine table_ext (fun fd hfd => ?_) fun fd => rfl
  interval_cases fd <;> rfl

/-- A planned call, with the descriptors it is made with. -/
def Planned.event (e : File) (p : Planned) : Event := ⟨p.place, p.call, std p.input p.output e⟩

/-- What is done is what is planned, part by part. -/
theorem runcmd_eq_plan (w : World) (c : Cmd (List UInt8)) : ∀ (place : Place) (i o e : File),
    runcmd w c place (std i o e) = (plan w c place i o).map (Planned.event e) := by
  induction c with
  | exec argv =>
    intro place i o e
    rw [runcmd, plan]
    split <;> rfl
  | redir cmd file mode ih =>
    intro place i o e
    rw [runcmd, plan]
    cases w.opens place with
    | false => rfl
    | true =>
      rw [if_pos rfl, if_pos rfl, allot_redir]
      exact ih _ _ _ _
  | list left right ihl ihr =>
    intro place i o e
    rw [runcmd, plan]
    split
    · rw [ihl, ihr, List.map_append, List.map_cons]
      rfl
    · rfl
  | pipe left right ihl ihr =>
    intro place i o e
    rw [runcmd, plan]
    cases w.pipes place with
    | false => rfl
    | true =>
      rw [if_pos rfl, pipe_std, Bool.true_and]
      dsimp only
      rw [left_of_piped, right_of_piped, closed_of_piped, ihl, ihr]
      split
      · split
        · rw [List.map_append, List.map_append]
          rfl
        · rw [List.append_nil, List.append_nil]
      · rfl
  | back cmd ih =>
    intro place i o e
    rw [runcmd, plan]
    split
    · exact ih _ _ _ _
    · rfl

/-- **The plan is carried out.** Whatever calls fail, every process has three descriptors, for the
input and the output of its plan and for the error output. -/
theorem runcmd_std (w : World) (c : Cmd (List UInt8)) : ∀ (place : Place) (i o e : File),
    runcmd w c place (std i o e) = (plan w c place i o).map (Planned.event e) :=
  runcmd_eq_plan w c

/-! ### The ends of pipes -/

/-- Where the input and the output of a process come from and go to, in the part of the command at
`place`: they are inherited, or named in the command, or an end of a pipe that is made there, whose
readers are on the right of it and whose writers on the left. -/
structure Connected (i o : File) (place : Place) (p : Planned) : Prop where
  inside : place <+: p.place
  input : p.input = i ∨ (∃ name mode, p.input = .named name mode) ∨
    ∃ q, p.input = .readEnd q ∧ q ++ [true] <+: p.place
  output : p.output = o ∨ (∃ name mode, p.output = .named name mode) ∨
    ∃ q, p.output = .writeEnd q ∧ q ++ [false] <+: p.place

theorem Connected.of_part {i o i' o' : File} {place : Place} {side : Bool} {p : Planned}
    (h : Connected i' o' (place ++ [side]) p)
    (hi : i' = i ∨ (∃ name mode, i' = .named name mode) ∨
      ∃ q, i' = .readEnd q ∧ q ++ [true] <+: place ++ [side])
    (ho : o' = o ∨ (∃ name mode, o' = .named name mode) ∨
      ∃ q, o' = .writeEnd q ∧ q ++ [false] <+: place ++ [side]) : Connected i o place p where
  inside := (List.prefix_append place [side]).trans h.inside
  input := by
    rcases h.input with hin | hin
    · rw [hin]
      exact hi.imp_right fun hi => hi.imp_right fun ⟨q, hq, hplace⟩ =>
        ⟨q, hq, hplace.trans h.inside⟩
    · exact Or.inr hin
  output := by
    rcases h.output with hout | hout
    · rw [hout]
      exact ho.imp_right fun ho => ho.imp_right fun ⟨q, hq, hplace⟩ =>
        ⟨q, hq, hplace.trans h.inside⟩
    · exact Or.inr hout

theorem connected_of_mem_plan (w : World) (c : Cmd (List UInt8)) : ∀ (place : Place) (i o : File),
    ∀ p ∈ plan w c place i o, Connected i o place p := by
  induction c with
  | exec argv =>
    intro place i o p hp
    rw [plan] at hp
    split at hp
    · cases hp
    · obtain rfl := List.mem_singleton.mp hp
      exact ⟨List.prefix_refl _, Or.inl rfl, Or.inl rfl⟩
  | redir cmd file mode ih =>
    intro place i o p hp
    rw [plan] at hp
    split at hp
    · refine (ih _ _ _ p hp).of_part ?_ ?_
      · split
        · exact Or.inr (Or.inl ⟨file, mode, rfl⟩)
        · exact Or.inl rfl
      · split
        · exact Or.inr (Or.inl ⟨file, mode, rfl⟩)
        · exact Or.inl rfl
    · cases hp
  | list left right ihl ihr =>
    intro place i o p hp
    rw [plan] at hp
    split at hp
    · rcases List.mem_append.mp hp with hp | hp
      · exact (ihl _ _ _ p hp).of_part (Or.inl rfl) (Or.inl rfl)
      · rcases List.mem_cons.mp hp with rfl | hp
        · exact ⟨List.prefix_refl _, Or.inl rfl, Or.inl rfl⟩
        · exact (ihr _ _ _ p hp).of_part (Or.inl rfl) (Or.inl rfl)
    · cases hp
  | pipe left right ihl ihr =>
    intro place i o p hp
    rw [plan] at hp
    split at hp
    · rcases List.mem_append.mp hp with hp | hp
      · exact (ihl _ _ _ p hp).of_part (Or.inl rfl)
          (Or.inr (Or.inr ⟨place, rfl, List.prefix_refl _⟩))
      · split at hp
        · rcases List.mem_append.mp hp with hp | hp
          · exact (ihr _ _ _ p hp).of_part (Or.inr (Or.inr ⟨place, rfl, List.prefix_refl _⟩))
              (Or.inl rfl)
          · have hwait : p = ⟨place, .wait, i, o⟩ := by simpa using hp
            rw [hwait]
            exact ⟨List.prefix_refl _, Or.inl rfl, Or.inl rfl⟩
        · cases hp
    · cases hp
  | back cmd ih =>
    intro place i o p hp
    rw [plan] at hp
    split at hp
    · exact (ih _ _ _ p hp).of_part (Or.inl rfl) (Or.inl rfl)
    · cases hp

/-- An input is no writing end, and a reading end is one of a pipe on whose right the process is. -/
theorem Connected.input_end {n : ℕ} {p : Planned} {place : Place}
    (h : Connected (.inherited n) o place p) (q : Place) :
    p.input ≠ .writeEnd q ∧ (p.input = .readEnd q → q ++ [true] <+: p.place) := by
  rcases h.input with hin | ⟨name, mode, hin⟩ | ⟨q', hin, hplace⟩ <;> rw [hin]
  · exact ⟨nofun, nofun⟩
  · exact ⟨nofun, nofun⟩
  · refine ⟨nofun, fun h => ?_⟩
    obtain rfl := File.readEnd.inj h
    exact hplace

theorem Connected.output_end {n : ℕ} {p : Planned} {place : Place}
    (h : Connected i (.inherited n) place p) (q : Place) :
    p.output ≠ .readEnd q ∧ (p.output = .writeEnd q → q ++ [false] <+: p.place) := by
  rcases h.output with hout | ⟨name, mode, hout⟩ | ⟨q', hout, hplace⟩ <;> rw [hout]
  · exact ⟨nofun, nofun⟩
  · exact ⟨nofun, nofun⟩
  · refine ⟨nofun, fun h => ?_⟩
    obtain rfl := File.writeEnd.inj h
    exact hplace

/-- **Who holds an end of a pipe.** Whatever calls fail, a program or a waiting process that holds
the writing end of a pipe has it as its output and belongs to the left side of the pipe, and one
that holds the reading end has it as its input and belongs to the right side. So the readers come
to the end of the pipe as soon as the left side has ended. -/
theorem held_of_mem_runcmd (w : World) (c : Cmd (List UInt8)) (n₀ n₁ n₂ : ℕ) {ev : Event}
    (hev : ev ∈ runcmd w c [] (std (.inherited n₀) (.inherited n₁) (.inherited n₂)))
    (fd : ℕ) (q : Place) :
    (ev.table fd = some (.writeEnd q) → fd = 1 ∧ q ++ [false] <+: ev.place) ∧
      (ev.table fd = some (.readEnd q) → fd = 0 ∧ q ++ [true] <+: ev.place) := by
  rw [runcmd_eq_plan] at hev
  obtain ⟨p, hp, rfl⟩ := List.mem_map.mp hev
  have hconn := connected_of_mem_plan w c [] _ _ p hp
  obtain ⟨hin, hread⟩ := hconn.input_end q
  obtain ⟨hout, hwrite⟩ := hconn.output_end q
  match fd with
  | 0 =>
    exact ⟨fun h => absurd (Option.some.inj h) hin, fun h => ⟨rfl, hread (Option.some.inj h)⟩⟩
  | 1 =>
    exact ⟨fun h => ⟨rfl, hwrite (Option.some.inj h)⟩, fun h => absurd (Option.some.inj h) hout⟩
  | 2 => exact ⟨nofun, nofun⟩
  | _ + 3 => exact ⟨nofun, nofun⟩

/-- `a | b`, when every call succeeds. -/
theorem held_of_mem_runcmd_pipe :
    let ev : Event := ⟨[false], .exec [ascii "a"], std (.inherited 0) (.writeEnd []) (.inherited 2)⟩
    ev ∈ runcmd ⟨fun _ => true, fun _ => true, fun _ _ => true⟩
      (.pipe (.exec [ascii "a"]) (.exec [ascii "b"])) []
      (std (.inherited 0) (.inherited 1) (.inherited 2)) ∧ [] ++ [false] <+: ev.place := by
  intro ev
  have h : ev ∈ runcmd ⟨fun _ => true, fun _ => true, fun _ _ => true⟩
      (.pipe (.exec [ascii "a"]) (.exec [ascii "b"])) []
      (std (.inherited 0) (.inherited 1) (.inherited 2)) := by
    rw [runcmd_eq_plan]
    exact List.mem_cons_self
  exact ⟨h, ((held_of_mem_runcmd _ _ 0 1 2 h 1 []).1 rfl).2⟩

end Sh

end Xv6

end SystemProgramming
