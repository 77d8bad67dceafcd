import SystemProgramming.Library.Descriptors
import SystemProgramming.Library.Machine

/-!
# The pipe

`lab9-lyjae/pipe.c` from `pipe(pipefd)` on: the parent, and the two children that become the
commands. Every call is one step, and the processes make their steps in any order. `pipe` and `fork`
may fail, and so may `execvp`. A command does what it likes with the descriptors it has; it starts
no process of its own.

## What is assumed

A process that has been started may be slow, but the calls of the parent do not depend on it until
it waits. Descriptors are handed out from the lowest that is free, as POSIX says, and a child begins
with a copy of those of its parent. What the two ends of the pipe do when they are read and written
is not looked at here, but for the end of file: it comes when no process holds the writing end.

A command that cannot be executed ends its child with status 1, after a message.

## How it goes

The state of a process is the line that it has come to and its table. The invariant says for each
line which descriptors refer to which end, and nothing more (`Child.Ok`, `State.ParentOk`): a step
of one process changes one table by one call, and the line behind it asks for the table that this
call leaves. What the other processes do has no influence, as nobody can touch the table of another
process; so the order of the steps plays no part.

That the other descriptors of a child are as they were needs the whole table, and is followed
separately (`Tables`). It ends at `execvp`, since a command does with its descriptors what it likes.
What the commands cannot do is to get hold of an end that they do not have.

## Main definitions

* `State`, `machine` — the program, from a table of descriptors
* `State.Arrived` — every process has come to its `execvp` or to its first `waitpid`
* `State.Wired`, `State.EndOfFile` — who holds the pipe then, and when the reader has read all

## Main results

* `Child.ok_step`, `invariant_step` — where the ends of the pipe are, line by line
* `tables_step` — the tables of the children, up to their `execvp`
* `wired_of_run` — the pipe is wired in every run
-/

namespace SystemProgramming

namespace Pipe

/-- The ends of the pipe. -/
inductive End
  | read
  | write
  deriving DecidableEq, Repr

def End.other : End → End
  | .read => .write
  | .write => .read

/-- An open file: one that was open at the start, or an end of the pipe. -/
inductive File (F : Type*)
  | inherited (f : F)
  | pipe (e : End)

inductive Child
  | cmd1
  | cmd2
  deriving DecidableEq, Repr

/-- `pipefd[0]` is the read end, and `pipefd[1]` the write end. -/
def descriptor (pipefd : ℕ × ℕ) : End → ℕ
  | .read => pipefd.1
  | .write => pipefd.2

/-- The end that the child keeps: it closes the other one. -/
def Child.keeps : Child → End
  | .cmd1 => .write
  | .cmd2 => .read

/-- `STDOUT_FILENO` for the first command, `STDIN_FILENO` for the second. -/
def Child.standard : Child → ℕ
  | .cmd1 => 1
  | .cmd2 => 0

/-- The call that comes next in a child. -/
inductive ChildLine
  /-- `close`, of the end that is not kept. -/
  | closeOther
  /-- `dup2`, of the end that is kept. -/
  | dup2
  /-- `close`, of the end that is kept. -/
  | close
  | execvp
  /-- The command runs. -/
  | command
  | exited
  deriving DecidableEq, Repr

structure Process (F : Type*) where
  line : ChildLine
  table : Table (File F)

/-- What a command does with its descriptors. -/
inductive Call (F : Type*)
  | close (fd : ℕ)
  | dup2 (old new : ℕ)
  | openFile (fd : ℕ) (f : F)
  | exit

inductive ChildAct (F : Type*)
  /-- The next call. -/
  | next
  | execvp (ok : Bool)
  | command (call : Call F)

/-- The call that comes next in the parent. -/
inductive Line
  | pipe
  | fork (c : Child)
  | close (e : End)
  | waitpid (c : Child)
  | returned
  /-- `exit(1)`, behind a `pipe` that failed. -/
  | exited
  deriving DecidableEq, Repr

/-- The parent, and the children that have been started. Before `pipe` nothing reads `pipefd`. -/
structure State (F : Type*) where
  line : Line
  pipefd : ℕ × ℕ
  table : Table (File F)
  children : Child → Option (Process F)

inductive Act (F : Type*)
  /-- `pipe` succeeds with these descriptors. -/
  | pipe (readFd writeFd : ℕ)
  | pipeFails
  | fork (ok : Bool)
  /-- A `close` of the parent, or the return of a `waitpid`. -/
  | parent
  | child (c : Child) (a : ChildAct F)

variable {F : Type*}

/-- A call of a command. -/
def Process.call (p : Process F) : Call F → Option (Process F)
  | .close fd => some { p with table := p.table.close fd }
  | .dup2 old new => some { p with table := p.table.dup2 old new }
  | .openFile fd f =>
    if p.table.IsLowestFree fd then some { p with table := p.table.install fd (.inherited f) }
    else none
  | .exit => some ⟨.exited, Table.empty⟩

/-- The branches `pid1 == 0` and `pid2 == 0`. -/
def Child.step (c : Child) (pipefd : ℕ × ℕ) (p : Process F) : ChildAct F → Option (Process F)
  | .next =>
    match p.line with
    | .closeOther => some ⟨.dup2, p.table.close (descriptor pipefd c.keeps.other)⟩
    | .dup2 => some ⟨.close, p.table.dup2 (descriptor pipefd c.keeps) c.standard⟩
    | .close => some ⟨.execvp, p.table.close (descriptor pipefd c.keeps)⟩
    | _ => none
  | .execvp ok =>
    if p.line = .execvp then some (if ok then ⟨.command, p.table⟩ else ⟨.exited, Table.empty⟩)
    else none
  | .command call => if p.line = .command then p.call call else none

/-- The child was not started, or it has ended. -/
def State.gone (s : State F) (c : Child) : Bool := (s.children c).all (·.line = .exited)

/-- `waitpid` returns. Where `fork` has failed it waits for any child that is left. -/
def State.waited (s : State F) : Child → Bool
  | .cmd1 => if (s.children .cmd1).isSome then s.gone .cmd1 else s.gone .cmd2
  | .cmd2 => s.gone .cmd2

/-- The rest of `main` in the parent. -/
def parent (s : State F) : Option (State F) :=
  match s.line with
  | .close .read =>
    some { s with line := .close .write, table := s.table.close (descriptor s.pipefd .read) }
  | .close .write =>
    some { s with line := .waitpid .cmd1, table := s.table.close (descriptor s.pipefd .write) }
  | .waitpid .cmd1 => if s.waited .cmd1 then some { s with line := .waitpid .cmd2 } else none
  | .waitpid .cmd2 =>
    if s.waited .cmd2 then some { s with line := .returned, table := Table.empty } else none
  | _ => none

/-- The line behind a `fork`. -/
def Child.behindFork : Child → Line
  | .cmd1 => .fork .cmd2
  | .cmd2 => .close .read

def execute (s : State F) : Act F → Option (State F)
  | .pipe readFd writeFd =>
    let table := s.table.install readFd (.pipe .read)
    if s.line = .pipe ∧ s.table.IsLowestFree readFd ∧ table.IsLowestFree writeFd then
      some { s with
        line := .fork .cmd1
        pipefd := (readFd, writeFd)
        table := table.install writeFd (.pipe .write) }
    else none
  | .pipeFails =>
    if s.line = .pipe then some { s with line := .exited, table := Table.empty } else none
  | .fork ok =>
    match s.line with
    | .fork c => some { s with
        line := c.behindFork
        children := if ok then Function.update s.children c (some ⟨.closeOther, s.table⟩)
          else s.children }
    | _ => none
  | .parent => parent s
  | .child c a => (s.children c).bind fun p => (c.step s.pipefd p a).map fun p' =>
      { s with children := Function.update s.children c (some p') }

/-- The table of `main` when it calls `pipe`. -/
def atStart (initial : Table F) : Table (File F) := fun fd => (initial fd).map .inherited

/-- The program, when these files are open at the start. -/
def machine (initial : Table F) : Machine (State F) (Act F) Empty where
  init := ⟨.pipe, (0, 0), atStart initial, fun _ => none⟩
  step s a := (execute s a).map fun s' => (s', [])

/-! ### The ends of the pipe in a table -/

/-- The descriptors of the end, and those of the other one. -/
def Ends (t : Table (File F)) (e : End) (own other : Set ℕ) : Prop :=
  t.holding (.pipe e) = own ∧ t.holding (.pipe e.other) = other

section Ends

variable {t : Table (File F)} {e : End} {own other : Set ℕ} {old : ℕ}

theorem End.ne_other : ∀ e : End, (.pipe e : File F) ≠ .pipe e.other
  | .read => by simp [End.other]
  | .write => by simp [End.other]

theorem ends_other : Ends t .read own other ↔ Ends t .write other own := and_comm

theorem Ends.close (h : Ends t e own other) (fd : ℕ) :
    Ends (t.close fd) e (own \ {fd}) (other \ {fd}) := by
  rw [Ends, Table.holding_close, Table.holding_close, h.1, h.2]
  exact ⟨rfl, rfl⟩

theorem Ends.install (h : Ends t e own other) (fd : ℕ) :
    Ends (t.install fd (.pipe e)) e (insert fd own) (other \ {fd}) := by
  rw [Ends, Table.holding_install_self, Table.holding_install_of_ne e.ne_other, h.1, h.2]
  exact ⟨rfl, rfl⟩

theorem Ends.dup2 (h : Ends t e own other) (hold : old ∈ own) (new : ℕ) :
    Ends (t.dup2 old new) e (insert new own) (other \ {new}) := by
  rw [Table.dup2_of_mem (h.1.symm ▸ hold : old ∈ t.holding (.pipe e))]
  exact h.install new

theorem ends_empty : Ends (Table.empty : Table (File F)) e ∅ ∅ :=
  ⟨Table.holding_empty, Table.holding_empty⟩

end Ends

/-! ### Line by line -/

/-- The descriptors of the pipe are apart from each other and from the standard ones. -/
def Apart (pipefd : ℕ × ℕ) : Prop := 3 ≤ pipefd.1 ∧ 3 ≤ pipefd.2 ∧ pipefd.1 ≠ pipefd.2

/-- Where a child that keeps `e` holds the ends of the pipe. -/
def Child.Ok (c : Child) (pipefd : ℕ × ℕ) (p : Process F) : Prop :=
  match p.line with
  | .closeOther =>
    Ends p.table c.keeps {descriptor pipefd c.keeps} {descriptor pipefd c.keeps.other}
  | .dup2 => Ends p.table c.keeps {descriptor pipefd c.keeps} ∅
  | .close => Ends p.table c.keeps {c.standard, descriptor pipefd c.keeps} ∅
  | .execvp => Ends p.table c.keeps {c.standard} ∅
  | .command => p.table.holding (.pipe c.keeps.other) = ∅
  | .exited => Ends p.table c.keeps ∅ ∅

/-- Where the parent holds them. -/
def State.ParentOk (s : State F) : Prop :=
  match s.line with
  | .pipe => Ends s.table .read ∅ ∅ ∧ (∀ fd < 3, s.table.IsOpen fd) ∧ ∀ c, s.children c = none
  | .fork _ | .close .read => Ends s.table .read {s.pipefd.1} {s.pipefd.2} ∧ Apart s.pipefd
  | .close .write => Ends s.table .read ∅ {s.pipefd.2}
  | .waitpid _ | .returned | .exited => Ends s.table .read ∅ ∅

structure Invariant (s : State F) : Prop where
  parent : s.ParentOk
  children : ∀ c p, s.children c = some p → Apart s.pipefd ∧ c.Ok s.pipefd p

section Step

variable {c : Child} {pipefd : ℕ × ℕ} {p p' : Process F} {s s' : State F}

theorem Apart.standard_ne (h : Apart pipefd) (c : Child) :
    descriptor pipefd c.keeps ≠ c.standard := by
  obtain ⟨h1, h2, -⟩ := h
  cases c <;> simp only [Child.keeps, Child.standard, descriptor] <;> omega

theorem Apart.other_ne (h : Apart pipefd) : ∀ e : End,
    descriptor pipefd e ≠ descriptor pipefd e.other
  | .read => h.2.2
  | .write => h.2.2.symm

/-- A call of a command gives it no end of the pipe that it did not have. -/
theorem holding_call {e : End} {call : Call F} (h : p.table.holding (.pipe e) = ∅)
    (hcall : p.call call = some p') : p'.table.holding (.pipe e) = ∅ := by
  cases call with
  | close fd =>
    obtain rfl := Option.some.inj hcall
    show (p.table.close fd).holding _ = ∅
    rw [Table.holding_close, h, Set.empty_sdiff]
  | dup2 old new =>
    obtain rfl := Option.some.inj hcall
    exact Table.holding_dup2_eq_empty h
  | openFile fd f =>
    obtain ⟨-, hopened⟩ := Option.ite_none_right_eq_some.mp hcall
    obtain rfl := Option.some.inj hopened
    show (p.table.install fd (.inherited f)).holding _ = ∅
    rw [Table.holding_install_of_ne (by simp), h, Set.empty_sdiff]
  | exit =>
    obtain rfl := Option.some.inj hcall
    exact Table.holding_empty

theorem line_call {call : Call F} (hcommand : p.line = .command)
    (hcall : p.call call = some p') : p'.line = .command ∨ p' = ⟨.exited, Table.empty⟩ := by
  cases call with
  | close fd | dup2 old new =>
    obtain rfl := Option.some.inj hcall
    exact Or.inl hcommand
  | openFile fd f =>
    obtain ⟨-, hopened⟩ := Option.ite_none_right_eq_some.mp hcall
    obtain rfl := Option.some.inj hopened
    exact Or.inl hcommand
  | exit =>
    obtain rfl := Option.some.inj hcall
    exact Or.inr rfl

/-- **A step of a child.** -/
theorem Child.ok_step {a : ChildAct F} (hapart : Apart pipefd) (h : c.Ok pipefd p)
    (hstep : c.step pipefd p a = some p') : c.Ok pipefd p' := by
  obtain ⟨line, table⟩ := p
  cases a with
  | next =>
    cases line with
    | closeOther =>
      obtain rfl := Option.some.inj hstep
      have hends : Ends table c.keeps _ _ := h
      have hclosed := hends.close (descriptor pipefd c.keeps.other)
      rwa [Set.sdiff_self, Set.sdiff_singleton_eq_self (by simpa using (hapart.other_ne _).symm)]
        at hclosed
    | dup2 =>
      obtain rfl := Option.some.inj hstep
      have hends : Ends table c.keeps _ _ := h
      have hcopied := hends.dup2 (Set.mem_singleton _) c.standard
      rwa [Set.empty_sdiff] at hcopied
    | close =>
      obtain rfl := Option.some.inj hstep
      have hends : Ends table c.keeps _ _ := h
      have hclosed := hends.close (descriptor pipefd c.keeps)
      rwa [Set.empty_sdiff,
        Set.insert_sdiff_eq_singleton (by simpa using (hapart.standard_ne c).symm)] at hclosed
    | execvp | command | exited => cases hstep
  | execvp ok =>
    obtain ⟨hline, hexecvp⟩ := Option.ite_none_right_eq_some.mp hstep
    obtain rfl : line = .execvp := hline
    obtain rfl := Option.some.inj hexecvp
    have hends : Ends table c.keeps _ _ := h
    cases ok with
    | true => exact hends.2
    | false => exact ends_empty
  | command call =>
    obtain ⟨hline, hcall⟩ := Option.ite_none_right_eq_some.mp hstep
    obtain rfl : line = .command := hline
    have hother : p'.table.holding (.pipe c.keeps.other) = ∅ := holding_call h hcall
    rcases line_call rfl hcall with hcommand | rfl
    · rw [Child.Ok, hcommand]
      exact hother
    · exact ends_empty

/-- A child starts with a copy of the table. -/
theorem Child.ok_fork {t : Table (File F)} (h : Ends t .read {pipefd.1} {pipefd.2}) :
    c.Ok pipefd ⟨.closeOther, t⟩ := by
  cases c with
  | cmd1 => exact ends_other.mp h
  | cmd2 => exact h

theorem update_eq_some {children : Child → Option (Process F)} {c' : Child} {q : Process F}
    (h : Function.update children c (some p) c' = some q) :
    c' = c ∧ q = p ∨ children c' = some q := by
  by_cases hc : c' = c
  · subst hc
    rw [Function.update_self] at h
    exact Or.inl ⟨rfl, (Option.some.inj h).symm⟩
  · rw [Function.update_of_ne hc] at h
    exact Or.inr h

/-- What `pipe` hands out. -/
theorem apart_of_free {t : Table (File F)} {readFd writeFd : ℕ} {f : File F}
    (hopen : ∀ fd < 3, t.IsOpen fd) (hread : t.IsLowestFree readFd)
    (hwrite : (t.install readFd f).IsLowestFree writeFd) : Apart (readFd, writeFd) := by
  refine ⟨Table.le_of_not_isOpen hopen hread.1,
    Table.le_of_not_isOpen (fun fd hfd => (hopen fd hfd).install) hwrite.1, ?_⟩
  intro heq
  have hsame : readFd = writeFd := heq
  exact hwrite.1 (by simp [Table.IsOpen, ← hsame])

theorem ends_pipe {t : Table (File F)} {readFd writeFd : ℕ} (h : Ends t .read ∅ ∅)
    (hne : readFd ≠ writeFd) :
    Ends ((t.install readFd (.pipe .read)).install writeFd (.pipe .write)) .read {readFd}
      {writeFd} := by
  have hread : Ends (t.install readFd (.pipe .read)) .read {readFd} ∅ := by
    simpa using h.install readFd
  have hwrite := (ends_other.mp hread).install writeFd
  rw [insert_empty_eq, Set.sdiff_singleton_eq_self (by simpa using hne.symm)] at hwrite
  exact ends_other.mpr hwrite

theorem invariant_pipe {readFd writeFd : ℕ} (h : Invariant s)
    (hstep : execute s (.pipe readFd writeFd) = some s') : Invariant s' := by
  obtain ⟨hparent, -⟩ := h
  obtain ⟨line, pipefd, table, children⟩ := s
  obtain ⟨⟨hline, hread, hwrite⟩, hpiped⟩ := Option.ite_none_right_eq_some.mp hstep
  obtain rfl : line = .pipe := hline
  obtain rfl := Option.some.inj hpiped
  obtain ⟨hends, hopen, hnone⟩ := hparent
  have hapart := apart_of_free hopen hread hwrite
  refine ⟨⟨ends_pipe hends hapart.2.2, hapart⟩, ?_⟩
  intro c p hp
  exact absurd ((hnone c).symm.trans hp) (by simp)

theorem invariant_fork {ok : Bool} (h : Invariant s) (hstep : execute s (.fork ok) = some s') :
    Invariant s' := by
  obtain ⟨hparent, hchildren⟩ := h
  obtain ⟨line, pipefd, table, children⟩ := s
  cases line with
  | fork c =>
    obtain rfl := Option.some.inj hstep
    obtain ⟨hends, hapart⟩ := hparent
    constructor
    · cases c with
      | cmd1 | cmd2 => exact ⟨hends, hapart⟩
    · intro c' p hp
      cases ok with
      | false => exact hchildren c' p hp
      | true =>
        have hupdated : Function.update children c (some ⟨.closeOther, table⟩) c' = some p := hp
        rcases update_eq_some hupdated with ⟨rfl, rfl⟩ | hold
        · exact ⟨hapart, Child.ok_fork hends⟩
        · exact hchildren c' p hold
  | pipe | close | waitpid | returned | exited => cases hstep

theorem invariant_parent (h : Invariant s) (hstep : parent s = some s') : Invariant s' := by
  obtain ⟨hparent, hchildren⟩ := h
  obtain ⟨line, pipefd, table, children⟩ := s
  cases line with
  | close e =>
    cases e with
    | read =>
      obtain rfl := Option.some.inj hstep
      obtain ⟨hends, hapart⟩ := hparent
      refine ⟨?_, hchildren⟩
      have hclosed := Ends.close hends pipefd.1
      rwa [Set.sdiff_self, Set.sdiff_singleton_eq_self (by simpa using hapart.2.2)] at hclosed
    | write =>
      obtain rfl := Option.some.inj hstep
      refine ⟨?_, hchildren⟩
      have hends : Ends table .read ∅ {pipefd.2} := hparent
      have hclosed := hends.close pipefd.2
      rwa [Set.sdiff_self, Set.empty_sdiff] at hclosed
  | waitpid c =>
    cases c with
    | cmd1 =>
      obtain ⟨-, hwaited⟩ := Option.ite_none_right_eq_some.mp hstep
      obtain rfl := Option.some.inj hwaited
      exact ⟨hparent, hchildren⟩
    | cmd2 =>
      obtain ⟨-, hwaited⟩ := Option.ite_none_right_eq_some.mp hstep
      obtain rfl := Option.some.inj hwaited
      exact ⟨ends_empty, hchildren⟩
  | pipe | fork | returned | exited => cases hstep

theorem invariant_child {a : ChildAct F} (h : Invariant s)
    (hstep : execute s (.child c a) = some s') : Invariant s' := by
  obtain ⟨hparent, hchildren⟩ := h
  obtain ⟨p, hp, hmap⟩ := Option.bind_eq_some_iff.mp hstep
  obtain ⟨p', hp', rfl⟩ := Option.map_eq_some_iff.mp hmap
  obtain ⟨hapart, hok⟩ := hchildren c p hp
  constructor
  · obtain ⟨line, pipefd, table, children⟩ := s
    cases line with
    | pipe =>
      obtain ⟨-, -, hnone⟩ := hparent
      exact absurd ((hnone c).symm.trans hp) (by simp)
    | close e => cases e with
      | read | write => exact hparent
    | fork | waitpid | returned | exited => exact hparent
  · intro c' q hq
    rcases update_eq_some hq with ⟨rfl, rfl⟩ | hold
    · exact ⟨hapart, Child.ok_step hapart hok hp'⟩
    · exact hchildren c' q hold

/-- **A step of the program.** -/
theorem invariant_step {a : Act F} (h : Invariant s) (hstep : execute s a = some s') :
    Invariant s' := by
  cases a with
  | pipe readFd writeFd => exact invariant_pipe h hstep
  | pipeFails =>
    obtain ⟨-, hfailed⟩ := Option.ite_none_right_eq_some.mp hstep
    obtain rfl := Option.some.inj hfailed
    exact ⟨ends_empty, h.children⟩
  | fork ok => exact invariant_fork h hstep
  | parent => exact invariant_parent h hstep
  | child c a => exact invariant_child h hstep

end Step

/-! ### The tables -/

/-- The table when the children are forked. -/
def piped (initial : Table F) (pipefd : ℕ × ℕ) : Table (File F) :=
  ((atStart initial).install pipefd.1 (.pipe .read)).install pipefd.2 (.pipe .write)

/-- The table of a child at the lines in front of its command. -/
def Child.tableAt (c : Child) (initial : Table F) (pipefd : ℕ × ℕ) :
    ChildLine → Option (Table (File F))
  | .closeOther => some (piped initial pipefd)
  | .dup2 => some ((piped initial pipefd).close (descriptor pipefd c.keeps.other))
  | .close => some (((piped initial pipefd).close (descriptor pipefd c.keeps.other)).dup2
      (descriptor pipefd c.keeps) c.standard)
  | .execvp => some ((((piped initial pipefd).close (descriptor pipefd c.keeps.other)).dup2
      (descriptor pipefd c.keeps) c.standard).close (descriptor pipefd c.keeps))
  | .command | .exited => none

/-- What is in the tables, as far as `main` has filled them. -/
structure Tables (initial : Table F) (s : State F) : Prop where
  atPipe : s.line = .pipe → s.table = atStart initial
  free : s.line ≠ .pipe → s.line ≠ .exited →
    initial s.pipefd.1 = none ∧ initial s.pipefd.2 = none
  atFork : ∀ c, s.line = .fork c → s.table = piped initial s.pipefd
  children : ∀ c p, s.children c = some p → ∀ t ∈ c.tableAt initial s.pipefd p.line, p.table = t

section Tables

variable {initial : Table F} {s s' : State F}

/-- Nothing changes but the calls that come behind. -/
theorem Child.tableAt_step {c : Child} {pipefd : ℕ × ℕ} {p p' : Process F} {a : ChildAct F}
    (h : ∀ t ∈ c.tableAt initial pipefd p.line, p.table = t)
    (hstep : c.step pipefd p a = some p') :
    ∀ t ∈ c.tableAt initial pipefd p'.line, p'.table = t := by
  obtain ⟨line, table⟩ := p
  cases a with
  | next =>
    cases line with
    | closeOther | dup2 | close =>
      obtain rfl := Option.some.inj hstep
      rintro t ht
      obtain rfl := Option.some.inj ht
      rw [show table = _ from h _ rfl]
    | execvp | command | exited => cases hstep
  | execvp ok =>
    obtain ⟨-, hexecvp⟩ := Option.ite_none_right_eq_some.mp hstep
    obtain rfl := Option.some.inj hexecvp
    cases ok with
    | true | false => exact fun t ht => nomatch ht
  | command call =>
    obtain ⟨hline, hcall⟩ := Option.ite_none_right_eq_some.mp hstep
    obtain rfl : line = .command := hline
    rcases line_call rfl hcall with hcommand | rfl
    · rw [hcommand]
      exact fun t ht => nomatch ht
    · exact fun t ht => nomatch ht

theorem not_isOpen_atStart {fd : ℕ} (h : ¬ (atStart initial).IsOpen fd) : initial fd = none := by
  simpa [Table.IsOpen, atStart] using h

/-- **A step of the program.** -/
theorem tables_step {a : Act F} (hinv : Invariant s) (h : Tables initial s)
    (hstep : execute s a = some s') : Tables initial s' := by
  obtain ⟨line, pipefd, table, children⟩ := s
  cases a with
  | pipe readFd writeFd =>
    obtain ⟨⟨hline, hread, hwrite⟩, hpiped⟩ := Option.ite_none_right_eq_some.mp hstep
    obtain rfl : line = .pipe := hline
    obtain rfl := Option.some.inj hpiped
    obtain rfl : table = atStart initial := h.atPipe rfl
    have hnone : ∀ c, children c = none := hinv.parent.2.2
    refine ⟨nofun, fun _ _ => ⟨not_isOpen_atStart hread.1, not_isOpen_atStart fun hopen => ?_⟩,
      fun _ _ => rfl, fun c p hp => absurd ((hnone c).symm.trans hp) nofun⟩
    exact hwrite.1 hopen.install
  | pipeFails =>
    obtain ⟨hline, hfailed⟩ := Option.ite_none_right_eq_some.mp hstep
    obtain rfl := Option.some.inj hfailed
    exact ⟨nofun, fun _ hne => absurd rfl hne, nofun, h.children⟩
  | fork ok =>
    cases line with
    | fork c =>
      obtain rfl := Option.some.inj hstep
      have htable : table = piped initial pipefd := h.atFork c rfl
      refine ⟨by cases c <;> nofun, fun _ _ => h.free nofun nofun, fun _ _ => htable, ?_⟩
      intro c' p hp
      cases ok with
      | false => exact h.children c' p hp
      | true =>
        rcases update_eq_some hp with ⟨rfl, rfl⟩ | hold
        · rintro t ht
          obtain rfl := Option.some.inj ht
          exact htable
        · exact h.children c' p hold
    | pipe | close | waitpid | returned | exited => cases hstep
  | parent =>
    have hparent : parent ⟨line, pipefd, table, children⟩ = some s' := hstep
    cases line with
    | close e =>
      cases e with
      | read | write =>
        obtain rfl := Option.some.inj hparent
        exact ⟨nofun, fun _ _ => h.free nofun nofun, nofun, h.children⟩
    | waitpid c =>
      cases c with
      | cmd1 | cmd2 =>
        obtain ⟨-, hwaited⟩ := Option.ite_none_right_eq_some.mp hparent
        obtain rfl := Option.some.inj hwaited
        exact ⟨nofun, fun _ _ => h.free nofun nofun, nofun, h.children⟩
    | pipe | fork | returned | exited => cases hparent
  | child c a =>
    obtain ⟨p, hp, hmap⟩ := Option.bind_eq_some_iff.mp hstep
    obtain ⟨p', hp', rfl⟩ := Option.map_eq_some_iff.mp hmap
    refine ⟨h.atPipe, h.free, h.atFork, fun c' q hq => ?_⟩
    rcases update_eq_some hq with ⟨rfl, rfl⟩ | hold
    · exact Child.tableAt_step (h.children c' p hp) hp'
    · exact h.children c' q hold

/-- Where a child calls `execvp`, its table is that of the start, but for the standard descriptor
that is the end of the pipe. -/
theorem Child.tableAt_execvp {c : Child} {pipefd : ℕ × ℕ} {t : Table (File F)}
    (hread : initial pipefd.1 = none) (hwrite : initial pipefd.2 = none)
    (ht : t ∈ c.tableAt initial pipefd .execvp) {fd : ℕ} (hfd : fd ≠ c.standard) :
    t fd = atStart initial fd := by
  obtain rfl := Option.some.inj ht
  have hstart : ∀ e, atStart initial (descriptor pipefd e) = none := by
    intro e
    cases e with
    | read => rw [atStart, descriptor, hread, Option.map_none]
    | write => rw [atStart, descriptor, hwrite, Option.map_none]
  by_cases hkeeps : fd = descriptor pipefd c.keeps
  · rw [hkeeps, Table.close_same, hstart]
  · rw [Table.close_of_ne hkeeps, Table.dup2_of_ne hfd]
    by_cases hother : fd = descriptor pipefd c.keeps.other
    · rw [hother, Table.close_same, hstart]
    · rw [Table.close_of_ne hother]
      have hends : fd ≠ pipefd.1 ∧ fd ≠ pipefd.2 := by
        cases c with
        | cmd1 => exact ⟨hother, hkeeps⟩
        | cmd2 => exact ⟨hkeeps, hother⟩
      rw [piped, Table.install_of_ne hends.2, Table.install_of_ne hends.1]

end Tables

/-! ### Every run -/

/-- Both children have been started, and every process has come to its `execvp` or to its first
`waitpid`, or is past it. -/
def State.Arrived (s : State F) : Prop :=
  (s.line = .waitpid .cmd1 ∨ s.line = .waitpid .cmd2 ∨ s.line = .returned) ∧
    ∀ c, ∃ p, s.children c = some p ∧
      (p.line = .execvp ∨ p.line = .command ∨ p.line = .exited)

/-- The parent holds no end of the pipe. A child that calls `execvp` holds the end that it keeps in
its standard descriptor and nowhere else, and all its other descriptors are as they were at the
start; and no child holds the end that it does not need, also when its command runs. -/
def State.Wired (initial : Table F) (s : State F) : Prop :=
  Ends s.table .read ∅ ∅ ∧ ∀ c, ∃ p, s.children c = some p ∧
    (p.line = .execvp → p.table.holding (.pipe c.keeps) = {c.standard} ∧
      ∀ fd ≠ c.standard, p.table fd = atStart initial fd) ∧
    p.table.holding (.pipe c.keeps.other) = ∅

/-- The write end of the pipe is not open in any process. -/
def State.EndOfFile (s : State F) : Prop :=
  s.table.holding (.pipe .write) = ∅ ∧
    ∀ c p, s.children c = some p → p.table.holding (.pipe .write) = ∅

section Runs

variable {initial : Table F} {as : List (Act F)} {s : State F} {es : List Empty}

theorem holding_atStart (e : End) : (atStart initial).holding (.pipe e) = ∅ := by
  ext fd
  simp [Table.mem_holding, atStart]

theorem isOpen_atStart {fd : ℕ} (h : initial.IsOpen fd) : (atStart initial).IsOpen fd := by
  have hopen : initial fd ≠ none := h
  simpa [Table.IsOpen, atStart] using hopen

theorem invariant_init (hstandard : ∀ fd < 3, initial.IsOpen fd) :
    Invariant (machine initial).init := by
  constructor
  · exact ⟨⟨holding_atStart .read, holding_atStart .write⟩,
      fun fd hfd => isOpen_atStart (hstandard fd hfd), fun _ => rfl⟩
  · intro c p hp
    cases hp

theorem invariant_run (hstandard : ∀ fd < 3, initial.IsOpen fd)
    (h : (machine initial).run as = some (s, es)) : Invariant s := by
  refine Machine.run_invariant_state (invariant_init hstandard) ?_ h
  intro s a s' es' hs hstep
  obtain ⟨s₁, h₁, heq⟩ := Option.map_eq_some_iff.mp hstep
  obtain ⟨rfl, -⟩ := Prod.mk.inj heq
  exact invariant_step hs h₁

/-- Where a process has arrived, it does not hold the end that it does not need. -/
theorem Child.Ok.other_eq_empty {c : Child} {pipefd : ℕ × ℕ} {p : Process F}
    (h : c.Ok pipefd p) (hline : p.line = .execvp ∨ p.line = .command ∨ p.line = .exited) :
    p.table.holding (.pipe c.keeps.other) = ∅ := by
  rcases hline with hline | hline | hline
  · rw [Child.Ok, hline] at h
    exact h.2
  · rw [Child.Ok, hline] at h
    exact h
  · rw [Child.Ok, hline] at h
    exact h.2

theorem tables_init (initial : Table F) : Tables initial (machine initial).init :=
  ⟨fun _ => rfl, fun hne => absurd rfl hne, nofun, nofun⟩

theorem tables_run (hstandard : ∀ fd < 3, initial.IsOpen fd)
    (h : (machine initial).run as = some (s, es)) : Tables initial s := by
  refine (Machine.run_invariant_state (I := fun s => Invariant s ∧ Tables initial s)
    ⟨invariant_init hstandard, tables_init initial⟩ ?_ h).2
  rintro s a s' es' ⟨hinv, htables⟩ hstep
  obtain ⟨s₁, h₁, heq⟩ := Option.map_eq_some_iff.mp hstep
  obtain ⟨rfl, -⟩ := Prod.mk.inj heq
  exact ⟨invariant_step hinv h₁, tables_step hinv htables h₁⟩

theorem Invariant.wired (h : Invariant s) (htables : Tables initial s) (harrived : s.Arrived) :
    s.Wired initial := by
  obtain ⟨hparent, hchildren⟩ := h
  obtain ⟨hline, hlines⟩ := harrived
  constructor
  · rcases hline with hline | hline | hline
    · rwa [State.ParentOk, hline] at hparent
    · rwa [State.ParentOk, hline] at hparent
    · rwa [State.ParentOk, hline] at hparent
  · intro c
    obtain ⟨p, hp, hplace⟩ := hlines c
    obtain ⟨-, hok⟩ := hchildren c p hp
    refine ⟨p, hp, fun hexecvp => ?_, hok.other_eq_empty hplace⟩
    have htable := htables.children c p hp
    rw [Child.Ok, hexecvp] at hok
    rw [hexecvp] at htable
    obtain ⟨hread, hwrite⟩ : initial s.pipefd.1 = none ∧ initial s.pipefd.2 = none := by
      refine htables.free ?_ ?_
      · rcases hline with hline | hline | hline <;> simp [hline]
      · rcases hline with hline | hline | hline <;> simp [hline]
    refine ⟨hok.1, fun fd hfd => ?_⟩
    rw [htable _ rfl]
    exact Child.tableAt_execvp hread hwrite rfl hfd

/-- When the first command has ended, no process has the write end open. -/
theorem Invariant.endOfFile (h : Invariant s) (hwired : s.Wired initial) (hgone : s.gone .cmd1) :
    s.EndOfFile := by
  obtain ⟨⟨-, hwrite⟩, hothers⟩ := hwired
  refine ⟨hwrite, ?_⟩
  intro c p hp
  cases c with
  | cmd1 =>
    rw [State.gone, hp] at hgone
    have hexited : p.line = .exited := of_decide_eq_true hgone
    obtain ⟨-, hok⟩ := h.children .cmd1 p hp
    rw [Child.Ok, hexited] at hok
    exact hok.1
  | cmd2 =>
    obtain ⟨q, hq, -, hother⟩ := hothers .cmd2
    obtain rfl := Option.some.inj (hp.symm.trans hq)
    exact hother

/-- **The pipe is wired**, whatever files are open besides the three standard ones, and however the
processes move: where both children have been started and all three have arrived, each end is where
it is needed and nowhere else, and when the first command has ended the second one reads the end of
the file. -/
theorem wired_of_run (hstandard : ∀ fd < 3, initial.IsOpen fd)
    (h : (machine initial).run as = some (s, es)) (harrived : s.Arrived) :
    s.Wired initial ∧ (s.gone .cmd1 → s.EndOfFile) := by
  have hinv := invariant_run hstandard h
  have hwired := hinv.wired (tables_run hstandard h) harrived
  exact ⟨hwired, hinv.endOfFile hwired⟩

/-- Only the three standard files are open. -/
def terminal : Table ℕ := fun fd => if fd < 3 then some fd else none

/-- The three processes in turns, up to the `execvp` of both children. -/
def turns : List (Act ℕ) :=
  [.pipe 3 4, .fork true, .child .cmd1 .next, .fork true, .child .cmd2 .next, .parent,
    .child .cmd1 .next, .child .cmd1 .next, .child .cmd2 .next, .parent, .child .cmd2 .next]

/-- The first command ends while the second one runs. -/
def turnsOn : List (Act ℕ) :=
  turns ++ [.child .cmd1 (.execvp true), .child .cmd2 (.execvp true), .child .cmd1 (.command .exit)]

/-- Both children are at their `execvp` with the pipe in its place and the other standard files
where they were; and the second command comes to the end of the file. -/
theorem wired_turns :
    (∃ s p q, (machine terminal).run turns = some (s, []) ∧
      s.children .cmd1 = some p ∧ p.line = .execvp ∧ p.table.holding (.pipe .write) = {1} ∧
      p.table 0 = some (.inherited 0) ∧
      s.children .cmd2 = some q ∧ q.line = .execvp ∧ q.table.holding (.pipe .read) = {0} ∧
      q.table 1 = some (.inherited 1)) ∧
    ∃ s, (machine terminal).run turnsOn = some (s, []) ∧ s.EndOfFile := by
  have hstandard : ∀ fd < 3, terminal.IsOpen fd := by decide
  constructor
  · have hrun : (machine terminal).run turns = some (_, []) := rfl
    have harrived := wired_of_run hstandard hrun ⟨Or.inl rfl, fun c => ?_⟩
    · obtain ⟨p, hp, hwrite, -⟩ := harrived.1.2 .cmd1
      obtain ⟨q, hq, hread, -⟩ := harrived.1.2 .cmd2
      have hpline : p.line = .execvp := by
        obtain rfl := Option.some.inj hp
        rfl
      have hqline : q.line = .execvp := by
        obtain rfl := Option.some.inj hq
        rfl
      exact ⟨_, p, q, hrun, hp, hpline, (hwrite hpline).1, (hwrite hpline).2 0 (by decide), hq,
        hqline, (hread hqline).1, (hread hqline).2 1 (by decide)⟩
    · cases c with
      | cmd1 | cmd2 => exact ⟨_, rfl, Or.inl rfl⟩
  · have hrun : (machine terminal).run turnsOn = some (_, []) := rfl
    refine ⟨_, hrun, (wired_of_run hstandard hrun ⟨Or.inl rfl, fun c => ?_⟩).2 rfl⟩
    cases c with
    | cmd1 => exact ⟨_, rfl, Or.inr (Or.inr rfl)⟩
    | cmd2 => exact ⟨_, rfl, Or.inr (Or.inl rfl)⟩

end Runs

end Pipe

end SystemProgramming
