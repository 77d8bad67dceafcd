import SystemProgramming.MiniShell.Script
import Mathlib.Logic.Relation

/-!
# The states of a mini-shell

A shell changes its state in three places: when it executes the words of a line, when it exits
there, and when it executes a condition. `Step` has one constructor for each, for any line, so
`Reaches` is what any sequence of input lines can lead to; and a run of the real loops, with their
blocks and syntax errors, leads to nothing else (`tracks_mainLoop`).

## Why a relation

The states are reached by lines that nobody has chosen, through blocks whose lines are read ahead
and through errors that skip some of them. For an invariant of the state it does not matter which
lines those are. So the loops are looked at once, here, and an invariant is proved for one step
afterwards.

## Main definitions

* `Step`, `Reaches` — the states a shell can come to
* `Tracks` — a run that only visits such states

## Main results

* `invariant_of_reaches` — what every step keeps holds in all of them
* `tracks_mainLoop` — the loop of `main` visits no others
-/

namespace SystemProgramming

namespace MiniShell

namespace Interpreter

variable {σ ε : Type*} (I : Interpreter σ ε)

/-- What a shell in some state does with one line. -/
inductive Step : σ → σ → Prop
  /-- The words of a line are executed. -/
  | command {s s' : σ} {line : List UInt8} {args : List (List UInt8)} {warning log : List ε}
    (hparse : I.parseCommand s line = some (args, warning))
    (hexec : I.executeCommand s args = (log, .running s')) : Step s s'
  | exit {s s' : σ} {line : List UInt8} {args : List (List UInt8)} {warning log : List ε}
    (hparse : I.parseCommand s line = some (args, warning))
    (hexec : I.executeCommand s args = (log, .exited s')) : Step s s'
  /-- The words of a line are executed as a condition. -/
  | condition {s : σ} {line : List UInt8} {args : List (List UInt8)} {warning : List ε}
    (hparse : I.parseCommand s line = some (args, warning)) :
    Step s (I.executeExternalCommand s args).2.1

/-- Some lines lead from one state to another. -/
def Reaches : σ → σ → Prop := Relation.ReflTransGen I.Step

/-- A run whose states can be reached, also those in which words are executed. -/
structure Tracks (s : σ) (r : Run σ ε) : Prop where
  running : ∀ s', r.2 = .running s' → I.Reaches s s'
  exited : ∀ s', r.2 = .exited s' → I.Reaches s s'
  executed : ∀ n args, .executed n args ∈ r.1 → ∃ s' line warning, I.Reaches s s' ∧
    I.parseCommand s' line = some (args, warning)

variable {I}

/-- An invariant of the steps holds wherever they lead. -/
theorem invariant_of_reaches {P : σ → Prop} (hstep : ∀ s s', P s → I.Step s s' → P s')
    {s s' : σ} (hs : P s) (h : I.Reaches s s') : P s' := by
  induction h with
  | refl => exact hs
  | tail _ hlast ih => exact hstep _ _ ih hlast

theorem Tracks.of_reaches {s s' : σ} {r : Run σ ε} (hreach : I.Reaches s s')
    (h : I.Tracks s' r) : I.Tracks s r where
  running s'' hr := hreach.trans (h.running s'' hr)
  exited s'' hr := hreach.trans (h.exited s'' hr)
  executed n args he := by
    obtain ⟨s'', line, warning, hs'', hparse⟩ := h.executed n args he
    exact ⟨s'', line, warning, hreach.trans hs'', hparse⟩

/-- Doing nothing but report something. -/
theorem tracks_report (s : σ) (log : List ε) :
    I.Tracks s (log.map .effect, .running s) where
  running s' hr := by
    cases hr
    exact Relation.ReflTransGen.refl
  exited s' hr := by cases hr
  executed n args he := by simp at he

theorem tracks_nil (s : σ) : I.Tracks s ([], .running s) := tracks_report s []

theorem tracks_undefined (s : σ) : I.Tracks s ([], .undefined) where
  running s' hr := by cases hr
  exited s' hr := by cases hr
  executed n args he := absurd he List.not_mem_nil

theorem Tracks.andThen {s : σ} {r : Run σ ε} {next : σ → Run σ ε} (h : I.Tracks s r)
    (hnext : ∀ s', r.2 = .running s' → I.Tracks s' (next s')) : I.Tracks s (r.andThen next) := by
  obtain ⟨log, flow⟩ := r
  cases flow with
  | running s' =>
    have hrest := (hnext s' rfl).of_reaches (h.running s' rfl)
    refine ⟨hrest.running, hrest.exited, fun n args he => ?_⟩
    rcases List.mem_append.mp he with hlog | hnext'
    · exact h.executed n args hlog
    · exact hrest.executed n args hnext'
  | exited s' => exact h
  | undefined => exact h

/-- An event that is not the execution of words, before a run. -/
theorem Tracks.cons {s : σ} {r : Run σ ε} (h : I.Tracks s r) {e : Event ε}
    (he : ∀ n args, e ≠ .executed n args) : I.Tracks s (e :: r.1, r.2) where
  running := h.running
  exited := h.exited
  executed n args hmem := by
    rcases List.mem_cons.mp hmem with heq | hrest
    · exact absurd heq.symm (he n args)
    · exact h.executed n args hrest

/-! ### The loops -/

theorem tracks_runLine (s : σ) (n : ℕ) (line : List UInt8) : I.Tracks s (runLine I s n line) := by
  rw [runLine]
  cases hparse : I.parseCommand s line with
  | none => exact tracks_undefined s
  | some p =>
    obtain ⟨args, warning⟩ := p
    show I.Tracks s (warning.map .effect ++
      .executed n args :: (I.executeCommand s args).1.map .effect, (I.executeCommand s args).2)
    refine ⟨fun s' hr => ?_, fun s' hr => ?_, fun n' args' he => ?_⟩
    · exact .single (.command hparse (Prod.ext rfl hr))
    · exact .single (.exit hparse (Prod.ext rfl hr))
    · have hargs : args' = args := by simp_all
      exact ⟨s, line, warning, .refl, hargs ▸ hparse⟩

theorem tracks_runBlock : ∀ (block : List (ℕ × List UInt8)) (s : σ), I.Tracks s (runBlock I block s)
  | [], s => tracks_nil s
  | (n, line) :: block, s =>
    (tracks_runLine s n line).andThen fun s' _ => tracks_runBlock block s'

theorem tracks_runCondition (s : σ) (n : ℕ) (condLine : List UInt8)
    (block : List (ℕ × List UInt8)) : I.Tracks s (runCondition I s n condLine block) := by
  rw [runCondition]
  cases hparse : I.parseCommand s condLine with
  | none => exact tracks_undefined s
  | some p =>
    obtain ⟨args, warning⟩ := p
    refine Tracks.andThen (s := s) ⟨fun s' hr => ?_, fun s' hr => ?_, fun n' args' he => ?_⟩
      fun s' _ => ?_
    · cases hr
      exact .single (.condition hparse)
    · cases hr
    · simp at he
    · split
      · exact tracks_runBlock block s'
      · exact tracks_nil s'

theorem tracks_processLine (s : σ) (n : ℕ) (line : List UInt8) (input : Input) :
    I.Tracks s (processLine I s n line input).1 := by
  rw [processLine]
  split
  · exact tracks_nil s
  · split
    · rw [handleIfBlock]
      split
      · exact tracks_report s _
      · split
        · exact tracks_report s _
        · split
          · exact tracks_report s _
          · exact tracks_report s _
          · exact tracks_runCondition s n _ _
    · exact tracks_runLine s n line

/-- **A run visits only states that lines can lead to**, however many rounds it has made. -/
theorem tracks_mainLoop : ∀ (rounds : ℕ) (s : σ) (input : Input),
    I.Tracks s (mainLoop I rounds s input)
  | 0, s, _ => tracks_nil s
  | rounds + 1, s, input => by
    rw [mainLoop]
    split
    · exact tracks_nil s
    · rename_i line lines hlines
      exact ((tracks_processLine s input.position line ⟨input.position + 1, lines⟩).cons
        (by simp)).andThen fun s' _ => tracks_mainLoop rounds s' _

end Interpreter

end MiniShell

end SystemProgramming
