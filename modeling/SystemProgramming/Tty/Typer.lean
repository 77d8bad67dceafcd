import Mathlib.Algebra.Order.Ring.Int
import Mathlib.Data.Nat.Count
import SystemProgramming.Library.CString
import SystemProgramming.Library.Ensures
import SystemProgramming.Library.LineEdit

/-!
# The typing trainer

`lab4-lyjae/typer.c`: the input loop of `main`, which compares what is typed with the target. A step
is an iteration. At the end of the input `read` returns 0, or it fails; it then leaves `c` as it is,
and the action is the value that `c` has in this iteration before anything is stored in it.

## What is left out

The times and the speed that is computed of them are left out, as is what is echoed. Behind the
array `user_input` there is memory here, which is all 0 in the beginning, and every store is
recorded with its index; with a target of at most `MAX_INPUT` bytes none of them is outside. A key
that erases takes back what was counted for the key it erases, and this is what the specification by
`Library.LineEdit` is about.

## How it goes

An iteration takes one key, and `Counters` says what array, counters and target have to do with the
line that the keys leave. It is kept by a character and by an erasure (`Counters.body`), whatever
has been typed before, as the counters are changed at the one place that changes. The line is full
when the loop ends, so `typed` and `edited` agree on all keys that are taken (`Invariant.typed_eq`).

At the end of the input `read` returns 0. The loop does not look for that, and takes the old value
of `c` for another key: characters are counted that nobody has typed, or, if the last key was an
erasing one, the loop goes on for ever. A `read` that fails leaves the loop. `Sufficient` is what
keeps both away.

## Main definitions

* `machine` — the loop
* `keys`, `delivered` — what the loop has taken for keys, and what `read` has delivered
* `Counters` — the counters, the line and the keys agree

## Main results

* `Counters.body` — a key keeps them in agreement
* `counters_of_run` — they agree in every run
* `counts_typed_iff` — when the loop stops, stays in `user_input` and counts only what was typed
-/

namespace SystemProgramming

namespace Typer

def maxInput : ℕ := 1024

/-- What `read` does behind the last byte. -/
inductive Ending
  /-- It returns 0. -/
  | ends
  /-- It returns -1. -/
  | fails
  deriving DecidableEq

/-- What is typed. -/
structure Stream where
  bytes : List UInt8
  ending : Ending

inductive Status
  | running
  /-- The loop has been left. -/
  | left
  deriving DecidableEq

structure State where
  status : Status
  /-- What `read` has not delivered yet. -/
  stdin : List UInt8
  /-- The array, and the memory behind it. -/
  userInput : ℕ → UInt8
  idx : ℕ
  typedCount : ℤ
  correct : ℤ

inductive Event
  /-- A key that `read` has delivered. -/
  | key (c : UInt8)
  /-- What `c` was when `read` had nothing to deliver. -/
  | stale (c : UInt8)
  /-- A store to `user_input[i]`. -/
  | store (i : ℕ)

def Ending.result : Ending → ℤ
  | .ends => 0
  | .fails => -1

/-- `read(STDIN_FILENO, &c, 1)`: what it returns, and what is in `c` and in the input then. -/
def read (ending : Ending) (stdin : List UInt8) (c : UInt8) : ℤ × UInt8 × List UInt8 :=
  match stdin with
  | [] => (ending.result, c, [])
  | key :: stdin => (1, key, stdin)

/-- The iteration behind the `read`. -/
def body (target : List UInt8) (s : State) (c : UInt8) : State × List Event :=
  if isEraseKey c then
    if 0 < s.idx then
      let idx := s.idx - 1
      ({ s with
          idx := idx
          typedCount := s.typedCount - 1
          correct := if s.userInput idx = charAt target idx then s.correct - 1 else s.correct }, [])
    else (s, [])
  else
    ({ s with
        userInput := Function.update s.userInput s.idx c
        correct := if c = charAt target s.idx then s.correct + 1 else s.correct
        idx := s.idx + 1
        typedCount := s.typedCount + 1 }, [.store s.idx])

/-- `while (idx < target_len)`, once. -/
def step (target : List UInt8) (ending : Ending) (s : State) (c : UInt8) :
    Option (State × List Event) :=
  if s.status = .running then
    if s.idx < target.length then
      let (result, key, stdin) := read ending s.stdin c
      if result < 0 then some ({ s with status := .left }, [])
      else
        let p := body target { s with stdin } key
        some (p.1, (if 0 < result then .key key else .stale key) :: p.2)
    else some ({ s with status := .left }, [])
  else none

/-- The loop, with everything 0 in the beginning. -/
def machine (target : List UInt8) (stream : Stream) : Machine State UInt8 Event where
  init := ⟨.running, stream.bytes, fun _ => 0, 0, 0, 0⟩
  step := step target stream.ending

/-- The values of `c`, one for each iteration that has got behind the `read`. -/
def keys (es : List Event) : List UInt8 :=
  es.filterMap fun
    | .key c => some c
    | .stale c => some c
    | .store _ => none

/-- The bytes that `read` has delivered. -/
def delivered (es : List Event) : List UInt8 :=
  es.filterMap fun
    | .key c => some c
    | .stale _ => none
    | .store _ => none

/-! ### One key -/

section Body

variable {target line : List UInt8} {s : State} {c : UInt8}

/-- What the array, the counters and the target say of each other when the line is `line`. -/
structure Counters (target line : List UInt8) (s : State) : Prop where
  idx_eq : (s.idx : ℤ) = s.typedCount
  idx_le : s.idx ≤ target.length
  text_eq : (List.range s.idx).map s.userInput = line
  correct_eq : s.correct = Nat.count (fun i => s.userInput i = charAt target i) s.idx

theorem Counters.length_eq (h : Counters target line s) : line.length = s.idx := by
  rw [← h.text_eq, List.length_map, List.length_range]

theorem map_range_update (f : ℕ → UInt8) (n : ℕ) (c : UInt8) :
    (List.range n).map (Function.update f n c) = (List.range n).map f := by
  refine List.map_congr_left ?_
  intro i hi
  exact Function.update_of_ne (List.mem_range.mp hi).ne _ _

theorem count_update (f : ℕ → UInt8) (g : ℕ → UInt8) (n : ℕ) (c : UInt8) :
    Nat.count (fun i => Function.update f n c i = g i) n = Nat.count (fun i => f i = g i) n := by
  rw [Nat.count_eq_card_filter_range, Nat.count_eq_card_filter_range]
  congr 1
  refine Finset.filter_congr ?_
  intro i hi
  rw [Function.update_of_ne (Finset.mem_range.mp hi).ne]

theorem body_erase_empty (hc : isEraseKey c = true) (hidx : s.idx = 0) :
    Typer.body target s c = (s, []) := by
  rw [Typer.body, if_pos hc, if_neg (by omega)]

/-- **A key** keeps the counters right. -/
theorem Counters.body (h : Counters target line s) (hroom : s.idx < target.length) (c : UInt8) :
    Counters target (edit isEraseKey line c) (Typer.body target s c).1 := by
  cases hc : isEraseKey c with
  | true =>
    rw [edit_erase hc]
    rcases Nat.eq_zero_or_pos s.idx with hidx | hidx
    · obtain rfl : line = [] := List.eq_nil_of_length_eq_zero (h.length_eq.trans hidx)
      rw [body_erase_empty hc hidx]
      exact h
    · obtain ⟨n, hn⟩ : ∃ n, s.idx = n + 1 := ⟨s.idx - 1, by omega⟩
      have htext := h.text_eq
      have hcorrect := h.correct_eq
      have hcount := h.idx_eq
      have hle := h.idx_le
      rw [hn, List.range_succ, List.map_append] at htext
      rw [hn, Nat.count_succ] at hcorrect
      rw [Typer.body, if_pos hc, if_pos hidx, hn]
      refine ⟨?_, ?_, ?_, ?_⟩
      · show (n : ℤ) = s.typedCount - 1
        omega
      · show n ≤ target.length
        omega
      · show (List.range n).map s.userInput = line.dropLast
        rw [← htext, List.map_singleton, List.dropLast_concat]
      · show (if s.userInput n = charAt target n then s.correct - 1 else s.correct) = _
        rw [hcorrect]
        split_ifs <;> push_cast <;> omega
  | false =>
    rw [edit_char hc, Typer.body, hc]
    refine ⟨?_, hroom, ?_, ?_⟩
    · show ((s.idx + 1 : ℕ) : ℤ) = s.typedCount + 1
      rw [← h.idx_eq]
      rfl
    · show (List.range (s.idx + 1)).map (Function.update s.userInput s.idx c) = line ++ [c]
      rw [List.range_succ, List.map_append, map_range_update, h.text_eq, List.map_singleton,
        Function.update_self]
    · show (if c = charAt target s.idx then s.correct + 1 else s.correct) =
        ((Nat.count (fun i => Function.update s.userInput s.idx c i = charAt target i)
          (s.idx + 1) : ℕ) : ℤ)
      rw [Nat.count_succ, count_update, Function.update_self, h.correct_eq]
      split_ifs <;> simp

@[simp] theorem body_status (target : List UInt8) (s : State) (c : UInt8) :
    (Typer.body target s c).1.status = s.status := by
  rw [Typer.body]
  split_ifs <;> rfl

@[simp] theorem body_stdin (target : List UInt8) (s : State) (c : UInt8) :
    (Typer.body target s c).1.stdin = s.stdin := by
  rw [Typer.body]
  split_ifs <;> rfl

/-- The only event is a store at `idx`, which then is one further on. -/
theorem body_events (target : List UInt8) (s : State) (c : UInt8) :
    (Typer.body target s c).2 = [] ∧ (Typer.body target s c).1.idx ≤ s.idx ∨
      (Typer.body target s c).2 = [.store s.idx] ∧
        (Typer.body target s c).1.idx = s.idx + 1 := by
  rw [Typer.body]
  by_cases hc : isEraseKey c = true
  · rw [if_pos hc]
    by_cases hidx : 0 < s.idx
    · rw [if_pos hidx]
      exact Or.inl ⟨rfl, Nat.sub_le _ _⟩
    · rw [if_neg hidx]
      exact Or.inl ⟨rfl, le_rfl⟩
  · rw [if_neg hc]
    exact Or.inr ⟨rfl, rfl⟩

theorem body_idx (target : List UInt8) (s : State) (c : UInt8) :
    (Typer.body target s c).1.idx = if isEraseKey c then s.idx - 1 else s.idx + 1 := by
  rw [Typer.body]
  by_cases hc : isEraseKey c = true
  · rw [if_pos hc, if_pos hc]
    by_cases hidx : 0 < s.idx
    · rw [if_pos hidx]
    · rw [if_neg hidx]
      show s.idx = s.idx - 1
      omega
  · rw [if_neg hc, if_neg hc]

theorem mem_body_events {e : Event} (h : e ∈ (Typer.body target s c).2) : e = .store s.idx := by
  rcases body_events target s c with ⟨hnone, -⟩ | ⟨hstore, -⟩
  · rw [hnone] at h
    cases h
  · rw [hstore] at h
    exact List.mem_singleton.mp h

theorem keys_body (target : List UInt8) (s : State) (c : UInt8) :
    keys (Typer.body target s c).2 = [] := by
  rcases body_events target s c with ⟨h, -⟩ | ⟨h, -⟩ <;> rw [h] <;> rfl

theorem delivered_body (target : List UInt8) (s : State) (c : UInt8) :
    delivered (Typer.body target s c).2 = [] := by
  rcases body_events target s c with ⟨h, -⟩ | ⟨h, -⟩ <;> rw [h] <;> rfl

end Body

/-! ### One iteration -/

section Runs

variable {target : List UInt8} {stream : Stream} {s s' : State} {c : UInt8} {es es' : List Event}

theorem exists_step (hrunning : s.status = .running) :
    ∃ c p, (machine target stream).step s c = some p := by
  refine ⟨0, ?_⟩
  show ∃ p, step target stream.ending s 0 = some p
  rw [step, if_pos hrunning]
  by_cases hroom : s.idx < target.length
  · rw [if_pos hroom]
    by_cases hfails : (read stream.ending s.stdin 0).1 < 0
    · exact ⟨_, if_pos hfails⟩
    · exact ⟨_, if_neg hfails⟩
  · rw [if_neg hroom]
    exact ⟨_, rfl⟩

/-- An iteration leaves the loop, or works on a key, or on the `c` that was there before. -/
theorem step_cases {ending : Ending} (h : step target ending s c = some (s', es')) :
    s.status = .running ∧
      ((target.length ≤ s.idx ∨ s.stdin = [] ∧ ending = .fails) ∧
          s' = { s with status := .left } ∧ es' = [] ∨
        (∃ key stdin, s.idx < target.length ∧ s.stdin = key :: stdin ∧
          s' = (body target { s with stdin := stdin } key).1 ∧
          es' = .key key :: (body target { s with stdin := stdin } key).2) ∨
        s.idx < target.length ∧ s.stdin = [] ∧ ending = .ends ∧ s' = (body target s c).1 ∧
          es' = .stale c :: (body target s c).2) := by
  obtain ⟨status, stdin, userInput, idx, typedCount, correct⟩ := s
  by_cases hrunning : status = .running
  · rw [step, if_pos hrunning] at h
    refine ⟨hrunning, ?_⟩
    by_cases hroom : idx < target.length
    · rw [if_pos hroom] at h
      cases stdin with
      | nil =>
        cases ending with
        | ends =>
          obtain ⟨rfl, rfl⟩ := Prod.mk.inj (Option.some.inj h)
          exact Or.inr (Or.inr ⟨hroom, rfl, rfl, rfl, rfl⟩)
        | fails =>
          obtain ⟨rfl, rfl⟩ := Prod.mk.inj (Option.some.inj h)
          exact Or.inl ⟨Or.inr ⟨rfl, rfl⟩, rfl, rfl⟩
      | cons key stdin =>
        obtain ⟨rfl, rfl⟩ := Prod.mk.inj (Option.some.inj h)
        exact Or.inr (Or.inl ⟨key, stdin, hroom, rfl, rfl, rfl⟩)
    · rw [if_neg hroom] at h
      obtain ⟨rfl, rfl⟩ := Prod.mk.inj (Option.some.inj h)
      exact Or.inl ⟨Or.inl (Nat.le_of_not_lt hroom), rfl, rfl⟩
  · rw [step, if_neg hrunning] at h
    cases h

@[simp] theorem keys_append (es es' : List Event) : keys (es ++ es') = keys es ++ keys es' :=
  List.filterMap_append

@[simp] theorem delivered_append (es es' : List Event) :
    delivered (es ++ es') = delivered es ++ delivered es' :=
  List.filterMap_append

/-- Where `read` had something to deliver in every iteration, the keys are what it delivered. -/
theorem keys_eq_delivered (h : ∀ c, .stale c ∉ es) : keys es = delivered es := by
  refine List.filterMap_congr ?_
  intro e he
  cases e with
  | key c => rfl
  | stale c => exact absurd he (h c)
  | store i => rfl

/-- What the events of a run say of its last state. -/
structure Invariant (target : List UInt8) (stream : Stream) (es : List Event) (s : State) :
    Prop where
  counters : Counters target (edited isEraseKey (keys es)) s
  typed_eq : typed isEraseKey target.length (keys es) = edited isEraseKey (keys es)
  delivered_eq : delivered es ++ s.stdin = stream.bytes
  store_typed : ∀ i, .store i ∈ es → ∃ ks, ks <+: keys es ∧
    (typed isEraseKey target.length ks).length = i + 1
  store_mem : ∀ i < s.idx, .store i ∈ es

/-- A key, wherever it comes from. -/
theorem Invariant.body (h : Invariant target stream es s) (hroom : s.idx < target.length)
    (key : UInt8) {e : Event} (stdin : List UInt8) (hkeys : keys [e] = [key])
    (hdelivered : delivered [e] ++ stdin = s.stdin) (hstore : ∀ i, e ≠ .store i) :
    Invariant target stream (es ++ e :: (Typer.body target { s with stdin := stdin } key).2)
      (Typer.body target { s with stdin := stdin } key).1 := by
  have hcounters : Counters target (edited isEraseKey (keys es)) { s with stdin := stdin } :=
    ⟨h.counters.idx_eq, h.counters.idx_le, h.counters.text_eq, h.counters.correct_eq⟩
  have hall : keys (es ++ e :: (Typer.body target { s with stdin := stdin } key).2) =
      keys es ++ [key] := by
    rw [keys_append, ← List.singleton_append, keys_append, keys_body, hkeys, List.append_nil]
  have hedited : Counters target (edited isEraseKey (keys es ++ [key]))
      (Typer.body target { s with stdin := stdin } key).1 := by
    rw [edited_concat]
    exact hcounters.body hroom key
  have htyped : typed isEraseKey target.length (keys es ++ [key]) =
      edited isEraseKey (keys es ++ [key]) := by
    have hline : (edited isEraseKey (keys es)).length < target.length := by
      rw [h.counters.length_eq]
      exact hroom
    rw [typed_concat, h.typed_eq, press_of_lt hline, edited_concat]
  refine ⟨?_, ?_, ?_, ?_, ?_⟩
  · rw [hall]
    exact hedited
  · rw [hall]
    exact htyped
  · rw [delivered_append, ← List.singleton_append, delivered_append, delivered_body,
      List.append_nil, List.append_assoc, body_stdin, hdelivered, h.delivered_eq]
  · intro i hi
    rw [hall]
    rcases List.mem_append.mp hi with hi | hi
    · obtain ⟨ks, hks, hlength⟩ := h.store_typed i hi
      exact ⟨ks, hks.trans (List.prefix_append _ _), hlength⟩
    · rcases List.mem_cons.mp hi with hi | hi
      · exact absurd hi.symm (hstore i)
      · rcases body_events target { s with stdin := stdin } key with ⟨hnone, -⟩ | ⟨hone, hidx⟩
        · rw [hnone] at hi
          cases hi
        · rw [hone, List.mem_singleton, Event.store.injEq] at hi
          refine ⟨_, List.prefix_rfl, ?_⟩
          rw [htyped, hedited.length_eq, hidx, hi]
  · intro i hi
    rcases body_events target { s with stdin := stdin } key with ⟨hnone, hidx⟩ | ⟨hone, hidx⟩
    · exact List.mem_append_left _ (h.store_mem i (lt_of_lt_of_le hi hidx))
    · rw [hidx, Nat.lt_succ_iff_lt_or_eq] at hi
      rcases hi with hi | rfl
      · exact List.mem_append_left _ (h.store_mem i hi)
      · refine List.mem_append_right _ (List.mem_cons_of_mem _ ?_)
        rw [hone]
        exact List.mem_singleton.mpr rfl

/-- **An iteration** keeps it. -/
theorem Invariant.step (h : Invariant target stream es s)
    (hstep : Typer.step target stream.ending s c = some (s', es')) :
    Invariant target stream (es ++ es') s' := by
  obtain ⟨-, ⟨-, rfl, rfl⟩ | ⟨key, stdin, hroom, hstdin, rfl, rfl⟩ |
    ⟨hroom, hstdin, -, rfl, rfl⟩⟩ := step_cases hstep
  · rw [List.append_nil]
    exact ⟨⟨h.counters.idx_eq, h.counters.idx_le, h.counters.text_eq, h.counters.correct_eq⟩,
      h.typed_eq, h.delivered_eq, h.store_typed, h.store_mem⟩
  · exact h.body hroom key stdin rfl hstdin.symm (fun _ => Event.noConfusion)
  · exact h.body hroom c s.stdin rfl rfl (fun _ => Event.noConfusion)

theorem invariant_of_run {as : List UInt8} (h : (machine target stream).run as = some (s, es)) :
    Invariant target stream es s := by
  refine Machine.run_invariant (I := Invariant target stream) ?_ ?_ h
  · refine ⟨⟨rfl, Nat.zero_le _, rfl, rfl⟩, rfl, rfl, ?_, ?_⟩
    · intro i hi
      cases hi
    · intro i hi
      exact absurd hi (Nat.not_lt_zero i)
  · intro es s c s' es' hI hstep
    exact hI.step hstep

/-- **The score is right.** Before every iteration and behind the last one, `idx` and `typed_count`
agree, the array holds what the keys have left, and `correct` counts the characters of it that
agree with the target. As long as `read` has something to deliver, the keys are what is typed. -/
theorem counters_of_run (hlen : target.length ≤ maxInput) {as : List UInt8}
    (h : (machine target stream).run as = some (s, es)) :
    (s.idx : ℤ) = s.typedCount ∧ s.idx ≤ target.length ∧
      (List.range s.idx).map s.userInput = edited isEraseKey (keys es) ∧
      s.correct = Nat.count (fun i => s.userInput i = charAt target i) s.idx ∧
      (∀ i, .store i ∈ es → i < maxInput) ∧ delivered es ++ s.stdin = stream.bytes ∧
      ((∀ c, .stale c ∉ es) → keys es = delivered es) := by
  have hI := invariant_of_run h
  refine ⟨hI.counters.idx_eq, hI.counters.idx_le, hI.counters.text_eq, hI.counters.correct_eq,
    ?_, hI.delivered_eq, keys_eq_delivered⟩
  intro i hi
  obtain ⟨ks, -, hlength⟩ := hI.store_typed i hi
  have hle : (typed isEraseKey target.length ks).length ≤ target.length := length_typed_le ks
  omega

/-- `x`, an erased `x`, and `a`. -/
theorem counters_of_correction : ∃ s es,
    (machine (ascii "ab") ⟨[120, 8, 97], .ends⟩).run [0, 0, 0] = some (s, es) ∧
      (List.range s.idx).map s.userInput = ascii "a" := by
  have hrun : (machine (ascii "ab") ⟨[120, 8, 97], .ends⟩).run [0, 0, 0] = some (_, _) := rfl
  exact ⟨_, _, hrun, (counters_of_run (by decide) hrun).2.2.1⟩

/-! ### The end of the input -/

/-- A run that takes the bytes for keys, until the line is full. -/
theorem exists_run (target : List UInt8) (stream : Stream) (ks : List UInt8) :
    ∀ {rest : List UInt8}, stream.bytes = ks ++ rest →
      ∃ as s es, (machine target stream).run as = some (s, es) ∧ s.status = .running ∧
        s.idx = (typed isEraseKey target.length ks).length ∧
        (s.idx < target.length → s.stdin = rest) := by
  induction ks using List.reverseRecOn with
  | nil =>
    intro rest hbytes
    exact ⟨[], _, _, rfl, rfl, rfl, fun _ => hbytes⟩
  | append_singleton ks c ih =>
    intro rest hbytes
    rw [List.append_assoc] at hbytes
    obtain ⟨as, s, es, hrun, hrunning, hidx, hrest⟩ := ih hbytes
    by_cases hroom : s.idx < target.length
    · have hstdin : s.stdin = c :: rest := hrest hroom
      have hstep : (machine target stream).step s 0 =
          some ((body target { s with stdin := rest } c).1,
            .key c :: (body target { s with stdin := rest } c).2) := by
        show step target stream.ending s 0 = _
        rw [step, if_pos hrunning, if_pos hroom, hstdin]
        rfl
      refine ⟨as ++ [0], _, _, (Machine.runFrom_concat_eq_some as).mpr ⟨_, hrun, _, hstep, rfl⟩,
        ?_, ?_, ?_⟩
      · show (body target { s with stdin := rest } c).1.status = .running
        rw [body_status]
        exact hrunning
      · show (body target { s with stdin := rest } c).1.idx = _
        rw [body_idx, typed_concat, press_of_lt (hidx ▸ hroom), length_edit, ← hidx]
      · intro _
        exact body_stdin _ _ _
    · refine ⟨as, s, es, hrun, hrunning, ?_, fun h => absurd h hroom⟩
      rw [typed_append_of_full (Nat.le_of_not_lt (hidx ▸ hroom)), hidx]

/-- Behind the end of the input, an erasing key that was left in `c` keeps the loop going. -/
theorem not_ensures_of_ends {P : State → Prop} (hends : stream.ending = .ends)
    (hrunning : s.status = .running) (hstdin : s.stdin = []) (hroom : s.idx < target.length) :
    ¬ (machine target stream).Ensures P s := by
  refine Machine.not_ensures_of_forever (R := fun s =>
    s.status = .running ∧ s.stdin = [] ∧ s.idx < target.length) ?_ ⟨hrunning, hstdin, hroom⟩
  rintro s ⟨hrunning, hstdin, hroom⟩
  have hstep : (machine target stream).step s 8 =
      some ((body target { s with stdin := [] } 8).1,
        .stale 8 :: (body target { s with stdin := [] } 8).2) := by
    show step target stream.ending s 8 = _
    rw [step, if_pos hrunning, if_pos hroom, hstdin, hends]
    rfl
  refine ⟨8, [], _, Machine.runFrom_cons_eq_some.mpr ⟨_, hstep, _, Machine.runFrom_nil _, rfl⟩,
    ?_, ?_, ?_⟩
  · show (body target { s with stdin := [] } 8).1.status = .running
    rw [body_status]
    exact hrunning
  · exact body_stdin _ _ _
  · show (body target { s with stdin := [] } 8).1.idx < target.length
    rw [body_idx, if_pos (by decide)]
    exact lt_of_le_of_lt (Nat.sub_le _ _) hroom

/-- The line is full before the input ends, or the input does not end but fails. -/
def Sufficient (target : List UInt8) (stream : Stream) : Prop :=
  stream.ending = .fails ∨
    (typed isEraseKey target.length stream.bytes).length = target.length

/-- Then `read` always has something to deliver. -/
theorem Invariant.not_stale (h : Invariant target stream es s) (hsuff : Sufficient target stream)
    (hkeys : keys es = delivered es) (hroom : s.idx < target.length) (hstdin : s.stdin = []) :
    stream.ending ≠ .ends := by
  intro hends
  rcases hsuff with hfails | hfull
  · exact absurd (hends.symm.trans hfails) (by decide)
  · have hbytes := h.delivered_eq
    rw [hstdin, List.append_nil, ← hkeys] at hbytes
    rw [← hbytes, h.typed_eq, h.counters.length_eq] at hfull
    omega

theorem fresh_of_run (hsuff : Sufficient target stream) {as : List UInt8}
    (h : (machine target stream).run as = some (s, es)) : ∀ c, .stale c ∉ es := by
  have hboth : Invariant target stream es s ∧ ∀ c, .stale c ∉ es := by
    refine Machine.run_invariant (I := fun es s => Invariant target stream es s ∧
      ∀ c, .stale c ∉ es) ⟨invariant_of_run (Machine.runFrom_nil _), fun _ => List.not_mem_nil⟩ ?_ h
    rintro es s c s' es' ⟨hI, hfresh⟩ hstep
    refine ⟨hI.step hstep, fun k hk => ?_⟩
    rcases List.mem_append.mp hk with hk | hk
    · exact hfresh k hk
    · obtain ⟨-, ⟨-, -, rfl⟩ | ⟨key, stdin, -, -, -, rfl⟩ | ⟨hroom, hstdin, hends, -, -⟩⟩ :=
        step_cases hstep
      · cases hk
      · rcases List.mem_cons.mp hk with hk | hk
        · cases hk
        · cases mem_body_events hk
      · exact hI.not_stale hsuff (keys_eq_delivered hfresh) hroom hstdin hends
  exact hboth.2

/-- Every iteration then takes a byte from the input, or is the last one. -/
theorem ensures_of_sufficient (hsuff : Sufficient target stream)
    (h : Invariant target stream es s) (hkeys : keys es = delivered es) :
    (machine target stream).Ensures (fun s => s.status = .left) s := by
  have hended : ∀ {s : State}, s.status = .left →
      (machine target stream).Ensures (fun s => s.status = .left) s := by
    intro s hleft
    refine .stopped ?_ hleft
    intro a
    show step target stream.ending s a = none
    rw [step, if_neg (by rw [hleft]; decide)]
  induction hlength : s.stdin.length using Nat.strong_induction_on generalizing s es with
  | _ length ih =>
    cases hstatus : s.status with
    | left => exact hended hstatus
    | running =>
      refine .next ?_ ?_
      · exact exists_step hstatus
      · intro c s' es' hstep
        have hI := h.step hstep
        obtain ⟨-, ⟨-, rfl, -⟩ | ⟨key, stdin, hroom, hstdin, rfl, rfl⟩ |
          ⟨hroom, hstdin, hends, -, -⟩⟩ := step_cases hstep
        · exact hended rfl
        · refine ih stdin.length ?_ hI ?_ (by rw [body_stdin])
          · rw [← hlength, hstdin]
            exact Nat.lt_succ_self _
          · rw [keys_append, delivered_append, hkeys, ← List.singleton_append, keys_append,
              delivered_append, keys_body, delivered_body]
            rfl
        · exact absurd hends (h.not_stale hsuff hkeys hroom hstdin)

/-- **What is counted is what is typed**, the stores are inside the array and the loop stops, if the
line is full before the input ends or the input fails, and if the line never gets longer than the
array; and only then. -/
theorem counts_typed_iff (target : List UInt8) (stream : Stream) :
    ((∀ as s es, (machine target stream).run as = some (s, es) →
        (∀ i, .store i ∈ es → i < maxInput) ∧ s.typedCount ≤ (delivered es).length) ∧
      (machine target stream).Ensures (fun s => s.status = .left) (machine target stream).init) ↔
      Sufficient target stream ∧ ∀ ks, ks <+: stream.bytes →
        (typed isEraseKey target.length ks).length ≤ maxInput := by
  constructor
  · rintro ⟨hall, hstops⟩
    constructor
    · by_contra hsuff
      rw [Sufficient, not_or] at hsuff
      obtain ⟨as, s, es, hrun, hrunning, hidx, hrest⟩ :=
        exists_run target stream stream.bytes (List.append_nil _).symm
      have hroom : s.idx < target.length := by
        rw [hidx]
        exact lt_of_le_of_ne (length_typed_le _) hsuff.2
      have hends : stream.ending = .ends := by
        cases hending : stream.ending with
        | ends => rfl
        | fails => exact absurd hending hsuff.1
      exact not_ensures_of_ends hends hrunning (hrest hroom) hroom (hstops.of_runFrom hrun)
    · rintro ks ⟨rest, hks⟩
      obtain ⟨as, s, es, hrun, -, hidx, -⟩ := exists_run target stream ks hks.symm
      by_contra hlong
      have hmem := (invariant_of_run hrun).store_mem maxInput (by omega)
      exact absurd ((hall as s es hrun).1 maxInput hmem) (Nat.lt_irrefl _)
  · rintro ⟨hsuff, hfits⟩
    constructor
    · intro as s es hrun
      have hI := invariant_of_run hrun
      have hkeys := keys_eq_delivered (fresh_of_run hsuff hrun)
      constructor
      · intro i hi
        obtain ⟨ks, hks, hlength⟩ := hI.store_typed i hi
        have hinput : ks <+: stream.bytes := (hkeys ▸ hks).trans ⟨s.stdin, hI.delivered_eq⟩
        have hle := hfits ks hinput
        omega
      · have hle : (typed isEraseKey target.length (keys es)).length ≤ (keys es).length :=
          length_typed_le_length (keys es)
        rw [hI.typed_eq, hI.counters.length_eq, hkeys] at hle
        rw [← hI.counters.idx_eq]
        exact_mod_cast hle
    · exact ensures_of_sufficient hsuff (invariant_of_run (Machine.runFrom_nil _)) rfl

/-- The target `ab`, and no input at all. -/
theorem empty_input_counted : ¬ ∀ (target : List UInt8) (stream : Stream),
    (∀ as s es, (machine target stream).run as = some (s, es) →
        (∀ i, .store i ∈ es → i < maxInput) ∧ s.typedCount ≤ (delivered es).length) ∧
      (machine target stream).Ensures (fun s => s.status = .left)
        (machine target stream).init := by
  intro hclaim
  -- `c` happens to be an `a`
  have hcount := ((hclaim (ascii "ab") ⟨[], .ends⟩).1 [97] _ _ rfl).2
  exact absurd hcount (by decide)

end Runs

end Typer

end SystemProgramming
