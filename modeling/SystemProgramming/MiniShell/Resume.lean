import SystemProgramming.MiniShell.JobIdentity

/-!
# The command `fg`

`fg` selects a stopped job, clears its flag, sends it `SIGCONT` and waits for it. When it stops
again the flag is set, when it ends the entry is removed by shifting the ones behind it; so
the table changes by this entry or not at all.

The number of the job goes through `atoi`. A number that an `int` cannot hold becomes another one
there, and `fg` may then resume a job that was not named.

## How it goes

The command is cut in two. First the job is selected, by a function of the table and the argument,
and the only difference to the specification is `atoi` (`fgIndex_eq_ok_iff`). Then the shell waits,
and the steps of the wait may be interleaved with everything that children do; `TableWhile` follows
the table through them, and says at the end that it is as before or lacks the entry. Both parts
together are `fgSpec_iff`. The number is read twice, as an integer by the specification and as an
`int` by the code, and where the two differ the command is still right if the wrong number selects
nothing.

## Main definitions

* `Selects` — the job that an argument stands for
* `FgSpec` — what `fg` does to the table and to the processes
* `NumberFits` — when `atoi` yields what the argument says

## Main results

* `fgIndex_eq_ok_iff` — the job that the source selects
* `Resuming.step` — the table while `fg` waits
* `fgSpec_iff` — `fg` does what it should exactly when the number fits
-/

namespace SystemProgramming

namespace JobShell

/-! ### Specification -/

/-- Job `idx`, counted from 0, is stopped. -/
def Stopped (jobs : List Job) (idx : ℕ) : Prop := jobs[idx]?.any Job.stopped = true

instance (jobs : List Job) (idx : ℕ) : Decidable (Stopped jobs idx) :=
  inferInstanceAs (Decidable (_ = true))

/-- Job `idx` is the one that the argument of `fg` stands for, where `value` reads its number: the
stopped job with the highest number, or the stopped job with the number given. -/
def Selects (value : List UInt8 → ℤ) (jobs : List Job) : Option (List UInt8) → ℕ → Prop
  | none, idx => Stopped jobs idx ∧ ∀ i, idx < i → ¬ Stopped jobs i
  | some arg, idx => value arg = idx + 1 ∧ Stopped jobs idx

/-- Job `idx` is resumed: its process is sent `SIGCONT`, no other is signalled, and the shell goes
on to wait for it. However the wait goes on, when it is over the table is as before the
command if the job has stopped again, and if it has ended the table lacks that entry only. -/
def Resumed (s : State) (idx : ℕ) (s' : State) (es' : List Event) : Prop :=
  ∃ job, s.jobs[idx]? = some job ∧ es'.filterMap Event.target = [job.pid] ∧
    s'.position = .forked job.pid (.job idx) ∧
    ∀ as s'' es'', (machine .miniShell3).runFrom s' as = some (s'', es'') →
      .clearForeground ∉ as → ∀ status, s''.position = .recorded status →
        s''.jobs = if status = .stopped then s.jobs else s.jobs.eraseIdx idx

/-- The job that the argument stands for is resumed; without one nothing is changed, and no process
is signalled. -/
def FgSpec (s : State) (arg : Option (List UInt8)) (s' : State) (es' : List Event) : Prop :=
  (∀ idx, Selects leadingInteger s.jobs arg idx → Resumed s idx s' es') ∧
    ((∀ idx, ¬ Selects leadingInteger s.jobs arg idx) →
      s' = s ∧ es'.filterMap Event.target = [])

/-- The number can be held by an `int`, or what `atoi` makes of it is not the number of a stopped
job. -/
def NumberFits (jobs : List Job) : Option (List UInt8) → Prop
  | none => True
  | some arg => IsInt (leadingInteger arg) ∨ ∀ idx : ℕ, atoi arg = idx + 1 → ¬ Stopped jobs idx

/-! ### The selection -/

theorem Stopped.lt {jobs : List Job} {idx : ℕ} (h : Stopped jobs idx) : idx < jobs.length := by
  by_contra hge
  rw [Stopped, List.getElem?_eq_none (by omega)] at h
  cases h

theorem Stopped.exists {jobs : List Job} {idx : ℕ} (h : Stopped jobs idx) :
    ∃ job, jobs[idx]? = some job ∧ job.stopped = true :=
  (Option.any_eq_true _ _).mp h

/-- A search from the last index down. -/
theorem find?_reverse_range_eq_some_iff {p : ℕ → Bool} {i : ℕ} : ∀ n : ℕ,
    (List.range n).reverse.find? p = some i ↔
      i < n ∧ p i = true ∧ ∀ j, i < j → j < n → ¬ p j = true
  | 0 => by simp
  | n + 1 => by
    rw [List.range_succ, List.reverse_append, List.reverse_singleton, List.singleton_append,
      List.find?_cons]
    cases hn : p n with
    | true =>
      constructor
      · intro h
        cases h
        exact ⟨Nat.lt_succ_self _, hn, fun j hij hj => absurd hj (by omega)⟩
      · rintro ⟨hi, -, hlast⟩
        rcases Nat.lt_succ_iff_lt_or_eq.mp hi with hlt | rfl
        · exact absurd hn (hlast n hlt (Nat.lt_succ_self n))
        · rfl
    | false =>
      rw [find?_reverse_range_eq_some_iff n]
      constructor
      · rintro ⟨hi, hp, hlast⟩
        refine ⟨hi.trans (Nat.lt_succ_self n), hp, fun j hij hj => ?_⟩
        rcases Nat.lt_succ_iff_lt_or_eq.mp hj with hlt | rfl
        · exact hlast j hij hlt
        · rw [hn]
          exact Bool.false_ne_true
      · rintro ⟨hi, hp, hlast⟩
        rcases Nat.lt_succ_iff_lt_or_eq.mp hi with hlt | rfl
        · exact ⟨hlt, hp, fun j hij hj => hlast j hij (hj.trans (Nat.lt_succ_self n))⟩
        · exact absurd (hn.symm.trans hp) Bool.false_ne_true

/-- **What the source selects.** -/
theorem fgIndex_eq_ok_iff {jobs : List Job} {arg : Option (List UInt8)} {idx : ℕ} :
    fgIndex jobs arg = .ok idx ↔ Selects atoi jobs arg idx := by
  cases arg with
  | none =>
    have hfind : (∃ i, (List.range jobs.length).reverse.find?
        (fun i => jobs[i]?.any Job.stopped) = some i ∧ i = idx) ↔
        Selects atoi jobs none idx := by
      constructor
      · rintro ⟨i, hi, rfl⟩
        obtain ⟨-, hstopped, hlast⟩ := (find?_reverse_range_eq_some_iff _).mp hi
        exact ⟨hstopped, fun j hij hj => hlast j hij hj.lt hj⟩
      · rintro ⟨hstopped, hlast⟩
        exact ⟨idx, (find?_reverse_range_eq_some_iff _).mpr
          ⟨hstopped.lt, hstopped, fun j hij _ => hlast j hij⟩, rfl⟩
    rw [← hfind, fgIndex]
    cases (List.range jobs.length).reverse.find? fun i => jobs[i]?.any Job.stopped with
    | none => simp
    | some i => simp
  | some arg =>
    rw [fgIndex, Selects]
    split
    · rename_i hrange
      refine iff_of_false (by simp) fun h => ?_
      have hlt := h.2.lt
      omega
    · rename_i hrange
      have hn : ((atoi arg - 1).toNat : ℤ) = atoi arg - 1 := Int.toNat_of_nonneg (by omega)
      split
      · rename_i hstopped
        rw [Except.ok.injEq]
        constructor
        · rintro rfl
          exact ⟨by omega, hstopped⟩
        · rintro ⟨heq, -⟩
          omega
      · rename_i hstopped
        refine iff_of_false (by simp) fun h => hstopped ?_
        have heq : (atoi arg - 1).toNat = idx := by
          have := h.1
          omega
        rw [heq]
        exact h.2

/-- A number that an `int` can hold selects the job that it says. -/
theorem selects_congr {jobs : List Job} {arg : Option (List UInt8)} {idx : ℕ}
    (h : ∀ text, arg = some text → atoi text = leadingInteger text) :
    Selects atoi jobs arg idx ↔ Selects leadingInteger jobs arg idx := by
  cases arg with
  | none => exact Iff.rfl
  | some text => rw [Selects, Selects, h text rfl]

/-- One that it cannot hold selects none, the table being small. -/
theorem not_selects_of_not_isInt {jobs : List Job} {text : List UInt8} {idx : ℕ}
    (hlen : jobs.length ≤ maxJobs) (h : ¬ IsInt (leadingInteger text)) :
    ¬ Selects leadingInteger jobs (some text) idx := by
  rintro ⟨hnum, hstopped⟩
  have hlt := hstopped.lt
  have hmax : maxJobs = 64 := rfl
  exact h ⟨by omega, by omega⟩

/-! ### The table while `fg` waits -/

/-- What the table is while `fg` waits for job `idx` of `jobs`, by where the shell is. -/
def TableWhile (jobs : List Job) (idx : ℕ) (s : State) : Position → Prop
  | .forked _ f | .waiting _ f | .waited _ _ f =>
    f = .job idx ∧ s.jobs = setStopped jobs idx false
  | .recorded .stopped => s.jobs = setStopped (setStopped jobs idx false) idx true
  | .recorded (.ended _) => s.jobs = removeJob (setStopped jobs idx false) idx
  | .undefined => True
  | .ready | .forking .. | .exited => False

/-- The invariant of `fg`. -/
def Resuming (jobs : List Job) (idx : ℕ) (s : State) : Prop := TableWhile jobs idx s s.position

theorem Resuming.tableWhile {jobs : List Job} {idx : ℕ} {s : State} (h : Resuming jobs idx s)
    {p : Position} (hpos : s.position = p) : TableWhile jobs idx s p := by
  rw [← hpos]
  exact h

theorem Resuming.step {jobs : List Job} {idx : ℕ} {s s' : State} {a : Act} {es' : List Event}
    (h : Resuming jobs idx s) (ha : a ≠ .clearForeground)
    (hstep : step .miniShell3 s a = some (s', es')) : Resuming jobs idx s' := by
  cases transition_of_step hstep with
  | command hpos => exact (h.tableWhile hpos).elim
  | condition hpos => exact (h.tableWhile hpos).elim
  | fork hpos => exact (h.tableWhile hpos).elim
  | setForeground hpos => exact h.tableWhile hpos
  | @waitpid pid child f _ _ hpos hwait =>
    have hat := h.tableWhile hpos
    rw [waitpid] at hwait
    obtain ⟨-, heq⟩ := Option.ite_none_right_eq_some.mp hwait
    split at heq <;> cases heq <;> exact hat
  | waitpidFails => exact trivial
  | @record pid status f _ _ hpos hrecord =>
    obtain ⟨rfl, hjobs⟩ := h.tableWhile hpos
    cases status with
    | stopped =>
      cases hrecord
      exact congrArg (setStopped · idx true) hjobs
    | ended status =>
      cases hrecord
      exact congrArg (removeJob · idx) hjobs
  | clearForeground => exact absurd rfl ha
  | sigtstp => exact h
  | childStops => exact h
  | childContinues => exact h
  | childEnds => exact h

/-- Clearing a flag and setting it again. -/
theorem setStopped_setStopped {jobs : List Job} {idx : ℕ} (h : Stopped jobs idx) :
    setStopped (setStopped jobs idx false) idx true = jobs := by
  obtain ⟨job, hjob, hstopped⟩ := h.exists
  refine List.ext_getElem? fun i => ?_
  rw [setStopped, setStopped, List.getElem?_modify, List.getElem?_modify]
  by_cases hi : idx = i
  · subst hi
    cases job
    cases hstopped
    rw [hjob]
    simp
  · simp [hi]

theorem removeJob_setStopped {jobs : List Job} {idx : ℕ} (h : Stopped jobs idx) :
    removeJob (setStopped jobs idx false) idx = jobs.eraseIdx idx := by
  have hlen : (setStopped jobs idx false).length = jobs.length := List.length_modify ..
  rw [removeJob_eq_eraseIdx (hlen ▸ h.lt)]
  refine List.ext_getElem? fun i => ?_
  rw [List.getElem?_eraseIdx, List.getElem?_eraseIdx, setStopped, List.getElem?_modify,
    List.getElem?_modify]
  by_cases hi : i < idx
  · rw [if_pos hi, if_pos hi]
    simp [hi.ne']
  · rw [if_neg hi, if_neg hi]
    simp [show idx ≠ i + 1 by omega]

theorem Resuming.jobs_eq {jobs : List Job} {idx : ℕ} {s : State} {status : WaitStatus}
    (h : Resuming jobs idx s) (hstopped : Stopped jobs idx) (hpos : s.position = .recorded status) :
    s.jobs = if status = .stopped then jobs else jobs.eraseIdx idx := by
  have hat := h.tableWhile hpos
  cases status with
  | stopped =>
    rw [if_pos rfl]
    exact hat.trans (setStopped_setStopped hstopped)
  | ended status =>
    rw [if_neg (fun heq => by cases heq)]
    exact hat.trans (removeJob_setStopped hstopped)

/-! ### The command -/

theorem step_fg {s : State} (hpos : s.position = .ready) (rest : List (List UInt8))
    (opened : Bool) :
    step .miniShell3 s (.command (ascii "fg" :: rest) opened) = some (fg s rest.head?) := by
  rw [step, if_pos hpos, executeCommand]
  rfl

theorem resuming_fg {s : State} {arg : Option (List UInt8)} {idx : ℕ} {job : Job}
    (h : fgIndex s.jobs arg = .ok idx) (hjob : s.jobs[idx]? = some job) :
    Resuming s.jobs idx (fg s arg).1 ∧ (fg s arg).1.position = .forked job.pid (.job idx) ∧
      (fg s arg).2.filterMap Event.target = [job.pid] := by
  rw [fg, h]
  dsimp only
  rw [hjob]
  exact ⟨⟨rfl, rfl⟩, rfl, rfl⟩

theorem Resuming.run {jobs : List Job} {idx : ℕ} {s : State} (h : Resuming jobs idx s)
    {as : List Act} {s' : State} {es' : List Event}
    (hrun : (machine .miniShell3).runFrom s as = some (s', es')) (has : .clearForeground ∉ as) :
    Resuming jobs idx s' := by
  have hmeets := (machine .miniShell3).meetsFrom_of_forall
    (P := fun _ _ a => a ≠ .clearForeground) (fun a ha _ _ heq => has (heq ▸ ha)) [] s
  exact Machine.runFrom_invariant_of_meets (I := fun _ s => Resuming jobs idx s)
    (fun _ _ _ _ _ hI ha hstep => hI.step ha hstep) as h hmeets hrun

/-- The job that the source selects is resumed. -/
theorem resumed_of_fgIndex {s : State} {arg : Option (List UInt8)} {idx : ℕ}
    (h : fgIndex s.jobs arg = .ok idx) (hstopped : Stopped s.jobs idx) :
    Resumed s idx (fg s arg).1 (fg s arg).2 := by
  obtain ⟨job, hjob, -⟩ := hstopped.exists
  obtain ⟨hresuming, hpos, htarget⟩ := resuming_fg h hjob
  exact ⟨job, hjob, htarget, hpos, fun as s'' es'' hrun has status hpos' =>
    (hresuming.run hrun has).jobs_eq hstopped hpos'⟩

/-- A job that is resumed has received a signal. -/
theorem Resumed.target_ne {s : State} {idx : ℕ} {s' : State} {es' : List Event}
    (h : Resumed s idx s' es') : es'.filterMap Event.target ≠ [] := by
  obtain ⟨job, -, htarget, -⟩ := h
  rw [htarget]
  exact List.cons_ne_nil _ _

theorem fg_of_error {s : State} {arg : Option (List UInt8)} {text : List UInt8}
    (h : fgIndex s.jobs arg = .error text) : fg s arg = (s, [.stdout text]) := by
  rw [fg, h]

/-- **What `fg` does.** For a table within its bound and every argument, `fg` resumes the job that
the argument stands for, changing the table by this job at most, and without such a job
does nothing; exactly when the number of the argument fits. -/
theorem fgSpec_iff {s : State} (hpos : s.position = .ready) (hlen : s.jobs.length ≤ maxJobs)
    (rest : List (List UInt8)) (opened : Bool) :
    (∃ s' es', step .miniShell3 s (.command (ascii "fg" :: rest) opened) = some (s', es') ∧
      FgSpec s rest.head? s' es') ↔ NumberFits s.jobs rest.head? := by
  have hstep := step_fg hpos rest opened
  generalize rest.head? = arg at hstep ⊢
  constructor
  · rintro ⟨s', es', hs', hresume, hnothing⟩
    have heq := Option.some.inj (hstep.symm.trans hs')
    cases arg with
    | none => trivial
    | some text =>
      refine or_iff_not_imp_left.mpr fun hint idx hnum hstopped => ?_
      have hindex : fgIndex s.jobs (some text) = .ok idx :=
        fgIndex_eq_ok_iff.mpr ⟨hnum, hstopped⟩
      have hresumed := resumed_of_fgIndex hindex hstopped
      rw [heq] at hresumed
      exact hresumed.target_ne (hnothing fun i => not_selects_of_not_isInt hlen hint).2
  · intro hfits
    refine ⟨(fg s arg).1, (fg s arg).2, hstep, ?_⟩
    have hcode : ∀ idx, Selects atoi s.jobs arg idx ↔ Selects leadingInteger s.jobs arg idx := by
      intro idx
      cases arg with
      | none => exact Iff.rfl
      | some text =>
        by_cases hint : IsInt (leadingInteger text)
        · refine selects_congr fun text' heq => ?_
          obtain rfl := Option.some.inj heq
          exact atoi_of_isInt hint
        · exact iff_of_false (fun h => hfits.resolve_left hint idx h.1 h.2)
            (not_selects_of_not_isInt hlen hint)
    constructor
    · intro idx hselects
      have hselects' := (hcode idx).mpr hselects
      refine resumed_of_fgIndex (fgIndex_eq_ok_iff.mpr hselects') ?_
      cases arg with
      | none => exact hselects'.1
      | some text => exact hselects'.2
    · intro hnone
      rcases hindex : fgIndex s.jobs arg with text | idx
      · have heq := fg_of_error hindex
        exact ⟨congrArg Prod.fst heq, congrArg (fun q => q.2.filterMap Event.target) heq⟩
      · exact absurd ((hcode idx).mp (fgIndex_eq_ok_iff.mp hindex)) (hnone idx)

/-- A shell with one job, which is stopped. -/
def oneStopped : State where
  jobs := [⟨6, ascii "cat", true⟩]
  fgPid := -1
  children := fun pid => if pid = 6 then some (.stopped true) else none
  position := .ready

/-- `fg 1` does what it should. -/
theorem fgSpec_one :
    ∃ s' es', step .miniShell3 oneStopped (.command [ascii "fg", ascii "1"] true) =
        some (s', es') ∧ FgSpec oneStopped (some (ascii "1")) s' es' :=
  (fgSpec_iff (s := oneStopped) rfl (by decide) [ascii "1"] true).mpr (Or.inl (by decide))

/-- `fg 4294967297` resumes job 1, although there is no job of this number. -/
theorem fg_number_too_large :
    ¬ ∀ s rest opened, s.position = .ready → s.jobs.length ≤ maxJobs →
      ∃ s' es', step .miniShell3 s (.command (ascii "fg" :: rest) opened) = some (s', es') ∧
        FgSpec s rest.head? s' es' := by
  intro hall
  obtain ⟨s', es', hstep, -, hnothing⟩ :=
    hall oneStopped [ascii "4294967297"] true rfl (by decide)
  have htargets : (step .miniShell3 oneStopped
      (.command [ascii "fg", ascii "4294967297"] true)).map
      (fun q => q.2.filterMap Event.target) = some [6] := by decide +kernel
  have heq : step .miniShell3 oneStopped
      (.command [ascii "fg", ascii "4294967297"] true) = some (s', es') := hstep
  rw [heq, Option.map_some, Option.some.injEq] at htargets
  have hnone := (hnothing fun idx => not_selects_of_not_isInt (by decide) (by decide)).2
  rw [htargets] at hnone
  cases hnone

end JobShell

end SystemProgramming
