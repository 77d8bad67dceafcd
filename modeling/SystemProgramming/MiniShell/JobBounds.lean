import SystemProgramming.MiniShell.Jobs

/-!
# The bounds of the table of jobs

`jobs` has `MAX_JOBS` entries. `accesses` are the indices at which a step reads or writes it. What
the loops and `fg` touch lies below `job_count`, so everything rests on where jobs are recorded:
`mini-shell-2` tests `job_count < MAX_JOBS` there, `mini-shell-3` does not.

## Where an index comes from

The loops over the table run up to `job_count`, and `fg` works on an index that it has tested. While
it waits, the entry must not go away: no other function removes entries, and `fg` itself removes its
own when the wait is over. So `Bounded` says two things, that there are at most `MAX_JOBS` entries
and that the index of a waiting `fg` is below their number, and each of the steps keeps both.

The list of jobs has as many entries as `job_count` says, also where that is more than `MAX_JOBS`.
What the memory behind the table contains then is not modelled, and no theorem asks for it: a run is
judged at the first access outside.

## Main definitions

* `accesses` — the indices that a step touches
* `Bounded` — the invariant of the table and of the index `fg` works on

## Main results

* `bounded_of_run` — the invariant holds in every state of every run
* `accesses_inside_iff` — when a run stays inside the table
-/

namespace SystemProgramming

namespace JobShell

/-! ### Accesses -/

/-- The accesses of `jobs[job_count].… = …` where a job is recorded. -/
def recordAccesses (v : Edition) (jobs : List Job) : List ℤ :=
  match v with
  | .miniShell2 => if jobs.length < maxJobs then [(jobs.length : ℤ)] else []
  | .miniShell3 => [(jobs.length : ℤ)]

/-- The accesses of `fg` up to `kill`: the search from the last job down to the first that is
stopped, or the test of the job named, and then the job itself. -/
def fgAccesses (jobs : List Job) (arg : Option (List UInt8)) : List ℤ :=
  match arg with
  | none =>
    let stopped (i : ℕ) : Bool := jobs[i]?.any Job.stopped
    let order := (List.range jobs.length).reverse
    (order.take (order.findIdx stopped + 1)).map Nat.cast
  | some arg => if atoi arg < 1 ∨ jobs.length < atoi arg then [] else [atoi arg - 1]

/-- The accesses of `for (int i = idx; i < job_count - 1; i++) jobs[i] = jobs[i + 1];` -/
def shiftAccesses (jobs : List Job) (idx : ℕ) : List ℤ :=
  (List.range (jobs.length - 1 - idx)).flatMap fun (j : ℕ) => [(idx + j : ℤ), (idx + j + 1 : ℤ)]

/-- The step comes to where a job is recorded. -/
def records (v : Edition) (s : State) : Act → Bool
  | .fork pid =>
    match s.position with
    | .forking background _ => background && (pid.isSome || v = .miniShell3)
    | _ => false
  | .record =>
    match s.position with
    | .waited _ .stopped (.command _) => true
    | _ => false
  | _ => false

/-- The indices `i` of the accesses `jobs[i]` that a step makes. -/
def accesses (v : Edition) (s : State) : Act → List ℤ
  | .command (arg :: rest) _ =>
    if arg = ascii "jobs" then (List.range s.jobs.length).map Nat.cast
    else if v = .miniShell3 ∧ arg = ascii "fg" then fgAccesses s.jobs rest.head?
    else []
  | .record =>
    match s.position with
    | .waited _ .stopped (.command _) => recordAccesses v s.jobs
    | .waited _ .stopped (.job idx) => [(idx : ℤ)]
    | .waited _ (.ended _) (.job idx) => shiftAccesses s.jobs idx
    | _ => []
  | .fork pid => if records v s (.fork pid) then recordAccesses v s.jobs else []
  | _ => []

/-- Before and during the step the table is inside its bounds: `job_count` is, and so is the index
of every access. -/
def Inside (v : Edition) (_ : List Event) (s : State) (a : Act) : Prop :=
  s.jobs.length ≤ maxJobs ∧ ∀ i ∈ accesses v s a, 0 ≤ i ∧ i < maxJobs

instance (v : Edition) (es : List Event) (s : State) (a : Act) : Decidable (Inside v es s a) :=
  inferInstanceAs (Decidable (_ ∧ _))

/-- `mini-shell-3` does not come to where a job is recorded while the table is full. -/
def HasRoom (v : Edition) (_ : List Event) (s : State) (a : Act) : Prop :=
  v = .miniShell3 → records v s a = true → s.jobs.length < maxJobs

instance (v : Edition) (es : List Event) (s : State) (a : Act) : Decidable (HasRoom v es s a) :=
  inferInstanceAs (Decidable (_ → _ → _))

/-! ### The invariant -/

/-- What the shell waits for is a child, or a job in the table. -/
def Foreground.Inside (jobs : List Job) : Foreground → Prop
  | .command _ => True
  | .job idx => idx < jobs.length

/-- The same, where the shell has something to wait for. -/
def Position.Inside (jobs : List Job) : Position → Prop
  | .forked _ f | .waiting _ f | .waited _ _ f => f.Inside jobs
  | _ => True

/-- The table is not overfull, and `fg` works on one of its jobs. -/
structure Bounded (s : State) : Prop where
  length_le : s.jobs.length ≤ maxJobs
  inside : s.position.Inside s.jobs

theorem bounded_init (v : Edition) : Bounded (machine v).init := ⟨Nat.zero_le _, trivial⟩

theorem Bounded.setPosition {s : State} (h : Bounded s) {p : Position} (hp : p.Inside s.jobs) :
    Bounded { s with position := p } := ⟨h.length_le, hp⟩

/-- Recording a job respects the bound, or has no defined behaviour. -/
theorem Bounded.recordJob {s : State} (h : Bounded s)
    (hpos : ∀ jobs : List Job, s.position.Inside jobs) (v : Edition) (job : Job) :
    Bounded (recordJob v s job) := by
  rcases recordJob_cases v s job with ⟨hroom, heq⟩ | ⟨-, heq⟩ | heq <;> rw [heq]
  · refine ⟨?_, hpos _⟩
    rw [List.length_append]
    exact hroom
  · exact h
  · exact h.setPosition trivial

theorem length_setStopped (jobs : List Job) (idx : ℕ) (stopped : Bool) :
    (setStopped jobs idx stopped).length = jobs.length :=
  List.length_modify _ _ _

theorem Bounded.external {s : State} (h : Bounded s) (args : List (List UInt8)) (opened : Bool) :
    Bounded (executeExternalCommand s args opened) := by
  rcases executeExternalCommand_cases s args opened with heq | ⟨background, text, heq⟩
  · rwa [heq]
  · rw [heq]
    exact h.setPosition trivial

theorem Bounded.fg {s : State} (h : Bounded s) (arg : Option (List UInt8)) :
    Bounded (fg s arg).1 := by
  have hresult := fgResult s arg
  generalize JobShell.fg s arg = r at hresult ⊢
  cases hresult with
  | fails => exact h
  | undefined => exact h.setPosition trivial
  | @resumes idx job hjob =>
    obtain ⟨hlt, -⟩ := List.getElem?_eq_some_iff.mp hjob
    have hlen := length_setStopped s.jobs idx false
    exact ⟨hlen.trans_le h.length_le, hlt.trans_eq hlen.symm⟩

theorem Bounded.command {s : State} (h : Bounded s) (v : Edition) (args : List (List UInt8))
    (opened : Bool) : Bounded (executeCommand v s args opened).1 := by
  have hresult := commandResult v s args opened
  generalize executeCommand v s args opened = r at hresult ⊢
  cases hresult with
  | quiet => exact h
  | exit => exact h.setPosition trivial
  | jobs => exact h
  | fg arg => exact h.fg arg
  | external => exact h.external args opened

theorem Bounded.fork {s s' : State} (h : Bounded s) {v : Edition} {background : Bool}
    {text : List UInt8} {pid : Option ℤ} {es : List Event}
    (hfork : fork v s background text pid = some (s', es)) : Bounded s' := by
  have hready : Bounded { s with position := .ready } := h.setPosition trivial
  cases pid with
  | some pid =>
    rw [JobShell.fork] at hfork
    obtain ⟨-, hfork⟩ := Option.ite_none_right_eq_some.mp hfork
    have hchild : Bounded { s.setChild pid (some .running) with position := .ready } :=
      ⟨h.length_le, trivial⟩
    split at hfork
    · cases hfork
      exact hchild.recordJob (fun _ => trivial) v _
    · cases hfork
      exact ⟨h.length_le, trivial⟩
  | none =>
    cases v with
    | miniShell2 =>
      cases hfork
      exact hready
    | miniShell3 =>
      rw [JobShell.fork] at hfork
      split at hfork
      · cases hfork
        exact hready.recordJob (fun _ => trivial) _ _
      · cases hfork
        exact h.setPosition trivial

theorem Bounded.record {s : State} (h : Bounded s) {pid : ℤ} {status : WaitStatus}
    {f : Foreground} (v : Edition) (hpos : s.position = .waited pid status f) :
    Bounded (record v s pid status f).1 := by
  have hinside : f.Inside s.jobs := by
    have hf := h.inside
    rwa [hpos] at hf
  cases status with
  | stopped =>
    cases f with
    | command text =>
      exact (h.setPosition (p := .recorded .stopped) trivial).recordJob (fun _ => trivial) v _
    | job idx => exact ⟨(length_setStopped s.jobs idx true).trans_le h.length_le, trivial⟩
  | ended status =>
    cases f with
    | command text => exact h.setPosition trivial
    | job idx => exact ⟨(length_removeJob_le s.jobs idx).trans h.length_le, trivial⟩

/-- **Every step keeps the bounds.** -/
theorem Bounded.transition {v : Edition} {s s' : State} {a : Act} {es : List Event}
    (h : Bounded s) (ht : Transition v s a s' es) : Bounded s' := by
  have hinside := h.inside
  cases ht with
  | @command args opened _ _ hpos hexec =>
    have hcommand := h.command v args opened
    rwa [hexec] at hcommand
  | condition => exact h.external _ _
  | fork hpos hfork => exact h.fork hfork
  | setForeground hpos =>
    rw [hpos] at hinside
    exact ⟨h.length_le, hinside⟩
  | @waitpid pid child f _ _ hpos hwait =>
    rw [hpos] at hinside
    rw [JobShell.waitpid.eq_def] at hwait
    split at hwait
    · split at hwait <;> cases hwait
      · exact ⟨h.length_le, hinside⟩
      · exact ⟨h.length_le, hinside⟩
    · cases hwait
  | waitpidFails => exact h.setPosition trivial
  | record hpos hrecord =>
    have hresult := h.record v hpos
    rwa [hrecord] at hresult
  | clearForeground => exact ⟨h.length_le, trivial⟩
  | sigtstp => exact h
  | childStops => exact ⟨h.length_le, hinside⟩
  | childContinues => exact ⟨h.length_le, hinside⟩
  | childEnds => exact ⟨h.length_le, hinside⟩

theorem bounded_of_run {v : Edition} {as : List Act} {s : State} {es : List Event}
    (h : (machine v).run as = some (s, es)) : Bounded s :=
  Machine.run_invariant_state (bounded_init v)
    (fun _ _ _ _ hb hs => hb.transition (transition_of_step hs)) h

/-! ### The accesses of a step -/

theorem inside_range {n : ℕ} (h : n ≤ maxJobs) {i : ℤ} (hi : i ∈ (List.range n).map Nat.cast) :
    0 ≤ i ∧ i < maxJobs := by
  obtain ⟨j, hj, rfl⟩ := List.mem_map.mp hi
  have hlt := List.mem_range.mp hj
  omega

theorem inside_fgAccesses {jobs : List Job} (h : jobs.length ≤ maxJobs)
    (arg : Option (List UInt8)) {i : ℤ} (hi : i ∈ fgAccesses jobs arg) : 0 ≤ i ∧ i < maxJobs := by
  cases arg with
  | none =>
    obtain ⟨j, hj, rfl⟩ := List.mem_map.mp hi
    have hlt := List.mem_range.mp (List.mem_reverse.mp (List.mem_of_mem_take hj))
    omega
  | some arg =>
    rw [fgAccesses] at hi
    split at hi
    · cases hi
    · obtain rfl := List.mem_singleton.mp hi
      omega

theorem inside_shiftAccesses {jobs : List Job} (h : jobs.length ≤ maxJobs) (idx : ℕ) {i : ℤ}
    (hi : i ∈ shiftAccesses jobs idx) : 0 ≤ i ∧ i < maxJobs := by
  obtain ⟨j, hj, hi⟩ := List.mem_flatMap.mp hi
  have hlt := List.mem_range.mp hj
  rcases List.mem_cons.mp hi with rfl | hi
  · omega
  · obtain rfl := List.mem_singleton.mp hi
    omega

/-- Recording a job is what may go outside. -/
theorem inside_recordAccesses_iff (jobs : List Job) (v : Edition) :
    (∀ i ∈ recordAccesses v jobs, 0 ≤ i ∧ i < (maxJobs : ℤ)) ↔
      (v = .miniShell3 → jobs.length < maxJobs) := by
  cases v with
  | miniShell2 =>
    refine iff_of_true (fun i hi => ?_) (fun hv => by cases hv)
    rw [recordAccesses] at hi
    split at hi
    · obtain rfl := List.mem_singleton.mp hi
      omega
    · cases hi
  | miniShell3 =>
    simp only [recordAccesses, List.mem_singleton, forall_eq, forall_const]
    omega

/-- A step that does not come to where a job is recorded. -/
theorem Bounded.inside_iff_of_not_records {s : State} (h : Bounded s) {v : Edition} {a : Act}
    (hrecords : records v s a = false) (es : List Event)
    (haccess : ∀ i ∈ accesses v s a, 0 ≤ i ∧ i < (maxJobs : ℤ)) :
    Inside v es s a ↔ HasRoom v es s a :=
  iff_of_true ⟨h.length_le, haccess⟩ fun _ hrec => absurd hrec (by simp [hrecords])

theorem Bounded.inside_iff_of_records {s : State} (h : Bounded s) {v : Edition} {a : Act}
    (hrecords : records v s a = true) (es : List Event)
    (haccess : accesses v s a = recordAccesses v s.jobs) :
    Inside v es s a ↔ HasRoom v es s a := by
  rw [Inside, haccess, inside_recordAccesses_iff, HasRoom]
  simp [h.length_le, hrecords]

/-- **One step** stays inside the table exactly when there is room for what it records. -/
theorem Bounded.inside_iff {s : State} (h : Bounded s) (v : Edition) (es : List Event) (a : Act) :
    Inside v es s a ↔ HasRoom v es s a := by
  cases a with
  | command args opened =>
    refine h.inside_iff_of_not_records rfl es fun i hi => ?_
    cases args with
    | nil => cases hi
    | cons arg rest =>
      rw [accesses] at hi
      split at hi
      · exact inside_range h.length_le hi
      · split at hi
        · exact inside_fgAccesses h.length_le _ hi
        · cases hi
  | fork pid =>
    cases hrecords : records v s (.fork pid) with
    | true => exact h.inside_iff_of_records hrecords es (by rw [accesses, if_pos hrecords])
    | false =>
      refine h.inside_iff_of_not_records hrecords es fun i hi => ?_
      rw [accesses, hrecords] at hi
      cases hi
  | record =>
    have hinside := h.inside
    rcases hpos : s.position with _ | _ | _ | _ | ⟨pid, _ | status, text | idx⟩ | _ | _ | _
    case waited.stopped.command =>
      exact h.inside_iff_of_records (by rw [records, hpos]) es (by rw [accesses, hpos])
    case waited.stopped.job =>
      rw [hpos] at hinside
      refine h.inside_iff_of_not_records (by rw [records, hpos]) es fun i hi => ?_
      rw [accesses, hpos] at hi
      obtain rfl := List.mem_singleton.mp hi
      have hidx : idx < s.jobs.length := hinside
      have hlen := h.length_le
      omega
    case waited.ended.job =>
      refine h.inside_iff_of_not_records (by rw [records, hpos]) es fun i hi => ?_
      rw [accesses, hpos] at hi
      exact inside_shiftAccesses h.length_le idx hi
    all_goals
      refine h.inside_iff_of_not_records (by rw [records, hpos]) es fun i hi => ?_
      rw [accesses, hpos] at hi
      cases hi
  | _ => exact h.inside_iff_of_not_records rfl es fun i hi => absurd hi List.not_mem_nil

/-- **When a run stays inside the table of jobs.** In every run of either shell, `job_count` is at
most `MAX_JOBS` in every state, and the index of every access to `jobs` in the table, if and only
if `mini-shell-3` never comes to recording a job while the table is full; so `mini-shell-2` always
stays inside. -/
theorem accesses_inside_iff (v : Edition) {as : List Act} {s : State} {es : List Event}
    (h : (machine v).run as = some (s, es)) :
    (s.jobs.length ≤ maxJobs ∧ (machine v).Meets (Inside v) as) ↔
      (machine v).Meets (HasRoom v) as := by
  have hcongr := Machine.meets_congr (P := Inside v) (Q := HasRoom v) (bounded_init v)
    (fun _ _ _ _ hb hs => Bounded.transition hb (transition_of_step hs))
    (fun es s a hb _ => Bounded.inside_iff hb v es a) h
  rw [hcongr]
  exact and_iff_right (bounded_of_run h).length_le

/-- Two jobs in the background, printed by `mini-shell-3`. -/
theorem accesses_inside_two_jobs :
    (machine .miniShell3).Meets (Inside .miniShell3)
      [.command [ascii "a", ascii "&"] true, .fork (some 5),
        .command [ascii "b", ascii "&"] true, .fork (some 6), .command [ascii "jobs"] true] := by
  have hrun : ((machine .miniShell3).run
      [.command [ascii "a", ascii "&"] true, .fork (some 5),
        .command [ascii "b", ascii "&"] true, .fork (some 6),
        .command [ascii "jobs"] true]).isSome := by decide +kernel
  obtain ⟨⟨s, es⟩, hs⟩ := Option.isSome_iff_exists.mp hrun
  exact ((accesses_inside_iff .miniShell3 hs).mpr (by decide +kernel)).2

/-- One background command more than there are entries. -/
def tooMany : List Act :=
  (List.range (maxJobs + 1)).flatMap fun i =>
    [.command [ascii "sleep", ascii "9", ascii "&"] true, .fork (some (i + 1))]

/-- `mini-shell-3` records the last of them behind the table. -/
theorem access_outside :
    ¬ ∀ as s es, (machine .miniShell3).run as = some (s, es) →
      (machine .miniShell3).Meets (Inside .miniShell3) as := by
  intro hall
  have hrun : ((machine .miniShell3).run tooMany).isSome := by decide +kernel
  obtain ⟨⟨s, es⟩, hs⟩ := Option.isSome_iff_exists.mp hrun
  have hout : ¬ (machine .miniShell3).Meets (Inside .miniShell3) tooMany := by decide +kernel
  exact hout (hall tooMany s es hs)

end JobShell

end SystemProgramming
