import SystemProgramming.MiniShell.Jobs

/-!
# What `jobs` lists

A child enters the table when it is started in the background or stopped in the foreground, if
there is room. It leaves the table in one way only: the command `fg` of `mini-shell-3` waits for
it, and it ends. No one else waits for a job, so a job that ends by itself stays in the table.

## How it goes

The invariant relates the table to the events of the run: the entries are the children that were
recorded, in order, less those that `fg` has seen ending. It is kept step by step, with one case for
each constructor of `Transition`; a step that does not touch the table keeps it as the events do not
mention a job.

## Why no pid is listed twice

Every entry is the pid of a child that has not been waited for to its end: that is a part of the
invariant (`TableAt`). `fork` returns the pid of no such child, so what is recorded after it is new
(`notMem_of_new`). A job that stops again under `fg` has an entry already and keeps it; the first
test of `enter` stands for that, and the program needs none. If `fork` fails in `mini-shell-3`, the
shell goes on with the pid -1 and may wait for any child with it. Runs in which this happens are
left out.

## Main definitions

* `enter`, `expected` — the pids in the table, from the events
* `Lists` — what the command `jobs` prints
* `TableAt` — the invariant, by where the shell is

## Main results

* `lists_of_run` — `jobs` prints each of these pids once, in this order
* `jobs_lists_ended_and_omits` — also that of a child that has ended
-/

namespace SystemProgramming

namespace JobShell

/-! ### Specification -/

/-- A child enters the table, unless it is there or the table is full. -/
def enter (pids : List ℤ) (pid : ℤ) : List ℤ :=
  if pid ∈ pids ∨ maxJobs ≤ pids.length then pids else pids ++ [pid]

/-- How an event changes the table. -/
def tallyJobs (pids : List ℤ) : Event → List ℤ
  | .forked pid true => enter pids pid
  | .stopped pid => enter pids pid
  | .reaped pid => pids.filter (· ≠ pid)
  | _ => pids

/-- The children that were started in the background or stopped in the foreground, when the table
had room, and have not been waited for to their end; in this order. -/
def expected (es : List Event) : List ℤ := es.foldl tallyJobs []

/-- `jobs` prints each of them once. -/
def Listed (es : List Event) : Event → Prop
  | .listed jobs => jobs.map Job.pid = expected es ∧ (expected es).Nodup
  | _ => True

/-- This holds of every `jobs` of a run. -/
def Lists (es : List Event) : Prop := Recorded Listed es

/-! ### The invariant -/

/-- The pids in the table. -/
def State.pids (s : State) : List ℤ := s.jobs.map Job.pid

/-- What the shell waits for is a new child, or the job at an index. -/
def Foreground.Names (pids : List ℤ) (pid : ℤ) : Foreground → Prop
  | .command _ => pid ∉ pids
  | .job idx => pids[idx]? = some pid

/-- The table, by where the shell is. -/
def TableAt (pids : List ℤ) (s : State) : Position → Prop
  | .ready | .forking .. | .recorded _ | .exited =>
    pids = s.pids ∧ ∀ q ∈ s.pids, s.present q = true
  | .forked pid f | .waiting pid f =>
    pids = s.pids ∧ (∀ q ∈ s.pids, s.present q = true) ∧ s.present pid = true ∧ f.Names s.pids pid
  | .waited pid .stopped f =>
    pids = enter s.pids pid ∧ (∀ q ∈ s.pids, s.present q = true) ∧ s.present pid = true ∧
      f.Names s.pids pid
  | .waited pid (.ended _) f =>
    pids = s.pids.filter (· ≠ pid) ∧ (∀ q ∈ s.pids, q ≠ pid → s.present q = true) ∧
      f.Names s.pids pid
  | .undefined => True

/-- The table is as the events say. -/
structure Table (es : List Event) (s : State) : Prop where
  nodup : s.pids.Nodup
  pos : ∀ pid, s.present pid = true → 0 < pid
  table_at : TableAt (expected es) s s.position

theorem enter_of_mem {pids : List ℤ} {pid : ℤ} (h : pid ∈ pids) : enter pids pid = pids :=
  if_pos (Or.inl h)

theorem expected_append (es es' : List Event) :
    expected (es ++ es') = es'.foldl tallyJobs (expected es) := List.foldl_append

/-- An event that does not change the table. -/
def Event.Plain : Event → Prop
  | .forked _ true | .stopped _ | .reaped _ => False
  | _ => True

theorem expected_append_of_plain (es : List Event) : ∀ {es' : List Event},
    (∀ e ∈ es', e.Plain) → expected (es ++ es') = expected es
  | [], _ => by rw [List.append_nil]
  | e :: es', h => by
    have hrest := expected_append_of_plain (es ++ [e]) fun e' he' =>
      h e' (List.mem_cons_of_mem _ he')
    have he := h e List.mem_cons_self
    rw [List.append_assoc, List.singleton_append] at hrest
    rw [hrest, expected_append]
    rcases e with _ | _ | ⟨_, _ | _⟩ | _ | _ | _ | _ | _ | _ | _ | _ <;>
      first | rfl | exact he.elim

theorem recorded_of_notMem {es es' : List Event} (h : ∀ jobs, .listed jobs ∉ es') :
    Recorded (fun es₁ e => Listed (es ++ es₁) e) es' := by
  rintro es₁ e es₂ rfl
  cases e with
  | listed jobs => exact absurd (by simp) (h jobs)
  | _ => trivial

/-! ### What the functions keep -/

/-- Recording a job is entering it, or has no defined behaviour. -/
theorem recordJob_pids (v : Edition) (s : State) {job : Job} (h : job.pid ∉ s.pids) :
    (∃ jobs, recordJob v s job = { s with jobs := jobs } ∧
        jobs.map Job.pid = enter s.pids job.pid) ∨
      recordJob v s job = { s with position := .undefined } := by
  have hlen : s.pids.length = s.jobs.length := List.length_map ..
  rcases recordJob_cases v s job with ⟨hroom, heq⟩ | ⟨hfull, heq⟩ | heq
  · refine Or.inl ⟨_, heq, ?_⟩
    rw [enter, if_neg (not_or.mpr ⟨h, by omega⟩), List.map_append]
    rfl
  · refine Or.inl ⟨s.jobs, heq, ?_⟩
    rw [enter, if_pos (Or.inr (by omega))]
    rfl
  · exact Or.inr heq

theorem nodup_enter {pids : List ℤ} (pid : ℤ) (h : pids.Nodup) : (enter pids pid).Nodup := by
  rw [enter]
  split
  · exact h
  · rename_i hnot
    refine List.nodup_append.mpr ⟨h, List.nodup_singleton pid, ?_⟩
    rintro q hq r hr rfl
    exact hnot (Or.inl (List.mem_singleton.mp hr ▸ hq))

theorem mem_enter {pids : List ℤ} {pid q : ℤ} (h : q ∈ enter pids pid) : q ∈ pids ∨ q = pid := by
  rw [enter] at h
  split at h
  · exact Or.inl h
  · exact (List.mem_append.mp h).imp_right List.mem_singleton.mp

theorem map_pid_setStopped (jobs : List Job) (idx : ℕ) (stopped : Bool) :
    (setStopped jobs idx stopped).map Job.pid = jobs.map Job.pid := by
  refine List.ext_getElem? fun i => ?_
  rw [setStopped, List.getElem?_map, List.getElem?_map, List.getElem?_modify]
  split <;> simp [Function.comp_def]

/-- Removing the entry at an index removes its pid. -/
theorem eraseIdx_eq_filter {pids : List ℤ} {idx : ℕ} {pid : ℤ} (hnodup : pids.Nodup)
    (h : pids[idx]? = some pid) : pids.eraseIdx idx = pids.filter (· ≠ pid) := by
  obtain ⟨hlt, rfl⟩ := List.getElem?_eq_some_iff.mp h
  rw [← List.erase_eq_eraseIdx_of_idxOf (hnodup.idxOf_getElem idx hlt), hnodup.erase_eq_filter]
  exact List.filter_congr fun q _ => by simp [bne, beq_eq_decide]

/-! ### Steps -/

section Steps

variable {es : List Event} {s : State}

/-- A step whose events say nothing of jobs. -/
theorem Table.plain (h : Table es s) {s' : State} {es' : List Event} (hplain : ∀ e ∈ es', e.Plain)
    (hpids : s'.pids = s.pids) (hpresent : s'.present = s.present)
    (hat : TableAt (expected es) s' s'.position) : Table (es ++ es') s' := by
  refine ⟨hpids ▸ h.nodup, hpresent ▸ h.pos, ?_⟩
  rwa [expected_append_of_plain es hplain]

/-- Where the shell is, is all that matters beside the pids and the children. -/
theorem TableAt.of_same {pids : List ℤ} {s' : State} {p : Position} (h : TableAt pids s p)
    (hpids : s'.pids = s.pids) (hpresent : s'.present = s.present) : TableAt pids s' p := by
  rcases p with _ | _ | _ | _ | ⟨_, _ | _, _⟩ | _ | _ | _ <;>
    simp only [TableAt, hpids, hpresent] at h ⊢ <;> exact h

theorem Table.external (h : Table es s) {args : List (List UInt8)} {opened : Bool}
    (hpos : s.position = .ready) : Table (es ++ []) (executeExternalCommand s args opened) := by
  have hnil : ∀ e ∈ ([] : List Event), e.Plain := fun e he => absurd he List.not_mem_nil
  have hat := h.table_at
  rcases executeExternalCommand_cases s args opened with heq | ⟨background, text, heq⟩ <;> rw [heq]
  · exact h.plain hnil rfl rfl hat
  · rw [hpos] at hat
    exact h.plain hnil rfl rfl hat

theorem Table.fg (h : Table es s) (arg : Option (List UInt8)) (hpos : s.position = .ready) :
    Table (es ++ (fg s arg).2) (fg s arg).1 := by
  have hat := h.table_at
  rw [hpos] at hat
  have hresult := fgResult s arg
  generalize JobShell.fg s arg = r at hresult ⊢
  cases hresult with
  | fails =>
    refine h.plain (fun e he => ?_) rfl rfl (hpos ▸ hat)
    obtain rfl := List.mem_singleton.mp he
    trivial
  | undefined => exact h.plain (fun e he => absurd he List.not_mem_nil) rfl rfl trivial
  | @resumes idx job hjob =>
    have hpids : (setStopped s.jobs idx false).map Job.pid = s.pids :=
      map_pid_setStopped s.jobs idx false
    have hpresent : (sendSigcont { s with jobs := setStopped s.jobs idx false } job.pid).present
        = s.present := present_sendSigcont _ _
    have hidx : s.pids[idx]? = some job.pid := by rw [State.pids, List.getElem?_map, hjob]; rfl
    refine h.plain (fun e he => ?_) hpids hpresent ?_
    · rcases List.mem_pair.mp he with rfl | rfl <;> trivial
    · have hnew : TableAt (expected es) s (.forked job.pid (.job idx)) :=
        ⟨hat.1, hat.2, hat.2 _ (List.mem_of_getElem? hidx), hidx⟩
      exact hnew.of_same hpids hpresent

theorem plain_of_listed {jobs : List Job} {e : Event}
    (h : e ∈ jobs.mapIdx (fun i job => .stdout (printJobStatus i job)) ++ [.listed jobs]) :
    e.Plain := by
  rcases stdout_or_listed_of_mem h with ⟨text, rfl⟩ | rfl <;> trivial

/-- What `jobs` prints is the table. -/
theorem Table.listed (h : Table es s) (hpids : expected es = s.pids) :
    Recorded (fun es₁ e => Listed (es ++ es₁) e)
      (s.jobs.mapIdx (fun i job => .stdout (printJobStatus i job)) ++ [.listed s.jobs]) := by
  refine recorded_append_iff.mpr ⟨recorded_of_notMem fun jobs hmem => ?_, ?_⟩
  · obtain ⟨i, hi, heq⟩ := List.mem_mapIdx.mp hmem
    cases heq
  · refine recorded_singleton_iff.mpr ?_
    rw [Listed, List.append_nil, expected_append_of_plain es fun e he =>
      plain_of_listed (List.mem_append_left _ he), hpids]
    exact ⟨rfl, h.nodup⟩

theorem Table.command (h : Table es s) {v : Edition} {args : List (List UInt8)} {opened : Bool}
    {s' : State} {es' : List Event} (hpos : s.position = .ready)
    (hcmd : executeCommand v s args opened = (s', es')) :
    Table (es ++ es') s' ∧ Recorded (fun es₁ e => Listed (es ++ es₁) e) es' := by
  have hnil : ∀ e ∈ ([] : List Event), e.Plain := fun e he => absurd he List.not_mem_nil
  have hat := h.table_at
  rw [hpos] at hat
  have hresult := commandResult v s args opened
  obtain ⟨rfl, rfl⟩ := Prod.ext_iff.mp hcmd.symm
  generalize executeCommand v s args opened = r at hresult ⊢
  cases hresult with
  | quiet => exact ⟨h.plain hnil rfl rfl h.table_at, recorded_nil⟩
  | exit => exact ⟨h.plain hnil rfl rfl hat, recorded_nil⟩
  | jobs => exact ⟨h.plain (fun _ => plain_of_listed) rfl rfl h.table_at, h.listed hat.1⟩
  | fg arg => exact ⟨h.fg arg hpos, recorded_of_notMem (listed_notMem_fg s arg)⟩
  | external => exact ⟨h.external hpos, recorded_nil⟩

theorem Table.of_recordJob {v : Edition} {job : Job} (hnodup : s.pids.Nodup)
    (hpos : ∀ pid, s.present pid = true → 0 < pid) (hexp : expected es = enter s.pids job.pid)
    (hall : ∀ q ∈ s.pids, s.present q = true) (hhere : s.present job.pid = true)
    (hnew : job.pid ∉ s.pids) (hp : s.position = .ready ∨ ∃ status, s.position = .recorded status) :
    Table es (recordJob v s job) := by
  rcases recordJob_pids v s hnew with ⟨jobs, heq, hjobs⟩ | heq <;> rw [heq]
  · refine ⟨?_, hpos, ?_⟩
    · rw [State.pids, hjobs]
      exact nodup_enter _ hnodup
    · have hall' : ∀ q ∈ jobs.map Job.pid, s.present q = true := by
        intro q hq
        rw [hjobs] at hq
        rcases mem_enter hq with hq | rfl
        · exact hall q hq
        · exact hhere
      rcases hp with hp | ⟨status, hp⟩ <;> simp only [hp] <;>
        exact ⟨hexp.trans hjobs.symm, hall'⟩
  · exact ⟨hnodup, hpos, trivial⟩

/-- A pid that `fork` returns is not in the table. -/
theorem notMem_of_new {pid : ℤ} (hnone : s.children pid = none)
    (hall : ∀ q ∈ s.pids, s.present q = true) : pid ∉ s.pids := by
  intro hmem
  have hhere := hall pid hmem
  rw [State.present, hnone] at hhere
  cases hhere

theorem Table.fork (h : Table es s) {v : Edition} {background : Bool} {text : List UInt8}
    {pid : Option ℤ} {s' : State} {es' : List Event} (hpos : s.position = .forking background text)
    (hpid : v = .miniShell3 → pid ≠ none)
    (hfork : fork v s background text pid = some (s', es')) : Table (es ++ es') s' := by
  obtain ⟨hpids, hall⟩ : _ ∧ _ := by
    have hat := h.table_at
    rwa [hpos] at hat
  cases pid with
  | none =>
    cases v with
    | miniShell2 =>
      cases hfork
      refine h.plain (fun e he => ?_) rfl rfl ⟨hpids, hall⟩
      rcases List.mem_pair.mp he with rfl | rfl <;> trivial
    | miniShell3 => exact absurd rfl (hpid rfl)
  | some pid =>
    obtain ⟨⟨hpos', hnone⟩, heq⟩ := Option.ite_none_right_eq_some.mp hfork
    have hnew := notMem_of_new hnone hall
    have hthere : ∀ q ∈ s.pids, (s.setChild pid (some .running)).present q = true :=
      fun q hq => present_setChild_some s (hall q hq)
    have hself := present_setChild_self s pid (some .running)
    have hposs : ∀ q, (s.setChild pid (some .running)).present q = true → 0 < q :=
      fun _ => pos_of_present_setChild s h.pos hpos'
    cases background with
    | true =>
      cases heq
      have hexp : expected (es ++ [.forked pid true, .stdout (ascii "[background pid " ++
          decimal pid ++ ascii "]\n")]) = enter s.pids pid := by
        rw [expected_append, hpids]
        rfl
      exact .of_recordJob h.nodup hposs hexp hthere hself hnew (Or.inl rfl)
    | false =>
      cases heq
      have hexp : expected (es ++ [.forked pid false]) = s.pids := by
        rw [expected_append, hpids]
        rfl
      refine ⟨h.nodup, hposs, ?_⟩
      rw [hexp]
      exact ⟨rfl, hthere, hself, hnew⟩

theorem Table.waitpid (h : Table es s) {pid child : ℤ} {f : Foreground}
    {s' : State} {es' : List Event} (hpos : s.position = .waiting pid f)
    (hwait : waitpid s pid f child = some (s', es')) : Table (es ++ es') s' := by
  obtain ⟨hpids, hall, hhere, hnames⟩ : _ ∧ _ ∧ _ ∧ _ := by
    have hat := h.table_at
    rwa [hpos] at hat
  have hpid := h.pos pid hhere
  rw [JobShell.waitpid] at hwait
  obtain ⟨hchild, heq⟩ := Option.ite_none_right_eq_some.mp hwait
  obtain rfl : child = pid := hchild.resolve_right (by omega)
  split at heq
  · cases heq
    have hexp : expected (es ++ [.reaped child]) = s.pids.filter (· ≠ child) := by
      rw [expected_append, hpids]
      rfl
    refine ⟨h.nodup, fun _ => pos_of_present_setChild s h.pos hpid, ?_⟩
    rw [hexp]
    exact ⟨rfl, fun q hq hne => (present_setChild_of_ne s hne none).trans (hall q hq), hnames⟩
  · rename_i hstopped
    cases heq
    have hsame := present_setChild_of_present s (.stopped true) hhere
    have hexp : expected (es ++ [.stopped child]) = enter s.pids child := by
      rw [expected_append, hpids]
      rfl
    refine ⟨h.nodup, fun q hq => h.pos q ((congrFun hsame q).symm.trans hq), ?_⟩
    rw [hexp]
    exact ⟨rfl, fun q hq => (congrFun hsame q).trans (hall q hq), (congrFun hsame _).trans hhere,
      hnames⟩
  · cases heq

theorem Table.record (h : Table es s) {v : Edition} {pid : ℤ} {status : WaitStatus}
    {f : Foreground} {s' : State} {es' : List Event} (hpos : s.position = .waited pid status f)
    (hrecord : record v s pid status f = (s', es')) : Table (es ++ es') s' := by
  have hat := h.table_at
  rw [hpos] at hat
  have hnil : ∀ e ∈ ([] : List Event), e.Plain := fun e he => absurd he List.not_mem_nil
  have hprint : ∀ text, ∀ e ∈ [Event.stdout text], e.Plain := fun text e he => by
    obtain rfl := List.mem_singleton.mp he
    trivial
  cases status with
  | stopped =>
    obtain ⟨hpids, hall, hhere, hnames⟩ := hat
    cases f with
    | command text =>
      cases hrecord
      refine .of_recordJob h.nodup h.pos ?_ hall hhere hnames (Or.inr ⟨_, rfl⟩)
      rw [expected_append_of_plain es (hprint _), hpids]
      rfl
    | job idx =>
      cases hrecord
      have hmem : pid ∈ s.pids := List.mem_of_getElem? hnames
      rw [enter_of_mem hmem] at hpids
      refine h.plain (hprint _) (map_pid_setStopped s.jobs idx true) rfl ?_
      have hnew : TableAt (expected es) s (.recorded .stopped) := ⟨hpids, hall⟩
      exact hnew.of_same (map_pid_setStopped s.jobs idx true) rfl
  | ended status =>
    obtain ⟨hpids, hall, hnames⟩ := hat
    cases f with
    | command text =>
      cases hrecord
      have hother : ∀ q ∈ s.pids, q ≠ pid := fun q hq heq => hnames (heq ▸ hq)
      refine h.plain hnil rfl rfl ⟨?_, fun q hq => hall q hq (hother q hq)⟩
      rw [hpids]
      exact List.filter_eq_self.mpr fun q hq => by simpa using hother q hq
    | job idx =>
      cases hrecord
      have hidx : idx < s.jobs.length := by
        obtain ⟨hlt, -⟩ := List.getElem?_eq_some_iff.mp hnames
        rwa [State.pids, List.length_map] at hlt
      have herase : (removeJob s.jobs idx).map Job.pid = s.pids.filter (· ≠ pid) := by
        rw [removeJob_eq_eraseIdx hidx, ← eraseIdx_eq_filter h.nodup hnames, State.pids,
          List.eraseIdx_map]
      refine ⟨?_, h.pos, ?_⟩
      · rw [State.pids, herase]
        exact h.nodup.filter _
      · rw [List.append_nil]
        refine ⟨hpids.trans herase.symm, fun q hq => ?_⟩
        have hq' : q ∈ s.pids.filter (· ≠ pid) := herase ▸ hq
        obtain ⟨hq, hne⟩ := List.mem_filter.mp hq'
        exact hall q hq (by simpa using hne)

/-- A child changes, and is still there. -/
theorem Table.setChild (h : Table es s) {pid : ℤ} (c : ChildState) {es' : List Event}
    (hpid : s.present pid = true) (hplain : ∀ e ∈ es', e.Plain) :
    Table (es ++ es') (s.setChild pid (some c)) :=
  h.plain hplain rfl (present_setChild_of_present s c hpid)
    (h.table_at.of_same rfl (present_setChild_of_present s c hpid))

/-- No `fork` fails in `mini-shell-3`, which does not check its result. -/
def ForkChecked (v : Edition) (_ : List Event) (_ : State) (a : Act) : Prop :=
  v = .miniShell3 → a ≠ .fork none

theorem Table.other (h : Table es s) {v : Edition} {a : Act} {s' : State} {es' : List Event}
    (ha : ∀ args opened, a ≠ .command args opened) (hfork : ForkChecked v es s a)
    (hstep : step v s a = some (s', es')) : Table (es ++ es') s' := by
  have hnil : ∀ e ∈ ([] : List Event), e.Plain := fun e he => absurd he List.not_mem_nil
  have hone : ∀ e : Event, e.Plain → ∀ e' ∈ [e], e'.Plain := fun e he e' he' =>
    List.mem_singleton.mp he' ▸ he
  have hat := h.table_at
  cases transition_of_step hstep with
  | command hpos hcmd => exact absurd rfl (ha _ _)
  | condition hpos => exact h.external hpos
  | fork hpos heq => exact h.fork hpos (fun hv hnone => hfork hv (congrArg Act.fork hnone)) heq
  | setForeground hpos =>
    rw [hpos] at hat
    exact h.plain hnil rfl rfl hat
  | waitpid hpos hwait => exact h.waitpid hpos hwait
  | waitpidFails => exact h.plain hnil rfl rfl trivial
  | record hpos hrecord => exact h.record hpos hrecord
  | clearForeground hpos =>
    rw [hpos] at hat
    exact h.plain (hone _ trivial) rfl rfl hat
  | sigtstp => exact h.plain (hone _ trivial) rfl rfl hat
  | childStops hpid => exact h.setChild _ hpid hnil
  | childContinues hpid => exact h.setChild _ hpid hnil
  | childEnds hpid => exact h.setChild _ hpid (hone _ trivial)

theorem Table.step (h : Table es s) {v : Edition} {a : Act} {s' : State} {es' : List Event}
    (hfork : ForkChecked v es s a) (hstep : step v s a = some (s', es')) :
    Table (es ++ es') s' ∧ Recorded (fun es₁ e => Listed (es ++ es₁) e) es' := by
  by_cases ha : ∃ args opened, a = .command args opened
  · obtain ⟨args, opened, rfl⟩ := ha
    obtain ⟨hpos, heq⟩ := Option.ite_none_right_eq_some.mp hstep
    exact h.command hpos (Option.some.inj heq)
  · have hother : ∀ args opened, a ≠ .command args opened := fun args opened heq =>
      ha ⟨args, opened, heq⟩
    exact ⟨h.other hother hfork hstep, recorded_of_notMem (listed_notMem hother hstep)⟩

end Steps

/-! ### Runs -/

theorem table_init (v : Edition) : Table [] (machine v).init :=
  ⟨List.nodup_nil, fun _ hpid => absurd hpid Bool.false_ne_true,
    ⟨rfl, fun _ hq => absurd hq List.not_mem_nil⟩⟩

theorem meets_forkChecked {v : Edition} {as : List Act}
    (hfork : v = .miniShell3 → .fork none ∉ as) : (machine v).Meets (ForkChecked v) as :=
  Machine.meets_of_forall fun _ ha _ _ hv heq => hfork hv (heq ▸ ha)

/-- **What `jobs` lists.** In every run, with any order of commands, deliveries and changes of the
children, `jobs` prints each child that entered the table and has not been waited for to its end
once, in the order in which they entered. -/
theorem lists_of_run {v : Edition} {as : List Act} {s : State} {es : List Event}
    (hfork : v = .miniShell3 → .fork none ∉ as) (h : (machine v).run as = some (s, es)) :
    Lists es := by
  refine (Machine.run_invariant_of_meets (I := fun es s => Lists es ∧ Table es s)
    ⟨recorded_nil, table_init v⟩ ?_ (meets_forkChecked hfork) h).1
  · rintro es s a s' es' ⟨hlists, htable⟩ hfork hstep
    obtain ⟨htable', hlisted⟩ := htable.step hfork hstep
    exact ⟨recorded_append_iff.mpr ⟨hlists, hlisted⟩, htable'⟩

/-- A job in the background and one that is stopped, and then `jobs`. -/
def twoJobs : List Act :=
  [.command [ascii "sleep", ascii "15", ascii "&"] true, .fork (some 5),
    .command [ascii "sleep", ascii "20"] true, .fork (some 6), .setForeground, .childStops 6,
    .waitpid 6, .record, .clearForeground, .command [ascii "jobs"] true]

theorem lists_two_jobs : ∃ s es, (machine .miniShell3).run twoJobs = some (s, es) ∧
    es = [.forked 5 true, .stdout (ascii "[background pid 5]\n"), .forked 6 false, .stopped 6,
      .stdout (ascii "[Stopped] pid 6\n"), .cleared,
      .stdout (ascii "[1] Running  5 sleep 15\n"), .stdout (ascii "[2] Stopped  6 sleep 20\n"),
      .listed [⟨5, ascii "sleep 15", false⟩, ⟨6, ascii "sleep 20", true⟩]] ∧ Lists es := by
  have hrun : ((machine .miniShell3).run twoJobs).map Prod.snd =
      some [.forked 5 true, .stdout (ascii "[background pid 5]\n"), .forked 6 false, .stopped 6,
        .stdout (ascii "[Stopped] pid 6\n"), .cleared,
        .stdout (ascii "[1] Running  5 sleep 15\n"), .stdout (ascii "[2] Stopped  6 sleep 20\n"),
        .listed [⟨5, ascii "sleep 15", false⟩, ⟨6, ascii "sleep 20", true⟩]] := by decide +kernel
  obtain ⟨⟨s, es⟩, hs, rfl⟩ := Option.map_eq_some_iff.mp hrun
  exact ⟨s, _, hs, rfl, lists_of_run (fun _ => by decide) hs⟩

/-! ### Children that have ended -/

/-- How an event changes the children that are known to have ended. -/
def tallyEnded (pids : List ℤ) : Event → List ℤ
  | .forked pid _ => pids.filter (· ≠ pid)
  | .terminated pid => pid :: pids
  | _ => pids

/-- The children that have ended. -/
def ended (es : List Event) : List ℤ := es.foldl tallyEnded []

/-- `jobs` prints no child that has ended. -/
def ListsNoneEnded (es : List Event) : Event → Prop
  | .listed jobs => ∀ job ∈ jobs, job.pid ∉ ended es
  | _ => True

/-- `jobs` prints every child that was started in the background and has not ended. -/
def ListsEachRunning (es : List Event) : Event → Prop
  | .listed jobs =>
    ∀ pid, .forked pid true ∈ es → pid ∉ ended es → (jobs.map Job.pid).count pid = 1
  | _ => True

/-- A child in the background ends before `jobs` is read. -/
def endsUnnoticed : List Act :=
  [.command [ascii "true", ascii "&"] true, .fork (some 5), .childEnds 5 (.exited 0),
    .command [ascii "jobs"] true]

/-- One child more than there are entries is started in the background. -/
def overfull : List Act :=
  (List.range (maxJobs + 1)).flatMap (fun i =>
    [.command [ascii "sleep", ascii "9", ascii "&"] true, .fork (some (i + 1))]) ++
  [.command [ascii "jobs"] true]

/-- The first is printed by both shells, and the last of the others is not by `mini-shell-2`. -/
theorem jobs_lists_ended_and_omits :
    (¬ ∀ as s es, (machine .miniShell2).run as = some (s, es) → Recorded ListsNoneEnded es) ∧
      (¬ ∀ as s es, (machine .miniShell3).run as = some (s, es) → Recorded ListsNoneEnded es) ∧
      ¬ ∀ as s es, (machine .miniShell2).run as = some (s, es) → Recorded ListsEachRunning es := by
  have hended : ¬ ListsNoneEnded [.forked 5 true, .stdout (ascii "[background pid 5]\n"),
      .terminated 5, .stdout (ascii "[1] Running  5 true\n")]
      (.listed [⟨5, ascii "true", false⟩]) := fun h =>
    h _ List.mem_cons_self (by decide)
  refine ⟨fun hall => ?_, fun hall => ?_, fun hall => ?_⟩
  · exact hended (hall endsUnnoticed _ _ rfl _ _ [] rfl)
  · exact hended (hall endsUnnoticed _ _ rfl _ _ [] rfl)
  · have hrun : ((machine .miniShell2).run overfull).any (fun q => decide
        (q.2.getLast? = some (.listed q.1.jobs) ∧ .forked 65 true ∈ q.2.dropLast ∧
          65 ∉ ended q.2.dropLast ∧ (q.1.jobs.map Job.pid).count 65 = 0)) = true := by
      decide +kernel
    obtain ⟨⟨s, es⟩, hs, hq⟩ := (Option.any_eq_true _ _).mp hrun
    obtain ⟨hlast, hforked, hnot, hcount⟩ := of_decide_eq_true hq
    have hes : es = es.dropLast ++ [.listed s.jobs] :=
      (List.dropLast_append_getLast? _ hlast).symm
    have hone := hall overfull s es hs es.dropLast (.listed s.jobs) [] hes 65 hforked hnot
    rw [hcount] at hone
    cases hone

end JobShell

end SystemProgramming
