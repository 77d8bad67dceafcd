import SystemProgramming.MiniShell.Jobs

/-!
# The foreground child and `SIGTSTP`

The handler sends `SIGTSTP` to `fg_pid`. That variable is set after the child has been forked and
cleared after it has been reaped, so a signal that is delivered in between misses the child, or
goes to a process that is gone.

## Where a signal can come

The handler runs between two steps of the shell. `SafeAt` says at which of them a delivery is
harmless. It is not behind `fork`, before the assignment, if there is a child; not in `waitpid`, if
what is waited for is no child any more; and not behind `waitpid` for a child that has ended, until
the variable is cleared. The equivalence says that there are no other windows.

## How it goes

What is to happen is said by events alone: they tell which children there are, and which of them is
in the foreground (`view`). What does happen depends on `fg_pid`. `Consistent` connects the two,
line by line. Between commands `fg_pid` is -1 and there is no child in the foreground; while the
shell waits, `fg_pid` is the pid of what it waits for; and at the lines in between, one of the two
is ahead of the other. The windows are read off this table, and the equivalence for a whole run is
that for a single delivery, added up (`forwards_iff`).

## Main definitions

* `childrenOf`, `foregroundOf` — the children and the one in the foreground, from the events
* `Forwards` — what the handler is for
* `OutsideWindows` — the deliveries for which it does that
* `Consistent` — the invariant, by where the shell is

## Main results

* `forwards_iff` — in a run the handler does its work exactly when all deliveries are such
* `sigtstp_missed` — deliveries for which it does not
-/

namespace SystemProgramming

namespace JobShell

/-! ### Specification -/

/-- How an event changes the children that have not been reaped, and the one in the foreground: a
child is in the foreground from when it is forked, or resumed, until it is reaped or the command
that waits for it ends. -/
def tally (t : List ℤ × Option ℤ) : Event → List ℤ × Option ℤ
  | .forked pid background => (pid :: t.1, if background then t.2 else some pid)
  | .resumed pid => (t.1, if pid ∈ t.1 then some pid else none)
  | .reaped pid => (t.1.filter (· ≠ pid), if t.2 = some pid then none else t.2)
  | .cleared => (t.1, none)
  | _ => t

/-- The children that have not been reaped, and the one in the foreground. -/
def view (es : List Event) : List ℤ × Option ℤ := es.foldl tally ([], none)

/-- The children that have not been reaped. -/
def childrenOf (es : List Event) : List ℤ := (view es).1

/-- The child in the foreground. -/
def foregroundOf (es : List Event) : Option ℤ := (view es).2

/-- A `SIGTSTP` that is delivered goes to a child, if to any process, and to the child in the
foreground, if there is one. -/
def Forwarded (es : List Event) : Event → Prop
  | .sigtstp killed =>
    (∀ pid, killed = some pid → pid ∈ childrenOf es) ∧
      ∀ pid, foregroundOf es = some pid → killed = some pid
  | _ => True

/-- This holds of every delivery of a run. -/
def Forwards (es : List Event) : Prop := Recorded Forwarded es

/-- The places at which a delivery is harmless. Before `fg_pid = pid`, only when there is no child;
in `waitpid`, only when there is one; after `waitpid` has returned for a child that ended, only
when `fg_pid` names no process. -/
def State.SafeAt (s : State) : Position → Prop
  | .forked pid _ => s.present pid = false
  | .waiting pid _ => 0 < pid → s.present pid = true
  | .waited _ (.ended _) _ | .recorded (.ended _) => s.fgPid ≤ 0
  | _ => True

/-- A `SIGTSTP` is delivered outside the windows. -/
def OutsideWindows (_ : List Event) (s : State) : Act → Prop
  | .sigtstp => s.SafeAt s.position
  | _ => True

instance (s : State) : ∀ p : Position, Decidable (s.SafeAt p)
  | .forked pid _ => inferInstanceAs (Decidable (s.present pid = false))
  | .waiting pid _ => inferInstanceAs (Decidable (0 < pid → s.present pid = true))
  | .waited _ (.ended _) _ | .recorded (.ended _) => inferInstanceAs (Decidable (s.fgPid ≤ 0))
  | .ready | .forking .. | .waited _ .stopped _ | .recorded .stopped | .exited | .undefined =>
    isTrue trivial

instance (es : List Event) (s : State) : ∀ a : Act, Decidable (OutsideWindows es s a)
  | .sigtstp => inferInstanceAs (Decidable (s.SafeAt s.position))
  | .command .. | .condition .. | .fork _ | .setForeground | .waitpid _ | .waitpidFails | .record
  | .clearForeground | .childStops _ | .childContinues _ | .childEnds .. => isTrue trivial

/-! ### The invariant -/

/-- A process in the foreground, if it is a child. -/
def live (s : State) (pid : ℤ) : Option ℤ := if s.present pid then some pid else none

/-- `fg_pid` and the child in the foreground, by where the shell is. -/
def Consistent (fg : Option ℤ) (s : State) : Prop :=
  match s.position with
  | .ready | .forking .. | .exited => s.fgPid = -1 ∧ fg = none
  | .forked pid _ => s.fgPid = -1 ∧ fg = live s pid
  | .waiting pid _ => s.fgPid = pid ∧ fg = live s pid
  | .waited pid .stopped _ => s.fgPid = pid ∧ fg = live s pid ∧ (0 < pid → s.present pid = true)
  | .recorded .stopped => fg = live s s.fgPid ∧ (0 < s.fgPid → s.present s.fgPid = true)
  | .waited pid (.ended _) _ => s.fgPid = pid ∧ fg = none ∧ s.present pid = false
  | .recorded (.ended _) => fg = none ∧ s.present s.fgPid = false
  | .undefined => True

/-- What the events say is what the kernel and the shell know. -/
structure Tracks (es : List Event) (s : State) : Prop where
  mem_iff : ∀ pid, pid ∈ childrenOf es ↔ s.present pid = true
  pos : ∀ pid, s.present pid = true → 0 < pid
  consistent : Consistent (foregroundOf es) s

/-- An event that changes neither the children nor the foreground. -/
def Event.Silent : Event → Prop
  | .forked .. | .resumed _ | .reaped _ | .cleared => False
  | _ => True

theorem view_append (es es' : List Event) : view (es ++ es') = es'.foldl tally (view es) :=
  List.foldl_append

theorem view_append_of_silent (es : List Event) : ∀ {es' : List Event},
    (∀ e ∈ es', e.Silent) → view (es ++ es') = view es
  | [], _ => by rw [List.append_nil]
  | e :: es', h => by
    have hrest := view_append_of_silent (es ++ [e]) fun e' he' => h e' (List.mem_cons_of_mem _ he')
    have he := h e List.mem_cons_self
    rw [List.append_assoc, List.singleton_append] at hrest
    rw [hrest, view_append]
    cases e <;> first | rfl | exact he.elim

/-! ### What the steps keep -/

theorem Consistent.of_same {fg : Option ℤ} {s s' : State} (h : Consistent fg s)
    (hpos : s'.position = s.position) (hfg : s'.fgPid = s.fgPid)
    (hpresent : s'.present = s.present) : Consistent fg s' := by
  simp only [Consistent, live, hpos, hfg, hpresent]
  exact h

theorem consistent_undefined {fg : Option ℤ} {s : State} (h : s.position = .undefined) :
    Consistent fg s := by
  rw [Consistent, h]
  trivial

theorem Consistent.recordJob {fg : Option ℤ} {s : State} (h : Consistent fg s) (v : Edition)
    (job : Job) : Consistent fg (recordJob v s job) := by
  rcases recordJob_cases v s job with ⟨-, heq⟩ | ⟨-, heq⟩ | heq <;> rw [heq]
  · exact h.of_same rfl rfl rfl
  · exact h
  · exact consistent_undefined rfl

/-! ### Steps -/

section Steps

variable {es : List Event} {s : State}

/-- A step, by what its events say. -/
theorem Tracks.of_view {es' : List Event} {s' : State} {t : List ℤ × Option ℤ}
    (hview : view (es ++ es') = t) (hmem : ∀ pid, pid ∈ t.1 ↔ s'.present pid = true)
    (hpos : ∀ pid, s'.present pid = true → 0 < pid) (hcons : Consistent t.2 s') :
    Tracks (es ++ es') s' := by
  subst hview
  exact ⟨hmem, hpos, hcons⟩

/-- A step that says nothing of children. -/
theorem Tracks.silent (h : Tracks es s) {s' : State} {es' : List Event}
    (hsilent : ∀ e ∈ es', e.Silent) (hpresent : s'.present = s.present)
    (hcons : Consistent (foregroundOf es) s') : Tracks (es ++ es') s' := by
  have hview := view_append_of_silent es hsilent
  refine ⟨?_, ?_, ?_⟩
  · rw [childrenOf, hview, hpresent]
    exact h.mem_iff
  · rw [hpresent]
    exact h.pos
  · rw [foregroundOf, hview]
    exact hcons

theorem Tracks.not_present (h : Tracks es s) {pid : ℤ} (hpid : pid ≤ 0) :
    s.present pid = false := by
  by_contra hne
  exact absurd (h.pos pid (by simpa using hne)) (not_lt.mpr hpid)

theorem Consistent.moveReady {fg : Option ℤ} (h : Consistent fg s) (hpos : s.position = .ready)
    {p : Position} (hp : p = .ready ∨ (∃ b t, p = .forking b t) ∨ p = .exited) :
    Consistent fg { s with position := p } := by
  rw [Consistent, hpos] at h
  rcases hp with rfl | ⟨b, t, rfl⟩ | rfl <;> exact h

theorem Tracks.external (h : Tracks es s) {args : List (List UInt8)} {opened : Bool}
    (hpos : s.position = .ready) : Tracks (es ++ []) (executeExternalCommand s args opened) := by
  have hnil : ∀ e ∈ ([] : List Event), e.Silent := fun e he => absurd he List.not_mem_nil
  rcases executeExternalCommand_cases s args opened with heq | ⟨background, text, heq⟩ <;> rw [heq]
  · exact h.silent hnil rfl h.consistent
  · exact h.silent hnil rfl (h.consistent.moveReady hpos (Or.inr (Or.inl ⟨_, _, rfl⟩)))

theorem Tracks.foreground_of_ready (h : Tracks es s) (hpos : s.position = .ready) :
    s.fgPid = -1 ∧ foregroundOf es = none := by
  have hcons := h.consistent
  rwa [Consistent, hpos] at hcons

/-- `fg` makes the process of a job the one in the foreground, if it is a child. -/
theorem Tracks.fg (h : Tracks es s) (arg : Option (List UInt8)) (hpos : s.position = .ready) :
    Tracks (es ++ (fg s arg).2) (fg s arg).1 := by
  have hresult := fgResult s arg
  generalize JobShell.fg s arg = r at hresult ⊢
  cases hresult with
  | fails =>
    refine h.silent (fun e he => ?_) rfl h.consistent
    obtain rfl := List.mem_singleton.mp he
    trivial
  | undefined =>
    exact h.silent (fun e he => absurd he List.not_mem_nil) rfl (consistent_undefined rfl)
  | @resumes idx job =>
    have hpresent : (sendSigcont { s with jobs := setStopped s.jobs idx false } job.pid).present
        = s.present := present_sendSigcont _ _
    refine .of_view (view_append es _) ?_ ?_ ⟨(h.foreground_of_ready hpos).1, ?_⟩
    · exact fun pid => (h.mem_iff pid).trans (Iff.of_eq (congrArg (· pid = true) hpresent.symm))
    · intro pid hpid
      exact h.pos pid ((congrFun hpresent pid).symm.trans hpid)
    · simp only [live]
      have hsame := Iff.of_eq (congrArg (· job.pid = true) hpresent.symm)
      exact if_congr ((h.mem_iff job.pid).trans hsame) rfl rfl

theorem Tracks.command (h : Tracks es s) {v : Edition} {args : List (List UInt8)} {opened : Bool}
    {s' : State} {es' : List Event} (hpos : s.position = .ready)
    (hcmd : executeCommand v s args opened = (s', es')) : Tracks (es ++ es') s' := by
  have hnil : ∀ e ∈ ([] : List Event), e.Silent := fun e he => absurd he List.not_mem_nil
  have hresult := commandResult v s args opened
  obtain ⟨rfl, rfl⟩ := Prod.ext_iff.mp hcmd.symm
  generalize executeCommand v s args opened = r at hresult ⊢
  cases hresult with
  | quiet => exact h.silent hnil rfl h.consistent
  | exit => exact h.silent hnil rfl (h.consistent.moveReady hpos (Or.inr (Or.inr rfl)))
  | jobs =>
    refine h.silent (fun e he => ?_) rfl h.consistent
    rcases stdout_or_listed_of_mem he with ⟨text, rfl⟩ | rfl <;> trivial
  | fg arg => exact h.fg arg hpos
  | external => exact h.external hpos

theorem Tracks.fork (h : Tracks es s) {v : Edition} {background : Bool} {text : List UInt8}
    {pid : Option ℤ} {s' : State} {es' : List Event} (hpos : s.position = .forking background text)
    (hfork : fork v s background text pid = some (s', es')) : Tracks (es ++ es') s' := by
  obtain ⟨hfg, hnone⟩ : s.fgPid = -1 ∧ foregroundOf es = none := by
    have hcons := h.consistent
    rwa [Consistent, hpos] at hcons
  have hready : Consistent (foregroundOf es) { s with position := .ready } := ⟨hfg, hnone⟩
  have hfailed : ∀ text, ∀ e ∈ [Event.forkFailed, .stdout text], e.Silent := fun text e he => by
    rcases List.mem_pair.mp he with rfl | rfl <;> trivial
  cases pid with
  | some pid =>
    obtain ⟨⟨hpid, -⟩, heq⟩ := Option.ite_none_right_eq_some.mp hfork
    have hpresent := present_setChild s pid (some .running)
    have hmem : ∀ q, q ∈ pid :: childrenOf es ↔
        (s.setChild pid (some .running)).present q = true := by
      intro q
      rw [hpresent, List.mem_cons, h.mem_iff]
      by_cases hq : q = pid
      · simp [hq]
      · simp [hq]
    have hposs : ∀ q, (s.setChild pid (some .running)).present q = true → 0 < q :=
      fun _ => pos_of_present_setChild s h.pos hpid
    cases background with
    | true =>
      cases heq
      refine .of_view (view_append es _) ?_ ?_ (Consistent.recordJob ?_ v _)
      · rwa [present_recordJob]
      · rwa [present_recordJob]
      · exact ⟨hfg, hnone⟩
    | false =>
      cases heq
      refine .of_view (view_append es _) hmem hposs ⟨hfg, ?_⟩
      exact (if_pos (present_setChild_self s pid (some .running))).symm
  | none =>
    cases v with
    | miniShell2 =>
      cases hfork
      refine h.silent (fun e he => ?_) rfl hready
      rcases List.mem_pair.mp he with rfl | rfl <;> trivial
    | miniShell3 =>
      cases background with
      | true =>
        cases hfork
        exact h.silent (hfailed _) (present_recordJob _ _ _) (hready.recordJob _ _)
      | false =>
        cases hfork
        refine h.silent (fun e he => ?_) rfl ⟨hfg, ?_⟩
        · obtain rfl := List.mem_singleton.mp he
          trivial
        · rw [hnone]
          have hgone : s.present (-1) = false := h.not_present (by decide)
          exact (if_neg (hgone.symm ▸ Bool.false_ne_true)).symm

theorem Tracks.waitpid (h : Tracks es s) {pid child : ℤ} {f : Foreground}
    {s' : State} {es' : List Event} (hpos : s.position = .waiting pid f)
    (hwait : waitpid s pid f child = some (s', es')) : Tracks (es ++ es') s' := by
  obtain ⟨hfg, hlive⟩ : s.fgPid = pid ∧ foregroundOf es = live s pid := by
    have hcons := h.consistent
    rwa [Consistent, hpos] at hcons
  rw [JobShell.waitpid] at hwait
  obtain ⟨hchild, heq⟩ := Option.ite_none_right_eq_some.mp hwait
  split at heq
  · rename_i status hended
    cases heq
    have hhere := present_of_eq_some hended
    have hpresent := present_setChild s child none
    have hmem : ∀ q, q ∈ (childrenOf es).filter (· ≠ child) ↔
        (s.setChild child none).present q = true := by
      intro q
      rw [hpresent, List.mem_filter, h.mem_iff]
      by_cases hq : q = child
      · simp [hq]
      · simp [hq]
    have hgone : (s.setChild child none).present pid = false := by
      rcases hchild with rfl | rfl
      · exact present_setChild_self s child none
      · have hnone := h.not_present (show (-1 : ℤ) ≤ 0 by decide)
        have hne : (-1 : ℤ) ≠ child := fun heq => by
          rw [heq, hhere] at hnone
          cases hnone
        rwa [present_setChild_of_ne s hne]
    refine .of_view (view_append es _) hmem (fun q hq => ?_) ⟨hfg, ?_, hgone⟩
    · exact h.pos q ((h.mem_iff q).mp (List.mem_of_mem_filter ((hmem q).mpr hq)))
    · show (if foregroundOf es = some child then none else foregroundOf es) = none
      rcases hchild with rfl | rfl
      · rw [hlive, live, if_pos hhere, if_pos rfl]
      · rw [hlive, live, h.not_present (show (-1 : ℤ) ≤ 0 by decide)]
        exact ite_self none
  · rename_i hstopped
    have hhere := present_of_eq_some hstopped
    have hsame := present_setChild_of_present s (.stopped true) hhere
    cases heq
    refine h.silent (fun e he => ?_) (present_setChild_of_present s _ hhere) ⟨hfg, ?_, ?_⟩
    · obtain rfl := List.mem_singleton.mp he
      trivial
    · exact hlive.trans (if_congr (Iff.of_eq (congrArg (· pid = true) hsame.symm)) rfl rfl)
    · intro hpid
      rcases hchild with rfl | rfl
      · exact (congrFun hsame _).trans hhere
      · exact absurd hpid (by decide)
  · cases heq

theorem Tracks.record (h : Tracks es s) {v : Edition} {pid : ℤ} {status : WaitStatus}
    {f : Foreground} {s' : State} {es' : List Event} (hpos : s.position = .waited pid status f)
    (hrecord : record v s pid status f = (s', es')) : Tracks (es ++ es') s' := by
  have hcons := h.consistent
  rw [Consistent, hpos] at hcons
  have hnil : ∀ e ∈ ([] : List Event), e.Silent := fun e he => absurd he List.not_mem_nil
  have hprint : ∀ text, ∀ e ∈ [Event.stdout text], e.Silent := fun text e he => by
    obtain rfl := List.mem_singleton.mp he
    trivial
  cases status with
  | stopped =>
    obtain ⟨rfl, hlive⟩ := hcons
    cases f with
    | command text =>
      cases hrecord
      have hrecorded : Consistent (foregroundOf es) { s with position := .recorded .stopped } :=
        hlive
      exact h.silent (hprint _) (present_recordJob _ _ _) (hrecorded.recordJob v _)
    | job idx =>
      cases hrecord
      exact h.silent (hprint _) rfl hlive
  | ended status =>
    obtain ⟨rfl, hgone⟩ := hcons
    cases f with
    | command text =>
      cases hrecord
      exact h.silent hnil rfl hgone
    | job idx =>
      cases hrecord
      exact h.silent hnil rfl hgone

/-- A child changes, and is still there. -/
theorem Tracks.setChild (h : Tracks es s) {pid : ℤ} (c : ChildState) {es' : List Event}
    (hpid : s.present pid = true) (hsilent : ∀ e ∈ es', e.Silent) :
    Tracks (es ++ es') (s.setChild pid (some c)) :=
  h.silent hsilent (present_setChild_of_present s c hpid)
    (h.consistent.of_same rfl rfl (present_setChild_of_present s c hpid))

theorem Tracks.step (h : Tracks es s) {v : Edition} {a : Act} {s' : State} {es' : List Event}
    (hstep : step v s a = some (s', es')) : Tracks (es ++ es') s' := by
  have hnil : ∀ e ∈ ([] : List Event), e.Silent := fun e he => absurd he List.not_mem_nil
  have hone : ∀ e : Event, e.Silent → ∀ e' ∈ [e], e'.Silent := fun e he e' he' =>
    List.mem_singleton.mp he' ▸ he
  cases transition_of_step hstep with
  | command hpos hcmd => exact h.command hpos hcmd
  | condition hpos => exact h.external hpos
  | fork hpos hfork => exact h.fork hpos hfork
  | setForeground hpos =>
    have hcons := h.consistent
    rw [Consistent, hpos] at hcons
    exact h.silent hnil rfl ⟨rfl, hcons.2⟩
  | waitpid hpos hwait => exact h.waitpid hpos hwait
  | waitpidFails => exact h.silent hnil rfl (consistent_undefined rfl)
  | record hpos hrecord => exact h.record hpos hrecord
  | clearForeground hpos =>
    have hview : view (es ++ [.cleared]) = (childrenOf es, none) := view_append es [.cleared]
    refine ⟨?_, h.pos, ?_⟩
    · rw [childrenOf, hview]
      exact h.mem_iff
    · rw [foregroundOf, hview]
      exact ⟨rfl, rfl⟩
  | sigtstp => exact h.silent (hone _ trivial) rfl h.consistent
  | childStops hpid => exact h.setChild _ hpid hnil
  | childContinues hpid => exact h.setChild _ hpid hnil
  | childEnds hpid => exact h.setChild _ hpid (hone _ trivial)

end Steps

/-! ### Runs -/

/-- What the handler does, by `fg_pid` and the child in the foreground. -/
theorem forwarded_iff {es : List Event} {s : State} (h : Tracks es s) :
    Forwarded es (.sigtstp (sigtstpHandler s)) ↔
      (0 < s.fgPid → s.present s.fgPid = true) ∧
        ∀ pid, foregroundOf es = some pid → 0 < s.fgPid ∧ s.fgPid = pid := by
  have hkilled : ∀ pid, sigtstpHandler s = some pid ↔ 0 < s.fgPid ∧ s.fgPid = pid := by
    intro pid
    rw [sigtstpHandler, Option.ite_none_right_eq_some, Option.some.injEq]
  simp only [Forwarded, hkilled, h.mem_iff]
  refine and_congr_left fun _ => ⟨fun hall hpos => hall _ ⟨hpos, rfl⟩, ?_⟩
  rintro hall pid ⟨hpos, rfl⟩
  exact hall hpos

/-- **One delivery.** -/
theorem forwarded_iff_outsideWindows {es : List Event} {s : State} (h : Tracks es s)
    (hdef : s.position ≠ .undefined) :
    Forwarded es (.sigtstp (sigtstpHandler s)) ↔ OutsideWindows es s .sigtstp := by
  have hcons := h.consistent
  rw [forwarded_iff h]
  have hidle : s.fgPid = -1 → ¬ 0 < s.fgPid := fun hfg hpos => by rw [hfg] at hpos; cases hpos
  have hlive : ∀ pid q, live s pid = some q ↔ s.present pid = true ∧ pid = q := by
    intro pid q
    rw [live, Option.ite_none_right_eq_some, Option.some.injEq]
  -- a child in the foreground that `fg_pid` names is forwarded to
  have hnamed : foregroundOf es = live s s.fgPid →
      ∀ pid, foregroundOf es = some pid → 0 < s.fgPid ∧ s.fgPid = pid := by
    intro hfg pid hpid
    obtain ⟨hpresent, rfl⟩ := (hlive _ _).mp (hfg.symm.trans hpid)
    exact ⟨h.pos _ hpresent, rfl⟩
  -- a process that is gone must not be named
  have hended : foregroundOf es = none → s.present s.fgPid = false →
      (((0 < s.fgPid → s.present s.fgPid = true) ∧
        ∀ pid, foregroundOf es = some pid → 0 < s.fgPid ∧ s.fgPid = pid) ↔ s.fgPid ≤ 0) := by
    intro hnone hgone
    simp only [hnone, hgone, Bool.false_eq_true, imp_false, not_lt, reduceCtorEq, false_imp_iff,
      implies_true, and_true]
  rw [Consistent] at hcons
  show _ ↔ s.SafeAt s.position
  split at hcons <;> rename_i hpos <;> rw [hpos]
  · exact iff_of_true ⟨fun hfg => absurd hfg (hidle hcons.1), by simp [hcons.2]⟩ trivial
  · exact iff_of_true ⟨fun hfg => absurd hfg (hidle hcons.1), by simp [hcons.2]⟩ trivial
  · exact iff_of_true ⟨fun hfg => absurd hfg (hidle hcons.1), by simp [hcons.2]⟩ trivial
  · rename_i pid f
    constructor
    · rintro ⟨-, hall⟩
      by_contra hpresent
      have hhere : s.present pid = true := Bool.of_not_eq_false hpresent
      exact hidle hcons.1 (hall pid (hcons.2.trans ((hlive _ _).mpr ⟨hhere, rfl⟩))).1
    · intro hgone
      refine ⟨fun hfg => absurd hfg (hidle hcons.1), fun q hq => ?_⟩
      rw [hcons.2, hlive, hgone] at hq
      cases hq.1
  · obtain ⟨rfl, hfg⟩ := hcons
    exact and_iff_left (hnamed hfg)
  · obtain ⟨rfl, hfg, hhere⟩ := hcons
    exact iff_of_true ⟨hhere, hnamed hfg⟩ trivial
  · exact iff_of_true ⟨hcons.2, hnamed hcons.1⟩ trivial
  · obtain ⟨rfl, hnone, hgone⟩ := hcons
    exact hended hnone hgone
  · exact hended hcons.1 hcons.2
  · exact absurd hpos hdef

/-- **The foreground child and `SIGTSTP`.** In every run, the handler sends every `SIGTSTP` it is
called for to the child in the foreground, and none to a process that is not a child, exactly when
all of them are delivered outside the windows. -/
theorem forwards_iff {v : Edition} {as : List Act} {s : State} {es : List Event}
    (h : (machine v).run as = some (s, es)) :
    Forwards es ↔ (machine v).Meets OutsideWindows as := by
  refine Machine.recorded_iff_meets (I := Tracks) ?_ (fun es s a s' es' hI hstep => hI.step hstep)
    ?_ h
  · exact ⟨fun pid => iff_of_false List.not_mem_nil Bool.false_ne_true,
      fun pid hpid => absurd hpid Bool.false_ne_true, ⟨rfl, rfl⟩⟩
  · intro es s a s' es' hI hstep
    by_cases ha : a = .sigtstp
    · subst ha
      obtain ⟨hpos, heq⟩ := Option.ite_none_left_eq_some.mp hstep
      cases heq
      rw [recorded_singleton_iff, List.append_nil]
      exact forwarded_iff_outsideWindows hI fun hdef => hpos (Or.inr hdef)
    · refine iff_of_true (fun es₁ e es₂ heq => ?_) ?_
      · have hnot := sigtstp_notMem ha hstep
        cases e with
        | sigtstp killed => exact absurd (heq ▸ by simp) (hnot killed)
        | _ => trivial
      · cases a with
        | sigtstp => exact absurd rfl ha
        | _ => trivial

/-- Ctrl-Z while a command runs: the child is stopped and becomes a job. -/
theorem forwards_while_waiting : ∃ s es, (machine .miniShell2).run
      [.command [ascii "sleep", ascii "20"] true, .fork (some 5), .setForeground, .sigtstp,
        .childStops 5, .waitpid 5, .record, .clearForeground] = some (s, es) ∧
    es = [.forked 5 false, .sigtstp (some 5), .stopped 5,
      .stdout (ascii "[Stopped] pid 5\n"), .cleared] ∧ Forwards es := by
  have hrun : ((machine .miniShell2).run [.command [ascii "sleep", ascii "20"] true,
      .fork (some 5), .setForeground, .sigtstp, .childStops 5, .waitpid 5, .record,
      .clearForeground]).map Prod.snd =
      some [.forked 5 false, .sigtstp (some 5), .stopped 5,
        .stdout (ascii "[Stopped] pid 5\n"), .cleared] := by decide +kernel
  obtain ⟨⟨s, es⟩, hs, rfl⟩ := Option.map_eq_some_iff.mp hrun
  exact ⟨s, _, hs, rfl, (forwards_iff hs).mpr (by decide +kernel)⟩

/-- A command whose child is forked when the signal is delivered. -/
def stopAfterFork : List Act :=
  [.command [ascii "sleep", ascii "20"] true, .fork (some 5), .sigtstp]

/-- A command whose child has been reaped when the signal is delivered. -/
def stopAfterReap : List Act :=
  [.command [ascii "true"] true, .fork (some 5), .setForeground, .childEnds 5 (.exited 0),
    .waitpid 5, .sigtstp]

/-- In both shells the first signal is lost, and the second is sent to a process that is gone. -/
theorem sigtstp_missed :
    (¬ ∀ as s es, (machine .miniShell2).run as = some (s, es) → Forwards es) ∧
      ¬ ∀ as s es, (machine .miniShell3).run as = some (s, es) → Forwards es := by
  have hlost : ¬ Forwarded [.forked 5 false] (.sigtstp none) := fun h =>
    nomatch h.2 5 rfl
  have hgone : ¬ Forwarded [.forked 5 false, .terminated 5, .reaped 5] (.sigtstp (some 5)) :=
    fun h => absurd (h.1 5 rfl) (by decide)
  constructor
  · intro hall
    exact hlost (hall stopAfterFork _ _ rfl [.forked 5 false] _ [] rfl)
  · intro hall
    exact hgone (hall stopAfterReap _ _ rfl [.forked 5 false, .terminated 5, .reaped 5] _ [] rfl)

end JobShell

end SystemProgramming
