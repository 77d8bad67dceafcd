import SystemProgramming.MiniShell.JobBounds
import SystemProgramming.MiniShell.Parse

/-!
# The command of a recorded job

`jobs[].command` is put together by `strncat`, which is given the size of the whole field and so
does not keep the text inside it. What keeps it inside is where the words come from: they are
tokens of one line that fits in `MAX_LINE` bytes, and joining some of the tokens of a line with
single spaces gives nothing longer than the line.

## How it goes

The words reach the table in two steps. When the command is executed its text is put together, and
when its child stops, or right behind `fork` if it is in the background, the text is copied into an
entry. Between these two the shell may be anywhere in `execute_external_command`; `Texts` says of
each position with a text that it is that of the last command. A `fg` in between has no text of its
own, and its job keeps the one that it has.

That the text fits is a fact about lines. A token is followed by a separator in the line, and in the
text by a space, so the text of all tokens is not longer than the line, and that of some of them is
shorter still.

## Main definitions

* `Delivered` — words that `parse_command` delivers
* `lastWords` — the words of the last command
* `jobText` — what the entry of a job is to say

## Main results

* `commandText_of_delivered` — the loops of `strncat` join the words, inside the field
* `recorded_command` — what is recorded
-/

namespace SystemProgramming

namespace JobShell

open MiniShell (maxLine)

/-! ### Specification -/

/-- The words are what `parse_command` delivers for some line and some variables; the expanded line
fits in its buffer. -/
def Delivered (args : List (List UInt8)) : Prop :=
  ∃ s line text, MiniShell.parseCommand s line = some (args, text)

/-- The words of a command or of a condition. -/
def Act.words : Act → Option (List (List UInt8))
  | .command args _ | .condition args _ => some args
  | _ => none

/-- The words of the last command or condition. -/
def lastWords (as : List Act) : List (List UInt8) := as.foldl (fun ws a => a.words.getD ws) []

/-- The words without a final `&`. -/
def foregroundWords (args : List (List UInt8)) : List (List UInt8) :=
  if args.getLast? = some (ascii "&") then args.dropLast else args

/-- The words without a final `&` and without the redirections, joined by single spaces. -/
def jobText (args : List (List UInt8)) : List UInt8 :=
  List.intercalate (ascii " ") (cleanArgs (foregroundWords args))

@[simp] theorem lastWords_concat (as : List Act) (a : Act) :
    lastWords (as ++ [a]) = a.words.getD (lastWords as) := List.foldl_concat ..

/-! ### The text -/

theorem cleanArgs_sublist : ∀ args : List (List UInt8), (cleanArgs args).Sublist args
  | [] => List.Sublist.refl _
  | [arg] => List.Sublist.refl _
  | arg :: next :: args => by
    rw [cleanArgs]
    split
    · exact ((cleanArgs_sublist args).cons next).cons arg
    · exact (cleanArgs_sublist (next :: args)).cons_cons arg

theorem foregroundWords_sublist (args : List (List UInt8)) :
    (foregroundWords args).Sublist args := by
  rw [foregroundWords]
  split
  · exact List.dropLast_sublist args
  · exact List.Sublist.refl args

/-- Words that fit in the field are joined by the loops of `strncat`. -/
theorem commandText_eq_intercalate : ∀ {ws : List (List UInt8)},
    (∀ w ∈ ws, w.length ≤ maxLine - 1) → commandText ws = List.intercalate (ascii " ") ws
  | [], _ => rfl
  | [w], h => by
    rw [commandText, List.take_of_length_le (h w List.mem_cons_self)]
    simp [List.intercalate]
  | w :: w' :: ws, h => by
    have hrest := commandText_eq_intercalate fun v hv => h v (List.mem_cons_of_mem w hv)
    rw [commandText, hrest, List.take_of_length_le (h w List.mem_cons_self)]
    · simp [List.intercalate]
    · exact List.cons_ne_nil _ _

/-- **The text fits.** For words that `parse_command` delivers, the loops of `strncat` join the
words, and the text with its terminator fits in the field. -/
theorem commandText_of_delivered {args : List (List UInt8)} (h : Delivered args) :
    commandText (cleanArgs (foregroundWords args)) = jobText args ∧
      (jobText args).length < maxLine := by
  obtain ⟨s, line, text, hparse⟩ := h
  obtain ⟨buffer, hbuffer, heq⟩ := Option.map_eq_some_iff.mp hparse
  obtain ⟨rfl, -⟩ := Prod.mk.inj heq
  have hlen : buffer.length < maxLine := by
    obtain ⟨expanded, -, hexpanded⟩ := Option.bind_eq_some_iff.mp hbuffer
    obtain ⟨hfits, hsame⟩ := Option.ite_none_right_eq_some.mp hexpanded
    exact Option.some.inj hsame ▸ hfits
  have hsub : ∀ {ws : List (List UInt8)},
      ws.Sublist (cleanArgs (foregroundWords
        ((tokens MiniShell.isSep buffer).take (MiniShell.maxArgs - 1)))) →
      (List.intercalate [32] ws).length ≤ buffer.length := fun hws =>
    length_intercalate_le_of_sublist
      (((hws.trans (cleanArgs_sublist _)).trans (foregroundWords_sublist _)).trans
        (List.take_sublist _ _)) 32
  refine ⟨commandText_eq_intercalate fun w hw => ?_, (hsub (List.Sublist.refl _)).trans_lt hlen⟩
  have hword := hsub (List.singleton_sublist.mpr hw)
  rw [show List.intercalate [32] [w] = w by simp [List.intercalate]] at hword
  exact Nat.le_pred_of_lt (hword.trans_lt hlen)

/-! ### The text on its way to the table -/

/-- The text of the command in progress, by where the shell is. -/
def Position.text : Position → Option (List UInt8)
  | .forking _ text | .forked _ (.command text) | .waiting _ (.command text)
  | .waited _ _ (.command text) => some text
  | _ => none

/-- The text is that of the last command. -/
def Texts (as : List Act) (s : State) : Prop :=
  ∀ text, s.position.text = some text →
    text = commandText (cleanArgs (foregroundWords (lastWords as)))

theorem text_recordJob {v : Edition} {s : State} {job : Job} (h : s.position.text = none) :
    (recordJob v s job).position.text = none := by
  rcases recordJob_cases v s job with ⟨-, heq⟩ | ⟨-, heq⟩ | heq <;> rw [heq]
  · exact h
  · exact h
  · rfl

theorem text_external {s : State} (hpos : s.position = .ready) {args : List (List UInt8)}
    {opened : Bool} {text : List UInt8}
    (h : (executeExternalCommand s args opened).position.text = some text) :
    text = commandText (cleanArgs (foregroundWords args)) := by
  let started : Position :=
    .forking (args.getLast? = some (ascii "&")) (commandText (cleanArgs (foregroundWords args)))
  have hexternal : executeExternalCommand s args opened =
      if opened = true ∨ cleanArgs (foregroundWords args) = foregroundWords args then
        { s with position := started }
      else s := rfl
  rw [hexternal] at h
  split at h
  · exact (Option.some.inj h).symm
  · rw [hpos] at h
    cases h

theorem text_command {v : Edition} {s : State} (hpos : s.position = .ready)
    {args : List (List UInt8)} {opened : Bool} {text : List UInt8}
    (h : (executeCommand v s args opened).1.position.text = some text) :
    text = commandText (cleanArgs (foregroundWords args)) := by
  have hready : s.position.text = none := hpos ▸ rfl
  have hresult := commandResult v s args opened
  generalize executeCommand v s args opened = r at hresult h
  cases hresult with
  | quiet => exact absurd (hready.symm.trans h) (by simp)
  | exit => cases h
  | jobs => exact absurd (hready.symm.trans h) (by simp)
  | fg arg =>
    have hfg := fgResult s arg
    generalize fg s arg = r at hfg h
    cases hfg with
    | fails => exact absurd (hready.symm.trans h) (by simp)
    | undefined => cases h
    | resumes => cases h
  | external => exact text_external hpos h

theorem text_fork {v : Edition} {s s' : State} {background : Bool} {text : List UInt8}
    {child : Option ℤ} {es' : List Event}
    (h : fork v s background text child = some (s', es')) :
    s'.position.text = none ∨ s'.position.text = some text := by
  cases child with
  | none =>
    cases v with
    | miniShell2 =>
      cases h
      exact Or.inl rfl
    | miniShell3 =>
      cases background <;> cases h
      · exact Or.inr rfl
      · exact Or.inl (text_recordJob rfl)
  | some child =>
    obtain ⟨-, heq⟩ := Option.ite_none_right_eq_some.mp h
    cases background <;> cases heq
    · exact Or.inr rfl
    · exact Or.inl (text_recordJob rfl)

theorem text_record (v : Edition) (s : State) (pid : ℤ) (status : WaitStatus) (f : Foreground) :
    (record v s pid status f).1.position.text = none := by
  cases status <;> cases f <;> first | rfl | exact text_recordJob rfl

/-- A step that begins no command passes the text on, or has none. -/
theorem Texts.pass {as : List Act} {s s' : State} {a : Act} (h : Texts as s)
    (ha : a.words = none)
    (hs' : s'.position.text = none ∨ s'.position.text = s.position.text) :
    Texts (as ++ [a]) s' := by
  intro text htext
  rw [lastWords_concat, ha, Option.getD_none]
  rcases hs' with hs' | hs'
  · exact absurd (hs'.symm.trans htext) (by simp)
  · exact h text (hs'.symm.trans htext)

theorem Texts.step {v : Edition} {as : List Act} {s s' : State} {a : Act} {es' : List Event}
    (h : Texts as s) (hstep : step v s a = some (s', es')) : Texts (as ++ [a]) s' := by
  cases transition_of_step hstep with
  | @command args opened _ _ hpos hcmd =>
    intro text htext
    rw [lastWords_concat]
    refine @text_command v s hpos args opened text ?_
    rw [hcmd]
    exact htext
  | condition hpos =>
    intro text htext
    rw [lastWords_concat]
    exact text_external hpos htext
  | fork hpos heq =>
    refine h.pass rfl ?_
    rw [hpos]
    exact text_fork heq
  | @setForeground pid f hpos =>
    refine h.pass rfl (Or.inr ?_)
    rw [hpos]
    cases f <;> rfl
  | @waitpid pid child f _ _ hpos hwait =>
    refine h.pass rfl (Or.inr ?_)
    rw [waitpid] at hwait
    obtain ⟨-, heq⟩ := Option.ite_none_right_eq_some.mp hwait
    rw [hpos]
    split at heq <;> cases heq <;> cases f <;> rfl
  | waitpidFails => exact h.pass rfl (Or.inl rfl)
  | @record pid status f _ _ hpos hrecord =>
    refine h.pass rfl (Or.inl ?_)
    have hnone := text_record v s pid status f
    rwa [hrecord] at hnone
  | clearForeground => exact h.pass rfl (Or.inl rfl)
  | sigtstp => exact h.pass rfl (Or.inr rfl)
  | childStops => exact h.pass rfl (Or.inr rfl)
  | childContinues => exact h.pass rfl (Or.inr rfl)
  | childEnds => exact h.pass rfl (Or.inr rfl)

theorem texts_of_run {v : Edition} {as : List Act} {s : State} {es : List Event}
    (h : (machine v).run as = some (s, es)) : Texts as s :=
  Machine.run_invariant_schedule (I := Texts) (fun _ htext => by cases htext)
    (fun _ _ _ _ _ _ _ hI hstep => hI.step hstep) h

/-! ### What is recorded -/

theorem lastWords_eq (as : List Act) :
    lastWords as = [] ∨ ∃ a ∈ as, a.words = some (lastWords as) := by
  induction as using List.reverseRecOn with
  | nil => exact Or.inl rfl
  | append_singleton as a ih =>
    rw [lastWords_concat]
    cases ha : a.words with
    | some args => exact Or.inr ⟨a, by simp, ha⟩
    | none =>
      refine ih.imp id fun ⟨b, hb, hwords⟩ => ⟨b, List.mem_append_left _ hb, hwords⟩

theorem recordJob_of_fits {v : Edition} {s : State} {job : Job} (hroom : s.jobs.length < maxJobs)
    (hfits : job.command.length < maxLine) :
    (recordJob v s job).jobs = s.jobs ++ [job] := by
  rw [recordJob.eq_def, if_pos hroom, if_pos hfits]

/-- Where a job is recorded, its command is the text of the command in progress. -/
theorem jobs_of_records {v : Edition} {s s' : State} {a : Act} {es' : List Event}
    (hstep : step v s a = some (s', es')) (hrecords : records v s a = true)
    (hroom : s.jobs.length < maxJobs)
    (hfits : ∀ text, s.position.text = some text → text.length < maxLine) :
    ∃ job, s'.jobs = s.jobs ++ [job] ∧ s.position.text = some job.command := by
  cases transition_of_step hstep with
  | @fork background text pid _ _ hpos heq =>
    rw [hpos] at hfits
    have htext := hfits text rfl
    have hbackground : background = true ∧ (pid.isSome ∨ v = .miniShell3) := by
      rw [records, hpos] at hrecords
      simpa using hrecords
    obtain ⟨rfl, hpid⟩ := hbackground
    rw [hpos]
    cases pid with
    | some pid =>
      obtain ⟨-, heq⟩ := Option.ite_none_right_eq_some.mp heq
      cases heq
      exact ⟨_, recordJob_of_fits hroom htext, rfl⟩
    | none =>
      obtain rfl := hpid.resolve_left Bool.false_ne_true
      cases heq
      exact ⟨_, recordJob_of_fits hroom htext, rfl⟩
  | @record pid status f _ _ hpos hrecord =>
    rw [hpos] at hfits
    rw [records, hpos] at hrecords
    rw [hpos]
    cases status with
    | ended status => cases hrecords
    | stopped =>
      cases f with
      | job idx => cases hrecords
      | command text =>
        have htext := hfits text rfl
        cases hrecord
        exact ⟨_, recordJob_of_fits hroom htext, rfl⟩
  | _ => cases hrecords

/-- **The command of a recorded job.** In every run whose commands and conditions are delivered by
`parse_command`, a job that is recorded while there is room is added to the table, its command is
the words of the last command without a final `&` and without the redirections, joined by single
spaces, and with its terminator it fits in the field. -/
theorem recorded_command {v : Edition} {as : List Act} {s s' : State} {es : List Event} {a : Act}
    {es' : List Event} (hwords : ∀ a ∈ as, ∀ args, a.words = some args → Delivered args)
    (h : (machine v).run as = some (s, es)) (hstep : step v s a = some (s', es'))
    (hrecords : records v s a = true) (hroom : s.jobs.length < maxJobs) :
    ∃ job, s'.jobs = s.jobs ++ [job] ∧ job.command = jobText (lastWords as) ∧
      job.command.length + 1 ≤ maxLine := by
  have htext : ∀ text, s.position.text = some text →
      text = jobText (lastWords as) ∧ text.length < maxLine := by
    intro text hpos
    obtain rfl := texts_of_run h text hpos
    rcases lastWords_eq as with hnil | ⟨b, hb, hb'⟩
    · rw [hnil]
      exact ⟨rfl, by decide⟩
    · obtain ⟨heq, hlt⟩ := commandText_of_delivered (hwords b hb _ hb')
      exact ⟨heq, heq ▸ hlt⟩
  obtain ⟨job, hjobs, hpos⟩ :=
    jobs_of_records hstep hrecords hroom fun text hpos => (htext text hpos).2
  exact ⟨job, hjobs, (htext _ hpos).1, (htext _ hpos).2⟩

/-- The words of a command line. -/
def sortWords : List (List UInt8) :=
  [ascii "sort", ascii "<", ascii "in", ascii "-r", ascii ">", ascii "out", ascii "&"]

theorem sortWords_delivered : Delivered sortWords :=
  ⟨.initial fun _ => none, ascii "  sort < in  -r\t> out & ", [], by decide +kernel⟩

/-- It is recorded as `sort -r`. -/
theorem recorded_sort :
    ∃ s es s' es' job, (machine .miniShell3).run [.command sortWords true] = some (s, es) ∧
      step .miniShell3 s (.fork (some 5)) = some (s', es') ∧ s'.jobs = [job] ∧
      job.command = jobText (lastWords [.command sortWords true]) ∧
      job.command = ascii "sort -r" ∧ job.command.length + 1 ≤ maxLine := by
  have hrun : (machine .miniShell3).run [.command sortWords true] =
      some (⟨[], -1, fun _ => none, .forking true (ascii "sort -r")⟩, []) := rfl
  obtain ⟨job, hjobs, htext, hfits⟩ := @recorded_command .miniShell3 _ _ _ _ (.fork (some 5)) _
    (fun a ha args hargs => by
      obtain rfl := List.mem_singleton.mp ha
      obtain rfl := Option.some.inj hargs
      exact sortWords_delivered) hrun rfl rfl (by decide)
  have hsort : jobText (lastWords [.command sortWords true]) = ascii "sort -r" := by
    decide +kernel
  exact ⟨_, _, _, _, job, hrun, rfl, hjobs, htext, htext.trans hsort, hfits⟩

end JobShell

end SystemProgramming
