import SystemProgramming.Xv6.ConsoleScreen

/-!
# Reading from the console

A call of `consoleread` returns a line, or a part of one: it stops at a newline, in front of an end
of file or when it has as many bytes as it was asked for, and it waits for more only if there is
nothing to read.

## How it goes

The bytes from `r` to `w` are whole lines and ends of file, because `w` is moved behind one of them,
or when the buffer is full. A reader moves `r` only, and stops where the code stops. Two readers may
take turns within a line: what each of them gets is said by what was there when it took it.

## What a call is judged by

`LineRead` looks at the step in which the call returns, and at the state after it. There are five
reasons to return without having been killed: the call has all it asked for, it has a whole line, it
has come to an end of file with something in hand, which is then left for the next call, or with
nothing, which takes it; or a byte could not be copied to the process, and is lost. Of a process
that has been killed no more is said than that it has not got anything behind the end of a line.

## Main definitions

* `Activity.call` — what a process has asked for and got
* `Waiting` — who sleeps has found nothing
* `Inside` — who is awake in a call has the lock

## Main results

* `got_of_run` — why a call returns, and with what
* `sleeps_of_run` — a process sleeps only as long as the line that is typed has not ended
-/

namespace SystemProgramming

namespace Xv6

namespace Console

variable {ι : Type*} [DecidableEq ι] {s s' : State ι} {a : Act ι} {es es' : List (Event ι)}

theorem act_of_update {act : ι → Activity} {t u : ι} {b c : Activity}
    (h : Function.update act t b u = c) : u = t ∧ b = c ∨ u ≠ t ∧ act u = c := by
  rw [Function.update_apply] at h
  split at h
  · rename_i hu
    exact Or.inl ⟨hu, h⟩
  · rename_i hu
    exact Or.inr ⟨hu, h⟩

/-! ### A line at a time -/

/-- The call of `consoleread` that the process is in: the number of bytes it has asked for, and
those it has got. -/
def Activity.call : Activity → Option (ℕ × List UInt8)
  | .idle => none
  | .reading n got | .waiting n got | .drowsy n got | .asleep n got | .woken n got => some (n, got)

theorem Activity.call_awake (b : Activity) : b.awake.call = b.call := by cases b <;> rfl

/-- No call goes on behind the end of a line or of the file. -/
def Plain (act : ι → Activity) : Prop :=
  ∀ t n got, (act t).call = some (n, got) → newline ∉ got ∧ ctrlD ∉ got ∧ got.length ≤ n

section Plain

variable {act : ι → Activity} {t : ι} {b : Activity}

omit [DecidableEq ι] in
theorem Plain.of_act (h : Plain act) {n : ℕ} {got : List UInt8} (ht : act t = b)
    (hb : b.call = some (n, got)) : newline ∉ got ∧ ctrlD ∉ got ∧ got.length ≤ n :=
  h t n got (ht ▸ hb)

theorem Plain.update (h : Plain act)
    (hb : ∀ n got, b.call = some (n, got) → newline ∉ got ∧ ctrlD ∉ got ∧ got.length ≤ n) :
    Plain (Function.update act t b) := by
  intro u n got hu
  by_cases hut : u = t
  · rw [hut, Function.update_self] at hu
    exact hb n got hu
  · rw [Function.update_of_ne hut] at hu
    exact h u n got hu

theorem Plain.stay (h : Plain act) (hb : b.call = (act t).call) :
    Plain (Function.update act t b) :=
  h.update fun n got hcall => h t n got (hb.symm.trans hcall)

theorem Plain.leave (h : Plain act) : Plain (Function.update act t .idle) :=
  h.update fun _ _ hcall => by cases hcall

end Plain

theorem plain_step (hI : Plain s.act) (h : Move s a s' es') : Plain s'.act := by
  cases h with
  | intr hlock =>
    intro t n got ht
    refine hI t n got (Eq.trans ?_ ht)
    show _ = (if _ then (s.act t).awake else s.act t).call
    split
    · exact (Activity.call_awake _).symm
    · rfl
  | read hidle hlock =>
    refine hI.update fun n got hcall => ?_
    obtain ⟨rfl, rfl⟩ := Prod.mk.inj (Option.some.inj hcall)
    exact ⟨List.not_mem_nil, List.not_mem_nil, Nat.zero_le _⟩
  | @copy t m got' hlock hact hn hsome hc hc' =>
    refine hI.update fun n got hcall => ?_
    obtain ⟨rfl, rfl⟩ := Prod.mk.inj (Option.some.inj hcall)
    obtain ⟨hnewline, heof, -⟩ := hI.of_act hact rfl
    rw [List.mem_append, List.mem_append, List.mem_singleton, List.mem_singleton,
      List.length_append, List.length_singleton]
    exact ⟨not_or.mpr ⟨hnewline, Ne.symm hc'⟩, not_or.mpr ⟨heof, Ne.symm hc⟩, hn⟩
  | nothing hlock hact hn hnone => exact hI.stay (congrArg Activity.call hact).symm
  | drowse hlock hact hkilled => exact hI.stay (congrArg Activity.call hact).symm
  | sleep hlock hact => exact hI.stay (congrArg Activity.call hact).symm
  | reread hlock hact => exact hI.stay (congrArg Activity.call hact).symm
  | kill => exact hI.stay (Activity.call_awake _)
  | done _ _ _ | putBack _ _ _ _ _ _ | eof _ _ _ _ _ | line _ _ _ _ _ | noCopy _ _ _ _ _
  | giveUp _ _ _ => exact hI.leave

/-- What the end of a call of `consoleread` says: the call has got no more bytes than it asked for,
and at most one newline, as the last one; and if it has not been killed, it has got all it asked
for, or a line, or it has come to an end of file, which is gone only if the call has got nothing,
or a byte could not be copied. -/
structure LineRead (s' : State ι) (es' : List (Event ι)) (t : ι) (n : ℕ) (bytes : List UInt8)
    (ok : Bool) : Prop where
  length_le : bytes.length ≤ n
  newline : newline ∉ bytes.dropLast
  ctrlD : ctrlD ∉ bytes
  why : ok = true → bytes.length = n ∨ bytes.getLast? = some Console.newline ∨
    bytes ≠ [] ∧ s'.cons.ready.head? = some Console.ctrlD ∨
    bytes = [] ∧ .taken t Console.ctrlD false ∈ es' ∨
    ∃ b, b ≠ Console.ctrlD ∧ .taken t b false ∈ es'

theorem plain_of_run {as : List (Act ι)} (h : (machine ι).run as = some (s, es)) : Plain s.act :=
  Machine.run_invariant_state (M := machine ι) (I := fun s => Plain s.act)
    (fun _ _ _ hcall => by cases hcall)
    (fun _ _ _ _ hI hstep => plain_step hI (move_of_step hstep)) h

/-- **A line at a time.** -/
theorem got_of_run {as : List (Act ι)} {t : ι} {n : ℕ} {bytes : List UInt8} {ok : Bool}
    (h : (machine ι).run as = some (s, es)) (hstep : step s a = some (s', es'))
    (hgot : .got t n bytes ok ∈ es') : LineRead s' es' t n bytes ok := by
  have hplain := plain_of_run h
  cases move_of_step hstep with
  | @done u copies m got hlock hact hn =>
    obtain ⟨rfl, rfl, rfl, rfl⟩ : t = u ∧ n = m ∧ bytes = got ∧ ok = true := by simpa using hgot
    obtain ⟨hnewline, heof, hlength⟩ := hplain.of_act hact rfl
    exact ⟨hlength, mt List.mem_of_mem_dropLast hnewline, heof,
      fun _ => Or.inl (hlength.antisymm (Nat.le_of_not_lt hn))⟩
  | @putBack u copies m got hlock hact hn hsome hc hne =>
    obtain ⟨rfl, rfl, rfl, rfl⟩ : t = u ∧ n = m ∧ bytes = got ∧ ok = true := by simpa using hgot
    obtain ⟨hnewline, heof, hlength⟩ := hplain.of_act hact rfl
    refine ⟨hlength, mt List.mem_of_mem_dropLast hnewline, heof,
      fun _ => Or.inr (Or.inr (Or.inl ⟨hne, ?_⟩))⟩
    obtain ⟨⟨ready, editing⟩, hholds, -⟩ := shown_of_run h
    obtain ⟨b, ready, rfl⟩ := List.exists_cons_of_ne_nil (mt hholds.r_eq_w_iff.mpr hsome)
    show s.cons.skip.unskip.ready.head? = _
    rw [hholds.unskip_skip, hholds.ready_eq, ← hc, hholds.skip.1]
    rfl
  | @eof u copies m hlock hact hn hsome hc =>
    obtain ⟨rfl, rfl, rfl, rfl⟩ : t = u ∧ n = m ∧ bytes = [] ∧ ok = true := by simpa using hgot
    exact ⟨Nat.zero_le _, List.not_mem_nil, List.not_mem_nil,
      fun _ => Or.inr (Or.inr (Or.inr (Or.inl ⟨rfl, List.mem_cons_self⟩)))⟩
  | @line u m got hlock hact hn hsome hc =>
    obtain ⟨rfl, rfl, rfl, rfl⟩ : t = u ∧ n = m ∧ bytes = got ++ [newline] ∧ ok = true := by
      simpa using hgot
    obtain ⟨hnewline, heof, -⟩ := hplain.of_act hact rfl
    refine ⟨?_, ?_, ?_, fun _ => Or.inr (Or.inl List.getLast?_concat)⟩
    · rw [List.length_append, List.length_singleton]
      exact hn
    · rw [List.dropLast_concat]
      exact hnewline
    · rw [List.mem_append, List.mem_singleton, not_or]
      exact ⟨heof, by decide⟩
  | @noCopy u m got hlock hact hn hsome hc =>
    obtain ⟨rfl, rfl, rfl, rfl⟩ : t = u ∧ n = m ∧ bytes = got ∧ ok = true := by simpa using hgot
    obtain ⟨hnewline, heof, hlength⟩ := hplain.of_act hact rfl
    exact ⟨hlength, mt List.mem_of_mem_dropLast hnewline, heof,
      fun _ => Or.inr (Or.inr (Or.inr (Or.inr ⟨_, hc, List.mem_cons_self⟩)))⟩
  | @giveUp u copies m got hlock hact hkilled =>
    obtain ⟨rfl, rfl, rfl, rfl⟩ : t = u ∧ n = m ∧ bytes = got ∧ ok = false := by simpa using hgot
    obtain ⟨hnewline, heof, hlength⟩ := hplain.of_act hact rfl
    exact ⟨hlength, mt List.mem_of_mem_dropLast hnewline, heof, nofun⟩
  | _ => simp at hgot

/-- Two of three bytes of a line are asked for, then the rest of it. -/
def twoReads : List (Act Unit) :=
  [.intr 97, .intr 98, .intr 13, .read () 1, .proceed () true, .proceed () true, .read () 9,
    .proceed () true]

theorem got_of_run_twoReads : ∃ s s' : State Unit, ∃ es es',
    (machine Unit).run twoReads = some (s, es) ∧ step s (.proceed () true) = some (s', es') ∧
      LineRead s' es' () 9 [98, 10] true := by
  have hrun : (machine Unit).run twoReads = some (_, _) := rfl
  refine ⟨_, _, _, _, hrun, rfl, ?_⟩
  exact got_of_run (a := .proceed () true) hrun rfl (List.mem_cons_of_mem _ List.mem_cons_self)

/-! ### Sleeping -/

/-- A process that sleeps, or is about to, has found nothing to read. -/
structure Waiting (s : State ι) : Prop where
  asleep : ∀ t n got, s.act t = .asleep n got → s.cons.r = s.cons.w
  waiting : ∀ t n got, s.lock = some t → s.act t = .waiting n got ∨ s.act t = .drowsy n got →
    s.cons.r = s.cons.w

/-- A key that does not wake the readers gives them nothing to read. -/
theorem ready_intr {t : Tty} {c : UInt8} (h : (t.intr c).2.2 = false) :
    (t.intr c).1.ready = t.ready := by
  rw [Tty.intr] at h ⊢
  by_cases hp : c = ctrlP
  · rw [if_pos hp]
  rw [if_neg hp] at h ⊢
  by_cases hu : c = ctrlU
  · rw [if_pos hu]
  rw [if_neg hu] at h ⊢
  by_cases hh : c = ctrlH ∨ c = delete
  · rw [if_pos hh]
  rw [if_neg hh] at h ⊢
  by_cases hroom : c ≠ 0 ∧ t.ready.length + t.editing.length < bufSize
  · rw [if_pos hroom] at h ⊢
    generalize (if c = carriageReturn then newline else c) = key at h ⊢
    by_cases hcommit : key = newline ∨ key = ctrlD ∨
        t.ready.length + (t.editing.length + 1) = bufSize
    · simp only [if_pos hcommit] at h
      cases h
    · simp only [if_neg hcommit]
  · rw [if_neg hroom]

omit [DecidableEq ι] in
theorem Shown.nothing_of_not_wakes {s : Cons} {c : UInt8} (h : Shown es s)
    (hwakes : (consoleintr s c).2.2 = false) (hnone : s.r = s.w) :
    (consoleintr s c).1.r = (consoleintr s c).1.w := by
  obtain ⟨t, hholds, -⟩ := h
  obtain ⟨hholds', hresult⟩ := hholds.intr c
  rw [hresult] at hwakes
  rw [hholds'.r_eq_w_iff, ready_intr hwakes]
  exact hholds.r_eq_w_iff.mp hnone

theorem Activity.awake_ne_asleep (b : Activity) (n : ℕ) (got : List UInt8) :
    b.awake ≠ .asleep n got := by
  cases b <;> nofun

theorem Activity.eq_of_awake {b c : Activity} (h : b.awake = c)
    (hc : ∀ n got, c ≠ .woken n got) : b = c := by
  cases b <;> first | exact h | exact absurd h.symm (hc _ _)

theorem waiting_step (hshown : Shown es s.cons) (hI : Waiting s) (h : Move s a s' es') :
    Waiting s' := by
  cases h with
  | @intr c hlock =>
    refine ⟨fun t n got ht => ?_, fun t n got hlocked => absurd (hlock.symm.trans hlocked) nofun⟩
    change (if (consoleintr s.cons c).2.2 then (s.act t).awake else s.act t) = _ at ht
    cases hwakes : (consoleintr s.cons c).2.2 with
    | true =>
      rw [if_pos hwakes] at ht
      exact absurd ht (Activity.awake_ne_asleep _ n got)
    | false =>
      rw [hwakes] at ht
      exact hshown.nothing_of_not_wakes hwakes (hI.asleep t n got ht)
  | nothing hlock hact hn hnone => exact ⟨fun _ _ _ _ => hnone, fun _ _ _ _ _ => hnone⟩
  | drowse hlock hact hkilled =>
    have hnone := hI.waiting _ _ _ hlock (Or.inl hact)
    exact ⟨fun _ _ _ _ => hnone, fun _ _ _ _ _ => hnone⟩
  | sleep hlock hact =>
    have hnone := hI.waiting _ _ _ hlock (Or.inr hact)
    exact ⟨fun _ _ _ _ => hnone, fun _ _ _ _ _ => hnone⟩
  | read _ hlock | reread hlock _ =>
    refine ⟨fun t n got ht => ?_, fun t n got hlocked ht => ?_⟩
    · rcases act_of_update ht with ⟨-, hb⟩ | ⟨-, ht⟩
      · cases hb
      · exact hI.asleep t n got ht
    · obtain rfl := Option.some.inj hlocked
      rcases ht with ht | ht <;> cases (Function.update_self ..).symm.trans ht
  | done _ _ _ | giveUp _ _ _ =>
    refine ⟨fun t n got ht => ?_, nofun⟩
    rcases act_of_update ht with ⟨-, hb⟩ | ⟨-, ht⟩
    · cases hb
    · exact hI.asleep t n got ht
  | putBack _ _ _ hsome _ _ | eof _ _ _ hsome _ | line _ _ _ hsome _ | noCopy _ _ _ hsome _ =>
    refine ⟨fun t n got ht => ?_, nofun⟩
    rcases act_of_update ht with ⟨-, hb⟩ | ⟨-, ht⟩
    · cases hb
    · exact absurd (hI.asleep t n got ht) hsome
  | copy hlock hact hn hsome _ _ =>
    refine ⟨fun t n got ht => ?_, fun t n got hlocked ht => ?_⟩
    · rcases act_of_update ht with ⟨-, hb⟩ | ⟨-, ht⟩
      · cases hb
      · exact absurd (hI.asleep t n got ht) hsome
    · obtain rfl := Option.some.inj (hlock.symm.trans hlocked)
      rcases ht with ht | ht <;> cases (Function.update_self ..).symm.trans ht
  | kill =>
    refine ⟨fun t n got ht => ?_, fun t n got hlocked ht => hI.waiting t n got hlocked ?_⟩
    · rcases act_of_update ht with ⟨-, hb⟩ | ⟨-, ht⟩
      · exact absurd hb (Activity.awake_ne_asleep _ n got)
      · exact hI.asleep t n got ht
    · refine ht.imp (fun ht => ?_) fun ht => ?_
      · rcases act_of_update ht with ⟨rfl, hb⟩ | ⟨-, ht⟩
        · exact Activity.eq_of_awake hb nofun
        · exact ht
      · rcases act_of_update ht with ⟨rfl, hb⟩ | ⟨-, ht⟩
        · exact Activity.eq_of_awake hb nofun
        · exact ht

theorem waiting_of_run {as : List (Act ι)} (h : (machine ι).run as = some (s, es)) : Waiting s :=
  (Machine.run_invariant (M := machine ι) (I := fun es s => Shown es s.cons ∧ Waiting s)
    ⟨shown_init, nofun, nofun⟩
    (fun _ _ _ _ _ hI hstep => ⟨shown_step hI.1 (move_of_step hstep),
      waiting_step hI.1 hI.2 (move_of_step hstep)⟩) h).2

/-- The process is between `acquire` and `release`. -/
def Activity.isInside : Activity → Bool
  | .reading _ _ | .waiting _ _ | .drowsy _ _ => true
  | .idle | .asleep _ _ | .woken _ _ => false

theorem Activity.isInside_awake (b : Activity) : b.awake.isInside = b.isInside := by
  cases b <;> rfl

/-- Whoever is inside has the lock. -/
def Inside (s : State ι) : Prop := ∀ t, (s.act t).isInside = true → s.lock = some t

section Inside

variable {t : ι} {b : Activity}

/-- The process that has the lock goes on. -/
theorem Inside.set (hI : Inside s) (hlock : s.lock = some t) : Inside (s.set t b) := by
  intro u hu
  dsimp only [State.set] at hu
  by_cases hut : u = t
  · rw [hut]
    exact hlock
  · rw [Function.update_of_ne hut] at hu
    exact hI u hu

/-- It goes outside, and nobody else was inside. -/
theorem Inside.unlock (hI : Inside s) (hlock : s.lock = some t) (hb : b.isInside = false) :
    Inside { s.set t b with lock := none } := by
  intro u hu
  dsimp only [State.set] at hu
  by_cases hut : u = t
  · rw [hut, Function.update_self, hb] at hu
    cases hu
  · rw [Function.update_of_ne hut] at hu
    exact absurd (Option.some.inj ((hI u hu).symm.trans hlock)) hut

theorem Inside.leave (hI : Inside s) (hlock : s.lock = some t) : Inside (s.leave t) :=
  hI.unlock hlock rfl

omit [DecidableEq ι] in
theorem Inside.cons (hI : Inside s) (cons : Cons) : Inside { s with cons } := hI

/-- A process goes inside, where nobody was. -/
theorem Inside.lock (hI : Inside s) (hlock : s.lock = none) :
    Inside { s.set t b with lock := some t } := by
  intro u hu
  dsimp only [State.set] at hu
  by_cases hut : u = t
  · rw [hut]
  · rw [Function.update_of_ne hut] at hu
    exact absurd ((hI u hu).symm.trans hlock) nofun

end Inside

theorem inside_step (hI : Inside s) (h : Move s a s' es') : Inside s' := by
  cases h with
  | @intr c hlock =>
    intro t ht
    refine hI t ?_
    change (if (consoleintr s.cons c).2.2 then (s.act t).awake else s.act t).isInside = true at ht
    split at ht
    · rwa [Activity.isInside_awake] at ht
    · exact ht
  | read _ hlock | reread hlock _ => exact hI.lock hlock
  | nothing hlock _ _ _ => exact hI.set hlock
  | copy hlock _ _ _ _ _ => exact (hI.cons _).set hlock
  | drowse hlock _ _ => exact hI.set hlock
  | done hlock _ _ => exact hI.leave hlock
  | putBack hlock _ _ _ _ _ => exact (hI.cons _).leave hlock
  | eof hlock _ _ _ _ => exact (hI.cons _).leave hlock
  | line hlock _ _ _ _ => exact (hI.cons _).leave hlock
  | noCopy hlock _ _ _ _ => exact (hI.cons _).leave hlock
  | giveUp hlock _ _ => exact hI.leave hlock
  | sleep hlock _ => exact hI.unlock hlock rfl
  | @kill t =>
    intro u hu
    dsimp only [State.set] at hu
    refine hI u ?_
    by_cases hut : u = t
    · rwa [hut, Function.update_self, Activity.isInside_awake, ← hut] at hu
    · rwa [Function.update_of_ne hut] at hu

theorem inside_of_run {as : List (Act ι)} (h : (machine ι).run as = some (s, es)) : Inside s :=
  Machine.run_invariant_state (M := machine ι) (I := Inside)
    (fun _ hidle => absurd hidle Bool.false_ne_true)
    (fun _ _ _ _ hI hstep => inside_step hI (move_of_step hstep)) h

/-- **Nobody sleeps without a reason.** Whenever a process sleeps in `consoleread`, or has found
nothing and is about to, all that is on the screen and has not been taken is a line that is still
edited: it has less than 128 bytes, and neither a newline nor an end of file. -/
theorem sleeps_of_run {as : List (Act ι)} {t : ι} {n : ℕ} {got : List UInt8}
    (h : (machine ι).run as = some (s, es))
    (hrests : s.act t = .waiting n got ∨ s.act t = .drowsy n got ∨ s.act t = .asleep n got) :
    (screen es).before = takenIn es ++ s.cons.editing ∧ s.cons.editing.length < bufSize ∧
      newline ∉ s.cons.editing ∧ ctrlD ∉ s.cons.editing := by
  have hI := waiting_of_run h
  have hlock := inside_of_run h t
  have hnone : s.cons.r = s.cons.w := by
    rcases hrests with ht | ht | ht
    · exact hI.waiting t n got (hlock (by rw [ht]; rfl)) (Or.inl ht)
    · exact hI.waiting t n got (hlock (by rw [ht]; rfl)) (Or.inr ht)
    · exact hI.asleep t n got ht
  obtain ⟨⟨ready, editing⟩, hholds, hbefore, -⟩ := shown_of_run h
  obtain rfl : ready = [] := hholds.r_eq_w_iff.mp hnone
  rw [hholds.editing_eq]
  refine ⟨hbefore, ?_, hholds.valid.newline, hholds.valid.ctrlD⟩
  have hroom : 0 + editing.length ≤ bufSize := hholds.valid.room
  have hfull : 0 + editing.length = bufSize → editing = [] := hholds.valid.full
  rw [Nat.zero_add] at hroom hfull
  refine lt_of_le_of_ne hroom fun heq => ?_
  rw [hfull heq] at heq
  cases heq

/-- A process sleeps while a line is typed. -/
def sleeping : List (Act Unit) :=
  [.read () 9, .proceed () true, .proceed () true, .proceed () true, .intr 97]

theorem sleeps_of_run_typing : ∃ s : State Unit, ∃ es,
    (machine Unit).run sleeping = some (s, es) ∧ s.act () = .asleep 9 [] ∧
      (screen es).before = takenIn es ++ s.cons.editing := by
  have hrun : (machine Unit).run sleeping = some (_, _) := rfl
  refine ⟨_, _, hrun, rfl, ?_⟩
  exact (@sleeps_of_run Unit _ _ _ _ () 9 [] hrun (Or.inr (Or.inr rfl))).1

end Console

end Xv6

end SystemProgramming
