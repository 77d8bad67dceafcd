import SystemProgramming.Xv6.Pipe

/-!
# The bytes that go through a pipe

The counters of a pipe wrap around after `2 ^ 32` bytes, and the array is used again after 512 of
them. Neither is seen from outside: whatever the processes do, the bytes that have been stored are
the bytes that have been taken and behind them the contents of the pipe.

## How it goes

The history of a run has the bytes that were stored and those that were taken. The invariant says
that the first begins with the second and goes on with the contents of the array between the two
indices, modulo the size of the array. That the counters wrap is no danger: their difference is at
most 512, and 512 divides `2 ^ 32`.

## What a reader may conclude

The pipe may be closed on either side at any time, readers and writers may be killed in their sleep,
and a byte that cannot be copied to the process is taken from the pipe and lost to it; it counts as
taken here. So 0 is returned for one of three reasons: nothing was asked for, the first byte could
not be copied, or the pipe was empty and closed for writing. `end_of_file` leaves out the first two
and proves the third.

## Main definitions

* `storedIn`, `takenIn` — the bytes that a record speaks of
* `Ring` — what the counters and the array are, in terms of these
* `Locked` — who holds the lock

## Main results

* `fifo` — the bytes come out in the order in which they went in, and none is lost or repeated
* `end_of_file` — a read that returns 0 has found a closed pipe, and nothing in it
-/

namespace SystemProgramming

namespace Xv6

namespace Pipe

open FreeRunning

variable {ι : Type*} [DecidableEq ι] {s s' : State ι} {a : Act ι}
  {es es' : List (Event ι)} {data : ℕ → UInt8}

/-- The bytes that have been stored, in this order. -/
def storedIn (es : List (Event ι)) : List UInt8 :=
  es.filterMap fun
    | .stored _ b => some b
    | _ => none

/-- The bytes that have been taken, in this order. -/
def takenIn (es : List (Event ι)) : List UInt8 :=
  es.filterMap fun
    | .taken _ b _ => some b
    | _ => none

omit [DecidableEq ι] in
@[simp] theorem storedIn_append (es es' : List (Event ι)) :
    storedIn (es ++ es') = storedIn es ++ storedIn es' := List.filterMap_append

omit [DecidableEq ι] in
@[simp] theorem takenIn_append (es es' : List (Event ι)) :
    takenIn (es ++ es') = takenIn es ++ takenIn es' := List.filterMap_append

/-! ### First in, first out -/

/-- The counters count the bytes, and the array holds those between them. -/
structure Ring (data : ℕ → UInt8) (nread nwrite : ℕ) (stored taken : List UInt8) : Prop where
  nread_eq : nread = taken.length % uint
  nwrite_eq : nwrite = stored.length % uint
  le : taken.length ≤ stored.length
  room : stored.length ≤ taken.length + pipeSize
  stored_eq : stored = taken ++ window data pipeSize taken.length stored.length

section Ring

variable {nread nwrite : ℕ} {stored taken : List UInt8}

theorem ring_init (data : ℕ → UInt8) : Ring data 0 0 [] [] :=
  ⟨rfl, rfl, le_rfl, Nat.zero_le _, rfl⟩

theorem Ring.full_iff (h : Ring data nread nwrite stored taken) :
    nwrite = (nread + pipeSize) % uint ↔ stored.length = taken.length + pipeSize := by
  rw [h.nwrite_eq, h.nread_eq]
  exact mod_eq_add_mod_iff h.le h.room (by decide)

theorem Ring.empty_iff (h : Ring data nread nwrite stored taken) :
    nread = nwrite ↔ taken.length = stored.length := by
  have hroom := h.room
  rw [h.nwrite_eq, h.nread_eq]
  exact mod_eq_mod_iff h.le (hroom.trans_lt (Nat.add_lt_add_left (by decide) _))

/-- Storing a byte in a pipe that is not full. -/
theorem Ring.put (h : Ring data nread nwrite stored taken)
    (hfull : ¬ nwrite = (nread + pipeSize) % uint) (b : UInt8) :
    Ring (Function.update data (nwrite % pipeSize) b) nread ((nwrite + 1) % uint) (stored ++ [b])
      taken := by
  have hlt : stored.length < taken.length + pipeSize :=
    lt_of_le_of_ne h.room (mt h.full_iff.mpr hfull)
  have hle := h.le
  have hslot : nwrite % pipeSize = stored.length % pipeSize := by
    rw [h.nwrite_eq, Nat.mod_mod_of_dvd _ (by decide)]
  refine ⟨h.nread_eq, ?_, ?_, ?_, ?_⟩
  · rw [h.nwrite_eq, Nat.mod_add_mod, List.length_append, List.length_singleton]
  · rw [List.length_append]
    omega
  · rw [List.length_append, List.length_singleton]
    omega
  · rw [List.length_append, List.length_singleton, hslot, window_push hle hlt, ← List.append_assoc,
      ← h.stored_eq]

/-- Taking a byte from a pipe that is not empty. -/
theorem Ring.take (h : Ring data nread nwrite stored taken) (hempty : ¬ nread = nwrite) :
    Ring data ((nread + 1) % uint) nwrite stored (taken ++ [data (nread % pipeSize)]) := by
  have hlt : taken.length < stored.length := lt_of_le_of_ne h.le (mt h.empty_iff.mpr hempty)
  have hroom := h.room
  have hslot : nread % pipeSize = taken.length % pipeSize := by
    rw [h.nread_eq, Nat.mod_mod_of_dvd _ (by decide)]
  refine ⟨?_, h.nwrite_eq, ?_, ?_, ?_⟩
  · rw [h.nread_eq, Nat.mod_add_mod, List.length_append, List.length_singleton]
  · rw [List.length_append, List.length_singleton]
    omega
  · rw [List.length_append, List.length_singleton]
    omega
  · rw [List.length_append, List.length_singleton, hslot, List.append_assoc,
      List.singleton_append, ← window_cons hlt, ← h.stored_eq]

omit [DecidableEq ι] in
/-- The contents of the pipe, found by the counters. -/
theorem Ring.contents_eq {s : State ι} (h : Ring s.data s.nread s.nwrite stored taken) :
    s.contents = window s.data pipeSize taken.length stored.length := by
  have hle := h.le
  have hroom := h.room
  have hsub : (s.nwrite + (uint - s.nread)) % uint = stored.length - taken.length := by
    rw [h.nwrite_eq, h.nread_eq]
    exact mod_sub_mod hle (hroom.trans_lt (Nat.add_lt_add_left (by decide) _))
  rw [State.contents, hsub, h.nread_eq, window_mod (by decide), Nat.add_sub_cancel' hle]

end Ring

theorem ring_step (hI : Ring s.data s.nread s.nwrite (storedIn es) (takenIn es))
    (h : Move s a s' es') :
    Ring s'.data s'.nread s'.nwrite (storedIn (es ++ es')) (takenIn (es ++ es')) := by
  rw [storedIn_append, takenIn_append]
  cases h with
  | put hlock hact hfull =>
    show Ring _ _ _ (storedIn es ++ [_]) (takenIn es ++ [])
    rw [List.append_nil]
    exact hI.put hfull _
  | take hlock hact hmore hempty =>
    show Ring _ _ _ (storedIn es ++ []) (takenIn es ++ [_])
    rw [List.append_nil]
    exact hI.take hempty
  | noCopyout hlock hact hmore hempty =>
    show Ring _ _ _ (storedIn es ++ []) (takenIn es ++ [_])
    rw [List.append_nil]
    exact hI.take hempty
  | _ =>
    show Ring _ _ _ (storedIn es ++ []) (takenIn es ++ [])
    rw [List.append_nil, List.append_nil]
    exact hI

section Run

variable [Fintype ι]

theorem ring_of_run {as : List (Act ι)} (h : (machine ι data).run as = some (s, es)) :
    Ring s.data s.nread s.nwrite (storedIn es) (takenIn es) :=
  Machine.run_invariant (M := machine ι data)
    (I := fun es s => Ring s.data s.nread s.nwrite (storedIn es) (takenIn es)) (ring_init data)
    (fun _ _ _ _ _ hI hstep => ring_step hI (move_of_step hstep)) h

/-- **First in, first out.** However many processes read and write, sleep, fail to copy and are
killed, and however often the counters have wrapped around: the bytes that have been stored are the
bytes that have been taken, followed by the at most 512 bytes that are in the pipe. -/
theorem fifo {as : List (Act ι)} (h : (machine ι data).run as = some (s, es)) :
    storedIn es = takenIn es ++ s.contents ∧ s.contents.length ≤ pipeSize := by
  have hring := ring_of_run h
  have hroom := hring.room
  rw [hring.contents_eq]
  refine ⟨hring.stored_eq, ?_⟩
  rw [length_window]
  omega

/-- Two bytes are written, and one of them is read. -/
def partialRead : List (Act Bool) :=
  [.write true [1, 2], .proceed true true, .proceed true true, .proceed true true,
    .proceed true true, .proceed true true, .read false 1, .proceed false true,
    .proceed false true, .proceed false true]

theorem fifo_partialRead : ∃ s : State Bool, ∃ es,
    (machine Bool fun _ => 0).run partialRead = some (s, es) ∧ takenIn es = [1] ∧
      storedIn es = takenIn es ++ s.contents := by
  have hrun : (machine Bool fun _ => 0).run partialRead = some (_, _) := rfl
  exact ⟨_, _, hrun, rfl, (fifo hrun).1⟩

end Run

/-! ### The lock -/

/-- The process that holds the lock is the only one that is at work. -/
def Locked (lock : Option ι) (act : ι → Activity) : Prop :=
  ∀ t, (act t).Locks = true ↔ lock = some t

section Locked

variable {lock : Option ι} {act : ι → Activity} {t : ι} {b : Activity}

/-- The process that holds the lock stays at work. -/
theorem Locked.keep (h : Locked lock act) (ht : lock = some t) (hb : b.Locks = true) :
    Locked lock (Function.update act t b) := by
  intro u
  by_cases hu : u = t
  · rw [hu, Function.update_self, hb]
    exact iff_of_true rfl ht
  · rw [Function.update_of_ne hu]
    exact h u

theorem Locked.release (h : Locked lock act) (ht : lock = some t) (hb : b.Locks = false) :
    Locked none (Function.update act t b) := by
  intro u
  by_cases hu : u = t
  · rw [hu, Function.update_self, hb]
    exact iff_of_false Bool.false_ne_true nofun
  · rw [Function.update_of_ne hu, h u, ht]
    exact iff_of_false (fun heq => hu (Option.some.inj heq).symm) nofun

theorem Locked.acquire (h : Locked lock act) (ht : lock = none) (hb : b.Locks = true) :
    Locked (some t) (Function.update act t b) := by
  intro u
  by_cases hu : u = t
  · rw [hu, Function.update_self, hb]
    exact iff_of_true rfl rfl
  · rw [Function.update_of_ne hu, h u, ht]
    exact iff_of_false nofun fun heq => hu (Option.some.inj heq).symm

omit [DecidableEq ι] in
theorem Locked.congr (h : Locked lock act) {act' : ι → Activity}
    (hact : ∀ u, (act' u).Locks = (act u).Locks) : Locked lock act' := fun u => by
  rw [hact u]
  exact h u

omit [DecidableEq ι] in
/-- The other processes are not at work. -/
theorem Locked.of_ne (h : Locked lock act) (ht : lock = some t) {u : ι} (hu : u ≠ t) :
    (act u).Locks = false := by
  rw [Bool.eq_false_iff, ne_eq, h u, ht]
  exact fun heq => hu (Option.some.inj heq).symm

end Locked

omit [DecidableEq ι] in
theorem locks_wakeReaders (s : State ι) (u : ι) :
    ((wakeReaders s).act u).Locks = (s.act u).Locks := by
  simp only [wakeReaders]
  cases s.act u <;> rfl

omit [DecidableEq ι] in
theorem locks_wakeWriters (s : State ι) (u : ι) :
    ((wakeWriters s).act u).Locks = (s.act u).Locks := by
  simp only [wakeWriters]
  cases s.act u <;> rfl

theorem Activity.locks_awake (a : Activity) : a.awake.Locks = a.Locks := by cases a <;> rfl

theorem locked_step (hI : Locked s.lock s.act) (h : Move s a s' es') : Locked s'.lock s'.act := by
  cases h with
  | write hidle hlock hopen => exact hI.acquire hlock rfl
  | read hidle hlock hopen => exact hI.acquire hlock rfl
  | refuse hlock hact hi hstop => exact hI.release hlock rfl
  | goOn hlock hact hi hopen hkilled => exact hI.keep hlock rfl
  | wrote hlock hact hi => exact (hI.congr (locks_wakeReaders s)).release hlock rfl
  | full hlock hact hfull => exact (hI.congr (locks_wakeReaders s)).release hlock rfl
  | put hlock hact hfull => exact hI.keep hlock rfl
  | noCopyin hlock hact hfull => exact (hI.congr (locks_wakeReaders s)).release hlock rfl
  | empty hlock hact hempty hopen => exact hI.keep hlock rfl
  | copy hlock hact hcan => exact hI.keep hlock rfl
  | giveUp hlock hact hkilled => exact hI.release hlock rfl
  | drowse hlock hact hkilled => exact hI.keep hlock rfl
  | sleep hlock hact => exact hI.release hlock rfl
  | take hlock hact hmore hempty => exact hI.keep hlock rfl
  | noCopyout hlock hact hmore hempty =>
    exact (hI.congr (locks_wakeWriters s)).release hlock rfl
  | got hlock hact hdone => exact (hI.congr (locks_wakeWriters s)).release hlock rfl
  | rewrite hlock hact => exact hI.acquire hlock rfl
  | reread hlock hact => exact hI.acquire hlock rfl
  | closeWrite hlock hopen hnone => exact hI.congr (locks_wakeReaders s)
  | closeRead hlock hopen hnone => exact hI.congr (locks_wakeWriters s)
  | @kill t =>
    refine hI.congr fun u => ?_
    by_cases hu : u = t
    · rw [hu]
      exact (congrArg _ (Function.update_self ..)).trans (Activity.locks_awake _)
    · exact congrArg _ (Function.update_of_ne hu ..)

/-! ### The end of the file -/

/-- A process that has begun to copy has found a byte, or a closed pipe. -/
def Justified (s : State ι) : Prop :=
  ∀ t n, s.act t = .copying n [] → ¬ (s.Empty ∧ s.writeopen = true)

theorem act_of_update {act : ι → Activity} {t u : ι} {b c : Activity}
    (h : Function.update act t b u = c) : u = t ∧ b = c ∨ u ≠ t ∧ act u = c := by
  rw [Function.update_apply] at h
  split at h
  · rename_i hu
    exact Or.inl ⟨hu, h⟩
  · rename_i hu
    exact Or.inr ⟨hu, h⟩

omit [DecidableEq ι] in
theorem act_of_wakeReaders {u : ι} {c : Activity} (h : (wakeReaders s).act u = c)
    (hc : ∀ n, c ≠ .readWoken n) : s.act u = c := by
  rw [wakeReaders] at h
  cases hu : s.act u with
  | readAsleep n =>
    simp only [hu] at h
    exact absurd h.symm (hc n)
  | _ =>
    simp only [hu] at h
    exact h

omit [DecidableEq ι] in
theorem act_of_wakeWriters {u : ι} {c : Activity} (h : (wakeWriters s).act u = c)
    (hc : ∀ bytes i, c ≠ .writeWoken bytes i) : s.act u = c := by
  rw [wakeWriters] at h
  cases hu : s.act u with
  | writeAsleep bytes i =>
    simp only [hu] at h
    exact absurd h.symm (hc bytes i)
  | _ =>
    simp only [hu] at h
    exact h

theorem Activity.eq_of_awake {b c : Activity} (h : b.awake = c) (hr : ∀ n, c ≠ .readWoken n)
    (hw : ∀ bytes i, c ≠ .writeWoken bytes i) : b = c := by
  cases b <;> first | exact h | exact absurd h.symm (hr _) | exact absurd h.symm (hw _ _)

theorem justified_step (hlocked : Locked s.lock s.act) (hI : Justified s) (h : Move s a s' es') :
    Justified s' := by
  intro u n hu
  -- while a process holds the lock no other one is copying
  have halone : ∀ {t : ι}, s.lock = some t → u ≠ t → s.act u ≠ .copying n [] := by
    intro t ht hne hcopy
    have hlocks := hlocked.of_ne ht hne
    rw [hcopy] at hlocks
    cases hlocks
  cases h with
  | copy hlock hact hcan =>
    rcases act_of_update hu with - | ⟨-, hu⟩
    · exact hcan
    · exact hI u n hu
  | put hlock hact hfull =>
    rcases act_of_update hu with ⟨-, hb⟩ | ⟨hne, hu⟩
    · cases hb
    · exact absurd hu (halone hlock hne)
  | take hlock hact hmore hempty =>
    rcases act_of_update hu with ⟨-, hb⟩ | ⟨hne, hu⟩
    · exact absurd (Activity.copying.inj hb).2 (by simp)
    · exact absurd hu (halone hlock hne)
  | noCopyout hlock hact hmore hempty =>
    rcases act_of_update hu with ⟨-, hb⟩ | ⟨hne, hu⟩
    · cases hb
    · exact absurd (act_of_wakeWriters hu nofun) (halone hlock hne)
  | wrote hlock hact hi =>
    rcases act_of_update hu with ⟨-, hb⟩ | ⟨-, hu⟩
    · cases hb
    · exact hI u n (act_of_wakeReaders hu nofun)
  | full hlock hact hfull =>
    rcases act_of_update hu with ⟨-, hb⟩ | ⟨-, hu⟩
    · cases hb
    · exact hI u n (act_of_wakeReaders hu nofun)
  | noCopyin hlock hact hfull =>
    rcases act_of_update hu with ⟨-, hb⟩ | ⟨-, hu⟩
    · cases hb
    · exact hI u n (act_of_wakeReaders hu nofun)
  | got hlock hact hdone =>
    rcases act_of_update hu with ⟨-, hb⟩ | ⟨-, hu⟩
    · cases hb
    · exact hI u n (act_of_wakeWriters hu nofun)
  | closeWrite hlock hopen hnone => exact fun h => Bool.false_ne_true h.2
  | closeRead hlock hopen hnone => exact hI u n (act_of_wakeWriters hu nofun)
  | @kill t =>
    rcases act_of_update hu with ⟨hut, hb⟩ | ⟨-, hu⟩
    · exact hI u n (hut ▸ Activity.eq_of_awake hb nofun nofun)
    · exact hI u n hu
  | _ =>
    rcases act_of_update hu with ⟨-, hb⟩ | ⟨-, hu⟩
    · cases hb
    · exact hI u n hu

section Run

variable [Fintype ι]

theorem justified_of_run {as : List (Act ι)} (h : (machine ι data).run as = some (s, es)) :
    Locked s.lock s.act ∧ Justified s := by
  refine Machine.run_invariant_state (M := machine ι data)
    (I := fun s => Locked s.lock s.act ∧ Justified s) ⟨fun t => ?_, fun t n ht => ?_⟩ ?_ h
  · exact iff_of_false Bool.false_ne_true nofun
  · cases ht
  · intro s a s' es' hI hstep
    have hmove := move_of_step hstep
    exact ⟨locked_step hI.1 hmove, justified_step hI.1 hI.2 hmove⟩

/-- **The end of the file.** A read of some bytes that returns 0, and has not failed to copy a byte,
has found the writing end closed, and every byte that was ever stored has been taken. -/
theorem end_of_file {as : List (Act ι)} {t : ι} {n : ℕ}
    (h : (machine ι data).run as = some (s, es)) (hstep : step s a = some (s', es'))
    (hgot : .got t n [] true ∈ es') (hn : 0 < n) (hcopied : ∀ b, .taken t b false ∉ es') :
    s.writeopen = false ∧ takenIn es = storedIn es := by
  obtain ⟨-, hjust⟩ := justified_of_run h
  have hring := ring_of_run h
  cases move_of_step hstep with
  | @got u copies m got hlock hact hdone =>
    obtain ⟨rfl, rfl, rfl⟩ : t = u ∧ n = m ∧ [] = got := by simpa using hgot
    have hempty : s.Empty := by
      by_contra hne
      exact hdone ⟨hn, hne⟩
    have hopen : s.writeopen = false := by
      have hnot := hjust t n hact
      rw [not_and] at hnot
      simpa using hnot hempty
    have hlength := hring.empty_iff.mp hempty
    refine ⟨hopen, ?_⟩
    rw [hring.stored_eq, hlength, window_self, List.append_nil]
  | @noCopyout u m got hlock hact hmore hempty =>
    obtain ⟨rfl, rfl, rfl⟩ : t = u ∧ n = m ∧ [] = got := by simpa using hgot
    exact absurd List.mem_cons_self (hcopied _)
  | _ => simp at hgot

/-- The end of the file behind the writing end that is closed at once. -/
theorem end_of_file_closed : ∃ s : State Bool, ∃ es,
    (machine Bool fun _ => 0).run [.closeWrite, .read false 1, .proceed false true] =
        some (s, es) ∧
      s.writeopen = false ∧ takenIn es = storedIn es := by
  have hrun : (machine Bool fun _ => 0).run [.closeWrite, .read false 1, .proceed false true] =
      some (_, _) := rfl
  exact ⟨_, _, hrun, end_of_file (a := .proceed false true) hrun rfl List.mem_cons_self
    Nat.one_pos (by simp)⟩

end Run

end Pipe

end Xv6

end SystemProgramming
