import SystemProgramming.Xv6.Bio
import Mathlib.Algebra.BigOperators.Group.Finset.Piecewise
import Mathlib.Algebra.Order.BigOperators.Group.Finset

/-!
# What refcnt counts

`refcnt` is the number of the calls of `bget` and `bpin` that have not been taken back yet: of the
processes that wait for the lock of the buffer, that have it, or that have given it up and are not
out of `brelse`, and of the pins. So a buffer that is recycled has no user left, not even one that
waits for its lock.

## How it goes

The equation for `refcnt` is a sum over the processes. A step moves one process, and adds or takes
away one user at one buffer, so at most one term of one sum changes; the lemmas on `modify` say this
once for all steps. The lock of a buffer belongs to its user that has come first, and a process that
waits for it is a user already, as `bget` counts before it waits.

The second use of the sum is to read it backwards: where `refcnt` is 0 every term is 0, so no
process waits, none has the lock, and nothing is pinned (`SoundAt.of_unused`). That is what `bget`
relies on when it gives the buffer another number.

## Main definitions

* `users` — the processes that wait, and those on their way out
* `SoundAt`, `Sound` — what holds between two steps

## Main results

* `SoundAt.of_unused` — whom `refcnt` protects
* `sound_of_run` — it holds in every run
-/

namespace SystemProgramming

namespace Xv6

namespace Bio

variable {β ι : Type*} [DecidableEq ι]

/-! ### The users of a buffer -/

/-- The process counts among the users of the buffer, but not as the one that has its lock. -/
def Place.uses (i : Fin nbuf) : Place → ℤ
  | .waiting j | .releasing j => if j = i then 1 else 0
  | .idle | .reading _ => 0

/-- Who has the lock of the buffer counts, too. -/
def Buf.held (b : Buf β ι) : ℤ := if b.lock = none then 0 else 1

theorem Place.uses_nonneg (i : Fin nbuf) (p : Place) : 0 ≤ p.uses i := by
  cases p with
  | idle | reading => exact le_rfl
  | waiting j | releasing j =>
    rw [Place.uses]
    split_ifs <;> decide

omit [DecidableEq ι] in
theorem Buf.held_nonneg (b : Buf β ι) : 0 ≤ b.held := by
  rw [Buf.held]
  split_ifs <;> decide

variable [Fintype ι]

/-- How many processes wait for the lock, or have given it up and are still there. -/
def users (place : ι → Place) (i : Fin nbuf) : ℤ := ∑ t, (place t).uses i

theorem users_update (place : ι → Place) (t : ι) (p : Place) (i : Fin nbuf) :
    users (Function.update place t p) i = users place i - (place t).uses i + p.uses i := by
  have hcomp : (fun u => (Function.update place t p u).uses i) =
      Function.update (fun u => (place u).uses i) t (p.uses i) := by
    funext u
    rw [Function.update_apply, Function.update_apply]
    split <;> rfl
  rw [users, hcomp, Finset.sum_update_of_mem (Finset.mem_univ t), users,
    Finset.sum_eq_add_sum_sdiff_singleton_of_mem (Finset.mem_univ t)]
  omega

omit [DecidableEq ι] in
/-- Without users nobody waits for the lock. -/
theorem uses_eq_zero {place : ι → Place} {i : Fin nbuf} (h : users place i = 0) (t : ι) :
    (place t).uses i = 0 :=
  (Finset.sum_eq_zero_iff_of_nonneg fun u _ => (place u).uses_nonneg i).mp h t (Finset.mem_univ t)

omit [DecidableEq ι] in
theorem users_nonneg (place : ι → Place) (i : Fin nbuf) : 0 ≤ users place i :=
  Finset.sum_nonneg fun u _ => (place u).uses_nonneg i

/-- What holds of a buffer between two steps. -/
structure SoundAt (i : Fin nbuf) (b : Buf β ι) (pins : ℕ) (place : ι → Place) : Prop where
  fresh : b.key.1 = 0 → b.valid = false ∧ b.refcnt = 0
  refcnt_eq : b.refcnt = pins + users place i + b.held
  reading : ∀ t, place t = .reading i → b.lock = some t
  valid : ∀ t, b.lock = some t → place t ≠ .reading i → b.valid = true
  pinned : 0 < pins → b.valid = true

/-- What holds of all of them. -/
structure Sound (s : State β ι) : Prop where
  mem_order : ∀ i, i ∈ s.order
  key_inj : ∀ i j, (s.buf i).key = (s.buf j).key → (s.buf i).key.1 ≠ 0 → i = j
  each : ∀ i, SoundAt i (s.buf i) (s.pins i) s.place

section SoundAt

variable {i j : Fin nbuf} {b : Buf β ι} {pins pins' : ℕ} {place place' : ι → Place} {t : ι}

omit [DecidableEq ι] [Fintype ι] in
theorem Buf.held_of_some (h : b.lock = some t) : b.held = 1 := by
  rw [Buf.held, h]
  rfl

omit [DecidableEq ι] [Fintype ι] in
theorem Buf.held_of_none (h : b.lock = none) : b.held = 0 := by
  rw [Buf.held, h]
  rfl

/-- The buffer at which a process is. -/
def Place.buf : Place → Option (Fin nbuf)
  | .idle => none
  | .waiting i | .reading i | .releasing i => some i

theorem Place.uses_of_ne {p : Place} (h : p.buf ≠ some j) : p.uses j = 0 := by
  cases p with
  | idle | reading => rfl
  | waiting i | releasing i =>
    rw [Place.uses]
    exact if_neg fun hi => h (congrArg some hi)

theorem Place.idle_ne_reading (i : Fin nbuf) : Place.idle ≠ .reading i := nofun

theorem Place.waiting_ne_reading (i j : Fin nbuf) : Place.waiting i ≠ .reading j := nofun

theorem Place.releasing_ne_reading (i j : Fin nbuf) : Place.releasing i ≠ .reading j := nofun

theorem Place.uses_waiting : (Place.waiting i).uses i = 1 := if_pos rfl

theorem Place.uses_releasing : (Place.releasing i).uses i = 1 := if_pos rfl

omit [Fintype ι] in
theorem reading_update_iff {q : Place} (hp : place t ≠ .reading i) (hq : q ≠ .reading i) (u : ι) :
    Function.update place t q u = .reading i ↔ place u = .reading i := by
  rw [Function.update_apply]
  split
  · rename_i hu
    subst hu
    exact iff_of_false hq hp
  · rfl

namespace SoundAt

omit [DecidableEq ι] in
/-- **A buffer that is not used** is not pinned either, and nobody has its lock or waits for it. -/
theorem of_unused (h : SoundAt i b pins place) (href : b.refcnt = 0) :
    pins = 0 ∧ b.lock = none ∧ users place i = 0 := by
  have hsum := h.refcnt_eq
  have husers := users_nonneg place i
  have hheld := b.held_nonneg
  refine ⟨by omega, ?_, by omega⟩
  have hzero : b.held = 0 := by omega
  by_contra hlock
  rw [Buf.held, if_neg hlock] at hzero
  cases hzero

omit [DecidableEq ι] in
/-- A buffer with a user belongs to a block. -/
theorem key_ne_of_lock (h : SoundAt i b pins place) (hlock : b.lock = some t) : b.key.1 ≠ 0 := by
  intro hkey
  obtain ⟨-, hnone, -⟩ := h.of_unused (h.fresh hkey).2
  rw [hlock] at hnone
  cases hnone

omit [DecidableEq ι] in
/-- Whoever is on its way out of `brelse` counts. -/
theorem key_ne_of_releasing (h : SoundAt i b pins place) (hplace : place t = .releasing i) :
    b.key.1 ≠ 0 := by
  intro hkey
  obtain ⟨-, -, hzero⟩ := h.of_unused (h.fresh hkey).2
  have huses := uses_eq_zero hzero t
  rw [hplace, Place.uses_releasing] at huses
  cases huses

omit [DecidableEq ι] in
theorem congr_place (h : SoundAt i b pins place) (husers : users place' i = users place i)
    (hplace : ∀ u, place' u = .reading i ↔ place u = .reading i) : SoundAt i b pins place' :=
  ⟨h.fresh, husers ▸ h.refcnt_eq, fun u hu => h.reading u ((hplace u).mp hu),
    fun u hu hne => h.valid u hu fun hu' => hne ((hplace u).mpr hu'), h.pinned⟩

/-- A process passes from another buffer to this one or back. -/
theorem passed {q : Place} (h : SoundAt j b pins place) (hp : (place t).buf ≠ some j)
    (hq : q.buf ≠ some j) : SoundAt j b pins (Function.update place t q) := by
  refine h.congr_place ?_ (reading_update_iff (fun h => hp (h ▸ rfl)) fun h => hq (h ▸ rfl))
  rw [users_update, Place.uses_of_ne hp, Place.uses_of_ne hq, sub_zero, add_zero]

omit [DecidableEq ι] in
/-- The buffer has more users or fewer, and the same owner. -/
theorem count {r : ℤ} (h : SoundAt i b pins place) (hkey : b.key.1 ≠ 0)
    (hplace : ∀ u, place' u = .reading i ↔ place u = .reading i)
    (href : r = pins' + users place' i + b.held) (hpins : 0 < pins' → b.valid = true) :
    SoundAt i { b with refcnt := r } pins' place' :=
  ⟨fun hzero => absurd hzero hkey, href, fun u hu => h.reading u ((hplace u).mp hu),
    fun u hu hne => h.valid u hu fun hu' => hne ((hplace u).mpr hu'), hpins⟩

theorem hit (h : SoundAt i b pins place) (hkey : b.key.1 ≠ 0) (ht : place t = .idle) :
    SoundAt i { b with refcnt := b.refcnt + 1 } pins (Function.update place t (.waiting i)) := by
  have hsum := h.refcnt_eq
  have husers := users_update place t (.waiting i) i
  rw [ht, Place.uses_waiting] at husers
  refine h.count hkey (reading_update_iff (by rw [ht]; nofun) nofun) ?_ h.pinned
  rw [husers]
  show _ = _ + (_ - 0 + 1) + b.held
  omega

theorem recycle {key : Key} (h : SoundAt i b pins place) (href : b.refcnt = 0) (hkey : key.1 ≠ 0)
    (ht : place t = .idle) : SoundAt i { b with key := key, valid := false, refcnt := 1 } pins
      (Function.update place t (.waiting i)) := by
  obtain ⟨rfl, hlock, hzero⟩ := h.of_unused href
  have husers := users_update place t (.waiting i) i
  rw [ht, Place.uses_waiting, hzero] at husers
  refine ⟨fun h => absurd h hkey, ?_, fun u hu => ?_, fun u hu => ?_,
    fun hpos => absurd hpos (Nat.lt_irrefl 0)⟩
  · rw [husers]
    show 1 = 0 + (0 - 0 + 1) + b.held
    rw [Buf.held_of_none hlock]
    rfl
  · have hne : place t ≠ .reading i := by
      rw [ht]
      nofun
    exact h.reading u ((reading_update_iff hne (by nofun) u).mp hu)
  · rw [hlock] at hu
    cases hu

theorem acquire (h : SoundAt i b pins place) (ht : place t = .waiting i) (hlock : b.lock = none) :
    SoundAt i { b with lock := some t } pins (Function.update place t (.reading i)) := by
  have hsum := h.refcnt_eq
  have husers := users_update place t (.reading i) i
  rw [ht, Place.uses_waiting] at husers
  rw [Buf.held_of_none hlock] at hsum
  refine ⟨h.fresh, ?_, fun u hu => ?_, fun u hu hne => ?_, h.pinned⟩
  · rw [husers]
    show b.refcnt = _ + (_ - 1 + 0) + 1
    omega
  · rw [Function.update_apply] at hu
    split at hu
    · rename_i hu'
      rw [hu']
    · have hsome := h.reading u hu
      rw [hlock] at hsome
      cases hsome
  · obtain rfl : t = u := Option.some.inj hu
    exact absurd (Function.update_self t _ place) hne

theorem finish {data : β} (h : SoundAt i b pins place) (ht : place t = .reading i) :
    SoundAt i { b with data := data, valid := true } pins (Function.update place t .idle) := by
  have hlock := h.reading t ht
  have husers := users_update place t .idle i
  rw [ht] at husers
  refine ⟨fun hkey => absurd hkey (h.key_ne_of_lock hlock), ?_, fun u hu => ?_, fun _ _ _ => rfl,
    fun _ => rfl⟩
  · rw [husers]
    show b.refcnt = _ + (_ - 0 + 0) + b.held
    have hsum := h.refcnt_eq
    omega
  · rw [Function.update_apply] at hu
    split at hu
    · cases hu
    · exact h.reading u hu

theorem brelse (h : SoundAt i b pins place) (ht : place t = .idle) (hlock : b.lock = some t) :
    SoundAt i { b with lock := none } pins (Function.update place t (.releasing i)) := by
  have hsum := h.refcnt_eq
  have husers := users_update place t (.releasing i) i
  rw [ht, Place.uses_releasing] at husers
  rw [Buf.held_of_some hlock] at hsum
  refine ⟨h.fresh, ?_, fun u hu => ?_, nofun, h.pinned⟩
  · rw [husers]
    show b.refcnt = _ + (_ - 0 + 1) + 0
    omega
  · -- whoever is in `bread` would have the lock
    rw [Function.update_apply] at hu
    split at hu
    · cases hu
    · rename_i hne
      exact absurd (Option.some.inj ((h.reading u hu).symm.trans hlock)) hne

theorem release (h : SoundAt i b pins place) (ht : place t = .releasing i) :
    SoundAt i { b with refcnt := b.refcnt - 1 } pins (Function.update place t .idle) := by
  have hsum := h.refcnt_eq
  have husers := users_update place t .idle i
  rw [ht, Place.uses_releasing] at husers
  refine h.count (h.key_ne_of_releasing ht) (reading_update_iff (by rw [ht]; nofun) nofun) ?_
    h.pinned
  rw [husers]
  show _ = _ + (_ - 1 + 0) + b.held
  omega

end SoundAt

end SoundAt

section Sound

variable {s s' : State β ι} {a : Act β ι} {es : List (Event β ι)} {disk : Key → β} {junk : β}

omit [DecidableEq ι] [Fintype ι] in
theorem key_of_cached {key : Key} {i : Fin nbuf} (h : cached s key = some i) :
    (s.buf i).key = key := by
  simpa using List.find?_some h

omit [DecidableEq ι] [Fintype ι] in
theorem key_ne_of_not_cached {key : Key} (hmem : ∀ j, j ∈ s.order) (h : cached s key = none)
    (j : Fin nbuf) : (s.buf j).key ≠ key := by
  simpa using List.find?_eq_none.mp h j (hmem j)

omit [DecidableEq ι] [Fintype ι] in
theorem refcnt_of_unused {i : Fin nbuf} (h : unused s = some i) : (s.buf i).refcnt = 0 := by
  simpa using List.find?_some h

omit [DecidableEq ι] in
/-- A step at one buffer, which gets no key that another one has. -/
theorem Sound.of_soundAt {i : Fin nbuf} (h : Sound s) (hmem : ∀ j, j ∈ s'.order)
    (hbuf : ∀ j ≠ i, s'.buf j = s.buf j)
    (hkey : ∀ j ≠ i, (s'.buf i).key = (s.buf j).key → (s'.buf i).key.1 = 0)
    (hothers : ∀ j ≠ i, SoundAt j (s.buf j) (s'.pins j) s'.place)
    (hi : SoundAt i (s'.buf i) (s'.pins i) s'.place) : Sound s' := by
  refine ⟨hmem, fun j j' heq hne => ?_, fun j => ?_⟩
  · by_cases hj : j = i
    · by_cases hj' : j' = i
      · exact hj.trans hj'.symm
      · rw [hj, hbuf j' hj'] at heq
        rw [hj] at hne
        exact absurd (hkey j' hj' heq) hne
    · by_cases hj' : j' = i
      · rw [hj', hbuf j hj] at heq
        rw [hbuf j hj, heq] at hne
        exact absurd (hkey j hj heq.symm) hne
      · rw [hbuf j hj, hbuf j' hj'] at heq
        rw [hbuf j hj] at hne
        exact h.key_inj j j' heq hne
  · by_cases hj : j = i
    · exact hj ▸ hi
    · rw [hbuf j hj]
      exact hothers j hj

omit [DecidableEq ι] in
theorem Sound.key_of_ne {i : Fin nbuf} (h : Sound s) :
    ∀ j ≠ i, (s.buf i).key = (s.buf j).key → (s.buf i).key.1 = 0 := by
  intro j hj heq
  by_contra hne
  exact hj (h.key_inj i j heq hne).symm

theorem Sound.modify {i : Fin nbuf} {t : ι} {q : Place} {f : Buf β ι → Buf β ι} (h : Sound s)
    (hkey : ∀ j ≠ i, (f (s.buf i)).key = (s.buf j).key → (f (s.buf i)).key.1 = 0)
    (hp : ∀ j ≠ i, (s.place t).buf ≠ some j) (hq : ∀ j ≠ i, q.buf ≠ some j)
    (hi : SoundAt i (f (s.buf i)) (s.pins i) (Function.update s.place t q)) :
    Sound ((s.modify i f).goTo t q) := by
  have hbuf : ((s.modify i f).goTo t q).buf i = f (s.buf i) := s.modify_buf_self i f
  refine h.of_soundAt h.mem_order (fun j hj => State.modify_buf_of_ne hj f) ?_
    (fun j hj => (h.each j).passed (hp j hj) (hq j hj)) ?_
  · rw [hbuf]
    exact hkey
  · rw [hbuf]
    exact hi

omit [DecidableEq ι] in
/-- The owner of a buffer does something with it. -/
theorem Sound.own {i : Fin nbuf} {n : ℕ} {f : Buf β ι → Buf β ι} (h : Sound s)
    (hkey : (f (s.buf i)).key = (s.buf i).key) (hi : SoundAt i (f (s.buf i)) n s.place) :
    Sound { s.modify i f with pins := Function.update s.pins i n } := by
  have hbuf := s.modify_buf_self i f
  refine h.of_soundAt h.mem_order (fun j hj => State.modify_buf_of_ne hj f) ?_
    (fun j hj => ?_) ?_
  · show ∀ j ≠ i, ((s.modify i f).buf i).key = _ → ((s.modify i f).buf i).key.1 = 0
    rw [hbuf, hkey]
    exact h.key_of_ne
  · show SoundAt j (s.buf j) (Function.update s.pins i n j) s.place
    rw [Function.update_of_ne hj]
    exact h.each j
  · show SoundAt i ((s.modify i f).buf i) (Function.update s.pins i n i) s.place
    rw [hbuf, Function.update_self]
    exact hi

theorem sound_move (h : Sound s) (hmove : Move s a s' es) : Sound s' := by
  have hidle : ∀ {i : Fin nbuf}, ∀ j ≠ i, Place.idle.buf ≠ some j := fun _ _ => nofun
  have hat : ∀ {i : Fin nbuf} {p : Place}, p.buf = some i → ∀ j ≠ i, p.buf ≠ some j :=
    fun hp j hj heq => hj (Option.some.inj (heq.symm.trans hp))
  cases hmove with
  | @hit t key i hplace hkey hcached =>
    exact h.modify h.key_of_ne (hplace ▸ hidle) (hat rfl)
      ((h.each i).hit (key_of_cached hcached ▸ hkey) hplace)
  | @recycle t key i hplace hkey hcached hunused =>
    refine h.modify (fun j _ heq => ?_) (hplace ▸ hidle) (hat rfl)
      ((h.each i).recycle (refcnt_of_unused hunused) hkey hplace)
    exact absurd heq.symm (key_ne_of_not_cached h.mem_order hcached j)
  | @acquire t i hplace hlock =>
    exact h.modify h.key_of_ne (hplace ▸ hat rfl) (hat rfl) ((h.each i).acquire hplace hlock)
  | @fill t i hplace hvalid =>
    exact h.modify h.key_of_ne (hplace ▸ hat rfl) hidle ((h.each i).finish hplace)
  | @ready t i hplace hvalid =>
    have hself : { s.buf i with data := (s.buf i).data, valid := true } = s.buf i := by
      rw [← hvalid]
    have hi : SoundAt i { s.buf i with data := (s.buf i).data, valid := true } (s.pins i)
        (Function.update s.place t .idle) := (h.each i).finish hplace
    rw [hself] at hi
    exact h.of_soundAt h.mem_order (fun _ _ => rfl) h.key_of_ne
      (fun j hj => (h.each j).passed (hat (hplace ▸ rfl) j hj) (hidle j hj)) hi
  | @store t i v hplace hlock =>
    have hi := h.each i
    have hown := h.own (f := fun b => { b with data := v }) rfl
      ⟨hi.fresh, hi.refcnt_eq, hi.reading, hi.valid, hi.pinned⟩
    rwa [Function.update_eq_self] at hown
  | write hplace hlock => exact ⟨h.mem_order, h.key_inj, h.each⟩
  | @brelse t i hplace hlock =>
    exact h.modify h.key_of_ne (hplace ▸ hidle) (hat rfl) ((h.each i).brelse hplace hlock)
  | @leave t i hplace href =>
    exact h.modify h.key_of_ne (hplace ▸ hat rfl) hidle ((h.each i).release hplace)
  | @free t i hplace href =>
    have hleave : Sound ((s.modify i fun b => { b with refcnt := b.refcnt - 1 }).goTo t .idle) :=
      h.modify h.key_of_ne (hplace ▸ hat rfl) hidle ((h.each i).release hplace)
    refine ⟨fun j => ?_, hleave.key_inj, hleave.each⟩
    show j ∈ i :: s.order.erase i
    by_cases hj : j = i
    · exact hj ▸ List.mem_cons_self
    · exact List.mem_cons_of_mem i ((List.mem_erase_of_ne hj).mpr (h.mem_order j))
  | @pin t i hplace hlock =>
    have hsum := (h.each i).refcnt_eq
    refine h.own rfl ((h.each i).count ((h.each i).key_ne_of_lock hlock) (fun _ => Iff.rfl) ?_
      fun _ => (h.each i).valid t hlock (by rw [hplace]; nofun))
    push_cast
    omega
  | @unpin t i hplace hlock hpins =>
    have hsum := (h.each i).refcnt_eq
    refine h.own rfl ((h.each i).count ((h.each i).key_ne_of_lock hlock) (fun _ => Iff.rfl) ?_
      fun _ => (h.each i).pinned hpins)
    push_cast [Nat.one_le_iff_ne_zero.mpr hpins.ne']
    omega
  | full | writeUnheld | releaseUnheld => exact ⟨h.mem_order, h.key_inj, h.each⟩

theorem sound_init : Sound (machine ι disk junk).init where
  mem_order i := List.mem_reverse.mpr (List.mem_finRange i)
  key_inj _ _ _ hne := absurd rfl hne
  each i := by
    refine ⟨fun _ => ⟨rfl, rfl⟩, ?_, nofun, nofun, fun hpos => absurd hpos (Nat.lt_irrefl 0)⟩
    have hzero : users (fun _ : ι => Place.idle) i = 0 := Finset.sum_eq_zero fun _ _ => rfl
    show 0 = ((0 : ℕ) : ℤ) + users (fun _ : ι => Place.idle) i + 0
    rw [hzero]
    rfl

theorem sound_of_run {as : List (Act β ι)} (hrun : (machine ι disk junk).run as = some (s, es)) :
    Sound s :=
  Machine.run_invariant_state sound_init
    (fun _ _ _ _ hsound hstep => sound_move hsound (move_of_step hstep)) hrun

end Sound

end Bio

end Xv6

end SystemProgramming
