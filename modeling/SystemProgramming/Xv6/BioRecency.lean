import SystemProgramming.Library.MoveToFront
import SystemProgramming.Xv6.BioRefcnt

/-!
# Which buffer is recycled

`brelse` moves a buffer to the front of the list when its last user leaves, and `bget` looks for a
buffer without users from the back. So of these buffers it finds the one whose last user left
before those of the others.

## How it goes

The list changes in one place only, where `refcnt` comes down to 0, and that event is recorded. So
the list is what `moveToFront` makes of the first list and of the events, and the rest is the lemma
of the library about a search from the back. That nobody is at the buffer that is found follows from
its `refcnt` (`BioRefcnt`).

## Main definitions

* `freedIn` — the buffers whose last user has left, in this order

## Main results

* `order_of_run` — the list is sorted by when a buffer was in use last
* `recycled_of_run` — whose buffer is recycled
-/

namespace SystemProgramming

namespace Xv6

namespace Bio

variable {β ι : Type*} [DecidableEq ι]

/-- The buffers whose last user has left. -/
def freedIn (es : List (Event β ι)) : List (Fin nbuf) :=
  es.filterMap fun e => match e with | .freed i => some i | _ => none

/-- The list behind `binit`. -/
def initialOrder : List (Fin nbuf) := (List.finRange nbuf).reverse

variable {s s' : State β ι} {a : Act β ι} {as : List (Act β ι)} {es es' : List (Event β ι)}
  {disk : Key → β} {junk : β} {t : ι} {i : Fin nbuf}

theorem pairwise_initialOrder : initialOrder.Pairwise fun i j => j < i :=
  List.pairwise_reverse.mpr (List.pairwise_lt_finRange nbuf)

theorem nodup_initialOrder : initialOrder.Nodup :=
  List.nodup_reverse.mpr (List.nodup_finRange nbuf)

omit [DecidableEq ι] in
theorem freedIn_append : freedIn (es ++ es') = freedIn es ++ freedIn es' := List.filterMap_append

theorem order_of_move (hmove : Move s a s' es') : s'.order = moveToFront s.order (freedIn es') := by
  cases hmove <;> rfl

/-- **The list of the buffers** has the one in front whose last user left last. -/
theorem order_of_run (hrun : (machine ι disk junk).run as = some (s, es)) :
    s.order = moveToFront initialOrder (freedIn es) := by
  refine Machine.run_invariant (I := fun es s => s.order = moveToFront initialOrder (freedIn es))
    rfl (fun es s a s' es' h hstep => ?_) hrun
  rw [order_of_move (move_of_step hstep), h, freedIn_append, moveToFront_append]

variable [Fintype ι]

omit [DecidableEq ι] in
/-- Nobody is at a buffer without users. -/
theorem Sound.away_of_unused (h : Sound s) (href : (s.buf i).refcnt = 0) (t : ι) :
    (s.place t).buf ≠ some i := by
  obtain ⟨-, hlock, hzero⟩ := (h.each i).of_unused href
  have huses := uses_eq_zero hzero t
  intro hbuf
  cases hplace : s.place t with
  | idle =>
    rw [hplace] at hbuf
    cases hbuf
  | reading j =>
    rw [hplace] at hbuf
    obtain rfl := Option.some.inj hbuf
    rw [(h.each j).reading t hplace] at hlock
    cases hlock
  | waiting j =>
    rw [hplace] at hbuf huses
    obtain rfl := Option.some.inj hbuf
    rw [Place.uses_waiting] at huses
    cases huses
  | releasing j =>
    rw [hplace] at hbuf huses
    obtain rfl := Option.some.inj hbuf
    rw [Place.uses_releasing] at huses
    cases huses

/-- **The least recently used buffer is recycled.** Nobody has it, waits for its lock or is still in
`brelse` with it, and it is not pinned; of all buffers without users it is the one whose last user
left first, and of those that have not been used yet it is the first of the array. -/
theorem recycled_of_run (hrun : (machine ι disk junk).run as = some (s, es))
    (hstep : (machine ι disk junk).step s a = some (s', es')) (hmem : .recycled i ∈ es') :
    (s.buf i).lock = none ∧ s.pins i = 0 ∧ (∀ t, (s.place t).buf ≠ some i) ∧
      ∀ j ≠ i, (s.buf j).refcnt = 0 →
        lastUse (freedIn es) i < lastUse (freedIn es) j ∨
          lastUse (freedIn es) i = lastUse (freedIn es) j ∧ i < j := by
  have hsound := sound_of_run hrun
  have hunused : unused s = some i := by
    cases move_of_step hstep with
    | recycle hplace hkey hcached hunused =>
      obtain rfl := Event.recycled.inj (List.mem_singleton.mp hmem)
      exact hunused
    | store | free | fill | ready => cases List.mem_singleton.mp hmem
    | _ => cases hmem
  have href := refcnt_of_unused hunused
  obtain ⟨hpins, hlock, -⟩ := (hsound.each i).of_unused href
  refine ⟨hlock, hpins, hsound.away_of_unused href, fun j hj hzero => ?_⟩
  have hmem := hsound.mem_order j
  rw [unused, order_of_run hrun] at hunused
  rw [order_of_run hrun] at hmem
  exact usedLater_of_find? nodup_initialOrder pairwise_initialOrder hunused hmem
    (decide_eq_true hzero) hj

/-- The first buffer has been used and left, so the second one is recycled. -/
theorem recycled_of_run_second : ∃ s : State ℕ (Fin 1), ∃ es s',
    (machine (Fin 1) (fun _ => 4) 0).run
        [.bread 0 (1, 7), .acquire 0, .finish 0, .brelse 0 0, .release 0] = some (s, es) ∧
      (machine (Fin 1) (fun _ => 4) 0).step s (.bread 0 (1, 8)) = some (s', [.recycled 1]) ∧
      ∀ j ≠ 1, (s.buf j).refcnt = 0 →
        lastUse (freedIn es) 1 < lastUse (freedIn es) j ∨
          lastUse (freedIn es) 1 = lastUse (freedIn es) j ∧ 1 < j := by
  have hrun : (machine (Fin 1) (fun _ => 4) 0).run
      [.bread 0 (1, 7), .acquire 0, .finish 0, .brelse 0 0, .release 0] = some (_, _) := rfl
  exact ⟨_, _, _, hrun, rfl, (recycled_of_run (a := .bread 0 (1, 8)) hrun rfl
    List.mem_cons_self).2.2.2⟩

end Bio

end Xv6

end SystemProgramming
