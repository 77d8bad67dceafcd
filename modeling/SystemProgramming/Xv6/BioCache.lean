import SystemProgramming.Xv6.BioRefcnt

/-!
# What the buffer cache is for

Seen from its users, the buffers are copies of blocks that somebody holds or has pinned, or that can
be thrown away. A buffer whose contents have not arrived is no copy yet, and who waits for them does
not hold the block.

## The abstraction

A block has a copy if some buffer has its number and its contents have arrived; by `Sound` there is
at most one such buffer. The copy is held by the process that has the lock of the buffer, from the
moment at which `bread` returns. Before that, while the contents are read from the disk, there is no
copy, and the step in which they arrive is the one in which the process gets hold of the block. A
buffer without users keeps its contents until it is recycled, and that is the step in which a copy
is thrown away.

With this, every step of the machine is a move of `Library.BlockCache` or leaves the copies alone
(`move_abs`, by the cases of a step). What the kernel promises its users, and what they have to do
for it, is then a theorem about that library. The discipline is that of the log, which pins what it
has not written yet.

## Main definitions

* `abs` — the buffers as a cache of blocks
* `told` — what is recorded of an operation of such a cache
* `Disciplined` — nobody gives a buffer up that is neither pinned nor written
* `contents` — what has been stored in the blocks last

## Main results

* `move_of_run` — every step of a run is a move of the cache of blocks
* `bread_of_run` — `bread` finds what has been stored last
-/

namespace SystemProgramming

namespace Xv6

namespace Bio

variable {β ι : Type*}

/-- Who has found the block, and has not given it up. -/
def owner (s : State β ι) (i : Fin nbuf) : Option ι :=
  (s.buf i).lock.filter fun t => s.place t ≠ .reading i

/-- The buffer as a copy of its block. -/
def copy (s : State β ι) (i : Fin nbuf) : CachedBlock β ι := ⟨(s.buf i).data, owner s i, s.pins i⟩

/-- The contents of the block are there. -/
def Caches (s : State β ι) (key : Key) (i : Fin nbuf) : Prop :=
  (s.buf i).key = key ∧ (s.buf i).valid = true

instance (s : State β ι) (key : Key) : DecidablePred (Caches s key) :=
  fun _ => inferInstanceAs (Decidable (_ ∧ _))

/-- The buffers as a cache of blocks. -/
def abs (s : State β ι) : BlockCache Key β ι := fun key =>
  ((List.finRange nbuf).find? fun i => Caches s key i).map (copy s)

section Abs

variable {s s' : State β ι} {key : Key} {i : Fin nbuf} {t : ι}

theorem owner_eq_none (h : (s.buf i).lock = none) : owner s i = none := by
  rw [owner, h]
  rfl

theorem owner_eq_none_of_reading (hlock : (s.buf i).lock = some t) (h : s.place t = .reading i) :
    owner s i = none := by
  rw [owner, hlock, Option.filter_some, if_neg]
  simpa using h

theorem owner_eq_some (hlock : (s.buf i).lock = some t) (h : s.place t ≠ .reading i) :
    owner s i = some t := by
  rw [owner, hlock, Option.filter_some, if_pos]
  simpa using h

theorem copy_congr (hdata : (s'.buf i).data = (s.buf i).data)
    (hlock : (s'.buf i).lock = (s.buf i).lock) (hpins : s'.pins i = s.pins i)
    (hplace : ∀ u, s'.place u = .reading i ↔ s.place u = .reading i) : copy s' i = copy s i := by
  have howner : owner s' i = owner s i := by
    rw [owner, owner, hlock]
    refine congrArg (Option.filter · _) (funext fun u => ?_)
    exact decide_eq_decide.mpr (not_congr (hplace u))
  rw [copy, copy, hdata, howner, hpins]

theorem abs_eq_none (h : ∀ i, ¬ Caches s key i) : abs s key = none := by
  rw [abs, List.find?_eq_none.mpr fun i _ => by simpa using h i]
  rfl

variable [Fintype ι]

theorem caches_inj {j : Fin nbuf} (hsound : Sound s) (hi : Caches s key i) (hj : Caches s key j) :
    j = i := by
  refine hsound.key_inj j i (hj.1.trans hi.1.symm) fun hzero => ?_
  have hfresh := ((hsound.each j).fresh hzero).1
  rw [hj.2] at hfresh
  cases hfresh

theorem abs_eq_some (hsound : Sound s) (h : Caches s key i) : abs s key = some (copy s i) := by
  rw [abs]
  cases hfind : (List.finRange nbuf).find? fun i => Caches s key i with
  | none =>
    have hnone := List.find?_eq_none.mp hfind i (List.mem_finRange i)
    exact absurd h (by simpa using hnone)
  | some j =>
    have hj : Caches s key j := by simpa using List.find?_some hfind
    rw [caches_inj hsound h hj]
    rfl

theorem abs_congr_at (hsound : Sound s) (hsound' : Sound s')
    (hiff : ∀ i, Caches s' key i ↔ Caches s key i)
    (hcopy : ∀ i, Caches s key i → copy s' i = copy s i) : abs s' key = abs s key := by
  by_cases h : ∃ i, Caches s key i
  · obtain ⟨i, hi⟩ := h
    rw [abs_eq_some hsound hi, abs_eq_some hsound' ((hiff i).mpr hi), hcopy i hi]
  · have hnone := not_exists.mp h
    rw [abs_eq_none hnone, abs_eq_none fun i hi => hnone i ((hiff i).mp hi)]

theorem abs_congr (hsound : Sound s) (hsound' : Sound s')
    (hkey : ∀ i, (s'.buf i).key = (s.buf i).key) (hvalid : ∀ i, (s'.buf i).valid = (s.buf i).valid)
    (hcopy : ∀ i, copy s' i = copy s i) : abs s' = abs s := by
  funext key
  refine abs_congr_at hsound hsound' (fun i => ?_) fun i _ => hcopy i
  rw [Caches, hkey, hvalid, Caches]

/-- A step that one copy is changed or made in. -/
theorem abs_update (hsound : Sound s) (hsound' : Sound s')
    (hkey : (s'.buf i).key = (s.buf i).key) (hvalid : (s'.buf i).valid = true)
    (hbuf : ∀ j ≠ i, s'.buf j = s.buf j) (hcopy : ∀ j ≠ i, copy s' j = copy s j) :
    abs s' = Function.update (abs s) (s.buf i).key (some (copy s' i)) := by
  funext key
  by_cases hk : key = (s.buf i).key
  · rw [hk, Function.update_self]
    exact abs_eq_some hsound' ⟨hkey, hvalid⟩
  · rw [Function.update_of_ne hk]
    have hne : ∀ j, (s.buf j).key = key → j ≠ i := by
      rintro j rfl rfl
      exact hk rfl
    refine abs_congr_at hsound hsound' (fun j => ?_) fun j hj => hcopy j (hne j hj.1)
    by_cases hj : j = i
    · subst hj
      exact iff_of_false (fun h => hk (h.1.symm.trans hkey)) fun h => hk h.1.symm
    · rw [Caches, hbuf j hj, Caches]

/-- A buffer without users gets another key. -/
theorem abs_evict (hsound : Sound s) (hsound' : Sound s') (hvalid : (s.buf i).valid = true)
    (hvalid' : (s'.buf i).valid = false) (hbuf : ∀ j ≠ i, s'.buf j = s.buf j)
    (hcopy : ∀ j ≠ i, copy s' j = copy s j) :
    abs s' = (abs s).evict (s.buf i).key := by
  have hnot : ∀ key, ¬ Caches s' key i := by
    rintro key ⟨-, htrue⟩
    rw [hvalid'] at htrue
    cases htrue
  funext key
  rw [BlockCache.evict]
  by_cases hk : key = (s.buf i).key
  · rw [hk, Function.update_self]
    refine abs_eq_none fun j hj => ?_
    by_cases hj' : j = i
    · exact hnot _ (hj' ▸ hj)
    · rw [Caches, hbuf j hj'] at hj
      exact hj' (caches_inj hsound ⟨rfl, hvalid⟩ hj)
  · rw [Function.update_of_ne hk]
    refine abs_congr_at hsound hsound' (fun j => ?_) fun j hj => hcopy j ?_
    · by_cases hj : j = i
      · subst hj
        exact iff_of_false (hnot key) fun h => hk h.1.symm
      · rw [Caches, hbuf j hj, Caches]
    · rintro rfl
      exact hk hj.1.symm

/-- A buffer that is no copy gets another key. -/
theorem abs_discard (hsound : Sound s) (hsound' : Sound s') (hvalid : (s.buf i).valid = false)
    (hvalid' : (s'.buf i).valid = false) (hbuf : ∀ j ≠ i, s'.buf j = s.buf j)
    (hcopy : ∀ j ≠ i, copy s' j = copy s j) : abs s' = abs s := by
  funext key
  have hne : ∀ j, Caches s key j → j ≠ i := by
    rintro j hj rfl
    rw [Caches, hvalid] at hj
    cases hj.2
  refine abs_congr_at hsound hsound' (fun j => ?_) fun j hj => hcopy j (hne j hj)
  by_cases hj : j = i
  · subst hj
    rw [Caches, hvalid', Caches, hvalid]
    exact iff_of_false (fun h => Bool.false_ne_true h.2) fun h => Bool.false_ne_true h.2
  · rw [Caches, hbuf j hj, Caches]

/-- A block whose contents are missing in its buffer has no copy. -/
theorem abs_eq_none_of_invalid (hsound : Sound s) (hkey : (s.buf i).key.1 ≠ 0)
    (hvalid : (s.buf i).valid = false) : abs s (s.buf i).key = none := by
  refine abs_eq_none fun j hj => ?_
  obtain rfl := hsound.key_inj i j hj.1.symm hkey
  rw [Caches, hvalid] at hj
  cases hj.2

/-- Who has a buffer has found its block. -/
theorem caches_of_lock (hsound : Sound s) (hlock : (s.buf i).lock = some t)
    (hplace : s.place t = .idle) : Caches s (s.buf i).key i := by
  refine ⟨rfl, (hsound.each i).valid t hlock ?_⟩
  rw [hplace]
  nofun

theorem abs_of_owner (hsound : Sound s) (hlock : (s.buf i).lock = some t)
    (hplace : s.place t = .idle) :
    abs s (s.buf i).key = some ⟨(s.buf i).data, some t, s.pins i⟩ := by
  rw [abs_eq_some hsound (caches_of_lock hsound hlock hplace), copy, owner_eq_some hlock]
  rw [hplace]
  nofun

theorem holder_of_owner (hsound : Sound s) (hlock : (s.buf i).lock = some t)
    (hplace : s.place t = .idle) : (abs s).holder (s.buf i).key = some t := by
  rw [BlockCache.holder, abs_of_owner hsound hlock hplace]
  rfl

theorem holder_abs (hsound : Sound s) (h : Caches s key i) : (abs s).holder key = owner s i := by
  rw [BlockCache.holder, abs_eq_some hsound h]
  rfl

theorem pins_abs (hsound : Sound s) (h : Caches s key i) : (abs s).pins key = s.pins i := by
  rw [BlockCache.pins, abs_eq_some hsound h]
  rfl

theorem read_abs (hsound : Sound s) (h : Caches s key i) (disk : Key → β) :
    (abs s).read disk key = (s.buf i).data := by
  rw [BlockCache.read, abs_eq_some hsound h]
  rfl

end Abs

/-! ### Step by step -/

variable [DecidableEq ι]

/-- What an action is to the users of the cache. -/
def Act.op (s : State β ι) : Act β ι → BlockCache.Op Key β ι
  | .bread _ key =>
    match cached s key, unused s with
    | none, some i => if (s.buf i).valid then .evict (s.buf i).key else .stay
    | _, _ => .stay
  | .acquire _ | .release _ => .stay
  | .finish t =>
    match s.place t with
    | .reading i => .hold t (s.buf i).key
    | _ => .stay
  | .store t i v => .store t (s.buf i).key v
  | .bwrite t i => if (s.buf i).lock = some t then .write t (s.buf i).key else .stay
  | .brelse t i => if (s.buf i).lock = some t then .release t (s.buf i).key else .stay
  | .bpin t i => .pin t (s.buf i).key
  | .bunpin t i => .unpin t (s.buf i).key

section Op

variable {s : State β ι} {t : ι} {key : Key} {i : Fin nbuf}

theorem op_of_cached (h : cached s key = some i) : (Act.bread t key : Act β ι).op s = .stay := by
  rw [Act.op, h]

theorem op_of_unused (hcached : cached s key = none) (hunused : unused s = some i) :
    (Act.bread t key : Act β ι).op s =
      if (s.buf i).valid then .evict (s.buf i).key else .stay := by
  rw [Act.op, hcached, hunused]

theorem op_of_full (hcached : cached s key = none) (hunused : unused s = none) :
    (Act.bread t key : Act β ι).op s = .stay := by
  rw [Act.op, hcached, hunused]

theorem op_of_reading (h : s.place t = .reading i) :
    (Act.finish t : Act β ι).op s = .hold t (s.buf i).key := by
  rw [Act.op, h]

end Op

/-- The users are told of it. -/
def Event.seen : Event β ι → Bool
  | .got .. | .stored .. => true
  | .freed _ | .recycled _ => false

/-- What is recorded of an operation. -/
def told (c : BlockCache Key β ι) (disk : Key → β) : BlockCache.Op Key β ι → List (Event β ι)
  | .hold t key => [.got t key (c.read disk key)]
  | .store t key v => [.stored t key v]
  | _ => []

section Step

variable {s s' : State β ι} {a : Act β ι} {es : List (Event β ι)} {i j : Fin nbuf} {t : ι}
  {q : Place} {f : Buf β ι → Buf β ι}

theorem copy_goTo (hdata : ((s.modify i f).buf j).data = (s.buf j).data)
    (hlock : ((s.modify i f).buf j).lock = (s.buf j).lock) (hp : s.place t ≠ .reading j)
    (hq : q ≠ .reading j) : copy ((s.modify i f).goTo t q) j = copy s j :=
  copy_congr hdata hlock rfl (reading_update_iff hp hq)

/-- The other buffers are the same copies as before. -/
theorem copy_goTo_of_ne (hj : j ≠ i) (hp : s.place t ≠ .reading j) (hq : q ≠ .reading j) :
    copy ((s.modify i f).goTo t q) j = copy s j :=
  copy_goTo (congrArg Buf.data (State.modify_buf_of_ne hj f))
    (congrArg Buf.lock (State.modify_buf_of_ne hj f)) hp hq

omit [DecidableEq ι] in
/-- A field of all buffers that is the same at the one that is changed. -/
theorem modify_congr {γ : Type*} (g : Buf β ι → γ) (h : g (f (s.buf i)) = g (s.buf i))
    (j : Fin nbuf) : g ((s.modify i f).buf j) = g (s.buf j) := by
  by_cases hj : j = i
  · rw [hj, State.modify_buf_self, h]
  · rw [State.modify_buf_of_ne hj]

variable [Fintype ι]

theorem abs_count (hsound : Sound s) (hsound' : Sound ((s.modify i f).goTo t q))
    (hf : ∃ r, f (s.buf i) = { s.buf i with refcnt := r }) (hp : ∀ j, s.place t ≠ .reading j)
    (hq : ∀ j, q ≠ .reading j) : abs ((s.modify i f).goTo t q) = abs s := by
  obtain ⟨r, hr⟩ := hf
  refine abs_congr hsound hsound' (modify_congr Buf.key ?_) (modify_congr Buf.valid ?_)
    fun j => copy_goTo (modify_congr Buf.data ?_ j) (modify_congr Buf.lock ?_ j) (hp j) (hq j)
  all_goals rw [hr]

/-- Only the lock changes, and the block has not been found yet. -/
theorem abs_acquire (hsound : Sound s) (hsound' : Sound ((s.modify i f).goTo t (.reading i)))
    (hf : f (s.buf i) = { s.buf i with lock := some t }) (hplace : s.place t = .waiting i)
    (hlock : (s.buf i).lock = none) : abs ((s.modify i f).goTo t (.reading i)) = abs s := by
  have hbuf : ((s.modify i f).goTo t (.reading i)).buf i = { s.buf i with lock := some t } :=
    (s.modify_buf_self i f).trans hf
  refine abs_congr hsound hsound' (modify_congr Buf.key ?_) (modify_congr Buf.valid ?_) fun j => ?_
  · rw [hf]
  · rw [hf]
  · by_cases hj : j = i
    · subst hj
      have hnone := owner_eq_none_of_reading (congrArg Buf.lock hbuf)
        (Function.update_self t _ s.place)
      rw [copy, copy, hnone, owner_eq_none hlock, hbuf]
      rfl
    · exact copy_goTo_of_ne hj (by rw [hplace]; nofun) fun heq => hj (Place.reading.inj heq).symm

/-- A process gets hold of a buffer or gives it up. -/
theorem abs_goTo {o : Option ι} (hsound : Sound s) (hsound' : Sound ((s.modify i f).goTo t q))
    (hkey : (f (s.buf i)).key = (s.buf i).key) (hvalid : (f (s.buf i)).valid = true)
    (hp : ∀ j ≠ i, s.place t ≠ .reading j) (hq : ∀ j ≠ i, q ≠ .reading j)
    (howner : owner ((s.modify i f).goTo t q) i = o) :
    abs ((s.modify i f).goTo t q) =
      Function.update (abs s) (s.buf i).key (some ⟨(f (s.buf i)).data, o, s.pins i⟩) := by
  have hbuf : ((s.modify i f).goTo t q).buf i = f (s.buf i) := s.modify_buf_self i f
  rw [abs_update hsound hsound' ((congrArg Buf.key hbuf).trans hkey)
    ((congrArg Buf.valid hbuf).trans hvalid) (fun j hj => State.modify_buf_of_ne hj f)
    fun j hj => copy_goTo_of_ne hj (hp j hj) (hq j hj), copy, howner, hbuf]
  rfl

/-- `bread` returns. -/
theorem abs_finish {v : β} (hsound : Sound s) (hsound' : Sound ((s.modify i f).goTo t .idle))
    (hf : f (s.buf i) = { s.buf i with data := v, valid := true })
    (hplace : s.place t = .reading i) : abs ((s.modify i f).goTo t .idle) =
      Function.update (abs s) (s.buf i).key (some ⟨v, some t, s.pins i⟩) := by
  have hlock : (f (s.buf i)).lock = some t := by
    rw [hf]
    exact (hsound.each i).reading t hplace
  have howner : owner ((s.modify i f).goTo t .idle) i = some t := by
    refine owner_eq_some ((congrArg Buf.lock (s.modify_buf_self i f)).trans hlock) ?_
    show Function.update s.place t .idle t ≠ .reading i
    rw [Function.update_self]
    nofun
  rw [abs_goTo hsound hsound' (by rw [hf]) (by rw [hf]) (fun j hj => ?_) (fun _ _ => nofun) howner,
    hf]
  rw [hplace]
  exact fun heq => hj (Place.reading.inj heq).symm

omit [DecidableEq ι] in
/-- The owner of a buffer changes it, or its pins. -/
theorem abs_own {n : ℕ} (hsound : Sound s)
    (hsound' : Sound { s.modify i f with pins := Function.update s.pins i n })
    (hkey : (f (s.buf i)).key = (s.buf i).key) (hvalid : (f (s.buf i)).valid = (s.buf i).valid)
    (hlock' : (f (s.buf i)).lock = (s.buf i).lock) (hplace : s.place t = .idle)
    (hlock : (s.buf i).lock = some t) :
    abs { s.modify i f with pins := Function.update s.pins i n } =
      Function.update (abs s) (s.buf i).key (some ⟨(f (s.buf i)).data, some t, n⟩) := by
  have hbuf := s.modify_buf_self i f
  have hne : s.place t ≠ .reading i := by
    rw [hplace]
    nofun
  have howner := owner_eq_some (s := { s.modify i f with pins := Function.update s.pins i n })
    ((congrArg Buf.lock hbuf).trans (hlock'.trans hlock)) hne
  rw [abs_update (i := i) hsound hsound' ((congrArg Buf.key hbuf).trans hkey)
    ((congrArg Buf.valid hbuf).trans (hvalid.trans ((hsound.each i).valid t hlock hne)))
    (fun j hj => State.modify_buf_of_ne hj f) fun j hj => ?_, copy, howner]
  · show Function.update (abs s) (s.buf i).key
      (some ⟨((s.modify i f).buf i).data, some t, Function.update s.pins i n i⟩) = _
    rw [hbuf, Function.update_self]
  · exact copy_congr (congrArg Buf.data (State.modify_buf_of_ne hj f))
      (congrArg Buf.lock (State.modify_buf_of_ne hj f)) (Function.update_of_ne hj n s.pins)
      fun _ => Iff.rfl

/-- A buffer without users is recycled. -/
theorem move_recycle {key : Key} (hsound : Sound s) (hplace : s.place t = .idle)
    (hunused : unused s = some i)
    (hf : f (s.buf i) = { s.buf i with key := key, valid := false, refcnt := 1 })
    (hsound' : Sound ((s.modify i f).goTo t (.waiting i))) :
    (abs s).Move s.disk (if (s.buf i).valid then .evict (s.buf i).key else .stay)
      (abs ((s.modify i f).goTo t (.waiting i))) s.disk := by
  obtain ⟨hpins, hlock, -⟩ := (hsound.each i).of_unused (refcnt_of_unused hunused)
  have hvalid' : (((s.modify i f).goTo t (.waiting i)).buf i).valid = false :=
    congrArg Buf.valid ((s.modify_buf_self i f).trans hf)
  have hbuf : ∀ j ≠ i, ((s.modify i f).goTo t (.waiting i)).buf j = s.buf j :=
    fun _ hj => State.modify_buf_of_ne hj f
  have hcopy : ∀ j ≠ i, copy ((s.modify i f).goTo t (.waiting i)) j = copy s j := fun j hj =>
    copy_goTo_of_ne hj (hplace ▸ Place.idle_ne_reading j) (Place.waiting_ne_reading i j)
  split
  · rename_i hvalid
    rw [abs_evict hsound hsound' hvalid hvalid' hbuf hcopy]
    refine .evict ?_ ?_
    · rw [holder_abs hsound ⟨rfl, hvalid⟩]
      exact owner_eq_none hlock
    · rw [pins_abs hsound ⟨rfl, hvalid⟩]
      exact hpins
  · rename_i hvalid
    rw [abs_discard hsound hsound' (Bool.eq_false_of_not_eq_true hvalid) hvalid' hbuf hcopy]
    exact .stay

/-- A process finds a block that has no copy yet. -/
theorem move_fill (hsound : Sound s) (hplace : s.place t = .reading i)
    (hvalid : (s.buf i).valid = false)
    (hf : f (s.buf i) = { s.buf i with data := s.disk (s.buf i).key, valid := true })
    (hsound' : Sound ((s.modify i f).goTo t .idle)) :
    (abs s).Move s.disk (.hold t (s.buf i).key) (abs ((s.modify i f).goTo t .idle)) s.disk := by
  have hlock := (hsound.each i).reading t hplace
  have hnone := abs_eq_none_of_invalid hsound ((hsound.each i).key_ne_of_lock hlock) hvalid
  have hpins : s.pins i = 0 := by
    by_contra hpins
    rw [(hsound.each i).pinned (Nat.pos_of_ne_zero hpins)] at hvalid
    cases hvalid
  have hhold : (abs s).hold s.disk t (s.buf i).key = Function.update (abs s) (s.buf i).key
      (some ⟨s.disk (s.buf i).key, some t, 0⟩) := BlockCache.update_of_none hnone
  rw [abs_finish hsound hsound' hf hplace, hpins, ← hhold]
  refine .hold ?_
  rw [BlockCache.holder, hnone]
  rfl

/-- A process finds a block that has a copy. -/
theorem move_ready (hsound : Sound s) (hplace : s.place t = .reading i)
    (hvalid : (s.buf i).valid = true) (hsound' : Sound (s.goTo t .idle)) :
    (abs s).Move s.disk (.hold t (s.buf i).key) (abs (s.goTo t .idle)) s.disk := by
  have hhold : (abs s).hold s.disk t (s.buf i).key =
      Function.update (abs s) (s.buf i).key (some ⟨(s.buf i).data, some t, s.pins i⟩) :=
    BlockCache.update_of_some (abs_eq_some hsound ⟨rfl, hvalid⟩)
  have hid : s.modify i id = s := by
    rw [State.modify, id, Function.update_eq_self]
  have hself : id (s.buf i) = { s.buf i with data := (s.buf i).data, valid := true } := by
    rw [← hvalid]
    rfl
  have hfinish := abs_finish hsound (hid.symm ▸ hsound') hself hplace
  rw [hid] at hfinish
  rw [hfinish, ← hhold]
  refine .hold ?_
  rw [holder_abs hsound ⟨rfl, hvalid⟩]
  exact owner_eq_none_of_reading ((hsound.each i).reading t hplace) hplace

omit [DecidableEq ι] in
theorem move_store {v : β} (hsound : Sound s) (hplace : s.place t = .idle)
    (hlock : (s.buf i).lock = some t) (hf : f (s.buf i) = { s.buf i with data := v })
    (hsound' : Sound (s.modify i f)) :
    (abs s).Move s.disk (.store t (s.buf i).key v) (abs (s.modify i f)) s.disk := by
  have hpins : s.modify i f =
      { s.modify i f with pins := Function.update s.pins i (s.pins i) } := by
    rw [Function.update_eq_self]
    rfl
  have hstore : (abs s).store s.disk (s.buf i).key v =
      Function.update (abs s) (s.buf i).key (some ⟨v, some t, s.pins i⟩) :=
    BlockCache.update_of_some (abs_of_owner hsound hlock hplace)
  have hown := abs_own hsound (hpins ▸ hsound') (by rw [hf]) (by rw [hf]) (by rw [hf]) hplace hlock
  rw [hf, ← hpins] at hown
  rw [hown, ← hstore]
  exact .store (holder_of_owner hsound hlock hplace)

theorem move_brelse (hsound : Sound s) (hplace : s.place t = .idle)
    (hlock : (s.buf i).lock = some t) (hf : f (s.buf i) = { s.buf i with lock := none })
    (hsound' : Sound ((s.modify i f).goTo t (.releasing i))) :
    (abs s).Move s.disk (.release t (s.buf i).key)
      (abs ((s.modify i f).goTo t (.releasing i))) s.disk := by
  have hrelease : (abs s).release s.disk (s.buf i).key =
      Function.update (abs s) (s.buf i).key (some ⟨(s.buf i).data, none, s.pins i⟩) :=
    BlockCache.update_of_some (abs_of_owner hsound hlock hplace)
  have hvalid := (caches_of_lock hsound hlock hplace).2
  have hnone : owner ((s.modify i f).goTo t (.releasing i)) i = none :=
    owner_eq_none (congrArg Buf.lock ((s.modify_buf_self i f).trans hf))
  rw [abs_goTo hsound hsound' (by rw [hf]) (by rw [hf]; exact hvalid)
    (fun j _ => hplace ▸ Place.idle_ne_reading j) (fun j _ => Place.releasing_ne_reading i j) hnone,
    hf, ← hrelease]
  exact .release (holder_of_owner hsound hlock hplace)

/-- **Seen from outside**, a step does to the copies of the blocks what its action says. -/
theorem move_abs (hsound : Sound s) (hmove : Move s a s' es) :
    (abs s).Move s.disk (a.op s) (abs s') s'.disk := by
  have hsound' := sound_move hsound hmove
  cases hmove with
  | @hit t key i hplace hkey hcached =>
    rw [op_of_cached hcached, abs_count hsound hsound' ⟨_, rfl⟩
      (fun j => hplace ▸ Place.idle_ne_reading j) (Place.waiting_ne_reading i)]
    exact .stay
  | recycle hplace hkey hcached hunused =>
    rw [op_of_unused hcached hunused]
    exact move_recycle hsound hplace hunused rfl hsound'
  | acquire hplace hlock =>
    rw [abs_acquire hsound hsound' rfl hplace hlock]
    exact .stay
  | fill hplace hvalid =>
    rw [op_of_reading hplace]
    exact move_fill hsound hplace hvalid rfl hsound'
  | ready hplace hvalid =>
    rw [op_of_reading hplace]
    exact move_ready hsound hplace hvalid hsound'
  | store hplace hlock => exact move_store hsound hplace hlock rfl hsound'
  | @write t i hplace hlock =>
    have hop : (Act.bwrite t i : Act β ι).op s = .write t (s.buf i).key := if_pos hlock
    have hread := read_abs hsound (caches_of_lock hsound hlock hplace) s.disk
    rw [hop, ← hread]
    exact .write (holder_of_owner hsound hlock hplace)
  | @brelse t i hplace hlock =>
    have hop : (Act.brelse t i : Act β ι).op s = .release t (s.buf i).key := if_pos hlock
    rw [hop]
    exact move_brelse hsound hplace hlock rfl hsound'
  | @leave t i hplace href =>
    rw [abs_count hsound hsound' ⟨_, rfl⟩ (fun j => hplace ▸ Place.releasing_ne_reading i j)
      Place.idle_ne_reading]
    exact .stay
  | @free t i hplace href =>
    -- the order of the list does not matter
    have hleave := abs_count (i := i) (t := t) (q := .idle)
      (f := fun b => { b with refcnt := b.refcnt - 1 }) hsound
      ⟨hsound.mem_order, hsound'.key_inj, hsound'.each⟩ ⟨_, rfl⟩
      (fun j => hplace ▸ Place.releasing_ne_reading i j) Place.idle_ne_reading
    exact hleave ▸ .stay
  | @pin t i hplace hlock =>
    have hpin : (abs s).pin s.disk (s.buf i).key =
        Function.update (abs s) (s.buf i).key (some ⟨(s.buf i).data, some t, s.pins i + 1⟩) :=
      BlockCache.update_of_some (abs_of_owner hsound hlock hplace)
    rw [abs_own hsound hsound' rfl rfl rfl hplace hlock, ← hpin]
    exact .pin (holder_of_owner hsound hlock hplace)
  | @unpin t i hplace hlock hpins =>
    have hunpin : (abs s).unpin s.disk (s.buf i).key =
        Function.update (abs s) (s.buf i).key (some ⟨(s.buf i).data, some t, s.pins i - 1⟩) :=
      BlockCache.update_of_some (abs_of_owner hsound hlock hplace)
    rw [abs_own hsound hsound' rfl rfl rfl hplace hlock, ← hunpin]
    exact .unpin (holder_of_owner hsound hlock hplace)
  | full hcached hunused =>
    rw [op_of_full hcached hunused]
    exact .stay
  | @writeUnheld t i hlock =>
    have hop : (Act.bwrite t i : Act β ι).op s = .stay := if_neg hlock
    rw [hop]
    exact .stay
  | @releaseUnheld t i hlock =>
    have hop : (Act.brelse t i : Act β ι).op s = .stay := if_neg hlock
    rw [hop]
    exact .stay

/-- What `bread` finds is what the block contains. -/
theorem told_of_move (hsound : Sound s) (hmove : Move s a s' es) :
    es.filter Event.seen = told (abs s) s.disk (a.op s) := by
  cases hmove with
  | hit hplace hkey hcached =>
    rw [op_of_cached hcached]
    rfl
  | recycle hplace hkey hcached hunused =>
    rw [op_of_unused hcached hunused]
    split <;> rfl
  | @fill t i hplace hvalid =>
    have hlock := (hsound.each i).reading t hplace
    rw [op_of_reading hplace]
    show [Event.got _ _ _] = [Event.got _ _ _]
    rw [BlockCache.read,
      abs_eq_none_of_invalid hsound ((hsound.each i).key_ne_of_lock hlock) hvalid]
  | ready hplace hvalid =>
    rw [op_of_reading hplace]
    show [Event.got _ _ _] = [Event.got _ _ _]
    rw [read_abs hsound ⟨rfl, hvalid⟩]
  | @write t i hplace hlock | @brelse t i hplace hlock =>
    rw [Act.op, if_pos hlock]
    rfl
  | full hcached hunused =>
    rw [op_of_full hcached hunused]
    rfl
  | @writeUnheld t i hlock | @releaseUnheld t i hlock =>
    rw [Act.op, if_neg hlock]
    rfl
  | acquire | store | leave | free | pin | unpin => rfl

end Step

/-! ### Whole runs -/

section Run

variable [Fintype ι] {s s' : State β ι} {a : Act β ι} {as : List (Act β ι)}
  {es es' : List (Event β ι)} {disk : Key → β} {junk : β}

/-- **The buffers are a cache of blocks**: in every run a block is held by one process at a time,
what is held or pinned stays, and `bread` finds what the block contains. -/
theorem move_of_run (hrun : (machine ι disk junk).run as = some (s, es))
    (hstep : (machine ι disk junk).step s a = some (s', es')) :
    (abs s).Move s.disk (a.op s) (abs s') s'.disk ∧
      es'.filter Event.seen = told (abs s) s.disk (a.op s) :=
  have hmove := move_of_step hstep
  have hsound := sound_of_run hrun
  ⟨move_abs hsound hmove, told_of_move hsound hmove⟩

/-- The first buffer is filled. -/
theorem move_of_run_finish : ∃ s s' : State ℕ (Fin 2),
    (machine (Fin 2) (fun _ => 4) 0).run [.bread 0 (1, 7), .acquire 0] =
        some (s, [.recycled 0]) ∧
      (machine (Fin 2) (fun _ => 4) 0).step s (.finish 0) = some (s', [.got 0 (1, 7) 4]) ∧
      (abs s).Move s.disk (.hold 0 (1, 7)) (abs s') s'.disk := by
  have hrun : (machine (Fin 2) (fun _ => 4) 0).run [.bread 0 (1, 7), .acquire 0] =
      some (_, [.recycled 0]) := rfl
  exact ⟨_, _, hrun, rfl, (move_of_run (a := .finish 0) hrun rfl).1⟩

/-- What has been stored in the blocks last. -/
def contents (disk : Key → β) (es : List (Event β ι)) : Key → β :=
  es.foldl (fun c e => match e with | .stored _ key v => Function.update c key v | _ => c) disk

/-- Who gives a buffer up has pinned it or has written it, unless it contains what the disk
contains. -/
def Disciplined (_ : List (Event β ι)) (s : State β ι) : Act β ι → Prop
  | .brelse t i =>
    (s.buf i).lock = some t → 0 < s.pins i ∨ (s.buf i).data = s.disk (s.buf i).key
  | _ => True

omit [Fintype ι] in
instance decidableDisciplined [DecidableEq β] (es : List (Event β ι)) (s : State β ι) :
    ∀ a, Decidable (Disciplined es s a)
  | .brelse _ _ => inferInstanceAs (Decidable (_ → _))
  | .bread .. | .acquire _ | .finish _ | .store .. | .bwrite .. | .release _ | .bpin .. |
    .bunpin .. => .isTrue trivial

/-- `bread` has found what the block contained. -/
def Found (disk : Key → β) (es : List (Event β ι)) : Event β ι → Prop
  | .got _ key v => v = contents disk es key
  | _ => True

omit [DecidableEq ι] [Fintype ι] in
theorem contents_append (es es' : List (Event β ι)) :
    contents disk (es ++ es') = contents (contents disk es) es' := List.foldl_append

omit [DecidableEq ι] [Fintype ι] in
/-- What the users are not told of changes nothing. -/
theorem contents_filter : ∀ (disk : Key → β) (es : List (Event β ι)),
    contents disk (es.filter Event.seen) = contents disk es
  | _, [] => rfl
  | disk, .stored _ key v :: es => contents_filter (Function.update disk key v) es
  | disk, .got .. :: es => contents_filter disk es
  | disk, .freed _ :: es => contents_filter disk es
  | disk, .recycled _ :: es => contents_filter disk es

omit [DecidableEq ι] [Fintype ι] in
theorem contents_told (c : BlockCache Key β ι) (disk disk' : Key → β)
    (op : BlockCache.Op Key β ι) : contents disk' (told c disk op) = op.contents disk' := by
  cases op <;> rfl

/-- Only `brelse` lets go of a block, and it obeys the discipline. -/
theorem kept_of_release (hsound : Sound s) (hmove : Move s a s' es')
    (hdis : Disciplined es s a) {t : ι} {key : Key} (hop : a.op s = .release t key) :
    0 < (abs s).pins key ∨ (abs s).read s.disk key = s.disk key := by
  cases hmove with
  | @brelse u i hplace hlock =>
    rw [Act.op, if_pos hlock] at hop
    obtain ⟨-, rfl⟩ := BlockCache.Op.release.inj hop
    have hcaches := caches_of_lock hsound hlock hplace
    rw [pins_abs hsound hcaches, read_abs hsound hcaches]
    exact hdis hlock
  | hit hplace hkey hcached =>
    rw [op_of_cached hcached] at hop
    cases hop
  | recycle hplace hkey hcached hunused =>
    rw [op_of_unused hcached hunused] at hop
    split at hop <;> cases hop
  | fill hplace | ready hplace =>
    rw [op_of_reading hplace] at hop
    cases hop
  | @write u i hplace hlock =>
    rw [Act.op, if_pos hlock] at hop
    cases hop
  | full hcached hunused =>
    rw [op_of_full hcached hunused] at hop
    cases hop
  | @writeUnheld u i hlock | @releaseUnheld u i hlock =>
    rw [Act.op, if_neg hlock] at hop
    cases hop
  | acquire | store | leave | free | pin | unpin => cases hop

omit [DecidableEq ι] [Fintype ι] in
/-- Of one operation at most one thing is told. -/
theorem told_eq_singleton {c : BlockCache Key β ι} {disk' : Key → β}
    {op : BlockCache.Op Key β ι} {e : Event β ι} {es₁ es₂ : List (Event β ι)}
    (h : es₁ ++ e :: es₂ = told c disk' op) : es₁ = [] ∧ told c disk' op = [e] := by
  have hlen : (told c disk' op).length ≤ 1 := by
    cases op with
    | hold | store => exact Nat.le_refl 1
    | _ => exact Nat.zero_le 1
  rw [← h, List.length_append, List.length_cons] at hlen
  obtain rfl := List.eq_nil_of_length_eq_zero (l := es₁) (by omega)
  obtain rfl := List.eq_nil_of_length_eq_zero (l := es₂) (by omega)
  exact ⟨rfl, h.symm⟩

omit [DecidableEq ι] [Fintype ι] in
theorem found_of_told {c : BlockCache Key β ι} {disk' : Key → β} {op : BlockCache.Op Key β ι}
    (htold : es'.filter Event.seen = told c disk' op) (hread : c.read disk' = contents disk es) :
    Recorded (fun es₁ e => Found disk (es ++ es₁) e) es' := by
  rintro es₁ e es₂ rfl
  cases e with
  | got t key v =>
    rw [List.filter_append, List.filter_cons_of_pos rfl] at htold
    obtain ⟨hnil, hgot⟩ := told_eq_singleton htold
    have hv : v = c.read disk' key := by
      cases op with
      | hold u key' =>
        obtain ⟨-, rfl, rfl⟩ := Event.got.inj (List.head_eq_of_cons_eq hgot)
        rfl
      | store => cases List.head_eq_of_cons_eq hgot
      | _ => cases hgot
    show v = contents disk (es ++ es₁) key
    rw [contents_append, ← contents_filter _ es₁, hnil, hv, hread]
    rfl
  | _ => trivial

/-- What holds in every run that obeys the discipline. -/
structure Holds (disk : Key → β) (es : List (Event β ι)) (s : State β ι) : Prop where
  sound : Sound s
  keeps : (abs s).Keeps s.disk
  read : (abs s).read s.disk = contents disk es
  found : Recorded (Found disk) es

theorem holds_init : Holds disk [] (machine ι disk junk).init := by
  have hnone : ∀ key, abs (machine ι disk junk).init key = none :=
    fun key => abs_eq_none fun i hi => Bool.false_ne_true hi.2
  have hread : (abs (machine ι disk junk).init).read disk = disk := by
    funext key
    rw [BlockCache.read, hnone]
  exact ⟨sound_init, fun key _ _ => congrFun hread key, hread, recorded_nil⟩

theorem Holds.move (h : Holds disk es s) (hdis : Disciplined es s a) (hmove : Move s a s' es') :
    Holds disk (es ++ es') s' := by
  have habs := move_abs h.sound hmove
  have htold := told_of_move h.sound hmove
  refine ⟨sound_move h.sound hmove,
    habs.keeps h.keeps fun _ _ hop => kept_of_release h.sound hmove hdis hop, ?_,
    recorded_append_iff.mpr ⟨h.found, found_of_told htold h.read⟩⟩
  rw [habs.read h.keeps, h.read, contents_append, ← contents_filter _ es', htold, contents_told]

/-- **Nothing is lost in the cache**: if nobody gives a buffer up that is neither pinned nor
written, then `bread` finds what has been stored last in its block, whoever it was that has stored
it, and whatever buffers have been recycled since. -/
theorem bread_of_run (hdis : (machine ι disk junk).Meets Disciplined as)
    (hrun : (machine ι disk junk).run as = some (s, es)) : Recorded (Found disk) es :=
  (Machine.run_invariant_of_meets holds_init
    (fun _ _ _ _ _ h ha hstep => Holds.move h ha (move_of_step hstep)) hdis hrun).found

/-- One process writes a block, another one reads it. -/
def writeAndRead : List (Act ℕ (Fin 2)) :=
  [.bread 0 (1, 7), .acquire 0, .finish 0, .store 0 0 5, .bread 1 (1, 7), .bwrite 0 0, .brelse 0 0,
    .acquire 1, .release 0, .finish 1]

theorem bread_of_run_writeAndRead : ∃ s es,
    (machine (Fin 2) (fun _ => 4) 0).run writeAndRead = some (s, es) ∧
      es = [.recycled 0, .got 0 (1, 7) 4, .stored 0 (1, 7) 5, .got 1 (1, 7) 5] ∧
      Recorded (Found fun _ => 4) es := by
  have hdis : (machine (Fin 2) (fun _ => 4) 0).Meets Disciplined writeAndRead := by decide
  have hrun : (machine (Fin 2) (fun _ => 4) 0).run writeAndRead = some (_, _) := rfl
  exact ⟨_, _, hrun, rfl, bread_of_run hdis hrun⟩

end Run

end Bio

end Xv6

end SystemProgramming
