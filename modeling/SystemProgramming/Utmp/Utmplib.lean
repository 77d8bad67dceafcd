import SystemProgramming.Library.Machine
import Mathlib.Algebra.Order.Ring.Int
import Mathlib.Data.List.Infix

/-!
# `utmplib`: reading login records in batches

`lab1-lyjae/utmplib.c` reads a file of `struct utmp` records `NRECS` at a time. Its state is four
static variables: the buffer, the number of records in it, the index of the next one, and the
descriptor. Opening, reading and closing are system calls, so their results are choices of the
environment: an action carries them. A descriptor that was closed may fail in `read`, or may have
become the descriptor of another file of the process, and then `read` delivers whatever that file
holds.

A pointer that `utmp_next` returns is an offset into `utmpbuf`.

## The environment

A `read` delivers any bytes that fit in the buffer, or fails; nothing is assumed about a file here,
so that the file may grow or shrink while it is read. `Records` adds what holds for a regular file
that is left alone. `NRECS*UTSIZE` bytes are stored at most, and `amt_read/UTSIZE` is computed as
the machine does, with the division of `size_t` and the conversion back to `int`: this is where -1
becomes a large number of records.

The error messages and the exit of a caller have no part in the library.

## Main definitions

* `State`, `utmpOpen`, `utmpNext`, `utmpReload`, `utmpClose` — the library
* `machine` — any sequence of calls
* `session`, `Lifecycle` — what a caller may rely on
* `Buffered` — the invariant while a file is open

## Main results

* `lifecycle_of_meets` — when a caller can rely on it
* `closed_file_yields_record` — when it cannot
-/

namespace SystemProgramming

namespace Utmplib

def nrecs : ℕ := 16

def utSize : ℕ := 384

/-- What `read(fd_utmp, utmpbuf, NRECS*UTSIZE)` does. -/
inductive ReadResult
  /-- It stores these bytes, none at the end of the file. -/
  | data (bytes : List UInt8) (length_le : bytes.length ≤ nrecs * utSize)
  /-- It fails. -/
  | failed

/-- The value `read` returns. -/
def ReadResult.amtRead : ReadResult → ℤ
  | .data bytes _ => bytes.length
  | .failed => -1

/-- The bytes it stores. -/
def ReadResult.bytes : ReadResult → List UInt8
  | .data bytes _ => bytes
  | .failed => []

theorem ReadResult.length_bytes_le : ∀ r : ReadResult, r.bytes.length ≤ nrecs * utSize
  | .data _ h => h
  | .failed => Nat.zero_le _

/-- The static variables. -/
structure State where
  utmpbuf : List UInt8
  length_utmpbuf : utmpbuf.length = nrecs * utSize
  numRecs : ℤ
  curRec : ℤ
  fdUtmp : ℤ

/-- Before the first call. -/
def State.init : State where
  utmpbuf := List.replicate (nrecs * utSize) 0
  length_utmpbuf := List.length_replicate
  numRecs := 0
  curRec := 0
  fdUtmp := -1

/-- The bytes go to the start of the buffer, the rest of it stays as it is. -/
def State.fill (s : State) (r : ReadResult) : State where
  utmpbuf := r.bytes ++ s.utmpbuf.drop r.bytes.length
  length_utmpbuf := by
    have hle := r.length_bytes_le
    rw [List.length_append, List.length_drop, s.length_utmpbuf]
    omega
  numRecs := s.numRecs
  curRec := s.curRec
  fdUtmp := s.fdUtmp

/-- `utmp_open`; `fd` is the descriptor `open` returns, none when it fails. -/
def utmpOpen (s : State) (fd : Option ℕ) : State :=
  { s with
    fdUtmp := fd.elim (-1) Int.ofNat
    curRec := 0
    numRecs := 0 }

/-- `amt_read/UTSIZE` as an `int`: the division is one of `size_t`. -/
def recordsIn (amtRead : ℤ) : ℤ :=
  ((BitVec.ofInt 64 amtRead / BitVec.ofNat 64 utSize).setWidth 32).toInt

def utmpReload (s : State) (r : ReadResult) : State × ℤ :=
  let numRecs := recordsIn r.amtRead
  ({ s.fill r with numRecs := numRecs, curRec := 0 }, numRecs)

/-- The last three lines of `utmp_next`: the record at `cur_rec`, as an offset into `utmpbuf`. -/
def nextRecord (s : State) : State × Option ℕ :=
  ({ s with curRec := s.curRec + 1 }, some (s.curRec * utSize).toNat)

/-- `utmp_next`; `r` is what `read` does if it is called. -/
def utmpNext (s : State) (r : ReadResult) : State × Option ℕ :=
  if s.fdUtmp = -1 then (s, none)
  else if s.curRec = s.numRecs then
    let (s', n) := utmpReload s r
    if n = 0 then (s', none) else nextRecord s'
  else nextRecord s

/-- `utmp_close`: of the variables, it changes none. -/
def utmpClose (s : State) : State := s

/-- The `UTSIZE` bytes of the buffer at a pointer, fewer where it ends. -/
def State.recordAt (s : State) (offset : ℕ) : List UInt8 := (s.utmpbuf.drop offset).take utSize

/-- `utmp_next` calls `read`. -/
def State.Reads (s : State) : Prop := s.fdUtmp ≠ -1 ∧ s.curRec = s.numRecs

instance (s : State) : Decidable s.Reads := inferInstanceAs (Decidable (_ ∧ _))

/-! ### Sequences of calls -/

/-- A call, with the results of its system calls. -/
inductive Act
  | utmpOpen (fd : Option ℕ)
  | utmpNext (r : ReadResult)
  | utmpClose

/-- What a sequence of calls is judged by. -/
inductive Event
  /-- A file was opened. -/
  | opened
  /-- `open` failed. -/
  | openFailed
  /-- `read` delivered bytes. -/
  | read (bytes : List UInt8)
  /-- `read` failed. -/
  | readFailed
  /-- `utmp_next` returned a pointer to these bytes. -/
  | record (offset : ℕ) (bytes : List UInt8)
  /-- `utmp_next` returned `NULL`. -/
  | null
  /-- `utmp_close` was called. -/
  | closed
  deriving DecidableEq, Repr

/-- `read` returned. -/
def ReadResult.event : ReadResult → Event
  | .data bytes _ => .read bytes
  | .failed => .readFailed

/-- `utmp_next` returned. -/
def State.returned (s : State) : Option ℕ → Event
  | none => .null
  | some offset => .record offset (s.recordAt offset)

/-- One call. -/
def step (s : State) : Act → Option (State × List Event)
  | .utmpOpen fd => some (utmpOpen s fd, [if fd.isSome then .opened else .openFailed])
  | .utmpNext r =>
    let (s', recp) := utmpNext s r
    some (s', (if s.Reads then [r.event] else []) ++ [s'.returned recp])
  | .utmpClose => some (utmpClose s, [.closed])

theorem eq_of_step_utmpNext {s s' : State} {r : ReadResult} {es : List Event}
    (h : step s (.utmpNext r) = some (s', es)) :
    s' = (utmpNext s r).1 ∧
      es = (if s.Reads then [r.event] else []) ++
        [(utmpNext s r).1.returned (utmpNext s r).2] := by
  obtain ⟨hs, hes⟩ := Prod.mk.inj (Option.some.inj h)
  exact ⟨hs.symm, hes.symm⟩

/-- The library, from its initial state. -/
def machine : Machine State Act Event where
  init := .init
  step := step

/-! ### What a caller may rely on -/

/-- How an event changes what the open file has delivered. -/
def delivers (d : Option (List UInt8)) : Event → Option (List UInt8)
  | .opened => some []
  | .openFailed => none
  | .closed => none
  | .read bytes => d.map (· ++ bytes)
  | _ => d

/-- The bytes the open file has delivered since it was opened; nothing while no file is open. -/
def session (es : List Event) : Option (List UInt8) := es.foldl delivers none

/-- A record may be returned while a file is open only, and has to be one of that file. -/
def Justified (d : Option (List UInt8)) : Event → Prop
  | .record _ bytes => ∃ delivered, d = some delivered ∧ bytes.length = utSize ∧
      bytes <:+: delivered
  | _ => True

/-- Every result of `utmp_next` is justified by the calls before it. -/
def Lifecycle (es : List Event) : Prop := Recorded (fun es e => Justified (session es) e) es

/-- What a call has to meet. Without an open file: the descriptor is not that of a file that was
closed, or the buffer is used up and less than a record is read. With one: `read` does not fail. -/
def Careful (es : List Event) (s : State) : Act → Prop
  | .utmpNext r =>
    match session es with
    | none => s.fdUtmp = -1 ∨ s.curRec = s.numRecs ∧ 0 ≤ r.amtRead ∧ r.amtRead < utSize
    | some _ => s.Reads → 0 ≤ r.amtRead
  | _ => True

/-! ### The invariant while a file is open -/

/-- The records between the cursor and the count are in the buffer, read from the open file. -/
structure Buffered (s : State) (delivered : List UInt8) : Prop where
  curRec_nonneg : 0 ≤ s.curRec
  curRec_le : s.curRec ≤ s.numRecs
  numRecs_le : s.numRecs ≤ nrecs
  stored : s.utmpbuf.take (s.numRecs * utSize).toNat <:+: delivered

theorem recordsIn_of_le {n : ℕ} (h : n ≤ nrecs * utSize) : recordsIn n = (n / utSize : ℕ) := by
  have hle : n ≤ 6144 := h
  have hdiv : n / utSize ≤ 16 := Nat.div_le_of_le_mul h
  have hquot : (BitVec.ofInt 64 (n : ℤ) / BitVec.ofNat 64 utSize).toNat = n / utSize := by
    rw [BitVec.ofInt_natCast, BitVec.toNat_udiv, BitVec.toNat_ofNat, BitVec.toNat_ofNat,
      Nat.mod_eq_of_lt (by omega)]
    rfl
  rw [recordsIn, BitVec.toInt_eq_toNat_of_lt]
  · rw [BitVec.toNat_setWidth, hquot, Nat.mod_eq_of_lt (by omega)]
  · rw [BitVec.toNat_setWidth, hquot, Nat.mod_eq_of_lt (by omega)]
    omega

/-- What `num_recs` becomes when `read` fails. -/
theorem recordsIn_failed : recordsIn ReadResult.failed.amtRead = -1431655766 := by decide

theorem utmpOpen_buffered (s : State) (fd : Option ℕ) : Buffered (utmpOpen s fd) [] where
  curRec_nonneg := Int.le_refl 0
  curRec_le := Int.le_refl 0
  numRecs_le := Int.natCast_nonneg nrecs
  stored := by simp [utmpOpen]

/-- `read` fails or stores as many bytes as it returns. -/
theorem ReadResult.amtRead_eq : ∀ {r : ReadResult}, 0 ≤ r.amtRead →
    r.amtRead = r.bytes.length ∧ r.event = .read r.bytes
  | .data _ _, _ => ⟨rfl, rfl⟩

/-- What `num_recs` becomes when `read` does not fail. -/
theorem recordsIn_amtRead {r : ReadResult} (h : 0 ≤ r.amtRead) :
    recordsIn r.amtRead = (r.bytes.length / utSize : ℕ) := by
  rw [(r.amtRead_eq h).1, recordsIn_of_le r.length_bytes_le]

theorem utmpReload_buffered (s : State) {r : ReadResult} (h : 0 ≤ r.amtRead)
    (delivered : List UInt8) : Buffered (utmpReload s r).1 (delivered ++ r.bytes) := by
  have hrecs := recordsIn_amtRead h
  have hle : r.bytes.length / utSize ≤ nrecs :=
    Nat.div_le_of_le_mul (r.length_bytes_le.trans (Nat.mul_comm _ _).le)
  refine ⟨Int.le_refl 0, ?_, ?_, ?_⟩ <;> simp only [utmpReload, hrecs]
  · exact Int.natCast_nonneg _
  · exact Int.ofNat_le.mpr hle
  · have htake : r.bytes.length / utSize * utSize ≤ r.bytes.length := Nat.div_mul_le_self _ _
    rw [← Int.natCast_mul, Int.toNat_natCast]
    show (r.bytes ++ s.utmpbuf.drop r.bytes.length).take _ <:+: _
    rw [List.take_append_of_le_length htake]
    exact (List.take_prefix _ _).isInfix.trans (List.suffix_append _ _).isInfix

/-- `utmp_reload` returns 0 exactly when less than a record is read. -/
theorem utmpReload_eq_zero_iff {s : State} {r : ReadResult} :
    (utmpReload s r).2 = 0 ↔ 0 ≤ r.amtRead ∧ r.amtRead < utSize := by
  have hpos : 0 < utSize := by decide
  show recordsIn r.amtRead = 0 ↔ _
  by_cases hread : 0 ≤ r.amtRead
  · rw [recordsIn_amtRead hread, Int.natCast_eq_zero, Nat.div_eq_zero_iff_lt hpos,
      (r.amtRead_eq hread).1, Int.ofNat_lt]
    exact (and_iff_right (Int.natCast_nonneg _)).symm
  · cases r with
    | data bytes h => exact absurd (Int.natCast_nonneg _) hread
    | failed =>
      rw [recordsIn_failed]
      exact iff_of_false (by decide) fun h => hread h.1

theorem utmpNext_of_reads {s : State} (h : s.Reads) (r : ReadResult) :
    utmpNext s r = if (utmpReload s r).2 = 0 then ((utmpReload s r).1, none)
      else nextRecord (utmpReload s r).1 := by
  rw [utmpNext, if_neg h.1, if_pos h.2]

/-- A pointer below the count is one to a record of the buffer. -/
theorem recordAt_of_buffered {s : State} {delivered : List UInt8} (hbuf : Buffered s delivered)
    (hlt : s.curRec < s.numRecs) :
    (s.recordAt (s.curRec * utSize).toNat).length = utSize ∧
      s.recordAt (s.curRec * utSize).toNat <:+: delivered := by
  obtain ⟨hnonneg, -, hle, hstored⟩ := hbuf
  obtain ⟨i, hi⟩ := Int.eq_ofNat_of_zero_le hnonneg
  obtain ⟨n, hn⟩ := Int.eq_ofNat_of_zero_le (hnonneg.trans hlt.le)
  rw [hi, hn] at hlt
  rw [hn] at hle hstored
  have hin : i * utSize + utSize ≤ n * utSize := by
    rw [← Nat.succ_mul]
    exact Nat.mul_le_mul_right _ (Int.ofNat_lt.mp hlt)
  have hlen : n * utSize ≤ s.utmpbuf.length := by
    rw [s.length_utmpbuf]
    exact Nat.mul_le_mul_right _ (Int.ofNat_le.mp hle)
  rw [← Int.natCast_mul, Int.toNat_natCast] at hstored
  rw [hi, ← Int.natCast_mul, Int.toNat_natCast, State.recordAt]
  constructor
  · rw [List.length_take, List.length_drop]
    omega
  · have htake : (s.utmpbuf.drop (i * utSize)).take utSize =
        ((s.utmpbuf.take (n * utSize)).drop (i * utSize)).take utSize := by
      rw [List.drop_take, List.take_take, min_eq_left (by omega)]
    rw [htake]
    exact ((List.take_prefix _ _).isInfix.trans (List.drop_suffix _ _).isInfix).trans hstored

theorem nextRecord_of_buffered {s : State} {delivered : List UInt8} (hbuf : Buffered s delivered)
    (hlt : s.curRec < s.numRecs) :
    Buffered (nextRecord s).1 delivered ∧
      Justified (some delivered) ((nextRecord s).1.returned (nextRecord s).2) := by
  obtain ⟨hlen, hin⟩ := recordAt_of_buffered hbuf hlt
  obtain ⟨hnonneg, -, hle, hstored⟩ := hbuf
  refine ⟨⟨?_, ?_, hle, hstored⟩, delivered, rfl, hlen, hin⟩
  · show 0 ≤ s.curRec + 1
    omega
  · show s.curRec + 1 ≤ s.numRecs
    omega

/-- One call of `utmp_next` while a file is open. -/
theorem utmpNext_of_buffered {s : State} {delivered : List UInt8} {r : ReadResult}
    (hbuf : Buffered s delivered) (hr : s.Reads → 0 ≤ r.amtRead) :
    ∃ d', (if s.Reads then [r.event] else []).foldl delivers (some delivered) = some d' ∧
      Buffered (utmpNext s r).1 d' ∧
      Justified (some d') ((utmpNext s r).1.returned (utmpNext s r).2) := by
  by_cases hfd : s.fdUtmp = -1
  · refine ⟨delivered, ?_, ?_⟩
    · rw [if_neg fun hreads => hreads.1 hfd]
      rfl
    · rw [utmpNext, if_pos hfd]
      exact ⟨hbuf, trivial⟩
  by_cases hcur : s.curRec = s.numRecs
  · have hread := hr ⟨hfd, hcur⟩
    have hfill := utmpReload_buffered s hread delivered
    refine ⟨delivered ++ r.bytes, ?_, ?_⟩
    · rw [if_pos ⟨hfd, hcur⟩, (r.amtRead_eq hread).2]
      rfl
    rw [utmpNext_of_reads ⟨hfd, hcur⟩]
    by_cases hzero : (utmpReload s r).2 = 0
    · rw [if_pos hzero]
      exact ⟨hfill, trivial⟩
    · rw [if_neg hzero]
      exact nextRecord_of_buffered hfill (lt_of_le_of_ne hfill.curRec_le (Ne.symm hzero))
  · refine ⟨delivered, ?_, ?_⟩
    · rw [if_neg fun hreads => hcur hreads.2]
      rfl
    · rw [utmpNext, if_neg hfd, if_neg hcur]
      exact nextRecord_of_buffered hbuf (lt_of_le_of_ne hbuf.curRec_le hcur)

/-- When `utmp_next` returns `NULL`. -/
theorem utmpNext_eq_null_iff {s : State} {r : ReadResult} :
    (utmpNext s r).2 = none ↔
      s.fdUtmp = -1 ∨ s.curRec = s.numRecs ∧ 0 ≤ r.amtRead ∧ r.amtRead < utSize := by
  by_cases hfd : s.fdUtmp = -1
  · rw [utmpNext, if_pos hfd]
    exact iff_of_true rfl (Or.inl hfd)
  by_cases hcur : s.curRec = s.numRecs
  · rw [utmpNext_of_reads ⟨hfd, hcur⟩]
    by_cases hzero : (utmpReload s r).2 = 0
    · rw [if_pos hzero]
      exact iff_of_true rfl (Or.inr ⟨hcur, utmpReload_eq_zero_iff.mp hzero⟩)
    · rw [if_neg hzero]
      exact iff_of_false (nomatch ·) fun h =>
        hzero (utmpReload_eq_zero_iff.mpr (h.resolve_left hfd).2)
  · rw [utmpNext, if_neg hfd, if_neg hcur]
    exact iff_of_false (nomatch ·) fun h => hcur (h.resolve_left hfd).1

/-! ### Runs -/

@[simp] theorem session_append (es es' : List Event) :
    session (es ++ es') = es'.foldl delivers (session es) := List.foldl_append

theorem lifecycle_reads {es : List Event} {s : State} {r : ReadResult} (h : Lifecycle es) :
    Lifecycle (es ++ if s.Reads then [r.event] else []) := by
  by_cases hreads : s.Reads
  · rw [if_pos hreads]
    refine h.concat ?_
    cases r <;> trivial
  · rwa [if_neg hreads, List.append_nil]

/-- Without an open file nothing is delivered. -/
theorem delivers_reads_none {s : State} {r : ReadResult} :
    (if s.Reads then [r.event] else []).foldl delivers none = none := by
  by_cases hreads : s.Reads
  · rw [if_pos hreads]
    cases r <;> rfl
  · rw [if_neg hreads]
    rfl

/-- **What callers may rely on.** In every sequence of calls each of which is careful, no record is
returned while no file is open, and a record that is returned was read from the open file. -/
theorem lifecycle_of_meets {as : List Act} {s : State} {es : List Event}
    (hcare : machine.Meets Careful as) (h : machine.run as = some (s, es)) : Lifecycle es := by
  refine (Machine.run_invariant_of_meets
    (I := fun es s => Lifecycle es ∧ ∀ d, session es = some d → Buffered s d)
    ⟨recorded_nil, fun d hd => nomatch hd⟩ ?_ hcare h).1
  rintro es s a s' es' ⟨hlife, hbuf⟩ hcare hstep
  cases a with
  | utmpOpen fd =>
    obtain ⟨rfl, rfl⟩ := Prod.mk.inj (Option.some.inj hstep)
    refine ⟨hlife.concat (by cases fd <;> trivial), fun d hd => ?_⟩
    cases fd with
    | none => cases hd.symm.trans (session_append es _)
    | some fd =>
      obtain rfl : d = [] := Option.some.inj (hd.symm.trans (session_append es _))
      exact utmpOpen_buffered s _
  | utmpClose =>
    obtain ⟨rfl, rfl⟩ := Prod.mk.inj (Option.some.inj hstep)
    exact ⟨hlife.concat trivial, fun d hd => by cases hd.symm.trans (session_append es _)⟩
  | utmpNext r =>
    obtain ⟨rfl, rfl⟩ := eq_of_step_utmpNext hstep
    rw [← List.append_assoc]
    simp only [Careful] at hcare
    cases hses : session es with
    | none =>
      rw [hses] at hcare
      rw [utmpNext_eq_null_iff.mpr hcare]
      refine ⟨(lifecycle_reads hlife).concat trivial, fun d hd => ?_⟩
      rw [session_append, session_append, hses, delivers_reads_none] at hd
      cases hd
    | some delivered =>
      rw [hses] at hcare
      obtain ⟨d', hd', hbuf', hjust⟩ := utmpNext_of_buffered (hbuf _ hses) hcare
      have hafter : session (es ++ if s.Reads then [r.event] else []) = some d' := by
        rw [session_append, hses, hd']
      refine ⟨(lifecycle_reads hlife).concat (hafter ▸ hjust), fun d hd => ?_⟩
      rw [session_append, hafter] at hd
      cases hrecp : (utmpNext s r).2 <;> rw [hrecp] at hd <;>
        exact Option.some.inj hd ▸ hbuf'

/-- Behind `utmp_open`, a call is careful when `read` does not fail. -/
theorem careful_opened {es : List Event} {s : State} {r : ReadResult} (h : 0 ≤ r.amtRead) :
    Careful (es ++ [.opened]) s (.utmpNext r) := by
  have hsession : session (es ++ [.opened]) = some [] := session_append es _
  simp only [Careful, hsession]
  exact fun _ => h

/-- `read` delivers one record, and the beginning of another. -/
def oneRecord : ReadResult :=
  .data (List.replicate 400 7) (by rw [List.length_replicate]; decide)

/-- A file is opened, a record of it is returned, and it is closed; then another one is opened,
which is empty. -/
def twoFiles : List Act :=
  [.utmpOpen (some 3), .utmpNext oneRecord, .utmpClose, .utmpOpen (some 4),
    .utmpNext (.data [] (Nat.zero_le _))]

theorem twoFiles_lifecycle : ∃ s es, machine.run twoFiles = some (s, es) ∧
    es = [.opened, .read (List.replicate 400 7), .record 0 (List.replicate 384 7), .closed,
      .opened, .read [], .null] ∧ Lifecycle es := by
  have hrun : (machine.run twoFiles).map Prod.snd =
      some [.opened, .read (List.replicate 400 7), .record 0 (List.replicate 384 7), .closed,
        .opened, .read [], .null] := by decide +kernel
  obtain ⟨⟨s, es⟩, hs, rfl⟩ := Option.map_eq_some_iff.mp hrun
  have hmeets : machine.Meets Careful twoFiles :=
    Machine.meetsFrom_cons trivial rfl <|
      Machine.meetsFrom_cons (careful_opened (Int.natCast_nonneg _)) rfl <|
      Machine.meetsFrom_cons trivial rfl <|
      Machine.meetsFrom_cons trivial rfl <|
      Machine.meetsFrom_cons (careful_opened (Int.natCast_nonneg _)) rfl trivial
  exact ⟨s, _, hs, rfl, lifecycle_of_meets hmeets hs⟩

/-- A file is opened and closed; the next call returns a record. -/
theorem closed_file_yields_record :
    ¬ ∀ as s es, machine.run as = some (s, es) → Lifecycle es := by
  intro hall
  have hlife := hall [.utmpOpen (some 3), .utmpClose, .utmpNext .failed] _ _ rfl
  obtain ⟨d, hd, -⟩ := hlife [.opened, .closed, .readFailed] _ [] rfl
  cases hd

end Utmplib

end SystemProgramming
