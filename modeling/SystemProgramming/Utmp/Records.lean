import SystemProgramming.Utmp.Utmplib
import Mathlib.Logic.Function.Iterate

/-!
# What `utmp_next` returns

The records that `utmp_next` designates lie between the cursor and the count, and the count is what
the last `read` delivered, divided by the size of a record. As long as `read` does not fail, every
pointer therefore designates bytes which that read has stored. When it fails, the division is
one of `size_t`, the count becomes negative, and `utmp_next` returns the first record of a buffer
that nothing was read into.

For a regular file `read` delivers what remains, up to a full buffer. Then the calls of `utmp_next`
walk through the file record by record, whatever the batches are.

## How it goes

`Loaded` is `Buffered` without the file: it speaks of the last `read` instead of all that was read
since `utmp_open`. A step that does not read keeps it because the buffer is left alone, and one that
reads establishes it anew, whatever held before. So the only way to lose it is a `read` that fails,
and both directions of `fromLastRead_iff_meets` are about the first such call.

## Main definitions

* `stored`, `FromLastRead` — what a pointer may designate
* `Loaded` — the invariant of the buffer
* `OpenFile`, `OpenFile.next`, `OpenFile.result` — the calls of `utmp_next` on a regular file
* `OpenFile.pending` — the complete records that are still to be returned

## Main results

* `fromLastRead_iff_meets` — a pointer designates what was read exactly when no `read` fails
* `result_eq` — a regular file is returned record by record, each once
-/

namespace SystemProgramming

namespace Utmplib

/-! ### The bytes a pointer designates -/

/-- How an event changes the bytes that the most recent `read` has stored. -/
def stores (bs : List UInt8) : Event → List UInt8
  | .read bytes => bytes
  | .readFailed => []
  | _ => bs

/-- The bytes that the most recent `read` has stored. -/
def stored (es : List Event) : List UInt8 := es.foldl stores []

/-- A pointer designates a whole record of these bytes; after a `read` that failed none is
returned. -/
def FromLastRead (es : List Event) : Event → Prop
  | .record offset bytes =>
    es.getLast? ≠ some .readFailed ∧ offset + utSize ≤ (stored es).length ∧
      bytes = ((stored es).drop offset).take utSize
  | _ => True

/-- What a call has to meet: if it reads, `read` does not fail. -/
def ReadSucceeds (_ : List Event) (s : State) : Act → Prop
  | .utmpNext r => s.Reads → 0 ≤ r.amtRead
  | _ => True

@[simp] theorem stored_append (es es' : List Event) :
    stored (es ++ es') = es'.foldl stores (stored es) := List.foldl_append

/-- The buffer begins with the records below the count, and these were stored by the last
`read`. -/
structure Loaded (s : State) (bs : List UInt8) : Prop where
  curRec_nonneg : 0 ≤ s.curRec
  curRec_le : s.curRec ≤ s.numRecs
  numRecs_le : s.numRecs ≤ nrecs
  isPrefix : s.utmpbuf.take (s.numRecs * utSize).toNat <+: bs

theorem utmpOpen_loaded (s : State) (fd : Option ℕ) (bs : List UInt8) :
    Loaded (utmpOpen s fd) bs where
  curRec_nonneg := Int.le_refl 0
  curRec_le := Int.le_refl 0
  numRecs_le := Int.natCast_nonneg nrecs
  isPrefix := List.nil_prefix

/-- The records that a `read` has stored. -/
theorem take_utmpReload (s : State) {r : ReadResult} (h : 0 ≤ r.amtRead) :
    (utmpReload s r).1.utmpbuf.take ((utmpReload s r).1.numRecs * utSize).toNat =
      r.bytes.take (r.bytes.length / utSize * utSize) := by
  have hle : r.bytes.length / utSize * utSize ≤ r.bytes.length := Nat.div_mul_le_self _ _
  simp only [utmpReload, recordsIn_amtRead h]
  rw [← Int.natCast_mul, Int.toNat_natCast]
  exact List.take_append_of_le_length hle

theorem utmpReload_loaded (s : State) {r : ReadResult} (h : 0 ≤ r.amtRead) :
    Loaded (utmpReload s r).1 r.bytes := by
  have hbuf := utmpReload_buffered s h []
  refine ⟨hbuf.curRec_nonneg, hbuf.curRec_le, hbuf.numRecs_le, ?_⟩
  rw [take_utmpReload s h]
  exact List.take_prefix _ _

/-- The cursor is at a whole record. -/
theorem Loaded.length_recordAt {s : State} {bs : List UInt8} (hload : Loaded s bs)
    (hlt : s.curRec < s.numRecs) :
    (s.curRec * utSize).toNat + utSize ≤ bs.length ∧
      s.recordAt (s.curRec * utSize).toNat =
        (bs.drop (s.curRec * utSize).toNat).take utSize := by
  obtain ⟨hnonneg, -, hle, hprefix⟩ := hload
  obtain ⟨i, hi⟩ := Int.eq_ofNat_of_zero_le hnonneg
  obtain ⟨n, hn⟩ := Int.eq_ofNat_of_zero_le (hnonneg.trans hlt.le)
  rw [hi, hn] at hlt
  rw [hn] at hle hprefix
  rw [← Int.natCast_mul, Int.toNat_natCast] at hprefix
  rw [hi, ← Int.natCast_mul, Int.toNat_natCast, State.recordAt]
  have hin : i * utSize + utSize ≤ n * utSize := by
    rw [← Nat.succ_mul]
    exact Nat.mul_le_mul_right _ (Int.ofNat_lt.mp hlt)
  have hlen : (s.utmpbuf.take (n * utSize)).length = n * utSize := by
    rw [List.length_take, s.length_utmpbuf]
    exact min_eq_left (Nat.mul_le_mul_right _ (Int.ofNat_le.mp hle))
  obtain ⟨rest, rfl⟩ := hprefix
  constructor
  · rw [List.length_append, hlen]
    omega
  · rw [List.drop_append_of_le_length (by omega),
      List.take_append_of_le_length (by rw [List.length_drop]; omega), List.drop_take,
      List.take_take, min_eq_left (by omega)]

theorem Loaded.nextRecord {s : State} {bs : List UInt8} (hload : Loaded s bs)
    (hlt : s.curRec < s.numRecs) : Loaded (nextRecord s).1 bs where
  curRec_nonneg := Int.add_nonneg hload.curRec_nonneg Int.one_nonneg
  curRec_le := hlt
  numRecs_le := hload.numRecs_le
  isPrefix := hload.isPrefix

/-- Below the count no `read` is called. -/
theorem utmpNext_of_lt {s : State} (hfd : s.fdUtmp ≠ -1) (hlt : s.curRec < s.numRecs)
    (r : ReadResult) : utmpNext s r = nextRecord s := by
  rw [utmpNext, if_neg hfd, if_neg hlt.ne]

/-- A `read` that fails is followed by a record. -/
theorem utmpNext_of_failed {s : State} (h : s.Reads) :
    utmpNext s .failed = nextRecord (utmpReload s .failed).1 := by
  have hne : ¬ (utmpReload s .failed).2 = 0 := fun hzero =>
    absurd (utmpReload_eq_zero_iff.mp hzero).1 (by decide)
  rw [utmpNext_of_reads h, if_neg hne]

/-- One call of `utmp_next` whose `read`, if it is called, does not fail. -/
theorem utmpNext_of_loaded {s : State} {es : List Event} {r : ReadResult}
    (hload : Loaded s (stored es)) (hlast : es.getLast? ≠ some .readFailed)
    (hr : s.Reads → 0 ≤ r.amtRead) :
    let es' := es ++ if s.Reads then [r.event] else []
    Loaded (utmpNext s r).1 (stored es') ∧
      FromLastRead es' ((utmpNext s r).1.returned (utmpNext s r).2) := by
  intro es'
  have hnext : ∀ {s' : State}, Loaded s' (stored es') → es'.getLast? ≠ some .readFailed →
      s'.curRec < s'.numRecs →
      Loaded (nextRecord s').1 (stored es') ∧
        FromLastRead es' ((nextRecord s').1.returned (nextRecord s').2) :=
    fun hload' hlast' hlt => ⟨hload'.nextRecord hlt, hlast', hload'.length_recordAt hlt⟩
  by_cases hfd : s.fdUtmp = -1
  · have hes : es' = es := by
      rw [show es' = es ++ _ from rfl, if_neg fun hreads => hreads.1 hfd, List.append_nil]
    rw [utmpNext, if_pos hfd, hes]
    exact ⟨hload, trivial⟩
  by_cases hcur : s.curRec = s.numRecs
  · have hread := hr ⟨hfd, hcur⟩
    have hes : es' = es ++ [.read r.bytes] := by
      rw [← (r.amtRead_eq hread).2]
      exact congrArg (es ++ ·) (if_pos ⟨hfd, hcur⟩)
    have hfill : Loaded (utmpReload s r).1 (stored es') := by
      rw [hes, stored_append]
      exact utmpReload_loaded s hread
    rw [utmpNext_of_reads ⟨hfd, hcur⟩]
    by_cases hzero : (utmpReload s r).2 = 0
    · rw [if_pos hzero]
      exact ⟨hfill, trivial⟩
    · rw [if_neg hzero]
      refine hnext hfill ?_ (lt_of_le_of_ne hfill.curRec_le (Ne.symm hzero))
      rw [hes, List.getLast?_concat]
      simp
  · have hes : es' = es := by
      rw [show es' = es ++ _ from rfl, if_neg fun hreads => hcur hreads.2, List.append_nil]
    have hlt := lt_of_le_of_ne hload.curRec_le hcur
    rw [utmpNext_of_lt hfd hlt]
    exact hnext (hes ▸ hload) (hes ▸ hlast) hlt

/-- The invariant of a run in which no `read` has failed. -/
def Intact (es : List Event) (s : State) : Prop :=
  Loaded s (stored es) ∧ es.getLast? ≠ some .readFailed

theorem Intact.step {es : List Event} {s : State} {a : Act} {s' : State} {es' : List Event}
    (h : Intact es s) (hread : ReadSucceeds es s a) (hstep : step s a = some (s', es')) :
    Intact (es ++ es') s' := by
  obtain ⟨hload, hlast⟩ := h
  cases a with
  | utmpOpen fd =>
    obtain ⟨rfl, rfl⟩ := Prod.mk.inj (Option.some.inj hstep)
    refine ⟨utmpOpen_loaded s fd _, ?_⟩
    rw [List.getLast?_concat]
    cases fd <;> exact fun h => nomatch h
  | utmpClose =>
    obtain ⟨rfl, rfl⟩ := Prod.mk.inj (Option.some.inj hstep)
    refine ⟨by rw [stored_append]; exact hload, ?_⟩
    rw [List.getLast?_concat]
    exact fun h => nomatch h
  | utmpNext r =>
    obtain ⟨rfl, rfl⟩ := eq_of_step_utmpNext hstep
    obtain ⟨hload', -⟩ := utmpNext_of_loaded hload hlast hread
    rw [← List.append_assoc]
    refine ⟨?_, ?_⟩
    · rw [stored_append]
      cases (utmpNext s r).2 <;> exact hload'
    · rw [List.getLast?_concat]
      cases (utmpNext s r).2 <;> exact fun h => nomatch h

theorem recorded_step_iff {es : List Event} {s : State} {a : Act} {s' : State} {es' : List Event}
    (h : Intact es s) (hstep : step s a = some (s', es')) :
    Recorded (fun es₁ e => FromLastRead (es ++ es₁) e) es' ↔ ReadSucceeds es s a := by
  obtain ⟨hload, hlast⟩ := h
  cases a with
  | utmpOpen fd =>
    obtain ⟨rfl, rfl⟩ := Prod.mk.inj (Option.some.inj hstep)
    refine iff_of_true (recorded_singleton_iff.mpr ?_) trivial
    cases fd <;> trivial
  | utmpClose =>
    obtain ⟨rfl, rfl⟩ := Prod.mk.inj (Option.some.inj hstep)
    exact iff_of_true (recorded_singleton_iff.mpr trivial) trivial
  | utmpNext r =>
    obtain ⟨rfl, rfl⟩ := eq_of_step_utmpNext hstep
    rw [recorded_append_iff, recorded_singleton_iff, List.append_nil]
    have hbefore : Recorded (fun es₁ e => FromLastRead (es ++ es₁) e)
        (if s.Reads then [r.event] else []) := by
      split
      · refine recorded_singleton_iff.mpr ?_
        cases r <;> trivial
      · exact recorded_nil
    rw [and_iff_right hbefore]
    refine ⟨fun hfrom hreads => ?_, fun hread => (utmpNext_of_loaded hload hlast hread).2⟩
    cases r with
    | data bytes _ => exact Int.natCast_nonneg _
    | failed =>
      rw [utmpNext_of_failed hreads, if_pos hreads] at hfrom
      exact absurd (List.getLast?_concat ..) hfrom.1

/-- **A pointer designates what was read.** In every sequence of calls, all pointers that
`utmp_next` returns designate records which the most recent `read` has stored, and none is returned
after a `read` that failed, exactly when no `read` fails. -/
theorem fromLastRead_iff_meets {as : List Act} {s : State} {es : List Event}
    (h : machine.run as = some (s, es)) :
    Recorded FromLastRead es ↔ machine.Meets ReadSucceeds as := by
  refine Machine.recorded_iff_meets_of_kept (I := Intact) ?_
    (fun es s a s' es' hI hread hstep => hI.step hread hstep)
    (fun es s a s' es' hI hstep => recorded_step_iff hI hstep) h
  exact ⟨utmpOpen_loaded .init none _, fun h => nomatch h⟩

/-- A record, the end of the file, and a failed `open`. -/
theorem one_record_fromLastRead : ∃ s es, machine.run [.utmpOpen (some 3), .utmpNext oneRecord,
      .utmpNext (.data [] (Nat.zero_le _)), .utmpOpen none, .utmpNext .failed] = some (s, es) ∧
    es = [.opened, .read (List.replicate 400 7), .record 0 (List.replicate 384 7), .read [], .null,
      .openFailed, .null] ∧ Recorded FromLastRead es := by
  have hrun : (machine.run [.utmpOpen (some 3), .utmpNext oneRecord,
      .utmpNext (.data [] (Nat.zero_le _)), .utmpOpen none, .utmpNext .failed]).map Prod.snd =
      some [.opened, .read (List.replicate 400 7), .record 0 (List.replicate 384 7), .read [],
        .null, .openFailed, .null] := by decide +kernel
  have hmeets : machine.Meets ReadSucceeds [.utmpOpen (some 3), .utmpNext oneRecord,
      .utmpNext (.data [] (Nat.zero_le _)), .utmpOpen none, .utmpNext .failed] :=
    Machine.meetsFrom_cons trivial rfl <|
      Machine.meetsFrom_cons (fun _ => Int.natCast_nonneg _) rfl <|
      Machine.meetsFrom_cons (fun _ => Int.natCast_nonneg _) rfl <|
      Machine.meetsFrom_cons trivial rfl <|
      Machine.meetsFrom_cons (fun h => absurd rfl h.1) rfl trivial
  obtain ⟨⟨s, es⟩, hs, rfl⟩ := Option.map_eq_some_iff.mp hrun
  exact ⟨s, _, hs, rfl, (fromLastRead_iff_meets hs).mpr hmeets⟩

/-- The first `read` fails: `utmp_next` returns a record, although nothing was read. -/
theorem failed_read_yields_record :
    ¬ ∀ as s es, machine.run as = some (s, es) → Recorded FromLastRead es := by
  intro hall
  have hfrom := hall [.utmpOpen (some 3), .utmpNext .failed] _ _ rfl
  exact (hfrom [.opened, .readFailed] _ [] rfl).1 rfl

/-! ### Regular files -/

/-- A regular file that was opened: the library, and what `read` has not delivered yet. -/
structure OpenFile where
  lib : State
  rest : List UInt8

/-- `read` on a regular file delivers as many bytes as remain, up to the amount asked. -/
def readFile (rest : List UInt8) : ReadResult :=
  .data (rest.take (nrecs * utSize)) (List.length_take_le _ _)

/-- `utmp_next`, and the record that the pointer it returns designates. -/
def OpenFile.next (f : OpenFile) : OpenFile × Option (List UInt8) :=
  let (lib, recp) := utmpNext f.lib (readFile f.rest)
  (⟨lib, if f.lib.Reads then f.rest.drop (nrecs * utSize) else f.rest⟩, recp.map lib.recordAt)

/-- The result of call `i` of `utmp_next`, counted from 0. -/
def OpenFile.result (f : OpenFile) (i : ℕ) : Option (List UInt8) :=
  ((fun f => f.next.1)^[i] f).next.2

/-- The complete records of a file. -/
def wholeRecords (content : List UInt8) : List UInt8 :=
  content.take (content.length / utSize * utSize)

/-- The records in the buffer that are still to be returned. -/
def State.buffered (s : State) : List UInt8 :=
  (s.utmpbuf.take (s.numRecs * utSize).toNat).drop (s.curRec * utSize).toNat

/-- The records that are still to be returned, those of later batches included. -/
def OpenFile.pending (f : OpenFile) : List UInt8 := f.lib.buffered ++ wholeRecords f.rest

/-- The file is open, and the cursor is within the batch. -/
structure OpenFile.InBatch (f : OpenFile) : Prop where
  fdUtmp_ne : f.lib.fdUtmp ≠ -1
  loaded : ∃ bs, Loaded f.lib bs

theorem length_wholeRecords (content : List UInt8) :
    (wholeRecords content).length = content.length / utSize * utSize :=
  List.length_take_of_le (Nat.div_mul_le_self _ _)

/-- The first batch of a file, and the others. -/
theorem wholeRecords_eq (rest : List UInt8) :
    wholeRecords rest =
      (rest.take (nrecs * utSize)).take
          ((rest.take (nrecs * utSize)).length / utSize * utSize) ++
        wholeRecords (rest.drop (nrecs * utSize)) := by
  rcases le_total rest.length (nrecs * utSize) with hle | hge
  · rw [List.take_of_length_le hle, List.drop_of_length_le hle]
    exact (List.append_nil _).symm
  · have hbatch : (rest.take (nrecs * utSize)).length = nrecs * utSize :=
      List.length_take_of_le hge
    have hdiv : rest.length / utSize * utSize =
        nrecs * utSize + (rest.drop (nrecs * utSize)).length / utSize * utSize := by
      rw [List.length_drop]
      simp only [nrecs, utSize] at hge ⊢
      omega
    rw [hbatch, Nat.mul_div_cancel _ (by decide : 0 < utSize), List.take_take, min_self,
      wholeRecords, hdiv, List.take_add, wholeRecords]

/-- At the end of a batch nothing is buffered. -/
theorem buffered_of_reads {s : State} (h : s.Reads) : s.buffered = [] := by
  rw [State.buffered, h.2]
  exact List.drop_eq_nil_of_le (List.length_take_le _ _)

/-- Below the count the next record is that of the buffer. -/
theorem buffered_nextRecord {s : State} {bs : List UInt8} (hload : Loaded s bs)
    (hlt : s.curRec < s.numRecs) :
    s.buffered = s.recordAt (s.curRec * utSize).toNat ++ (nextRecord s).1.buffered := by
  obtain ⟨i, hi⟩ := Int.eq_ofNat_of_zero_le hload.curRec_nonneg
  obtain ⟨n, hn⟩ := Int.eq_ofNat_of_zero_le (hload.curRec_nonneg.trans hlt.le)
  rw [hi, hn] at hlt
  have hin : i * utSize + utSize ≤ n * utSize := by
    rw [← Nat.succ_mul]
    exact Nat.mul_le_mul_right _ (Int.ofNat_lt.mp hlt)
  have hcur : (nextRecord s).1.curRec = (i + 1 : ℕ) := congrArg (· + 1) hi
  have hnum : (nextRecord s).1.numRecs = n := hn
  rw [State.buffered, State.buffered, State.recordAt, hi, hn, hcur, hnum]
  simp only [← Int.natCast_mul, Int.toNat_natCast]
  rw [List.drop_take, List.drop_take, Nat.succ_mul, ← List.drop_drop]
  show _ = _ ++ ((s.utmpbuf.drop (i * utSize)).drop utSize).take _
  have hrest : n * utSize - i * utSize = utSize + (n * utSize - (i * utSize + utSize)) := by omega
  rw [hrest, List.take_add]

/-- What a call of `utmp_next` does to the records that are still to be returned. -/
structure OpenFile.Returns (f f' : OpenFile) (result : Option (List UInt8)) : Prop where
  inBatch : f'.InBatch
  pending_eq : f'.pending = f.pending.drop utSize
  result_eq : result = if f.pending = [] then none else some (f.pending.take utSize)

/-- The record at the cursor is the next one. -/
theorem returns_nextRecord {s : State} {bs : List UInt8} (hfd : s.fdUtmp ≠ -1)
    (hload : Loaded s bs) (hlt : s.curRec < s.numRecs) (rest : List UInt8) :
    OpenFile.Returns ⟨s, rest⟩ ⟨(nextRecord s).1, rest⟩
      ((nextRecord s).2.map (nextRecord s).1.recordAt) := by
  obtain ⟨hle, hrecord⟩ := hload.length_recordAt hlt
  have hlen : (s.recordAt (s.curRec * utSize).toNat).length = utSize := by
    rw [hrecord, List.length_take, List.length_drop]
    omega
  have hpending : OpenFile.pending ⟨s, rest⟩ = s.recordAt (s.curRec * utSize).toNat ++
      OpenFile.pending ⟨(nextRecord s).1, rest⟩ := by
    rw [OpenFile.pending, buffered_nextRecord hload hlt, List.append_assoc]
    rfl
  have hne : OpenFile.pending ⟨s, rest⟩ ≠ [] := by
    intro hnil
    rw [hpending, List.append_eq_nil_iff] at hnil
    rw [hnil.1] at hlen
    exact absurd hlen (by decide)
  refine ⟨⟨hfd, bs, hload.nextRecord hlt⟩, ?_, ?_⟩
  · rw [hpending, List.drop_left' hlen]
  · rw [if_neg hne, hpending, List.take_left' hlen]
    rfl

/-- When less than a record is read, the file is at its end. -/
theorem pending_of_utmpReload_eq_zero {s : State} {rest : List UInt8}
    (h : (utmpReload s (readFile rest)).2 = 0) :
    OpenFile.pending ⟨(utmpReload s (readFile rest)).1, rest.drop (nrecs * utSize)⟩ = [] := by
  have hlt : (rest.take (nrecs * utSize)).length < utSize :=
    Int.ofNat_lt.mp (utmpReload_eq_zero_iff.mp h).2
  have hshort : rest.length < utSize := by
    rw [List.length_take] at hlt
    simp only [nrecs, utSize] at hlt ⊢
    omega
  have hend : rest.drop (nrecs * utSize) = [] :=
    List.drop_eq_nil_of_le (hshort.le.trans (by decide))
  have hreads : (utmpReload s (readFile rest)).1.curRec =
      (utmpReload s (readFile rest)).1.numRecs := h.symm
  rw [OpenFile.pending, State.buffered, ← hreads, hend]
  exact List.append_eq_nil_iff.mpr ⟨List.drop_eq_nil_of_le (List.length_take_le _ _), List.take_nil⟩

/-- A batch that is read leaves the records that are still to be returned as they are. -/
theorem pending_utmpReload {s : State} (hreads : s.Reads) (rest : List UInt8) :
    OpenFile.pending ⟨(utmpReload s (readFile rest)).1, rest.drop (nrecs * utSize)⟩ =
      OpenFile.pending ⟨s, rest⟩ := by
  have hcur : (utmpReload s (readFile rest)).1.curRec = 0 := rfl
  rw [OpenFile.pending, State.buffered, take_utmpReload s (Int.natCast_nonneg _), hcur,
    OpenFile.pending, buffered_of_reads hreads, List.nil_append, wholeRecords_eq rest]
  rfl

/-- **One call of `utmp_next`** on a regular file returns the next record, `NULL` when there is
none. -/
theorem OpenFile.InBatch.next {f : OpenFile} (h : f.InBatch) : f.Returns f.next.1 f.next.2 := by
  obtain ⟨hfd, bs, hload⟩ := h
  by_cases hcur : f.lib.curRec = f.lib.numRecs
  · have hreads : f.lib.Reads := ⟨hfd, hcur⟩
    have hpending := pending_utmpReload hreads f.rest
    have hfill := utmpReload_loaded f.lib (r := readFile f.rest) (Int.natCast_nonneg _)
    rw [OpenFile.next, utmpNext_of_reads hreads, if_pos hreads]
    by_cases hzero : (utmpReload f.lib (readFile f.rest)).2 = 0
    · have hnil := pending_of_utmpReload_eq_zero hzero
      rw [if_pos hzero]
      refine ⟨⟨hfd, _, hfill⟩, ?_, ?_⟩
      · exact hnil.trans (by rw [← hpending, hnil, List.drop_nil])
      · rw [← hpending, if_pos hnil]
        rfl
    · rw [if_neg hzero]
      obtain ⟨hin, hdrop, htake⟩ := returns_nextRecord
        (s := (utmpReload f.lib (readFile f.rest)).1) hfd hfill
        (lt_of_le_of_ne hfill.curRec_le (Ne.symm hzero)) (f.rest.drop (nrecs * utSize))
      rw [hpending] at hdrop htake
      exact ⟨hin, hdrop, htake⟩
  · have hlt := lt_of_le_of_ne hload.curRec_le hcur
    rw [OpenFile.next, utmpNext_of_lt hfd hlt, if_neg fun hreads => hcur hreads.2]
    exact returns_nextRecord hfd hload hlt f.rest

/-- The calls before call `i` have returned `i` records. -/
theorem OpenFile.InBatch.iterate {f : OpenFile} (h : f.InBatch) : ∀ i : ℕ,
    ((fun f => f.next.1)^[i] f).InBatch ∧
      ((fun f => f.next.1)^[i] f).pending = f.pending.drop (i * utSize)
  | 0 => ⟨h, by rw [Nat.zero_mul]; rfl⟩
  | i + 1 => by
    obtain ⟨hin, hpending⟩ := h.iterate i
    have hnext := hin.next
    rw [Function.iterate_succ_apply']
    refine ⟨hnext.inBatch, ?_⟩
    rw [hnext.pending_eq, hpending, List.drop_drop, Nat.succ_mul]

/-- **A regular file is returned record by record.** After `utmp_open`, whatever the library did
before, call `i` of `utmp_next` returns complete record `i` of the file, and `NULL` when the file
has no such record. -/
theorem result_eq (s : State) (fd : ℕ) (content : List UInt8) (i : ℕ) :
    OpenFile.result ⟨utmpOpen s (some fd), content⟩ i =
      if i < content.length / utSize then some ((content.drop (i * utSize)).take utSize)
      else none := by
  have hopen : OpenFile.InBatch ⟨utmpOpen s (some fd), content⟩ :=
    ⟨fun h => absurd h (by exact nofun), [], utmpOpen_loaded s _ _⟩
  have hpending : OpenFile.pending ⟨utmpOpen s (some fd), content⟩ = wholeRecords content := by
    rw [OpenFile.pending]
    rfl
  obtain ⟨hin, hdrop⟩ := hopen.iterate i
  rw [OpenFile.result, hin.next.result_eq, hdrop, hpending]
  have hlen := length_wholeRecords content
  by_cases hi : i < content.length / utSize
  · have hle : i * utSize + utSize ≤ content.length / utSize * utSize := by
      rw [← Nat.succ_mul]
      exact Nat.mul_le_mul_right _ hi
    have hne : (wholeRecords content).drop (i * utSize) ≠ [] := by
      intro hnil
      rw [List.drop_eq_nil_iff, hlen] at hnil
      have hpos : 0 < utSize := by decide
      omega
    rw [if_neg hne, if_pos hi, wholeRecords, List.drop_take, List.take_take,
      min_eq_left (by omega)]
  · have hnil : (wholeRecords content).drop (i * utSize) = [] := by
      rw [List.drop_eq_nil_iff, hlen]
      exact Nat.mul_le_mul_right _ (Nat.not_lt.mp hi)
    rw [if_pos hnil, if_neg hi]

end Utmplib

end SystemProgramming
