import SystemProgramming.WordCount.Overlap
import Mathlib.Algebra.BigOperators.Group.Finset.Basic
import Mathlib.Algebra.BigOperators.Fin

/-!
# `wc_mt_overlap` counts every word once

Every byte of the file is in exactly one place: unread, in a chunk that waits in the producer's
hand or in the ring buffer, in a chunk some consumer is counting, or counted. `Accounts` says so
twice, for the chunks themselves (in the order they were built and taken) and for the numbers of
words (in the order they are added, which is not the order they were taken in).

The flag `starts_inside_word` makes the numbers of the chunks add up wherever the cuts fall: it is
the memory of `runStarts`, handed from one chunk to the next.

## How it goes

A step moves a chunk from one place to the next, so the invariant is the sum over all places, and
each case of `Transition` says which two terms of it change. That no chunk is counted twice is part
of it: a chunk is in one place. At the end all places but the last are empty.

## Main results

* `accounts_of_run` — the accounts are balanced in every state of every run
* `overlap_counts_every_word` — so at the end every chunk was taken once and the total is right
-/

namespace SystemProgramming

namespace WcMtOverlap

variable (isWordChar : UInt8 → Bool) {n : ℕ}

/-- What a consumer adds for a chunk. -/
def chunkWords (chunk : Chunk) : ℕ :=
  countWordsInChunk isWordChar chunk.data chunk.size chunk.startsInsideWord

/-- What a consumer has taken and not yet added. -/
def unadded : Consumer → ℕ
  | .counting chunk => chunkWords isWordChar chunk
  | _ => 0

@[simp] theorem unadded_dequeuing : unadded isWordChar .dequeuing = 0 := rfl

@[simp] theorem unadded_returned : unadded isWordChar .returned = 0 := rfl

@[simp] theorem unadded_counting (chunk : Chunk) :
    unadded isWordChar (.counting chunk) = chunkWords isWordChar chunk := rfl

/-- The text of a sequence of chunks. -/
def text (chunks : List Chunk) : List UInt8 := (chunks.map Chunk.data).flatten

/-- The accounts of a run that emitted `es` and is in state `s`. -/
structure Accounts (file : List UInt8) (es : List (Event n)) (s : State n) : Prop where
  /-- A chunk is taken, or waits in the ring buffer, or is in the producer's hand. -/
  conserved : builtChunks es = (takenChunks es).map Prod.snd ++
    s.shared.ring.toList bufferCapacity ++ s.producer.inHand
  /-- The file is what was put into chunks and what is still unread. -/
  read : text (builtChunks es) ++ s.fp = file
  /-- The flag of the next chunk is what the text so far ends in. -/
  flag : s.prevEndsInWord = endsInRun isWordChar false (text (builtChunks es))
  /-- The chunks built so far have as many words as their text. -/
  words : ((builtChunks es).map (chunkWords isWordChar)).sum
    = runStarts isWordChar false (text (builtChunks es))
  /-- What was taken is added, or is about to be. -/
  added : s.totalWordCount + ∑ t, unadded isWordChar (s.consumers t)
    = ((takenChunks es).map fun x => chunkWords isWordChar x.2).sum
  /-- The producer stops reading at the end of the file. -/
  exhausted : s.producer = .closing ∨ s.producer = .returned → s.fp = []

variable {isWordChar}

/-! ### Chunks -/

theorem endsInRun_eq_endsInWord {buf : List UInt8} (h : buf ≠ []) (prev : Bool) :
    endsInRun isWordChar prev buf = endsInWord isWordChar buf := by
  rw [endsInRun, endsInWord, ← List.getLast?_eq_getElem?, List.getLast?_eq_some_getLast h]
  rfl

/-- Completing the last word moves bytes from the file to the buffer and loses none. -/
theorem completeWord_append : ∀ (fp buf : List UInt8) {buf' fp' : List UInt8},
    completeWord isWordChar buf fp = (buf', fp') → buf' ++ fp' = buf ++ fp ∧ (buf' = [] → buf = [])
  | [], buf, buf', fp', h => by
    cases h
    exact ⟨rfl, id⟩
  | c :: fp, buf, buf', fp', h => by
    rw [completeWord] at h
    split at h
    · obtain ⟨happ, hnil⟩ := completeWord_append fp (buf ++ [c]) h
      exact ⟨by simpa using happ, fun hb => by simpa using hnil hb⟩
    · cases h
      exact ⟨rfl, id⟩

theorem readChunk_eq_some {fp buf fp' : List UInt8}
    (h : readChunk isWordChar fp = some (buf, fp')) : buf ≠ [] ∧ buf ++ fp' = fp := by
  simp only [readChunk] at h
  split at h
  · cases h
  · rename_i hne
    obtain ⟨happ, hnil⟩ := completeWord_append _ _ (Option.some.inj h)
    refine ⟨fun hb => hne (by simp [hnil hb]), ?_⟩
    rw [happ, List.take_append_drop]

theorem eq_nil_of_readChunk_eq_none {fp : List UInt8} (h : readChunk isWordChar fp = none) :
    fp = [] := by
  simp only [readChunk] at h
  split at h
  · rename_i hlen
    simpa [chunkSize] using hlen
  · cases h

theorem text_append_singleton (chunks : List Chunk) (chunk : Chunk) :
    text (chunks ++ [chunk]) = text chunks ++ chunk.data := by
  simp [text]

@[simp] theorem builtChunks_append (es es' : List (Event n)) :
    builtChunks (es ++ es') = builtChunks es ++ builtChunks es' := by
  simp [builtChunks]

@[simp] theorem takenChunks_append (es es' : List (Event n)) :
    takenChunks (es ++ es') = takenChunks es ++ takenChunks es' := by
  simp [takenChunks]

@[simp] theorem builtChunks_built (chunk : Chunk) :
    builtChunks [Event.built (n := n) chunk] = [chunk] := rfl

@[simp] theorem takenChunks_built (chunk : Chunk) :
    takenChunks [Event.built (n := n) chunk] = [] := rfl

@[simp] theorem builtChunks_took (t : Fin n) (chunk : Chunk) :
    builtChunks [Event.took t chunk] = [] := rfl

@[simp] theorem takenChunks_took (t : Fin n) (chunk : Chunk) :
    takenChunks [Event.took t chunk] = [(t, chunk)] := rfl

/-! ### The sum over the consumers -/

variable (isWordChar) in
/-- Moving one consumer exchanges one summand. -/
theorem sum_unadded_update (consumers : Fin n → Consumer) (t : Fin n) (c : Consumer) :
    (∑ u, unadded isWordChar (Function.update consumers t c u)) +
        unadded isWordChar (consumers t)
      = (∑ u, unadded isWordChar (consumers u)) + unadded isWordChar c := by
  have hrest : ∑ u ∈ Finset.univ.erase t, unadded isWordChar (Function.update consumers t c u)
      = ∑ u ∈ Finset.univ.erase t, unadded isWordChar (consumers u) := by
    refine Finset.sum_congr rfl fun u hu => ?_
    rw [Function.update_of_ne (Finset.ne_of_mem_erase hu)]
  rw [← Finset.add_sum_erase _ _ (Finset.mem_univ t), hrest, Function.update_self,
    ← Finset.add_sum_erase _ (fun u => unadded isWordChar (consumers u)) (Finset.mem_univ t)]
  omega

/-! ### The accounts stay balanced -/

theorem accounts_init (file : List UInt8) :
    Accounts isWordChar file [] (machine isWordChar file n).init where
  conserved := by simp [machine, builtChunks, takenChunks, BoundedBuffer.empty, Producer.inHand]
  read := rfl
  flag := rfl
  words := rfl
  added := by simp [machine, unadded, takenChunks]
  exhausted h := by simp [machine] at h

/-- A step that changes only the waiters, the places of threads without a chunk, and nothing of
the accounts. -/
theorem Accounts.setShared {file : List UInt8} {es : List (Event n)} {s : State n}
    (h : Accounts isWordChar file es s) {b : BoundedBuffer Chunk (Fin n)}
    (hring : b.ring = s.shared.ring) : Accounts isWordChar file es { s with shared := b } where
  conserved := by rw [h.conserved, hring]
  read := h.read
  flag := h.flag
  words := h.words
  added := h.added
  exhausted := h.exhausted

theorem Accounts.built {file : List UInt8} {es : List (Event n)} {s : State n}
    (h : Accounts isWordChar file es s) {buf fp : List UInt8} (hp : s.producer = .reading)
    (hr : readChunk isWordChar s.fp = some (buf, fp)) :
    Accounts isWordChar file (es ++ [.built ⟨buf, buf.length, s.prevEndsInWord⟩])
      { s with
        fp := fp
        prevEndsInWord := endsInWord isWordChar buf
        producer := .enqueuing ⟨buf, buf.length, s.prevEndsInWord⟩ } := by
  obtain ⟨hne, happ⟩ := readChunk_eq_some hr
  constructor
  · have hcons := h.conserved
    simp only [hp, Producer.inHand, List.append_nil] at hcons
    simp [hcons, Producer.inHand]
  · have hread := h.read
    simpa [text_append_singleton, happ] using hread
  · simp only [builtChunks_append, builtChunks_built, text_append_singleton, endsInRun_append,
      endsInRun_eq_endsInWord hne]
  · have hwords := h.words
    have hflag := h.flag
    simp only [builtChunks_append, builtChunks_built, List.map_append, List.sum_append, hwords,
      text_append_singleton, runStarts_append, ← hflag]
    simp [chunkWords, countWordsInChunk_eq]
  · simpa using h.added
  · intro hstop
    simp at hstop

theorem Accounts.stored {file : List UInt8} {es : List (Event n)} {s : State n}
    (h : Accounts isWordChar file es s) (hok : s.shared.Ok bufferCapacity) {chunk : Chunk}
    {wake : Option (Fin n)} {shared : BoundedBuffer Chunk (Fin n)}
    (hp : s.producer = .enqueuing chunk) (hroom : s.shared.ring.count ≠ bufferCapacity)
    (hs : s.shared.store bufferCapacity chunk wake = some shared) :
    Accounts isWordChar file es { s with shared := shared, producer := .reading } where
  conserved := by
    have hcons := h.conserved
    simp only [hp, Producer.inHand] at hcons
    rw [hcons, BoundedBuffer.toList_store hok hroom hs]
    simp [Producer.inHand]
  read := h.read
  flag := h.flag
  words := h.words
  added := h.added
  exhausted hstop := by simp at hstop

theorem Accounts.fetched {file : List UInt8} {es : List (Event n)} {s : State n}
    (h : Accounts isWordChar file es s) (hok : s.shared.Ok bufferCapacity) {t : Fin n}
    {wake : Option Unit} {q : Chunk × BoundedBuffer Chunk (Fin n)}
    (ht : s.consumers t = .dequeuing) (hpos : s.shared.ring.count ≠ 0)
    (hf : s.shared.fetch bufferCapacity t wake = some q) :
    Accounts isWordChar file (es ++ [.took t q.1])
      { s with
        shared := q.2
        consumers := Function.update s.consumers t (.counting q.1) } where
  conserved := by
    have hcons := h.conserved
    rw [BoundedBuffer.toList_fetch hok hpos hf] at hcons
    simp [hcons]
  read := by simpa using h.read
  flag := by simpa using h.flag
  words := by simpa using h.words
  added := by
    have hadd := h.added
    have hsum := sum_unadded_update isWordChar s.consumers t (.counting q.1)
    simp only [ht, unadded_dequeuing, unadded_counting] at hsum
    simp only [takenChunks_append, takenChunks_took, List.map_append, List.sum_append,
      List.map_cons, List.map_nil, List.sum_cons, List.sum_nil]
    omega
  exhausted := h.exhausted

/-- Moving a consumer that has taken nothing, or adding what it has taken. -/
theorem Accounts.setConsumer {file : List UInt8} {es : List (Event n)} {s : State n}
    (h : Accounts isWordChar file es s) {t : Fin n} {c : Consumer} (hc : unadded isWordChar c = 0) :
    Accounts isWordChar file es
      { s with
        totalWordCount := s.totalWordCount + unadded isWordChar (s.consumers t)
        consumers := Function.update s.consumers t c } where
  conserved := h.conserved
  read := h.read
  flag := h.flag
  words := h.words
  added := by
    have hadd := h.added
    have hsum := sum_unadded_update isWordChar s.consumers t c
    simp only [hc] at hsum
    simp only
    omega
  exhausted := h.exhausted

theorem Accounts.transition {file : List UInt8} {es es' : List (Event n)} {s s' : State n}
    (h : Accounts isWordChar file es s) (hok : s.shared.Ok bufferCapacity)
    (ht : Transition isWordChar s s' es') : Accounts isWordChar file (es ++ es') s' := by
  cases ht with
  | eof hp hr =>
    rw [List.append_nil]
    refine ⟨?_, h.read, h.flag, h.words, h.added, fun _ => eq_nil_of_readChunk_eq_none hr⟩
    simpa [hp, Producer.inHand] using h.conserved
  | built hp hr => exact h.built hp hr
  | full hp =>
    rw [List.append_nil]
    exact h.setShared rfl
  | stored hp hroom hs =>
    rw [List.append_nil]
    exact h.stored hok hp hroom hs
  | closed hp =>
    rw [List.append_nil]
    refine ⟨?_, h.read, h.flag, h.words, h.added, fun _ => h.exhausted (Or.inl hp)⟩
    simpa [hp, Producer.inHand, BoundedBuffer.wakeAllConsumers] using h.conserved
  | empty =>
    rw [List.append_nil]
    exact h.setShared rfl
  | @left t ht =>
    rw [List.append_nil]
    have hmove := (h.setShared (b := s.shared.consumerLeaves t) rfl).setConsumer
      (t := t) (c := .returned) (unadded_returned _)
    simpa [ht] using hmove
  | fetched ht hpos hf => exact h.fetched hok ht hpos hf
  | @added t chunk ht =>
    rw [List.append_nil]
    have hmove := h.setConsumer (t := t) (c := .dequeuing) (unadded_dequeuing _)
    simpa [ht, chunkWords] using hmove
  | producerWoken =>
    rw [List.append_nil]
    exact h.setShared rfl
  | consumerWoken =>
    rw [List.append_nil]
    exact h.setShared rfl

/-- The accounts are balanced in every state of every run. -/
theorem accounts_of_run {file : List UInt8} {as : List (Act n)} {s : State n}
    {es : List (Event n)} (h : (machine isWordChar file n).run as = some (s, es)) :
    Accounts isWordChar file es s := by
  have hboth : Control s ∧ Accounts isWordChar file es s :=
    Machine.run_invariant (I := fun es s => Control s ∧ Accounts isWordChar file es s)
      ⟨control_init file, accounts_init file⟩
      (fun _ _ _ _ _ hI hs =>
        ⟨hI.1.transition (transition_of_step hs),
          hI.2.transition hI.1.shared (transition_of_step hs)⟩) h
  exact hboth.2

/-! ### The end of a run -/

theorem Control.count_eq_zero {s : State n} (h : Control s) (hn : 1 ≤ n)
    (hall : s.AllReturned) : s.shared.ring.count = 0 :=
  (h.left ⟨0, hn⟩ (hall.2 _)).2

/-- When all have returned, nothing is unread, in hand, stored or unadded. -/
theorem Accounts.final {file : List UInt8} {es : List (Event n)} {s : State n}
    (h : Accounts isWordChar file es s) (hall : s.AllReturned)
    (hempty : s.shared.ring.toList bufferCapacity = []) :
    builtChunks es = (takenChunks es).map Prod.snd ∧
      s.totalWordCount = runCount isWordChar file := by
  have hbuilt : builtChunks es = (takenChunks es).map Prod.snd := by
    simpa [hempty, hall.1, Producer.inHand] using h.conserved
  have hfile : text (builtChunks es) = file := by
    simpa [h.exhausted (Or.inr hall.1)] using h.read
  refine ⟨hbuilt, ?_⟩
  calc s.totalWordCount
      = s.totalWordCount + ∑ t, unadded isWordChar (s.consumers t) := by simp [hall.2]
    _ = ((takenChunks es).map fun x => chunkWords isWordChar x.2).sum := h.added
    _ = ((builtChunks es).map (chunkWords isWordChar)).sum := by
        rw [hbuilt, List.map_map]
        rfl
    _ = runCount isWordChar file := by rw [h.words, hfile, runCount_eq_runStarts]

/-- The total, when everybody has returned. -/
theorem total_of_allReturned {isWordChar : UInt8 → Bool} {file : List UInt8} {n : ℕ} (hn : 1 ≤ n)
    {as : List (Act n)} {s : State n} {es : List (Event n)}
    (h : (machine isWordChar file n).run as = some (s, es)) (hall : s.AllReturned) :
    s.totalWordCount = runCount isWordChar file := by
  have hcount := (control_of_run h).count_eq_zero hn hall
  exact ((accounts_of_run h).final hall (RingBuffer.toList_eq_nil hcount.le)).2

/-- **`wc_mt_overlap` is correct.** For every file, every positive number of consumers and every
schedule: at any moment the chunks built are, in order, those taken so far (each by the one
consumer recorded with it), those in the ring buffer, and the one in the producer's hand; and once
the producer and all consumers have returned, the ring buffer is empty, the `i`-th chunk built is
the `i`-th taken, by exactly one consumer, and the total is the number of words of the file. -/
theorem overlap_counts_every_word (isWordChar : UInt8 → Bool) (file : List UInt8) (n : ℕ)
    (hn : 1 ≤ n) {as : List (Act n)} {s : State n} {es : List (Event n)}
    (h : (machine isWordChar file n).run as = some (s, es)) :
    builtChunks es = (takenChunks es).map Prod.snd ++ s.shared.ring.toList bufferCapacity ++
        s.producer.inHand ∧
      (s.AllReturned →
        s.shared.ring.count = 0 ∧ s.shared.ring.toList bufferCapacity = [] ∧
          (∀ (i : ℕ) (chunk : Chunk), (builtChunks es)[i]? = some chunk →
            ∃! t, (takenChunks es)[i]? = some (t, chunk)) ∧
          (takenChunks es).length = (builtChunks es).length ∧
          s.totalWordCount = runCount isWordChar file) := by
  have hacc := accounts_of_run h
  refine ⟨hacc.conserved, fun hall => ?_⟩
  have hcount := (control_of_run h).count_eq_zero hn hall
  have hempty : s.shared.ring.toList bufferCapacity = [] := RingBuffer.toList_eq_nil hcount.le
  obtain ⟨hbuilt, -⟩ := hacc.final hall hempty
  refine ⟨hcount, hempty, fun i chunk hi => ?_, by rw [hbuilt, List.length_map],
    total_of_allReturned hn h hall⟩
  rw [hbuilt, List.getElem?_map] at hi
  obtain ⟨⟨t, _⟩, ht, rfl⟩ := Option.map_eq_some_iff.mp hi
  refine ⟨t, ht, fun u hu => ?_⟩
  rw [ht] at hu
  cases hu
  rfl

/-- One consumer, which goes to sleep before the only chunk is stored, on a file of two words. -/
theorem overlap_counts_every_word_sleeper :
    ∃ q, (machine (· != 0) [1, 0, 1] 1).run
        [.dequeue 0 none, .read, .enqueue (some 0), .dequeue 0 none, .add 0, .read, .close,
          .dequeue 0 none] = some q ∧
      q.1.AllReturned ∧ q.1.totalWordCount = runCount (· != 0) ([1, 0, 1] : List UInt8) := by
  have hend : ((machine (· != 0) [1, 0, 1] 1).run
      [.dequeue 0 none, .read, .enqueue (some 0), .dequeue 0 none, .add 0, .read, .close,
        .dequeue 0 none]).any (fun q => decide q.1.AllReturned) := by decide
  obtain ⟨q, hrun, hall⟩ := (Option.any_eq_true _ _).mp hend
  have hall := of_decide_eq_true hall
  exact ⟨q, hrun, hall,
    ((overlap_counts_every_word (· != 0) [1, 0, 1] 1 (by decide) hrun).2 hall).2.2.2.2⟩

end WcMtOverlap

end SystemProgramming
