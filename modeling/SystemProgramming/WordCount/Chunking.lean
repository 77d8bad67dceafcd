import SystemProgramming.WordCount.ChunkBuffer

/-!
# The chunks of `wc_mt_overlap`

What the producer enqueues depends on the file alone, not on the schedule: `chunksFrom` is the
producer's loop without the ring buffer, and in every run the chunks already stored are the first
ones of that list. So what is said of the chunks is said once, of a list, by `Chunking`.

The buffer of a chunk is taken as unbounded here; `ChunkBuffer` says when it is large enough.

## Why a list

Where the producer cuts does not depend on what the consumers do: they decide only how long it waits
for a free slot. What it hands over is therefore settled before the threads start, and the schedule
decides how much of it has been handed over at some moment. All results about chunks are results
about `chunksFrom`, by induction on what is unread.

## Main definitions

* `chunksFrom` — the chunks of the producer's loop, from some point of the file on
* `enqueued` — the chunks a run has put into the ring buffer
* `Chunking` — a file cut into chunks that end where no word does
* `chunksOf` — the chunks of any other cut

## Main results

* `chunking_chunksFrom` — the loop cuts the file that way
* `enqueued_chunks_cut_file` — so what a run has enqueued begins such a cut, and at the end is one
* `sum_chunksOf_eq_runCount` — the counts of any cut add up
-/

namespace SystemProgramming

namespace WcMtOverlap

section Definitions

variable (isWordChar : UInt8 → Bool) {n : ℕ}

/-- `while (1)` of `producer`: the chunks of the rest `fp` of the file, when the chunk before it
left `prev_ends_in_word` at `prev`. -/
def chunksFrom (fp : List UInt8) (prev : Bool) : List Chunk :=
  match _h : readChunk isWordChar fp with
  | none => []
  | some (buf, fp') => ⟨buf, buf.length, prev⟩ :: chunksFrom fp' (endsInWord isWordChar buf)
termination_by fp.length
decreasing_by exact length_rest_lt ‹_›

/-- The chunks stored in the ring buffer so far: those taken out again, and those still there. -/
def enqueued (es : List (Event n)) (s : State n) : List Chunk :=
  (takenChunks es).map Prod.snd ++ s.shared.ring.toList bufferCapacity

/-- A cut of the file into chunks. -/
structure Chunking (file : List UInt8) (chunks : List Chunk) : Prop where
  nonempty : ∀ chunk ∈ chunks, chunk.data ≠ []
  size_eq : ∀ chunk ∈ chunks, chunk.size = chunk.data.length
  starts_outside : ∀ chunk ∈ chunks, chunk.startsInsideWord = false
  text_eq : text chunks = file
  ends_outside : ∀ chunk ∈ chunks.dropLast, endsInWord isWordChar chunk.data = false

end Definitions

variable {isWordChar : UInt8 → Bool} {n : ℕ}

/-! ### The producer's loop -/

theorem chunksFrom_of_none {fp : List UInt8} (h : readChunk isWordChar fp = none) (prev : Bool) :
    chunksFrom isWordChar fp prev = [] := by
  rw [chunksFrom.eq_def]
  split
  · rfl
  · rename_i hr
    rw [h] at hr
    cases hr

theorem chunksFrom_of_some {fp buf fp' : List UInt8}
    (h : readChunk isWordChar fp = some (buf, fp')) (prev : Bool) :
    chunksFrom isWordChar fp prev
      = ⟨buf, buf.length, prev⟩ :: chunksFrom isWordChar fp' (endsInWord isWordChar buf) := by
  rw [chunksFrom.eq_def]
  split
  · rename_i hr
    rw [h] at hr
    cases hr
  · rename_i hr
    rw [h] at hr
    cases hr
    rfl

theorem readChunk_nil : readChunk isWordChar [] = none := rfl

/-- A chunk that ends in a word ends the file: `fgetc` is called until one of the two is over. -/
theorem rest_eq_nil_of_endsInWord {fp buf fp' : List UInt8}
    (h : readChunk isWordChar fp = some (buf, fp')) (hend : endsInWord isWordChar buf = true) :
    fp' = [] := by
  obtain ⟨hne, happ⟩ := readChunk_eq_some h
  have hword : inRun isWordChar fp (buf.length - 1) := by
    rw [← happ]
    exact (endsInWord_iff isWordChar fp' hne).mp hend
  simp only [readChunk] at h
  split at h
  · cases h
  · rename_i hlen
    have htake : fp.take chunkSize ≠ [] := fun hnil => hlen (by rw [hnil]; rfl)
    obtain ⟨-, -, hstop⟩ := completeWord_eq htake (Option.some.inj h)
    rw [List.take_append_drop] at hstop
    exact hstop.resolve_right (not_not_intro hword)

/-- **The loop cuts the file between words.** The flag it starts with is false, unless nothing is
left of the file. -/
theorem chunking_chunksFrom (fp : List UInt8) (prev : Bool) (hprev : prev = true → fp = []) :
    Chunking isWordChar fp (chunksFrom isWordChar fp prev) := by
  induction fp, prev using chunksFrom.induct isWordChar with
  | case1 fp prev hr =>
    rw [chunksFrom_of_none hr, eq_nil_of_readChunk_eq_none hr]
    constructor <;> simp [text]
  | case2 fp prev buf fp' hr ih =>
    have hrest := ih (rest_eq_nil_of_endsInWord hr)
    obtain ⟨hne, happ⟩ := readChunk_eq_some hr
    have hflag : prev = false := by
      by_contra hp
      have hnil := hprev (by simpa using hp)
      rw [hnil, readChunk_nil] at hr
      cases hr
    rw [chunksFrom_of_some hr]
    constructor
    · exact List.forall_mem_cons.mpr ⟨hne, hrest.nonempty⟩
    · exact List.forall_mem_cons.mpr ⟨rfl, hrest.size_eq⟩
    · exact List.forall_mem_cons.mpr ⟨hflag, hrest.starts_outside⟩
    · have htext := hrest.text_eq
      rw [text] at htext ⊢
      rw [List.map_cons, List.flatten_cons, htext, happ]
    · -- a chunk is last exactly when the loop finds the end of the file behind it
      cases hr' : readChunk isWordChar fp' with
      | none => simp [chunksFrom_of_none hr']
      | some q =>
        have hends := hrest.ends_outside
        have hword : endsInWord isWordChar buf = false := by
          by_contra hend
          rw [rest_eq_nil_of_endsInWord hr (by simpa using hend), readChunk_nil] at hr'
          cases hr'
        rw [chunksFrom_of_some hr', List.dropLast_cons_cons]
        rw [chunksFrom_of_some hr'] at hends
        exact List.forall_mem_cons.mpr ⟨hword, hends⟩

/-! ### The chunks of a run -/

/-- What the producer has built and will still build is the list of the whole file. -/
theorem built_append_chunksFrom {file : List UInt8} {as : List (Act n)} {s : State n}
    {es : List (Event n)} (h : (machine isWordChar file n).run as = some (s, es)) :
    builtChunks es ++ chunksFrom isWordChar s.fp s.prevEndsInWord
      = chunksFrom isWordChar file false := by
  refine Machine.run_invariant
    (I := fun es s => builtChunks es ++ chunksFrom isWordChar s.fp s.prevEndsInWord
      = chunksFrom isWordChar file false) rfl (fun es s a s' es' hI hs => ?_) h
  cases transition_of_step hs with
  | built hp hr =>
    rw [chunksFrom_of_some hr] at hI
    simpa using hI
  | _ => simpa using hI

/-- **The chunking of `wc_mt_overlap`.** For every file there is one list of chunks such that, in
every run with any number of consumers, the chunks enqueued so far are its first ones, and all of
them once the producer is past its loop. Its chunks are not empty, their data make up the file in
order, no chunk but the last ends in a word character, and `starts_inside_word` is 0 in each. -/
theorem enqueued_chunks_cut_file (isWordChar : UInt8 → Bool) (file : List UInt8) :
    ∃ chunks, Chunking isWordChar file chunks ∧
      ∀ {n : ℕ} {as : List (Act n)} {s : State n} {es : List (Event n)},
        (machine isWordChar file n).run as = some (s, es) →
          enqueued es s <+: chunks ∧
            (s.producer = .closing ∨ s.producer = .returned → enqueued es s = chunks) := by
  refine ⟨chunksFrom isWordChar file false,
    chunking_chunksFrom file false (fun hf => absurd hf (by decide)), fun {n as s es} h => ?_⟩
  have hacc := accounts_of_run h
  have hbuilt : builtChunks es = enqueued es s ++ s.producer.inHand := hacc.conserved
  have hall := built_append_chunksFrom h
  constructor
  · rw [← hall, hbuilt, List.append_assoc]
    exact List.prefix_append _ _
  · intro hstop
    have hhand : s.producer.inHand = [] := by
      rcases hstop with hp | hp <;> rw [hp] <;> rfl
    rw [← hall, hbuilt, hhand, hacc.exhausted hstop, chunksFrom_of_none readChunk_nil,
      List.append_nil, List.append_nil]

/-- A run on a file of two words, up to the end of the producer: what was enqueued is the file. -/
theorem enqueued_chunks_cut_file_two_words :
    ∃ q, (machine (· != 0) [1, 0, 1] 1).run [.read, .enqueue none, .read] = some q ∧
      text (enqueued q.2 q.1) = [1, 0, 1] := by
  obtain ⟨chunks, hcut, hrun⟩ := enqueued_chunks_cut_file (· != 0) [1, 0, 1]
  have hend : ((machine (· != 0) [1, 0, 1] 1).run [.read, .enqueue none, .read]).any
      (fun q => decide (q.1.producer = .closing)) := by decide
  obtain ⟨q, hq, hclosing⟩ := (Option.any_eq_true _ _).mp hend
  refine ⟨q, hq, ?_⟩
  rw [(hrun hq).2 (Or.inl (of_decide_eq_true hclosing))]
  exact hcut.text_eq

/-! ### Any other cut -/

/-- The chunks that `producer` would make of these pieces: the flag of a piece is what the piece
before it ends in. -/
def chunksOf (isWordChar : UInt8 → Bool) (prev : Bool) : List (List UInt8) → List Chunk
  | [] => []
  | piece :: pieces =>
    ⟨piece, piece.length, prev⟩ :: chunksOf isWordChar (endsInWord isWordChar piece) pieces

/-- The flag of the first piece is the memory of the pass over all of them. -/
theorem sum_chunksOf_eq_runStarts {pieces : List (List UInt8)} :
    ∀ {prev : Bool}, (∀ piece ∈ pieces, piece ≠ []) →
      ((chunksOf isWordChar prev pieces).map (chunkWords isWordChar)).sum =
        runStarts isWordChar prev pieces.flatten := by
  induction pieces with
  | nil =>
    intro prev _
    rfl
  | cons piece pieces ih =>
    intro prev h
    obtain ⟨hpiece, hpieces⟩ := List.forall_mem_cons.mp h
    rw [chunksOf, List.map_cons, List.sum_cons, ih hpieces, chunkWords, countWordsInChunk_eq,
      List.take_length, List.flatten_cons, runStarts_append, endsInRun_eq_endsInWord hpiece]

/-- **`count_words_in_chunk` is additive** over every cut into pieces that are not empty, also in
the middle of words. -/
theorem sum_chunksOf_eq_runCount (isWordChar : UInt8 → Bool) (pieces : List (List UInt8))
    (h : ∀ piece ∈ pieces, piece ≠ []) :
    ((chunksOf isWordChar false pieces).map (chunkWords isWordChar)).sum =
      runCount isWordChar pieces.flatten := by
  rw [sum_chunksOf_eq_runStarts h, runCount_eq_runStarts]

/-- A word over three pieces, and one more. -/
theorem sum_chunksOf_two_words :
    ((chunksOf (· != 0) false [[0, 1], [1], [1, 0, 1]]).map (chunkWords (· != 0))).sum =
      runCount (· != 0) [[0, 1], [1], [1, 0, 1]].flatten ∧
        runCount (· != 0) ([[0, 1], [1], [1, 0, 1]] : List (List UInt8)).flatten = 2 :=
  ⟨sum_chunksOf_eq_runCount _ _ (by decide), by decide⟩

end WcMtOverlap

end SystemProgramming
