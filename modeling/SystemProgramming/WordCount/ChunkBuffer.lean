import SystemProgramming.WordCount.OverlapCount
import Mathlib.Logic.Relation

/-!
# The chunk buffer of `wc_mt_overlap`

The producer allocates `CHUNK_SIZE + 256` bytes for a chunk. The loop that completes the last word
of the chunk looks at the data only, so whether it stays inside depends on where the chunks begin:
`ChunkEnd` says, of a file alone, where a chunk that begins at some offset ends.

## Where chunks begin

A chunk that ends with the file, or at a byte that belongs to no word, completes nothing. Otherwise
the loop stores the bytes of the word, and the first byte behind it, which `fgetc` has delivered
before it is looked at. So a chunk of `CHUNK_SIZE` bytes has room for 255 bytes of a word and the
byte behind it. The producer goes on behind that byte: one chunk that is completed moves all chunks
behind it, and the question where a chunk begins is answered by recursion from the start of the
file.

## Main definitions

* `completeWordWrites`, `producerWrites` — the indices at which that loop writes
* `ChunkEnd`, `ChunkStart` — where chunks end and begin

## Main results

* `chunkStart_of_run` — in every run the producer reads at these offsets
* `producer_writes_inside_iff` — when all the writes are inside the buffer
-/

namespace SystemProgramming

namespace WcMtOverlap

/-- `malloc(CHUNK_SIZE + 256)` -/
def bufSize : ℕ := chunkSize + 256

section Writes

variable (isWordChar : UInt8 → Bool)

/-- The indices at which `completeWord` writes. -/
def completeWordWrites : List UInt8 → List UInt8 → List ℕ
  | _, [] => []
  | buf, c :: fp =>
    if endsInWord isWordChar buf then buf.length :: completeWordWrites (buf ++ [c]) fp else []

/-- The indices written when the last word of the next chunk is completed. -/
def chunkWrites (fp : List UInt8) : List ℕ :=
  completeWordWrites isWordChar (fp.take chunkSize) (fp.drop chunkSize)

variable {isWordChar}

theorem length_rest_lt {fp buf fp' : List UInt8} (h : readChunk isWordChar fp = some (buf, fp')) :
    fp'.length < fp.length := by
  obtain ⟨hne, happ⟩ := readChunk_eq_some h
  have hpos := List.length_pos_of_ne_nil hne
  rw [← happ, List.length_append]
  omega

variable (isWordChar)

/-- The indices written for all chunks, in the order in which `producer` makes them. -/
def producerWrites (fp : List UInt8) : List ℕ :=
  match _h : readChunk isWordChar fp with
  | none => []
  | some (_, fp') => chunkWrites isWordChar fp ++ producerWrites fp'
termination_by fp.length
decreasing_by exact length_rest_lt ‹_›

/-! ### Where chunks begin and end -/

/-- A chunk of the file that begins at offset `p` ends at offset `e`: after `CHUNK_SIZE` bytes it
goes on while the last byte is in a word, to the end of the file at most. -/
structure ChunkEnd (file : List UInt8) (p e : ℕ) : Prop where
  start_lt : p < file.length
  size_le : p + chunkSize ≤ e ∨ e = file.length
  end_le : e ≤ file.length
  inside : ∀ j, p + chunkSize ≤ j + 1 → j + 1 < e → inRun isWordChar file j
  stop : e = file.length ∨ ¬ inRun isWordChar file (e - 1)

/-- A chunk begins at offset `p`, or the producer finds the end of the file there. -/
def ChunkStart (file : List UInt8) (p : ℕ) : Prop :=
  Relation.ReflTransGen (ChunkEnd isWordChar file) 0 p

end Writes

variable {isWordChar : UInt8 → Bool}

theorem bufSize_eq : bufSize = chunkSize + 256 := rfl

theorem chunkSize_pos : 0 < chunkSize := by decide

theorem endsInWord_iff (isWordChar : UInt8 → Bool) {buf : List UInt8} (fp : List UInt8)
    (hbuf : buf ≠ []) :
    endsInWord isWordChar buf ↔ inRun isWordChar (buf ++ fp) (buf.length - 1) := by
  have hlt : buf.length - 1 < buf.length := Nat.sub_lt (List.length_pos_of_ne_nil hbuf) one_pos
  rw [endsInWord, inRun, List.getElem?_append_left hlt]

/-- **The writes of one round**: as far as the word goes. -/
theorem mem_completeWordWrites {i : ℕ} : ∀ {fp buf : List UInt8}, buf ≠ [] →
    (i ∈ completeWordWrites isWordChar buf fp ↔
      buf.length ≤ i ∧ i < (buf ++ fp).length ∧
        ∀ j, buf.length ≤ j + 1 → j < i → inRun isWordChar (buf ++ fp) j)
  | [], buf, _ => by
    rw [completeWordWrites, List.append_nil]
    simp only [List.not_mem_nil, false_iff]
    omega
  | c :: fp, buf, hbuf => by
    have hpos := List.length_pos_of_ne_nil hbuf
    have happ : buf ++ c :: fp = buf ++ [c] ++ fp := by simp
    have hlen : (buf ++ [c]).length = buf.length + 1 := by simp
    have hword := endsInWord_iff isWordChar (c :: fp) hbuf
    rw [completeWordWrites]
    by_cases hend : endsInWord isWordChar buf
    · have hin := hword.mp hend
      rw [if_pos hend, List.mem_cons, mem_completeWordWrites (by simp), happ, hlen]
      rw [happ] at hin
      constructor
      · rintro (rfl | ⟨hi, hlt, hrun⟩)
        · refine ⟨le_rfl, by simp, fun j hj hlt => ?_⟩
          obtain rfl : j = buf.length - 1 := by omega
          exact hin
        · refine ⟨by omega, hlt, fun j hj hji => ?_⟩
          rcases Nat.eq_or_lt_of_le hj with heq | hlt'
          · obtain rfl : j = buf.length - 1 := by omega
            exact hin
          · exact hrun j hlt' hji
      · rintro ⟨hi, hlt, hrun⟩
        rcases Nat.eq_or_lt_of_le hi with rfl | hi'
        · exact Or.inl rfl
        · exact Or.inr ⟨hi', hlt, fun j hj hji => hrun j (by omega) hji⟩
    · rw [if_neg hend]
      simp only [List.not_mem_nil, false_iff]
      rintro ⟨hi, -, hrun⟩
      exact hend (hword.mpr (hrun (buf.length - 1) (by omega) (by omega)))

theorem mem_chunkWrites {i : ℕ} (fp : List UInt8) :
    i ∈ chunkWrites isWordChar fp ↔
      chunkSize ≤ i ∧ i < fp.length ∧
        ∀ j, chunkSize ≤ j + 1 → j < i → inRun isWordChar fp j := by
  rw [chunkWrites]
  by_cases hlong : chunkSize ≤ fp.length
  · have hlen : (fp.take chunkSize).length = chunkSize := List.length_take_of_le hlong
    have hne : fp.take chunkSize ≠ [] := by
      intro hnil
      rw [hnil] at hlen
      exact absurd hlen (by decide)
    rw [mem_completeWordWrites hne, hlen, List.take_append_drop]
  · rw [List.drop_of_length_le (by omega), completeWordWrites]
    simp only [List.not_mem_nil, false_iff]
    omega

/-- Staying inside the buffer in one round. -/
theorem chunkWrites_lt_iff (fp : List UInt8) :
    (∀ i ∈ chunkWrites isWordChar fp, i < bufSize) ↔
      ¬ (bufSize < fp.length ∧
        ∀ j, chunkSize ≤ j + 1 → j < bufSize → inRun isWordChar fp j) := by
  constructor
  · rintro hall ⟨hlt, hrun⟩
    have hmem : bufSize ∈ chunkWrites isWordChar fp :=
      (mem_chunkWrites fp).mpr ⟨Nat.le_add_right _ _, hlt, hrun⟩
    exact absurd (hall _ hmem) (Nat.lt_irrefl _)
  · intro hnot i hi
    obtain ⟨-, hlt, hrun⟩ := (mem_chunkWrites fp).mp hi
    by_contra hge
    exact hnot ⟨(not_lt.mp hge).trans_lt hlt,
      fun j hj hji => hrun j hj (hji.trans_le (not_lt.mp hge))⟩

/-! ### Where a chunk ends -/

/-- What completing the last word takes off the file. -/
theorem completeWord_eq : ∀ {fp buf buf' fp' : List UInt8}, buf ≠ [] →
    completeWord isWordChar buf fp = (buf', fp') →
      buf.length ≤ buf'.length ∧
      (∀ j, buf.length ≤ j + 1 → j + 1 < buf'.length → inRun isWordChar (buf ++ fp) j) ∧
      (fp' = [] ∨ ¬ inRun isWordChar (buf ++ fp) (buf'.length - 1))
  | [], buf, buf', fp', _, h => by
    cases h
    exact ⟨le_rfl, fun j hj hlt => absurd hlt (by omega), Or.inl rfl⟩
  | c :: fp, buf, buf', fp', hbuf, h => by
    have hpos := List.length_pos_of_ne_nil hbuf
    have happ : buf ++ c :: fp = buf ++ [c] ++ fp := by simp
    have hlen : (buf ++ [c]).length = buf.length + 1 := by simp
    have hword := endsInWord_iff isWordChar (c :: fp) hbuf
    rw [completeWord] at h
    split at h
    · rename_i hend
      obtain ⟨hle, hrun, hstop⟩ := completeWord_eq (by simp) h
      rw [hlen] at hle hrun
      rw [happ] at hword ⊢
      refine ⟨by omega, fun j hj hlt => ?_, hstop⟩
      rcases Nat.eq_or_lt_of_le hj with heq | hlt'
      · obtain rfl : j = buf.length - 1 := by omega
        exact hword.mp hend
      · exact hrun j hlt' hlt
    · rename_i hend
      cases h
      exact ⟨le_rfl, fun j hj hlt => absurd hlt (by omega), Or.inr fun hin => hend (hword.mpr hin)⟩

theorem inRun_drop (file : List UInt8) (p j : ℕ) :
    inRun isWordChar (file.drop p) j = inRun isWordChar file (p + j) := by
  rw [inRun, inRun, List.getElem?_drop]

/-- The end of a chunk is where the producer goes on reading. -/
theorem chunkEnd_of_readChunk {file buf fp' : List UInt8} {p : ℕ}
    (h : readChunk isWordChar (file.drop p) = some (buf, fp')) :
    ∃ e, ChunkEnd isWordChar file p e ∧ fp' = file.drop e := by
  obtain ⟨hne, happ⟩ := readChunk_eq_some h
  simp only [readChunk] at h
  split at h
  · cases h
  rename_i hread
  have hread' : (file.drop p).take chunkSize ≠ [] := fun hnil => hread (by simp [hnil])
  obtain ⟨hle, hrun, hstop⟩ := completeWord_eq hread' (Option.some.inj h)
  rw [List.take_append_drop] at hrun hstop
  have hlen := congrArg List.length happ
  rw [List.length_append, List.length_drop] at hlen
  have hpos := List.length_pos_of_ne_nil hne
  have hchunk := chunkSize_pos
  rw [List.length_take, List.length_drop] at hle hrun
  have hrest : fp' = file.drop (p + buf.length) := by
    rw [← List.drop_drop, ← happ, List.drop_left]
  refine ⟨p + buf.length, ⟨by omega, by omega, by omega, fun j hj hlt => ?_, ?_⟩, hrest⟩
  · have hin := hrun (j - p) (by omega) (by omega)
    rwa [inRun_drop, Nat.add_sub_cancel' (by omega)] at hin
  · refine hstop.imp (fun hnil => ?_) fun hout hin => hout ?_
    · rw [hnil] at hlen
      simp only [List.length_nil] at hlen
      omega
    · rw [inRun_drop, ← Nat.add_sub_assoc hpos]
      exact hin

theorem ChunkEnd.unique {file : List UInt8} {p e e' : ℕ} (h : ChunkEnd isWordChar file p e)
    (h' : ChunkEnd isWordChar file p e') : e = e' := by
  have hle : ∀ {a b : ℕ}, ChunkEnd isWordChar file p a → ChunkEnd isWordChar file p b → a ≤ b := by
    intro a b ha hb
    by_contra hlt
    have hsize := hb.size_le
    have hend := ha.end_le
    have hpos := chunkSize_pos
    have hin := ha.inside (b - 1)
    rcases hb.stop with hlast | hstop
    · omega
    · exact hstop (hin (by omega) (by omega))
  exact le_antisymm (hle h h') (hle h' h)

/-! ### All rounds -/

theorem producerWrites_of_none {fp : List UInt8} (h : readChunk isWordChar fp = none) :
    producerWrites isWordChar fp = [] := by
  rw [producerWrites]
  split
  · rfl
  · rename_i heq
    rw [h] at heq
    cases heq

theorem producerWrites_of_some {fp buf fp' : List UInt8}
    (h : readChunk isWordChar fp = some (buf, fp')) :
    producerWrites isWordChar fp = chunkWrites isWordChar fp ++ producerWrites isWordChar fp' := by
  rw [producerWrites]
  split
  · rename_i heq
    rw [h] at heq
    cases heq
  · rename_i heq
    rw [h] at heq
    cases heq
    rfl

/-- What is written from some offset on is written in the rounds that begin behind it. -/
theorem mem_producerWrites_drop (file : List UInt8) (i p : ℕ) :
    i ∈ producerWrites isWordChar (file.drop p) ↔
      ∃ q, Relation.ReflTransGen (ChunkEnd isWordChar file) p q ∧
        i ∈ chunkWrites isWordChar (file.drop q) := by
  induction hn : file.length - p using Nat.strong_induction_on generalizing p with
  | _ n ih =>
    cases hread : readChunk isWordChar (file.drop p) with
    | none =>
      have hnil := eq_nil_of_readChunk_eq_none hread
      rw [producerWrites_of_none hread]
      simp only [List.not_mem_nil, false_iff, not_exists, not_and]
      intro q hq
      rcases hq.cases_head with rfl | ⟨e, he, -⟩
      · rw [mem_chunkWrites, hnil]
        simp
      · have hlt := he.start_lt
        rw [List.drop_eq_nil_iff] at hnil
        omega
    | some r =>
      obtain ⟨e, he, hrest⟩ := chunkEnd_of_readChunk hread
      have hless := length_rest_lt hread
      rw [hrest, List.length_drop, List.length_drop] at hless
      rw [producerWrites_of_some hread, List.mem_append, hrest, ih _ (hn ▸ hless) e rfl]
      constructor
      · rintro (hi | ⟨q, hq, hi⟩)
        · exact ⟨p, .refl, hi⟩
        · exact ⟨q, .head he hq, hi⟩
      · rintro ⟨q, hq, hi⟩
        rcases hq.cases_head with rfl | ⟨e', he', hq'⟩
        · exact Or.inl hi
        · exact Or.inr ⟨q, he.unique he' ▸ hq', hi⟩

theorem mem_producerWrites {file : List UInt8} {i : ℕ} :
    i ∈ producerWrites isWordChar file ↔
      ∃ p, ChunkStart isWordChar file p ∧ i ∈ chunkWrites isWordChar (file.drop p) := by
  show _ ↔ ∃ p, Relation.ReflTransGen _ 0 p ∧ _
  rw [← mem_producerWrites_drop file i 0, List.drop_zero]

/-- In every run the producer reads where a chunk begins, so it makes these writes and no other. -/
theorem chunkStart_of_run {n : ℕ} {file : List UInt8} {as : List (Act n)} {s : State n}
    {es : List (Event n)} (h : (machine isWordChar file n).run as = some (s, es)) :
    ∃ p, ChunkStart isWordChar file p ∧ s.fp = file.drop p := by
  refine Machine.run_invariant_state
    (I := fun s => ∃ p, ChunkStart isWordChar file p ∧ s.fp = file.drop p)
    ⟨0, .refl, rfl⟩ ?_ h
  rintro s a s' es' ⟨p, hp, hfp⟩ hstep
  cases transition_of_step hstep with
  | built hprod hread =>
    rw [hfp] at hread
    obtain ⟨e, he, hrest⟩ := chunkEnd_of_readChunk hread
    exact ⟨e, hp.tail he, hrest⟩
  | _ => exact ⟨p, hp, hfp⟩

/-! ### The bound -/

/-- The bound, round by round. -/
theorem producerWrites_lt_iff {file : List UInt8} :
    (∀ i ∈ producerWrites isWordChar file, i < bufSize) ↔
      ∀ p, ChunkStart isWordChar file p →
        ¬ (p + chunkSize + 256 < file.length ∧
          ∀ j, p + chunkSize ≤ j + 1 → j < p + chunkSize + 256 → inRun isWordChar file j) := by
  have hround : ∀ p, (∀ i ∈ chunkWrites isWordChar (file.drop p), i < bufSize) ↔
      ¬ (p + chunkSize + 256 < file.length ∧
        ∀ j, p + chunkSize ≤ j + 1 → j < p + chunkSize + 256 → inRun isWordChar file j) := by
    intro p
    refine (chunkWrites_lt_iff _).trans ?_
    simp only [List.length_drop, bufSize_eq]
    refine not_congr (and_congr (by omega) ⟨fun hrun j hj hlt => ?_, fun hrun j hj hlt => ?_⟩)
    · have hchunk : 0 < chunkSize := by decide
      have hin := hrun (j - p) (by omega) (by omega)
      rwa [inRun_drop, Nat.add_sub_cancel' (by omega)] at hin
    · rw [inRun_drop]
      exact hrun (p + j) (by omega) (by omega)
  constructor
  · intro hall p hp
    exact (hround p).mp fun i hi => hall i (mem_producerWrites.mpr ⟨p, hp, hi⟩)
  · intro hall i hi
    obtain ⟨p, hp, hi⟩ := mem_producerWrites.mp hi
    exact (hround p).mpr (hall p hp) i hi

/-- **When the producer stays inside its buffer**: exactly when no word that the end of a full
chunk cuts goes on for 256 bytes, with another byte of the file behind them. -/
theorem producer_writes_inside_iff (isWordChar : UInt8 → Bool) (file : List UInt8) :
    (∀ i ∈ producerWrites isWordChar file, i < bufSize) ↔
      ∀ p, ChunkStart isWordChar file p →
        ¬ (p + chunkSize + 256 < file.length ∧
          ∀ j, p + chunkSize ≤ j + 1 → j < p + chunkSize + 256 → inRun isWordChar file j) :=
  producerWrites_lt_iff

/-- A word that has no room in the buffer. -/
theorem chunkWrites_replicate_outside {b : UInt8} (hb : isWordChar b = true) {n : ℕ}
    (hn : bufSize < n) : ¬ ∀ i ∈ chunkWrites isWordChar (List.replicate n b), i < bufSize := by
  rw [chunkWrites_lt_iff, not_not, List.length_replicate]
  refine ⟨hn, fun j _ hj => ?_⟩
  simp [inRun, hj.trans hn, hb]

/-- A file that is one word of 65793 letters, one more than the buffer has room for. -/
theorem producer_writes_outside : ¬ ∀ i ∈ producerWrites SystemProgramming.isWordChar
    (List.replicate 65793 97), i < bufSize := fun hall =>
  chunkWrites_replicate_outside (b := 97) rfl (show bufSize < 65793 by decide)
    fun i hi => hall i (mem_producerWrites.mpr ⟨0, .refl, hi⟩)

end WcMtOverlap

end SystemProgramming
