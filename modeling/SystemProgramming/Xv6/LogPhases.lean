import SystemProgramming.Xv6.Log

/-!
# The phases of a commit

What `initlog` would make of the disk, should the machine fail now, changes at one moment only: when
the header is written.

## How it goes

`recovered` is what `initlog` would make of the disk. While blocks are copied to the log, the header
still says that there is nothing to be done; while they are copied home, it says what is to be done,
and doing a part of it before changes nothing, as the blocks of the log are left alone. So of all
the writes of a commit only the two of the header matter, and only the first of them changes what
`recovered` is.

## One structure for each phase

The invariants are about four things: the contents of the disk, what the threads read, which blocks
are pinned, and the list of blocks in the header in memory. They are compared with `Versions`, which
knows what the threads have written and what of it lasts.

`Logging` is the state in which calls are in progress: the header on the disk is empty, the home
blocks are as they last, and what has been changed is in the list and pinned. `Installing` begins
with the header: the list is on the disk with the contents that it names, and so many of the blocks
are home. While the machine comes up (`Booting`) there is only a disk that can be recovered. The
lemmas between them are one for each block that is written, and each says which structure it leads
from and to, with the number of blocks that are done.

## Main definitions

* `recovered` — what `initlog` makes of a disk
* `contents` — what has been written, and what of it lasts
* `Stage`, `Agrees` — the invariant of each phase

## Main results

* `readHead_writeHead` — the header is read as it was written
* `Logging.write`, ..., `Booting.readHead` — what the blocks written in a phase do
* `Stage.recoverable` — the disk can be recovered in every phase
-/

namespace SystemProgramming

namespace Xv6

namespace Log

variable {ι : Type*}

/-! ### The header -/

theorem word_writeHead_zero (lh : List ℕ) (block : Block) :
    word (writeHead lh block) 0 = BitVec.ofNat 32 lh.length := rfl

theorem word_writeHead_succ {lh : List ℕ} {i b : ℕ} (hi : i + 1 < 256) (hb : lh[i]? = some b)
    (block : Block) : word (writeHead lh block) (i + 1) = BitVec.ofNat 32 b := by
  rw [word, dif_pos hi, writeHead]
  simp only [Nat.add_eq_zero_iff, one_ne_zero, and_false, if_false, Nat.add_sub_cancel, hb]

/-- **The header is read as it was written.** -/
theorem readHead_writeHead {lh : List ℕ} (hlen : lh.length < 256) (hlh : ∀ b ∈ lh, b < 2 ^ 32)
    (block : Block) : readHead (writeHead lh block) = lh := by
  have hn : (word (writeHead lh block) 0).toInt.toNat = lh.length := by
    rw [word_writeHead_zero, BitVec.toInt_eq_toNat_of_lt, BitVec.toNat_ofNat, Int.toNat_natCast,
      Nat.mod_eq_of_lt (by omega)]
    rw [BitVec.toNat_ofNat, Nat.mod_eq_of_lt (by omega)]
    omega
  rw [readHead, hn]
  refine List.ext_getElem (by simp) fun i _ hi => ?_
  rw [List.getElem_map, List.getElem_range, word_writeHead_succ (by omega)
    (List.getElem?_eq_getElem hi), BitVec.toNat_ofNat, Nat.mod_eq_of_lt]
  exact hlh _ (List.getElem_mem hi)

/-! ### What is promised -/

/-- The contents of the log blocks, each with the block it belongs to. -/
def logged (L : Layout) (disk : ℕ → Block) (lh : List ℕ) : List (ℕ × Block) :=
  lh.mapIdx fun tail b => (b, disk (L.start + tail + 1))

/-- What `recover_from_log` makes of a disk. -/
def recovered (L : Layout) (disk : ℕ → Block) : ℕ → Block :=
  redo disk (logged L disk (readHead (disk L.start)))

/-- How an event changes the contents of the blocks. -/
def Event.change (c : Versions ℕ Block) : Event ι → Versions ℕ Block
  | .written _ b v => c.write b v
  | .committed => c.commit
  | .failed => c.fail
  | _ => c

/-- The contents of the blocks after the events of a run from a disk. -/
def contents (L : Layout) (disk : ℕ → Block) (es : List (Event ι)) : Versions ℕ Block :=
  es.foldl Event.change (.clean (recovered L disk))

theorem contents_append (L : Layout) (disk : ℕ → Block) (es es' : List (Event ι)) :
    contents L disk (es ++ es') = es'.foldl Event.change (contents L disk es) :=
  List.foldl_append

/-! ### The header and the log of a disk -/

/-- A list of blocks that a log can be of. -/
structure Fits (L : Layout) (lh : List ℕ) : Prop where
  nodup : lh.Nodup
  home : ∀ b ∈ lh, L.Home b
  length_le : lh.length ≤ logSize
  length_lt : lh.length < L.size

/-- A disk on which a file system has been made, and used. -/
def Valid (L : Layout) (disk : ℕ → Block) : Prop := Fits L (readHead (disk L.start))

variable {L : Layout} {disk : ℕ → Block} {lh : List ℕ}

theorem Fits.nil (h : Fits L lh) : Fits L [] where
  nodup := List.nodup_nil
  home _ h := absurd h List.not_mem_nil
  length_le := Nat.zero_le _
  length_lt := Nat.lt_of_le_of_lt (Nat.zero_le _) h.length_lt

theorem Fits.readHead_writeHead (h : Fits L lh) (block : Block) :
    readHead (writeHead lh block) = lh := by
  have hle := h.length_le
  exact Log.readHead_writeHead (by rw [logSize, maxOpBlocks] at hle; omega)
    (fun b hb => (h.home b hb).1) block

/-- The header does not belong to a file. -/
theorem Fits.not_home_start (h : Fits L lh) : ¬ L.Home L.start := by
  have hlt := h.length_lt
  rintro ⟨-, hout⟩
  exact hout ⟨Nat.le_refl _, by omega⟩

theorem Fits.not_home_log (h : Fits L lh) {i : ℕ} (hi : i < lh.length) :
    ¬ L.Home (L.start + i + 1) := by
  have hlt := h.length_lt
  rintro ⟨-, hout⟩
  exact hout ⟨by omega, by omega⟩

theorem map_fst_logged (L : Layout) (disk : ℕ → Block) (lh : List ℕ) :
    (logged L disk lh).map Prod.fst = lh := by
  refine List.ext_getElem? fun i => ?_
  rw [logged, List.getElem?_map, List.getElem?_mapIdx]
  cases lh[i]? <;> rfl

theorem mem_logged {i b : ℕ} (h : lh[i]? = some b) :
    (b, disk (L.start + i + 1)) ∈ logged L disk lh := by
  refine List.mem_of_getElem? (i := i) ?_
  rw [logged, List.getElem?_mapIdx, h]
  rfl

/-- A block of the log is recovered from there. -/
theorem recovered_of_mem (hlh : readHead (disk L.start) = lh) (h : Fits L lh) {i b : ℕ}
    (hb : lh[i]? = some b) : recovered L disk b = disk (L.start + i + 1) := by
  rw [recovered, hlh]
  exact redo_of_mem (by rw [map_fst_logged]; exact h.nodup) (mem_logged hb)

theorem recovered_of_notMem (hlh : readHead (disk L.start) = lh) {b : ℕ} (hb : b ∉ lh) :
    recovered L disk b = disk b := by
  rw [recovered, hlh]
  refine redo_of_notMem fun w hw hwb => hb ?_
  rw [← map_fst_logged L disk lh]
  exact List.mem_map.mpr ⟨w, hw, hwb⟩

/-! ### The invariant of each phase -/

/-- What `initlog` would make of the disk is what lasts. -/
structure Recoverable (L : Layout) (disk durable : ℕ → Block) : Prop where
  valid : Valid L disk
  recovered_eq : ∀ b, L.Home b → recovered L disk b = durable b

/-- Before the header is written. The blocks of the log are changed in the cache only, where they
are pinned. -/
structure Logging (L : Layout) (c : Versions ℕ Block) (disk read : ℕ → Block) (pins : ℕ → ℕ)
    (lh : List ℕ) : Prop where
  head : readHead (disk L.start) = []
  disk_eq : ∀ b, L.Home b → disk b = c.durable b
  read_eq : ∀ b, L.Home b → read b = c.pending b
  clean : ∀ b, L.Home b → b ∉ lh → c.pending b = c.durable b
  pinned : ∀ b ∈ lh, 0 < pins b

/-- The first `tail` blocks have been copied to the log. -/
def Copied (L : Layout) (disk contents : ℕ → Block) (lh : List ℕ) (tail : ℕ) : Prop :=
  ∀ i b, i < tail → lh[i]? = some b → disk (L.start + i + 1) = contents b

/-- The block is not among those that are still to be copied home. -/
def Settled (lh : List ℕ) (tail b : ℕ) : Prop := ∀ i, lh[i]? = some b → i < tail

/-- After the header has been written, the first `tail` blocks having been copied home. `pinned`
says whether the blocks are still in the cache, or the machine is coming up. -/
structure Installing (L : Layout) (c : Versions ℕ Block) (disk read : ℕ → Block) (pins : ℕ → ℕ)
    (lh : List ℕ) (cached : Bool) (tail : ℕ) : Prop where
  head : readHead (disk L.start) = lh
  copied : Copied L disk c.durable lh lh.length
  disk_eq : ∀ b, L.Home b → Settled lh tail b → disk b = c.durable b
  read_eq : ∀ b, L.Home b → Settled lh tail b ∨ cached = true → read b = c.durable b
  pending : c.pending = c.durable
  pinned : cached = true → ∀ i b, tail ≤ i → lh[i]? = some b → 0 < pins b

/-- Nothing has been read but what is on the disk. -/
structure Booting (L : Layout) (c : Versions ℕ Block) (disk read : ℕ → Block) (lh : List ℕ) :
    Prop where
  recoverable : Recoverable L disk c.durable
  read_eq : read = disk
  pending : c.pending = c.durable
  lh_eq : lh = []

/-- The invariant of a phase. -/
def Stage (L : Layout) (c : Versions ℕ Block) (disk read : ℕ → Block) (pins : ℕ → ℕ)
    (lh : List ℕ) : Phase ι → Prop
  | .idle => Logging L c disk read pins lh
  | .writeLog _ tail => Logging L c disk read pins lh ∧ Copied L disk c.pending lh tail
  | .writeHead _ => Logging L c disk read pins lh ∧ Copied L disk c.pending lh lh.length
  | .installTrans who tail => Installing L c disk read pins lh who.isSome tail
  | .eraseHead who => Installing L c disk read pins lh who.isSome lh.length
  | .endOp _ => Logging L c disk read pins lh ∧ lh = []
  | .readHead => Booting L c disk read lh

section Phases

variable {c : Versions ℕ Block} {read : ℕ → Block} {pins pins' : ℕ → ℕ} {cached : Bool} {tail : ℕ}

theorem Logging.recoverable (h : Logging L c disk read pins lh) (hfits : Fits L lh) :
    Recoverable L disk c.durable where
  valid := by
    rw [Valid, h.head]
    exact hfits.nil
  recovered_eq b hb := by
    rw [recovered_of_notMem h.head List.not_mem_nil, h.disk_eq b hb]

theorem Installing.recoverable (h : Installing L c disk read pins lh cached tail)
    (hfits : Fits L lh) : Recoverable L disk c.durable where
  valid := by
    rw [Valid, h.head]
    exact hfits
  recovered_eq b hb := by
    by_cases hmem : b ∈ lh
    · obtain ⟨i, hi⟩ := List.mem_iff_getElem?.mp hmem
      rw [recovered_of_mem h.head hfits hi]
      exact h.copied i b (List.getElem?_eq_some_iff.mp hi).1 hi
    · rw [recovered_of_notMem h.head hmem]
      exact h.disk_eq b hb fun i hi => absurd (List.mem_of_getElem? hi) hmem

theorem Stage.recoverable {phase : Phase ι} (h : Stage L c disk read pins lh phase)
    (hfits : Fits L lh) : Recoverable L disk c.durable := by
  cases phase with
  | idle => exact Logging.recoverable h hfits
  | writeLog who tail => exact Logging.recoverable h.1 hfits
  | writeHead who => exact Logging.recoverable h.1 hfits
  | installTrans who tail => exact Installing.recoverable h hfits
  | eraseHead who => exact Installing.recoverable h hfits
  | endOp who => exact Logging.recoverable h.1 hfits
  | readHead => exact Booting.recoverable h

/-- A block that has been pinned stays so. -/
theorem Stage.mono {phase : Phase ι} (h : Stage L c disk read pins lh phase)
    (hpins : ∀ b, 0 < pins b → 0 < pins' b) : Stage L c disk read pins' lh phase := by
  have hlog : Logging L c disk read pins lh → Logging L c disk read pins' lh := fun h =>
    { h with pinned := fun b hb => hpins b (h.pinned b hb) }
  have hinst : ∀ {cached tail}, Installing L c disk read pins lh cached tail →
      Installing L c disk read pins' lh cached tail := fun h =>
    { h with pinned := fun hc i b hi hb => hpins b (h.pinned hc i b hi hb) }
  cases phase with
  | idle => exact hlog h
  | writeLog who tail => exact ⟨hlog h.1, h.2⟩
  | writeHead who => exact ⟨hlog h.1, h.2⟩
  | installTrans who tail => exact hinst h
  | eraseHead who => exact hinst h
  | endOp who => exact ⟨hlog h.1, h.2⟩
  | readHead => exact h

/-- What a thread reads, once `initlog` has returned. -/
theorem Stage.read_eq {phase : Phase ι} (h : Stage L c disk read pins lh phase)
    (hup : phase.Up) {b : ℕ} (hb : L.Home b) : read b = c.pending b := by
  have hinst : ∀ {tail}, Installing L c disk read pins lh true tail → read b = c.pending b :=
    fun h => (h.read_eq b hb (Or.inr rfl)).trans (congrFun h.pending b).symm
  cases phase with
  | idle => exact Logging.read_eq h b hb
  | writeLog who tail => exact h.1.read_eq b hb
  | writeHead who => exact h.1.read_eq b hb
  | installTrans who tail =>
    cases who with
    | none => exact hup.elim
    | some t => exact hinst h
  | eraseHead who =>
    cases who with
    | none => exact hup.elim
    | some t => exact hinst h
  | endOp who => exact h.1.read_eq b hb
  | readHead => exact hup.elim

/-- A buffer that is not pinned may be recycled: what it shows is on the disk. -/
theorem Stage.recycle {phase : Phase ι} (h : Stage L c disk read pins lh phase)
    {b : ℕ} (hb : pins b = 0) {read' : ℕ → Block}
    {pins' : ℕ → ℕ} (hself : read' b = disk b) (hne : ∀ b', b' ≠ b → read' b' = read b')
    (hpins : ∀ b', b' ≠ b → pins' b' = pins b') : Stage L c disk read' pins' lh phase := by
  have hpin : ∀ b', 0 < pins b' → 0 < pins' b' := by
    intro b' hpos
    have hb' : b' ≠ b := by
      rintro rfl
      omega
    rw [hpins b' hb']
    exact hpos
  have hL : Logging L c disk read pins lh → Logging L c disk read' pins' lh := by
    intro h
    refine { h with
      read_eq := fun b' hhome => ?_
      pinned := fun b' hb' => hpin b' (h.pinned b' hb') }
    by_cases hb' : b' = b
    · subst hb'
      have hmem : b' ∉ lh := fun hmem => (h.pinned b' hmem).ne' hb
      rw [hself, h.disk_eq b' hhome, h.clean b' hhome hmem]
    · rw [hne b' hb', h.read_eq b' hhome]
  have hI : ∀ {cached tail}, Installing L c disk read pins lh cached tail →
      Installing L c disk read' pins' lh cached tail := by
    intro cached tail h
    refine { h with
      read_eq := fun b' hhome hor => ?_
      pinned := fun hc i b' hi hb' => hpin b' (h.pinned hc i b' hi hb') }
    by_cases hb' : b' = b
    · subst hb'
      rw [hself]
      refine h.disk_eq b' hhome fun i hi => ?_
      rcases hor with hset | hc
      · exact hset i hi
      · by_contra hle
        exact (h.pinned hc i b' (Nat.le_of_not_lt hle) hi).ne' hb
    · rw [hne b' hb', h.read_eq b' hhome hor]
  cases phase with
  | idle => exact hL h
  | writeLog who tail => exact ⟨hL h.1, h.2⟩
  | writeHead who => exact ⟨hL h.1, h.2⟩
  | installTrans who tail => exact hI h
  | eraseHead who => exact hI h
  | endOp who => exact ⟨hL h.1, h.2⟩
  | readHead =>
    refine { h with read_eq := funext fun b' => ?_ }
    by_cases hb' : b' = b
    · subst hb'
      exact hself
    · rw [hne b' hb', Booting.read_eq h]

/-- **`log_write`**: one block changes, and belongs to the log from then on. -/
theorem Logging.write (h : Logging L c disk read pins lh) {b : ℕ} (v : Block) {lh' : List ℕ}
    (hpins : ∀ b', 0 < pins b' → 0 < pins' b') (hlh : ∀ b', b' ∈ lh' ↔ b' ∈ lh ∨ b' = b)
    (hb : 0 < pins' b) :
    Logging L (c.write b v) disk (Function.update read b v) pins' lh' where
  head := h.head
  disk_eq := h.disk_eq
  read_eq b' hhome := by
    by_cases hb' : b' = b
    · subst hb'
      rw [Versions.pending_write, Function.update_self, Function.update_self]
    · rw [Versions.pending_write, Function.update_of_ne hb', Function.update_of_ne hb',
        h.read_eq b' hhome]
  clean b' hhome hmem := by
    rw [hlh, not_or] at hmem
    rw [Versions.pending_write, Function.update_of_ne hmem.2]
    exact h.clean b' hhome hmem.1
  pinned b' hmem := by
    rcases (hlh b').mp hmem with hmem | rfl
    · exact hpins b' (h.pinned b' hmem)
    · exact hb

/-- **`write_log`**: one more block is copied to the log. -/
theorem Logging.writeLog (h : Logging L c disk read pins lh) (hfits : Fits L lh)
    (hcopied : Copied L disk c.pending lh tail) {b : ℕ} (hb : lh[tail]? = some b) :
    Logging L c (Function.update disk (L.start + tail + 1) (read b))
        (Function.update read (L.start + tail + 1) (read b)) pins lh ∧
      Copied L (Function.update disk (L.start + tail + 1) (read b)) c.pending lh (tail + 1) := by
  have htail : tail < lh.length := (List.getElem?_eq_some_iff.mp hb).1
  have hlog := hfits.not_home_log htail
  have hne : ∀ b', L.Home b' → b' ≠ L.start + tail + 1 := by
    rintro b' hhome rfl
    exact hlog hhome
  refine ⟨{ h with head := ?_, disk_eq := fun b' hhome => ?_, read_eq := fun b' hhome => ?_ }, ?_⟩
  · rw [Function.update_of_ne (by omega), h.head]
  · rw [Function.update_of_ne (hne b' hhome), h.disk_eq b' hhome]
  · rw [Function.update_of_ne (hne b' hhome), h.read_eq b' hhome]
  · intro i b' hi hb'
    by_cases heq : i = tail
    · subst heq
      obtain rfl := Option.some.inj (hb.symm.trans hb')
      rw [Function.update_self, h.read_eq b (hfits.home b (List.mem_of_getElem? hb))]
    · rw [Function.update_of_ne (by omega)]
      exact hcopied i b' (by omega) hb'

/-- **The commit.** -/
theorem Logging.writeHead (h : Logging L c disk read pins lh) (hfits : Fits L lh)
    (hcopied : Copied L disk c.pending lh lh.length) (block : Block) :
    Installing L c.commit (Function.update disk L.start (Log.writeHead lh block))
      (Function.update read L.start (Log.writeHead lh block)) pins lh true 0 where
  head := by
    rw [Function.update_self]
    exact hfits.readHead_writeHead block
  copied i b hi hb := by
    rw [Function.update_of_ne (by omega)]
    exact hcopied i b hi hb
  disk_eq b hhome hset := by
    have hne : b ≠ L.start := by
      rintro rfl
      exact hfits.not_home_start hhome
    have hmem : b ∉ lh := by
      intro hmem
      obtain ⟨i, hi⟩ := List.mem_iff_getElem?.mp hmem
      exact absurd (hset i hi) (Nat.not_lt_zero i)
    rw [Function.update_of_ne hne, h.disk_eq b hhome, ← h.clean b hhome hmem]
    rfl
  read_eq b hhome _ := by
    have hne : b ≠ L.start := by
      rintro rfl
      exact hfits.not_home_start hhome
    rw [Function.update_of_ne hne, h.read_eq b hhome]
    rfl
  pending := rfl
  pinned _ i b _ hb := h.pinned b (List.mem_of_getElem? hb)

theorem Settled.of_succ {b : ℕ} (hset : Settled lh (tail + 1) b) (hb : lh[tail]? ≠ some b) :
    Settled lh tail b := by
  intro i hi
  have hlt := hset i hi
  have hne : i ≠ tail := by
    rintro rfl
    exact hb hi
  omega

/-- **`install_trans`**: one more block is copied home. -/
theorem Installing.install (h : Installing L c disk read pins lh cached tail) (hfits : Fits L lh)
    (hlog : ∀ b, ¬ L.Home b → read b = disk b) {b : ℕ} (hb : lh[tail]? = some b)
    (hpins : ∀ b', b' ≠ b → pins' b' = pins b') :
    Installing L c (Function.update disk b (read (L.start + tail + 1)))
      (Function.update read b (read (L.start + tail + 1))) pins' lh cached (tail + 1) := by
  have htail : tail < lh.length := (List.getElem?_eq_some_iff.mp hb).1
  have hhome : L.Home b := hfits.home b (List.mem_of_getElem? hb)
  have hv : read (L.start + tail + 1) = c.durable b :=
    (hlog _ (hfits.not_home_log htail)).trans (h.copied tail b htail hb)
  refine ⟨?_, fun i b' hi hb' => ?_, fun b' hhome' hset => ?_, fun b' hhome' hor => ?_, h.pending,
    fun hc i b' hi hb' => ?_⟩
  · rw [Function.update_of_ne, h.head]
    rintro rfl
    exact hfits.not_home_start hhome
  · rw [Function.update_of_ne, h.copied i b' hi hb']
    rintro rfl
    exact hfits.not_home_log hi hhome
  · by_cases heq : b' = b
    · subst heq
      rw [Function.update_self, hv]
    · rw [Function.update_of_ne heq]
      exact h.disk_eq b' hhome' (hset.of_succ fun hb' => heq (Option.some.inj (hb'.symm.trans hb)))
  · by_cases heq : b' = b
    · subst heq
      rw [Function.update_self, hv]
    · rw [Function.update_of_ne heq]
      refine h.read_eq b' hhome' (hor.imp_left fun hset => ?_)
      exact hset.of_succ fun hb' => heq (Option.some.inj (hb'.symm.trans hb))
  · have hne : b' ≠ b := by
      rintro rfl
      -- no block is in the log twice
      have hi' : i < lh.length := (List.getElem?_eq_some_iff.mp hb').1
      have heq : i = tail := (List.getElem?_inj hi' hfits.nodup).mp (hb'.trans hb.symm)
      omega
    rw [hpins b' hne]
    exact h.pinned hc i b' (by omega) hb'

theorem Installing.done (h : Installing L c disk read pins lh cached tail)
    (hle : lh.length ≤ tail) : Installing L c disk read pins lh cached lh.length := by
  have hset : ∀ b, Settled lh tail b := fun b i hi =>
    (List.getElem?_eq_some_iff.mp hi).1.trans_le hle
  refine { h with
    disk_eq := fun b hhome _ => h.disk_eq b hhome (hset b)
    read_eq := fun b hhome _ => h.read_eq b hhome (Or.inl (hset b))
    pinned := fun _ i b hi hb => ?_ }
  exact absurd (List.getElem?_eq_some_iff.mp hb).1 (Nat.not_lt.mpr hi)

/-- **The transaction is erased.** -/
theorem Installing.eraseHead (h : Installing L c disk read pins lh cached lh.length)
    (hfits : Fits L lh) (block : Block) :
    Logging L c (Function.update disk L.start (Log.writeHead [] block))
      (Function.update read L.start (Log.writeHead [] block)) pins [] := by
  have hne : ∀ b, L.Home b → b ≠ L.start := by
    rintro b hhome rfl
    exact hfits.not_home_start hhome
  have hset : ∀ b, Settled lh lh.length b := fun b i hi => (List.getElem?_eq_some_iff.mp hi).1
  refine ⟨?_, fun b hhome => ?_, fun b hhome => ?_, fun b _ _ => congrFun h.pending b,
    fun b hb => absurd hb List.not_mem_nil⟩
  · rw [Function.update_self]
    exact hfits.nil.readHead_writeHead block
  · rw [Function.update_of_ne (hne b hhome), h.disk_eq b hhome (hset b)]
  · rw [Function.update_of_ne (hne b hhome), h.read_eq b hhome (Or.inl (hset b)), h.pending]

theorem Booting.readHead (h : Booting L c disk read lh) (pins : ℕ → ℕ) :
    Installing L c disk read pins (Log.readHead (disk L.start)) false 0 := by
  have hfits : Fits L (Log.readHead (disk L.start)) := h.recoverable.valid
  have hdisk : ∀ b, L.Home b → Settled (Log.readHead (disk L.start)) 0 b →
      disk b = c.durable b := by
    intro b hhome hset
    have hmem : b ∉ Log.readHead (disk L.start) := by
      intro hmem
      obtain ⟨i, hi⟩ := List.mem_iff_getElem?.mp hmem
      exact absurd (hset i hi) (Nat.not_lt_zero i)
    rw [← recovered_of_notMem rfl hmem]
    exact h.recoverable.recovered_eq b hhome
  refine ⟨rfl, fun i b hi hb => ?_, hdisk, fun b hhome hor => ?_, h.pending,
    fun hc => absurd hc (by decide)⟩
  · rw [← recovered_of_mem rfl hfits hb]
    exact h.recoverable.recovered_eq b (hfits.home b (List.mem_of_getElem? hb))
  · rw [h.read_eq]
    exact hdisk b hhome (hor.resolve_right (by decide))

end Phases

/-! ### The invariant of a run -/

/-- The cache, the log and the disk agree with what has been written. -/
structure Agrees (L : Layout) (c : Versions ℕ Block) (s : State ι) : Prop where
  fits : Fits L s.lh
  /-- The blocks of the log are as they are on the disk. -/
  log_read : ∀ b, ¬ L.Home b → s.cache.read s.disk b = s.disk b
  stage : Stage L c s.disk (s.cache.read s.disk) s.cache.pins s.lh s.phase

section Agree

variable {c : Versions ℕ Block} {s s' : State ι}

/-- Nothing changes but for the threads. -/
theorem Agrees.congr (h : Agrees L c s) (hdisk : s'.disk = s.disk)
    (hread : s'.cache.read s'.disk = s.cache.read s.disk) (hpins : s'.cache.pins = s.cache.pins)
    (hlh : s'.lh = s.lh) (hphase : s'.phase = s.phase) : Agrees L c s' where
  fits := hlh ▸ h.fits
  log_read := by
    rw [hread, hdisk]
    exact h.log_read
  stage := by
    rw [hread, hdisk, hpins, hlh, hphase]
    exact h.stage

theorem Agrees.recycle (h : Agrees L c s) {b : ℕ} (hb : s.cache.pins b = 0) :
    Agrees L c { s with cache := s.cache.evict b } where
  fits := h.fits
  log_read b' hlog := by
    by_cases hb' : b' = b
    · subst hb'
      exact BlockCache.read_evict_self
    · exact (BlockCache.read_evict_of_ne hb').trans (h.log_read b' hlog)
  stage := h.stage.recycle hb BlockCache.read_evict_self
    (fun _ hb' => BlockCache.read_evict_of_ne hb') (fun _ hb' => BlockCache.pins_evict_of_ne hb')

theorem read_bread (s : State ι) (b : ℕ) :
    (bread s b).cache.read (bread s b).disk = s.cache.read s.disk := BlockCache.read_load

theorem pins_bread (s : State ι) (b : ℕ) : (bread s b).cache.pins = s.cache.pins :=
  BlockCache.pins_load

theorem read_bwrite (s : State ι) (b : ℕ) (v : Block) :
    (bwrite s b v).cache.read (bwrite s b v).disk = Function.update (s.cache.read s.disk) b v :=
  BlockCache.read_store_write v

theorem pins_bwrite (s : State ι) (b : ℕ) (v : Block) :
    (bwrite s b v).cache.pins = s.cache.pins := BlockCache.pins_store v

/-- A block that is written shows what is on the disk. -/
theorem log_read_update {disk read : ℕ → Block} (h : ∀ b, ¬ L.Home b → read b = disk b) (b : ℕ)
    (v : Block) : ∀ b', ¬ L.Home b' →
      Function.update read b v b' = Function.update disk b v b' := by
  intro b' hlog
  by_cases hb' : b' = b
  · subst hb'
    rw [Function.update_self, Function.update_self]
  · rw [Function.update_of_ne hb', Function.update_of_ne hb', h b' hlog]

/-- `log_write`, of a block that is in the log already. -/
theorem Agrees.absorb [DecidableEq ι] (h : Agrees L c s) (hidle : s.phase = .idle)
    (hstage : Logging L c s.disk (s.cache.read s.disk) s.cache.pins s.lh) {b : ℕ} {v : Block}
    (hb : L.Home b) (hmem : b ∈ s.lh) :
    Agrees L (c.write b v) { s with cache := s.cache.store s.disk b v } := by
  have hread : (s.cache.store s.disk b v).read s.disk = Function.update (s.cache.read s.disk) b v :=
    BlockCache.read_store v
  have hpins : (s.cache.store s.disk b v).pins = s.cache.pins := BlockCache.pins_store v
  refine ⟨h.fits, fun b' hb' => ?_, ?_⟩
  · show (s.cache.store s.disk b v).read s.disk b' = s.disk b'
    rw [hread, Function.update_of_ne, h.log_read b' hb']
    rintro rfl
    exact hb' hb
  · dsimp only
    rw [hread, hpins, hidle]
    refine hstage.write v (fun _ => id) (fun b' => ?_) (hstage.pinned b hmem)
    constructor
    · exact Or.inl
    · rintro (hmem' | rfl)
      · exact hmem'
      · exact hmem

/-- `log_write`, of a block that is new in the log. -/
theorem Agrees.log [DecidableEq ι] (h : Agrees L c s) (hidle : s.phase = .idle)
    (hstage : Logging L c s.disk (s.cache.read s.disk) s.cache.pins s.lh) {b : ℕ} {v : Block}
    (hb : L.Home b) (hroom : Room L s) (hmem : b ∉ s.lh) :
    Agrees L (c.write b v) { s with
      cache := (s.cache.store s.disk b v).pin s.disk b
      lh := s.lh ++ [b] } := by
  have hread : ((s.cache.store s.disk b v).pin s.disk b).read s.disk =
      Function.update (s.cache.read s.disk) b v := by
    rw [BlockCache.read_pin]
    exact BlockCache.read_store v
  obtain ⟨hlog, hsize⟩ := hroom
  refine ⟨⟨?_, fun b' hb' => ?_, ?_, ?_⟩, fun b' hb' => ?_, ?_⟩
  · refine List.nodup_append.mpr ⟨h.fits.nodup, List.nodup_singleton b, ?_⟩
    rintro b' hb' _ hsingle rfl
    exact hmem (List.mem_singleton.mp hsingle ▸ hb')
  · rcases List.mem_append.mp hb' with hb' | hb'
    · exact h.fits.home b' hb'
    · exact List.mem_singleton.mp hb' ▸ hb
  · dsimp only
    rw [List.length_append, List.length_singleton]
    omega
  · dsimp only
    rw [List.length_append, List.length_singleton]
    omega
  · show ((s.cache.store s.disk b v).pin s.disk b).read s.disk b' = s.disk b'
    rw [hread, Function.update_of_ne, h.log_read b' hb']
    rintro rfl
    exact hb' hb
  · dsimp only
    rw [hread, hidle]
    refine hstage.write v (fun b' hpos => ?_) (fun b' => ?_) BlockCache.pins_pin_self
    · by_cases hb' : b' = b
      · subst hb'
        exact BlockCache.pins_pin_self
      · rw [BlockCache.pins_pin_of_ne hb', BlockCache.pins_store]
        exact hpos
    · rw [List.mem_append, List.mem_singleton]

/-! ### The steps of `commit` and of `initlog` -/

theorem agrees_writeLogBlock (h : Agrees L c s) {t : ι} {tail b : ℕ}
    (hphase : s.phase = .writeLog t tail) (hb : s.lh[tail]? = some b) :
    Agrees L c { writeLogBlock L s tail b with phase := .writeLog t (tail + 1) } := by
  have hstage := h.stage
  rw [hphase] at hstage
  have hread : (writeLogBlock L s tail b).cache.read (writeLogBlock L s tail b).disk =
      Function.update (s.cache.read s.disk) (L.start + tail + 1) (s.cache.read s.disk b) := by
    rw [writeLogBlock, read_bwrite, read_bread]
  have hpins : (writeLogBlock L s tail b).cache.pins = s.cache.pins := by
    rw [writeLogBlock, pins_bwrite, pins_bread]
  refine ⟨h.fits, ?_, ?_⟩
  · show ∀ b', ¬ L.Home b' → (writeLogBlock L s tail b).cache.read _ b' = _
    rw [hread]
    exact log_read_update h.log_read _ _
  · show Stage L c _ ((writeLogBlock L s tail b).cache.read (writeLogBlock L s tail b).disk)
      (writeLogBlock L s tail b).cache.pins s.lh (.writeLog t (tail + 1))
    rw [hread, hpins]
    exact hstage.1.writeLog h.fits hstage.2 hb

theorem agrees_writeHeadBlock (h : Agrees L c s) {t : ι} (hphase : s.phase = .writeHead t) :
    Agrees L c.commit { writeHeadBlock L s with phase := .installTrans (some t) 0 } := by
  have hstage := h.stage
  rw [hphase] at hstage
  refine ⟨h.fits, ?_, ?_⟩
  · show ∀ b', ¬ L.Home b' → (writeHeadBlock L s).cache.read _ b' = _
    rw [writeHeadBlock, read_bwrite]
    exact log_read_update h.log_read _ _
  · show Stage L c.commit _ ((writeHeadBlock L s).cache.read (writeHeadBlock L s).disk)
      (writeHeadBlock L s).cache.pins s.lh (.installTrans (some t) 0)
    rw [writeHeadBlock, read_bwrite, pins_bwrite]
    exact hstage.1.writeHead h.fits hstage.2 _

theorem read_installBlock (L : Layout) (s : State ι) (who : Option ι) (tail b : ℕ) :
    (installBlock L s who tail b).cache.read (installBlock L s who tail b).disk =
      Function.update (s.cache.read s.disk) b (s.cache.read s.disk (L.start + tail + 1)) := by
  rw [installBlock]
  cases who with
  | none => exact (read_bwrite _ _ _).trans (by rw [read_bread])
  | some t => exact BlockCache.read_unpin.trans ((read_bwrite _ _ _).trans (by rw [read_bread]))

theorem pins_installBlock {who : Option ι} {tail b b' : ℕ} (hb : b' ≠ b) :
    (installBlock L s who tail b).cache.pins b' = s.cache.pins b' := by
  rw [installBlock]
  cases who with
  | none => exact congrFun ((pins_bwrite _ _ _).trans (pins_bread _ _)) b'
  | some t =>
    exact (BlockCache.pins_unpin_of_ne hb).trans
      (congrFun ((pins_bwrite _ _ _).trans (pins_bread _ _)) b')

theorem agrees_installBlock (h : Agrees L c s) {who : Option ι} {tail b : ℕ}
    (hphase : s.phase = .installTrans who tail) (hb : s.lh[tail]? = some b) :
    Agrees L c { installBlock L s who tail b with phase := .installTrans who (tail + 1) } := by
  have hstage := h.stage
  rw [hphase] at hstage
  have hlh : (installBlock L s who tail b).lh = s.lh := by
    rw [installBlock]
    cases who <;> rfl
  have hdisk : (installBlock L s who tail b).disk =
      Function.update s.disk b (s.cache.read s.disk (L.start + tail + 1)) := by
    rw [installBlock]
    cases who <;> rfl
  refine ⟨?_, ?_, ?_⟩
  · show Fits L (installBlock L s who tail b).lh
    rw [hlh]
    exact h.fits
  · show ∀ b', ¬ L.Home b' → (installBlock L s who tail b).cache.read _ b' = _
    rw [read_installBlock, hdisk]
    exact log_read_update h.log_read _ _
  · show Stage L c (installBlock L s who tail b).disk
      ((installBlock L s who tail b).cache.read (installBlock L s who tail b).disk)
      (installBlock L s who tail b).cache.pins (installBlock L s who tail b).lh
      (.installTrans who (tail + 1))
    rw [read_installBlock, hdisk, hlh]
    exact Installing.install hstage h.fits h.log_read hb fun b' hb' => pins_installBlock hb'

theorem agrees_eraseHead (h : Agrees L c s) {who : Option ι} (hphase : s.phase = .eraseHead who)
    {phase : Phase ι} (hnext : ∀ disk read pins, Logging L c disk read pins [] →
      Stage L c disk read pins [] phase) :
    Agrees L c { writeHeadBlock L { s with lh := [] } with phase := phase } := by
  have hstage := h.stage
  rw [hphase] at hstage
  refine ⟨h.fits.nil, ?_, ?_⟩
  · show ∀ b', ¬ L.Home b' → (writeHeadBlock L { s with lh := [] }).cache.read _ b' = _
    rw [writeHeadBlock, read_bwrite]
    exact log_read_update h.log_read _ _
  · show Stage L c _ ((writeHeadBlock L { s with lh := [] }).cache.read
      (writeHeadBlock L { s with lh := [] }).disk) _ [] phase
    rw [writeHeadBlock, read_bwrite, pins_bwrite]
    exact hnext _ _ _ (Installing.eraseHead hstage h.fits _)

theorem agrees_readHead (h : Agrees L c s) (hphase : s.phase = .readHead) :
    Agrees L c { bread s L.start with
      lh := readHead (s.cache.read s.disk L.start)
      phase := .installTrans none 0 } := by
  have hstage := h.stage
  rw [hphase] at hstage
  have hread : s.cache.read s.disk = s.disk := Booting.read_eq hstage
  refine ⟨?_, ?_, ?_⟩
  · show Fits L (readHead (s.cache.read s.disk L.start))
    rw [hread]
    exact (Booting.recoverable hstage).valid
  · show ∀ b', ¬ L.Home b' → (bread s L.start).cache.read (bread s L.start).disk b' = _
    rw [read_bread]
    exact h.log_read
  · show Stage L c s.disk ((bread s L.start).cache.read (bread s L.start).disk)
      (bread s L.start).cache.pins (readHead (s.cache.read s.disk L.start)) (.installTrans none 0)
    rw [read_bread, pins_bread, hread]
    have hinst := hstage.readHead s.cache.pins
    rw [hread] at hinst
    exact hinst

end Agree

end Log

end Xv6

end SystemProgramming
