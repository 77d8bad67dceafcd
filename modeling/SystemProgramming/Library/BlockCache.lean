import Mathlib.Data.Nat.Notation
import Mathlib.Logic.Function.Basic

/-!
# A cache of blocks

The blocks of a disk that have a copy in memory. A thread that works on a copy holds it; a copy can
also be pinned, so that it stays where it is although nobody holds it. A copy that is neither held
nor pinned may be thrown away at any time, and with it what has been changed in it.

## What the cache is for

The contents of a block are those of its copy if it has one, and those on the disk if it has none:
`read` is this view, and all that the users of a cache should have to know. Making a copy, holding
it and pinning it leave the view alone; a store changes it at one block. Only throwing a copy away
can do damage, and only if the copy differs from the disk.

So there is one thing to keep up, `Keeps`: a copy that may be thrown away is on the disk. It is an
obligation of the users, who have to write a block or pin it before they let go of it, and not of
the cache, which knows nothing of what has been changed. `Move.keeps` takes it as a hypothesis about
the last user.

## Why one update

All operations but `evict` change fields of one copy, which is made if there is none. They are
`update` at a function of the copy, and what they do to contents, pins and holders follows from
what the function does to the fields (`read_update_of_data`, `pins_update_of_pins`,
`holder_update_of_holder`).

## Main definitions

* `CachedBlock`, `BlockCache` — the copies of blocks in memory
* `BlockCache.read` — what a thread finds in a block
* `BlockCache.load`, `hold`, `release`, `store`, `pin`, `unpin`, `evict` — the operations
* `BlockCache.Move`, `Keeps` — the rules for their use

## Main results

* `read_load`, ..., `read_evict_self` — what they do to the contents of the blocks
* `Move.read`, `Move.keeps` — under the rules, a block contains what has been stored in it last
-/

namespace SystemProgramming

/-- A copy of a block: its contents, who holds it, and how often it has been pinned. -/
structure CachedBlock (β ι : Type*) where
  data : β
  holder : Option ι
  pins : ℕ

/-- The blocks that have a copy. -/
abbrev BlockCache (κ β ι : Type*) := κ → Option (CachedBlock β ι)

namespace BlockCache

variable {κ β ι : Type*}

/-- The contents of a block: those of its copy, if it has one. -/
def read (c : BlockCache κ β ι) (disk : κ → β) (b : κ) : β :=
  match c b with
  | some copy => copy.data
  | none => disk b

/-- Who holds the block. -/
def holder (c : BlockCache κ β ι) (b : κ) : Option ι := (c b).bind CachedBlock.holder

/-- How often the block has been pinned. -/
def pins (c : BlockCache κ β ι) (b : κ) : ℕ :=
  match c b with
  | some copy => copy.pins
  | none => 0

/-- The contents of a copy, found in it or on the disk. -/
theorem data_getD (c : BlockCache κ β ι) (disk : κ → β) (b : κ) :
    ((c b).getD ⟨disk b, none, 0⟩).data = c.read disk b := by
  rw [read]
  cases c b <;> rfl

theorem holder_getD (c : BlockCache κ β ι) (disk : κ → β) (b : κ) :
    ((c b).getD ⟨disk b, none, 0⟩).holder = c.holder b := by
  rw [holder]
  cases c b <;> rfl

theorem pins_getD (c : BlockCache κ β ι) (disk : κ → β) (b : κ) :
    ((c b).getD ⟨disk b, none, 0⟩).pins = c.pins b := by
  rw [pins]
  cases c b <;> rfl

/-- What is written to a block is not seen where there is a copy. -/
theorem read_of_disk_eq {c : BlockCache κ β ι} {disk disk' : κ → β} {b : κ}
    (h : disk b = disk' b) : c.read disk b = c.read disk' b := by
  rw [read, read]
  cases c b with
  | none => exact h
  | some copy => rfl

variable [DecidableEq κ]

/-- The copy of a block, made if there is none, with other fields. -/
def update (c : BlockCache κ β ι) (disk : κ → β) (b : κ) (f : CachedBlock β ι → CachedBlock β ι) :
    BlockCache κ β ι :=
  Function.update c b (some (f ((c b).getD ⟨disk b, none, 0⟩)))

/-- A copy is made if there is none. -/
def load (c : BlockCache κ β ι) (disk : κ → β) (b : κ) : BlockCache κ β ι :=
  c.update disk b id

/-- Thread `t` gets hold of a block. -/
def hold (c : BlockCache κ β ι) (disk : κ → β) (t : ι) (b : κ) : BlockCache κ β ι :=
  c.update disk b fun copy => { copy with holder := some t }

/-- The block is let go. -/
def release (c : BlockCache κ β ι) (disk : κ → β) (b : κ) : BlockCache κ β ι :=
  c.update disk b fun copy => { copy with holder := none }

/-- The contents of the copy are changed. -/
def store (c : BlockCache κ β ι) (disk : κ → β) (b : κ) (v : β) : BlockCache κ β ι :=
  c.update disk b fun copy => { copy with data := v }

/-- The copy has to stay. -/
def pin (c : BlockCache κ β ι) (disk : κ → β) (b : κ) : BlockCache κ β ι :=
  c.update disk b fun copy => { copy with pins := copy.pins + 1 }

/-- The copy need not stay any more. -/
def unpin (c : BlockCache κ β ι) (disk : κ → β) (b : κ) : BlockCache κ β ι :=
  c.update disk b fun copy => { copy with pins := copy.pins - 1 }

/-- The copy is thrown away. -/
def evict (c : BlockCache κ β ι) (b : κ) : BlockCache κ β ι := Function.update c b none

section Update

variable {c : BlockCache κ β ι} {disk disk' : κ → β} {b b' : κ}
  {f : CachedBlock β ι → CachedBlock β ι}

@[simp] theorem update_self : c.update disk b f b = some (f ((c b).getD ⟨disk b, none, 0⟩)) :=
  Function.update_self ..

theorem update_of_ne (h : b' ≠ b) : c.update disk b f b' = c b' := Function.update_of_ne h ..

theorem update_of_some {copy : CachedBlock β ι} (h : c b = some copy) :
    c.update disk b f = Function.update c b (some (f copy)) := by
  rw [update, h, Option.getD_some]

theorem update_of_none (h : c b = none) :
    c.update disk b f = Function.update c b (some (f ⟨disk b, none, 0⟩)) := by
  rw [update, h, Option.getD_none]

/-- Other fields do not matter for the contents. -/
theorem read_update_of_data (hf : ∀ copy, (f copy).data = copy.data) :
    (c.update disk b f).read disk = c.read disk := by
  funext b'
  by_cases hb : b' = b
  · subst hb
    have hread : (c.update disk b' f).read disk b' = (f ((c b').getD ⟨disk b', none, 0⟩)).data := by
      rw [read, update_self]
    rw [hread, hf, data_getD]
  · rw [read, update_of_ne hb, read]

@[simp] theorem read_load : (c.load disk b).read disk = c.read disk :=
  read_update_of_data fun _ => rfl

@[simp] theorem read_hold (t : ι) : (c.hold disk t b).read disk = c.read disk :=
  read_update_of_data fun _ => rfl

@[simp] theorem read_release : (c.release disk b).read disk = c.read disk :=
  read_update_of_data fun _ => rfl

@[simp] theorem read_pin : (c.pin disk b).read disk = c.read disk :=
  read_update_of_data fun _ => rfl

@[simp] theorem read_unpin : (c.unpin disk b).read disk = c.read disk :=
  read_update_of_data fun _ => rfl

theorem read_store (v : β) :
    (c.store disk b v).read disk = Function.update (c.read disk) b v := by
  funext b'
  by_cases hb : b' = b
  · subst hb
    rw [Function.update_self, store, read, update_self]
  · rw [Function.update_of_ne hb, store, read, update_of_ne hb, read]

/-- The contents of a copy are written to the block. -/
theorem read_store_write (v : β) : (c.store disk b v).read (Function.update disk b v) =
    Function.update (c.read disk) b v := by
  funext b'
  rw [← read_store]
  by_cases hb : b' = b
  · subst hb
    rw [store, read, read, update_self]
  · exact read_of_disk_eq (Function.update_of_ne hb v disk)

theorem read_evict_of_ne (h : b' ≠ b) : (c.evict b).read disk b' = c.read disk b' := by
  rw [read, evict, Function.update_of_ne h, read]

theorem read_evict_self : (c.evict b).read disk b = disk b := by
  rw [read, evict, Function.update_self]

theorem pins_update_self :
    (c.update disk b f).pins b = (f ((c b).getD ⟨disk b, none, 0⟩)).pins := by
  rw [pins, update_self]

theorem pins_update_of_ne (h : b' ≠ b) : (c.update disk b f).pins b' = c.pins b' := by
  rw [pins, update_of_ne h, pins]

/-- Other fields do not matter for the pins. -/
theorem pins_update_of_pins (hf : ∀ copy, (f copy).pins = copy.pins) :
    (c.update disk b f).pins = c.pins := by
  funext b'
  by_cases hb : b' = b
  · subst hb
    rw [pins_update_self, hf, pins_getD]
  · exact pins_update_of_ne hb

@[simp] theorem pins_load : (c.load disk b).pins = c.pins :=
  pins_update_of_pins fun _ => rfl

@[simp] theorem pins_hold (t : ι) : (c.hold disk t b).pins = c.pins :=
  pins_update_of_pins fun _ => rfl

@[simp] theorem pins_release : (c.release disk b).pins = c.pins :=
  pins_update_of_pins fun _ => rfl

@[simp] theorem pins_store (v : β) : (c.store disk b v).pins = c.pins :=
  pins_update_of_pins fun _ => rfl

/-- Other fields do not matter for who holds a block. -/
theorem holder_update_of_holder (hf : ∀ copy, (f copy).holder = copy.holder) :
    (c.update disk b f).holder = c.holder := by
  funext b'
  by_cases hb : b' = b
  · subst hb
    rw [holder, update_self, Option.bind_some, hf, holder_getD]
  · rw [holder, update_of_ne hb, holder]

@[simp] theorem holder_load : (c.load disk b).holder = c.holder :=
  holder_update_of_holder fun _ => rfl

@[simp] theorem holder_store (v : β) : (c.store disk b v).holder = c.holder :=
  holder_update_of_holder fun _ => rfl

theorem pins_unpin_of_ne (h : b' ≠ b) : (c.unpin disk b).pins b' = c.pins b' :=
  pins_update_of_ne h

theorem pins_pin_self : 0 < (c.pin disk b).pins b := by
  rw [pin, pins_update_self]
  exact Nat.succ_pos _

theorem pins_pin_of_ne (h : b' ≠ b) : (c.pin disk b).pins b' = c.pins b' := pins_update_of_ne h

theorem pins_evict_of_ne (h : b' ≠ b) : (c.evict b).pins b' = c.pins b' := by
  rw [pins, evict, Function.update_of_ne h, pins]

@[simp] theorem holder_pin : (c.pin disk b).holder = c.holder :=
  holder_update_of_holder fun _ => rfl

@[simp] theorem holder_unpin : (c.unpin disk b).holder = c.holder :=
  holder_update_of_holder fun _ => rfl

theorem holder_hold_self (t : ι) : (c.hold disk t b).holder b = some t := by
  rw [hold, holder, update_self]
  rfl

theorem holder_hold_of_ne (h : b' ≠ b) (t : ι) : (c.hold disk t b).holder b' = c.holder b' := by
  rw [hold, holder, update_of_ne h, holder]

theorem holder_release_of_ne (h : b' ≠ b) : (c.release disk b).holder b' = c.holder b' := by
  rw [release, holder, update_of_ne h, holder]

theorem holder_evict_of_ne (h : b' ≠ b) : (c.evict b).holder b' = c.holder b' := by
  rw [evict, holder, Function.update_of_ne h, holder]

end Update

/-! ### What the users can rely on -/

/-- What the users of a cache do, and the cache by itself. -/
inductive Op (κ β ι : Type*)
  | stay
  | hold (t : ι) (b : κ)
  | store (t : ι) (b : κ) (v : β)
  | write (t : ι) (b : κ)
  | pin (t : ι) (b : κ)
  | unpin (t : ι) (b : κ)
  | release (t : ι) (b : κ)
  | evict (b : κ)

/-- The cache and the disk before and after. Who works on a block holds it, and what is held or
pinned stays. -/
inductive Move (c : BlockCache κ β ι) (disk : κ → β) :
    Op κ β ι → BlockCache κ β ι → (κ → β) → Prop
  | stay : Move c disk .stay c disk
  | hold {t b} (h : c.holder b = none) : Move c disk (.hold t b) (c.hold disk t b) disk
  | store {t b v} (h : c.holder b = some t) : Move c disk (.store t b v) (c.store disk b v) disk
  | write {t b} (h : c.holder b = some t) :
      Move c disk (.write t b) c (Function.update disk b (c.read disk b))
  | pin {t b} (h : c.holder b = some t) : Move c disk (.pin t b) (c.pin disk b) disk
  | unpin {t b} (h : c.holder b = some t) : Move c disk (.unpin t b) (c.unpin disk b) disk
  | release {t b} (h : c.holder b = some t) : Move c disk (.release t b) (c.release disk b) disk
  | evict {b} (hholder : c.holder b = none) (hpins : c.pins b = 0) :
      Move c disk (.evict b) (c.evict b) disk

/-- Only a store changes what the blocks contain. -/
def Op.contents (op : Op κ β ι) (contents : κ → β) : κ → β :=
  match op with
  | .store _ b v => Function.update contents b v
  | _ => contents

/-- What is neither held nor pinned is on the disk. -/
def Keeps (c : BlockCache κ β ι) (disk : κ → β) : Prop :=
  ∀ b, c.holder b = none → c.pins b = 0 → c.read disk b = disk b

section Moves

variable {c c' : BlockCache κ β ι} {disk disk' : κ → β} {op : Op κ β ι} {b : κ}

/-- What is written is what the block contains. -/
theorem read_write : c.read (Function.update disk b (c.read disk b)) = c.read disk := by
  funext b'
  by_cases hb : b' = b
  · subst hb
    cases hc : c b' with
    | none => simp only [read, hc, Function.update_self]
    | some copy => simp only [read, hc]
  · exact read_of_disk_eq (Function.update_of_ne hb ..)

/-- **What is lost is on the disk**: as long as a cache keeps what is not, its blocks contain what
has been stored in them last. -/
theorem Move.read (h : Move c disk op c' disk') (hkeeps : c.Keeps disk) :
    c'.read disk' = op.contents (c.read disk) := by
  cases h with
  | stay => rfl
  | hold h => exact read_hold _
  | store h => exact read_store _
  | write h => exact read_write
  | pin h => exact read_pin
  | unpin h => exact read_unpin
  | release h => exact read_release
  | @evict b hholder hpins =>
    funext b'
    by_cases hb : b' = b
    · subst hb
      rw [read_evict_self]
      exact (hkeeps b' hholder hpins).symm
    · exact read_evict_of_ne hb

omit [DecidableEq κ] in
/-- A block that is held is none that is not. -/
theorem ne_of_holder {b' : κ} {t : ι} (h : c.holder b = some t) (h' : c.holder b' = none) :
    b' ≠ b := by
  rintro rfl
  rw [h] at h'
  cases h'

/-- A cache keeps what is not on the disk, if nobody lets go of a block that is neither written nor
pinned. -/
theorem Move.keeps (h : Move c disk op c' disk') (hkeeps : c.Keeps disk)
    (hrelease : ∀ t b, op = .release t b → 0 < c.pins b ∨ c.read disk b = disk b) :
    c'.Keeps disk' := by
  cases h with
  | stay => exact hkeeps
  | @hold t b h =>
    intro b' hholder hpins
    have hb := ne_of_holder (holder_hold_self t) hholder
    rw [holder_hold_of_ne hb] at hholder
    rw [pins_hold] at hpins
    rw [read_hold]
    exact hkeeps b' hholder hpins
  | @store t b v h =>
    intro b' hholder hpins
    rw [holder_store] at hholder
    rw [pins_store] at hpins
    have hb := ne_of_holder h hholder
    rw [read_store, Function.update_of_ne hb]
    exact hkeeps b' hholder hpins
  | @write t b h =>
    intro b' hholder hpins
    have hb := ne_of_holder h hholder
    rw [read_write, Function.update_of_ne hb]
    exact hkeeps b' hholder hpins
  | @pin t b h =>
    intro b' hholder hpins
    rw [holder_pin] at hholder
    have hb := ne_of_holder h hholder
    rw [pins_pin_of_ne hb] at hpins
    rw [read_pin]
    exact hkeeps b' hholder hpins
  | @unpin t b h =>
    intro b' hholder hpins
    rw [holder_unpin] at hholder
    have hb := ne_of_holder h hholder
    rw [pins_unpin_of_ne hb] at hpins
    rw [read_unpin]
    exact hkeeps b' hholder hpins
  | @release t b h =>
    intro b' hholder hpins
    rw [pins_release] at hpins
    rw [read_release]
    by_cases hb : b' = b
    · subst hb
      exact (hrelease t b' rfl).resolve_left (by rw [hpins]; exact Nat.lt_irrefl 0)
    · rw [holder_release_of_ne hb] at hholder
      exact hkeeps b' hholder hpins
  | @evict b hholder hpins =>
    intro b' hholder' hpins'
    by_cases hb : b' = b
    · subst hb
      exact read_evict_self
    · rw [holder_evict_of_ne hb] at hholder'
      rw [pins_evict_of_ne hb] at hpins'
      rw [read_evict_of_ne hb]
      exact hkeeps b' hholder' hpins'

end Moves

end BlockCache

end SystemProgramming
