import SystemProgramming.Library.CString

/-!
# Broadcasting

`lab4-lyjae/broadcaster.c`: a message is written to every terminal of `/dev/pts`. What the program
does is recorded as the list of its `write` calls, each with the device and the bytes.

## What is left out

`readdir` lists the names of `/dev/pts` in any order, and each device can be opened or not. The
message is formatted once, with `snprintf` and its limit, and written to every device that was
opened; what a terminal shows of it is not looked at, and a `write` accepts what it accepts.

## Main definitions

* `main` — the program, on the names that `readdir` delivers and the devices that can be opened
* `expected` — what each terminal is to be sent

## Main results

* `sent_eq` — the devices that are written to
* `sent_eq_expected` — the same, where everything fits
* `broadcast_iff` — when every terminal is sent the whole message, once
-/

namespace SystemProgramming

namespace Broadcaster

/-- The size of `formatted_msg`. -/
def messageSize : ℕ := 1024

def maxPathLen : ℕ := 256

def ptsPath : List UInt8 := ascii "/dev/pts"

/-- What `"[Broadcast] %s\\n"` prints. -/
def broadcast (message : List UInt8) : List UInt8 := ascii "[Broadcast] " ++ message ++ [10]

/-- The path of a name in `/dev/pts`. -/
def device (name : List UInt8) : List UInt8 := ptsPath ++ ascii "/" ++ name

def formattedMsg (message : List UInt8) : List UInt8 := snprintf messageSize (broadcast message)

def ptsDevice (name : List UInt8) : List UInt8 := snprintf maxPathLen (device name)

/-- The loop that sets `is_numeric`. -/
def isNumeric : List UInt8 → Bool
  | [] => true
  | c :: name => if !isdigit c then false else isNumeric name

/-- `while ((entry = readdir(dir)) != NULL)`: the `write` calls. `opens` tells which paths can be
opened for writing. -/
def sent (formatted : List UInt8) (opens : List UInt8 → Bool) :
    List (List UInt8) → List (List UInt8 × List UInt8)
  | [] => []
  | name :: names =>
    if name = ascii "." ∨ name = ascii ".." then sent formatted opens names
    else if !isNumeric name then sent formatted opens names
    else if !opens (ptsDevice name) then sent formatted opens names
    else (ptsDevice name, formatted) :: sent formatted opens names

/-- `main`, from a message and what `opendir` and `readdir` make of `/dev/pts`: the exit status and
the `write` calls. -/
def main (message : List UInt8) (dir : Option (List (List UInt8))) (opens : List UInt8 → Bool) :
    ℕ × List (List UInt8 × List UInt8) :=
  match dir with
  | none => (1, [])
  | some names => (0, sent (formattedMsg message) opens names)

/-- Each entry that consists of digits and can be opened, and the whole message. -/
def expected (message : List UInt8) (names : List (List UInt8)) (opens : List UInt8 → Bool) :
    List (List UInt8 × List UInt8) :=
  (names.filter fun name => name.all isdigit && opens (device name)).map fun name =>
    (device name, broadcast message)

/-! ### The devices that are written to -/

section Sent

variable {message formatted name : List UInt8} {names : List (List UInt8)}
  {opens : List UInt8 → Bool}

theorem isNumeric_eq_all : ∀ name : List UInt8, isNumeric name = name.all isdigit := by
  intro name
  induction name with
  | nil => rfl
  | cons c name ih =>
    rw [isNumeric, List.all_cons, ih]
    cases isdigit c <;> rfl

/-- The two entries for directories are not numeric. -/
theorem isNumeric_dot (h : name = ascii "." ∨ name = ascii "..") : isNumeric name = false := by
  rcases h with rfl | rfl <;> rfl

/-- **The loop** goes over the entries one by one. -/
theorem sent_eq (formatted : List UInt8) (opens : List UInt8 → Bool) (names : List (List UInt8)) :
    sent formatted opens names =
      (names.filter fun name => name.all isdigit && opens (ptsDevice name)).map fun name =>
        (ptsDevice name, formatted) := by
  induction names with
  | nil => rfl
  | cons name names ih =>
    rw [sent, List.filter_cons, ← isNumeric_eq_all, ih]
    by_cases hdot : name = ascii "." ∨ name = ascii ".."
    · rw [if_pos hdot, isNumeric_dot hdot]
      rfl
    · rw [if_neg hdot]
      cases isNumeric name with
      | false => rfl
      | true =>
        cases opens (ptsDevice name) with
        | false => rfl
        | true => rfl

theorem formattedMsg_eq_iff :
    formattedMsg message = broadcast message ↔ (broadcast message).length < messageSize := by
  rw [formattedMsg, snprintf, List.take_eq_self_iff, messageSize]
  omega

theorem ptsDevice_eq (h : (device name).length < maxPathLen) : ptsDevice name = device name :=
  snprintf_eq_self h

theorem length_ptsDevice_lt (name : List UInt8) : (ptsDevice name).length < maxPathLen := by
  rw [ptsDevice, snprintf, List.length_take, maxPathLen]
  omega

/-- What has to hold of an entry: with a path that `pts_device` has room for, the message has to fit
too if the device can be opened; with a longer one, nothing must be there to be opened, neither
under the path nor under what is left of it. -/
structure Fits (message : List UInt8) (opens : List UInt8 → Bool) (name : List UInt8) : Prop where
  message_lt : (device name).length < maxPathLen → opens (device name) = true →
    (broadcast message).length < messageSize
  not_opens : maxPathLen ≤ (device name).length →
    opens (device name) = false ∧ opens (ptsDevice name) = false

/-- Then the device that is opened is the right one. -/
theorem Fits.opens_eq (h : Fits message opens name) :
    opens (ptsDevice name) = opens (device name) := by
  rcases Nat.lt_or_ge (device name).length maxPathLen with hlt | hge
  · rw [ptsDevice_eq hlt]
  · obtain ⟨hfull, hcut⟩ := h.not_opens hge
    rw [hfull, hcut]

theorem Fits.length_lt (h : Fits message opens name) (hopens : opens (device name) = true) :
    (device name).length < maxPathLen := by
  by_contra hge
  exact absurd (hopens.symm.trans (h.not_opens (Nat.le_of_not_lt hge)).1) (by decide)

theorem sent_eq_expected (h : ∀ name ∈ names, name.all isdigit = true → Fits message opens name) :
    sent (formattedMsg message) opens names = expected message names opens := by
  have hfilter : (names.filter fun name => name.all isdigit && opens (ptsDevice name)) =
      names.filter fun name => name.all isdigit && opens (device name) := by
    refine List.filter_congr ?_
    intro name hname
    cases hdigits : name.all isdigit with
    | false => rfl
    | true => exact congrArg (true && ·) (h name hname hdigits).opens_eq
  rw [sent_eq, expected, hfilter]
  refine List.map_congr_left ?_
  intro name hname
  obtain ⟨hmem, hboth⟩ := List.mem_filter.mp hname
  obtain ⟨hdigits, hopens⟩ := Bool.and_eq_true_iff.mp hboth
  have hfits := h name hmem hdigits
  have hlt := hfits.length_lt hopens
  rw [ptsDevice_eq hlt, formattedMsg_eq_iff.mpr (hfits.message_lt hlt hopens)]

theorem mem_expected {entry : List UInt8 × List UInt8} : entry ∈ expected message names opens ↔
    ∃ name ∈ names, name.all isdigit = true ∧ opens (device name) = true ∧
      (device name, broadcast message) = entry := by
  simp [expected, and_assoc]

theorem mem_sent {entry : List UInt8 × List UInt8} : entry ∈ sent formatted opens names ↔
    ∃ name ∈ names, name.all isdigit = true ∧ opens (ptsDevice name) = true ∧
      (ptsDevice name, formatted) = entry := by
  simp [sent_eq, and_assoc]

/-- No device whose path is cut off can be opened. -/
theorem lt_of_perm
    (h : (sent (formattedMsg message) opens names).Perm (expected message names opens))
    (hmem : name ∈ names) (hdigits : name.all isdigit = true)
    (hopens : opens (device name) = true) : (device name).length < maxPathLen := by
  have hsent := h.mem_iff.mpr (mem_expected.mpr ⟨name, hmem, hdigits, hopens, rfl⟩)
  obtain ⟨other, -, -, -, heq⟩ := mem_sent.mp hsent
  rw [← (Prod.mk.inj heq).1]
  exact length_ptsDevice_lt other

/-- As many devices are opened under the path in the buffer as under the whole path, and the second
are among the first. -/
theorem opens_of_perm
    (h : (sent (formattedMsg message) opens names).Perm (expected message names opens))
    (hmem : name ∈ names) (hdigits : name.all isdigit = true)
    (hopens : opens (ptsDevice name) = true) : opens (device name) = true := by
  have hwhole : (names.filter fun name => name.all isdigit && opens (device name)) =
      (names.filter fun name => name.all isdigit && opens (ptsDevice name)).filter
        fun name => name.all isdigit && opens (device name) := by
    rw [List.filter_filter]
    refine List.filter_congr ?_
    intro other hother
    cases hboth : other.all isdigit && opens (device other) with
    | false => rfl
    | true =>
      obtain ⟨hdigits', hopens'⟩ := Bool.and_eq_true_iff.mp hboth
      rw [ptsDevice_eq (lt_of_perm h hother hdigits' hopens'), hboth]
      rfl
  have hlength := h.length_eq
  rw [sent_eq, expected, List.length_map, List.length_map] at hlength
  have hsame := List.Sublist.eq_of_length (hwhole ▸ List.filter_sublist) hlength.symm
  have hin : name ∈ names.filter fun name => name.all isdigit && opens (device name) := by
    rw [hsame]
    exact List.mem_filter.mpr ⟨hmem, Bool.and_eq_true_iff.mpr ⟨hdigits, hopens⟩⟩
  exact (Bool.and_eq_true_iff.mp (List.mem_filter.mp hin).2).2

theorem message_lt_of_perm
    (h : (sent (formattedMsg message) opens names).Perm (expected message names opens))
    (hmem : name ∈ names) (hdigits : name.all isdigit = true)
    (hopens : opens (device name) = true) : (broadcast message).length < messageSize := by
  have hsent := h.mem_iff.mpr (mem_expected.mpr ⟨name, hmem, hdigits, hopens, rfl⟩)
  obtain ⟨other, -, -, -, heq⟩ := mem_sent.mp hsent
  exact formattedMsg_eq_iff.mp (Prod.mk.inj heq).2

/-- **Every terminal is sent the whole message, once,** and nothing else is written, exactly when
every entry of digits fits. -/
theorem broadcast_iff (message : List UInt8) (names : List (List UInt8))
    (opens : List UInt8 → Bool) :
    ((main message (some names) opens).2.Perm (expected message names opens)) ↔
      ∀ name ∈ names, name.all isdigit = true → Fits message opens name := by
  constructor
  · intro h name hmem hdigits
    refine ⟨fun _ hopens => message_lt_of_perm h hmem hdigits hopens, fun hge => ?_⟩
    have hfull : opens (device name) = false := by
      refine Bool.eq_false_of_not_eq_true ?_
      intro hopens
      exact absurd (lt_of_perm h hmem hdigits hopens) (Nat.not_lt.mpr hge)
    refine ⟨hfull, Bool.eq_false_of_not_eq_true ?_⟩
    intro hopens
    exact absurd ((opens_of_perm h hmem hdigits hopens).symm.trans hfull) (by decide)
  · intro h
    exact List.Perm.of_eq (sent_eq_expected h)

/-- A message of 1011 bytes: the newline is lost. -/
theorem long_message_cut : ¬ ∀ (message : List UInt8) (names : List (List UInt8))
    (opens : List UInt8 → Bool),
      (main message (some names) opens).2.Perm (expected message names opens) := by
  intro hclaim
  have hfits : (broadcast (List.replicate 1011 97)).length < messageSize :=
    message_lt_of_perm (hclaim (List.replicate 1011 97) [ascii "0"] fun _ => true)
      (List.mem_singleton_self (ascii "0")) rfl rfl
  rw [broadcast, List.length_append, List.length_append, List.length_replicate] at hfits
  exact absurd hfits (by decide)

end Sent

end Broadcaster

end SystemProgramming
