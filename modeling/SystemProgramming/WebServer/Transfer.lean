import SystemProgramming.WebServer.HandleRequest

/-!
# What a client gets of a file

The loop `while ((n = read(file_fd, file_buf, BUF_SIZE)) > 0) write(client_fd, file_buf, n);` offers
the client every byte of the file, however `read` cuts it, and does not look at how many of them
`write` accepts.

## Two halves

What the client gets is cut twice: by `read`, which delivers any part of what is left, and by
`write`, which accepts any part of what it is offered. The first cut is harmless, as the loop goes
on behind what was read. The second one is not: the loop does not look at the result of `write`, so
that what has not been accepted is lost.

## Main definitions

* `offered`, `sent` — the bytes that `write` is given, and those that it accepts
* `Event.Delivers`, `Event.Full` — what can be said of a call

## Main results

* `offered_whole` — what is offered is the header and the file
* `sent_whole_iff` — when that is what the client gets
* `halfAccepted_cut` — a `write` that accepts a part
-/

namespace SystemProgramming

namespace HandleRequest

open WebServer

variable {v : Server} {e : Entry} {s s' : State} {es es' : List Event}

/-! ### Specification -/

/-- What is passed to `write`. -/
def Event.offered : Event → List UInt8
  | .wrote bytes _ => bytes
  | _ => []

/-- What `write` accepts of it. -/
def Event.sent : Event → List UInt8
  | .wrote bytes accepted => bytes.take accepted
  | _ => []

def offered (es : List Event) : List UInt8 := es.flatMap Event.offered

/-- What the client gets. -/
def sent (es : List Event) : List UInt8 := es.flatMap Event.sent

/-- `read` on the file delivers something when something is left. -/
def Event.Delivers : Event → Prop
  | .fileRead rest n => rest ≠ [] → n ≠ 0
  | _ => True

/-- `write` accepts something. -/
def Event.Accepts : Event → Prop
  | .wrote bytes accepted => bytes ≠ [] → accepted ≠ 0
  | _ => True

/-- `write` accepts everything. -/
def Event.Full : Event → Prop
  | .wrote bytes accepted => bytes.length ≤ accepted
  | _ => True

instance : DecidablePred Event.Delivers
  | .fileRead rest n => inferInstanceAs (Decidable (rest ≠ [] → n ≠ 0))
  | .received _ | .printed _ | .resolved _ _ | .opened _ _ | .wrote _ _ | .closed _ =>
    isTrue trivial

instance : DecidablePred Event.Accepts
  | .wrote bytes accepted => inferInstanceAs (Decidable (bytes ≠ [] → accepted ≠ 0))
  | .received _ | .printed _ | .resolved _ _ | .opened _ _ | .fileRead _ _ | .closed _ =>
    isTrue trivial

instance : DecidablePred Event.Full
  | .wrote bytes accepted => inferInstanceAs (Decidable (bytes.length ≤ accepted))
  | .received _ | .printed _ | .resolved _ _ | .opened _ _ | .fileRead _ _ | .closed _ =>
    isTrue trivial

/-- The contents of the files that have been opened. -/
def contents (es : List Event) : List (List UInt8) :=
  es.filterMap fun
    | .opened _ (some file) => some file.2
    | _ => none

/-! ### Offering the file -/

/-- No file has been opened yet. -/
def Position.Unopened : Position → Prop
  | .reading | .resolvingBase _ | .resolving _ _ | .opening _ | .replying _ => True
  | _ => False

/-- Nothing has been written yet. -/
def Position.Early : Position → Prop
  | .reading | .resolvingBase _ | .resolving _ _ | .opening _ => True
  | _ => False

/-- What is still to be offered of a file. -/
def Position.pending : Position → List UInt8
  | .sendingHeader _ content => header ++ content
  | .readingFile _ rest => rest
  | .sendingBlock _ block rest => block ++ rest
  | _ => []

/-- What has been offered and what is still to be offered is the header and the file. -/
structure Offering (es : List Event) (s : State) : Prop where
  unopened : s.position.Unopened → contents es = []
  early : s.position.Early → offered es = []
  whole : ∀ content ∈ contents es, offered es ++ s.position.pending = header ++ content

theorem contents_append (es es' : List Event) :
    contents (es ++ es') = contents es ++ contents es' :=
  List.filterMap_append

theorem offered_append (es es' : List Event) : offered (es ++ es') = offered es ++ offered es' :=
  List.flatMap_append

theorem Offering.unopened_of (hs : contents es = []) (hs' : contents es' = [])
    (hearly : s'.position.Early → offered es = [] ∧ offered es' = []) :
    Offering (es ++ es') s' := by
  have hcontents : contents (es ++ es') = [] := by rw [contents_append, hs, hs']; rfl
  refine ⟨fun _ => hcontents, fun h => ?_, fun content hmem => ?_⟩
  · rw [offered_append, (hearly h).1, (hearly h).2]
    rfl
  · exact absurd (hcontents ▸ hmem) List.not_mem_nil

theorem Offering.sending (hs : Offering es s) (hs' : contents es' = [])
    (hpending : s.position.pending = offered es' ++ s'.position.pending)
    (hunopened : ¬ s'.position.Unopened) (hearly : ¬ s'.position.Early) :
    Offering (es ++ es') s' := by
  refine ⟨fun h => absurd h hunopened, fun h => absurd h hearly, fun content hmem => ?_⟩
  rw [contents_append, hs', List.append_nil] at hmem
  rw [offered_append, List.append_assoc, ← hpending, hs.whole content hmem]

theorem contents_offered_printed (v : Server) (received : List UInt8) :
    contents (printed v received) = [] ∧ offered (printed v received) = [] := by
  rw [printed]
  split <;> exact ⟨rfl, rfl⟩

/-- **One call.** -/
theorem offering_of_moves (h : Moves v e s s' es') (hdelivers : ∀ event ∈ es', event.Delivers)
    (hs : Offering es s) : Offering (es ++ es') s' := by
  cases h with
  | read =>
    obtain ⟨hcontents, hoffered⟩ := contents_offered_printed v _
    exact .unopened_of (hs.unopened trivial) hcontents fun _ => ⟨hs.early trivial, hoffered⟩
  | noBase => exact .unopened_of (hs.unopened trivial) rfl (nomatch ·)
  | base => exact .unopened_of (hs.unopened trivial) rfl fun _ => ⟨hs.early trivial, rfl⟩
  | noPath => exact .unopened_of (hs.unopened trivial) rfl (nomatch ·)
  | outside => exact .unopened_of (hs.unopened trivial) rfl (nomatch ·)
  | inside => exact .unopened_of (hs.unopened trivial) rfl fun _ => ⟨hs.early trivial, rfl⟩
  | openFails => exact .unopened_of (hs.unopened trivial) rfl (nomatch ·)
  | writeText => exact .unopened_of (hs.unopened trivial) rfl (nomatch ·)
  | opens =>
    have hcontents := hs.unopened trivial
    have hoffered := hs.early trivial
    refine ⟨(nomatch ·), (nomatch ·), fun content hmem => ?_⟩
    rw [contents_append, hcontents] at hmem
    obtain rfl := List.mem_singleton.mp hmem
    rw [offered_append, hoffered]
    rfl
  | writeHeader => exact hs.sending rfl (by simp [offered, Event.offered, Position.pending]) id id
  | readEnds =>
    -- the loop ends at a `read` that delivers nothing, so nothing is left
    have hrest := not_imp_not.mp (hdelivers _ List.mem_cons_self) rfl
    exact hs.sending rfl hrest id id
  | readFile => exact hs.sending rfl (List.take_append_drop _ _).symm id id
  | writeBlock => exact hs.sending rfl (by simp [offered, Event.offered, Position.pending]) id id
  | closeFile => exact hs.sending rfl rfl id id
  | closeClient => exact hs.sending rfl rfl id id

theorem offering_of_run {as : List Act} (h : (machine v e).run as = some (s, es))
    (hdelivers : ∀ event ∈ es, event.Delivers) : Offering es s := by
  refine Machine.run_invariant (I := fun es s => (∀ event ∈ es, event.Delivers) → Offering es s)
    ?_ ?_ h hdelivers
  · exact fun _ => ⟨fun _ => rfl, fun _ => rfl, fun _ hmem => absurd hmem List.not_mem_nil⟩
  · intro es s a s' es' hs hstep hall
    obtain ⟨hold, hnew⟩ := List.forall_mem_append.mp hall
    exact offering_of_moves (moves_of_step hstep) hnew (hs hold)

/-- **The client is offered the whole file**, however `read` cuts it. -/
theorem offered_whole {as : List Act} (h : (machine v e).run as = some (s, es))
    (hreturned : s.position = .returned) (hdelivers : ∀ event ∈ es, event.Delivers)
    {content : List UInt8} (hcontent : content ∈ contents es) : offered es = header ++ content := by
  have hwhole := (offering_of_run h hdelivers).whole content hcontent
  rw [hreturned] at hwhole
  simpa [Position.pending] using hwhole

/-! ### Getting it -/

theorem Event.sent_eq_offered_iff (event : Event) : event.sent = event.offered ↔ event.Full := by
  cases event with
  | wrote bytes accepted => exact List.take_eq_self_iff bytes
  | _ => exact iff_of_true rfl trivial

/-- What is accepted is a piece of what is offered, from its start. -/
theorem Event.sent_prefix_offered (event : Event) : event.sent <+: event.offered := by
  cases event with
  | wrote bytes accepted => exact List.take_prefix accepted bytes
  | _ => exact List.prefix_rfl

theorem length_sent_le : ∀ es : List Event, (sent es).length ≤ (offered es).length
  | [] => Nat.le_refl 0
  | event :: es => by
    have hevent := event.sent_prefix_offered.length_le
    have hes := length_sent_le es
    rw [sent, offered, List.flatMap_cons, List.flatMap_cons, List.length_append, List.length_append]
    exact Nat.add_le_add hevent hes

/-- The client gets what it is offered exactly when nothing is refused. -/
theorem sent_eq_offered_iff : ∀ es : List Event,
    sent es = offered es ↔ ∀ event ∈ es, event.Full
  | [] => iff_of_true rfl fun _ h => absurd h List.not_mem_nil
  | event :: es => by
    rw [List.forall_mem_cons, ← sent_eq_offered_iff es, ← event.sent_eq_offered_iff]
    show event.sent ++ sent es = event.offered ++ offered es ↔ _
    constructor
    · intro h
      -- what is refused of one call no other call can make up for
      have hlength := congrArg List.length h
      rw [List.length_append, List.length_append] at hlength
      have hle := length_sent_le es
      have hprefix := event.sent_prefix_offered
      exact List.append_inj h (Nat.le_antisymm hprefix.length_le (by omega))
    · rintro ⟨hevent, hes⟩
      rw [hevent, hes]

/-- **When a client gets a whole file.** -/
theorem sent_whole_iff (v : Server) (e : Entry) {as : List Act} {s : State} {es : List Event}
    (h : (machine v e).run as = some (s, es)) (hreturned : s.position = .returned)
    (hdelivers : ∀ event ∈ es, event.Delivers) {content : List UInt8}
    (hcontent : content ∈ contents es) :
    sent es = header ++ content ↔ ∀ event ∈ es, event.Full := by
  rw [← offered_whole h hreturned hdelivers hcontent, sent_eq_offered_iff]

/-- The same file, read byte by byte, of which `write` accepts all. -/
def bytewise : List Act :=
  [.read (ascii "GET /a"), .openFile (some (5, ascii "hi")), .write 19, .readFile 1, .write 1,
    .readFile 1, .write 1, .readFile 0, .close, .close]

theorem bytewise_whole : ∃ s es,
    (machine .webserverMt ⟨{0, 1, 2, 4}, 4, by decide⟩).run bytewise = some (s, es) ∧
      sent es = header ++ ascii "hi" := by
  refine ⟨_, _, rfl, ?_⟩
  exact (@sent_whole_iff .webserverMt ⟨{0, 1, 2, 4}, 4, by decide⟩ bytewise _ _ rfl rfl
    (by decide) (ascii "hi") (by decide)).mpr (by decide)

/-- Half of the file is lost when `write` accepts half of it. -/
theorem halfAccepted_cut : ¬ ∀ (v : Server) (e : Entry) (as : List Act) (s : State)
    (es : List Event) (content : List UInt8), (machine v e).run as = some (s, es) →
      s.position = .returned → (∀ event ∈ es, event.Delivers) → (∀ event ∈ es, event.Accepts) →
      content ∈ contents es → sent es = header ++ content := by
  intro h
  have hsent := h .webserverMt ⟨{0, 1, 2, 4}, 4, by decide⟩ halfAccepted _ _ (ascii "hi") rfl rfl
    (by decide) (by decide) (by decide)
  exact absurd hsent (by decide)

end HandleRequest

end SystemProgramming
