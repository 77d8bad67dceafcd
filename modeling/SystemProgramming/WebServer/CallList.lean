import SystemProgramming.WebServer.Transfer

/-!
# Two translations of `handle_request`

`handleRequest` gives the calls of a request as a list, for a file system at rest and a kernel that
cuts a file into blocks. The machine of `HandleRequest` leaves the results of the calls open. Where
they are those of a file system at rest, and every `read` of a file delivers something until
nothing is left, the calls of a run are such a list.

## How it goes

`finish` says for every position of the machine which calls are still to be made. A step makes one
of them, or none, and leads to a position from which the others are made (`finish_of_moves`). The
way in which a file is cut into blocks is not known at the beginning of a run; it is put together on
the way back, block by block, as each `read` delivers one (`first`). So the run as a whole is the
list for some delivery, and everything that holds of the list for every delivery holds of the run.

## Main definitions

* `calls` — the calls of a run
* `Event.Agrees` — a result that the file system gives
* `finish` — the calls from a position on

## Main results

* `calls_eq_handleRequest` — the calls of a run are those of `handleRequest`
-/

namespace SystemProgramming

namespace HandleRequest

open WebServer

/-! ### The calls of a run -/

/-- The calls of `handleRequest` that an event is. -/
def Event.calls (e : Entry) : Event → List Call
  | .printed text => [.print text]
  | .opened path file => [.openFile path file.isSome]
  | .wrote bytes _ => [.write bytes]
  | .closed fd => [if fd = e.clientFd then .closeClient else .closeFile]
  | .received _ | .resolved _ _ | .fileRead _ _ => []

def calls (e : Entry) (es : List Event) : List Call := es.flatMap (Event.calls e)

/-- The result of a call is the one that the file system gives. -/
def Event.Agrees (fs : FileSystem) : Event → Prop
  | .resolved path result => result = (fs.realpath path).map CanonicalPath.render
  | .opened path file => file.map Prod.snd = fs.openFile path
  | _ => True

/-- `handle_request` of the server, as a list. -/
def Server.handleRequest (v : Server) (fs : FileSystem) (delivery : Delivery)
    (received : List UInt8) : Option (List Call) :=
  match v with
  | .webserver => Webserver.handleRequest fs delivery received
  | .webserverMt => WebserverMt.handleRequest fs delivery received

/-- The calls from the reading of a file on. -/
def sendBlocks (delivery : Delivery) (rest : List UInt8) : List Call :=
  (delivery.blocks rest).map .write ++ [.closeFile, .closeClient]

/-- The calls from a position on, behind the `read` of the request. -/
def finish (fs : FileSystem) (delivery : Delivery) : Position → List Call
  | .resolvingBase fullPath =>
    match fs.realpath (ascii "./www") with
    | none => [.closeClient]
    | some resolvedBase =>
      match fs.realpath fullPath with
      | none => reply notFound
      | some resolvedPath =>
        if Webserver.outside resolvedBase.render resolvedPath.render then reply forbidden
        else sendFile fs delivery resolvedPath.render
  | .resolving resolvedBase fullPath =>
    match fs.realpath fullPath with
    | none => reply notFound
    | some resolvedPath =>
      if Webserver.outside resolvedBase resolvedPath.render then reply forbidden
      else sendFile fs delivery resolvedPath.render
  | .opening path => sendFile fs delivery path
  | .sendingHeader _ content => .write header :: sendBlocks delivery content
  | .readingFile _ rest => sendBlocks delivery rest
  | .sendingBlock _ block rest => .write block :: sendBlocks delivery rest
  | .closingFile _ => [.closeFile, .closeClient]
  | .replying text => reply text
  | .closingClient => [.closeClient]
  | .reading | .returned | .undefined => []

variable {fs : FileSystem} {v : Server} {e : Entry} {s s' : State} {es es' : List Event}

/-! ### Deliveries -/

/-- Deliver the first block of a file, and the rest of it as before. -/
def first (delivery : Delivery) (block rest : List UInt8) (h0 : 0 < block.length)
    (hsize : block.length ≤ bufSize) : Delivery where
  blocks content :=
    if content = block ++ rest then block :: delivery.blocks rest else delivery.blocks content
  flatten_blocks content := by
    split
    · rename_i hcontent
      rw [List.flatten_cons, delivery.flatten_blocks, hcontent]
    · exact delivery.flatten_blocks content
  block_bounds content := by
    split
    · exact List.forall_mem_cons.mpr ⟨⟨h0, hsize⟩, delivery.block_bounds rest⟩
    · exact delivery.block_bounds content

/-- Of an empty file nothing is delivered. -/
theorem blocks_nil (delivery : Delivery) : delivery.blocks [] = [] := by
  refine List.eq_nil_iff_forall_not_mem.mpr fun block hblock => ?_
  have hpos := (delivery.block_bounds [] block hblock).1
  have hflat := delivery.flatten_blocks []
  rw [List.flatten_eq_nil_iff.mp hflat block hblock] at hpos
  exact Nat.lt_irrefl 0 hpos

theorem sendBlocks_nil (delivery : Delivery) :
    sendBlocks delivery [] = [.closeFile, .closeClient] := by
  rw [sendBlocks, blocks_nil]
  rfl

theorem sendBlocks_first (delivery : Delivery) (block rest : List UInt8) (h0 : 0 < block.length)
    (hsize : block.length ≤ bufSize) : sendBlocks (first delivery block rest h0 hsize)
      (block ++ rest) = .write block :: sendBlocks delivery rest := by
  have hblocks : (first delivery block rest h0 hsize).blocks (block ++ rest) =
      block :: delivery.blocks rest := if_pos rfl
  rw [sendBlocks, hblocks]
  rfl

/-! ### One call -/

theorem position_ne_reading_of_moves (h : Moves v e s s' es) : s'.position ≠ .reading := by
  cases h with
  | @read fds received =>
    show scan v received ≠ .reading
    rcases scan_cases v received with h | h | h | ⟨path, h⟩
    · simp [h]
    · simp [h]
    · simp [h]
    · cases v <;> simp [h, servePath]
  | _ => exact nofun

/-- **One call.** The calls from a position on are the next one, and those from where it leads. -/
theorem finish_of_moves (h : Moves v e s s' es') (hs : Accounted e es s)
    (hreading : s.position ≠ .reading) (hagrees : ∀ event ∈ es', event.Agrees fs)
    (hdelivers : ∀ event ∈ es', event.Delivers) (delivery : Delivery) :
    ∃ delivery', calls e es' ++ finish fs delivery s'.position =
      finish fs delivery' s.position := by
  cases h with
  | read => exact absurd rfl hreading
  | noBase =>
    have hbase := Option.map_eq_none_iff.mp (hagrees _ List.mem_cons_self).symm
    refine ⟨delivery, ?_⟩
    simp only [finish, hbase]
    rfl
  | base =>
    obtain ⟨p, hbase, rfl⟩ := Option.map_eq_some_iff.mp (hagrees _ List.mem_cons_self).symm
    refine ⟨delivery, ?_⟩
    simp only [finish, hbase]
    rfl
  | noPath =>
    have hpath := Option.map_eq_none_iff.mp (hagrees _ List.mem_cons_self).symm
    refine ⟨delivery, ?_⟩
    simp only [finish, hpath]
    rfl
  | outside hout =>
    obtain ⟨p, hpath, rfl⟩ := Option.map_eq_some_iff.mp (hagrees _ List.mem_cons_self).symm
    refine ⟨delivery, ?_⟩
    simp only [finish, hpath, hout]
    rfl
  | inside hin =>
    obtain ⟨p, hpath, rfl⟩ := Option.map_eq_some_iff.mp (hagrees _ List.mem_cons_self).symm
    refine ⟨delivery, ?_⟩
    simp only [finish, hpath, hin]
    rfl
  | @openFails fds path =>
    have hopen : none = fs.openFile path := hagrees _ List.mem_cons_self
    refine ⟨delivery, ?_⟩
    rw [finish, finish, sendFile, ← hopen]
    rfl
  | @opens fds path fileFd content =>
    have hopen : some content = fs.openFile path := hagrees _ List.mem_cons_self
    refine ⟨delivery, ?_⟩
    rw [finish, finish, sendFile, ← hopen]
    rfl
  | writeHeader => exact ⟨delivery, rfl⟩
  | readEnds =>
    have hrest := not_imp_not.mp (hdelivers _ List.mem_cons_self) rfl
    refine ⟨delivery, ?_⟩
    rw [finish, finish, hrest, sendBlocks_nil]
    rfl
  | @readFile fds fileFd rest n hn0 hsize hn =>
    have hlength : (rest.take n).length = n := List.length_take_of_le hn
    have hblock0 : 0 < (rest.take n).length := by rwa [hlength]
    have hblock : (rest.take n).length ≤ bufSize := by rwa [hlength]
    have hblocks := sendBlocks_first delivery (rest.take n) (rest.drop n) hblock0 hblock
    rw [List.take_append_drop] at hblocks
    refine ⟨first delivery (rest.take n) (rest.drop n) hblock0 hblock, ?_⟩
    rw [finish, finish, hblocks]
    rfl
  | writeBlock => exact ⟨delivery, rfl⟩
  | @closeFile fds fileFd =>
    have hne : fileFd ≠ e.clientFd := fun heq =>
      hs.expected.2 fileFd rfl (heq ▸ e.clientFd_mem)
    refine ⟨delivery, ?_⟩
    show [if fileFd = e.clientFd then Call.closeClient else .closeFile] ++ [.closeClient] = _
    rw [if_neg hne]
    rfl
  | writeText => exact ⟨delivery, rfl⟩
  | closeClient =>
    refine ⟨delivery, ?_⟩
    show [if e.clientFd = e.clientFd then Call.closeClient else .closeFile] ++ [] = _
    rw [if_pos rfl]
    rfl

/-! ### A run -/

theorem calls_append (e : Entry) (es es' : List Event) :
    calls e (es ++ es') = calls e es ++ calls e es' :=
  List.flatMap_append

/-- From any position behind the `read` of the request to the end. -/
theorem finish_of_runFrom : ∀ (as : List Act) {s : State} {es : List Event}
    {q : State × List Event}, Accounted e es s → s.position ≠ .reading →
    (machine v e).runFrom s as = some q →
      q.1.position = .returned → (∀ event ∈ q.2, event.Agrees fs) →
      (∀ event ∈ q.2, event.Delivers) → ∃ delivery, calls e q.2 = finish fs delivery s.position
  | [], s, es, q, _, _, h, hreturned, _, _ => by
    obtain rfl : (s, []) = q := by simpa using h
    refine ⟨.bytewise, ?_⟩
    rw [hreturned]
    rfl
  | a :: as, s, es, q, hs, hreading, h, hreturned, hagrees, hdelivers => by
    obtain ⟨⟨s₁, es₁⟩, h₁, r, hr, rfl⟩ := Machine.runFrom_cons_eq_some.mp h
    obtain ⟨hagrees₁, hagrees⟩ := List.forall_mem_append.mp hagrees
    obtain ⟨hdelivers₁, hdelivers⟩ := List.forall_mem_append.mp hdelivers
    have hmoves := moves_of_step h₁
    obtain ⟨delivery, hrest⟩ := finish_of_runFrom as (accounted_of_moves hmoves hs)
      (position_ne_reading_of_moves hmoves) hr hreturned hagrees hdelivers
    obtain ⟨delivery', hcalls⟩ :=
      finish_of_moves hmoves hs hreading hagrees₁ hdelivers₁ delivery
    exact ⟨delivery', by rw [calls_append, hrest, hcalls]⟩

/-- Nothing follows a request without a meaning. -/
theorem not_returned_of_undefined {fds : Finset ℕ} {as : List Act} {q : State × List Event}
    (h : (machine v e).runFrom ⟨.undefined, fds⟩ as = some q) : q.1.position ≠ .returned := by
  rcases as with _ | ⟨a, as⟩
  · obtain rfl : (_, []) = q := by simpa using h
    exact nofun
  · obtain ⟨p, hp, -⟩ := Machine.runFrom_cons_eq_some.mp h
    cases moves_of_step hp

theorem handle_eq_finish {received : List UInt8} (hnil : received.length ≠ 0)
    (hdefined : scan v received ≠ .undefined) {delivery : Delivery} {serve : List UInt8 → List Call}
    (hserve : ∀ path, serve (indexed path) = finish fs delivery (servePath v path)) :
    handle serve received = some (finish fs delivery (scan v received)) := by
  rw [scan, if_neg hnil] at hdefined ⊢
  rw [handle]
  by_cases hfits : (scanRequest received).fits = true
  · rw [if_pos hfits] at hdefined ⊢
    rw [if_pos hfits]
    rcases hscan : scanRequest received with ⟨_ | method, path⟩
    · rw [hscan] at hdefined
      exact absurd rfl hdefined
    · by_cases hget : method = ascii "GET"
      · rcases path with _ | path
        · rw [hscan] at hdefined
          exact absurd (if_pos hget) hdefined
        · simp [hget, hserve]
      · simp [hget, finish]
  · rw [if_neg hfits] at hdefined
    exact absurd rfl hdefined

/-- `handleRequest` goes on as the machine does behind the `read` of the request. -/
theorem handleRequest_eq_finish (v : Server) (e : Entry) (fs : FileSystem) (delivery : Delivery)
    {received : List UInt8} (hdefined : scan v received ≠ .undefined) :
    v.handleRequest fs delivery received =
      some (calls e (printed v received) ++ finish fs delivery (scan v received)) := by
  by_cases hnil : received.length = 0
  · rw [scan, if_pos hnil, printed, if_neg fun h => h.2 hnil]
    cases v
    · exact if_pos hnil
    · exact if_pos hnil
  · cases v with
    | webserver =>
      refine Eq.trans (if_neg hnil) ?_
      exact handle_eq_finish hnil hdefined fun path => rfl
    | webserverMt =>
      refine Eq.trans (if_neg hnil) ?_
      rw [handle_eq_finish hnil hdefined fun path => rfl, printed, if_pos ⟨rfl, hnil⟩]
      rfl

/-- **The calls of a run.** They are those of `handleRequest`, for the files as they are and some
way to cut them into blocks. -/
theorem calls_eq_handleRequest (fs : FileSystem) (v : Server) (e : Entry) {received : List UInt8}
    {as : List Act} {s : State} {es : List Event}
    (h : (machine v e).run (.read received :: as) = some (s, es))
    (hreturned : s.position = .returned) (hagrees : ∀ event ∈ es, event.Agrees fs)
    (hdelivers : ∀ event ∈ es, event.Delivers) :
    ∃ delivery, v.handleRequest fs delivery received = some (calls e es) := by
  obtain ⟨⟨s₁, es₁⟩, h₁, r, hr, heq⟩ := Machine.runFrom_cons_eq_some.mp h
  obtain ⟨-, heq₁⟩ := Option.ite_none_right_eq_some.mp h₁
  obtain ⟨rfl, rfl⟩ := Prod.mk.inj heq
  obtain ⟨rfl, rfl⟩ := Prod.mk.inj (Option.some.inj heq₁)
  have hmoves := moves_of_step h₁
  have hdefined : scan v received ≠ .undefined := by
    intro hundefined
    rw [hundefined] at hr
    exact not_returned_of_undefined hr hreturned
  obtain ⟨delivery, hfinish⟩ := finish_of_runFrom as
    (accounted_of_moves hmoves (accounted_init e)) (position_ne_reading_of_moves hmoves) hr
    hreturned (List.forall_mem_append.mp hagrees).2 (List.forall_mem_append.mp hdelivers).2
  refine ⟨delivery, ?_⟩
  rw [handleRequest_eq_finish v e fs delivery hdefined, calls_append, hfinish]
  rfl

end HandleRequest

end SystemProgramming
