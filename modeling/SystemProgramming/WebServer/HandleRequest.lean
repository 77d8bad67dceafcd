import Mathlib.Data.Finset.Basic
import SystemProgramming.Library.Ensures
import SystemProgramming.WebServer.RequestLine

/-!
# `handle_request`, one system call at a time

`handle_request` of `webserver` and of `webserver-mt` as a machine. A step is a system call, and
the action is what it returns: `read` may deliver any bytes that fit, or fail; `realpath` and `open`
may fail or succeed, with any path and any descriptor that is not in use; `write` may accept any
part of what it is offered; `read` on the file may deliver any part of what is left. A call that
fails, and one that returns 0, are the same to the code.

Of the process the descriptors that are open are kept. A request whose words are not there or do not
fit their arrays has no meaning from `sscanf` on: it ends in `undefined`, from where there is no
step, and nothing is promised of its descriptors. What a compiled server does there depends on what
lies behind the arrays; mostly it returns.

## What is left out

The contents of the response do not matter for the descriptors and are left to `Request` and
`Transfer`. `close` succeeds: on Linux the descriptor is gone even if it fails. A signal that ends
the process in the middle of a request takes all descriptors with it, and is looked at in `Clients`.

## How it goes

For every position there is a list of the descriptors that have been opened and closed on the way to
it (`Expected`), and the set of open descriptors is what these changes make of the set at the entry.
A step adds one change or none. At the return the list is one of two, with and without a file, and
in both everything is closed that has to be, and `client_fd` at the very end.

That a run comes to the return has nothing to do with descriptors. Every call leads further on but
those of the loop that copies the file, and there the bytes that are left get fewer with every
`read` that delivers some (`Position.measure`).

## Main definitions

* `Entry` — how `handle_request` is called
* `Position`, `Act`, `Event`, `machine` — the machine
* `Moves` — its steps, one constructor for each result of each call

## Main results

* `moves_of_step` — a step of the machine is one of `Moves`
* `ensures_returns` — whatever the calls return, `handle_request` returns
* `descriptors_balanced` — every exit closes what it has to close, once
* `descriptors_balanced_iff` — `handle_request` comes to such an exit, whatever the calls return,
  exactly when nothing is received or the words fit
-/

namespace SystemProgramming

namespace HandleRequest

open WebServer

/-! ### The machine -/

/-- The two servers. -/
inductive Server
  | webserver
  | webserverMt
  deriving DecidableEq, Repr

/-- The descriptors that are open when `handle_request(client_fd)` is called. -/
structure Entry where
  fds : Finset ℕ
  clientFd : ℕ
  clientFd_mem : clientFd ∈ fds

/-- What `handle_request` does next. -/
inductive Position
  /-- `read(client_fd, buffer, BUF_SIZE - 1)` -/
  | reading
  /-- `realpath("./www", resolved_base)` -/
  | resolvingBase (fullPath : List UInt8)
  /-- `realpath(full_path, resolved_path)` -/
  | resolving (resolvedBase fullPath : List UInt8)
  /-- `open(.., O_RDONLY)` -/
  | opening (path : List UInt8)
  /-- `write` of the header, when the file has this content. -/
  | sendingHeader (fileFd : ℕ) (content : List UInt8)
  /-- `read(file_fd, file_buf, BUF_SIZE)`, with these bytes left. -/
  | readingFile (fileFd : ℕ) (rest : List UInt8)
  /-- `write(client_fd, file_buf, n)` -/
  | sendingBlock (fileFd : ℕ) (block rest : List UInt8)
  /-- `close(file_fd)` -/
  | closingFile (fileFd : ℕ)
  /-- `write` of one of the other texts. -/
  | replying (text : List UInt8)
  /-- `close(client_fd)` -/
  | closingClient
  | returned
  /-- The words of the request are not there, or do not fit their arrays. -/
  | undefined
  deriving DecidableEq, Repr

structure State where
  position : Position
  fds : Finset ℕ
  deriving DecidableEq

/-- What a system call returns. -/
inductive Act
  /-- `read` on `client_fd`; nothing when it fails. -/
  | read (received : List UInt8)
  | realpath (resolved : Option (List UInt8))
  /-- `open`: a descriptor, and the content of the file. -/
  | openFile (file : Option (ℕ × List UInt8))
  /-- `write`: how many bytes it accepts, 0 when it fails. -/
  | write (accepted : ℕ)
  /-- `read` on `file_fd`; 0 at the end of the file and when it fails. -/
  | readFile (n : ℕ)
  | close
  deriving DecidableEq, Repr

/-- A call with its arguments and its result. -/
inductive Event
  | received (bytes : List UInt8)
  | printed (text : List UInt8)
  | resolved (path : List UInt8) (result : Option (List UInt8))
  | opened (path : List UInt8) (file : Option (ℕ × List UInt8))
  /-- `write` on `client_fd` -/
  | wrote (bytes : List UInt8) (accepted : ℕ)
  /-- `read` on `file_fd`, when these bytes are left. -/
  | fileRead (rest : List UInt8) (n : ℕ)
  | closed (fd : ℕ)
  deriving DecidableEq, Repr

/-- From `strcmp(path, "/")` to the first call that uses the path. -/
def servePath (v : Server) (path : List UInt8) : Position :=
  match v with
  | .webserver => .resolvingBase (snprintf pathMax (ascii "./www" ++ indexed path))
  | .webserverMt => .opening (snprintf 512 (ascii "./www" ++ indexed path))

/-- From the test of `bytes` to the next call. -/
def scan (v : Server) (received : List UInt8) : Position :=
  if received.length = 0 then .closingClient
  else if (scanRequest received).fits then
    match scanRequest received with
    | ⟨none, _⟩ => .undefined
    | ⟨some method, path⟩ =>
      if method = ascii "GET" then path.elim .undefined (servePath v)
      else .replying methodNotAllowed
  else .undefined

/-- `webserver-mt` prints a request that is not empty. -/
def printed (v : Server) (received : List UInt8) : List Event :=
  if v = .webserverMt ∧ received.length ≠ 0 then
    [.printed (ascii "Received request:\n" ++ cstring received ++ ascii "\n")]
  else []

/-- One system call. -/
def step (v : Server) (e : Entry) (s : State) (a : Act) : Option (State × List Event) :=
  match s.position, a with
  | .reading, .read received =>
    if received.length < bufSize then
      some ({ s with position := scan v received }, .received received :: printed v received)
    else none
  | .resolvingBase _, .realpath none =>
    some ({ s with position := .closingClient }, [.resolved (ascii "./www") none])
  | .resolvingBase fullPath, .realpath (some resolvedBase) =>
    some ({ s with position := .resolving resolvedBase fullPath },
      [.resolved (ascii "./www") (some resolvedBase)])
  | .resolving _ fullPath, .realpath none =>
    some ({ s with position := .replying notFound }, [.resolved fullPath none])
  | .resolving resolvedBase fullPath, .realpath (some resolvedPath) =>
    some (⟨if Webserver.outside resolvedBase resolvedPath then .replying forbidden
      else .opening resolvedPath, s.fds⟩, [.resolved fullPath (some resolvedPath)])
  | .opening path, .openFile none =>
    some ({ s with position := .replying notFound }, [.opened path none])
  | .opening path, .openFile (some (fileFd, content)) =>
    if fileFd ∈ s.fds then none
    else some (⟨.sendingHeader fileFd content, insert fileFd s.fds⟩,
      [.opened path (some (fileFd, content))])
  | .sendingHeader fileFd content, .write n =>
    if n ≤ header.length then
      some ({ s with position := .readingFile fileFd content }, [.wrote header n])
    else none
  | .readingFile fileFd rest, .readFile n =>
    if n ≤ bufSize ∧ n ≤ rest.length then
      some (⟨if n = 0 then .closingFile fileFd
        else .sendingBlock fileFd (rest.take n) (rest.drop n), s.fds⟩, [.fileRead rest n])
    else none
  | .sendingBlock fileFd block rest, .write n =>
    if n ≤ block.length then
      some ({ s with position := .readingFile fileFd rest }, [.wrote block n])
    else none
  | .closingFile fileFd, .close =>
    some (⟨.closingClient, s.fds.erase fileFd⟩, [.closed fileFd])
  | .replying text, .write n =>
    if n ≤ text.length then
      some ({ s with position := .closingClient }, [.wrote text n])
    else none
  | .closingClient, .close =>
    some (⟨.returned, s.fds.erase e.clientFd⟩, [.closed e.clientFd])
  | _, _ => none

/-- `handle_request(client_fd)` -/
def machine (v : Server) (e : Entry) : Machine State Act Event := ⟨⟨.reading, e.fds⟩, step v e⟩

/-! ### The steps -/

/-- The steps, one constructor for each result of each call. -/
inductive Moves (v : Server) (e : Entry) : State → State → List Event → Prop
  | read {fds received} (hlen : received.length < bufSize) :
    Moves v e ⟨.reading, fds⟩ ⟨scan v received, fds⟩ (.received received :: printed v received)
  | noBase {fds fullPath} :
    Moves v e ⟨.resolvingBase fullPath, fds⟩ ⟨.closingClient, fds⟩
      [.resolved (ascii "./www") none]
  | base {fds fullPath resolvedBase} :
    Moves v e ⟨.resolvingBase fullPath, fds⟩ ⟨.resolving resolvedBase fullPath, fds⟩
      [.resolved (ascii "./www") (some resolvedBase)]
  | noPath {fds resolvedBase fullPath} :
    Moves v e ⟨.resolving resolvedBase fullPath, fds⟩ ⟨.replying notFound, fds⟩
      [.resolved fullPath none]
  | outside {fds resolvedBase fullPath resolvedPath}
      (hout : Webserver.outside resolvedBase resolvedPath = true) :
    Moves v e ⟨.resolving resolvedBase fullPath, fds⟩ ⟨.replying forbidden, fds⟩
      [.resolved fullPath (some resolvedPath)]
  | inside {fds resolvedBase fullPath resolvedPath}
      (hin : Webserver.outside resolvedBase resolvedPath = false) :
    Moves v e ⟨.resolving resolvedBase fullPath, fds⟩ ⟨.opening resolvedPath, fds⟩
      [.resolved fullPath (some resolvedPath)]
  | openFails {fds path} :
    Moves v e ⟨.opening path, fds⟩ ⟨.replying notFound, fds⟩ [.opened path none]
  | opens {fds path fileFd content} (hfree : fileFd ∉ fds) :
    Moves v e ⟨.opening path, fds⟩ ⟨.sendingHeader fileFd content, insert fileFd fds⟩
      [.opened path (some (fileFd, content))]
  | writeHeader {fds fileFd content n} (hn : n ≤ header.length) :
    Moves v e ⟨.sendingHeader fileFd content, fds⟩ ⟨.readingFile fileFd content, fds⟩
      [.wrote header n]
  | readEnds {fds fileFd rest} :
    Moves v e ⟨.readingFile fileFd rest, fds⟩ ⟨.closingFile fileFd, fds⟩ [.fileRead rest 0]
  | readFile {fds fileFd rest n} (hn0 : 0 < n) (hsize : n ≤ bufSize) (hn : n ≤ rest.length) :
    Moves v e ⟨.readingFile fileFd rest, fds⟩
      ⟨.sendingBlock fileFd (rest.take n) (rest.drop n), fds⟩ [.fileRead rest n]
  | writeBlock {fds fileFd block rest n} (hn : n ≤ block.length) :
    Moves v e ⟨.sendingBlock fileFd block rest, fds⟩ ⟨.readingFile fileFd rest, fds⟩
      [.wrote block n]
  | closeFile {fds fileFd} :
    Moves v e ⟨.closingFile fileFd, fds⟩ ⟨.closingClient, fds.erase fileFd⟩ [.closed fileFd]
  | writeText {fds text n} (hn : n ≤ text.length) :
    Moves v e ⟨.replying text, fds⟩ ⟨.closingClient, fds⟩ [.wrote text n]
  | closeClient {fds} :
    Moves v e ⟨.closingClient, fds⟩ ⟨.returned, fds.erase e.clientFd⟩ [.closed e.clientFd]

theorem scan_cases (v : Server) (received : List UInt8) :
    scan v received = .closingClient ∨ scan v received = .undefined ∨
      scan v received = .replying methodNotAllowed ∨
      ∃ path, scan v received = servePath v path := by
  rw [scan]
  split
  · exact Or.inl rfl
  · split
    · split
      · exact Or.inr (Or.inl rfl)
      · rename_i method path _
        split
        · rcases path with _ | path
          · exact Or.inr (Or.inl rfl)
          · exact Or.inr (Or.inr (Or.inr ⟨path, rfl⟩))
        · exact Or.inr (Or.inr (Or.inl rfl))
    · exact Or.inr (Or.inl rfl)

variable {v : Server} {e : Entry} {s s' : State} {a : Act} {es es' : List Event}

/-- **Inversion.** -/
theorem moves_of_step (h : (machine v e).step s a = some (s', es)) : Moves v e s s' es := by
  obtain ⟨position, fds⟩ := s
  cases a with
  | read received =>
    cases position with
    | reading =>
      obtain ⟨hlen, heq⟩ := Option.ite_none_right_eq_some.mp h
      cases heq
      exact .read hlen
    | _ => cases h
  | realpath resolved =>
    cases position with
    | resolvingBase fullPath =>
      cases resolved with
      | none => cases h; exact .noBase
      | some resolvedBase => cases h; exact .base
    | resolving resolvedBase fullPath =>
      cases resolved with
      | none => cases h; exact .noPath
      | some resolvedPath =>
        cases h
        by_cases hout : Webserver.outside resolvedBase resolvedPath = true
        · rw [if_pos hout]
          exact .outside hout
        · rw [if_neg hout]
          exact .inside (by simpa using hout)
    | _ => cases h
  | openFile file =>
    cases position with
    | opening path =>
      rcases file with _ | ⟨fileFd, content⟩
      · cases h
        exact .openFails
      · obtain ⟨hfree, heq⟩ := Option.ite_none_left_eq_some.mp h
        cases heq
        exact .opens hfree
    | _ => cases h
  | write n =>
    cases position with
    | sendingHeader fileFd content =>
      obtain ⟨hn, heq⟩ := Option.ite_none_right_eq_some.mp h
      cases heq
      exact .writeHeader hn
    | sendingBlock fileFd block rest =>
      obtain ⟨hn, heq⟩ := Option.ite_none_right_eq_some.mp h
      cases heq
      exact .writeBlock hn
    | replying text =>
      obtain ⟨hn, heq⟩ := Option.ite_none_right_eq_some.mp h
      cases heq
      exact .writeText hn
    | _ => cases h
  | readFile n =>
    cases position with
    | readingFile fileFd rest =>
      obtain ⟨⟨hsize, hn⟩, heq⟩ := Option.ite_none_right_eq_some.mp h
      cases heq
      by_cases hn0 : n = 0
      · rw [if_pos hn0, hn0]
        exact .readEnds
      · rw [if_neg hn0]
        exact .readFile (Nat.pos_of_ne_zero hn0) hsize hn
    | _ => cases h
  | close =>
    cases position with
    | closingFile fileFd => cases h; exact .closeFile
    | closingClient => cases h; exact .closeClient
    | _ => cases h

/-! ### Returning -/

/-- The calls that are left, and how often the loop may still go round. -/
def Position.measure : Position → ℕ × ℕ
  | .reading => (7, 0)
  | .resolvingBase _ => (6, 0)
  | .resolving _ _ => (5, 0)
  | .opening _ => (4, 0)
  | .sendingHeader _ _ | .replying _ => (3, 0)
  | .readingFile _ rest => (2, 2 * rest.length)
  | .sendingBlock _ _ rest => (2, 2 * rest.length + 1)
  | .closingFile _ => (1, 1)
  | .closingClient => (1, 0)
  | .returned | .undefined => (0, 0)

theorem measure_scan (v : Server) (received : List UInt8) : (scan v received).measure.1 < 7 := by
  rcases scan_cases v received with h | h | h | ⟨path, h⟩
  · rw [h]
    decide
  · rw [h]
    decide
  · rw [h]
    decide
  · rw [h]
    cases v
    · exact Nat.lt_succ_self 6
    · show 4 < 7
      decide

theorem measure_of_moves (h : Moves v e s s' es) :
    Prod.Lex (· < ·) (· < ·) s'.position.measure s.position.measure := by
  cases h with
  | read => exact .left _ _ (measure_scan v _)
  | readFile hn0 _ hn =>
    refine .right _ ?_
    rw [List.length_drop]
    omega
  | writeBlock => exact .right _ (Nat.lt_succ_self _)
  | closeFile => exact .right _ Nat.zero_lt_one
  | _ => exact .left _ _ (by decide)

theorem returned_of_stopped (hstop : (machine v e).Stopped s) :
    s.position = .returned ∨ s.position = .undefined := by
  obtain ⟨position, fds⟩ := s
  cases position with
  | reading => exact absurd (hstop (.read [])) (Option.some_ne_none _)
  | resolvingBase => exact absurd (hstop (.realpath none)) (Option.some_ne_none _)
  | resolving => exact absurd (hstop (.realpath none)) (Option.some_ne_none _)
  | opening => exact absurd (hstop (.openFile none)) (Option.some_ne_none _)
  | sendingHeader => exact absurd (hstop (.write 0)) (Option.some_ne_none _)
  | readingFile => exact absurd (hstop (.readFile 0)) (Option.some_ne_none _)
  | sendingBlock => exact absurd (hstop (.write 0)) (Option.some_ne_none _)
  | closingFile => exact absurd (hstop .close) (Option.some_ne_none _)
  | replying => exact absurd (hstop (.write 0)) (Option.some_ne_none _)
  | closingClient => exact absurd (hstop .close) (Option.some_ne_none _)
  | returned => exact Or.inl rfl
  | undefined => exact Or.inr rfl

/-- **Whatever the calls return, `handle_request` returns.** -/
theorem ensures_returns (v : Server) (e : Entry) : (machine v e).Ensures
    (fun s => s.position = .returned ∨ s.position = .undefined) (machine v e).init :=
  Machine.ensures_of_wellFounded (WellFounded.prod_lex wellFounded_lt wellFounded_lt)
    (fun s => s.position.measure) (fun _ _ _ _ h => measure_of_moves (moves_of_step h))
    (fun _ => returned_of_stopped) _

/-! ### The descriptors -/

/-- What a call does to the set of open descriptors. -/
inductive Change
  | opens (fd : ℕ)
  | closes (fd : ℕ)
  deriving DecidableEq, Repr

def Change.apply (fds : Finset ℕ) : Change → Finset ℕ
  | .opens fd => insert fd fds
  | .closes fd => fds.erase fd

def Event.change : Event → Option Change
  | .opened _ (some file) => some (.opens file.1)
  | .closed fd => some (.closes fd)
  | _ => none

/-- The changes among the calls. -/
def changes (es : List Event) : List Change := es.filterMap Event.change

/-- The descriptor of the file, while it is open. -/
def Position.fileFd : Position → Option ℕ
  | .sendingHeader fileFd _ | .readingFile fileFd _ | .sendingBlock fileFd _ _
  | .closingFile fileFd => some fileFd
  | _ => none

/-- The changes that have been made where `handle_request` is at a position. -/
def Expected (e : Entry) : Position → List Change → Prop
  | .closingClient, cs => cs = [] ∨ ∃ fd ∉ e.fds, cs = [.opens fd, .closes fd]
  | .returned, cs =>
    cs = [.closes e.clientFd] ∨ ∃ fd ∉ e.fds, cs = [.opens fd, .closes fd, .closes e.clientFd]
  | position, cs => cs = (position.fileFd.map .opens).toList ∧ ∀ fd ∈ position.fileFd, fd ∉ e.fds

/-- The changes are the expected ones, and they account for what is open. -/
structure Accounted (e : Entry) (es : List Event) (s : State) : Prop where
  expected : Expected e s.position (changes es)
  fds : s.fds = (changes es).foldl Change.apply e.fds

theorem changes_append (es es' : List Event) : changes (es ++ es') = changes es ++ changes es' :=
  List.filterMap_append

theorem changes_printed (v : Server) (received : List UInt8) :
    changes (printed v received) = [] := by
  rw [printed]
  split <;> rfl

theorem accounted_init (e : Entry) : Accounted e [] ⟨.reading, e.fds⟩ :=
  ⟨⟨rfl, fun _ h => nomatch h⟩, rfl⟩

theorem expected_nil_of_scan (e : Entry) (v : Server) (received : List UInt8) :
    Expected e (scan v received) [] := by
  rcases scan_cases v received with h | h | h | ⟨path, h⟩
  · rw [h]
    exact Or.inl rfl
  · rw [h]
    exact ⟨rfl, fun _ h => nomatch h⟩
  · rw [h]
    exact ⟨rfl, fun _ h => nomatch h⟩
  · rw [h]
    cases v <;> exact ⟨rfl, fun _ h => nomatch h⟩

/-- Calls that leave the descriptors alone. -/
theorem Accounted.quiet (hs : Accounted e es s) (hquiet : changes es' = []) (hfds : s'.fds = s.fds)
    (hexpected : Expected e s.position (changes es) → Expected e s'.position (changes es)) :
    Accounted e (es ++ es') s' := by
  have hchanges : changes (es ++ es') = changes es := by
    rw [changes_append, hquiet, List.append_nil]
  exact ⟨hchanges ▸ hexpected hs.expected, by rw [hchanges, hfds, hs.fds]⟩

theorem Accounted.change (hs : Accounted e es s) {event : Event} {c : Change}
    (hc : event.change = some c) (hfds : s'.fds = c.apply s.fds)
    (hexpected : Expected e s.position (changes es) → Expected e s'.position (changes es ++ [c])) :
    Accounted e (es ++ [event]) s' := by
  have hchanges : changes (es ++ [event]) = changes es ++ [c] := by
    rw [changes_append, changes, changes, List.filterMap_cons_some hc, List.filterMap_nil]
  refine ⟨hchanges ▸ hexpected hs.expected, ?_⟩
  rw [hchanges, List.foldl_append, ← hs.fds, hfds]
  rfl

/-- **One call.** -/
theorem accounted_of_moves (h : Moves v e s s' es') (hs : Accounted e es s) :
    Accounted e (es ++ es') s' := by
  cases h with
  | read =>
    refine hs.quiet (changes_printed v _) rfl fun h => ?_
    rw [h.1]
    exact expected_nil_of_scan e v _
  | noBase => exact hs.quiet rfl rfl fun h => Or.inl h.1
  | openFails => exact hs.quiet rfl rfl id
  | opens hfree =>
    refine hs.change rfl rfl fun h => ⟨?_, ?_⟩
    · rw [h.1]
      rfl
    · rintro fd hfd
      obtain rfl := Option.some.inj hfd
      have hfds := hs.fds
      rw [h.1] at hfds
      obtain rfl : _ = e.fds := hfds
      exact hfree
  | writeText => exact hs.quiet rfl rfl fun h => Or.inl h.1
  | closeFile =>
    refine hs.change rfl rfl fun h => Or.inr ⟨_, h.2 _ rfl, ?_⟩
    rw [h.1]
    rfl
  | closeClient =>
    refine hs.change rfl rfl fun h => ?_
    rcases h with h | ⟨fd, hfd, h⟩
    · rw [h]
      exact Or.inl rfl
    · rw [h]
      exact Or.inr ⟨fd, hfd, rfl⟩
  | _ => exact hs.quiet rfl rfl id

theorem accounted_of_run {as : List Act} (h : (machine v e).run as = some (s, es)) :
    Accounted e es s :=
  Machine.run_invariant (accounted_init e)
    (fun _ _ _ _ _ hs hstep => accounted_of_moves (moves_of_step hstep) hs) h

theorem count_closed (fd : ℕ) (es : List Event) :
    es.count (.closed fd) = (changes es).count (.closes fd) := by
  rw [changes, List.count, List.count, List.countP_filterMap]
  refine List.countP_congr fun event _ => ?_
  cases event with
  | opened path file => cases file <;> simp [Event.change]
  | _ => simp [Event.change]

theorem opens_mem_changes {path : List UInt8} {file : ℕ × List UInt8}
    (h : .opened path (some file) ∈ es) : .opens file.1 ∈ changes es :=
  List.mem_filterMap.mpr ⟨_, h, rfl⟩

/-- **Every exit closes what it has to close, once.** -/
theorem descriptors_balanced (v : Server) (e : Entry) {as : List Act} {s : State}
    {es : List Event} (h : (machine v e).run as = some (s, es))
    (hreturned : s.position = .returned) :
    s.fds = e.fds.erase e.clientFd ∧ es.count (.closed e.clientFd) = 1 ∧
      ∀ path fd content, .opened path (some (fd, content)) ∈ es → es.count (.closed fd) = 1 := by
  obtain ⟨hexpected, hfds⟩ := accounted_of_run h
  rw [hreturned] at hexpected
  rcases hexpected with hcs | ⟨fileFd, hfree, hcs⟩
  · refine ⟨?_, ?_, fun path fd content hopened => ?_⟩
    · rw [hfds, hcs]
      rfl
    · rw [count_closed, hcs]
      exact List.count_singleton_self
    · have hmem := opens_mem_changes hopened
      exact absurd (hcs ▸ hmem) (by simp)
  · have hne : fileFd ≠ e.clientFd := fun heq => hfree (heq ▸ e.clientFd_mem)
    refine ⟨?_, ?_, fun path fd content hopened => ?_⟩
    · rw [hfds, hcs]
      show ((insert fileFd e.fds).erase fileFd).erase e.clientFd = e.fds.erase e.clientFd
      rw [Finset.erase_insert hfree]
    · rw [count_closed, hcs]
      simp [hne]
    · have hmem := opens_mem_changes hopened
      rw [hcs] at hmem
      obtain rfl : fd = fileFd := by simpa using hmem
      rw [count_closed, hcs]
      simp [hne.symm]

theorem scan_eq_undefined_iff (v : Server) (received : List UInt8) :
    scan v received = .undefined ↔ ¬ (received = [] ∨ WordsFit received) := by
  have hserve : ∀ path, servePath v path ≠ .undefined := by
    intro path h
    cases v <;> cases h
  rw [scan, ← handle_isSome_iff_wordsFit (fun _ => []), handle]
  by_cases hnil : received = []
  · rw [hnil]
    exact iff_of_false (fun h => by cases h) fun h => h (Or.inl rfl)
  rw [if_neg (List.length_eq_zero_iff.not.mpr hnil)]
  by_cases hfits : (scanRequest received).fits = true
  · rw [if_pos hfits]
    rcases hscan : scanRequest received with ⟨_ | method, path⟩
    · rw [hscan] at hfits
      simp [hnil, hfits]
    · rw [hscan] at hfits
      by_cases hget : method = ascii "GET"
      · subst hget
        rcases path with _ | path
        · simp [hnil]
        · simp [hfits, hserve]
      · simp [hfits, hget]
  · rw [if_neg hfits]
    simp [hnil, hfits]

theorem scan_eq_undefined_of_run {received : List UInt8} {as : List Act}
    (h : (machine v e).run (.read received :: as) = some (s, es))
    (hundef : s.position = .undefined) : scan v received = .undefined := by
  obtain ⟨⟨s₁, es₁⟩, h₁, ⟨s₂, es₂⟩, hrest, heq⟩ := Machine.runFrom_cons_eq_some.mp h
  obtain ⟨rfl, -⟩ := Prod.mk.inj heq
  obtain ⟨-, heq⟩ := Option.ite_none_right_eq_some.mp h₁
  obtain ⟨rfl, -⟩ := Prod.mk.inj (Option.some.inj heq)
  by_contra hscan
  have hkeep := @Machine.runFrom_invariant _ _ _ (machine v e)
    (fun _ s => s.position ≠ .undefined ∧ s.position ≠ .reading) ?_ as _ [] _ ⟨hscan, ?_⟩ hrest
  · exact hkeep.1 hundef
  · intro es s a s' es' hs hstep
    cases moves_of_step hstep with
    | read => exact absurd rfl hs.2
    | _ => exact ⟨nofun, nofun⟩
  · rcases scan_cases v received with h | h | h | ⟨path, h⟩
    · exact h ▸ nofun
    · exact h ▸ nofun
    · exact h ▸ nofun
    · rw [h]
      cases v <;> nofun

/-- **The descriptors are balanced** on every way through `handle_request` behind the `read` of a
request exactly when nothing was received, or the words of the request are there and fit their
arrays: then every way comes to a return, `client_fd` has been closed once, so has the file that
was opened, and the other descriptors are as they were. -/
theorem descriptors_balanced_iff (v : Server) (e : Entry) {received : List UInt8}
    (hlen : received.length < bufSize) :
    (∀ as s es, (machine v e).run (.read received :: as) = some (s, es) →
      (machine v e).Stopped s → s.position = .returned ∧ s.fds = e.fds.erase e.clientFd ∧
        es.count (.closed e.clientFd) = 1 ∧
        ∀ path fd content, .opened path (some (fd, content)) ∈ es → es.count (.closed fd) = 1) ↔
      received = [] ∨ WordsFit received := by
  constructor
  · intro hall
    by_contra hno
    have hscan := (scan_eq_undefined_iff v received).mpr hno
    have hrun : (machine v e).run [.read received] =
        some (⟨scan v received, e.fds⟩, .received received :: printed v received) := by
      refine Machine.runFrom_cons_eq_some.mpr ⟨_, if_pos hlen, _, rfl, ?_⟩
      simp only [List.append_nil]
      rfl
    rw [hscan] at hrun
    exact absurd (hall [] _ _ hrun fun a => by cases a <;> rfl).1 nofun
  · intro hfit as s es hrun hstop
    have hreturned : s.position = .returned := by
      refine (returned_of_stopped hstop).resolve_right fun hundef => ?_
      exact (scan_eq_undefined_iff v received).mp (scan_eq_undefined_of_run hrun hundef) hfit
    exact ⟨hreturned, descriptors_balanced v e hrun hreturned⟩

/-- A file of two bytes, of which `write` accepts one. -/
def halfAccepted : List Act :=
  [.read (ascii "GET /a"), .openFile (some (5, ascii "hi")), .write 19, .readFile 2, .write 1,
    .readFile 0, .close, .close]

theorem halfAccepted_balanced : ∃ s es,
    (machine .webserverMt ⟨{0, 1, 2, 4}, 4, by decide⟩).run halfAccepted = some (s, es) ∧
      s.position = .returned ∧ s.fds = {0, 1, 2} ∧ es.count (.closed 4) = 1 ∧
      es.count (.closed 5) = 1 := by
  refine ⟨_, _, rfl, ?_⟩
  have hfit : WordsFit (ascii "GET /a") := (handle_isSome_iff_wordsFit (fun _ => []) _).mp rfl
  have hstop : ∀ fds, (machine .webserverMt ⟨{0, 1, 2, 4}, 4, by decide⟩).Stopped
      ⟨.returned, fds⟩ := fun fds a => by cases a <;> rfl
  obtain ⟨hreturned, hfds, hclient, hfile⟩ := (descriptors_balanced_iff .webserverMt
    ⟨{0, 1, 2, 4}, 4, by decide⟩ (by decide)).mpr (Or.inr hfit) halfAccepted.tail _ _ rfl (hstop _)
  exact ⟨hreturned, hfds, hclient, hfile (ascii "./www/a") 5 (ascii "hi") (by decide)⟩

/-- `PROPFIND` does not fit `method`: behind it nothing is promised. -/
theorem propfind_unbalanced : ¬ ∀ (v : Server) (e : Entry) (received : List UInt8) (as : List Act)
    (s : State) (es : List Event), (machine v e).run (.read received :: as) = some (s, es) →
      (machine v e).Stopped s → s.position = .returned ∧ s.fds = e.fds.erase e.clientFd := by
  intro hall
  have hstop : (machine .webserver ⟨{0, 1, 2, 4}, 4, by decide⟩).Stopped
      ⟨.undefined, {0, 1, 2, 4}⟩ := fun a => by cases a <;> rfl
  have hbalanced := hall .webserver ⟨{0, 1, 2, 4}, 4, by decide⟩
    (ascii "PROPFIND / HTTP/1.1\r\n\r\n") [] _ _ rfl hstop
  exact absurd hbalanced.1 nofun

end HandleRequest

end SystemProgramming
