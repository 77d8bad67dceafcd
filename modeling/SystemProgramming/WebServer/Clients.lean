import SystemProgramming.WebServer.Pool
import SystemProgramming.WebServer.Request

/-!
# Clients that go away

A client may send anything, and may close its connection at any time: before the request is read,
or between two writes of the response. A `write` to a connection whose client has closed it raises
`SIGPIPE`. Neither `webserver` nor `webserver-mt` changes the action for that signal, which is to
end the process; for `webserver-mt` this is the process of all the workers.

Both servers are machines here. The steps of `handle_request` are the `read` of the request and
then the calls of `Webserver.handleRequest` or `WebserverMt.handleRequest`, one by one; the steps
of the thread pool are those of `ThreadPool`.

## What is assumed

A client that is there takes everything that is written to it, and one that has gone takes nothing.
By the rule of the kernel that is used here the first `write` to a connection that has been closed
raises the signal; on a network the reset has to come back first, so that it is the second one at
the latest. No other signal is sent. `www` has an `index.html` in the witness, as it has in the
repository.

## How it goes

A handler is the same in both servers, so its step is looked at once (`handlerStep`): it ends the
process if it reads a request that cannot be scanned, or writes to a client that has gone, and
otherwise not. A step of the rest of the program ends nothing. That gives the equivalence for one
step of each server, and a run goes on exactly as long as each of its steps did not end it, since a
process that has ended takes no further step.

## Main definitions

* `World`, `Handler`, `handlerStep` — the connections, and a thread in `handle_request`
* `Webserver.machine`, `WebserverMt.machine` — the servers
* `Scannable`, `Harmless` — what does not end a server

## Main results

* `servers_run_iff` — a server goes on exactly as long as its clients do nothing else
* `client_stops_servers` — a client that does
-/

namespace SystemProgramming

open WebServer

namespace WebServer

/-! ### Connections -/

/-- The client's side of a connection. -/
inductive Peer
  | connected
  | closed
  deriving DecidableEq, Repr

/-- How the process of a server has ended. -/
inductive End
  /-- A signal: the client of a `write` had closed its connection. -/
  | sigpipe
  /-- The source has done something that has no defined behaviour. -/
  | undefined
  deriving DecidableEq, Repr

/-- What the threads of a server share, beside the queue. -/
structure World where
  /-- The connections, by the server's descriptors. -/
  peers : ℤ → Option Peer
  /-- None while the process runs. -/
  ended : Option End

/-- No connections yet. -/
def World.init : World := ⟨fun _ => none, none⟩

/-- A connection comes, changes, or with none goes. -/
def World.setPeer (w : World) (fd : ℤ) (peer : Option Peer) : World :=
  { w with peers := Function.update w.peers fd peer }

/-- `accept` returns a descriptor that is not in use, or fails. -/
def World.canAccept (w : World) (fd : ℤ) : Prop := fd < 0 ∨ w.peers fd = none

instance (w : World) (fd : ℤ) : Decidable (w.canAccept fd) := inferInstanceAs (Decidable (_ ∨ _))

/-- The connection that `accept` returned, if it did. -/
def World.accepted (w : World) (fd : ℤ) : World :=
  if fd < 0 then w else w.setPeer fd (some .connected)

/-- The client closes its side. -/
def World.clientCloses (w : World) (fd : ℤ) : Option World :=
  if w.peers fd = some .connected then some (w.setPeer fd (some .closed)) else none

/-! ### `handle_request`, call by call -/

/-- Where a thread is in `handle_request`. -/
inductive Handler
  /-- At `read`. -/
  | reading
  /-- Before these calls. -/
  | calling (calls : List Call)
  deriving DecidableEq, Repr

/-- A step of `handle_request`. -/
inductive HandlerAct
  /-- `read` returns; nothing when it fails or the client has closed. -/
  | read (received : List UInt8)
  /-- The next call. -/
  | call
  deriving DecidableEq, Repr

/-- What a run is judged by. -/
inductive Event
  | accepted (clientFd : ℤ)
  | received (clientFd : ℤ) (bytes : List UInt8)
  | called (clientFd : ℤ) (call : Call)
  deriving DecidableEq, Repr

/-- What a call does to the process and to the connection. -/
def makeCall (w : World) (clientFd : ℤ) : Call → World
  | .write _ => if w.peers clientFd = some .closed then { w with ended := some .sigpipe } else w
  | .closeClient => w.setPeer clientFd none
  | _ => w

/-- One step of the thread that handles `clientFd`. -/
def handlerStep (handleRequest : List UInt8 → Option (List Call)) (w : World) (clientFd : ℤ) :
    Handler → HandlerAct → Option ((World × Handler) × List Event)
  | .reading, .read received =>
    if received.length < bufSize then
      some (match handleRequest received with
        | none => ({ w with ended := some .undefined }, .calling [])
        | some calls => (w, .calling calls), [.received clientFd received])
    else none
  | .calling (call :: calls), .call =>
    some ((makeCall w clientFd call, .calling calls), [.called clientFd call])
  | _, _ => none

/-! ### What does not end a server -/

/-- What a client may send: nothing, or a request whose first words fit their arrays. There has
to be a method, and after `GET` a path. -/
def Scannable (received : List UInt8) : Prop :=
  received = [] ∨ (scanRequest received).fits = true ∧ ∃ method,
    (scanRequest received).method = some method ∧
      (method = ascii "GET" → (scanRequest received).path.isSome)

/-- A step of a handler that does not end the process: a request that can be scanned is read, or a
client that gets a part of the response is there. -/
def Harmless (w : World) (clientFd : ℤ) : Handler → HandlerAct → Prop
  | .reading, .read received => Scannable received
  | .calling (.write _ :: _), .call => w.peers clientFd ≠ some .closed
  | _, _ => True

/-- A handler of requests that has no defined behaviour exactly on those that cannot be scanned. -/
def Scans (handleRequest : List UInt8 → Option (List Call)) : Prop :=
  ∀ received, (handleRequest received).isSome ↔ Scannable received

theorem handlerStep_running_iff {handleRequest : List UInt8 → Option (List Call)}
    (hscans : Scans handleRequest) {w : World} {clientFd : ℤ} {h : Handler} {a : HandlerAct}
    {r : World × Handler} {es : List Event} (hw : w.ended = none)
    (hstep : handlerStep handleRequest w clientFd h a = some (r, es)) :
    r.1.ended = none ↔ Harmless w clientFd h a := by
  rcases h with _ | calls
  · rcases a with received | _
    · obtain ⟨-, heq⟩ := Option.ite_none_right_eq_some.mp hstep
      obtain ⟨rfl, -⟩ := Prod.mk.inj (Option.some.inj heq)
      show _ ↔ Scannable received
      rw [← hscans received]
      rcases handleRequest received with _ | calls
      · simp
      · simpa using hw
    · cases hstep
  · rcases a with received | _
    · rcases calls <;> cases hstep
    · rcases calls with _ | ⟨call, calls⟩
      · cases hstep
      · obtain ⟨rfl, -⟩ := Prod.mk.inj (Option.some.inj hstep)
        rcases call with text | bytes | ⟨path, ok⟩ | _ | _
        · exact iff_of_true hw trivial
        · show (makeCall w clientFd (.write bytes)).ended = none ↔
            w.peers clientFd ≠ some .closed
          rw [makeCall]
          split
          · rename_i hclosed
            exact iff_of_false (nomatch ·) fun hne => hne hclosed
          · rename_i hopen
            exact iff_of_true hw hopen
        · exact iff_of_true hw trivial
        · exact iff_of_true hw trivial
        · exact iff_of_true hw trivial

end WebServer

/-! ### `webserver` -/

namespace Webserver

/-- Where `main` is, in its loop. -/
inductive Position
  /-- At `accept`. -/
  | accepting
  /-- In `handle_request(client_fd)`. -/
  | handling (clientFd : ℤ) (h : Handler)
  deriving DecidableEq, Repr

structure State where
  position : Position
  world : World

/-- The choices of the clients and of the network. -/
inductive Act
  /-- `accept` returns. -/
  | accept (clientFd : ℤ)
  /-- A step of `handle_request`. -/
  | handler (a : HandlerAct)
  /-- `handle_request` returns. -/
  | handled
  /-- A client closes its connection. -/
  | clientCloses (clientFd : ℤ)
  deriving DecidableEq, Repr

section Server

variable (fs : FileSystem) (delivery : Delivery)

/-- One step of the process and its clients; none when the process has ended. -/
def step (s : State) (a : Act) : Option (State × List Event) :=
  if s.world.ended.isSome then none
  else
    match a, s.position with
    | .accept clientFd, .accepting =>
      if s.world.canAccept clientFd then
        if clientFd < 0 then some (s, [])
        else some (⟨.handling clientFd .reading, s.world.accepted clientFd⟩, [.accepted clientFd])
      else none
    | .handler a, .handling clientFd h =>
      (handlerStep (handleRequest fs delivery) s.world clientFd h a).map fun r =>
        (⟨.handling clientFd r.1.2, r.1.1⟩, r.2)
    | .handled, .handling _ (.calling []) => some ({ s with position := .accepting }, [])
    | .clientCloses clientFd, _ =>
      (s.world.clientCloses clientFd).map fun w => ({ s with world := w }, [])
    | _, _ => none

/-- The server, from the moment `main` enters its loop. -/
def machine : Machine State Act Event where
  init := ⟨.accepting, .init⟩
  step := step fs delivery

end Server

/-- A step that does not end the process. -/
def Harmless (_ : List Event) (s : State) : Act → Prop
  | .handler a =>
    match s.position with
    | .handling clientFd h => WebServer.Harmless s.world clientFd h a
    | .accepting => True
  | _ => True

end Webserver

/-! ### `webserver-mt` -/

namespace WebserverMt

open ThreadPool (Worker)

structure State where
  pool : ThreadPool.State
  /-- Where the workers are that handle a request. -/
  handlers : Worker → Handler
  world : World

/-- The choices of the scheduler, of the clients and of the network. -/
inductive Act
  /-- A step of the thread pool; a worker's `handle_request` returns after its last call. -/
  | pool (a : ThreadPool.Act)
  /-- A step of `handle_request` in worker `t`. -/
  | handler (t : Worker) (a : HandlerAct)
  /-- A client closes its connection. -/
  | clientCloses (clientFd : ℤ)
  deriving DecidableEq, Repr

/-- The step of the pool is possible, for the rest of the program. -/
def State.allows (s : State) : ThreadPool.Act → Bool
  | .accept clientFd => s.world.canAccept clientFd
  | .handled t => s.handlers t = .calling []
  | _ => true

/-- What a step of the pool does to the connections. -/
def State.worldAfter (s : State) : ThreadPool.Act → World
  | .accept clientFd => s.world.accepted clientFd
  | _ => s.world

/-- What a step of the pool does to the handlers: a worker that dequeues begins a request. -/
def State.handlersAfter (s : State) : ThreadPool.Act → Worker → Handler
  | .dequeue t _ => Function.update s.handlers t .reading
  | _ => s.handlers

/-- The connections that a step of the pool accepts. -/
def accepted : ThreadPool.Act → List Event
  | .accept clientFd => if clientFd < 0 then [] else [.accepted clientFd]
  | _ => []

section Server

variable (fs : FileSystem) (delivery : Delivery)

/-- One step of the process and its clients; none when the process has ended. -/
def step (s : State) (a : Act) : Option (State × List Event) :=
  if s.world.ended.isSome then none
  else
    match a with
    | .pool a =>
      if s.allows a then
        (ThreadPool.step s.pool a).map fun r =>
          (⟨r.1, s.handlersAfter a, s.worldAfter a⟩, accepted a)
      else none
    | .handler t a =>
      match s.pool.workers t with
      | .handling clientFd =>
        (handlerStep (handleRequest fs delivery) s.world clientFd (s.handlers t) a).map fun r =>
          (⟨s.pool, Function.update s.handlers t r.1.2, r.1.1⟩, r.2)
      | .dequeuing => none
    | .clientCloses clientFd =>
      (s.world.clientCloses clientFd).map fun w => ({ s with world := w }, [])

/-- The server, from the moment `main` enters its loop. -/
def machine : Machine State Act Event where
  init := ⟨ThreadPool.machine.init, fun _ => .reading, .init⟩
  step := step fs delivery

end Server

/-- A step that does not end the process. -/
def Harmless (_ : List Event) (s : State) : Act → Prop
  | .handler t a =>
    match s.pool.workers t with
    | .handling clientFd => WebServer.Harmless s.world clientFd (s.handlers t) a
    | .dequeuing => True
  | _ => True

end WebserverMt

/-! ### Steps -/

theorem Webserver.scans (fs : FileSystem) (delivery : Delivery) :
    Scans (Webserver.handleRequest fs delivery) := by
  intro received
  rw [Webserver.handleRequest, Scannable]
  by_cases hnil : received = []
  · simp [hnil]
  · rw [if_neg (List.length_eq_zero_iff.not.mpr hnil), handle_isSome_iff]
    simp [hnil]

theorem WebserverMt.scans (fs : FileSystem) (delivery : Delivery) :
    Scans (WebserverMt.handleRequest fs delivery) := by
  intro received
  rw [WebserverMt.handleRequest, Scannable]
  by_cases hnil : received = []
  · simp [hnil]
  · rw [if_neg (List.length_eq_zero_iff.not.mpr hnil), Option.isSome_map, handle_isSome_iff]
    simp [hnil]

namespace WebServer

theorem World.ended_accepted (w : World) (fd : ℤ) : (w.accepted fd).ended = w.ended := by
  rw [World.accepted]
  split <;> rfl

theorem World.ended_clientCloses {w w' : World} {fd : ℤ} (h : w.clientCloses fd = some w') :
    w'.ended = w.ended := by
  obtain ⟨-, heq⟩ := Option.ite_none_right_eq_some.mp h
  exact Option.some.inj heq ▸ rfl

end WebServer

/-- **One step of `webserver`.** -/
theorem Webserver.step_running_iff {fs : FileSystem} {delivery : Delivery} (es : List Event)
    {s s' : State} {a : Act} {es' : List Event} (hstep : step fs delivery s a = some (s', es')) :
    s.world.ended = none ∧ (s'.world.ended = none ↔ Harmless es s a) := by
  rw [step.eq_def] at hstep
  obtain ⟨hsome, hbody⟩ := Option.ite_none_left_eq_some.mp hstep
  clear hstep
  have hrun : s.world.ended = none := by simpa using hsome
  refine ⟨hrun, ?_⟩
  split at hbody
  · obtain ⟨-, hbody⟩ := Option.ite_none_right_eq_some.mp hbody
    split at hbody
    · obtain ⟨rfl, -⟩ := Prod.mk.inj (Option.some.inj hbody)
      exact iff_of_true hrun trivial
    · obtain ⟨rfl, -⟩ := Prod.mk.inj (Option.some.inj hbody)
      exact iff_of_true ((World.ended_accepted _ _).trans hrun) trivial
  · rename_i hpos
    obtain ⟨r, hr, heq⟩ := Option.map_eq_some_iff.mp hbody
    obtain ⟨rfl, -⟩ := Prod.mk.inj heq
    rw [Harmless, hpos]
    exact handlerStep_running_iff (scans fs delivery) hrun hr
  · obtain ⟨rfl, -⟩ := Prod.mk.inj (Option.some.inj hbody)
    exact iff_of_true hrun trivial
  · obtain ⟨w, hw, heq⟩ := Option.map_eq_some_iff.mp hbody
    obtain ⟨rfl, -⟩ := Prod.mk.inj heq
    exact iff_of_true ((World.ended_clientCloses hw).trans hrun) trivial
  · cases hbody

/-- **One step of `webserver-mt`.** -/
theorem WebserverMt.step_running_iff {fs : FileSystem} {delivery : Delivery} (es : List Event)
    {s s' : State} {a : Act} {es' : List Event} (hstep : step fs delivery s a = some (s', es')) :
    s.world.ended = none ∧ (s'.world.ended = none ↔ Harmless es s a) := by
  rw [step.eq_def] at hstep
  obtain ⟨hsome, hbody⟩ := Option.ite_none_left_eq_some.mp hstep
  clear hstep
  have hrun : s.world.ended = none := by simpa using hsome
  refine ⟨hrun, ?_⟩
  split at hbody
  · rename_i a
    obtain ⟨-, hbody⟩ := Option.ite_none_right_eq_some.mp hbody
    obtain ⟨r, -, heq⟩ := Option.map_eq_some_iff.mp hbody
    obtain ⟨rfl, -⟩ := Prod.mk.inj heq
    have hworld : (s.worldAfter a).ended = s.world.ended := by
      rcases a with fd | _ | _ | _ | _ | _
      · exact World.ended_accepted _ fd
      all_goals rfl
    exact iff_of_true (hworld.trans hrun) trivial
  · rename_i t a
    split at hbody
    · rename_i clientFd hworker
      obtain ⟨r, hr, heq⟩ := Option.map_eq_some_iff.mp hbody
      obtain ⟨rfl, -⟩ := Prod.mk.inj heq
      rw [Harmless, hworker]
      exact handlerStep_running_iff (scans fs delivery) hrun hr
    · cases hbody
  · obtain ⟨w, hw, heq⟩ := Option.map_eq_some_iff.mp hbody
    obtain ⟨rfl, -⟩ := Prod.mk.inj heq
    exact iff_of_true ((World.ended_clientCloses hw).trans hrun) trivial

/-- **What a client can do to a server.** In every run of `webserver` and of `webserver-mt` the
process is still there exactly when all steps were harmless: what was read could be scanned, and
no part of a response was written to a connection whose client had closed it. -/
theorem servers_run_iff (fs : FileSystem) (delivery : Delivery) :
    (∀ as s es, (Webserver.machine fs delivery).run as = some (s, es) →
      (s.world.ended = none ↔ (Webserver.machine fs delivery).Meets Webserver.Harmless as)) ∧
    ∀ as s es, (WebserverMt.machine fs delivery).run as = some (s, es) →
      (s.world.ended = none ↔ (WebserverMt.machine fs delivery).Meets WebserverMt.Harmless as) := by
  constructor
  · intro as s es h
    exact Machine.good_iff_meets (G := fun s => s.world.ended = none) rfl
      (fun es s a s' es' => Webserver.step_running_iff es) h
  · intro as s es h
    exact Machine.good_iff_meets (G := fun s => s.world.ended = none) rfl
      (fun es s a s' es' => WebserverMt.step_running_iff es) h

/-- A file system without files. -/
def WebServer.emptyFs : FileSystem := .ofTable [] (fun _ => none) (by simp)

/-- A request that is not a `GET`. -/
def WebServer.postRequest : List UInt8 := ascii "POST / HTTP/1.1\r\n\r\n"

/-- A client that waits for its answer, and the next one, which sends nothing. -/
theorem patient_client_then_silent_client :
    (∃ s es, (Webserver.machine emptyFs .bytewise).run
        [.accept 4, .handler (.read postRequest), .handler .call, .handler .call, .handled,
          .accept 4, .clientCloses 4, .handler (.read [])] = some (s, es) ∧
      (Webserver.machine emptyFs .bytewise).Meets Webserver.Harmless
        [.accept 4, .handler (.read postRequest), .handler .call, .handler .call, .handled,
          .accept 4, .clientCloses 4, .handler (.read [])]) ∧
    ∃ s es, (WebserverMt.machine emptyFs .bytewise).run
        [.pool (.accept 4), .pool (.enqueue none), .pool (.dequeue 0 none), .pool (.accept 5),
          .handler 0 (.read postRequest), .clientCloses 5, .handler 0 .call, .handler 0 .call,
          .handler 0 .call, .pool (.handled 0)] = some (s, es) ∧
      (WebserverMt.machine emptyFs .bytewise).Meets WebserverMt.Harmless
        [.pool (.accept 4), .pool (.enqueue none), .pool (.dequeue 0 none), .pool (.accept 5),
          .handler 0 (.read postRequest), .clientCloses 5, .handler 0 .call, .handler 0 .call,
          .handler 0 .call, .pool (.handled 0)] :=
  ⟨⟨_, _, rfl, ((servers_run_iff emptyFs .bytewise).1 _ _ _ rfl).mp rfl⟩,
    ⟨_, _, rfl, ((servers_run_iff emptyFs .bytewise).2 _ _ _ rfl).mp rfl⟩⟩

/-- The server runs in `/var`, and `/var/www` contains `index.html`. -/
def WebServer.indexSite : FileSystem :=
  .ofTable
    [(ascii "./www", ⟨[ascii "var", ascii "www"], by decide⟩),
      (ascii "/var/www", ⟨[ascii "var", ascii "www"], by decide⟩),
      (ascii "./www/index.html", ⟨[ascii "var", ascii "www", ascii "index.html"], by decide⟩),
      (ascii "/var/www/index.html", ⟨[ascii "var", ascii "www", ascii "index.html"], by decide⟩)]
    (fun p => if p.names = [ascii "var", ascii "www", ascii "index.html"] then
      some (ascii "index") else none)
    (by decide)

/-- A request for a file. -/
def WebServer.getRequest : List UInt8 := ascii "GET / HTTP/1.1\r\n\r\n"

/-- A client that closes its connection before the header of a file and the file: neither server
goes on. -/
theorem client_stops_servers :
    (¬ ∀ fs delivery as s es, (Webserver.machine fs delivery).run as = some (s, es) →
      s.world.ended = none) ∧
    ¬ ∀ fs delivery as s es, (WebserverMt.machine fs delivery).run as = some (s, es) →
      s.world.ended = none := by
  constructor
  · intro hall
    have hrun := hall indexSite .bytewise
      [.accept 4, .handler (.read getRequest), .clientCloses 4, .handler .call, .handler .call]
      _ _ rfl
    cases hrun
  · intro hall
    have hrun := hall indexSite .bytewise
      [.pool (.accept 4), .pool (.enqueue none), .pool (.dequeue 0 none),
        .handler 0 (.read getRequest), .clientCloses 4, .handler 0 .call, .handler 0 .call,
        .handler 0 .call]
      _ _ rfl
    cases hrun

end SystemProgramming
