import SystemProgramming.Library.CanonicalPath

/-!
# `handle_request`, twice

`lab9-lyjae/webserver.c` and `lab9-lyjae/webserver-mt.c` each have a `handle_request`. They read a
request with one `read`, scan its first two words, and answer; the copies differ in how the path
is resolved, and in that the second one prints the request. Each is translated to the list of the
system calls it makes, in order, with what was passed to them.

What the system answers is given by parameters. The file system is at rest while a request is
handled. `read` on a file delivers its bytes in blocks as the kernel likes (`Delivery`), until it
returns 0 or fails. The results of `write` and `close` are not looked at by the code, so they are
not parameters.

`sscanf` with `%s` stores as many bytes as the word has. Where a word does not fit its array, or an
array is compared that `sscanf` has not assigned, the behaviour is undefined and the translation
is `none`.

## What is assumed

Canonical paths are shorter than `PATH_MAX`, so that `realpath` finds what `open` finds, and what
`open` finds can be read. `handle_request` is called with one descriptor, which is open; who closes
it and when is looked at in `HandleRequest`.

## Main definitions

* `FileSystem`, `Delivery` — the parameters
* `Webserver.handleRequest`, `WebserverMt.handleRequest` — the two handlers
* `Request` — a request whose first two words are there and fit
* `response`, `statusLine`, `body` — what the client receives

## Main results

* `Webserver.handleRequest_eq`, `WebserverMt.handleRequest_eq` — the handlers on a `Request`
-/

namespace SystemProgramming

namespace WebServer

def bufSize : ℕ := 4096

def pathMax : ℕ := 4096

/-! ### The system -/

/-- The files, as `realpath`, `open` and `read` see them. -/
structure FileSystem where
  /-- `realpath`: the canonical path of an existing file, or `NULL`. -/
  realpath : List UInt8 → Option CanonicalPath
  /-- A canonical path is its own canonical path. -/
  realpath_render : ∀ {s : List UInt8} {p : CanonicalPath},
    realpath s = some p → realpath p.render = some p
  /-- What `read` delivers until it returns 0 or fails; `none` when the file cannot be opened for
  reading. A directory can be, and delivers nothing. -/
  contents : CanonicalPath → Option (List UInt8)

/-- The file system in which the strings of a table resolve, and no others. -/
def FileSystem.ofTable (table : List (List UInt8 × CanonicalPath))
    (contents : CanonicalPath → Option (List UInt8))
    (h : ∀ e ∈ table, table.lookup e.2.render = some e.2) : FileSystem where
  realpath s := table.lookup s
  realpath_render := by
    intro s p hs
    obtain ⟨l, l', rfl, -⟩ := List.lookup_eq_some_iff.mp hs
    exact h (s, p) (by simp)
  contents := contents

/-- `open(path, O_RDONLY)` finds the file that `realpath` names. -/
def FileSystem.openFile (fs : FileSystem) (path : List UInt8) : Option (List UInt8) :=
  (fs.realpath path).bind fs.contents

/-- How the kernel cuts what it delivers into blocks of at most `BUF_SIZE` bytes. -/
structure Delivery where
  blocks : List UInt8 → List (List UInt8)
  flatten_blocks : ∀ content, (blocks content).flatten = content
  block_bounds : ∀ content, ∀ block ∈ blocks content, 0 < block.length ∧ block.length ≤ bufSize

/-- One byte at a time. -/
def Delivery.bytewise : Delivery where
  blocks content := content.map ([·])
  flatten_blocks content := by simp [← List.flatMap_def]
  block_bounds content := by simp [bufSize]

/-- A system call that the client, the file or the terminal sees. -/
inductive Call
  /-- `printf` -/
  | print (text : List UInt8)
  /-- `write(client_fd, ..)` -/
  | write (bytes : List UInt8)
  /-- `open(path, O_RDONLY)`, and whether it succeeded. -/
  | openFile (path : List UInt8) (ok : Bool)
  /-- `close(file_fd)` -/
  | closeFile
  /-- `close(client_fd)` -/
  | closeClient
  deriving DecidableEq, Repr

/-- What is written to the client. -/
def response (calls : List Call) : List UInt8 :=
  calls.flatMap fun
    | .write bytes => bytes
    | _ => []

/-- The response up to the first carriage return. -/
def statusLine (response : List UInt8) : List UInt8 := response.takeWhile (· != 13)

/-- The response after the empty line that follows the status line. -/
def body (response : List UInt8) : List UInt8 := response.drop ((statusLine response).length + 4)

/-! ### The texts -/

def methodNotAllowed : List UInt8 := ascii "HTTP/1.1 405 Method Not Allowed\r\n\r\n"

def notFound : List UInt8 := ascii "HTTP/1.1 404 Not Found\r\n\r\n<h1>404 Not Found</h1>\n"

def forbidden : List UInt8 := ascii "HTTP/1.1 403 Forbidden\r\n\r\n<h1>403 Forbidden</h1>\n"

def header : List UInt8 := ascii "HTTP/1.1 200 OK\r\n\r\n"

/-! ### What the two handlers share -/

/-- `method` and `path` after `sscanf(buffer, "%s %s", method, path)`; `none` for an array that is
not assigned. -/
structure Scan where
  method : Option (List UInt8)
  path : Option (List UInt8)
  deriving DecidableEq, Repr

def scanRequest (buffer : List UInt8) : Scan :=
  match scanWord (cstring buffer) with
  | none => ⟨none, none⟩
  | some (method, rest) => ⟨some method, (scanWord rest).map Prod.fst⟩

/-- The words fit `char method[8], path[256]` with their terminators. -/
def Scan.fits (scan : Scan) : Bool :=
  scan.method.all (·.length < 8) && scan.path.all (·.length < 256)

/-- `if (strcmp(path, "/") == 0) strcpy(path, "/index.html");` -/
def indexed (path : List UInt8) : List UInt8 :=
  if path = ascii "/" then ascii "/index.html" else path

/-- Write one of the texts and close the connection. -/
def reply (text : List UInt8) : List Call := [.write text, .closeClient]

/-- From `open` to the end of the function. -/
def sendFile (fs : FileSystem) (delivery : Delivery) (path : List UInt8) : List Call :=
  match fs.openFile path with
  | none => .openFile path false :: reply notFound
  | some content =>
    .openFile path true :: .write header :: (delivery.blocks content).map .write ++
      [.closeFile, .closeClient]

/-- From the test of `bytes` to `strcpy`: `serve` is what follows. -/
def handle (serve : List UInt8 → List Call) (received : List UInt8) : Option (List Call) :=
  let scan := scanRequest received
  if scan.fits then
    scan.method.bind fun method =>
      if method = ascii "GET" then scan.path.map fun path => serve (indexed path)
      else some (reply methodNotAllowed)
  else none

end WebServer

open WebServer

/-! ### `webserver` -/

namespace Webserver

/-- The test that sends 403. -/
def outside (resolvedBase resolvedPath : List UInt8) : Bool :=
  let baseLen := resolvedBase.length
  strncmp resolvedPath resolvedBase baseLen != 0 ||
    (charAt resolvedPath baseLen != slash && charAt resolvedPath baseLen != 0)

/-- From `snprintf` to the end of the function. -/
def serve (fs : FileSystem) (delivery : Delivery) (path : List UInt8) : List Call :=
  let fullPath := snprintf pathMax (ascii "./www" ++ path)
  match fs.realpath (ascii "./www") with
  | none => [.closeClient]
  | some resolvedBase =>
    match fs.realpath fullPath with
    | none => reply notFound
    | some resolvedPath =>
      if outside resolvedBase.render resolvedPath.render then reply forbidden
      else sendFile fs delivery resolvedPath.render

/-- `handle_request`; `received` is what `read` delivers, nothing when it fails. -/
def handleRequest (fs : FileSystem) (delivery : Delivery) (received : List UInt8) :
    Option (List Call) :=
  if received.length = 0 then some [.closeClient] else handle (serve fs delivery) received

end Webserver

/-! ### `webserver-mt` -/

namespace WebserverMt

/-- From `snprintf` to the end of the function. -/
def serve (fs : FileSystem) (delivery : Delivery) (path : List UInt8) : List Call :=
  let fullPath := snprintf 512 (ascii "./www" ++ path)
  sendFile fs delivery fullPath

def handleRequest (fs : FileSystem) (delivery : Delivery) (received : List UInt8) :
    Option (List Call) :=
  if received.length = 0 then some [.closeClient]
  else
    (handle (serve fs delivery) received).map fun calls =>
      .print (ascii "Received request:\n" ++ cstring received ++ ascii "\n") :: calls

end WebserverMt

namespace WebServer

/-! ### Requests that fit -/

/-- A request whose method and path are there and fit their arrays. -/
structure Request where
  received : List UInt8
  method : List UInt8
  path : List UInt8
  received_le : received.length ≤ bufSize - 1
  scanned : scanRequest received = ⟨some method, some path⟩
  method_lt : method.length < 8
  path_lt : path.length < 256

/-- The path the servers look up, relative to their working directory. -/
def Request.target (r : Request) : List UInt8 := ascii "./www" ++ indexed r.path

theorem Request.received_ne_nil (r : Request) : r.received.length ≠ 0 := by
  intro h
  have hscan := r.scanned
  rw [List.length_eq_zero_iff.mp h] at hscan
  simp [scanRequest, cstring, scanWord] at hscan

theorem Request.length_target_lt (r : Request) : r.target.length < 512 := by
  have hpath := r.path_lt
  have hindexed : (indexed r.path).length < 256 := by
    rw [indexed]
    split
    · decide
    · exact hpath
  have hwww : (ascii "./www").length = 5 := by decide
  rw [Request.target, List.length_append]
  omega

/-- Up to the path, all is as the request says. -/
theorem handle_request (r : Request) (serve : List UInt8 → List Call) :
    handle serve r.received = some (if r.method = ascii "GET" then serve (indexed r.path)
      else reply methodNotAllowed) := by
  have hfits : Scan.fits ⟨some r.method, some r.path⟩ = true := by
    simp [Scan.fits, r.method_lt, r.path_lt]
  simp only [handle, r.scanned, hfits, if_true, Option.bind_some]
  split <;> rfl

theorem handle_isSome_iff (serve : List UInt8 → List Call) (received : List UInt8) :
    (handle serve received).isSome ↔ (scanRequest received).fits = true ∧ ∃ method,
      (scanRequest received).method = some method ∧
        (method = ascii "GET" → (scanRequest received).path.isSome) := by
  rw [handle]
  by_cases hfits : (scanRequest received).fits = true
  · simp only [hfits, if_true, true_and]
    rcases hmethod : (scanRequest received).method with _ | method
    · simp
    · simp only [Option.bind_some, Option.some.injEq, exists_eq_left']
      by_cases hget : method = ascii "GET"
      · simp [hget]
      · simp [hget]
  · simp [hfits]

/-! ### Responses -/

@[simp] theorem response_nil : response [] = [] := rfl

@[simp] theorem response_append (calls calls' : List Call) :
    response (calls ++ calls') = response calls ++ response calls' :=
  List.flatMap_append

@[simp] theorem response_write (bytes : List UInt8) (calls : List Call) :
    response (.write bytes :: calls) = bytes ++ response calls := rfl

@[simp] theorem response_print (text : List UInt8) (calls : List Call) :
    response (.print text :: calls) = response calls := rfl

@[simp] theorem response_openFile (path : List UInt8) (ok : Bool) (calls : List Call) :
    response (.openFile path ok :: calls) = response calls := rfl

@[simp] theorem response_closeFile (calls : List Call) :
    response (.closeFile :: calls) = response calls := rfl

@[simp] theorem response_closeClient (calls : List Call) :
    response (.closeClient :: calls) = response calls := rfl

theorem response_reply (text : List UInt8) : response (reply text) = text := by
  simp [reply]

/-- The blocks of a file, written one after the other, are the file. -/
theorem response_blocks (delivery : Delivery) (content : List UInt8) :
    response ((delivery.blocks content).map .write) = content := by
  rw [response, List.flatMap_map, List.flatMap_id', delivery.flatten_blocks]

/-- The response when a file is sent, or cannot be opened. -/
theorem response_sendFile (fs : FileSystem) (delivery : Delivery) (path : List UInt8) :
    response (sendFile fs delivery path) =
      (fs.openFile path).elim notFound (header ++ ·) := by
  rw [sendFile]
  cases fs.openFile path with
  | none => simp [response_reply]
  | some content => simp [response_blocks]

end WebServer

/-- `webserver` on a request that fits. -/
theorem Webserver.handleRequest_eq (fs : FileSystem) (delivery : Delivery) (r : Request) :
    handleRequest fs delivery r.received =
      some (if r.method = ascii "GET" then serve fs delivery (indexed r.path)
        else reply methodNotAllowed) := by
  rw [handleRequest, if_neg r.received_ne_nil, handle_request]

/-- `webserver-mt` on a request that fits. -/
theorem WebserverMt.handleRequest_eq (fs : FileSystem) (delivery : Delivery) (r : Request) :
    handleRequest fs delivery r.received =
      some (.print (ascii "Received request:\n" ++ cstring r.received ++ ascii "\n") ::
        if r.method = ascii "GET" then serve fs delivery (indexed r.path)
        else reply methodNotAllowed) := by
  rw [handleRequest, if_neg r.received_ne_nil, handle_request]
  rfl

end SystemProgramming
