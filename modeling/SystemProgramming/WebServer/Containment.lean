import SystemProgramming.WebServer.Request

/-!
# What the web servers serve

`webserver` compares canonical paths before it opens a file. Its test is a string prefix test and
a look at the next character; `outside_eq_false_iff` says what it decides in terms of names.
`webserver-mt` opens `./www` followed by the path of the request without a test, so it answers
like `webserver` exactly when that test would have passed, or had nothing to test.

## Canonical paths

A canonical path is a list of names, none of which is empty or one of the two dots, written with a
slash before each of them; the root alone is written as one slash (`Library.CanonicalPath`). On such
strings a prefix test is one of names up to the last, which may be cut in the middle: `/srv/www` is
a prefix of `/srv/www-old`. The look at the next character is there for this, and is right except
below the root, whose path ends with a slash already.

## Main results

* `Webserver.serves_below_base` — nothing outside the web root is opened, and nothing inside is
  refused
* `answersAlike_iff` — when the two servers answer alike
-/

namespace SystemProgramming

open WebServer CanonicalPath

namespace WebServer

/-! ### Status lines -/

theorem statusLine_notFound : statusLine notFound = ascii "HTTP/1.1 404 Not Found" := by decide

theorem statusLine_forbidden : statusLine forbidden = ascii "HTTP/1.1 403 Forbidden" := by decide

theorem statusLine_header (content : List UInt8) :
    statusLine (header ++ content) = ascii "HTTP/1.1 200 OK" := by
  cases content <;> rfl

/-- What is sent when a file was found is no 403. -/
theorem statusLine_sendFile_ne (fs : FileSystem) (delivery : Delivery) (path : List UInt8) :
    statusLine (response (sendFile fs delivery path)) ≠ statusLine forbidden := by
  rw [response_sendFile, statusLine_forbidden]
  cases fs.openFile path with
  | none =>
    rw [Option.elim_none, statusLine_notFound]
    decide
  | some content =>
    rw [Option.elim_some, statusLine_header]
    decide

/-- The only file opened is the one asked for. -/
theorem openFile_mem_sendFile {fs : FileSystem} {delivery : Delivery} {path q : List UInt8}
    {ok : Bool} : Call.openFile q ok ∈ sendFile fs delivery path ↔
      q = path ∧ ok = (fs.openFile path).isSome := by
  rw [sendFile]
  cases fs.openFile path <;> simp [reply]

theorem openFile_notMem_reply (text q : List UInt8) (ok : Bool) :
    Call.openFile q ok ∉ reply text := by
  simp [reply]

/-- A canonical path opens the file it names. -/
theorem FileSystem.openFile_render {fs : FileSystem} {s : List UInt8} {p : CanonicalPath}
    (h : fs.realpath s = some p) : fs.openFile p.render = fs.contents p := by
  rw [openFile, fs.realpath_render h]
  rfl

theorem snprintf_target {size : ℕ} (hsize : 512 ≤ size) (r : Request) :
    snprintf size (ascii "./www" ++ indexed r.path) = r.target :=
  snprintf_eq_self (r.length_target_lt.trans_le hsize)

end WebServer

/-! ### Containment -/

namespace Webserver

/-- **The test compares names.** -/
theorem outside_eq_false_iff (base p : CanonicalPath) :
    outside base.render p.render = false ↔ base.Below p ∧ (base = root → p = root) := by
  rw [← render_append_iff, outside, Bool.or_eq_false_iff, bne_eq_false_iff_eq,
    strncmp_length_eq_zero_iff _ base.zero_notMem_render]
  constructor
  · rintro ⟨⟨rest, happ⟩, hnext⟩
    refine ⟨rest, happ.symm, ?_⟩
    intro b hb
    have hchar : charAt p.render base.render.length = b := by
      rw [← happ, charAt_append_length, hb]
      rfl
    have hzero : b ≠ 0 := by
      rintro rfl
      refine p.zero_notMem_render ?_
      rw [← happ, List.mem_append]
      exact Or.inr (List.mem_of_mem_head? hb)
    simpa [hchar, hzero] using hnext
  · rintro ⟨rest, happ, hrest⟩
    refine ⟨⟨rest, happ.symm⟩, ?_⟩
    rw [happ, charAt_append_length]
    cases rest with
    | nil => simp
    | cons b rest => simp [hrest b rfl]

section Serve

variable {fs : FileSystem} {delivery : Delivery} {r : Request} {base : CanonicalPath}

theorem serve_of_no_base (hb : fs.realpath (ascii "./www") = none) :
    serve fs delivery (indexed r.path) = [.closeClient] := by
  simp only [serve, hb]

theorem serve_of_missing (hb : fs.realpath (ascii "./www") = some base)
    (hp : fs.realpath r.target = none) : serve fs delivery (indexed r.path) = reply notFound := by
  simp only [serve, snprintf_target (show 512 ≤ pathMax by decide), hb, hp]

theorem serve_of_existing {p : CanonicalPath} (hb : fs.realpath (ascii "./www") = some base)
    (hp : fs.realpath r.target = some p) :
    serve fs delivery (indexed r.path) =
      if base.Below p ∧ (base = root → p = root) then sendFile fs delivery p.render
      else reply forbidden := by
  simp only [serve, snprintf_target (show 512 ≤ pathMax by decide), hb, hp]
  by_cases h : base.Below p ∧ (base = root → p = root)
  · rw [if_pos h, (outside_eq_false_iff base p).mpr h]
    rfl
  · have hout : outside base.render p.render = true := by
      rw [← Bool.not_eq_false, outside_eq_false_iff]
      exact h
    rw [if_neg h, if_pos hout]

/-- Whatever is opened is below the web root. -/
theorem below_of_openFile_mem {q : List UInt8} {ok : Bool}
    (h : Call.openFile q ok ∈ serve fs delivery (indexed r.path)) :
    ∃ base p, fs.realpath (ascii "./www") = some base ∧ fs.realpath q = some p ∧
      base.Below p := by
  cases hb : fs.realpath (ascii "./www") with
  | none => simp [serve_of_no_base hb] at h
  | some base =>
    cases hp : fs.realpath r.target with
    | none =>
      rw [serve_of_missing hb hp] at h
      exact absurd h (openFile_notMem_reply _ _ _)
    | some p =>
      rw [serve_of_existing hb hp] at h
      split at h
      · rename_i hbelow
        obtain ⟨rfl, -⟩ := openFile_mem_sendFile.mp h
        exact ⟨base, p, rfl, fs.realpath_render hp, hbelow.1⟩
      · exact absurd h (openFile_notMem_reply _ _ _)

/-- An existing file below a web root other than `/` is opened. -/
theorem openFile_mem_of_below {p : CanonicalPath} (hb : fs.realpath (ascii "./www") = some base)
    (hroot : base ≠ root) (hp : fs.realpath r.target = some p) (hbelow : base.Below p) :
    Call.openFile p.render (fs.contents p).isSome ∈ serve fs delivery (indexed r.path) := by
  rw [serve_of_existing hb hp, if_pos ⟨hbelow, fun h => absurd h hroot⟩, openFile_mem_sendFile,
    FileSystem.openFile_render hp]
  exact ⟨rfl, rfl⟩

/-- 403 is sent for the existing files outside. -/
theorem statusLine_eq_forbidden_iff (hb : fs.realpath (ascii "./www") = some base)
    (hroot : base ≠ root) :
    statusLine (response (serve fs delivery (indexed r.path))) = statusLine forbidden ↔
      ∃ p, fs.realpath r.target = some p ∧ ¬ base.Below p := by
  cases hp : fs.realpath r.target with
  | none =>
    rw [serve_of_missing hb hp, response_reply, statusLine_notFound, statusLine_forbidden]
    simp only [reduceCtorEq, false_and, exists_false, iff_false]
    decide
  | some p =>
    rw [serve_of_existing hb hp]
    simp only [hroot, false_implies, and_true, Option.some.injEq, exists_eq_left']
    by_cases hbelow : base.Below p
    · rw [if_pos hbelow]
      simp [statusLine_sendFile_ne, hbelow]
    · rw [if_neg hbelow, response_reply]
      simp [hbelow]

end Serve

/-- **`webserver` serves the web root and nothing else.** On a GET request that fits, over any
file system: whatever is opened has a canonical path below that of `./www`; and when that is not
`/`, every existing file below it passes the test and is opened, and the answer is 403 exactly for
the existing files that are not below it. -/
theorem serves_below_base (fs : FileSystem) (delivery : Delivery) (r : Request)
    (hget : r.method = ascii "GET") :
    ∃ calls, handleRequest fs delivery r.received = some calls ∧
      (∀ q ok, Call.openFile q ok ∈ calls → ∃ base p, fs.realpath (ascii "./www") = some base ∧
        fs.realpath q = some p ∧ base.Below p) ∧
      ∀ base, fs.realpath (ascii "./www") = some base → base ≠ root →
        (∀ p, fs.realpath r.target = some p → base.Below p →
          Call.openFile p.render (fs.contents p).isSome ∈ calls) ∧
        (statusLine (response calls) = ascii "HTTP/1.1 403 Forbidden" ↔
          ∃ p, fs.realpath r.target = some p ∧ ¬ base.Below p) := by
  refine ⟨serve fs delivery (indexed r.path), ?_, fun q ok h => below_of_openFile_mem h, ?_⟩
  · rw [handleRequest_eq, if_pos hget]
  · intro base hb hroot
    refine ⟨fun p hp hbelow => openFile_mem_of_below hb hroot hp hbelow, ?_⟩
    rw [← statusLine_forbidden]
    exact statusLine_eq_forbidden_iff hb hroot

end Webserver

/-! ### A web root with a sibling -/

/-- `/srv/www` -/
def wwwDir : CanonicalPath := ⟨[ascii "srv", ascii "www"], by decide⟩

/-- `/srv/www-secret/key` -/
def secretKey : CanonicalPath := ⟨[ascii "srv", ascii "www-secret", ascii "key"], by decide⟩

/-- The server runs in `/srv`, beside `www` there is `www-secret`, and in that a file. -/
def siblingSite : FileSystem :=
  .ofTable
    [(ascii "./www", wwwDir), (wwwDir.render, wwwDir),
      (ascii "./www/../www-secret/key", secretKey), (secretKey.render, secretKey)]
    (fun p => if p = secretKey then some (ascii "secret") else none)
    (by decide)

/-- `GET /../www-secret/key HTTP/1.1` -/
def siblingRequest : Request where
  received := ascii "GET /../www-secret/key HTTP/1.1\r\n\r\n"
  method := ascii "GET"
  path := ascii "/../www-secret/key"
  received_le := by decide
  scanned := by decide
  method_lt := by decide
  path_lt := by decide

/-- The sibling of the web root is refused, although its string has the web root's as a prefix. -/
theorem Webserver.serves_below_base_sibling :
    ∃ calls, handleRequest siblingSite .bytewise siblingRequest.received = some calls ∧
      statusLine (response calls) = ascii "HTTP/1.1 403 Forbidden" := by
  obtain ⟨calls, hcalls, -, hstatus⟩ :=
    serves_below_base siblingSite .bytewise siblingRequest rfl
  refine ⟨calls, hcalls, (hstatus wwwDir (by decide) (by decide)).2.mpr ?_⟩
  exact ⟨secretKey, by decide, by decide⟩

/-! ### The two servers -/

/-- The two servers send the same status line and the same body, and `webserver-mt` opens no file
outside the web root. -/
def AnswersAlike (fs : FileSystem) (delivery delivery' : Delivery) (r : Request) : Prop :=
  ∃ calls calls', Webserver.handleRequest fs delivery r.received = some calls ∧
    WebserverMt.handleRequest fs delivery' r.received = some calls' ∧
    statusLine (response calls') = statusLine (response calls) ∧
    body (response calls') = body (response calls) ∧
    ∀ q, Call.openFile q true ∈ calls' → ∃ base p, fs.realpath (ascii "./www") = some base ∧
      fs.realpath q = some p ∧ base.Below p

namespace WebserverMt

theorem serve_eq (fs : FileSystem) (delivery : Delivery) (r : Request) :
    serve fs delivery (indexed r.path) = sendFile fs delivery r.target := by
  rw [serve, snprintf_target le_rfl]

end WebserverMt

theorem answersAlike_of_ne_get {fs : FileSystem} {delivery delivery' : Delivery} {r : Request}
    (hget : r.method ≠ ascii "GET") : AnswersAlike fs delivery delivery' r := by
  refine ⟨reply methodNotAllowed, _, ?_, WebserverMt.handleRequest_eq fs delivery' r, ?_⟩
  · rw [Webserver.handleRequest_eq, if_neg hget]
  · rw [if_neg hget, response_print]
    refine ⟨rfl, rfl, ?_⟩
    intro q hq
    simp [reply] at hq

/-- On a GET request, alike is what the two `serve` do. -/
theorem answersAlike_iff_serve {fs : FileSystem} {delivery delivery' : Delivery} {r : Request}
    (hget : r.method = ascii "GET") :
    AnswersAlike fs delivery delivery' r ↔
      statusLine (response (sendFile fs delivery' r.target)) =
          statusLine (response (Webserver.serve fs delivery (indexed r.path))) ∧
        body (response (sendFile fs delivery' r.target)) =
          body (response (Webserver.serve fs delivery (indexed r.path))) ∧
        ((fs.openFile r.target).isSome → ∃ base p, fs.realpath (ascii "./www") = some base ∧
          fs.realpath r.target = some p ∧ base.Below p) := by
  rw [AnswersAlike, Webserver.handleRequest_eq, WebserverMt.handleRequest_eq, if_pos hget,
    if_pos hget, WebserverMt.serve_eq]
  constructor
  · rintro ⟨_, _, hws, hmt, hstatus, hbody, hopen⟩
    cases hws
    cases hmt
    rw [response_print] at hstatus hbody
    refine ⟨hstatus, hbody, fun hsome => hopen r.target ?_⟩
    rw [List.mem_cons]
    exact Or.inr (openFile_mem_sendFile.mpr ⟨rfl, hsome.symm⟩)
  · rintro ⟨hstatus, hbody, hopen⟩
    refine ⟨_, _, rfl, rfl, hstatus, hbody, ?_⟩
    intro q hq
    rw [List.mem_cons] at hq
    rcases hq with hq | hq
    · cases hq
    · obtain ⟨rfl, hsome⟩ := openFile_mem_sendFile.mp hq
      exact hopen hsome.symm

/-- A path that does not resolve is answered with 404 by both. -/
theorem answersAlike_of_missing {fs : FileSystem} {delivery delivery' : Delivery} {r : Request}
    (hget : r.method = ascii "GET") {base : CanonicalPath}
    (hb : fs.realpath (ascii "./www") = some base) (hp : fs.realpath r.target = none) :
    AnswersAlike fs delivery delivery' r := by
  have hopen : fs.openFile r.target = none := by rw [FileSystem.openFile, hp]; rfl
  rw [answersAlike_iff_serve hget, Webserver.serve_of_missing hb hp, response_reply,
    response_sendFile, hopen]
  exact ⟨rfl, rfl, fun h => absurd h (by simp)⟩

/-- A path that passes the test leads both to the same file. -/
theorem answersAlike_of_below {fs : FileSystem} {delivery delivery' : Delivery} {r : Request}
    (hget : r.method = ascii "GET") {base p : CanonicalPath}
    (hb : fs.realpath (ascii "./www") = some base) (hp : fs.realpath r.target = some p)
    (hbelow : base.Below p ∧ (base = root → p = root)) : AnswersAlike fs delivery delivery' r := by
  have hopen : fs.openFile p.render = fs.openFile r.target := by
    rw [FileSystem.openFile_render hp, FileSystem.openFile, hp]
    rfl
  rw [answersAlike_iff_serve hget, Webserver.serve_of_existing hb hp, if_pos hbelow,
    response_sendFile, response_sendFile, hopen]
  exact ⟨rfl, rfl, fun _ => ⟨base, p, hb, hp, hbelow.1⟩⟩

/-- `webserver-mt` never answers 403. -/
theorem not_answersAlike_of_outside {fs : FileSystem} {delivery delivery' : Delivery} {r : Request}
    (hget : r.method = ascii "GET") {base p : CanonicalPath}
    (hb : fs.realpath (ascii "./www") = some base) (hp : fs.realpath r.target = some p)
    (hbelow : ¬ (base.Below p ∧ (base = root → p = root))) :
    ¬ AnswersAlike fs delivery delivery' r := by
  rw [answersAlike_iff_serve hget, Webserver.serve_of_existing hb hp, if_neg hbelow,
    response_reply]
  rintro ⟨hstatus, -⟩
  exact statusLine_sendFile_ne fs delivery' r.target hstatus

/-- Without a web root `webserver` sends nothing, and `webserver-mt` something. -/
theorem not_answersAlike_of_no_base {fs : FileSystem} {delivery delivery' : Delivery} {r : Request}
    (hget : r.method = ascii "GET") (hb : fs.realpath (ascii "./www") = none) :
    ¬ AnswersAlike fs delivery delivery' r := by
  rw [answersAlike_iff_serve hget, Webserver.serve_of_no_base hb, response_sendFile]
  rintro ⟨hstatus, -⟩
  cases hopen : fs.openFile r.target with
  | none =>
    rw [hopen, Option.elim_none, statusLine_notFound] at hstatus
    exact absurd hstatus (by decide)
  | some content =>
    rw [hopen, Option.elim_some, statusLine_header] at hstatus
    exact absurd hstatus (by decide)

/-- **When the two servers answer alike.** On any request that fits and any file system, and
however the file is delivered to each of them: exactly when the method is not GET, or `./www`
exists and the path asked for does not resolve, or resolves to something below `./www` (to `/`
itself when `./www` is `/`). -/
theorem answersAlike_iff (fs : FileSystem) (delivery delivery' : Delivery) (r : Request) :
    AnswersAlike fs delivery delivery' r ↔
      r.method ≠ ascii "GET" ∨ ∃ base, fs.realpath (ascii "./www") = some base ∧
        ∀ p, fs.realpath r.target = some p → base.Below p ∧ (base = root → p = root) := by
  by_cases hget : r.method = ascii "GET"
  · simp only [ne_eq, hget, not_true_eq_false, false_or]
    cases hb : fs.realpath (ascii "./www") with
    | none => simp [not_answersAlike_of_no_base hget hb]
    | some base =>
      simp only [Option.some.injEq, exists_eq_left']
      cases hp : fs.realpath r.target with
      | none => simp [answersAlike_of_missing hget hb hp]
      | some p =>
        simp only [Option.some.injEq, forall_eq']
        by_cases hbelow : base.Below p ∧ (base = root → p = root)
        · exact iff_of_true (answersAlike_of_below hget hb hp hbelow) hbelow
        · exact iff_of_false (not_answersAlike_of_outside hget hb hp hbelow) hbelow
  · exact iff_of_true (answersAlike_of_ne_get hget) (Or.inl hget)

/-- The file beside the web root: `webserver` refuses it, `webserver-mt` sends it. -/
theorem webserverMt_serves_sibling :
    ((Webserver.handleRequest siblingSite .bytewise siblingRequest.received).map fun calls =>
        (statusLine (response calls), body (response calls))) =
      some (ascii "HTTP/1.1 403 Forbidden", ascii "<h1>403 Forbidden</h1>\n") ∧
    ((WebserverMt.handleRequest siblingSite .bytewise siblingRequest.received).map fun calls =>
        (statusLine (response calls), body (response calls))) =
      some (ascii "HTTP/1.1 200 OK", ascii "secret") ∧
    ¬ AnswersAlike siblingSite .bytewise .bytewise siblingRequest := by
  have hbase : siblingSite.realpath (ascii "./www") = some wwwDir := by decide
  have hkey : siblingSite.realpath siblingRequest.target = some secretKey := by decide
  exact ⟨by decide, by decide, not_answersAlike_of_outside rfl hbase hkey (by decide)⟩

end SystemProgramming
