import SystemProgramming.Library.Stores
import SystemProgramming.WebServer.Request

/-!
# `sscanf` and its arrays

Both servers scan the request with `sscanf(buffer, "%s %s", method, path)`, with no width in the
format, into `char method[8], path[256]`, and do not look at what it returns. Here the two arrays
are arrays of bytes that are not assigned at first. `handleInPlace` is the code from `sscanf` to
`snprintf` on them, with a log of every byte that it stores to one of them or reads from it, up to
the first access that has no meaning.

## Why byte by byte

What `sscanf` does to an array that is too small is not defined by C, so there is nothing to
translate. What can be said is which accesses are made up to that point. The log has every one of
them with its index, and the results say when all of them are inside the arrays and read bytes that
have been assigned: then and only then the words that `Request` works with are those of the code.

## Main definitions

* `LocalArray`, `ArrayAccess` — the arrays, and the accesses to them
* `Webserver.handleInPlace`, `WebserverMt.handleInPlace` — the handlers on their arrays
* `WordsFit` — the requests whose words are there and have room in the arrays

## Main results

* `Webserver.result_handleInPlace`, `WebserverMt.result_handleInPlace` — on their arrays the
  handlers do what `handleRequest` does
* `handleInPlace_inside_iff` — when all accesses have a meaning
-/

namespace SystemProgramming

namespace WebServer

open Traced

/-! ### The arrays -/

/-- The arrays that `sscanf` fills. -/
inductive LocalArray
  | method
  | path
  deriving DecidableEq, Repr

/-- `char method[8], path[256]` -/
def LocalArray.size : LocalArray → ℕ
  | .method => 8
  | .path => 256

/-- The bytes of the array where it is declared. -/
def LocalArray.declared (array : LocalArray) : List (Option UInt8) :=
  List.replicate array.size none

/-- An access to a byte of an array. -/
inductive ArrayAccess
  | store (array : LocalArray) (i : ℕ)
  /-- A read, and whether the byte is one of the array and has been assigned. -/
  | load (array : LocalArray) (i : ℕ) (assigned : Bool)
  deriving DecidableEq, Repr

/-- A byte of the array is stored, or a byte that has been assigned is read. -/
def ArrayAccess.Inside : ArrayAccess → Prop
  | .store array i => i < array.size
  | .load _ _ assigned => assigned = true

instance : DecidablePred ArrayAccess.Inside
  | .store array i => inferInstanceAs (Decidable (i < array.size))
  | .load _ _ assigned => inferInstanceAs (Decidable (assigned = true))

/-- Store a string and its terminator at the start of an array. -/
def storeString (array : LocalArray) (cells : List (Option UInt8)) (s : List UInt8) :
    Traced ArrayAccess (List (Option UInt8)) := do
  let stored ← storeAll (.store array) (stringCells s) cells 0
  return stored.1

/-- `sscanf(buffer, "%s %s", method, path)` -/
def sscanf (buffer : List UInt8) (method path : List (Option UInt8)) :
    Traced ArrayAccess (List (Option UInt8) × List (Option UInt8)) :=
  match scanWord (cstring buffer) with
  | none => return (method, path)
  | some (first, rest) => do
    let method ← storeString .method method first
    match scanWord rest with
    | none => return (method, path)
    | some (second, _) => return (method, ← storeString .path path second)

/-- The path from `if (strcmp(path, "/") == 0)` to `snprintf`. -/
def indexInPlace (path : List (Option UInt8)) : Traced ArrayAccess (List UInt8) := do
  let isRoot ← strcmpCells (.load .path) path (ascii "/") 0
  let path ← (if isRoot then storeString .path path (ascii "/index.html") else return path)
  readCells (.load .path) path 0

/-- From `sscanf` to `snprintf`; `serve` is what follows. -/
def scanInPlace (serve : List UInt8 → List Call) (received : List UInt8) :
    Traced ArrayAccess (List Call) := do
  let (method, path) ← sscanf received LocalArray.method.declared LocalArray.path.declared
  if !(← strcmpCells (.load .method) method (ascii "GET") 0) then return reply methodNotAllowed
  else return serve (← indexInPlace path)

end WebServer

open WebServer Traced

/-- `handle_request` of `webserver` -/
def Webserver.handleInPlace (fs : FileSystem) (delivery : Delivery) (received : List UInt8) :
    Traced ArrayAccess (List Call) :=
  if received.length = 0 then return [.closeClient] else scanInPlace (serve fs delivery) received

/-- `handle_request` of `webserver-mt` -/
def WebserverMt.handleInPlace (fs : FileSystem) (delivery : Delivery) (received : List UInt8) :
    Traced ArrayAccess (List Call) :=
  if received.length = 0 then return [.closeClient]
  else do
    let calls ← scanInPlace (serve fs delivery) received
    return .print (ascii "Received request:\n" ++ cstring received ++ ascii "\n") :: calls

namespace WebServer

/-! ### What the arrays hold -/

theorem result_storeString {array : LocalArray} {cells : List (Option UInt8)} (s : List UInt8)
    (hlen : cells.length = array.size) : (storeString array cells s).result =
      if s.length < array.size then some (stringCells s ++ cells.drop (s.length + 1))
      else none := by
  rw [storeString, result_bind, result_storeAll _ _ (Nat.zero_le _), hlen, Nat.zero_add,
    length_stringCells, overwrite_zero, length_stringCells]
  by_cases hlt : s.length < array.size
  · rw [if_pos hlt, if_pos (Nat.succ_le_of_lt hlt)]
    rfl
  · rw [if_neg hlt, if_neg (by omega)]
    rfl

/-- The array behind `sscanf`, when it has been given a word that fits, or none. -/
def LocalArray.holding (array : LocalArray) : Option (List UInt8) → List (Option UInt8)
  | none => array.declared
  | some s => stringCells s ++ array.declared.drop (s.length + 1)

theorem LocalArray.length_declared (array : LocalArray) : array.declared.length = array.size :=
  List.length_replicate

theorem LocalArray.length_holding (array : LocalArray) : ∀ {word : Option (List UInt8)},
    (∀ s, word = some s → s.length < array.size) → (array.holding word).length = array.size
  | none, _ => array.length_declared
  | some s, h => by
    have hlt := h s rfl
    rw [holding, List.length_append, length_stringCells, List.length_drop, length_declared]
    omega

theorem fits_iff (scan : Scan) : scan.fits = true ↔
    (∀ s, scan.method = some s → s.length < LocalArray.method.size) ∧
      ∀ s, scan.path = some s → s.length < LocalArray.path.size := by
  simp only [Scan.fits, Bool.and_eq_true, Option.all_eq_true, decide_eq_true_eq]
  exact Iff.rfl

/-- `sscanf` has a meaning when the words fit. -/
theorem result_sscanf (received : List UInt8) :
    (sscanf received LocalArray.method.declared LocalArray.path.declared).result =
      if (scanRequest received).fits then
        some (LocalArray.method.holding (scanRequest received).method,
          LocalArray.path.holding (scanRequest received).path)
      else none := by
  rw [sscanf, scanRequest]
  rcases scanWord (cstring received) with _ | ⟨first, rest⟩
  · rfl
  · simp only [result_bind, result_storeString first (LocalArray.length_declared .method)]
    by_cases hfirst : first.length < LocalArray.method.size
    · rw [if_pos hfirst, Option.bind_some]
      rcases scanWord rest with _ | ⟨second, rest'⟩
      · have hfits : Scan.fits ⟨some first, none⟩ = true := (fits_iff _).mpr (by simp [hfirst])
        rw [Option.map_none, if_pos hfits]
        rfl
      · simp only [result_bind, result_storeString second (LocalArray.length_declared .path),
          Option.map_some, fits_iff]
        by_cases hsecond : second.length < LocalArray.path.size
        · rw [if_pos hsecond, if_pos (by simp [hfirst, hsecond])]
          rfl
        · rw [if_neg hsecond, if_neg (by simp [hsecond])]
          rfl
    · rw [if_neg hfirst, if_neg (by simp [fits_iff, hfirst])]
      rfl

theorem zero_notMem_scanWord {buffer word rest : List UInt8} (h0 : 0 ∉ buffer)
    (h : scanWord buffer = some (word, rest)) : 0 ∉ word ∧ 0 ∉ rest := by
  rw [scanWord] at h
  split at h
  · cases h
  · obtain ⟨rfl, rfl⟩ := Prod.mk.inj (Option.some.inj h)
    refine ⟨fun h => h0 ?_, fun h => h0 ?_⟩
    · exact (List.dropWhile_sublist _).subset ((List.takeWhile_sublist _).subset h)
    · exact (List.dropWhile_sublist _).subset ((List.dropWhile_sublist _).subset h)

theorem zero_notMem_scanRequest (received : List UInt8) :
    (∀ s, (scanRequest received).method = some s → 0 ∉ s) ∧
      ∀ s, (scanRequest received).path = some s → 0 ∉ s := by
  rw [scanRequest]
  rcases hfirst : scanWord (cstring received) with _ | ⟨first, rest⟩
  · exact ⟨fun _ h => absurd h (by simp), fun _ h => absurd h (by simp)⟩
  · obtain ⟨h0, hrest⟩ := zero_notMem_scanWord (zero_notMem_cstring received) hfirst
    refine ⟨fun s h => Option.some.inj h ▸ h0, fun s h => ?_⟩
    obtain ⟨⟨second, rest'⟩, hsecond, rfl⟩ := Option.map_eq_some_iff.mp h
    exact (zero_notMem_scanWord hrest hsecond).1

/-! ### The handlers on their arrays -/

theorem result_strcmpCells_holding (array : LocalArray) {s t : List UInt8} (ht : 0 ∉ t)
    (hs : 0 ∉ s) : (strcmpCells (ArrayAccess.load array) (array.holding (some s)) t 0).result =
      some (s == t) :=
  result_strcmpCells _ _ _ _ ht hs

/-- An array that is not assigned is not compared. -/
theorem result_strcmpCells_declared (array : LocalArray) (t : List UInt8) :
    (strcmpCells (ArrayAccess.load array) (array.holding none) t 0).result = none := by
  cases array <;> cases t <;> rfl

/-- What `snprintf` reads from `path`: `/index.html` in place of `/`. -/
theorem result_indexInPlace {path : List UInt8} (h0 : 0 ∉ path)
    (hlt : path.length < LocalArray.path.size) :
    (indexInPlace (LocalArray.path.holding (some path))).result = some (indexed path) := by
  have hlen : (LocalArray.path.holding (some path)).length = LocalArray.path.size :=
    LocalArray.path.length_holding fun s hs => Option.some.inj hs ▸ hlt
  have hslash : 0 ∉ ascii "/" := by decide
  have hindex : 0 ∉ ascii "/index.html" := by decide
  rw [indexInPlace, result_bind, result_strcmpCells_holding .path hslash h0, Option.bind_some,
    result_bind, indexed]
  by_cases hroot : path = ascii "/"
  · rw [if_pos hroot, if_pos (beq_iff_eq.mpr hroot), result_storeString _ hlen,
      if_pos (by decide), Option.bind_some]
    exact result_readCells _ _ _ _ hindex
  · rw [if_neg hroot, if_neg (by simpa using hroot)]
    exact result_readCells _ _ _ _ h0

/-- **The code from `sscanf` to `snprintf` on its arrays.** -/
theorem result_scanInPlace (serve : List UInt8 → List Call) (received : List UInt8) :
    (scanInPlace serve received).result = handle serve received := by
  obtain ⟨hmethod0, hpath0⟩ := zero_notMem_scanRequest received
  have hget : 0 ∉ ascii "GET" := by decide
  rw [scanInPlace, handle, result_bind, result_sscanf]
  by_cases hfits : (scanRequest received).fits
  · obtain ⟨-, hpathlt⟩ := (fits_iff _).mp hfits
    rw [if_pos hfits, if_pos hfits, Option.bind_some]
    rcases hmethod : (scanRequest received).method with _ | method
    · rw [result_bind, result_strcmpCells_declared]
      rfl
    · rw [result_bind, result_strcmpCells_holding .method hget (hmethod0 method hmethod)]
      by_cases heq : method = ascii "GET"
      · rcases hpath : (scanRequest received).path with _ | path
        · simp [heq, indexInPlace, result_strcmpCells_declared]
        · simp [heq, result_indexInPlace (hpath0 path hpath) (hpathlt path hpath)]
      · simp [heq]
  · rw [if_neg hfits, if_neg hfits]
    rfl

/-! ### Where a handler stops -/

theorem stopsOutside_storeString {array : LocalArray} {cells : List (Option UInt8)}
    (s : List UInt8) (hlen : cells.length = array.size) :
    (storeString array cells s).StopsOutside ArrayAccess.Inside :=
  (stopsOutside_storeAll (fun _ => Iff.rfl) _ hlen 0).bind fun _ _ => stopsOutside_pure _

theorem stopsOutside_sscanf (buffer : List UInt8) :
    (sscanf buffer LocalArray.method.declared LocalArray.path.declared).StopsOutside
      ArrayAccess.Inside := by
  rw [sscanf]
  split
  · exact stopsOutside_pure _
  · rename_i first rest _
    refine (stopsOutside_storeString first (LocalArray.length_declared .method)).bind
      fun method _ => ?_
    split
    · exact stopsOutside_pure _
    · rename_i second _ _
      exact (stopsOutside_storeString second (LocalArray.length_declared .path)).bind
        fun _ _ => stopsOutside_pure _

theorem stopsOutside_indexInPlace {path : List (Option UInt8)}
    (hlen : path.length = LocalArray.path.size) :
    (indexInPlace path).StopsOutside ArrayAccess.Inside := by
  refine (stopsOutside_strcmpCells (fun _ _ => Iff.rfl) _ _ 0).bind fun isRoot _ => ?_
  refine StopsOutside.bind ?_ fun _ _ => stopsOutside_readCells (fun _ _ => Iff.rfl) _ 0
  split
  · exact stopsOutside_storeString _ hlen
  · exact stopsOutside_pure _

/-- A path that `sscanf` has left has its size. -/
theorem length_of_sscanf {received : List UInt8}
    {arrays : List (Option UInt8) × List (Option UInt8)}
    (h : (sscanf received LocalArray.method.declared LocalArray.path.declared).result =
      some arrays) : arrays.2.length = LocalArray.path.size := by
  rw [result_sscanf] at h
  obtain ⟨hfits, harrays⟩ := Option.ite_none_right_eq_some.mp h
  obtain rfl := Option.some.inj harrays
  exact LocalArray.path.length_holding ((fits_iff _).mp hfits).2

theorem stopsOutside_scanInPlace (serve : List UInt8 → List Call) (received : List UInt8) :
    (scanInPlace serve received).StopsOutside ArrayAccess.Inside := by
  refine (stopsOutside_sscanf received).bind fun arrays harrays => ?_
  refine (stopsOutside_strcmpCells (fun _ _ => Iff.rfl) _ _ 0).bind fun isGet _ => ?_
  split
  · exact stopsOutside_pure _
  · exact (stopsOutside_indexInPlace (length_of_sscanf harrays)).bind fun _ _ =>
      stopsOutside_pure _

/-! ### The words of a request -/

/-- The words of a request: what `%s` can take from the buffer, which ends at the first NUL. -/
def words (received : List UInt8) : List (List UInt8) := tokens isspace (cstring received)

/-- There is a method of at most 7 bytes, the next word, if any, has at most 255, and behind `GET`
there is one. -/
def WordsFit (received : List UInt8) : Prop :=
  ∃ method, (words received)[0]? = some method ∧ method.length < 8 ∧
    (∀ path, (words received)[1]? = some path → path.length < 256) ∧
    (method = ascii "GET" → ((words received)[1]?).isSome)

theorem scanRequest_eq (received : List UInt8) :
    scanRequest received = ⟨(words received)[0]?, (words received)[1]?⟩ := by
  rw [scanRequest, words, tokens_eq_scanWord]
  rcases scanWord (cstring received) with _ | ⟨method, rest⟩
  · rfl
  · show (⟨some method, _⟩ : Scan) = ⟨some method, (tokens isspace rest)[0]?⟩
    rw [tokens_eq_scanWord rest]
    rcases scanWord rest with _ | ⟨path, rest'⟩ <;> rfl

theorem handle_isSome_iff_wordsFit (serve : List UInt8 → List Call) (received : List UInt8) :
    (handle serve received).isSome ↔ WordsFit received := by
  rw [handle_isSome_iff, scanRequest_eq, WordsFit, Scan.fits]
  simp only [Bool.and_eq_true, Option.all_eq_true, decide_eq_true_eq]
  constructor
  · rintro ⟨⟨hmethod, hpath⟩, method, hword, hget⟩
    exact ⟨method, hword, hmethod method hword, hpath, hget⟩
  · rintro ⟨method, hword, hlt, hpath, hget⟩
    refine ⟨⟨fun m hm => ?_, hpath⟩, method, hword, hget⟩
    obtain rfl := Option.some.inj (hword.symm.trans hm)
    exact hlt

end WebServer

/-- On its arrays `webserver` does what `handleRequest` says. -/
theorem Webserver.result_handleInPlace (fs : FileSystem) (delivery : Delivery)
    (received : List UInt8) :
    (handleInPlace fs delivery received).result = handleRequest fs delivery received := by
  rw [handleInPlace, handleRequest]
  split
  · rfl
  · exact result_scanInPlace _ _

/-- On its arrays `webserver-mt` does what `handleRequest` says. -/
theorem WebserverMt.result_handleInPlace (fs : FileSystem) (delivery : Delivery)
    (received : List UInt8) :
    (handleInPlace fs delivery received).result = handleRequest fs delivery received := by
  rw [handleInPlace, handleRequest]
  split
  · rfl
  · rw [result_bind, result_scanInPlace]
    exact Option.map_eq_bind.symm

theorem Webserver.stopsOutside_handleInPlace (fs : FileSystem) (delivery : Delivery)
    (received : List UInt8) :
    (handleInPlace fs delivery received).StopsOutside ArrayAccess.Inside := by
  rw [handleInPlace]
  split
  · exact stopsOutside_pure _
  · exact stopsOutside_scanInPlace _ _

theorem WebserverMt.stopsOutside_handleInPlace (fs : FileSystem) (delivery : Delivery)
    (received : List UInt8) :
    (handleInPlace fs delivery received).StopsOutside ArrayAccess.Inside := by
  rw [handleInPlace]
  split
  · exact stopsOutside_pure _
  · exact (stopsOutside_scanInPlace _ _).bind fun _ _ => stopsOutside_pure _

namespace WebServer

/-- **When the accesses have a meaning.** All bytes that are stored are inside the arrays, and all
bytes that are read have been assigned, exactly when nothing is received or the words fit. -/
theorem handleInPlace_inside_iff (fs : FileSystem) (delivery : Delivery) (received : List UInt8) :
    ((∀ access ∈ (Webserver.handleInPlace fs delivery received).log, access.Inside) ↔
        received = [] ∨ WordsFit received) ∧
      ((∀ access ∈ (WebserverMt.handleInPlace fs delivery received).log, access.Inside) ↔
        received = [] ∨ WordsFit received) := by
  rw [(Webserver.stopsOutside_handleInPlace fs delivery received).inside_iff,
    (WebserverMt.stopsOutside_handleInPlace fs delivery received).inside_iff,
    Webserver.result_handleInPlace, WebserverMt.result_handleInPlace]
  rw [Webserver.handleRequest, WebserverMt.handleRequest]
  by_cases hnil : received = []
  · simp [hnil]
  · have hlen : ¬ received.length = 0 := List.length_eq_zero_iff.not.mpr hnil
    simp only [if_neg hlen, Option.isSome_map, handle_isSome_iff_wordsFit, hnil, false_or, and_self]

/-- A method of eight letters: its terminator is stored behind `method`. -/
theorem propfind_outside : ¬ ∀ (fs : FileSystem) (delivery : Delivery) (received : List UInt8),
    received.length ≤ bufSize - 1 →
      (∀ access ∈ (Webserver.handleInPlace fs delivery received).log, access.Inside) ∧
        ∀ access ∈ (WebserverMt.handleInPlace fs delivery received).log, access.Inside := by
  intro h
  have hlog := (h (.ofTable [] (fun _ => none) (by simp)) .bytewise
    (ascii "PROPFIND / HTTP/1.1\r\n\r\n") (by decide)).1
  exact absurd (hlog (.store .method 8) (by decide)) (by decide)

end WebServer

end SystemProgramming
