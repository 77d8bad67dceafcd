import SystemProgramming.Cpdr.CpDir

/-!
# `cp2`

`lab1-lyjae/cp2.c` copies a file, after asking `stat` whether source and destination are one. The
program is a machine that stands at a system call; an action is the outcome of the call. A call may
always fail, for permissions, limits and devices are left to the outcomes. Where it succeeds it does
what the file system says.

A regular file is known by its inode, whatever links lead there, and everything else by its place.
Nothing else changes the files meanwhile.

## What is assumed

The two paths mean the same from `stat` to `creat`, as nobody else changes the file system. `write`
may accept a part of what it is given, or nothing, and the program takes both for errors. The sizes
of the reads are arbitrary, up to `BUFFERSIZE`. What `oops` prints is kept as the two texts that are
handed to `fprintf` and `perror`.

## How it goes

Each constructor of `Call` is one system call with its outcome, and `call_of_step` says that the
program does nothing else. `Reached` lists by line what is known. Up to `creat` the file system is
the one at the beginning; from there on it is `Copied`, for as many bytes as have been read. The
comparison of the inodes is what makes `Copied` possible: the inode that is written is not the one
that is read, and so the source is as it was and every `read` delivers what stood there before.

## Main definitions

* `Os.stat`, `Os.contents`, `Os.creat` — what a path leads to, and what `creat` makes of it
* `step`, `machine` — the program
* `Copied` — so many bytes have been copied
* `Reached` — what holds at each line

## Main results

* `Os.creat_cases` — the outcomes of `creat`
* `call_of_step` — what a step can do
* `Reached.call` — a call keeps what holds
* `copies_or_refuses` — every run copies the source, or leaves it alone
-/

namespace SystemProgramming

namespace Cp2

def bufferSize : ℕ := 4096

/-- `COPYMODE`: 0644. -/
def copyMode : Mode := 0b110100100

/-- The system, and the process that runs on it. -/
structure Os where
  cwd : Place
  umask : Mode
  /-- `stat` may fail for a file that exists. -/
  statFaults : Bool

/-- Nothing keeps the caller from going along a path: that is left to the outcomes. -/
def Os.caller (os : Os) : Caller := ⟨true, os.cwd, none⟩

/-- `st_dev` and `st_ino` -/
inductive FileId
  /-- A regular file. -/
  | file (ino : ℕ)
  | other (p : Place)
  deriving DecidableEq

/-- What the path leads to, if it exists. -/
def Os.stat (os : Os) (fs : Fs) (path : List UInt8) : Option FileId :=
  match os.caller.locate fs true path with
  | .found p =>
    match fs.node p with
    | some (.file i) => some (.file i)
    | some _ => some (.other p)
    | none => none
  | _ => none

/-- What a regular file contains. -/
def Os.contents (os : Os) (fs : Fs) (path : List UInt8) : Option (List UInt8) :=
  match os.stat fs path with
  | some (.file i) => some (fs.inodes i).content
  | _ => none

/-- `creat(path, COPYMODE)`: the file system behind it, and the inode that is opened, if it is a
regular file. -/
def Os.creat (os : Os) (fs : Fs) (path : List UInt8) : Option (Fs × Option ℕ) :=
  os.caller.openWrite fs path (copyMode &&& ~~~os.umask)

/-- The file that is read, the inode that is written, and how much has been read. -/
structure Fds where
  inFd : FileId
  outFd : Option ℕ
  pos : ℕ

/-- The call that comes next. -/
inductive Line
  /-- `stat(av[1], &st_src)` -/
  | statSrc
  /-- `stat(av[2], &st_dst)` -/
  | statDst (stSrc : FileId)
  /-- `open(av[1], O_RDONLY)` -/
  | openSrc
  /-- `creat(av[2], COPYMODE)` -/
  | creatDst (inFd : FileId)
  | read (fds : Fds)
  /-- `write`, of what has just been read. -/
  | write (fds : Fds) (bytes : List UInt8)
  | closeIn
  | closeOut
  | exited (status : ℕ)

structure State where
  fs : Fs
  line : Line

/-- The outcome of a call. -/
inductive Answer
  /-- Success; of `read`, the end of the file. -/
  | ok
  /-- The call returns -1. -/
  | fails
  /-- What `read` delivers. -/
  | bytes (bytes : List UInt8)
  /-- How much `write` accepts. -/
  | wrote (n : ℕ)

inductive Event
  /-- `creat` has succeeded. -/
  | created
  /-- `read` has delivered. -/
  | delivered (bytes : List UInt8)
  | stderr (text : List UInt8)
  | perror (s : List UInt8)

/-- `read` may deliver these bytes. Of a directory nothing can be read. -/
def delivers (fs : Fs) (fds : Fds) (bytes : List UInt8) : Bool :=
  match fds.inFd with
  | .file i => bytes.isPrefixOf ((fs.inodes i).content.drop fds.pos)
  | .other p => !fs.isDir p

/-- `read` may return 0. -/
def atEnd (fs : Fs) (fds : Fds) : Bool :=
  match fds.inFd with
  | .file i => (fs.inodes i).content.length ≤ fds.pos
  | .other p => !fs.isDir p

/-- Go on at another call. -/
def State.goto (s : State) (line : Line) : Option (State × List Event) := some ({ s with line }, [])

/-- A message, and `exit(1)`. -/
def State.exit (s : State) (events : List Event) : Option (State × List Event) :=
  some ({ s with line := .exited 1 }, events)

/-- `oops(s1, s2)` -/
def State.oops (s : State) (s1 s2 : List UInt8) : Option (State × List Event) :=
  s.exit [.stderr (ascii "Error: :" ++ s1 ++ ascii " "), .perror s2]

/-- One call. -/
def step (os : Os) (src dst : List UInt8) (s : State) (a : Answer) :
    Option (State × List Event) :=
  match s.line, a with
  | .statSrc, .ok => (os.stat s.fs src).bind fun stSrc => s.goto (.statDst stSrc)
  | .statSrc, .fails =>
    if os.statFaults ∨ os.stat s.fs src = none then
      s.exit [.stderr (ascii "cp: cannot stat '" ++ src ++ ascii "'\n")]
    else none
  | .statDst stSrc, .ok => (os.stat s.fs dst).bind fun stDst =>
    if stSrc = stDst then
      s.exit [.stderr (ascii "cp: '" ++ src ++ ascii "' and '" ++ dst ++
        ascii "' are the same file\n")]
    else s.goto .openSrc
  | .statDst _, .fails =>
    if os.statFaults ∨ os.stat s.fs dst = none then s.goto .openSrc else none
  | .openSrc, .ok => (os.stat s.fs src).bind fun inFd => s.goto (.creatDst inFd)
  | .openSrc, .fails => s.oops (ascii "Cannot open ") src
  | .creatDst inFd, .ok => (os.creat s.fs dst).map fun p =>
    (⟨p.1, .read ⟨inFd, p.2, 0⟩⟩, [.created])
  | .creatDst _, .fails => s.oops (ascii "Cannnot creat") dst
  | .read fds, .bytes bytes =>
    if bytes ≠ [] ∧ bytes.length ≤ bufferSize ∧ delivers s.fs fds bytes then
      some ({ s with line := .write { fds with pos := fds.pos + bytes.length } bytes },
        [.delivered bytes])
    else none
  | .read fds, .ok => if atEnd s.fs fds then s.goto .closeIn else none
  | .read _, .fails => s.oops (ascii "Read error from ") src
  | .write fds bytes, .wrote n =>
    let s := { s with fs := Cpdr.append s.fs fds.outFd (bytes.take n) }
    if n = bytes.length then s.goto (.read fds)
    else if n < bytes.length then s.oops (ascii "Write error to ") dst
    else none
  | .write _ _, .fails => s.oops (ascii "Write error to ") dst
  | .closeIn, .ok => s.goto .closeOut
  | .closeIn, .fails => s.oops (ascii "Error closing files") []
  | .closeOut, .ok => s.goto (.exited 0)
  | .closeOut, .fails => s.oops (ascii "Error closing files") []
  | _, _ => none

/-- Where `main` begins: without two paths it says how it is used, and ends. -/
def start (fs : Fs) (av : List (List UInt8)) : State × List Event :=
  if av.length = 3 then (⟨fs, .statSrc⟩, [])
  else
    (⟨fs, .exited 1⟩,
      [.stderr (ascii "usage: " ++ av.getD 0 [] ++ ascii " source destination\n")])

/-- The program. -/
def machine (os : Os) (fs : Fs) (av : List (List UInt8)) : Machine State Answer Event where
  init := (start fs av).1
  step := step os (av.getD 1 []) (av.getD 2 [])

/-! ### One step -/

/-- What a call does, or that `cp2` gives up after it. -/
inductive Call (os : Os) (src dst : List UInt8) : State → State → List Event → Prop
  | statSrc {fs : Fs} {stSrc : FileId} (hstat : os.stat fs src = some stSrc) :
      Call os src dst ⟨fs, .statSrc⟩ ⟨fs, .statDst stSrc⟩ []
  | statDst {fs : Fs} {stSrc : FileId}
      (hstat : os.statFaults = true ∨ os.stat fs dst ≠ some stSrc) :
      Call os src dst ⟨fs, .statDst stSrc⟩ ⟨fs, .openSrc⟩ []
  | openSrc {fs : Fs} {inFd : FileId} (hopen : os.stat fs src = some inFd) :
      Call os src dst ⟨fs, .openSrc⟩ ⟨fs, .creatDst inFd⟩ []
  | creatDst {fs fs' : Fs} {inFd : FileId} {outFd : Option ℕ}
      (hcreat : os.creat fs dst = some (fs', outFd)) :
      Call os src dst ⟨fs, .creatDst inFd⟩ ⟨fs', .read ⟨inFd, outFd, 0⟩⟩ [.created]
  | read {fs : Fs} {fds : Fds} {bytes : List UInt8} (hne : bytes ≠ [])
      (hsize : bytes.length ≤ bufferSize) (hdelivers : delivers fs fds bytes = true) :
      Call os src dst ⟨fs, .read fds⟩
        ⟨fs, .write { fds with pos := fds.pos + bytes.length } bytes⟩ [.delivered bytes]
  | endOfFile {fs : Fs} {fds : Fds} (hend : atEnd fs fds = true) :
      Call os src dst ⟨fs, .read fds⟩ ⟨fs, .closeIn⟩ []
  | write (fs : Fs) (fds : Fds) (bytes : List UInt8) :
      Call os src dst ⟨fs, .write fds bytes⟩ ⟨Cpdr.append fs fds.outFd bytes, .read fds⟩ []
  | shortWrite (fs : Fs) (fds : Fds) {bytes : List UInt8} {n : ℕ} (hshort : n < bytes.length)
      {events : List Event} (hevents : .created ∉ events) :
      Call os src dst ⟨fs, .write fds bytes⟩
        ⟨Cpdr.append fs fds.outFd (bytes.take n), .exited 1⟩ events
  | closeIn (fs : Fs) : Call os src dst ⟨fs, .closeIn⟩ ⟨fs, .closeOut⟩ []
  | closeOut (fs : Fs) : Call os src dst ⟨fs, .closeOut⟩ ⟨fs, .exited 0⟩ []
  | giveUp (fs : Fs) {line : Line} (hline : ∀ status, line ≠ .exited status) {events : List Event}
      (hevents : .created ∉ events) : Call os src dst ⟨fs, line⟩ ⟨fs, .exited 1⟩ events

section Step

variable {os : Os} {src dst : List UInt8} {s s' : State} {a : Answer} {es : List Event}

theorem call_of_exit (hline : ∀ status, s.line ≠ .exited status) {events : List Event}
    (hevents : .created ∉ events) (h : s.exit events = some (s', es)) :
    Call os src dst s s' es := by
  obtain ⟨rfl, rfl⟩ := Prod.mk.inj (Option.some.inj h)
  exact .giveUp s.fs hline hevents

theorem call_of_oops (hline : ∀ status, s.line ≠ .exited status) {s1 s2 : List UInt8}
    (h : s.oops s1 s2 = some (s', es)) : Call os src dst s s' es :=
  call_of_exit hline (by simp) h

/-- **A step** is one of these calls. -/
theorem call_of_step (h : step os src dst s a = some (s', es)) : Call os src dst s s' es := by
  obtain ⟨fs, line⟩ := s
  cases line with
  | statSrc =>
    cases a with
    | ok =>
      obtain ⟨stSrc, hstat, hgoto⟩ := Option.bind_eq_some_iff.mp h
      obtain ⟨rfl, rfl⟩ := Prod.mk.inj (Option.some.inj hgoto)
      exact .statSrc hstat
    | fails =>
      exact call_of_exit (by simp) (by simp) (Option.ite_none_right_eq_some.mp h).2
    | bytes bytes => cases h
    | wrote n => cases h
  | statDst stSrc =>
    cases a with
    | ok =>
      obtain ⟨stDst, hstat, hnext⟩ := Option.bind_eq_some_iff.mp h
      by_cases hsame : stSrc = stDst
      · rw [if_pos hsame] at hnext
        exact call_of_exit (by simp) (by simp) hnext
      · rw [if_neg hsame] at hnext
        obtain ⟨rfl, rfl⟩ := Prod.mk.inj (Option.some.inj hnext)
        refine .statDst (Or.inr fun hfile => hsame ?_)
        exact Option.some.inj (hfile.symm.trans hstat)
    | fails =>
      obtain ⟨hfault, hnext⟩ := Option.ite_none_right_eq_some.mp h
      obtain ⟨rfl, rfl⟩ := Prod.mk.inj (Option.some.inj hnext)
      refine .statDst (hfault.imp_right fun hnone => ?_)
      rw [hnone]
      exact (Option.some_ne_none _).symm
    | bytes bytes => cases h
    | wrote n => cases h
  | openSrc =>
    cases a with
    | ok =>
      obtain ⟨inFd, hopen, hgoto⟩ := Option.bind_eq_some_iff.mp h
      obtain ⟨rfl, rfl⟩ := Prod.mk.inj (Option.some.inj hgoto)
      exact .openSrc hopen
    | fails => exact call_of_oops (by simp) h
    | bytes bytes => cases h
    | wrote n => cases h
  | creatDst inFd =>
    cases a with
    | ok =>
      obtain ⟨⟨fs', outFd⟩, hcreat, heq⟩ := Option.map_eq_some_iff.mp h
      obtain ⟨rfl, rfl⟩ := Prod.mk.inj heq
      exact .creatDst hcreat
    | fails => exact call_of_oops (by simp) h
    | bytes bytes => cases h
    | wrote n => cases h
  | read fds =>
    cases a with
    | ok =>
      obtain ⟨hend, hgoto⟩ := Option.ite_none_right_eq_some.mp h
      obtain ⟨rfl, rfl⟩ := Prod.mk.inj (Option.some.inj hgoto)
      exact .endOfFile hend
    | fails => exact call_of_oops (by simp) h
    | bytes bytes =>
      obtain ⟨⟨hne, hsize, hdelivers⟩, heq⟩ := Option.ite_none_right_eq_some.mp h
      obtain ⟨rfl, rfl⟩ := Prod.mk.inj (Option.some.inj heq)
      exact .read hne hsize hdelivers
    | wrote n => cases h
  | write fds bytes =>
    cases a with
    | wrote n =>
      by_cases hall : n = bytes.length
      · obtain ⟨rfl, rfl⟩ := Prod.mk.inj (Option.some.inj ((if_pos hall).symm.trans h))
        rw [hall, List.take_length]
        exact .write fs fds bytes
      · obtain ⟨hshort, hoops⟩ := Option.ite_none_right_eq_some.mp ((if_neg hall).symm.trans h)
        obtain ⟨rfl, rfl⟩ := Prod.mk.inj (Option.some.inj hoops)
        exact .shortWrite fs fds hshort (by simp)
    | fails => exact call_of_oops (by simp) h
    | ok => cases h
    | bytes bytes => cases h
  | closeIn =>
    cases a with
    | ok =>
      obtain ⟨rfl, rfl⟩ := Prod.mk.inj (Option.some.inj h)
      exact .closeIn fs
    | fails => exact call_of_oops (by simp) h
    | bytes bytes => cases h
    | wrote n => cases h
  | closeOut =>
    cases a with
    | ok =>
      obtain ⟨rfl, rfl⟩ := Prod.mk.inj (Option.some.inj h)
      exact .closeOut fs
    | fails => exact call_of_oops (by simp) h
    | bytes bytes => cases h
    | wrote n => cases h
  | exited status => cases a <;> cases h

end Step

/-! ### The calls -/

section Calls

variable {os : Os} {fs fs' : Fs} {path : List UInt8}

theorem Os.stat_of_found {p : Place} {x : Node} (hp : os.caller.locate fs true path = .found p)
    (hx : fs.node p = some x) : ∃ f, os.stat fs path = some f ∧
      ((∃ i, x = .file i ∧ f = .file i) ∨ (∀ i, x ≠ .file i) ∧ f = .other p) := by
  rw [Os.stat, hp]
  simp only [hx]
  cases x with
  | file i => exact ⟨_, rfl, Or.inl ⟨i, rfl, rfl⟩⟩
  | dir a => exact ⟨_, rfl, Or.inr ⟨fun _ => Node.noConfusion, rfl⟩⟩
  | symlink target => exact ⟨_, rfl, Or.inr ⟨fun _ => Node.noConfusion, rfl⟩⟩
  | special => exact ⟨_, rfl, Or.inr ⟨fun _ => Node.noConfusion, rfl⟩⟩

theorem Os.found_of_stat {f : FileId} (h : os.stat fs path = some f) :
    ∃ p x, os.caller.locate fs true path = .found p ∧ fs.node p = some x := by
  rw [Os.stat] at h
  split at h
  · rename_i p hp
    cases hx : fs.node p with
    | none =>
      rw [hx] at h
      cases h
    | some x => exact ⟨p, x, hp, hx⟩
  · cases h

/-- A regular file, by the place where it was found. -/
theorem Os.stat_file {i : ℕ} (h : os.stat fs path = some (.file i)) :
    ∃ p, os.caller.locate fs true path = .found p ∧ fs.node p = some (.file i) := by
  obtain ⟨p, x, hp, hx⟩ := Os.found_of_stat h
  obtain ⟨f, hf, ⟨j, rfl, rfl⟩ | ⟨-, rfl⟩⟩ := Os.stat_of_found hp hx
  · obtain rfl : j = i := by simpa using hf.symm.trans h
    exact ⟨p, hp, hx⟩
  · exact absurd (hf.symm.trans h) (by simp)

theorem Os.contents_file {i : ℕ} (h : os.stat fs path = some (.file i)) :
    os.contents fs path = some (fs.inodes i).content := by
  rw [Os.contents, h]

/-- As long as nothing is created, a path leads where it led. -/
theorem Os.stat_of_node_eq (hnode : fs'.node = fs.node) {f : FileId}
    (h : os.stat fs path = some f) : os.stat fs' path = some f := by
  obtain ⟨p, x, hp, hx⟩ := Os.found_of_stat h
  have hkept := os.caller.locate_keeps (fun p x hx => ⟨x, by rw [hnode, hx], rfl⟩) true path
  rw [hp] at hkept
  have hp' : os.caller.locate fs' true path = .found p := hkept
  rw [Os.stat, hp', hnode]
  rwa [Os.stat, hp] at h

/-- What `creat` has created, the path leads to. -/
theorem Os.stat_addFile {p : Place} {n : Name}
    (h : os.caller.locate fs true path = .missing p n false) (a : Attrs) :
    os.stat (fs.addFile p n a) path = some (.file fs.next) := by
  have hfree : fs.Free p n := by
    have hsound := os.caller.locate_sound fs true path
    rwa [h] at hsound
  have hnew : (fs.addFile p n a).node (p ++ [n]) = some (.file fs.next) := by
    rw [Fs.node_addFile hfree, Function.update_self]
  have hkeep : ∀ q x, fs.node q = some x →
      ∃ x', (fs.addFile p n a).node q = some x' ∧ x'.kind = x.kind := by
    intro q x hx
    refine ⟨x, ?_, rfl⟩
    rw [Fs.node_addFile hfree, Function.update_of_ne, hx]
    rintro rfl
    exact absurd (hfree.2.symm.trans hx) (by simp)
  have hkept := os.caller.locate_keeps hkeep true path
  rw [h] at hkept
  have hfound := hkept.2 _ hnew (by simp) (by simp)
  rw [Os.stat, hfound]
  simp only [hnew]

/-- **The outcomes of `creat`**: a regular file is emptied, something else is opened, or a regular
file is created. -/
theorem Os.creat_cases {outFd : Option ℕ} (h : os.creat fs path = some (fs', outFd)) :
    (∃ j, os.stat fs path = some (.file j) ∧ outFd = some j ∧
      fs' = fs.setInode j fun f => { f with content := [] }) ∨
    (∃ p, os.stat fs path = some (.other p) ∧ outFd = none ∧ fs' = fs) ∨
    os.stat fs path = none ∧ outFd = some fs.next ∧ os.stat fs' path = some (.file fs.next) ∧
      ∃ a, fs'.inodes = Function.update fs.inodes fs.next ⟨a, []⟩ := by
  have hmay : ∀ p, os.caller.may fs .write p = true := fun p => Bool.true_or _
  have hsound := os.caller.locate_sound fs true path
  rw [Os.creat, Caller.openWrite, Caller.resolve_of_privileged rfl rfl] at h
  split at h
  · rename_i p hp
    split at h
    · rename_i j hj
      rw [if_pos (hmay p)] at h
      obtain ⟨rfl, rfl⟩ := Prod.mk.inj (Option.some.inj h)
      refine Or.inl ⟨j, ?_, rfl, rfl⟩
      rw [Os.stat, hp]
      simp only [hj]
    · rename_i hx
      obtain ⟨rfl, rfl⟩ := Prod.mk.inj (Option.some.inj h)
      refine Or.inr (Or.inl ⟨p, ?_, rfl, rfl⟩)
      rw [Os.stat, hp]
      simp only [hx]
    · cases h
  · rename_i p n hmissing
    rw [if_pos (hmay p)] at h
    rw [hmissing] at hsound
    obtain ⟨rfl, rfl⟩ := Prod.mk.inj (Option.some.inj h)
    refine Or.inr (Or.inr ⟨?_, rfl, Os.stat_addFile hmissing _, _, Fs.inodes_addFile hsound _⟩)
    rw [Os.stat, hmissing]
  · cases h

end Calls

/-! ### Copying a regular file -/

section Reached

variable {os : Os} {fs₀ fs fs' : Fs} {src dst : List UInt8} {i j n : ℕ} {bytes : List UInt8}
  {s s' : State} {a : Answer} {es : List Event}

/-- The first `n` bytes of the file `i` have been copied to the file `j`, and `i` has been left
alone. -/
structure Copied (os : Os) (fs₀ : Fs) (dst : List UInt8) (i j n : ℕ) (fs : Fs) : Prop where
  apart : os.stat fs₀ dst ≠ some (.file i)
  stat_dst : os.stat fs dst = some (.file j)
  ne : j ≠ i
  source_eq : (fs.inodes i).content = (fs₀.inodes i).content
  copy_eq : (fs.inodes j).content = (fs₀.inodes i).content.take n

/-- Where `creat` succeeds, nothing has been copied, and the source is left alone. -/
theorem copied_creat (hsrc : os.stat fs₀ src = some (.file i))
    (hdst : ∀ p, os.stat fs₀ dst ≠ some (.other p)) (hapart : os.stat fs₀ dst ≠ some (.file i))
    {outFd : Option ℕ} (h : os.creat fs₀ dst = some (fs, outFd)) :
    ∃ j, outFd = some j ∧ Copied os fs₀ dst i j 0 fs := by
  rcases Os.creat_cases h with ⟨j, hj, rfl, rfl⟩ | ⟨p, hp, -, -⟩ | ⟨-, rfl, hstat, a, hinodes⟩
  · have hne : j ≠ i := by
      rintro rfl
      exact hapart hj
    refine ⟨j, rfl, hapart, Os.stat_of_node_eq (Fs.node_setInode _ _ _) hj, hne, ?_, ?_⟩
    · rw [Fs.inodes_setInode_of_ne _ hne.symm]
    · rw [Fs.inodes_setInode_self]
      rfl
  · exact absurd hp (hdst p)
  · obtain ⟨p, -, hp⟩ := Os.stat_file hsrc
    have hne : i ≠ fs₀.next := (fs₀.lt_next p i hp).ne
    refine ⟨fs₀.next, rfl, hapart, hstat, hne.symm, ?_, ?_⟩
    · rw [hinodes, Function.update_of_ne hne]
    · rw [hinodes, Function.update_self]
      rfl

theorem node_append (fs : Fs) (outFd : Option ℕ) (bytes : List UInt8) :
    (Cpdr.append fs outFd bytes).node = fs.node := by
  cases outFd with
  | none => rfl
  | some j => rfl

/-- What is written does not reach the source. -/
theorem Copied.source_append (h : Copied os fs₀ dst i j n fs) (bytes : List UInt8) :
    ((Cpdr.append fs (some j) bytes).inodes i).content = (fs₀.inodes i).content := by
  rw [(Cpdr.append_files fs (some j) bytes).2 i, if_neg (by simpa using h.ne), List.append_nil,
    h.source_eq]

theorem Copied.append (h : Copied os fs₀ dst i j n fs)
    (hbytes : bytes <+: (fs₀.inodes i).content.drop n) :
    Copied os fs₀ dst i j (n + bytes.length) (Cpdr.append fs (some j) bytes) := by
  refine ⟨h.apart, Os.stat_of_node_eq (node_append _ _ _) h.stat_dst, h.ne, h.source_append bytes,
    ?_⟩
  rw [(Cpdr.append_files fs (some j) bytes).2 j, if_pos rfl, h.copy_eq, List.take_add,
    ← List.prefix_iff_eq_take.mp hbytes]

/-- What holds when `cp2` has come to a line. -/
def Reached (os : Os) (fs₀ : Fs) (dst : List UInt8) (i : ℕ) (s : State) : Prop :=
  match s.line with
  | .statSrc => s.fs = fs₀
  | .statDst stSrc => s.fs = fs₀ ∧ stSrc = .file i
  | .openSrc => s.fs = fs₀ ∧ os.stat fs₀ dst ≠ some (.file i)
  | .creatDst inFd => s.fs = fs₀ ∧ inFd = .file i ∧ os.stat fs₀ dst ≠ some (.file i)
  | .read fds => ∃ j n, fds = ⟨.file i, some j, n⟩ ∧ Copied os fs₀ dst i j n s.fs
  | .write fds bytes => ∃ j n, fds = ⟨.file i, some j, n + bytes.length⟩ ∧
      bytes <+: (fs₀.inodes i).content.drop n ∧ Copied os fs₀ dst i j n s.fs
  | .closeIn => ∃ j n, (fs₀.inodes i).content.length ≤ n ∧ Copied os fs₀ dst i j n s.fs
  | .closeOut => ∃ j n, (fs₀.inodes i).content.length ≤ n ∧ Copied os fs₀ dst i j n s.fs
  | .exited status => (s.fs.inodes i).content = (fs₀.inodes i).content ∧
      (os.stat fs₀ dst = some (.file i) → s.fs = fs₀ ∧ status ≠ 0) ∧
      (status = 0 → os.contents s.fs dst = some (fs₀.inodes i).content)

/-- To give up is allowed where the source is as it was, if nothing has been changed or the two
files are apart. -/
theorem reached_exited (hsource : (fs.inodes i).content = (fs₀.inodes i).content)
    (h : fs = fs₀ ∨ os.stat fs₀ dst ≠ some (.file i)) :
    Reached os fs₀ dst i ⟨fs, .exited 1⟩ := by
  refine ⟨hsource, ?_, fun hzero => absurd hzero Nat.one_ne_zero⟩
  intro hsame
  exact ⟨h.resolve_right (not_not_intro hsame), Nat.one_ne_zero⟩

theorem Reached.giveUp {line : Line} (h : Reached os fs₀ dst i ⟨fs, line⟩)
    (hline : ∀ status, line ≠ .exited status) : Reached os fs₀ dst i ⟨fs, .exited 1⟩ := by
  have huntouched : fs = fs₀ → Reached os fs₀ dst i ⟨fs, .exited 1⟩ := by
    intro hfs
    exact reached_exited (by rw [hfs]) (Or.inl hfs)
  have hcopied : ∀ {j n : ℕ}, Copied os fs₀ dst i j n fs →
      Reached os fs₀ dst i ⟨fs, .exited 1⟩ := by
    intro j n hcopied
    exact reached_exited hcopied.source_eq (Or.inr hcopied.apart)
  cases line with
  | statSrc => exact huntouched h
  | statDst stSrc => exact huntouched h.1
  | openSrc => exact huntouched h.1
  | creatDst inFd => exact huntouched h.1
  | read fds =>
    obtain ⟨j, n, -, h⟩ := h
    exact hcopied h
  | write fds bytes =>
    obtain ⟨j, n, -, -, h⟩ := h
    exact hcopied h
  | closeIn =>
    obtain ⟨j, n, -, h⟩ := h
    exact hcopied h
  | closeOut =>
    obtain ⟨j, n, -, h⟩ := h
    exact hcopied h
  | exited status => exact absurd rfl (hline status)

/-- **A call** keeps what holds, if `stat` does not fail for files that exist. -/
theorem Reached.call (hstat : os.statFaults = false) (hsrc : os.stat fs₀ src = some (.file i))
    (hdst : ∀ p, os.stat fs₀ dst ≠ some (.other p)) (h : Reached os fs₀ dst i s)
    (hcall : Call os src dst s s' es) : Reached os fs₀ dst i s' := by
  cases hcall with
  | statSrc hfound =>
    obtain rfl : _ = fs₀ := h
    exact ⟨rfl, Option.some.inj (hfound.symm.trans hsrc)⟩
  | statDst hother =>
    obtain ⟨rfl, rfl⟩ := h
    exact ⟨rfl, hother.resolve_left (by rw [hstat]; decide)⟩
  | openSrc hopen =>
    obtain ⟨rfl, hapart⟩ := h
    exact ⟨rfl, Option.some.inj (hopen.symm.trans hsrc), hapart⟩
  | creatDst hcreat =>
    obtain ⟨rfl, rfl, hapart⟩ := h
    obtain ⟨j, rfl, hcopied⟩ := copied_creat hsrc hdst hapart hcreat
    exact ⟨j, 0, rfl, hcopied⟩
  | @read fs fds bytes _ _ hdelivers =>
    obtain ⟨j, n, rfl, hcopied⟩ := h
    have hpre : bytes <+: (fs.inodes i).content.drop n :=
      List.isPrefixOf_iff_prefix.mp hdelivers
    rw [hcopied.source_eq] at hpre
    exact ⟨j, n, rfl, hpre, hcopied⟩
  | @endOfFile fs fds hend =>
    obtain ⟨j, n, rfl, hcopied⟩ := h
    have hlength : (fs.inodes i).content.length ≤ n := of_decide_eq_true hend
    rw [hcopied.source_eq] at hlength
    exact ⟨j, n, hlength, hcopied⟩
  | write fs fds bytes =>
    obtain ⟨j, n, rfl, hbytes, hcopied⟩ := h
    exact ⟨j, n + bytes.length, rfl, hcopied.append hbytes⟩
  | shortWrite fs fds hshort _ =>
    obtain ⟨j, n, rfl, -, hcopied⟩ := h
    exact reached_exited (hcopied.source_append _) (Or.inr hcopied.apart)
  | closeIn fs => exact h
  | closeOut fs =>
    obtain ⟨j, n, hlength, hcopied⟩ := h
    refine ⟨hcopied.source_eq, fun hsame => absurd hsame hcopied.apart, fun _ => ?_⟩
    show os.contents fs dst = _
    rw [Os.contents_file hcopied.stat_dst, hcopied.copy_eq, List.take_of_length_le hlength]
  | giveUp fs hline _ => exact h.giveUp hline

/-- **A copy or a refusal.** When `cp2` ends, the source is as it was; if both paths lead to it,
nothing has been changed, and the status tells so; and with status 0 the destination is a copy. -/
theorem copies_or_refuses (hstat : os.statFaults = false)
    (hsrc : os.stat fs₀ src = some (.file i)) (hdst : ∀ p, os.stat fs₀ dst ≠ some (.other p))
    {name : List UInt8} {as : List Answer}
    (h : (machine os fs₀ [name, src, dst]).run as = some (s, es)) {status : ℕ}
    (hexit : s.line = .exited status) :
    (s.fs.inodes i).content = (fs₀.inodes i).content ∧
      (os.stat fs₀ dst = some (.file i) → s.fs = fs₀ ∧ status ≠ 0) ∧
      (status = 0 → os.contents s.fs dst = some (fs₀.inodes i).content) := by
  have hreached : Reached os fs₀ dst i s := by
    refine Machine.run_invariant_state (M := machine os fs₀ [name, src, dst])
      (I := Reached os fs₀ dst i) rfl ?_ h
    intro s a s' es hs hstep
    exact hs.call hstat hsrc hdst (call_of_step hstep)
  obtain ⟨fs, line⟩ := s
  obtain rfl : line = .exited status := hexit
  exact hreached

end Reached

/-! ### A file and its copy -/

/-- A process in `/`. -/
def rootOs : Os := ⟨[], 0o022, false⟩

/-- The file `/f`, which contains `x`. -/
def oneFile : Fs :=
  ((Fs.root ⟨0o755, .owner⟩).addFile [] ⟨ascii "f", Cpdr.isName_f⟩ ⟨0o644, .owner⟩).setInode 0
    fun f => { f with content := ascii "x" }

/-- `cp2 f g` -/
theorem copies_to_new_file : ∃ s es,
    (machine rootOs oneFile [ascii "cp2", ascii "f", ascii "g"]).run
      [.ok, .fails, .ok, .ok, .bytes (ascii "x"), .wrote 1, .ok, .ok, .ok] = some (s, es) ∧
    (s.fs.inodes 0).content = ascii "x" ∧ rootOs.contents s.fs (ascii "g") = some (ascii "x") := by
  have hrun : ((machine rootOs oneFile [ascii "cp2", ascii "f", ascii "g"]).run
      [.ok, .fails, .ok, .ok, .bytes (ascii "x"), .wrote 1, .ok, .ok, .ok]).map
      (fun r => r.1.line) = some (.exited 0) := rfl
  obtain ⟨⟨s, es⟩, hrun, hexit⟩ := Option.map_eq_some_iff.mp hrun
  have hsrc : rootOs.stat oneFile (ascii "f") = some (.file 0) := rfl
  have hdst : ∀ p, rootOs.stat oneFile (ascii "g") ≠ some (.other p) := by
    intro p h
    cases h
  obtain ⟨hsource, -, hcopy⟩ := copies_or_refuses rfl hsrc hdst hrun hexit
  exact ⟨s, es, hrun, hsource, hcopy rfl⟩

end Cp2

end SystemProgramming
