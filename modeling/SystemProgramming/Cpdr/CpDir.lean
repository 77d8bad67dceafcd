import SystemProgramming.Library.Ensures
import SystemProgramming.Library.PathWalk

/-!
# `cpdr`

`lab2-lyjae/cpdr.c` copies a file, or a directory with all that is below it. The program is a
machine here: it stands at a system call, and an action is the kernel's answer to it. The calls of
`cp_dir` and `cp_file` that have not returned yet are the stack.

The answers are those the file system gives, and whatever it leaves open: the order of a listing,
and how many bytes a `read` delivers. If the system has `faults`, every call may fail instead for a
reason that is outside the file system, such as a full disk.

The name lists of open directories are taken when they are opened. `fstat` and `close` have no
steps of their own, and the bytes a `write` accepts are taken to end up in the file.

## What is assumed

Nobody else changes the file system while `cpdr` runs. Paths are resolved by `Library.PathWalk`,
with the limit on symbolic links and with `PATH_MAX`, and permission bits are those of the class
that the user belongs to for a file; a privileged user is not bound by them.

What a C program has besides its variables is not limited here: a level of `cp_dir` takes two
buffers of `PATH_MAX` bytes from the stack and keeps a directory open, so that a very deep tree ends
the real program. Where the number of open files matters, a call fails by `faults`.

## Main definitions

* `Os` — the system and the user
* `Frame`, `State` — where the program is
* `stepFrame`, `machine` — the program
-/

namespace SystemProgramming

namespace Cpdr

def bufSize : ℕ := 4096

/-- The system, and the process that runs on it. -/
structure Os extends Caller where
  /-- Calls may fail for reasons outside the file system. -/
  faults : Bool

/-- Where the program is. -/
inductive Frame
  /-- `main`, at `stat(argv[1], &st)`. -/
  | main (argv : List (List UInt8))
  /-- `main`, at `return 0`. -/
  | mainReturn
  /-- `cp_dir`, at `stat(src, &st)`. -/
  | cpDir (src dst : List UInt8)
  /-- `cp_dir`, at `mkdir(dst, st.st_mode)`. -/
  | makeDst (src dst : List UInt8) (mode : Mode)
  /-- `cp_dir`, at `opendir(src)`. -/
  | openSrcDir (src dst : List UInt8) (mode : Mode)
  /-- `cp_dir`, at `readdir(dp)`; `names` have not been returned yet. -/
  | readEntry (src dst : List UInt8) (mode : Mode) (names : List (List UInt8))
  /-- `cp_dir`, at `stat(src_path, &entry_st)`. -/
  | statEntry (srcPath dstPath : List UInt8)
  /-- `cp_dir`, at `chmod(dst, st.st_mode)`. -/
  | leaveDir (dst : List UInt8) (mode : Mode)
  /-- `cp_file`, at `open(src, O_RDONLY)`. -/
  | cpFile (src dst : List UInt8)
  /-- `cp_file`, at `open(dst, O_WRONLY | O_CREAT | O_TRUNC, st.st_mode)`. -/
  | openDst (src dst : List UInt8) (inFd : ℕ) (mode : Mode)
  /-- `cp_file`, at `read(in_fd, buf, BUFSIZE)`; `pos` bytes have been read. -/
  | copying (src dst : List UInt8) (inFd : ℕ) (outFd : Option ℕ) (pos : ℕ) (mode : Mode)
  /-- `cp_file`, at `chmod(dst, st.st_mode)`. -/
  | leaveFile (dst : List UInt8) (mode : Mode)

structure State where
  fs : Fs
  umask : Mode
  /-- The calls that have not returned, the innermost first. -/
  stack : List Frame
  /-- The exit status, once there is one. -/
  status : Option ℕ

/-- The kernel's answer to a call. -/
inductive Answer
  /-- What the file system says; of `read`, that the end of the file is reached. -/
  | result
  /-- `opendir` succeeds, and these are the names that `readdir` will return. -/
  | listing (names : List (List UInt8))
  /-- `read` delivers `n` bytes, and of those `write` accepts `written`. -/
  | block (n written : ℕ)
  /-- The call fails, for a reason outside the file system. -/
  | fault
  deriving DecidableEq, Repr

/-- What is written to `stderr`. -/
inductive Event
  | perror (path : List UInt8)
  | stderr (text : List UInt8)
  deriving DecidableEq, Repr

/-- `exit(1)`, after a message. -/
def State.exit (s : State) (message : Event) : Option (State × List Event) :=
  some ({ s with stack := [], status := some 1 }, [message])

/-- Go on at another place. -/
def State.goto (s : State) (stack : List Frame) : Option (State × List Event) :=
  some ({ s with stack }, [])

/-- `snprintf(path, sizeof(path), "%s/%s", dir, name)` -/
def join (os : Os) (dir name : List UInt8) : List UInt8 :=
  match os.pathMax with
  | some size => snprintf size (dir ++ slash :: name)
  | none => dir ++ slash :: name

/-- What is accepted of a block is appended to the file that is written. -/
def append (fs : Fs) (outFd : Option ℕ) (bytes : List UInt8) : Fs :=
  match outFd with
  | some i => fs.setInode i fun f => { f with content := f.content ++ bytes }
  | none => fs

/-- `main`, with the answer of `stat`. -/
def mainStat (s : State) (src dst : List UInt8) (k : List Frame) :
    Option (Kind × Mode) → Option (State × List Event)
  | none => s.exit (.perror src)
  | some (.dir, _) => s.goto (.cpDir src dst :: .mainReturn :: k)
  | some (.file _, _) => s.goto (.cpFile src dst :: .mainReturn :: k)
  | some _ => s.exit (.stderr (ascii "Unsupported file type: " ++ src ++ ascii "\n"))

/-- The body of the loop of `cp_dir`, with the answer of `stat`. -/
def entryStat (s : State) (srcPath dstPath : List UInt8) (k : List Frame) :
    Option (Kind × Mode) → Option (State × List Event)
  | none => some ({ s with stack := k }, [.perror srcPath])
  | some (.dir, _) => s.goto (.cpDir srcPath dstPath :: k)
  | some (.file _, _) => s.goto (.cpFile srcPath dstPath :: k)
  | some _ => s.goto k

/-- One step of the program at a call, where `k` is what it returns to. -/
def stepFrame (os : Os) (s : State) (k : List Frame) : Frame → Answer →
    Option (State × List Event)
  | .main [_, src, dst], .result => mainStat s src dst k (os.stat s.fs src)
  | .main [_, src, _], .fault => s.exit (.perror src)
  | .main argv, .result =>
    s.exit (.stderr (ascii "usage: " ++ argv.headD [] ++ ascii " source destination\n"))
  | .mainReturn, .result => some ({ s with stack := k, status := some 0 }, [])
  | .cpDir src dst, .result =>
    match os.stat s.fs src with
    | none => s.exit (.perror src)
    | some (_, mode) => s.goto (.makeDst src dst mode :: k)
  | .cpDir src _, .fault => s.exit (.perror src)
  | .makeDst src dst mode, .result =>
    match os.mkdir s.fs dst (mode &&& ~~~s.umask) with
    | .made fs => { s with fs }.goto (.openSrcDir src dst mode :: k)
    | .exists => s.goto (.openSrcDir src dst mode :: k)
    | .failed => s.exit (.perror dst)
  | .makeDst _ dst _, .fault => s.exit (.perror dst)
  | .openSrcDir src dst mode, .listing names =>
    match os.opendir s.fs src with
    | none => none
    | some p => if s.fs.Lists p names then s.goto (.readEntry src dst mode names :: k) else none
  | .openSrcDir src _ _, .result =>
    match os.opendir s.fs src with
    | none => s.exit (.perror src)
    | some _ => none
  | .openSrcDir src _ _, .fault => s.exit (.perror src)
  | .readEntry _ dst mode [], .result => s.goto (.leaveDir dst mode :: k)
  | .readEntry src dst mode (name :: names), .result =>
    if name = ascii "." ∨ name = ascii ".." then s.goto (.readEntry src dst mode names :: k)
    else
      s.goto (.statEntry (join os src name) (join os dst name) ::
        .readEntry src dst mode names :: k)
  -- `readdir` returns `NULL`, and the loop ends without a message
  | .readEntry _ dst mode _, .fault => s.goto (.leaveDir dst mode :: k)
  | .statEntry srcPath dstPath, .result =>
    entryStat s srcPath dstPath k (os.stat s.fs srcPath)
  | .statEntry srcPath dstPath, .fault => entryStat s srcPath dstPath k none
  | .leaveDir dst mode, .result => { s with fs := os.chmod s.fs dst mode }.goto k
  | .leaveDir _ _, .fault => s.goto k
  | .cpFile src dst, .result =>
    match os.openRead s.fs src with
    | none => s.exit (.perror src)
    | some inFd => s.goto (.openDst src dst inFd (s.fs.inodes inFd).attrs.mode :: k)
  | .cpFile src _, .fault => s.exit (.perror src)
  -- `umask(0)` is in force here
  | .openDst src dst inFd mode, .result =>
    match os.openWrite s.fs dst mode with
    | none => { s with umask := 0 }.exit (.perror dst)
    | some (fs, outFd) => { s with fs }.goto (.copying src dst inFd outFd 0 mode :: k)
  | .openDst _ dst _ _, .fault => { s with umask := 0 }.exit (.perror dst)
  | .copying src dst inFd outFd pos mode, .block n written =>
    let content := (s.fs.inodes inFd).content
    if 0 < n ∧ n ≤ bufSize ∧ pos + n ≤ content.length ∧ written ≤ n then
      let s := { s with fs := append s.fs outFd (((content.drop pos).take n).take written) }
      if written = n then s.goto (.copying src dst inFd outFd (pos + n) mode :: k)
      else if os.faults then s.exit (.perror dst) else none
    else none
  | .copying _ dst inFd _ pos mode, .result =>
    if (s.fs.inodes inFd).content.length ≤ pos then s.goto (.leaveFile dst mode :: k) else none
  | .copying src _ _ _ _ _, .fault => s.exit (.perror src)
  | .leaveFile dst mode, .result => { s with fs := os.chmod s.fs dst mode }.goto k
  | .leaveFile _ _, .fault => s.goto k
  | _, _ => none

/-- One step; none when the program has ended. -/
def step (os : Os) (s : State) (a : Answer) : Option (State × List Event) :=
  if s.status.isSome ∨ (a = .fault ∧ os.faults = false) then none
  else
    match s.stack with
    | [] => none
    | frame :: k => stepFrame os s k frame a

/-- The program, from the beginning of `main`. -/
def machine (os : Os) (fs : Fs) (umask : Mode) (argv : List (List UInt8)) :
    Machine State Answer Event where
  init := ⟨fs, umask, [.main argv], none⟩
  step := step os

/-! ### What is written -/

/-- A block ends up in the file that is written, and nowhere else. -/
theorem append_files (fs : Fs) (outFd : Option ℕ) (bytes : List UInt8) :
    (append fs outFd bytes).next = fs.next ∧ ∀ i,
      ((append fs outFd bytes).inodes i).content =
        (fs.inodes i).content ++ if outFd = some i then bytes else [] := by
  rcases outFd with _ | j
  · exact ⟨rfl, fun i => by simp [append]⟩
  · refine ⟨rfl, fun i => ?_⟩
    by_cases hij : i = j
    · subst hij
      simp [append]
    · rw [append, Fs.inodes_setInode_of_ne fs hij, if_neg (by simpa using Ne.symm hij),
        List.append_nil]

/-! ### Names of one letter -/

theorem isName_d : IsName (ascii "d") := by decide

theorem isName_f : IsName (ascii "f") := by decide

end Cpdr

end SystemProgramming
