import SystemProgramming.MiniShell.Jobs
import Mathlib.Data.Finset.Insert

/-!
# `execute_external_command` and its system calls

The function is nearly the same in the three shells: a final `&` is taken off the words (not in
`mini-shell-1`), the redirections are opened in the parent while the other words are collected in
`clean_args`, and then a child is forked and, unless it runs in the background, waited for. Here it
is followed as far as the system sees it. `Execute` has the result and the messages of
`mini-shell-1`, and `Jobs` what the other two record; `simulates_miniShell1` and
`simulates_jobShell` say that this is the same function.

## What is left out

What the child does behind `fork` is up to the world, and so are the descriptors it closes: the
results are about the descriptors of the shell. `open` may fail for any reason. That a child shares
the offset of the script with the shell has no part here (`Script`).

## How it goes

The loop over the words opens the files of the redirections in order, up to the first that fails,
and keeps the other words (`scanArgs_eq`). The three shells differ only in what words the loop is
given and in what comes after it, and there no descriptor is added or taken away in the parent. The
shell closes none, so as many stay open as have been opened, and the first redirection decides
whether there is one.

## Main definitions

* `Kernel` — the system calls
* `executeExternal` — the function in the three shells
* `redirections` — the redirections among the words
* `Descriptors` — what the calls do to the open descriptors

## Main results

* `descriptors_kept_iff` — when no descriptor is left open
-/

namespace SystemProgramming

namespace MiniShell

/-- The three shells. -/
inductive Version
  | miniShell1
  | miniShell2
  | miniShell3
  deriving DecidableEq, Repr

/-- The shells with jobs. -/
def Version.ofEdition : JobShell.Edition → Version
  | .miniShell2 => .miniShell2
  | .miniShell3 => .miniShell3

def Version.background (v : Version) (args : List (List UInt8)) : Bool :=
  v ≠ .miniShell1 && args.getLast? = some (ascii "&")

/-- The words without a final `&`. -/
def Version.words (v : Version) (args : List (List UInt8)) : List (List UInt8) :=
  if v.background args then args.dropLast else args

/-- The system calls of `execute_external_command`, in the parent. -/
structure Kernel (W : Type*) where
  /-- `open(path, O_RDONLY)` -/
  openInput : W → List UInt8 → Option ℕ × W
  /-- `open(path, O_WRONLY | O_CREAT | O_TRUNC, 0644)` -/
  openOutput : W → List UInt8 → Option ℕ × W
  /-- `fork`; what the child does is up to the world. -/
  fork : W → Child → Option ℤ × W
  /-- `waitpid`, and what it leaves in `status`. -/
  waitpid : W → ℤ → JobShell.WaitStatus × W

section Program

variable {W : Type*} (k : Kernel W)

/-- The calls as `mini-shell-1` puts them together. -/
def Kernel.system : System W where
  openInput := k.openInput
  openOutput := k.openOutput
  run w child :=
    match k.fork w child with
    | (none, w) => (none, w)
    | (some pid, w) =>
      match k.waitpid w pid with
      | (.ended status, w) => (some status, w)
      -- without `WUNTRACED` this does not happen; neither macro holds of `status` then
      | (.stopped, w) => (some .killed, w)

/-- `execute_external_command`: the child that it hands to `fork`, if it gets there, and the world
afterwards. `mini-shell-3` does not check the result of `fork`. -/
def executeExternal (v : Version) (w : W) (environ : List UInt8 → Option (List UInt8))
    (args : List (List UInt8)) : Option Child × W :=
  match scanArgs k.system (v.words args) w none none with
  | (_, w, none) => (none, w)
  | (_, w, some (input, output, cleanArgs)) =>
    let child : Child := ⟨cleanArgs, input, output, environ⟩
    let parent pid w := if v.background args then w else (k.waitpid w pid).2
    match k.fork w child with
    | (none, w) => (some child, if v = .miniShell3 then parent (-1) w else w)
    | (some pid, w) => (some child, parent pid w)

/-! ### Redirections -/

/-- `<` or `>` -/
inductive Direction
  | input
  | output
  deriving DecidableEq, Repr

/-- The word for it. -/
def Direction.word : Direction → List UInt8
  | .input => ascii "<"
  | .output => ascii ">"

/-- Opening a path for a redirection. -/
def Kernel.open (w : W) (r : Direction × List UInt8) : Option ℕ × W :=
  match r.1 with
  | .input => k.openInput w r.2
  | .output => k.openOutput w r.2

/-- The redirections among some words, in order. A last word is never one. -/
def redirections : List (List UInt8) → List (Direction × List UInt8)
  | [] => []
  | [_] => []
  | arg :: next :: args =>
    if arg = ascii "<" then (.input, next) :: redirections args
    else if arg = ascii ">" then (.output, next) :: redirections args
    else redirections (next :: args)

/-- Opening redirections one after the other, up to the first that fails: whether all were opened,
and the world afterwards. -/
def Kernel.openAll : W → List (Direction × List UInt8) → Bool × W
  | w, [] => (true, w)
  | w, r :: rs =>
    match k.open w r with
    | (none, w) => (false, w)
    | (some _, w) => Kernel.openAll w rs

/-! ### The loop over the words -/

theorem eq_word_or_ne (arg : List UInt8) : (∃ d : Direction, arg = d.word) ∨
    ∀ d : Direction, arg ≠ d.word := by
  by_cases hin : arg = ascii "<"
  · exact Or.inl ⟨.input, hin⟩
  · by_cases hout : arg = ascii ">"
    · exact Or.inl ⟨.output, hout⟩
    · refine Or.inr fun d => ?_
      cases d with
      | input => exact hin
      | output => exact hout

/-- Words are read from the front, two at a time where a redirection stands. -/
theorem words_induction {P : List (List UInt8) → Prop} (nil : P []) (single : ∀ arg, P [arg])
    (redirection : ∀ (d : Direction) path args, P args → P (d.word :: path :: args))
    (word : ∀ arg next args, (∀ d : Direction, arg ≠ d.word) → P (next :: args) →
      P (arg :: next :: args)) : ∀ args, P args
  | [] => nil
  | [arg] => single arg
  | arg :: next :: args => by
    rcases eq_word_or_ne arg with ⟨d, rfl⟩ | hne
    · exact redirection d next args (words_induction nil single redirection word args)
    · exact word arg next args hne (words_induction nil single redirection word (next :: args))

theorem redirections_word (d : Direction) (path : List UInt8) (args : List (List UInt8)) :
    redirections (d.word :: path :: args) = (d, path) :: redirections args := by
  cases d <;> rfl

theorem redirections_of_ne {arg : List UInt8} (h : ∀ d : Direction, arg ≠ d.word)
    (next : List UInt8) (args : List (List UInt8)) :
    redirections (arg :: next :: args) = redirections (next :: args) := by
  have hin : arg ≠ ascii "<" := h .input
  have hout : arg ≠ ascii ">" := h .output
  rw [redirections, if_neg hin, if_neg hout]

theorem cleanArgs_word (d : Direction) (path : List UInt8) (args : List (List UInt8)) :
    JobShell.cleanArgs (d.word :: path :: args) = JobShell.cleanArgs args := by
  cases d <;> rfl

theorem cleanArgs_of_ne {arg : List UInt8} (h : ∀ d : Direction, arg ≠ d.word)
    (next : List UInt8) (args : List (List UInt8)) :
    JobShell.cleanArgs (arg :: next :: args) = arg :: JobShell.cleanArgs (next :: args) := by
  have hor : ¬ (arg = ascii "<" ∨ arg = ascii ">") := fun hor => hor.elim (h .input) (h .output)
  rw [JobShell.cleanArgs, if_neg hor]

theorem scanArgs_word_none {d : Direction} {path : List UInt8} {w w' : W}
    (h : k.open w (d, path) = (none, w')) (args : List (List UInt8)) (input output : Option ℕ) :
    (scanArgs k.system (d.word :: path :: args) w input output).2 = (w', none) := by
  cases d with
  | input =>
    have hopen : k.system.openInput w path = (none, w') := h
    simp only [scanArgs, Direction.word, hopen, if_true]
  | output =>
    have hopen : k.system.openOutput w path = (none, w') := h
    have hne : ascii ">" ≠ ascii "<" := by decide
    simp only [scanArgs, Direction.word, hopen, hne, if_false, if_true]

theorem scanArgs_word_some {d : Direction} {path : List UInt8} {w w' : W} {fd : ℕ}
    (h : k.open w (d, path) = (some fd, w')) (args : List (List UInt8))
    (input output : Option ℕ) : ∃ input' output',
      (scanArgs k.system (d.word :: path :: args) w input output).2
        = (scanArgs k.system args w' input' output').2 := by
  cases d with
  | input =>
    have hopen : k.system.openInput w path = (some fd, w') := h
    refine ⟨some fd, output, ?_⟩
    simp only [scanArgs, Direction.word, hopen, if_true]
  | output =>
    have hopen : k.system.openOutput w path = (some fd, w') := h
    have hne : ascii ">" ≠ ascii "<" := by decide
    refine ⟨input, some fd, ?_⟩
    simp only [scanArgs, Direction.word, hopen, hne, if_false, if_true]

/-- **The loop opens the redirections and keeps the other words.** -/
theorem scanArgs_eq (args : List (List UInt8)) : ∀ (w : W) (input output : Option ℕ),
    (scanArgs k.system args w input output).2.1 = (k.openAll w (redirections args)).2 ∧
      (scanArgs k.system args w input output).2.2.map (fun q => q.2.2)
        = if (k.openAll w (redirections args)).1 then some (JobShell.cleanArgs args) else none := by
  induction args using words_induction with
  | nil => exact fun _ _ _ => ⟨rfl, rfl⟩
  | single arg => exact fun _ _ _ => ⟨rfl, rfl⟩
  | redirection d path args ih =>
    intro w input output
    rw [redirections_word, cleanArgs_word, Kernel.openAll]
    rcases hopen : k.open w (d, path) with ⟨_ | fd, w'⟩
    · rw [scanArgs_word_none k hopen]
      exact ⟨rfl, rfl⟩
    · obtain ⟨input', output', heq⟩ := scanArgs_word_some k hopen args input output
      rw [heq]
      exact ih w' input' output'
  | word arg next args hne ih =>
    intro w input output
    obtain ⟨hworld, hclean⟩ := ih w input output
    have hin : arg ≠ ascii "<" := hne .input
    have hout : arg ≠ ascii ">" := hne .output
    rw [redirections_of_ne hne, cleanArgs_of_ne hne, scanArgs, if_neg hin, if_neg hout]
    refine ⟨hworld, ?_⟩
    show Option.map _ (Option.map _ (scanArgs k.system (next :: args) w input output).2.2) = _
    have hmap := congrArg (Option.map (arg :: ·)) hclean
    rw [Option.map_map] at hmap ⊢
    refine hmap.trans ?_
    split <;> rfl

/-! ### What the function does -/

/-- The function reaches `fork` when all redirections can be opened, with the other words. -/
theorem args_executeExternal (v : Version) (w : W) (environ : List UInt8 → Option (List UInt8))
    (args : List (List UInt8)) :
    (executeExternal k v w environ args).1.map Child.args
      = if (k.openAll w (redirections (v.words args))).1 then
          some (JobShell.cleanArgs (v.words args))
        else none := by
  rw [← (scanArgs_eq k (v.words args) w none none).2, executeExternal]
  obtain ⟨log, w', _ | ⟨input, output, cleanArgs⟩⟩ := scanArgs k.system (v.words args) w none none
  · rfl
  · rcases hfork : k.fork w' ⟨cleanArgs, input, output, environ⟩ with ⟨_ | pid, w''⟩
    · simp only [hfork]
      rfl
    · simp only [hfork]
      rfl

/-- The same function as in `mini-shell-1`. -/
theorem simulates_miniShell1 (sh : Shell W) (args : List (List UInt8)) :
    (executeExternalCommand k.system sh args).2.1.world
        = (executeExternal k .miniShell1 sh.world sh.store.environ args).2 ∧
      ∀ child status, .child child status ∈ (executeExternalCommand k.system sh args).2.2 →
        (executeExternal k .miniShell1 sh.world sh.store.environ args).1 = some child := by
  have hscan := fun child status =>
    child_notMem_scanArgs k.system child status args sh.world none none
  have hwords : Version.words .miniShell1 args = args := rfl
  rw [executeExternalCommand, executeExternal, hwords]
  rcases hr : scanArgs k.system args sh.world none none with
    ⟨log, w, _ | ⟨input, output, cleanArgs⟩⟩
  · rw [hr] at hscan
    exact ⟨rfl, fun child status hmem => absurd hmem (hscan child status)⟩
  · rw [hr] at hscan
    have hlast : ∀ {child status e},
        Effect.child child status ∈ log ++ [e] → Effect.child child status = e := by
      intro child status e hmem
      rcases List.mem_append.mp hmem with hlog | hlast
      · exact absurd hlog (hscan child status)
      · exact List.mem_singleton.mp hlast
    rcases hfork : k.fork w ⟨cleanArgs, input, output, sh.store.environ⟩ with ⟨_ | pid, w'⟩
    · have hrun : k.system.run w ⟨cleanArgs, input, output, sh.store.environ⟩ = (none, w') := by
        simp only [Kernel.system, hfork]
      simp only [hfork, hrun]
      refine ⟨rfl, fun child status hmem => ?_⟩
      cases hlast hmem
    · obtain ⟨status', hrun⟩ : ∃ status',
          k.system.run w ⟨cleanArgs, input, output, sh.store.environ⟩
            = (some status', (k.waitpid w' pid).2) := by
        rcases hwait : k.waitpid w' pid with ⟨_ | status, w''⟩
        · exact ⟨.killed, by simp only [Kernel.system, hfork, hwait]⟩
        · exact ⟨status, by simp only [Kernel.system, hfork, hwait]⟩
      simp only [hfork, hrun]
      refine ⟨rfl, fun child status hmem => ?_⟩
      cases hlast hmem
      rfl

theorem length_cleanArgs_add (args : List (List UInt8)) :
    (JobShell.cleanArgs args).length + 2 * (redirections args).length = args.length := by
  induction args using words_induction with
  | nil => rfl
  | single arg => rfl
  | redirection d path args ih =>
    rw [redirections_word, cleanArgs_word]
    simp only [List.length_cons]
    omega
  | word arg next args hne ih =>
    rw [redirections_of_ne hne, cleanArgs_of_ne hne]
    simp only [List.length_cons] at ih ⊢
    omega

/-- The same function as in the shells with jobs, up to `fork`. -/
theorem simulates_jobShell (v : JobShell.Edition) (w : W)
    (environ : List UInt8 → Option (List UInt8)) (s : JobShell.State) (args : List (List UInt8)) :
    JobShell.executeExternalCommand s args
        (executeExternal k (.ofEdition v) w environ args).1.isSome
      = match (executeExternal k (.ofEdition v) w environ args).1 with
        | none => s
        | some child =>
          { s with
            position := .forking ((Version.ofEdition v).background args)
              (JobShell.commandText child.args) } := by
  have hback : (Version.ofEdition v).background args
      = decide (args.getLast? = some (ascii "&")) := by
    cases v <;> rfl
  have hwords : (Version.ofEdition v).words args
      = if args.getLast? = some (ascii "&") then args.dropLast else args := by
    rw [Version.words, hback]
    simp
  have hargs := args_executeExternal k (.ofEdition v) w environ args
  rw [JobShell.executeExternalCommand, hback]
  simp only [← hwords]
  generalize (Version.ofEdition v).words args = words at hargs
  cases hchild : (executeExternal k (.ofEdition v) w environ args).1 with
  | some child =>
    rw [hchild] at hargs
    simp only [Option.map_some] at hargs
    split at hargs
    · rw [Option.some.injEq] at hargs
      simp [hargs]
    · cases hargs
  | none =>
    rw [hchild] at hargs
    have hopen : (k.openAll w (redirections words)).1 = false := by
      cases hall : (k.openAll w (redirections words)).1 with
      | false => rfl
      | true => simp [hall] at hargs
    have hne : JobShell.cleanArgs words ≠ words := by
      intro heq
      have hlen := length_cleanArgs_add words
      rw [heq] at hlen
      have hnil : redirections words = [] := List.eq_nil_of_length_eq_zero (by omega)
      rw [hnil] at hopen
      cases hopen
    simp [hne]

/-! ### Descriptors -/

variable {k}

/-- What the calls do to the descriptors that are open in the shell: `open` adds a new one when it
succeeds, and the others add and remove none in the parent. -/
structure Descriptors (k : Kernel W) (fds : W → Finset ℕ) : Prop where
  opened : ∀ {w w' : W} {r : Direction × List UInt8} {fd : ℕ}, k.open w r = (some fd, w') →
    fd ∉ fds w ∧ fds w' = insert fd (fds w)
  failed : ∀ {w w' : W} {r : Direction × List UInt8}, k.open w r = (none, w') → fds w' = fds w
  forked : ∀ (w : W) (child : Child), fds (k.fork w child).2 = fds w
  waited : ∀ (w : W) (pid : ℤ), fds (k.waitpid w pid).2 = fds w

variable {fds : W → Finset ℕ}

theorem Descriptors.subset_openAll (h : Descriptors k fds) (rs : List (Direction × List UInt8)) :
    ∀ w : W, fds w ⊆ fds (k.openAll w rs).2 := by
  induction rs with
  | nil => exact fun _ => subset_rfl
  | cons r rs ih =>
    intro w
    rw [Kernel.openAll]
    rcases hopen : k.open w r with ⟨_ | fd, w'⟩
    · exact (h.failed hopen).ge
    · refine subset_trans ?_ (ih w')
      rw [(h.opened hopen).2]
      exact Finset.subset_insert fd (fds w)

/-- The first descriptor that is opened stays open. -/
theorem Descriptors.openAll_iff (h : Descriptors k fds) (w : W)
    (rs : List (Direction × List UInt8)) :
    fds (k.openAll w rs).2 = fds w ↔ ∀ r ∈ rs.head?, (k.open w r).1 = none := by
  cases rs with
  | nil => simp [Kernel.openAll]
  | cons r rs =>
    rw [Kernel.openAll]
    simp only [List.head?_cons, Option.mem_some_iff, forall_eq']
    rcases hopen : k.open w r with ⟨_ | fd, w'⟩
    · simp [h.failed hopen]
    · obtain ⟨hnew, hinsert⟩ := h.opened hopen
      simp only [reduceCtorEq, iff_false]
      intro hkept
      have hmem : fd ∈ fds (k.openAll w' rs).2 :=
        h.subset_openAll rs w' (hinsert ▸ Finset.mem_insert_self fd (fds w))
      exact hnew (hkept ▸ hmem)

/-- Behind the redirections no descriptor is opened or closed. -/
theorem Descriptors.executeExternal (h : Descriptors k fds) (v : Version) (w : W)
    (environ : List UInt8 → Option (List UInt8)) (args : List (List UInt8)) :
    fds (executeExternal k v w environ args).2
      = fds (k.openAll w (redirections (v.words args))).2 := by
  rw [← (scanArgs_eq k (v.words args) w none none).1, MiniShell.executeExternal]
  obtain ⟨log, w', _ | ⟨input, output, cleanArgs⟩⟩ := scanArgs k.system (v.words args) w none none
  · rfl
  · have hparent : ∀ (pid : ℤ) (w₁ : W),
        fds (if v.background args then w₁ else (k.waitpid w₁ pid).2) = fds w₁ := by
      intro pid w₁
      split
      · rfl
      · exact h.waited w₁ pid
    have hforked := h.forked w' ⟨cleanArgs, input, output, environ⟩
    rcases hfork : k.fork w' ⟨cleanArgs, input, output, environ⟩ with ⟨_ | pid, w''⟩
    · rw [hfork] at hforked
      simp only [hfork]
      split
      · exact (hparent (-1) w'').trans hforked
      · exact hforked
    · rw [hfork] at hforked
      simp only [hfork]
      exact (hparent pid w'').trans hforked

/-- **When no descriptor is left open.** After `execute_external_command` the same descriptors are
open in the shell as before if and only if there is no redirection among the words, or the first
one cannot be opened. -/
theorem descriptors_kept_iff (k : Kernel W) (fds : W → Finset ℕ) (h : Descriptors k fds)
    (v : Version) (w : W) (environ : List UInt8 → Option (List UInt8))
    (args : List (List UInt8)) :
    fds (executeExternal k v w environ args).2 = fds w ↔
      ∀ r ∈ (redirections (v.words args)).head?, (k.open w r).1 = none := by
  rw [h.executeExternal, h.openAll_iff]

end Program

/-- A kernel in which the descriptors below a number are open, every file can be opened and every
child exits with status 0. -/
def countingKernel : Kernel ℕ where
  openInput w _ := (some w, w + 1)
  openOutput w _ := (some w, w + 1)
  fork w _ := (some 1, w)
  waitpid w _ := (.ended (.exited 0), w)

theorem descriptors_countingKernel : Descriptors countingKernel Finset.range where
  opened {w w' r fd} h := by
    obtain ⟨d, path⟩ := r
    cases d <;> cases h <;> exact ⟨Finset.notMem_range_self, Finset.range_add_one⟩
  failed {w w' r} h := by
    obtain ⟨d, path⟩ := r
    cases d <;> cases h
  forked _ _ := rfl
  waited _ _ := rfl

/-- A command without redirections. -/
theorem descriptors_kept_ls :
    Finset.range (executeExternal countingKernel .miniShell2 3 (fun _ => none)
      [ascii "ls", ascii "&"]).2 = Finset.range 3 :=
  (descriptors_kept_iff countingKernel Finset.range descriptors_countingKernel .miniShell2 3
    (fun _ => none) [ascii "ls", ascii "&"]).mpr (by decide)

/-- A command that reads from a file: the descriptor of the file stays open in the shell. -/
theorem descriptor_left_open :
    Finset.range (executeExternal countingKernel .miniShell1 3 (fun _ => none)
      [ascii "cat", ascii "<", ascii "f"]).2 ≠ Finset.range 3 := by
  decide

end MiniShell

end SystemProgramming
