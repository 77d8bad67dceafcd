import SystemProgramming.Library.FileSystem

/-!
# What a path names

A path is walked along from directory to directory, up at `..`, and on along the target where a
symbolic link stands. The calls of a process are functions of the file system and of the caller.
They succeed where the directories, the permission bits and the limits let them.

## How a path is walked along

A path is split at its slashes. An empty part leads to where the walk is, which has to be a
directory. The names are taken one by one, each in the directory that the walk has come to, which
the caller has to be allowed to search. A symbolic link in the middle of the path is replaced by its
target; at the end of the path it depends on the call (`follow`). The recursion is on the number of
links that may still be followed and, within, on the parts that are left, so that a loop of links is
no loop of the model.

## What the proofs need

A program that walks a tree makes paths by putting a name behind a path that it has used before. So
the main lemma is about a path with one name more: it leads to the entry of that name in the
directory that the path leads to (`walk_concat`). The other question is what becomes of a path while
the program changes the file system. As nothing is removed, a path that was found is found again at
the same place (`walk_keeps`), also when the permission bits have been widened.

## Main definitions

* `walk`, `Caller.resolve` — from paths to places
* `Caller.stat`, `Caller.mkdir`, `Caller.opendir`, `Caller.openRead`, `Caller.openWrite`,
  `Caller.chmod` — the calls

## Main results

* `walk_concat` — a path that goes one name further
* `walk_sound` — what a path that was walked along says of the file system
* `walk_keeps` — a path goes on naming what it named while nothing is removed or closed
-/

namespace SystemProgramming

/-! ### Paths -/

/-- What stands between the slashes of a path. -/
def components : List UInt8 → List (List UInt8)
  | [] => [[]]
  | b :: s =>
    if b = slash then [] :: components s
    else
      match components s with
      | [] => [[b]]
      | c :: cs => (b :: c) :: cs

theorem components_ne_nil (s : List UInt8) : components s ≠ [] := by
  rcases s with _ | ⟨b, s⟩
  · simp [components]
  · rw [components]
    split
    · simp
    · split <;> simp

theorem components_append (s t : List UInt8) :
    components (s ++ slash :: t) = components s ++ components t := by
  induction s with
  | nil => simp [components]
  | cons b s ih =>
    rw [List.cons_append, components, components, ih]
    split
    · rfl
    · obtain ⟨c, cs, hc⟩ := List.exists_cons_of_ne_nil (components_ne_nil s)
      rw [hc]
      rfl

theorem components_of_notMem {c : List UInt8} (h : slash ∉ c) : components c = [c] := by
  induction c with
  | nil => rfl
  | cons b c ih =>
    rw [List.mem_cons, not_or] at h
    rw [components, if_neg (Ne.symm h.1), ih h.2]

/-- What a path names. -/
inductive Target
  | found (p : Place)
  /-- Nothing, but there is a directory in which it could be created; `dir` says that it would have
  to be a directory, for the slash at the end of the path. -/
  | missing (p : Place) (n : Name) (dir : Bool)
  | failed
  deriving DecidableEq, Repr

/-- The place a path is about, whether or not something stands there. -/
def Target.place : Target → Option Place
  | .found p => some p
  | .missing p n _ => some (p ++ [n])
  | .failed => none

/-- What the next part of a path leads to. -/
inductive Turn
  /-- To this place. -/
  | on (p : Place)
  /-- Nothing has the name. -/
  | free (n : Name)
  /-- The name is that of a symbolic link. -/
  | link (n : Name) (target : List UInt8)
  | refused
  deriving DecidableEq, Repr

section Walk

variable (fs : Fs) (may : Place → Bool) (follow : Bool)

/-- The name `n` in the directory `p`. -/
def lookup (p : Place) (n : Name) : Turn :=
  match fs.node (p ++ [n]) with
  | none => .free n
  | some (.symlink target) => .link n target
  | some _ => .on (p ++ [n])

/-- The part `c` of a path, at the place `p`. -/
def turn (p : Place) (c : List UInt8) : Turn :=
  if c = [] then if fs.isDir p then .on p else .refused
  else if fs.isDir p && may p then
    if c = ascii "." then .on p
    else if c = ascii ".." then .on p.dropLast
    else if h : IsName c then lookup fs p ⟨c, h⟩
    else .refused
  else .refused

/-- Walk on from the place `p`; `onLink` walks on behind a symbolic link. Where `follow` is false,
a symbolic link at the end of the path is what the path names. -/
def walkNames (onLink : Place → List (List UInt8) → Target) : Place → List (List UInt8) → Target
  | p, [] => .found p
  | p, c :: cs =>
    match turn fs may p c with
    | .on q => walkNames onLink q cs
    | .free n => if cs.all List.isEmpty then .missing p n !cs.isEmpty else .failed
    | .link n target =>
      if !follow && cs.all List.isEmpty then .found (p ++ [n])
      else onLink (if target.head? = some slash then [] else p) (components target ++ cs)
    | .refused => .failed

/-- Walk along a path, through so many symbolic links at most. -/
def walk : ℕ → Place → List (List UInt8) → Target
  | 0 => walkNames fs may follow fun _ _ => .failed
  | links + 1 => walkNames fs may follow (walk links)

/-- One name further. -/
def walkName (p : Place) (n : Name) : Target :=
  if fs.isDir p && may p then
    match fs.node (p ++ [n]) with
    | none => .missing p n false
    | some _ => .found (p ++ [n])
  else .failed

end Walk

/-- Where a name of a directory is, whether or not something stands there. -/
theorem place_walkName {fs : Fs} {may : Place → Bool} {q p : Place} {n : Name}
    (h : (walkName fs may q n).place = some p) : p = q ++ [n] := by
  rw [walkName] at h
  split at h
  · split at h <;> exact (Option.some.inj h).symm
  · cases h

theorem turn_name (fs : Fs) (may : Place → Bool) (p : Place) (n : Name) :
    turn fs may p n.1 = if fs.isDir p && may p then lookup fs p n else .refused := by
  obtain ⟨hne, -, -, hdot, hdotdot⟩ := n.2
  rw [turn, if_neg hne, if_neg hdot, if_neg hdotdot, dif_pos n.2]

/-! ### One name further -/

section Concat

variable {fs : Fs} {may : Place → Bool} {q : Place} {n : Name}

theorem walkNames_name (hlink : ∀ target, fs.node (q ++ [n]) ≠ some (.symlink target))
    (follow : Bool) (onLink : Place → List (List UInt8) → Target) :
    walkNames fs may follow onLink q [n.1] = walkName fs may q n := by
  rw [walkNames, walkName, turn_name]
  rcases fs.isDir q && may q
  · rfl
  · simp only [if_true, lookup]
    rcases hx : fs.node (q ++ [n]) with _ | _ | _ | target | _
    · rfl
    · rfl
    · rfl
    · exact absurd hx (hlink target)
    · rfl

theorem all_isEmpty_concat (cs : List (List UInt8)) (n : Name) :
    (cs ++ [n.1]).all List.isEmpty = false := by
  simp [n.2.1]

theorem walkNames_concat (hlink : ∀ target, fs.node (q ++ [n]) ≠ some (.symlink target))
    {follow : Bool} {onLink onLink' : Place → List (List UInt8) → Target}
    (hon : ∀ p cs, onLink p cs = .found q → onLink' p (cs ++ [n.1]) = walkName fs may q n)
    {p : Place} {cs : List (List UInt8)} (h : walkNames fs may true onLink p cs = .found q) :
    walkNames fs may follow onLink' p (cs ++ [n.1]) = walkName fs may q n := by
  induction cs generalizing p with
  | nil =>
    obtain rfl := Target.found.inj h
    exact walkNames_name hlink follow onLink'
  | cons c cs ih =>
    rw [List.cons_append, walkNames]
    rw [walkNames] at h
    generalize turn fs may p c = r at h ⊢
    rcases r with p' | m | ⟨m, target⟩ | _
    · exact ih h
    · dsimp only at h
      split at h <;> cases h
    · simp only [all_isEmpty_concat, Bool.and_false, Bool.false_eq_true, if_false,
        ← List.append_assoc]
      exact hon _ _ h
    · cases h

/-- **A path and a name.** -/
theorem walk_concat (hlink : ∀ target, fs.node (q ++ [n]) ≠ some (.symlink target))
    {follow : Bool} {links : ℕ} {p : Place} {cs : List (List UInt8)}
    (h : walk fs may true links p cs = .found q) :
    walk fs may follow links p (cs ++ [n.1]) = walkName fs may q n := by
  induction links generalizing p cs with
  | zero => exact walkNames_concat hlink (fun _ _ (hon : Target.failed = .found q) => nomatch hon) h
  | succ links ih => exact walkNames_concat hlink (fun _ _ hon => ih hon) h

end Concat

/-! ### Without symbolic links -/

def Fs.NoSymlinks (fs : Fs) : Prop := ∀ p target, fs.node p ≠ some (.symlink target)

theorem turn_ne_link {fs : Fs} (hsym : fs.NoSymlinks) (may : Place → Bool) (p : Place)
    (c : List UInt8) (n : Name) (target : List UInt8) : turn fs may p c ≠ .link n target := by
  rw [turn]
  split
  · split <;> nofun
  · split
    · split
      · nofun
      · split
        · nofun
        · split
          · rw [lookup]
            rcases hx : fs.node (p ++ [_]) with _ | _ | _ | target' | _
            · nofun
            · nofun
            · nofun
            · exact absurd hx (hsym _ _)
            · nofun
          · nofun
    · nofun

theorem walkNames_follow {fs : Fs} (hsym : fs.NoSymlinks) (may : Place → Bool)
    (follow follow' : Bool) (onLink onLink' : Place → List (List UInt8) → Target) :
    walkNames fs may follow onLink = walkNames fs may follow' onLink' := by
  funext p cs
  induction cs generalizing p with
  | nil => rfl
  | cons c cs ih =>
    rw [walkNames, walkNames]
    have hlink := turn_ne_link hsym may p c
    generalize turn fs may p c = r at hlink ⊢
    rcases r with q | n | ⟨n, target⟩ | _
    · exact ih q
    · rfl
    · exact absurd rfl (hlink n target)
    · rfl

/-- Without symbolic links it does not matter whether they are followed. -/
theorem walk_follow {fs : Fs} (hsym : fs.NoSymlinks) (may : Place → Bool) (follow follow' : Bool)
    (links : ℕ) : walk fs may follow links = walk fs may follow' links := by
  rcases links with _ | links
  · exact walkNames_follow hsym may follow follow' _ _
  · exact walkNames_follow hsym may follow follow' _ _

/-- What is missing is missing whether or not symbolic links are followed at the end. -/
theorem walkNames_of_missing {fs : Fs} {may : Place → Bool}
    {onLink onLink' : Place → List (List UInt8) → Target} {q : Place} {n : Name} {d : Bool}
    (hon : ∀ p cs, onLink p cs = .missing q n d → onLink' p cs = .missing q n d)
    {p : Place} {cs : List (List UInt8)} (h : walkNames fs may false onLink p cs = .missing q n d) :
    walkNames fs may true onLink' p cs = .missing q n d := by
  induction cs generalizing p with
  | nil => cases h
  | cons c cs ih =>
    rw [walkNames] at h ⊢
    generalize turn fs may p c = r at h ⊢
    rcases r with p' | m | ⟨m, target⟩ | _
    · exact ih h
    · exact h
    · dsimp only at h
      split at h
      · cases h
      · exact hon _ _ h
    · cases h

theorem walk_of_missing {fs : Fs} {may : Place → Bool} {q : Place} {n : Name} {d : Bool} {links : ℕ}
    {p : Place} {cs : List (List UInt8)} (h : walk fs may false links p cs = .missing q n d) :
    walk fs may true links p cs = .missing q n d := by
  induction links generalizing p cs with
  | zero =>
    exact walkNames_of_missing (fun _ _ (hon : Target.failed = .missing q n d) => nomatch hon) h
  | succ links ih => exact walkNames_of_missing (fun _ _ hon => ih hon) h

/-! ### Where a walk ends -/

/-- What a path that was walked along says of the file system. -/
def Target.Sound (fs : Fs) : Target → Prop
  | .found p => ∃ x, fs.node p = some x
  | .missing p n _ => fs.Free p n
  | .failed => True

/-- Above a directory there is a directory. -/
theorem Fs.exists_node_dropLast {fs : Fs} {p : Place} (h : fs.isDir p = true) :
    ∃ x, fs.node p.dropLast = some x := by
  obtain ⟨a, ha⟩ := Fs.isDir_iff.mp h
  rcases List.eq_nil_or_concat p with rfl | ⟨q, n, rfl⟩
  · exact ⟨_, ha⟩
  · rw [List.concat_eq_append] at ha ⊢
    obtain ⟨b, hb⟩ := Fs.isDir_iff.mp (Fs.isDir_parent ha)
    rw [List.dropLast_concat]
    exact ⟨_, hb⟩

/-- What a turn at the place `p` says of the file system. -/
def Turn.Sound (fs : Fs) (p : Place) : Turn → Prop
  | .on q => ∃ x, fs.node q = some x
  | .free n => fs.Free p n
  | .link n _ => ∃ x, fs.node (p ++ [n]) = some x
  | .refused => True

theorem turn_sound {fs : Fs} (may : Place → Bool) {p : Place} (c : List UInt8)
    (hp : ∃ x, fs.node p = some x) : (turn fs may p c).Sound fs p := by
  rw [turn]
  split
  · split
    · exact hp
    · trivial
  · split
    · rename_i hd
      rw [Bool.and_eq_true] at hd
      split
      · exact hp
      · split
        · exact Fs.exists_node_dropLast hd.1
        · split
          · rw [lookup]
            rcases hx : fs.node (p ++ [_]) with _ | _ | _ | target | _
            · exact ⟨hd.1, hx⟩
            all_goals exact ⟨_, hx⟩
          · trivial
    · trivial

theorem walkNames_sound {fs : Fs} {may : Place → Bool} {follow : Bool}
    {onLink : Place → List (List UInt8) → Target}
    (hon : ∀ p cs, (∃ x, fs.node p = some x) → (onLink p cs).Sound fs)
    {p : Place} (cs : List (List UInt8)) (hp : ∃ x, fs.node p = some x) :
    (walkNames fs may follow onLink p cs).Sound fs := by
  induction cs generalizing p with
  | nil => exact hp
  | cons c cs ih =>
    have hturn := turn_sound may c hp
    rw [walkNames]
    generalize turn fs may p c = r at hturn ⊢
    rcases r with q | n | ⟨n, target⟩ | _
    · exact ih hturn
    · dsimp only
      split
      · exact hturn
      · trivial
    · dsimp only
      split
      · exact hturn
      · refine hon _ _ ?_
        split
        · obtain ⟨a, ha⟩ := Fs.isDir_iff.mp fs.root_isDir
          exact ⟨_, ha⟩
        · exact hp
    · trivial

theorem walk_sound {fs : Fs} {may : Place → Bool} {follow : Bool} {links : ℕ} {p : Place}
    (cs : List (List UInt8)) (hp : ∃ x, fs.node p = some x) :
    (walk fs may follow links p cs).Sound fs := by
  induction links generalizing p cs with
  | zero =>
    exact @walkNames_sound fs may follow (fun _ _ => .failed) (fun _ _ _ => trivial) p cs hp
  | succ links ih => exact walkNames_sound (fun _ cs hp => ih cs hp) cs hp

/-- A walk of at least one turn begins at a directory. -/
theorem walk_sound_of_ne_nil {fs : Fs} {may : Place → Bool} {follow : Bool} {links : ℕ} {p : Place}
    {cs : List (List UInt8)} (hcs : cs ≠ []) : (walk fs may follow links p cs).Sound fs := by
  rcases hd : fs.isDir p
  · obtain ⟨c, cs, rfl⟩ := List.exists_cons_of_ne_nil hcs
    have hturn : turn fs may p c = .refused := by simp [turn, hd]
    rcases links with _ | links <;>
    · rw [walk, walkNames, hturn]
      trivial
  · obtain ⟨a, ha⟩ := Fs.isDir_iff.mp hd
    exact walk_sound cs ⟨_, ha⟩

/-! ### Other permissions, and other file systems -/

/-- Everything is still there, and what was open to the caller still is. -/
structure Keeps (may may' : Place → Bool) (fs fs' : Fs) : Prop where
  node : ∀ p x, fs.node p = some x → ∃ x', fs'.node p = some x' ∧ x'.kind = x.kind
  may : ∀ p, fs.isDir p = true → may p = true → may' p = true

namespace Keeps

variable {may may' : Place → Bool} {fs fs' : Fs}

theorem isDir (h : Keeps may may' fs fs') {p : Place} (hp : fs.isDir p = true) :
    fs'.isDir p = true := by
  rw [Fs.isDir, Option.any_eq_true] at hp ⊢
  obtain ⟨x, hx, hd⟩ := hp
  obtain ⟨x', hx', hk⟩ := h.node p x hx
  exact ⟨x', hx', Node.isDir_iff.mpr (hk.trans (Node.isDir_iff.mp hd))⟩

/-- A name that is taken still is, and by the same. -/
theorem lookup_eq (h : Keeps may may' fs fs') (p : Place) (n : Name) :
    lookup fs p n = .free n ∨
      lookup fs' p n = lookup fs p n ∧ ∀ m, lookup fs p n ≠ .free m := by
  rw [lookup, lookup]
  rcases hx : fs.node (p ++ [n]) with _ | x
  · exact Or.inl rfl
  · obtain ⟨x', hx', hk⟩ := h.node _ _ hx
    rw [hx']
    rcases x with _ | _ | target | _ <;> rcases x' with _ | _ | target' | _ <;> cases hk
    all_goals exact Or.inr ⟨rfl, nofun⟩

/-- A turn that leads somewhere still leads there. -/
theorem turn_eq (h : Keeps may may' fs fs') (p : Place) (c : List UInt8) :
    turn fs may p c = .refused ∨
      (turn fs' may' p c = turn fs may p c ∧ ∀ m, turn fs may p c ≠ .free m) ∨
      ∃ n, turn fs may p c = .free n ∧ turn fs' may' p c = lookup fs' p n := by
  rcases hd : fs.isDir p
  · exact Or.inl (by simp [turn, hd])
  · have hd' := h.isDir hd
    by_cases hc : c = []
    · refine Or.inr (Or.inl ?_)
      rw [turn, turn, if_pos hc, if_pos hc, hd, hd']
      exact ⟨rfl, nofun⟩
    · rcases hm : may p
      · exact Or.inl (by rw [turn, if_neg hc, hm, Bool.and_false, if_neg (by decide)])
      · have hm' := h.may p hd hm
        rw [turn, turn, if_neg hc, if_neg hc, hd, hd', hm, hm']
        by_cases hname : IsName c
        · obtain ⟨-, -, -, hdot, hdotdot⟩ := id hname
          simp only [hdot, hdotdot, hname, dif_pos, if_false, Bool.and_self, if_true]
          rcases h.lookup_eq p ⟨c, hname⟩ with hfree | heq
          · exact Or.inr (Or.inr ⟨⟨c, hname⟩, hfree, rfl⟩)
          · exact Or.inr (Or.inl heq)
        · simp only [hname, dif_neg, not_false_eq_true, Bool.and_self, if_true]
          refine Or.inr (Or.inl ⟨trivial, fun m => ?_⟩)
          split
          · nofun
          · split <;> nofun

end Keeps

section Kept

variable {may may' : Place → Bool} {fs fs' : Fs} {follow : Bool}

/-- What a path still names: what it named, or what has been created where there was nothing. -/
def Target.Kept (fs' : Fs) : Target → Target → Prop
  | .found q, r => r = .found q
  | .missing q n dir, r => (fs'.node (q ++ [n]) = none → r = .missing q n dir) ∧
      ∀ x, fs'.node (q ++ [n]) = some x → (∀ target, x ≠ .symlink target) →
        (dir = true → x.isDir = true) → r = .found (q ++ [n])
  | .failed, _ => True

theorem walkNames_slashes {onLink : Place → List (List UInt8) → Target} {p : Place}
    {cs : List (List UInt8)} (hcs : cs.all List.isEmpty = true)
    (hdir : cs.isEmpty = false → fs.isDir p = true) :
    walkNames fs may follow onLink p cs = .found p := by
  induction cs with
  | nil => rfl
  | cons c cs ih =>
    rw [List.all_cons, Bool.and_eq_true, List.isEmpty_iff] at hcs
    rw [walkNames, turn, if_pos hcs.1, hdir rfl]
    exact ih hcs.2 fun _ => hdir rfl

theorem walkNames_keeps (hkeep : Keeps may may' fs fs')
    {onLink onLink' : Place → List (List UInt8) → Target}
    (hon : ∀ p cs, (onLink p cs).Kept fs' (onLink' p cs)) (p : Place) (cs : List (List UInt8)) :
    (walkNames fs may follow onLink p cs).Kept fs' (walkNames fs' may' follow onLink' p cs) := by
  induction cs generalizing p with
  | nil => rfl
  | cons c cs ih =>
    rw [walkNames, walkNames]
    rcases hkeep.turn_eq p c with hno | ⟨heq, hne⟩ | ⟨n, hfree, hnew⟩
    · rw [hno]
      trivial
    · rw [heq]
      generalize turn fs may p c = r at hne ⊢
      rcases r with q | n | ⟨n, target⟩ | _
      · exact ih q
      · exact absurd rfl (hne n)
      · dsimp only
        split
        · rfl
        · exact hon _ _
      · trivial
    · rw [hfree, hnew]
      dsimp only
      split
      · rename_i hcs
        refine ⟨fun hnone => by rw [lookup, hnone], fun x hx hlink hdir => ?_⟩
        have hlook : lookup fs' p n = .on (p ++ [n]) := by
          rw [lookup, hx]
          rcases x with _ | _ | target | _
          · rfl
          · rfl
          · exact absurd rfl (hlink target)
          · rfl
        rw [hlook]
        refine walkNames_slashes hcs fun hne => ?_
        rw [Fs.isDir, hx]
        exact hdir (by rw [hne]; rfl)
      · trivial

/-- **A path goes on naming what it named** while nothing is removed or closed. -/
theorem walk_keeps (hkeep : Keeps may may' fs fs') (links : ℕ) (p : Place)
    (cs : List (List UInt8)) :
    (walk fs may follow links p cs).Kept fs' (walk fs' may' follow links p cs) := by
  induction links generalizing p cs with
  | zero =>
    exact @walkNames_keeps may may' fs fs' follow hkeep (fun _ _ => .failed) (fun _ _ => .failed)
      (fun _ _ => trivial) p cs
  | succ links ih => exact walkNames_keeps hkeep ih p cs

end Kept

/-! ### The calls -/

/-- The process that makes the calls. -/
structure Caller where
  /-- The permission bits do not bind it. -/
  privileged : Bool
  /-- The working directory. -/
  cwd : Place
  /-- Only shorter paths are accepted, if there is a limit. -/
  pathMax : Option ℕ

/-- How many symbolic links are followed on the way along a path. -/
def maxLinks : ℕ := 40

/-- How `mkdir` ends. -/
inductive MkdirResult
  | made (fs : Fs)
  /-- `EEXIST` -/
  | exists
  | failed

namespace Caller

variable (c : Caller) (fs : Fs)

/-- The permission bits allow the caller the access. -/
def may (access : Access) (p : Place) : Bool :=
  c.privileged || (fs.attrs p).any (·.allows access)

/-- Where the walk along a path begins. -/
def start (path : List UInt8) : Place := if path.head? = some slash then [] else c.cwd

/-- What the path names, whether or not the caller may walk along it. The empty path names
nothing. -/
def locate (follow : Bool) (path : List UInt8) : Target :=
  if path = [] then .failed
  else walk fs (fun _ => true) follow maxLinks (c.start path) (components path)

/-- What the path names for the caller. -/
def resolve (follow : Bool) (path : List UInt8) : Target :=
  if path = [] ∨ c.pathMax.any (· ≤ path.length) then .failed
  else walk fs (c.may fs .search) follow maxLinks (c.start path) (components path)

/-- `stat`: the type of the file, and the permission bits. Those of a device do not matter here. -/
def stat (path : List UInt8) : Option (Kind × Mode) :=
  match c.resolve fs true path with
  | .found p =>
    match fs.node p with
    | some (.dir a) => some (.dir, a.mode)
    | some (.file i) => some (.file i, (fs.inodes i).attrs.mode)
    | some .special => some (.special, 0)
    | _ => none
  | _ => none

/-- `mkdir`, where `mode` is what the mask has left of the bits asked for. -/
def mkdir (path : List UInt8) (mode : Mode) : MkdirResult :=
  match c.resolve fs false path with
  | .found _ => .exists
  | .missing p n _ =>
    if c.may fs .write p then .made (fs.addDir p n ⟨mode, .owner⟩) else .failed
  | .failed => .failed

/-- `opendir`: the directory that will be listed. -/
def opendir (path : List UInt8) : Option Place :=
  match c.resolve fs true path with
  | .found p => if fs.isDir p && c.may fs .read p then some p else none
  | _ => none

/-- `open(path, O_RDONLY)`, for a regular file: its inode. -/
def openRead (path : List UInt8) : Option ℕ :=
  match c.resolve fs true path with
  | .found p =>
    match fs.node p with
    | some (.file i) => if c.may fs .read p then some i else none
    | _ => none
  | _ => none

/-- `open(path, O_WRONLY | O_CREAT | O_TRUNC, mode)`, where `mode` is what the mask has left of
the bits asked for: the file system behind it, and the inode that is opened, if it is a regular
file. -/
def openWrite (path : List UInt8) (mode : Mode) : Option (Fs × Option ℕ) :=
  match c.resolve fs true path with
  | .found p =>
    match fs.node p with
    | some (.file i) =>
      if c.may fs .write p then some (fs.setInode i fun f => { f with content := [] }, some i)
      else none
    | some .special => some (fs, none)
    | _ => none
  | .missing p n false =>
    if c.may fs .write p then some (fs.addFile p n ⟨mode, .owner⟩, some fs.next) else none
  | _ => none

/-- `chmod`, whatever it returns. -/
def chmod (path : List UInt8) (mode : Mode) : Fs :=
  match c.resolve fs true path with
  | .found p =>
    if c.privileged || (fs.attrs p).any (·.cls = .owner) then fs.setMode p mode else fs
  | _ => fs

theorem locate_sound (follow : Bool) (path : List UInt8) : (c.locate fs follow path).Sound fs := by
  rw [locate]
  split
  · trivial
  · exact walk_sound_of_ne_nil (components_ne_nil path)

theorem resolve_sound (follow : Bool) (path : List UInt8) :
    (c.resolve fs follow path).Sound fs := by
  rw [resolve]
  split
  · trivial
  · exact walk_sound_of_ne_nil (components_ne_nil path)

/-- A caller finds what a path names, or nothing. -/
theorem resolve_eq (follow : Bool) (path : List UInt8) :
    c.resolve fs follow path = .failed ∨ c.resolve fs follow path = c.locate fs follow path := by
  have hsound := c.resolve_sound fs follow path
  rw [resolve] at hsound ⊢
  by_cases hno : path = [] ∨ c.pathMax.any (· ≤ path.length) = true
  · exact Or.inl (if_pos hno)
  · rw [if_neg hno] at hsound ⊢
    have hkeep : Keeps (c.may fs .search) (fun _ => true) fs fs :=
      ⟨fun _ x hx => ⟨x, hx, rfl⟩, fun _ _ _ => rfl⟩
    have hkept := @walk_keeps _ _ _ _ follow hkeep maxLinks (c.start path) (components path)
    rw [locate, if_neg fun hnil => hno (Or.inl hnil)]
    generalize walk fs (c.may fs .search) follow maxLinks (c.start path) (components path) = r
      at hsound hkept ⊢
    rcases r with q | ⟨q, n, d⟩ | _
    · exact Or.inr hkept.symm
    · exact Or.inr (hkept.1 hsound.2).symm
    · exact Or.inl rfl

/-! ### Where a call leads -/

section Child

variable {c fs} {q : Place} {dir : List UInt8} {n : Name}

theorem components_child : components (dir ++ slash :: n.1) = components dir ++ [n.1] := by
  rw [components_append, components_of_notMem n.2.2.2.1]

theorem start_child (hdir : dir ≠ []) : c.start (dir ++ slash :: n.1) = c.start dir := by
  obtain ⟨b, s, rfl⟩ := List.exists_cons_of_ne_nil hdir
  rfl

theorem locate_child (h : c.locate fs true dir = .found q)
    (hlink : ∀ target, fs.node (q ++ [n]) ≠ some (.symlink target)) (follow : Bool) :
    c.locate fs follow (dir ++ slash :: n.1) = walkName fs (fun _ => true) q n := by
  rw [locate] at h
  split at h
  · cases h
  · rename_i hdir
    rw [locate, if_neg (by simp), components_child, start_child hdir]
    exact walk_concat hlink h

theorem resolve_child (h : c.resolve fs true dir = .found q)
    (hlink : ∀ target, fs.node (q ++ [n]) ≠ some (.symlink target)) (follow : Bool)
    (hlen : ¬ c.pathMax.any (· ≤ (dir ++ slash :: n.1).length) = true) :
    c.resolve fs follow (dir ++ slash :: n.1) = walkName fs (c.may fs .search) q n := by
  rw [resolve] at h
  split at h
  · cases h
  · rename_i hno
    rw [resolve, if_neg (by rw [not_or]; exact ⟨by simp, hlen⟩), components_child,
      start_child fun hnil => hno (Or.inl hnil)]
    exact walk_concat hlink h

/-- A path goes on naming what it named. -/
theorem locate_keeps {fs' : Fs} (hkeep : ∀ p x, fs.node p = some x →
      ∃ x', fs'.node p = some x' ∧ x'.kind = x.kind) (follow : Bool) (path : List UInt8) :
    (c.locate fs follow path).Kept fs' (c.locate fs' follow path) := by
  rw [locate, locate]
  split
  · trivial
  · exact walk_keeps ⟨hkeep, fun _ _ _ => rfl⟩ maxLinks _ _

theorem resolve_keeps {fs' : Fs}
    (hkeep : Keeps (c.may fs .search) (c.may fs' .search) fs fs') (follow : Bool)
    (path : List UInt8) : (c.resolve fs follow path).Kept fs' (c.resolve fs' follow path) := by
  rw [resolve, resolve]
  split
  · trivial
  · exact walk_keeps hkeep maxLinks _ _

theorem resolve_of_missing {path : List UInt8} {d : Bool}
    (h : c.resolve fs false path = .missing q n d) : c.resolve fs true path = .missing q n d := by
  rw [resolve] at h ⊢
  split at h
  · cases h
  · rename_i hno
    rw [if_neg hno]
    exact walk_of_missing h

theorem locate_follow (hsym : fs.NoSymlinks) (follow follow' : Bool) (path : List UInt8) :
    c.locate fs follow path = c.locate fs follow' path := by
  rw [locate, locate, walk_follow hsym _ follow follow']

end Child

/-- The permission bits of what has not changed. -/
theorem may_congr {c : Caller} {fs fs' : Fs} {p : Place} (hnode : fs'.node p = fs.node p)
    (hinodes : ∀ i < fs.next, fs'.inodes i = fs.inodes i) (access : Access) :
    c.may fs' access p = c.may fs access p := by
  have hattrs : fs'.attrs p = fs.attrs p := by
    rw [Fs.attrs, Fs.attrs, hnode]
    rcases hx : fs.node p with _ | _ | i | _ | _ <;> try rfl
    show some (fs'.inodes i).attrs = some (fs.inodes i).attrs
    rw [hinodes i (fs.lt_next p i hx)]
  rw [may, may, hattrs]

/-- Permission bits are the owner's to set. -/
theorem chmod_of_owner {c : Caller} {fs : Fs} {path : List UInt8} {p : Place} {a : Attrs}
    (hp : c.resolve fs true path = .found p) (ha : fs.attrs p = some a) (hcls : a.cls = .owner)
    (mode : Mode) : c.chmod fs path mode = fs.setMode p mode := by
  rw [chmod, hp]
  simp [ha, hcls]

/-- Opening for writing empties the file that is opened, and no other. -/
theorem openWrite_files {c : Caller} {fs fs' : Fs} {path : List UInt8} {mode : Mode}
    {outFd : Option ℕ} (h : c.openWrite fs path mode = some (fs', outFd)) :
    fs.next ≤ fs'.next ∧ ∀ i < fs.next,
      (fs'.inodes i).content = if outFd = some i then [] else (fs.inodes i).content := by
  have hsound := c.resolve_sound fs true path
  rw [openWrite] at h
  split at h
  · split at h
    · rename_i j hj
      obtain ⟨-, heq⟩ := Option.ite_none_right_eq_some.mp h
      obtain ⟨rfl, rfl⟩ := Prod.mk.inj (Option.some.inj heq)
      refine ⟨le_rfl, fun i hi => ?_⟩
      by_cases hij : i = j
      · subst hij
        rw [Fs.inodes_setInode_self, if_pos rfl]
      · rw [Fs.inodes_setInode_of_ne fs hij, if_neg (by simpa using Ne.symm hij)]
    · obtain ⟨rfl, rfl⟩ := Prod.mk.inj (Option.some.inj h)
      exact ⟨le_rfl, fun i _ => rfl⟩
    · cases h
  · rename_i p n hmissing
    rw [hmissing] at hsound
    obtain ⟨-, heq⟩ := Option.ite_none_right_eq_some.mp h
    obtain ⟨rfl, rfl⟩ := Prod.mk.inj (Option.some.inj heq)
    refine ⟨(Fs.next_addFile hsound _).symm ▸ Nat.le_succ _, fun i hi => ?_⟩
    rw [Fs.inodes_addFile hsound, Function.update_of_ne hi.ne, if_neg (by simpa using hi.ne')]
  · cases h

/-- A privileged caller finds what there is. -/
theorem resolve_of_privileged {c : Caller} (hpriv : c.privileged = true) (hmax : c.pathMax = none)
    (fs : Fs) (follow : Bool) (path : List UInt8) :
    c.resolve fs follow path = c.locate fs follow path := by
  have hmay : c.may fs .search = fun _ => true := by
    funext p
    rw [may, hpriv, Bool.true_or]
  rw [resolve, locate, hmay, hmax]
  simp

/-- The same process, not bound by the permission bits. -/
def unbound (c : Caller) : Caller := { c with privileged := true }

/-- Without permission bits a path names what it names with them, or more. -/
theorem unbound_resolve {c : Caller} {fs : Fs} {follow : Bool} {path : List UInt8} {r : Target}
    (h : c.resolve fs follow path = r) (hr : r ≠ .failed) :
    c.unbound.resolve fs follow path = r := by
  have hlocate : c.locate fs follow path = r := by
    rcases c.resolve_eq fs follow path with hno | heq
    · exact absurd (h.symm.trans hno) hr
    · exact heq.symm.trans h
  rw [resolve] at h ⊢
  by_cases hno : path = [] ∨ c.pathMax.any (· ≤ path.length) = true
  · exact absurd (h.symm.trans (if_pos hno)) hr
  · rw [locate, if_neg fun hnil => hno (Or.inl hnil)] at hlocate
    exact (if_neg hno).trans hlocate

/-- Without permission bits a path goes on naming what it named while nothing is removed. -/
theorem unbound_resolve_found {c : Caller} {fs fs' : Fs} (hkeep : ∀ p x, fs.node p = some x →
      ∃ x', fs'.node p = some x' ∧ x'.kind = x.kind) {follow : Bool} {path : List UInt8} {p : Place}
    (h : c.unbound.resolve fs follow path = .found p) :
    c.unbound.resolve fs' follow path = .found p := by
  have hkept := @resolve_keeps c.unbound fs fs' ⟨hkeep, fun _ _ _ => rfl⟩ follow path
  rw [h] at hkept
  exact hkept

/-! ### Calls that succeed -/

section Success

variable {c fs} {path : List UInt8}

theorem locate_of_resolve {follow : Bool} {r : Target} (h : c.resolve fs follow path = r)
    (hr : r ≠ .failed) : c.locate fs follow path = r := by
  rcases c.resolve_eq fs follow path with hno | heq
  · exact absurd (h.symm.trans hno) hr
  · exact heq.symm.trans h

theorem stat_of_dir {p : Place} {a : Attrs} (hp : c.resolve fs true path = .found p)
    (ha : fs.node p = some (.dir a)) : c.stat fs path = some (.dir, a.mode) := by
  rw [stat, hp]
  simp only [ha]

theorem stat_of_file {p : Place} {i : ℕ} (hp : c.resolve fs true path = .found p)
    (hi : fs.node p = some (.file i)) :
    c.stat fs path = some (.file i, (fs.inodes i).attrs.mode) := by
  rw [stat, hp]
  simp only [hi]

theorem found_of_stat {kind : Kind} {mode : Mode} (h : c.stat fs path = some (kind, mode)) :
    ∃ p x, c.resolve fs true path = .found p ∧ fs.node p = some x ∧ x.kind = kind := by
  rw [stat] at h
  split at h
  · rename_i p hp
    split at h <;> cases h
    · rename_i a ha
      exact ⟨p, _, hp, ha, rfl⟩
    · rename_i i hi
      exact ⟨p, _, hp, hi, rfl⟩
    · rename_i hx
      exact ⟨p, _, hp, hx, rfl⟩
  · cases h

theorem found_of_openRead {i : ℕ} (h : c.openRead fs path = some i) :
    ∃ p, c.resolve fs true path = .found p ∧ fs.node p = some (.file i) := by
  rw [openRead] at h
  split at h
  · rename_i p hp
    split at h
    · rename_i j hj
      obtain ⟨-, heq⟩ := Option.ite_none_right_eq_some.mp h
      obtain rfl := Option.some.inj heq
      exact ⟨p, hp, hj⟩
    · cases h
  · cases h

end Success

end Caller

end SystemProgramming
