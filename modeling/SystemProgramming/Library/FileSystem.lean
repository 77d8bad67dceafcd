import Mathlib.Data.Finset.Lattice.Fold
import Mathlib.Logic.Function.Basic
import SystemProgramming.Library.BoundedMap
import SystemProgramming.Library.CanonicalPath

/-!
# A Unix file system

Directories form a tree; a *place* in it is the list of the names from the root down. A regular
file is an inode, which may stand at several places. A symbolic link holds a path; what paths name
is in `SystemProgramming.Library.PathWalk`.

## What cannot be built

A file system carries the proofs that it is one: the root is a directory, what exists stands in a
directory, and the inodes that are in use are below `next`. So there is no file without a directory
around it, and a new file gets an inode that no other place has. The operations take what they need
for this as a hypothesis (`putNode`), or check it and do nothing where it fails (`addDir`,
`addFile`, `setMode`); a caller that has looked at the place before knows which case it is in.

Nothing is ever removed. The programs that use this only make directories and files, write to files
and change permission bits, and that the tree grows is the reason why their recursions end.

Permission bits are nine, for the three classes of users, and a file system knows for every node
which class the caller is in. Owners and groups by number, times and link counts do not occur.

## Main definitions

* `Node`, `Inode`, `Fs` — a file system; its directories form a tree
* `Fs.addDir`, `Fs.addFile`, `Fs.setInode`, `Fs.setMode` — changing it
* `Fs.Lists` — listing a directory

## Main results

* `isDir_of_append`, `exists_of_prefix` — above everything that exists there are directories
* `node_addDir`, `node_addFile`, `setMode_of_dir`, `setMode_of_file` — what is changed, and what is
  left alone
* `Lists.mem`, `Lists.mem_of_node`, `Lists.nodup` — what a listing contains
-/

namespace SystemProgramming

open BoundedMap (find put find_put_self find_put_of_ne)

/-! ### Nodes -/

/-- The name of a directory entry. -/
abbrev Name := {c : List UInt8 // IsName c}

/-- The names from the root down. -/
abbrev Place := List Name

/-- The nine permission bits. -/
abbrev Mode := BitVec 9

/-- Which three of the permission bits apply to the caller. -/
inductive UserClass
  | owner
  | group
  | other
  deriving DecidableEq, Repr

inductive Access
  | read
  | write
  /-- Of a directory: using the names in it. -/
  | search
  deriving DecidableEq, Repr

/-- The bit for an access. -/
def permissionBit : UserClass → Access → ℕ
  | .owner, .read => 8
  | .owner, .write => 7
  | .owner, .search => 6
  | .group, .read => 5
  | .group, .write => 4
  | .group, .search => 3
  | .other, .read => 2
  | .other, .write => 1
  | .other, .search => 0

structure Attrs where
  mode : Mode
  cls : UserClass
  deriving DecidableEq, Repr

/-- The permission bits allow the access. -/
def Attrs.allows (a : Attrs) (access : Access) : Bool := a.mode.getLsbD (permissionBit a.cls access)

/-- What stands at a place. -/
inductive Node
  | dir (attrs : Attrs)
  /-- A regular file, by its inode. -/
  | file (ino : ℕ)
  | symlink (target : List UInt8)
  /-- A device, a socket or a pipe. -/
  | special
  deriving DecidableEq, Repr

/-- A node without its attributes. -/
inductive Kind
  | dir
  | file (ino : ℕ)
  | symlink (target : List UInt8)
  | special
  deriving DecidableEq, Repr

def Node.kind : Node → Kind
  | .dir _ => .dir
  | .file i => .file i
  | .symlink target => .symlink target
  | .special => .special

def Node.isDir : Node → Bool
  | .dir _ => true
  | _ => false

theorem Node.isDir_dir (a : Attrs) : (Node.dir a).isDir = true := rfl

theorem Node.isDir_iff {x : Node} : x.isDir = true ↔ x.kind = .dir := by
  rcases x with _ | _ | _ | _ <;> simp [isDir, kind]

/-- A regular file. -/
structure Inode where
  attrs : Attrs
  content : List UInt8

/-! ### File systems -/

/-- A file system: what stands at which place, and the regular files. -/
structure Fs where
  nodes : List (Place × Node)
  inodes : ℕ → Inode
  /-- No inode with this or a greater number is in use. -/
  next : ℕ
  root_isDir : (find [] nodes).any Node.isDir
  parent_isDir : ∀ (p : Place) (n : Name), (find (p ++ [n]) nodes).isSome →
    (find p nodes).any Node.isDir
  lt_next : ∀ (p : Place) (i : ℕ), find p nodes = some (.file i) → i < next

namespace Fs

/-- What stands at the place. -/
def node (fs : Fs) (p : Place) : Option Node := find p fs.nodes

def isDir (fs : Fs) (p : Place) : Bool := (fs.node p).any Node.isDir

theorem isDir_iff {fs : Fs} {p : Place} : fs.isDir p = true ↔ ∃ a, fs.node p = some (.dir a) := by
  rw [isDir, Option.any_eq_true]
  constructor
  · rintro ⟨_ | _ | _ | _, hx, hd⟩
    · exact ⟨_, hx⟩
    all_goals cases hd
  · rintro ⟨a, ha⟩
    exact ⟨_, ha, rfl⟩

theorem isDir_parent {fs : Fs} {p : Place} {n : Name} {x : Node}
    (h : fs.node (p ++ [n]) = some x) : fs.isDir p = true :=
  fs.parent_isDir p n (by rw [← node, h]; rfl)

/-- What lies below something that exists is in a directory. -/
theorem isDir_of_append {fs : Fs} {p : Place} {n : Name} {q : Place} {x : Node}
    (h : fs.node (p ++ n :: q) = some x) : fs.isDir p = true := by
  induction q using List.reverseRecOn generalizing x with
  | nil => exact isDir_parent h
  | append_singleton q m ih =>
    have hassoc : p ++ n :: (q ++ [m]) = p ++ n :: q ++ [m] := by simp
    rw [hassoc] at h
    obtain ⟨a, ha⟩ := isDir_iff.mp (isDir_parent h)
    exact ih ha

/-- Everything above something that exists, exists. -/
theorem exists_of_prefix {fs : Fs} {t p : Place} {x : Node} (htp : t <+: p)
    (hp : fs.node p = some x) : ∃ y, fs.node t = some y := by
  obtain ⟨l, rfl⟩ := htp
  rcases l with _ | ⟨m, l⟩
  · exact ⟨x, by rwa [List.append_nil] at hp⟩
  · obtain ⟨a, ha⟩ := isDir_iff.mp (isDir_of_append hp)
    exact ⟨_, ha⟩

/-- Nothing is below a place where there is nothing. -/
theorem node_below {fs : Fs} {t : Place} (h : fs.node t = none) (r : Place) :
    fs.node (t ++ r) = none := by
  rcases hx : fs.node (t ++ r) with _ | x
  · rfl
  · obtain ⟨y, hy⟩ := exists_of_prefix (List.prefix_append t r) hx
    exact absurd (h.symm.trans hy) nofun

/-- Put a node at a place: a new one into a directory, or in the place of one of its kind. -/
def putNode (fs : Fs) (p : Place) (x : Node) (hroot : p = [] → x.isDir = true)
    (hparent : ∀ q n, p = q ++ [n] → fs.isDir q = true) (hkind : fs.isDir p = true → x.isDir = true)
    (hino : ∀ i, x = .file i → i < fs.next) : Fs :=
  have hdir : ∀ q, (find q fs.nodes).any Node.isDir = true →
      (find q (put p x fs.nodes)).any Node.isDir = true := by
    intro q hq
    by_cases hqp : q = p
    · subst hqp
      rw [find_put_self]
      exact hkind hq
    · rwa [find_put_of_ne hqp]
  { nodes := put p x fs.nodes
    inodes := fs.inodes
    next := fs.next
    root_isDir := hdir [] fs.root_isDir
    parent_isDir := by
      intro q n h
      by_cases hqp : q ++ [n] = p
      · exact hdir q (hparent q n hqp.symm)
      · rw [find_put_of_ne hqp] at h
        exact hdir q (fs.parent_isDir q n h)
    lt_next := by
      intro q i h
      by_cases hqp : q = p
      · subst hqp
        rw [find_put_self] at h
        exact hino i (Option.some.inj h)
      · rw [find_put_of_ne hqp] at h
        exact fs.lt_next q i h }

/-- Nothing but the root directory. -/
def root (a : Attrs) : Fs where
  nodes := [([], .dir a)]
  inodes _ := ⟨a, []⟩
  next := 0
  root_isDir := rfl
  parent_isDir p n h := by
    rw [find, if_neg (by simp)] at h
    cases h
  lt_next p i h := by
    rw [find] at h
    split at h <;> cases h

/-- The name is free in a directory. -/
def Free (fs : Fs) (p : Place) (n : Name) : Prop :=
  fs.isDir p = true ∧ fs.node (p ++ [n]) = none

instance (fs : Fs) (p : Place) (n : Name) : Decidable (fs.Free p n) :=
  inferInstanceAs (Decidable (_ ∧ _))

/-- Change the regular file `i`. -/
def setInode (fs : Fs) (i : ℕ) (f : Inode → Inode) : Fs :=
  { fs with inodes := Function.update fs.inodes i (f (fs.inodes i)) }

/-- A new directory in the directory `p`. -/
def addDir (fs : Fs) (p : Place) (n : Name) (a : Attrs) : Fs :=
  if h : fs.Free p n then
    fs.putNode (p ++ [n]) (.dir a) (fun _ => Node.isDir_dir a)
      (fun q _ hq => (List.append_inj_left' hq rfl : p = q) ▸ h.1) (fun _ => Node.isDir_dir a) nofun
  else fs

/-- A file system in which one more inode is in use. -/
def reserve (fs : Fs) (inode : Inode) : Fs :=
  { fs with
    inodes := Function.update fs.inodes fs.next inode
    next := fs.next + 1
    lt_next := fun p i h => (fs.lt_next p i h).trans (Nat.lt_succ_self _) }

/-- A new regular file, which is empty, in the directory `p`. -/
def addFile (fs : Fs) (p : Place) (n : Name) (a : Attrs) : Fs :=
  if h : fs.Free p n then
    (fs.reserve ⟨a, []⟩).putNode (p ++ [n]) (.file fs.next)
      (fun hnil => absurd hnil (by simp))
      (fun q _ hq => (List.append_inj_left' hq rfl : p = q) ▸ h.1)
      (fun hd => by
        have hnone : (fs.reserve ⟨a, []⟩).node (p ++ [n]) = none := h.2
        rw [isDir, hnone] at hd
        cases hd)
      (fun i hi => Node.file.inj hi ▸ Nat.lt_succ_self _)
  else fs

/-- Set the permission bits of what stands at the place. -/
def setMode (fs : Fs) (p : Place) (mode : Mode) : Fs :=
  match h : fs.node p with
  | some (.dir a) =>
    fs.putNode p (.dir { a with mode }) (fun _ => Node.isDir_dir _)
      (fun _ _ hq => isDir_parent (hq ▸ h)) (fun _ => Node.isDir_dir _) nofun
  | some (.file i) => fs.setInode i fun f => { f with attrs := { f.attrs with mode } }
  | _ => fs

/-- The attributes of what stands at the place, where the program can see them. -/
def attrs (fs : Fs) (p : Place) : Option Attrs :=
  match fs.node p with
  | some (.dir a) => some a
  | some (.file i) => some (fs.inodes i).attrs
  | _ => none

/-! ### What the operations leave alone -/

theorem node_putNode (fs : Fs) (p : Place) (x : Node) (h₁ h₂ h₃ h₄) :
    (fs.putNode p x h₁ h₂ h₃ h₄).node = Function.update fs.node p (some x) := by
  funext q
  by_cases hqp : q = p
  · subst hqp
    rw [Function.update_self]
    exact find_put_self q x fs.nodes
  · rw [Function.update_of_ne hqp]
    exact find_put_of_ne hqp x fs.nodes

theorem node_addDir {fs : Fs} {p : Place} {n : Name} (h : fs.Free p n) (a : Attrs) :
    (fs.addDir p n a).node = Function.update fs.node (p ++ [n]) (some (.dir a)) := by
  rw [addDir, dif_pos h, node_putNode]

theorem node_addFile {fs : Fs} {p : Place} {n : Name} (h : fs.Free p n) (a : Attrs) :
    (fs.addFile p n a).node = Function.update fs.node (p ++ [n]) (some (.file fs.next)) := by
  rw [addFile, dif_pos h, node_putNode]
  rfl

@[simp] theorem inodes_addDir (fs : Fs) (p : Place) (n : Name) (a : Attrs) :
    (fs.addDir p n a).inodes = fs.inodes := by
  rw [addDir]
  split <;> rfl

@[simp] theorem next_addDir (fs : Fs) (p : Place) (n : Name) (a : Attrs) :
    (fs.addDir p n a).next = fs.next := by
  rw [addDir]
  split <;> rfl

theorem inodes_addFile {fs : Fs} {p : Place} {n : Name} (h : fs.Free p n) (a : Attrs) :
    (fs.addFile p n a).inodes = Function.update fs.inodes fs.next ⟨a, []⟩ := by
  rw [addFile, dif_pos h]
  rfl

theorem next_addFile {fs : Fs} {p : Place} {n : Name} (h : fs.Free p n) (a : Attrs) :
    (fs.addFile p n a).next = fs.next + 1 := by
  rw [addFile, dif_pos h]
  rfl

@[simp] theorem node_setInode (fs : Fs) (i : ℕ) (f : Inode → Inode) :
    (fs.setInode i f).node = fs.node := rfl

@[simp] theorem next_setInode (fs : Fs) (i : ℕ) (f : Inode → Inode) :
    (fs.setInode i f).next = fs.next := rfl

theorem inodes_setInode_of_ne (fs : Fs) {i j : ℕ} (h : j ≠ i) (f : Inode → Inode) :
    (fs.setInode i f).inodes j = fs.inodes j := Function.update_of_ne h _ _

@[simp] theorem inodes_setInode_self (fs : Fs) (i : ℕ) (f : Inode → Inode) :
    (fs.setInode i f).inodes i = f (fs.inodes i) := Function.update_self _ _ _

theorem setMode_of_dir {fs : Fs} {p : Place} {a : Attrs} (h : fs.node p = some (.dir a))
    (mode : Mode) :
    (fs.setMode p mode).node = Function.update fs.node p (some (.dir { a with mode })) ∧
      (fs.setMode p mode).inodes = fs.inodes ∧ (fs.setMode p mode).next = fs.next := by
  rw [setMode]
  split
  · rename_i a' ha
    obtain rfl : a = a' := by simpa using h.symm.trans ha
    exact ⟨node_putNode _ _ _ _ _ _ _, rfl, rfl⟩
  · rename_i i hi
    exact absurd (h.symm.trans hi) (by simp)
  · rename_i hother _
    exact absurd h (hother a)

theorem setMode_of_file {fs : Fs} {p : Place} {i : ℕ} (h : fs.node p = some (.file i))
    (mode : Mode) :
    fs.setMode p mode = fs.setInode i fun f => { f with attrs := { f.attrs with mode } } := by
  rw [setMode]
  split
  · rename_i a' ha
    exact absurd (h.symm.trans ha) (by simp)
  · rename_i j hj
    obtain rfl : i = j := by simpa using h.symm.trans hj
    rfl
  · rename_i _ hother
    exact absurd h (hother i)

/-- Only the attributes of a directory are kept in the tree. -/
theorem node_setMode (fs : Fs) (p : Place) (mode : Mode) :
    (fs.setMode p mode).node = fs.node ∨ ∃ a, fs.node p = some (.dir a) ∧
      (fs.setMode p mode).node = Function.update fs.node p (some (.dir { a with mode })) := by
  rcases hx : fs.node p with _ | a | i | target | _
  · refine Or.inl ?_
    rw [setMode]
    split
    · rename_i ha
      exact absurd (hx.symm.trans ha) nofun
    · rfl
    · rfl
  · exact Or.inr ⟨a, rfl, (setMode_of_dir hx mode).1⟩
  · exact Or.inl (by rw [setMode_of_file hx]; rfl)
  all_goals
    refine Or.inl ?_
    rw [setMode]
    split
    · rename_i ha
      exact absurd (hx.symm.trans ha) (by simp)
    · rfl
    · rfl

/-- Permission bits say nothing about what a file contains. -/
theorem content_setMode (fs : Fs) (p : Place) (mode : Mode) (i : ℕ) :
    ((fs.setMode p mode).inodes i).content = (fs.inodes i).content := by
  rw [setMode]
  split
  · rfl
  · rename_i j _
    by_cases hij : i = j
    · subst hij
      rw [inodes_setInode_self]
    · rw [inodes_setInode_of_ne fs hij]
  · rfl

@[simp] theorem next_setMode (fs : Fs) (p : Place) (mode : Mode) :
    (fs.setMode p mode).next = fs.next := by
  rw [setMode]
  split <;> rfl

end Fs

/-! ### Listing a directory -/

namespace Fs

/-- The names in a directory. -/
def entries (fs : Fs) (p : Place) : List Name :=
  ((BoundedMap.keys fs.nodes).filterMap fun q => if q.dropLast = p then q.getLast? else none).dedup

theorem mem_entries {fs : Fs} {p : Place} {n : Name} :
    n ∈ fs.entries p ↔ ∃ x, fs.node (p ++ [n]) = some x := by
  rw [entries, List.mem_dedup, List.mem_filterMap, ← Option.ne_none_iff_exists', node, ne_eq,
    BoundedMap.find_eq_none_iff, not_not]
  constructor
  · rintro ⟨q, hq, hn⟩
    obtain ⟨rfl, hlast⟩ := Option.ite_none_right_eq_some.mp hn
    rwa [List.dropLast_append_getLast? n hlast]
  · intro h
    exact ⟨p ++ [n], h, by simp⟩

/-- The tree has some depth. -/
theorem exists_depth (fs : Fs) : ∃ D, ∀ p x, fs.node p = some x → p.length ≤ D := by
  refine ⟨(BoundedMap.keys fs.nodes).toFinset.sup List.length, fun p x hx => ?_⟩
  have hmem : p ∈ BoundedMap.keys fs.nodes := by
    by_contra hno
    exact absurd (hx.symm.trans (BoundedMap.find_eq_none_iff.mpr hno)) nofun
  exact Finset.le_sup (f := List.length) (List.mem_toFinset.mpr hmem)

/-- What `readdir` returns of a directory, call by call: all names, in any order. -/
def Lists (fs : Fs) (p : Place) (names : List (List UInt8)) : Prop :=
  names.Perm (ascii "." :: ascii ".." :: (fs.entries p).map Subtype.val)

instance (fs : Fs) (p : Place) (names : List (List UInt8)) : Decidable (fs.Lists p names) :=
  inferInstanceAs (Decidable (List.Perm _ _))

/-- What a listing contains. -/
theorem Lists.mem {fs : Fs} {p : Place} {names : List (List UInt8)} (h : fs.Lists p names)
    {c : List UInt8} (hc : c ∈ names) : c = ascii "." ∨ c = ascii ".." ∨
      ∃ n : Name, c = n.1 ∧ ∃ x, fs.node (p ++ [n]) = some x := by
  rcases List.mem_cons.mp (h.mem_iff.mp hc) with hdot | hc
  · exact Or.inl hdot
  · rcases List.mem_cons.mp hc with hdotdot | hc
    · exact Or.inr (Or.inl hdotdot)
    · obtain ⟨n, hn, rfl⟩ := List.mem_map.mp hc
      exact Or.inr (Or.inr ⟨n, rfl, mem_entries.mp hn⟩)

/-- A listing is complete. -/
theorem Lists.mem_of_node {fs : Fs} {p : Place} {names : List (List UInt8)} (h : fs.Lists p names)
    {n : Name} {x : Node} (hx : fs.node (p ++ [n]) = some x) : n.1 ∈ names :=
  h.mem_iff.mpr (List.mem_cons_of_mem _ (List.mem_cons_of_mem _
    (List.mem_map_of_mem (mem_entries.mpr ⟨x, hx⟩))))

/-- Any name in the directory may come first. -/
theorem exists_lists_cons {fs : Fs} {p : Place} {n : Name} {x : Node}
    (hx : fs.node (p ++ [n]) = some x) : ∃ names, fs.Lists p (n.1 :: names) := by
  have hmem : n.1 ∈ ascii "." :: ascii ".." :: (fs.entries p).map Subtype.val :=
    List.mem_cons_of_mem _ (List.mem_cons_of_mem _
      (List.mem_map_of_mem (mem_entries.mpr ⟨x, hx⟩)))
  exact ⟨_, (List.perm_cons_erase hmem).symm⟩

/-- A listing contains every name once. -/
theorem Lists.nodup {fs : Fs} {p : Place} {names : List (List UInt8)} (h : fs.Lists p names) :
    names.Nodup := by
  have hdots : ∀ n : Name, n.1 ≠ ascii "." ∧ n.1 ≠ ascii ".." := fun n => n.2.2.2.2
  refine h.nodup_iff.mpr (List.nodup_cons.mpr ⟨?_, List.nodup_cons.mpr ⟨?_, ?_⟩⟩)
  · rw [List.mem_cons, not_or, List.mem_map, not_exists]
    exact ⟨by decide, fun n hn => (hdots n).1 hn.2⟩
  · rw [List.mem_map, not_exists]
    exact fun n hn => (hdots n).2 hn.2
  · exact (List.nodup_dedup _).map Subtype.val_injective

end Fs

end SystemProgramming
