import SystemProgramming.Cpdr.Returns

/-!
# What `cpdr` does to its source

`cp_file` opens its destination with `O_TRUNC` before it has read anything, and never asks whether
source and destination are the same file. The destination may be a file of the source tree: because
it is the source, by a hard link, or behind a symbolic link, at the top or anywhere below.

Which files are opened as destinations is settled by the file system and by the two paths. The
recursion comes from a pair of paths `s`, `d` to the pairs `s/n`, `d/n`, for the entries `n` of `s`.
A pair is a danger where both paths name a regular file and that of the destination belongs to the
source tree. It is none if both are empty, as nothing is lost and nothing is written then.

A pair may become a danger on the way. `cpdr d d/e`, where `d/e/e/x` exists and `d/e/x` does not,
copies `d/x` to `d/e/x` and that over `d/e/e/x`. So the condition looks at all file systems that
arise from the first one by making copies at pairs, in any order. Permission bits do not matter to
it: `cpdr` changes them as it goes, and may be run by anybody.

## Why the condition does not mention the program

`Arises` knows what a copy is and not in which order copies are made. So it allows file systems that
no run comes to: a run makes the copies of one listing before those of another, and does not come
back. To say which orders are possible would be to run the program. The price is that the two
directions are not about the same file systems. The condition asks for all that may arise; what is
shown to be necessary is about the first one, for a pair that is a danger there is reached by a run
before anything else has been written.

## Main definitions

* `IsSourceFile`, `Intact` — the files of the source tree, and that they are as they were
* `Comes` — the pairs of paths that the recursion comes to in a file system
* `SparedAt` — no pair of paths is a danger
* `Arises`, `Spared` — the file systems that may arise, and that no pair is a danger in any of them

## Main results

* `Arises.intact` — copies at pairs that are no danger leave the source alone
* `stepFrame_after` — what `cpdr` does is to make copies at pairs
* `source_intact` — if the source is spared, it is intact in every state of every run; a pair that
  is a danger from the beginning costs a file in some run
* `source_destroyed` — a file copied onto itself
-/

namespace SystemProgramming

namespace Cpdr

/-- The inode `i` is a regular file of the source tree: a path to it begins with the source. -/
def IsSourceFile (c : Caller) (fs : Fs) (src : List UInt8) (i : ℕ) : Prop :=
  ∃ (names : List Name) (p : Place),
    c.locate fs true (src ++ slashed (names.map Subtype.val)) = .found p ∧
      fs.node p = some (.file i)

/-- Every regular file of the source tree, as it was in `fs`, has the same contents in `fs'`. -/
def Intact (c : Caller) (fs : Fs) (src : List UInt8) (fs' : Fs) : Prop :=
  ∀ i, IsSourceFile c fs src i → (fs'.inodes i).content = (fs.inodes i).content

/-! ### Pairs of paths -/

section Pairs

variable (os : Os) (fs : Fs)

/-- The path names the regular file `i`. -/
def NamesFile (path : List UInt8) (i : ℕ) : Prop :=
  ∃ p, os.unbound.resolve fs true path = .found p ∧ fs.node p = some (.file i)

def NamesDir (path : List UInt8) : Prop :=
  ∃ p, os.unbound.resolve fs true path = .found p ∧ fs.isDir p = true

/-- The pairs of paths that the recursion comes to: with a directory `s`, to its entries. -/
inductive Comes (src dst : List UInt8) : List UInt8 → List UInt8 → Prop
  | top : Comes src dst src dst
  | entry {s d : List UInt8} {p q : Place} {n : Name} {x : Node} (h : Comes src dst s d)
      (hsrc : os.unbound.resolve fs true s = .found p) (hentry : fs.node (p ++ [n]) = some x)
      (hdst : os.unbound.resolve fs false d = .found q) :
      Comes src dst (join os s n.1) (join os d n.1)

/-- In the file system `fs'`, no file of the source tree of `fs` is where a regular file is to be
copied, unless both are empty. -/
def SparedAt (src dst : List UInt8) (fs' : Fs) : Prop :=
  ∀ s d k i, Comes os fs' src dst s d → NamesFile os fs' s k → NamesFile os fs' d i →
    IsSourceFile os.toCaller fs src i → (fs.inodes i).content = [] ∧ (fs'.inodes k).content = []

/-- The file systems that arise from `fs` by making copies at pairs of paths. -/
inductive Arises (src dst : List UInt8) : Fs → Prop
  | start : Arises src dst fs
  | makeDir {fs' : Fs} {s d : List UInt8} {q : Place} {n : Name} {b : Bool}
      (h : Arises src dst fs') (hpair : Comes os fs' src dst s d) (hdir : NamesDir os fs' s)
      (hdst : os.unbound.resolve fs' false d = .missing q n b) (a : Attrs) :
      Arises src dst (fs'.addDir q n a)
  | makeFile {fs' : Fs} {s d : List UInt8} {k : ℕ} {q : Place} {n : Name}
      (h : Arises src dst fs') (hpair : Comes os fs' src dst s d) (hfile : NamesFile os fs' s k)
      (hdst : os.unbound.resolve fs' true d = .missing q n false) (a : Attrs) :
      Arises src dst (fs'.addFile q n a)
  /-- What is not empty is written from a file that is not empty. -/
  | write {fs' : Fs} {s d : List UInt8} {k i : ℕ} (h : Arises src dst fs')
      (hpair : Comes os fs' src dst s d) (hfile : NamesFile os fs' s k)
      (hdst : NamesFile os fs' d i) (content : List UInt8)
      (hfrom : content ≠ [] → (fs'.inodes k).content ≠ []) :
      Arises src dst (fs'.setInode i fun f => { f with content })
  | setMode {fs' : Fs} (h : Arises src dst fs') (p : Place) (mode : Mode) :
      Arises src dst (fs'.setMode p mode)

/-- No copy that can be made touches the source. -/
def Spared (src dst : List UInt8) : Prop :=
  ∀ fs', Arises os fs src dst fs' → SparedAt os fs src dst fs'

end Pairs

/-! ### While the tree grows -/

section Grown

variable {os : Os} {fs fs' fs'' : Fs} {src dst s d path : List UInt8} {i : ℕ}

theorem NamesFile.of_grows (h : NamesFile os fs path i) (hgrows : Grows ⊤ fs fs') :
    NamesFile os fs' path i := by
  obtain ⟨p, hp, hi⟩ := h
  obtain ⟨x, hx, hkind⟩ := hgrows.kept p _ hi
  refine ⟨p, Caller.unbound_resolve_found hgrows.kept hp, ?_⟩
  rcases x with _ | j | _ | _ <;> cases hkind
  exact hx

theorem NamesDir.of_grows (h : NamesDir os fs path) (hgrows : Grows ⊤ fs fs') :
    NamesDir os fs' path := by
  obtain ⟨p, hp, hdir⟩ := h
  exact ⟨p, Caller.unbound_resolve_found hgrows.kept hp, hgrows.isDir hdir⟩

theorem Comes.of_grows (h : Comes os fs src dst s d) (hgrows : Grows ⊤ fs fs') :
    Comes os fs' src dst s d := by
  induction h with
  | top => exact .top
  | entry _ hsrc hentry hdst ih =>
    obtain ⟨x', hx', -⟩ := hgrows.kept _ _ hentry
    exact .entry ih (Caller.unbound_resolve_found hgrows.kept hsrc) hx'
      (Caller.unbound_resolve_found hgrows.kept hdst)

theorem grows_addDir (fs : Fs) (p : Place) (n : Name) (a : Attrs) :
    Grows ⊤ fs (fs.addDir p n a) := by
  by_cases hfree : fs.Free p n
  · exact .of_update (Fs.node_addDir hfree a) (by simp) (Or.inl ⟨hfree.2, trivial⟩)
  · rw [Fs.addDir, dif_neg hfree]
    exact .of_node_eq rfl

theorem grows_addFile (fs : Fs) (p : Place) (n : Name) (a : Attrs) :
    Grows ⊤ fs (fs.addFile p n a) := by
  by_cases hfree : fs.Free p n
  · exact .of_update (Fs.node_addFile hfree a) (by simp) (Or.inl ⟨hfree.2, trivial⟩)
  · rw [Fs.addFile, dif_neg hfree]
    exact .of_node_eq rfl

theorem grows_setMode (fs : Fs) (p : Place) (mode : Mode) : Grows ⊤ fs (fs.setMode p mode) := by
  rcases fs.node_setMode p mode with hsame | ⟨a, ha, hnode⟩
  · exact .of_node_eq hsame
  · exact .of_update hnode (by simp) (Or.inr ⟨_, ha, rfl⟩)

theorem Arises.grows (h : Arises os fs src dst fs') : Grows ⊤ fs fs' := by
  induction h with
  | start => exact .of_node_eq rfl
  | makeDir _ _ _ _ a ih => exact ih.trans (grows_addDir _ _ _ a)
  | makeFile _ _ _ _ a ih => exact ih.trans (grows_addFile _ _ _ a)
  | write _ _ _ _ _ _ ih => exact ih.trans (.of_node_eq rfl)
  | setMode _ p mode ih => exact ih.trans (grows_setMode _ p mode)

/-- A file of the source tree has a number of before. -/
theorem IsSourceFile.lt_next {c : Caller} (h : IsSourceFile c fs src i) : i < fs.next := by
  obtain ⟨_, p, -, hp⟩ := h
  exact fs.lt_next p i hp

/-- A new file has a new inode. -/
theorem Arises.node_of_lt (h : Arises os fs src dst fs') :
    fs.next ≤ fs'.next ∧ ∀ p i, fs'.node p = some (.file i) → i < fs.next →
      fs.node p = some (.file i) := by
  induction h with
  | start => exact ⟨le_rfl, fun _ _ hi _ => hi⟩
  | @makeDir fs' s d q n b _ _ _ hdst a ih =>
    have hfree : fs'.Free q n := by
      have hsound := os.unbound.resolve_sound fs' false d
      rwa [hdst] at hsound
    refine ⟨(Fs.next_addDir _ _ _ _).symm ▸ ih.1, fun p i hi hlt => ih.2 p i ?_ hlt⟩
    rw [Fs.node_addDir hfree] at hi
    by_cases hp : p = q ++ [n]
    · subst hp
      rw [Function.update_self] at hi
      cases hi
    · rwa [Function.update_of_ne hp] at hi
  | @makeFile fs' s d k q n _ _ _ hdst a ih =>
    have hfree : fs'.Free q n := by
      have hsound := os.unbound.resolve_sound fs' true d
      rwa [hdst] at hsound
    refine ⟨(Fs.next_addFile hfree a).symm ▸ Nat.le_succ_of_le ih.1, fun p i hi hlt => ?_⟩
    rw [Fs.node_addFile hfree] at hi
    by_cases hp : p = q ++ [n]
    · subst hp
      rw [Function.update_self] at hi
      obtain rfl := Node.file.inj (Option.some.inj hi)
      exact absurd hlt ih.1.not_gt
    · rw [Function.update_of_ne hp] at hi
      exact ih.2 p i hi hlt
  | write _ _ _ _ _ _ ih => exact ih
  | @setMode fs' _ p mode ih =>
    refine ⟨(Fs.next_setMode _ _ _).symm ▸ ih.1, fun p' i hi hlt => ih.2 p' i ?_ hlt⟩
    rcases fs'.node_setMode p mode with hsame | ⟨a, ha, hnode⟩
    · rwa [hsame] at hi
    · rw [hnode] at hi
      by_cases hp : p' = p
      · subst hp
        rw [Function.update_self] at hi
        cases hi
      · rwa [Function.update_of_ne hp] at hi

/-- **Copies at pairs that are no danger leave the source alone.** -/
theorem Arises.intact (hspared : Spared os fs src dst) (h : Arises os fs src dst fs') :
    Intact os.toCaller fs src fs' := by
  induction h with
  | start => exact fun _ _ => rfl
  | makeDir _ _ _ _ a ih =>
    intro i hi
    rw [Fs.inodes_addDir]
    exact ih i hi
  | @makeFile fs' s d k q n h _ _ hdst a ih =>
    intro i hi
    have hfree : fs'.Free q n := by
      have hsound := os.unbound.resolve_sound fs' true d
      rwa [hdst] at hsound
    rw [Fs.inodes_addFile hfree, Function.update_of_ne (hi.lt_next.trans_le h.node_of_lt.1).ne]
    exact ih i hi
  | @write fs' s d k j h hpair hfile hdst content hfrom ih =>
    intro i hi
    by_cases hij : i = j
    · subst hij
      -- both files are empty, so nothing is written
      obtain ⟨hi', hk⟩ := hspared fs' h s d k i hpair hfile hdst hi
      have hcontent : content = [] := by_contra fun hne => hfrom hne hk
      rw [Fs.inodes_setInode_self, hi']
      exact hcontent
    · rw [Fs.inodes_setInode_of_ne fs' hij]
      exact ih i hi
  | @setMode fs' _ p mode ih =>
    intro i hi
    rw [Fs.content_setMode]
    exact ih i hi

end Grown

/-! ### What the calls do -/

section Calls

variable {os : Os} {fs fs' fs'' : Fs} {src dst s d : List UInt8} {mode : Mode} {k : ℕ}

theorem Arises.mkdir (h : Arises os fs src dst fs') (hpair : Comes os fs' src dst s d)
    (hdir : NamesDir os fs' s) (hmade : os.mkdir fs' d mode = .made fs'') :
    Arises os fs src dst fs'' ∧ Grows ⊤ fs' fs'' ∧
      ∃ q, os.unbound.resolve fs'' false d = .found q := by
  rw [Caller.mkdir] at hmade
  split at hmade
  · cases hmade
  · rename_i q n b hmissing
    have hunbound := Caller.unbound_resolve hmissing (by simp)
    split at hmade
    · cases hmade
      have hfree : fs'.Free q n := by
        have hsound := os.resolve_sound fs' false d
        rwa [hmissing] at hsound
      have hgrows := grows_addDir fs' q n ⟨mode, .owner⟩
      have hkept := @Caller.resolve_keeps os.unbound fs' _ ⟨hgrows.kept, fun _ _ _ => rfl⟩ false d
      rw [hunbound] at hkept
      have hnew : (fs'.addDir q n ⟨mode, .owner⟩).node (q ++ [n]) = some (.dir ⟨mode, .owner⟩) := by
        rw [Fs.node_addDir hfree, Function.update_self]
      exact ⟨.makeDir h hpair hdir hunbound _, hgrows, q ++ [n],
        hkept.2 _ hnew (by simp) fun _ => rfl⟩
    · cases hmade
  · cases hmade

theorem found_of_exists (h : os.mkdir fs' d mode = .exists) :
    ∃ q, os.unbound.resolve fs' false d = .found q := by
  rw [Caller.mkdir] at h
  split at h
  · rename_i q hq
    exact ⟨q, Caller.unbound_resolve hq (by simp)⟩
  · split at h <;> cases h
  · cases h

theorem Arises.openWrite {outFd : Option ℕ} (h : Arises os fs src dst fs')
    (hpair : Comes os fs' src dst s d) (hfile : NamesFile os fs' s k)
    (hopen : os.openWrite fs' d mode = some (fs'', outFd)) :
    Arises os fs src dst fs'' ∧ Grows ⊤ fs' fs'' ∧
      ∀ i, outFd = some i → NamesFile os fs'' d i := by
  rw [Caller.openWrite] at hopen
  split at hopen
  · rename_i q hq
    have hunbound := Caller.unbound_resolve hq (by simp)
    split at hopen
    · rename_i i hi
      obtain ⟨-, heq⟩ := Option.ite_none_right_eq_some.mp hopen
      obtain ⟨rfl, rfl⟩ := Prod.mk.inj (Option.some.inj heq)
      have hfile' : NamesFile os fs' d i := ⟨q, hunbound, hi⟩
      have hgrows : Grows ⊤ fs' (fs'.setInode i fun f => { f with content := [] }) :=
        .of_node_eq rfl
      refine ⟨.write h hpair hfile hfile' [] fun hne => absurd rfl hne, hgrows, fun j hj => ?_⟩
      obtain rfl := Option.some.inj hj
      exact hfile'.of_grows hgrows
    · obtain ⟨rfl, rfl⟩ := Prod.mk.inj (Option.some.inj hopen)
      exact ⟨h, .of_node_eq rfl, by simp⟩
    · cases hopen
  · rename_i q n hmissing
    have hunbound := Caller.unbound_resolve hmissing (by simp)
    obtain ⟨-, heq⟩ := Option.ite_none_right_eq_some.mp hopen
    obtain ⟨rfl, rfl⟩ := Prod.mk.inj (Option.some.inj heq)
    have hfree : fs'.Free q n := by
      have hsound := os.resolve_sound fs' true d
      rwa [hmissing] at hsound
    have hgrows := grows_addFile fs' q n ⟨mode, .owner⟩
    have hkept := @Caller.resolve_keeps os.unbound fs' _ ⟨hgrows.kept, fun _ _ _ => rfl⟩ true d
    rw [hunbound] at hkept
    have hnew : (fs'.addFile q n ⟨mode, .owner⟩).node (q ++ [n]) = some (.file fs'.next) := by
      rw [Fs.node_addFile hfree, Function.update_self]
    refine ⟨.makeFile h hpair hfile hunbound _, hgrows, fun j hj => ?_⟩
    obtain rfl := Option.some.inj hj
    exact ⟨q ++ [n], hkept.2 _ hnew (by simp) (by simp), hnew⟩
  · cases hopen

theorem Arises.append {outFd : Option ℕ} (h : Arises os fs src dst fs')
    (hpair : Comes os fs' src dst s d) (hfile : NamesFile os fs' s k)
    (hout : ∀ i, outFd = some i → NamesFile os fs' d i) (hk : (fs'.inodes k).content ≠ [])
    (bytes : List UInt8) : Arises os fs src dst (append fs' outFd bytes) := by
  rcases outFd with _ | i
  · exact h
  · exact .write h hpair hfile (hout i rfl) ((fs'.inodes i).content ++ bytes) fun _ => hk

theorem Arises.chmod (h : Arises os fs src dst fs') (path : List UInt8) (mode : Mode) :
    Arises os fs src dst (os.chmod fs' path mode) := by
  rw [Caller.chmod]
  split
  · split
    · exact .setMode h _ mode
    · exact h
  · exact h

theorem grows_append (fs : Fs) (outFd : Option ℕ) (bytes : List UInt8) :
    Grows ⊤ fs (append fs outFd bytes) := by
  rcases outFd with _ | i
  · exact .of_node_eq rfl
  · exact .of_node_eq rfl

end Calls

/-! ### What the program does -/

/-- What is known where the program stands: it is at a pair of paths, and what it has found there
is there. -/
def FrameFits (os : Os) (src dst : List UInt8) (fs : Fs) : Frame → Prop
  | .main argv => ∃ cmd, argv = [cmd, src, dst]
  | .mainReturn => True
  | .cpDir s d => Comes os fs src dst s d ∧ NamesDir os fs s
  | .makeDst s d _ => Comes os fs src dst s d ∧ NamesDir os fs s
  | .openSrcDir s d _ => Comes os fs src dst s d ∧ ∃ q, os.unbound.resolve fs false d = .found q
  | .readEntry s d _ names => Comes os fs src dst s d ∧
      (∃ q, os.unbound.resolve fs false d = .found q) ∧
      ∃ p, os.unbound.resolve fs true s = .found p ∧ ∀ name ∈ names,
        name = ascii "." ∨ name = ascii ".." ∨ ∃ n : Name, name = n.1 ∧ ∃ x,
          fs.node (p ++ [n]) = some x
  | .statEntry s d => Comes os fs src dst s d
  | .leaveDir _ _ => True
  | .cpFile s d => Comes os fs src dst s d
  | .openDst s d inFd _ => Comes os fs src dst s d ∧ NamesFile os fs s inFd
  | .copying s d inFd outFd _ _ => Comes os fs src dst s d ∧ NamesFile os fs s inFd ∧
      ∀ i, outFd = some i → NamesFile os fs d i
  | .leaveFile _ _ => True

section Steps

variable {os : Os} {fs : Fs} {src dst s d : List UInt8}

theorem FrameFits.of_grows {fs' : Fs} {frame : Frame} (h : FrameFits os src dst fs frame)
    (hgrows : Grows ⊤ fs fs') : FrameFits os src dst fs' frame := by
  have hfound : ∀ {follow path}, (∃ q, os.unbound.resolve fs follow path = .found q) →
      ∃ q, os.unbound.resolve fs' follow path = .found q := fun ⟨q, hq⟩ =>
    ⟨q, Caller.unbound_resolve_found hgrows.kept hq⟩
  cases frame with
  | main argv => exact h
  | mainReturn => trivial
  | cpDir s d => exact ⟨h.1.of_grows hgrows, h.2.of_grows hgrows⟩
  | makeDst s d mode => exact ⟨h.1.of_grows hgrows, h.2.of_grows hgrows⟩
  | openSrcDir s d mode => exact ⟨h.1.of_grows hgrows, hfound h.2⟩
  | readEntry s d mode names =>
    obtain ⟨hpair, hdst, p, hp, hnames⟩ := h
    refine ⟨hpair.of_grows hgrows, hfound hdst, p, Caller.unbound_resolve_found hgrows.kept hp,
      fun name hname => ?_⟩
    rcases hnames name hname with hdot | hdotdot | ⟨n, hn, x, hx⟩
    · exact Or.inl hdot
    · exact Or.inr (Or.inl hdotdot)
    · obtain ⟨x', hx', -⟩ := hgrows.kept _ x hx
      exact Or.inr (Or.inr ⟨n, hn, x', hx'⟩)
  | statEntry s d => exact Comes.of_grows h hgrows
  | leaveDir path mode => trivial
  | cpFile s d => exact Comes.of_grows h hgrows
  | openDst s d inFd mode => exact ⟨h.1.of_grows hgrows, h.2.of_grows hgrows⟩
  | copying s d inFd outFd pos mode =>
    exact ⟨h.1.of_grows hgrows, h.2.1.of_grows hgrows, fun i hi => (h.2.2 i hi).of_grows hgrows⟩
  | leaveFile path mode => trivial

/-- A step from the state `st`, with the calls `k` behind it, to `st'`: the new file system arises,
the tree has grown, and where the program stands now is known. -/
structure After (os : Os) (fs : Fs) (src dst : List UInt8) (st : State) (k : List Frame)
    (st' : State) : Prop where
  arises : Arises os fs src dst st'.fs
  grows : Grows ⊤ st.fs st'.fs
  fits : ∀ frame ∈ st'.stack, frame ∈ k ∨ FrameFits os src dst st'.fs frame

variable {st st' : State} {k : List Frame} {es : List Event}

theorem after_exit (harises : Arises os fs src dst st.fs) {message : Event}
    (h : st.exit message = some (st', es)) : After os fs src dst st k st' := by
  obtain ⟨rfl, -⟩ := Prod.mk.inj (Option.some.inj h)
  exact ⟨harises, .of_node_eq rfl, by simp⟩

/-- A step that leaves the file system as it is. -/
theorem after_goto (harises : Arises os fs src dst st.fs) {stack : List Frame}
    (hfits : ∀ frame ∈ stack, frame ∈ k ∨ FrameFits os src dst st.fs frame)
    (h : st.goto stack = some (st', es)) : After os fs src dst st k st' := by
  obtain ⟨rfl, -⟩ := Prod.mk.inj (Option.some.inj h)
  exact ⟨harises, .of_node_eq rfl, hfits⟩

theorem fits_cons {fs : Fs} (frame : Frame) (hframe : FrameFits os src dst fs frame) :
    ∀ f ∈ frame :: k, f ∈ k ∨ FrameFits os src dst fs f := by
  intro f hf
  rcases List.mem_cons.mp hf with rfl | hf
  · exact Or.inr hframe
  · exact Or.inl hf

theorem fits_cons_cons {fs : Fs} (frame frame' : Frame) (hframe : FrameFits os src dst fs frame)
    (hframe' : FrameFits os src dst fs frame') :
    ∀ f ∈ frame :: frame' :: k, f ∈ k ∨ FrameFits os src dst fs f := by
  intro f hf
  rcases List.mem_cons.mp hf with rfl | hf
  · exact Or.inr hframe
  · exact fits_cons frame' hframe' f hf

theorem namesDir_of_stat {fs : Fs} {mode : Mode} (h : os.stat fs s = some (.dir, mode)) :
    NamesDir os fs s := by
  obtain ⟨p, x, hp, hx, hkind⟩ := Caller.found_of_stat h
  refine ⟨p, Caller.unbound_resolve hp (by simp), ?_⟩
  rw [Fs.isDir, hx]
  exact Node.isDir_iff.mpr hkind

theorem found_of_opendir {fs : Fs} {p : Place} (h : os.opendir fs s = some p) :
    os.resolve fs true s = .found p := by
  rw [Caller.opendir] at h
  split at h
  · rename_i q hq
    obtain ⟨-, heq⟩ := Option.ite_none_right_eq_some.mp h
    obtain rfl := Option.some.inj heq
    exact hq
  · cases h

theorem after_mainStat (harises : Arises os fs src dst st.fs) {r : Option (Kind × Mode)}
    (hr : os.stat st.fs src = r) (h : mainStat st src dst k r = some (st', es)) :
    After os fs src dst st k st' := by
  rcases r with _ | ⟨_ | i | target | _, mode⟩
  · exact after_exit harises h
  · exact after_goto harises
      (fits_cons_cons (.cpDir src dst) .mainReturn ⟨.top, namesDir_of_stat hr⟩ trivial) h
  · exact after_goto harises (fits_cons_cons (.cpFile src dst) .mainReturn Comes.top trivial) h
  · exact after_exit harises h
  · exact after_exit harises h

theorem after_entryStat (harises : Arises os fs src dst st.fs) (hpair : Comes os st.fs src dst s d)
    {r : Option (Kind × Mode)} (hr : r = none ∨ os.stat st.fs s = r)
    (h : entryStat st s d k r = some (st', es)) : After os fs src dst st k st' := by
  rcases r with _ | ⟨_ | i | target | _, mode⟩
  · obtain ⟨rfl, -⟩ := Prod.mk.inj (Option.some.inj h)
    exact ⟨harises, .of_node_eq rfl, fun _ hf => Or.inl hf⟩
  · exact after_goto harises
      (fits_cons (.cpDir s d) ⟨hpair, namesDir_of_stat (hr.resolve_left (by simp))⟩) h
  · exact after_goto harises (fits_cons (.cpFile s d) hpair) h
  · exact after_goto harises (fun _ hf => Or.inl hf) h
  · exact after_goto harises (fun _ hf => Or.inl hf) h

/-- **What `cpdr` does** is to make copies at pairs of paths. -/
theorem stepFrame_after {frame : Frame} {a : Answer} (harises : Arises os fs src dst st.fs)
    (hfits : FrameFits os src dst st.fs frame)
    (h : stepFrame os st k frame a = some (st', es)) : After os fs src dst st k st' := by
  rw [stepFrame.eq_def] at h
  split at h
  · obtain ⟨cmd, hargv⟩ := hfits
    cases hargv
    exact after_mainStat harises rfl h
  · exact after_exit harises h
  · exact after_exit harises h
  · obtain ⟨rfl, -⟩ := Prod.mk.inj (Option.some.inj h)
    exact ⟨harises, .of_node_eq rfl, fun _ hf => Or.inl hf⟩
  · split at h
    · exact after_exit harises h
    · exact after_goto harises (fits_cons (.makeDst _ _ _) hfits) h
  · exact after_exit harises h
  · obtain ⟨hpair, hdir⟩ := hfits
    split at h
    · rename_i hmade
      obtain ⟨harises', hgrows, hfound⟩ := harises.mkdir hpair hdir hmade
      obtain ⟨rfl, -⟩ := Prod.mk.inj (Option.some.inj h)
      exact ⟨harises', hgrows, fits_cons (.openSrcDir _ _ _) ⟨hpair.of_grows hgrows, hfound⟩⟩
    · rename_i hexists
      exact after_goto harises
        (fits_cons (.openSrcDir _ _ _) ⟨hpair, found_of_exists hexists⟩) h
    · exact after_exit harises h
  · exact after_exit harises h
  · split at h
    · cases h
    · rename_i p hopen
      obtain ⟨hlists, hgo⟩ := Option.ite_none_right_eq_some.mp h
      obtain ⟨hpair, hdst⟩ := hfits
      have hp : os.resolve st.fs true _ = .found p := found_of_opendir hopen
      exact after_goto harises (fits_cons (.readEntry _ _ _ _) ⟨hpair, hdst, p,
        Caller.unbound_resolve hp (by simp), fun _ hname => hlists.mem hname⟩) hgo
  · split at h
    · exact after_exit harises h
    · cases h
  · exact after_exit harises h
  · exact after_goto harises (fits_cons (.leaveDir _ _) trivial) h
  · rename_i s d mode name names
    obtain ⟨hpair, hdst, p, hp, hnames⟩ := hfits
    have hrest : FrameFits os src dst st.fs (.readEntry s d mode names) :=
      ⟨hpair, hdst, p, hp, fun c hc => hnames c (List.mem_cons_of_mem _ hc)⟩
    split at h
    · exact after_goto harises (fits_cons (.readEntry s d mode names) hrest) h
    · rename_i hname
      rw [not_or] at hname
      obtain ⟨n, rfl, x, hx⟩ :=
        ((hnames name List.mem_cons_self).resolve_left hname.1).resolve_left hname.2
      obtain ⟨q, hq⟩ := hdst
      exact after_goto harises (fits_cons_cons (.statEntry _ _) (.readEntry s d mode names)
        (Comes.entry hpair hp hx hq) hrest) h
  · exact after_goto harises (fits_cons (.leaveDir _ _) trivial) h
  · exact after_entryStat harises hfits (Or.inr rfl) h
  · exact after_entryStat harises hfits (Or.inl rfl) h
  · obtain ⟨rfl, -⟩ := Prod.mk.inj (Option.some.inj h)
    exact ⟨harises.chmod _ _, grows_chmod ⊤ _ _ _ _, fun _ hf => Or.inl hf⟩
  · exact after_goto harises (fun _ hf => Or.inl hf) h
  · split at h
    · exact after_exit harises h
    · rename_i inFd hopen
      obtain ⟨p, hp, hi⟩ := Caller.found_of_openRead hopen
      exact after_goto harises (fits_cons (.openDst _ _ inFd _)
        ⟨hfits, p, Caller.unbound_resolve hp (by simp), hi⟩) h
  · exact after_exit harises h
  · obtain ⟨hpair, hfile⟩ := hfits
    split at h
    · obtain ⟨rfl, -⟩ := Prod.mk.inj (Option.some.inj h)
      exact ⟨harises, .of_node_eq rfl, by simp⟩
    · rename_i fs' outFd hopen
      obtain ⟨harises', hgrows, hout⟩ := harises.openWrite hpair hfile hopen
      obtain ⟨rfl, -⟩ := Prod.mk.inj (Option.some.inj h)
      exact ⟨harises', hgrows, fits_cons (.copying _ _ _ _ _ _)
        ⟨hpair.of_grows hgrows, hfile.of_grows hgrows, hout⟩⟩
  · obtain ⟨rfl, -⟩ := Prod.mk.inj (Option.some.inj h)
    exact ⟨harises, .of_node_eq rfl, by simp⟩
  · rename_i s d inFd outFd pos mode n written
    obtain ⟨⟨hn, -, hlen, hle⟩, hbody⟩ := Option.ite_none_right_eq_some.mp h
    obtain ⟨hpair, hfile, hout⟩ := hfits
    have hsome : (st.fs.inodes inFd).content ≠ [] := by
      intro hnil
      rw [hnil, List.length_nil] at hlen
      omega
    generalize (((st.fs.inodes inFd).content.drop pos).take n).take written = bytes at hbody
    have harises' := harises.append hpair hfile hout hsome bytes
    have hgrows := grows_append st.fs outFd bytes
    split at hbody
    · obtain ⟨rfl, -⟩ := Prod.mk.inj (Option.some.inj hbody)
      exact ⟨harises', hgrows, fits_cons (.copying s d inFd outFd (pos + n) mode)
        ⟨hpair.of_grows hgrows, hfile.of_grows hgrows, fun i hi => (hout i hi).of_grows hgrows⟩⟩
    · obtain ⟨rfl, -⟩ :=
        Prod.mk.inj (Option.some.inj (Option.ite_none_right_eq_some.mp hbody).2)
      exact ⟨harises', hgrows, by simp⟩
  · exact after_goto harises (fits_cons (.leaveFile _ _) trivial)
      (Option.ite_none_right_eq_some.mp h).2
  · exact after_exit harises h
  · obtain ⟨rfl, -⟩ := Prod.mk.inj (Option.some.inj h)
    exact ⟨harises.chmod _ _, grows_chmod ⊤ _ _ _ _, fun _ hf => Or.inl hf⟩
  · exact after_goto harises (fun _ hf => Or.inl hf) h
  · cases h

end Steps

/-! ### Runs -/

section Runs

variable {os : Os} {fs : Fs} {umask : Mode} {cmd src dst : List UInt8} {as : List Answer}
  {st : State} {es : List Event}

theorem exists_frame_of_step {st' : State} {a : Answer} (h : step os st a = some (st', es)) :
    ∃ frame k, st.stack = frame :: k ∧ stepFrame os st k frame a = some (st', es) := by
  rw [step] at h
  obtain ⟨-, hbody⟩ := Option.ite_none_left_eq_some.mp h
  generalize st.stack = stack at hbody ⊢
  rcases stack with _ | ⟨frame, k⟩
  · cases hbody
  · exact ⟨frame, k, rfl, hbody⟩

/-- In every run the file system arises by copies at pairs of paths. -/
theorem arises_of_run (h : (machine os fs umask [cmd, src, dst]).run as = some (st, es)) :
    Arises os fs src dst st.fs := by
  refine (Machine.run_invariant_state (M := machine os fs umask [cmd, src, dst])
    (I := fun st => Arises os fs src dst st.fs ∧
      ∀ frame ∈ st.stack, FrameFits os src dst st.fs frame) ⟨.start, ?_⟩ ?_ h).1
  · intro frame hframe
    obtain rfl := List.mem_singleton.mp hframe
    exact ⟨cmd, rfl⟩
  · rintro st a st' es ⟨harises, hfits⟩ hstep
    obtain ⟨frame, k, hstack, hframe⟩ := exists_frame_of_step hstep
    rw [hstack] at hfits
    obtain ⟨harises', hgrows, hfits'⟩ :=
      stepFrame_after harises (hfits frame List.mem_cons_self) hframe
    refine ⟨harises', fun f hf => ?_⟩
    rcases hfits' f hf with hk | hnew
    · exact (hfits f (List.mem_cons_of_mem _ hk)).of_grows hgrows
    · exact hnew

/-- The system on which calls may fail, and the permission bits bind nobody. -/
def harsh (os : Os) : Os := ⟨os.unbound, true⟩

/-- Where the program goes on with a pair of paths, by the type of what the first one names. -/
def frameOf (s d : List UInt8) : Kind → Frame
  | .dir => .cpDir s d
  | _ => .cpFile s d

theorem mainStat_frameOf {kind : Kind} {mode : Mode} (hkind : kind = .dir ∨ ∃ i, kind = .file i)
    (st : State) (k : List Frame) : mainStat st src dst k (some (kind, mode)) =
      some ({ st with stack := frameOf src dst kind :: .mainReturn :: k }, []) := by
  rcases hkind with rfl | ⟨i, rfl⟩
  · rfl
  · rfl

theorem entryStat_frameOf {kind : Kind} {mode : Mode} (hkind : kind = .dir ∨ ∃ i, kind = .file i)
    (st : State) (s d : List UInt8) (k : List Frame) : entryStat st s d k (some (kind, mode)) =
      some ({ st with stack := frameOf s d kind :: k }, []) := by
  rcases hkind with rfl | ⟨i, rfl⟩
  · rfl
  · rfl

/-- **To every pair of paths there is a run** that comes to it and has changed nothing yet. -/
theorem exists_run_of_comes (cmd : List UInt8) (umask : Mode) {s d : List UInt8}
    (hpair : Comes os fs src dst s d) {kind : Kind} {mode : Mode}
    (hstat : os.unbound.stat fs s = some (kind, mode))
    (hkind : kind = .dir ∨ ∃ i, kind = .file i) : ∃ as k es,
      (machine (harsh os) fs umask [cmd, src, dst]).run as =
        some (⟨fs, umask, frameOf s d kind :: k, none⟩, es) := by
  induction hpair generalizing kind mode with
  | top =>
    have hmain : stepFrame (harsh os) ⟨fs, umask, [.main [cmd, src, dst]], none⟩ []
        (.main [cmd, src, dst]) .result =
        some (⟨fs, umask, [frameOf src dst kind, .mainReturn], none⟩, []) := by
      show mainStat _ src dst [] (os.unbound.stat fs src) = _
      rw [hstat, mainStat_frameOf hkind]
    have hrun : (machine (harsh os) fs umask [cmd, src, dst]).runFrom
        ⟨fs, umask, [.main [cmd, src, dst]], none⟩ [.result] =
        some (⟨fs, umask, [frameOf src dst kind, .mainReturn], none⟩, []) := by
      simp only [Machine.runFrom, machine_step, ne_eq, reduceCtorEq, not_false_eq_true, hmain,
        Option.bind_some, Option.map_some, List.append_nil]
    exact ⟨[.result], [.mainReturn], [], hrun⟩
  | @entry s d p q n x hpair hsrc hentry hdst ih =>
    have hpdir := Fs.isDir_parent hentry
    obtain ⟨attrs, hattrs⟩ := Fs.isDir_iff.mp hpdir
    have hstat' : os.unbound.stat fs s = some (.dir, attrs.mode) := Caller.stat_of_dir hsrc hattrs
    obtain ⟨as, k, es, hrun⟩ := ih hstat' (Or.inl rfl)
    -- the listing begins with the name that leads to the next pair
    obtain ⟨names, hnames⟩ := Fs.exists_lists_cons hentry
    have henter : stepFrame (harsh os) ⟨fs, umask, .cpDir s d :: k, none⟩ k (.cpDir s d) .result =
        some (⟨fs, umask, .makeDst s d attrs.mode :: k, none⟩, []) := by
      have hdir : (harsh os).stat fs s = some (.dir, attrs.mode) := hstat'
      rw [stepFrame]
      simp only [hdir]
      rfl
    have hmake : stepFrame (harsh os) ⟨fs, umask, .makeDst s d attrs.mode :: k, none⟩ k
        (.makeDst s d attrs.mode) .result =
        some (⟨fs, umask, .openSrcDir s d attrs.mode :: k, none⟩, []) := by
      have hexists : (harsh os).mkdir fs d (attrs.mode &&& ~~~umask) = .exists := by
        rw [Caller.mkdir, show (harsh os).resolve fs false d = .found q from hdst]
      rw [stepFrame]
      simp only [hexists]
      rfl
    have hopen : (harsh os).opendir fs s = some p := by
      rw [Caller.opendir, show (harsh os).resolve fs true s = .found p from hsrc]
      simp only [hpdir, Caller.may, harsh, Caller.unbound, Bool.true_or, Bool.and_self, if_true]
    have hlist : (machine (harsh os) fs umask [cmd, src, dst]).runFrom
        ⟨fs, umask, .openSrcDir s d attrs.mode :: k, none⟩
        [.listing (n.1 :: names), .result, .result] = some (⟨fs, umask,
          frameOf (join os s n.1) (join os d n.1) kind :: .readEntry s d attrs.mode names :: k,
          none⟩, []) := by
      refine run_entry hopen hnames fun k => ?_
      show entryStat _ _ _ k (os.unbound.stat fs (join os s n.1)) = _
      rw [hstat, entryStat_frameOf hkind]
      rfl
    have hfrom : (machine (harsh os) fs umask [cmd, src, dst]).runFrom
        ⟨fs, umask, .cpDir s d :: k, none⟩
        [.result, .result, .listing (n.1 :: names), .result, .result] = some (⟨fs, umask,
          frameOf (join os s n.1) (join os d n.1) kind :: .readEntry s d attrs.mode names :: k,
          none⟩, []) := by
      have hrest := Machine.runFrom_cons_eq_some.mpr
        ⟨_, (machine_step (by simp)).trans hmake, _, hlist, rfl⟩
      exact Machine.runFrom_cons_eq_some.mpr
        ⟨_, (machine_step (by simp)).trans henter, _, hrest, rfl⟩
    exact ⟨_, _, _, Machine.runFrom_append_eq_some.mpr ⟨_, hrun, _, hfrom, rfl⟩⟩

/-- Where a destination has been opened, the next call may fail. -/
theorem run_fault (argv : List (List UInt8)) (umask : Mode) (s d : List UInt8) (k i pos : ℕ)
    (mode : Mode) (stack : List Frame) (fs' : Fs) : (machine (harsh os) fs umask argv).runFrom
      ⟨fs', umask, .copying s d k (some i) pos mode :: stack, none⟩ [.fault] =
      some (⟨fs', umask, [], some 1⟩, [.perror s]) := rfl

/-- Or the one after a block of one byte. -/
theorem run_block_fault (argv : List (List UInt8)) (umask : Mode) (s d : List UInt8) {k : ℕ}
    (i : ℕ) (mode : Mode) (stack : List Frame) {fs' : Fs} {b : UInt8} {rest : List UInt8}
    (hb : (fs'.inodes k).content = b :: rest) : (machine (harsh os) fs umask argv).runFrom
      ⟨fs', umask, .copying s d k (some i) 0 mode :: stack, none⟩ [.block 1 1, .fault] =
      some (⟨append fs' (some i) [b], umask, [], some 1⟩, [.perror s]) := by
  have hblock : stepFrame (harsh os) ⟨fs', umask, .copying s d k (some i) 0 mode :: stack, none⟩
      stack (.copying s d k (some i) 0 mode) (.block 1 1) = some
      (⟨append fs' (some i) [b], umask, .copying s d k (some i) 1 mode :: stack, none⟩, []) := by
    simp only [stepFrame, hb]
    rw [if_pos ⟨Nat.one_pos, by decide, by simp, le_rfl⟩, if_pos trivial]
    rfl
  have hfault := @run_fault os fs argv umask s d k i 1 mode stack (append fs' (some i) [b])
  exact Machine.runFrom_cons_eq_some.mpr
    ⟨_, (machine_step (by simp)).trans hblock, _, hfault, rfl⟩

/-- From `cp_file` to the loop that copies, when both files are there. -/
theorem run_cpFile (argv : List (List UInt8)) (umask : Mode) {s d : List UInt8} {k i : ℕ}
    (hk : NamesFile os fs s k) (hi : NamesFile os fs d i) (stack : List Frame) : ∃ mode,
      (machine (harsh os) fs umask argv).runFrom
        ⟨fs, umask, .cpFile s d :: stack, none⟩ [.result, .result] =
        some (⟨fs.setInode i fun f => { f with content := [] }, umask,
          .copying s d k (some i) 0 mode :: stack, none⟩, []) := by
  obtain ⟨p, hp, hk⟩ := hk
  obtain ⟨q, hq, hi⟩ := hi
  refine ⟨(fs.inodes k).attrs.mode, ?_⟩
  have hopen : stepFrame (harsh os) ⟨fs, umask, .cpFile s d :: stack, none⟩ stack (.cpFile s d)
      .result = some (⟨fs, umask, .openDst s d k (fs.inodes k).attrs.mode :: stack, none⟩, []) := by
    have hread : (harsh os).openRead fs s = some k := by
      rw [Caller.openRead, show (harsh os).resolve fs true s = .found p from hp]
      simp only [hk, Caller.may, harsh, Caller.unbound, Bool.true_or, if_true]
    rw [stepFrame]
    simp only [hread]
    rfl
  have hwrite : stepFrame (harsh os)
      ⟨fs, umask, .openDst s d k (fs.inodes k).attrs.mode :: stack, none⟩ stack
      (.openDst s d k (fs.inodes k).attrs.mode) .result =
      some (⟨fs.setInode i fun f => { f with content := [] }, umask,
        .copying s d k (some i) 0 (fs.inodes k).attrs.mode :: stack, none⟩, []) := by
    have hempty : (harsh os).openWrite fs d (fs.inodes k).attrs.mode =
        some (fs.setInode i fun f => { f with content := [] }, some i) := by
      rw [Caller.openWrite, show (harsh os).resolve fs true d = .found q from hq]
      simp only [hi, Caller.may, harsh, Caller.unbound, Bool.true_or, if_true]
    rw [stepFrame]
    simp only [hempty]
    rfl
  simp only [Machine.runFrom, machine_step, ne_eq, reduceCtorEq, not_false_eq_true, hopen, hwrite,
    Option.bind_some, Option.map_some, List.append_nil]

/-- **A danger from the beginning.** Where a pair of paths is one, some run destroys a file. -/
theorem exists_run_destroys (cmd : List UInt8) (umask : Mode) (h : ¬ SparedAt os fs src dst fs) :
    ∃ as st es, (machine (harsh os) fs umask [cmd, src, dst]).run as = some (st, es) ∧
      st.status = some 1 ∧ ¬ Intact os.toCaller fs src st.fs := by
  simp only [SparedAt, not_forall] at h
  obtain ⟨s, d, k, i, hpair, hk, hi, hsource, hdanger⟩ := h
  obtain ⟨p, hp, hkp⟩ := id hk
  obtain ⟨as, stack, es, hrun⟩ := exists_run_of_comes cmd umask hpair
    (Caller.stat_of_file hp hkp) (Or.inr ⟨k, rfl⟩)
  obtain ⟨mode, hopen⟩ := run_cpFile [cmd, src, dst] umask hk hi stack
  have hrun' := Machine.runFrom_append_eq_some.mpr ⟨_, hrun, _, hopen, rfl⟩
  by_cases hcontent : (fs.inodes i).content = []
  · -- the file is empty, but what is copied is not: one byte is written
    obtain ⟨b, rest, hb⟩ := List.exists_cons_of_ne_nil fun hnil => hdanger ⟨hcontent, hnil⟩
    have hne : k ≠ i := by
      rintro rfl
      rw [hcontent] at hb
      cases hb
    have hb' : ((fs.setInode i fun f => { f with content := [] }).inodes k).content =
        b :: rest := by
      rw [Fs.inodes_setInode_of_ne fs hne, hb]
    refine ⟨_, _, _, Machine.runFrom_append_eq_some.mpr ⟨_, hrun', _,
      run_block_fault [cmd, src, dst] umask s d i mode stack hb', rfl⟩, rfl, fun hintact => ?_⟩
    have hwritten := hintact i hsource
    rw [(append_files _ _ _).2 i, Fs.inodes_setInode_self, if_pos rfl, hcontent] at hwritten
    cases hwritten
  · refine ⟨_, _, _, Machine.runFrom_append_eq_some.mpr
      ⟨_, hrun', _, run_fault [cmd, src, dst] umask s d k i 0 mode stack _, rfl⟩, rfl,
      fun hintact => ?_⟩
    have hempty := hintact i hsource
    rw [Fs.inodes_setInode_self] at hempty
    exact hcontent hempty.symm

/-- **When the source is intact.** If no copy that can be made touches the source, every regular
file of the source tree is as it was in every state of every run of `cpdr`, and so also when it has
returned or exited. And if that is so whoever runs it and whatever fails, no pair of paths is a
danger in the file system it begins with. -/
theorem source_intact (os : Os) (fs : Fs) (src dst : List UInt8) :
    (Spared os fs src dst → ∀ umask cmd as st es,
      (machine os fs umask [cmd, src, dst]).run as = some (st, es) →
        Intact os.toCaller fs src st.fs) ∧
    ((∀ privileged faults umask cmd as st es,
      (machine ⟨{ os.toCaller with privileged }, faults⟩ fs umask [cmd, src, dst]).run as =
        some (st, es) → st.status.isSome → Intact os.toCaller fs src st.fs) →
      SparedAt os fs src dst fs) := by
  constructor
  · intro hspared umask cmd as st es hrun
    exact (arises_of_run hrun).intact hspared
  · intro hall
    by_contra hdanger
    obtain ⟨as, st, es, hrun, hstatus, hdestroyed⟩ := exists_run_destroys (ascii "cpdr") 0 hdanger
    exact hdestroyed (hall true true 0 (ascii "cpdr") as st es hrun (by rw [hstatus]; rfl))

end Runs

/-! ### A file, another one and itself -/

/-- An unprivileged user in `/`, on a system without faults. -/
def userOs : Os := ⟨⟨false, [], some 4096⟩, false⟩

/-- The file `/f`, which contains `x`. -/
def oneFile : Fs :=
  ((Fs.root ⟨0o755, .owner⟩).addFile [] ⟨ascii "f", isName_f⟩ ⟨0o644, .owner⟩).setInode 0
    fun f => { f with content := ascii "x" }

theorem isSourceFile_oneFile : IsSourceFile userOs.toCaller oneFile (ascii "f") 0 :=
  ⟨[], [⟨ascii "f", by decide⟩], by decide, by decide⟩

theorem comes_of_file {os : Os} {fs : Fs} {src dst s d : List UInt8} {k : ℕ}
    (hfile : NamesFile os fs src k) (h : Comes os fs src dst s d) : s = src ∧ d = dst := by
  induction h with
  | top => exact ⟨rfl, rfl⟩
  | @entry s d p q n x _ hsrc hentry _ ih =>
    obtain ⟨rfl, -⟩ := ih
    obtain ⟨p', hp', hk⟩ := hfile
    obtain rfl := Target.found.inj (hp'.symm.trans hsrc)
    obtain ⟨a, ha⟩ := Fs.isDir_iff.mp (Fs.isDir_parent hentry)
    cases hk.symm.trans ha

theorem noSymlinks_oneFile : oneFile.NoSymlinks := by
  intro p target h
  have hnodes : oneFile.nodes = [([], .dir ⟨0o755, .owner⟩),
      ([⟨ascii "f", isName_f⟩], .file 0)] := rfl
  rw [Fs.node, hnodes, BoundedMap.find, BoundedMap.find, BoundedMap.find] at h
  split at h
  · cases h
  · split at h <;> cases h

theorem isName_g : IsName (ascii "g") := by decide

theorem spared_newFile : Spared userOs oneFile (ascii "f") (ascii "g") := by
  intro fs' harises s d k i hpair hk ⟨q, hq, hi⟩ hsource
  exfalso
  have hf : NamesFile userOs oneFile (ascii "f") 0 :=
    ⟨[⟨ascii "f", isName_f⟩], by decide, by decide⟩
  obtain ⟨-, rfl⟩ := comes_of_file (hf.of_grows harises.grows) hpair
  have hplace : q = [⟨ascii "g", isName_g⟩] := by
    have hsym := harises.grows.noSymlinks noSymlinks_oneFile
    rw [Caller.resolve, if_neg (by decide)] at hq
    have hwalk := @walkNames_name fs' (userOs.unbound.may fs' .search) [] ⟨ascii "g", isName_g⟩
      (hsym _) true (walk fs' (userOs.unbound.may fs' .search) true 39)
    exact place_walkName (congrArg Target.place (hwalk.symm.trans hq))
  subst hplace
  have hnone : oneFile.node [⟨ascii "g", isName_g⟩] = none := by decide
  have hsome := harises.node_of_lt.2 _ i hi hsource.lt_next
  rw [hnone] at hsome
  cases hsome

/-- `cpdr f g` copies `f` and leaves it as it was. -/
theorem newFile_intact : ∃ st es,
    (machine userOs oneFile 0o022 [ascii "cpdr", ascii "f", ascii "g"]).run
        [.result, .result, .result, .block 1 1, .result, .result, .result] = some (st, es) ∧
      st.status = some 0 ∧ (st.fs.inodes 1).content = ascii "x" ∧
      (st.fs.inodes 0).content = ascii "x" := by
  have hrun : ((machine userOs oneFile 0o022 [ascii "cpdr", ascii "f", ascii "g"]).run
      [.result, .result, .result, .block 1 1, .result, .result, .result]).map
      (fun r => (r.1.status, (r.1.fs.inodes 1).content)) = some (some 0, ascii "x") := by decide
  obtain ⟨⟨st, es⟩, hrun, heq⟩ := Option.map_eq_some_iff.mp hrun
  obtain ⟨hstatus, hcopied⟩ := Prod.mk.inj heq
  have hintact := (source_intact userOs oneFile (ascii "f") (ascii "g")).1 spared_newFile 0o022
    (ascii "cpdr") _ st es hrun 0 isSourceFile_oneFile
  exact ⟨st, es, hrun, hstatus, hcopied, hintact⟩

/-- `cpdr f f` returns, and `f` is empty. -/
theorem source_destroyed :
    ¬ ∀ (os : Os) (fs : Fs) (umask : Mode) (cmd src dst : List UInt8) (as : List Answer) (s : State)
      (es : List Event), (machine os fs umask [cmd, src, dst]).run as = some (s, es) →
      s.status.isSome → Intact os.toCaller fs src s.fs := by
  intro hall
  have hrun : ((machine userOs oneFile 0o022 [ascii "cpdr", ascii "f", ascii "f"]).run
      [.result, .result, .result, .result, .result, .result]).map
      (fun r => (r.1.status, (r.1.fs.inodes 0).content)) = some (some 0, []) := by decide
  obtain ⟨⟨s, es⟩, hrun, heq⟩ := Option.map_eq_some_iff.mp hrun
  obtain ⟨hstatus, hempty⟩ := Prod.mk.inj heq
  have hintact := hall userOs oneFile 0o022 (ascii "cpdr") (ascii "f") (ascii "f") _ s es hrun
    (by rw [hstatus]; rfl) 0 isSourceFile_oneFile
  rw [hempty] at hintact
  exact absurd hintact (by decide)

end Cpdr

end SystemProgramming
