import SystemProgramming.Cpdr.Intact
import SystemProgramming.Cpdr.Rules

/-!
# What `cpdr` copies

`cp_dir` makes the destination directory with the permission bits of the source, less those in the
mask, before it fills it, and sets the bits again at the end. A directory whose owner may not write
to it or search it, such as one with mode `r-xr-xr-x`, cannot be filled: the first entry fails.

## How it goes

The induction is on the depth of the source tree. A directory is copied entry by entry, in the order
of its listing, which is arbitrary: `Filling` says what has been copied, and that nothing else has
changed at the destination. The mask matters in one place. A directory is made with the bits of its
source less the mask, and until `chmod` sets them at the end, its owner has to get along with what
is left of them.

## What a copy is

`Copied` compares two trees place by place: the same kind of node, the same permission bits, and for
regular files the same contents. Hard links in the source become different files in the copy, and
symbolic links are followed; with the second a copy need not exist level by level, so the jobs of
the main result have none in their source (`Job.readable`).

## What is carried along

Between two entries of a directory `Filling` says three things: the entries that are done are
copied, those that are not done are not there, and nothing outside of the destination has changed.
The last one is what makes the next entry a job again, for a job is about paths that lead to places,
and both are found as before (`Job.entry`). In the other direction, a directory that is closed
to its owner makes the program fail at the first entry of its listing, whichever that is.

## Main definitions

* `Copied` — a tree that is a copy of another
* `Job` — a source that can be read, and a place for the copy
* `Fillable` — no directory of the source is closed to its owner and not empty
* `Filling` — a directory while its entries are copied

## Main results

* `copies_file`, `copies_dir` — `cp_file` and `cp_dir`
* `copies_iff` — `cpdr` copies the source exactly when it is fillable
* `readOnlyDir_not_copied` — a directory that nobody may write to
-/

namespace SystemProgramming

namespace Cpdr

/-! ### Copies -/

/-- The same kind of file, with the same permission bits and contents. -/
def SameNode (fs fs' : Fs) : Option Node → Option Node → Prop
  | none, none => True
  | some (.dir a), some (.dir b) => b.mode = a.mode
  | some (.file i), some (.file j) =>
    (fs'.inodes j).attrs.mode = (fs.inodes i).attrs.mode ∧
      (fs'.inodes j).content = (fs.inodes i).content
  | _, _ => False

/-- The tree at `t` has the entries of the tree at `s`, level by level, with the same permission
bits and contents. -/
def Copied (fs : Fs) (s : Place) (fs' : Fs) (t : Place) : Prop :=
  ∀ r, SameNode fs fs' (fs.node (s ++ r)) (fs'.node (t ++ r))

/-- Nothing has changed but at `t` and below. -/
structure Outside (t : Place) (fs fs' : Fs) : Prop where
  node : ∀ p, ¬ t <+: p → fs'.node p = fs.node p
  inodes : ∀ i < fs.next, fs'.inodes i = fs.inodes i
  next : fs.next ≤ fs'.next

theorem SameNode.congr {fs₁ fs₂ fs₁' fs₂' : Fs} {x y : Option Node} (h : SameNode fs₁ fs₁' x y)
    (hx : ∀ i, x = some (.file i) → fs₂.inodes i = fs₁.inodes i)
    (hy : ∀ j, y = some (.file j) → fs₂'.inodes j = fs₁'.inodes j) : SameNode fs₂ fs₂' x y := by
  rcases x with _ | _ | i | _ | _ <;> rcases y with _ | _ | j | _ | _ <;> try exact h
  rw [SameNode, hx i rfl, hy j rfl]
  exact h

/-- The copy of a source that is still there. -/
theorem Copied.of_src {fs fs₁ fs' : Fs} {s t : Place} (h : Copied fs₁ s fs' t)
    (hnode : ∀ r, fs₁.node (s ++ r) = fs.node (s ++ r))
    (hinodes : ∀ i < fs.next, fs₁.inodes i = fs.inodes i) : Copied fs s fs' t := by
  intro r
  rw [← hnode r]
  refine (h r).congr (fun i hi => ?_) fun _ _ => rfl
  rw [hnode r] at hi
  exact (hinodes i (fs.lt_next _ i hi)).symm

theorem Copied.of_dst {fs fs₁ fs₂ : Fs} {s t : Place} (h : Copied fs s fs₁ t)
    (hnode : ∀ r, fs₂.node (t ++ r) = fs₁.node (t ++ r))
    (hinodes : ∀ i < fs₁.next, fs₂.inodes i = fs₁.inodes i) : Copied fs s fs₂ t := by
  intro r
  rw [hnode r]
  exact (h r).congr (fun _ _ => rfl) fun j hj => hinodes j (fs₁.lt_next _ j hj)

namespace Outside

variable {t : Place} {fs fs' fs'' : Fs}

theorem refl (t : Place) (fs : Fs) : Outside t fs fs := ⟨fun _ _ => rfl, fun _ _ => rfl, le_rfl⟩

theorem trans (h : Outside t fs fs') (h' : Outside t fs' fs'') : Outside t fs fs'' where
  node p hp := (h'.node p hp).trans (h.node p hp)
  inodes i hi := (h'.inodes i (hi.trans_le h.next)).trans (h.inodes i hi)
  next := h.next.trans h'.next

/-- What is below something below `t` is below `t`. -/
theorem mono {u : Place} (h : Outside u fs fs') (htu : t <+: u) : Outside t fs fs' :=
  ⟨fun p hp => h.node p fun hu => hp (htu.trans hu), h.inodes, h.next⟩

theorem of_update {x : Option Node} (hnode : fs'.node = Function.update fs.node t x)
    (hinodes : ∀ i < fs.next, fs'.inodes i = fs.inodes i) (hnext : fs.next ≤ fs'.next) :
    Outside t fs fs' := by
  refine ⟨fun p hp => ?_, hinodes, hnext⟩
  rw [hnode, Function.update_of_ne]
  rintro rfl
  exact hp (List.prefix_refl _)

theorem of_addDir {q : Place} {n : Name} (h : fs.Free q n) (a : Attrs) :
    Outside (q ++ [n]) fs (fs.addDir q n a) :=
  of_update (Fs.node_addDir h a) (fun i _ => by rw [Fs.inodes_addDir]) (Fs.next_addDir _ _ _ _).ge

end Outside

/-! ### Jobs -/

/-- The path is shorter than `PATH_MAX`. -/
def Short (os : Os) (path : List UInt8) : Prop := ¬ os.pathMax.any (· ≤ path.length) = true

instance (os : Os) (path : List UInt8) : Decidable (Short os path) :=
  inferInstanceAs (Decidable (¬ _))

/-- A source that the user can read and traverse, made of directories and regular files; and a
destination that does not exist and does not lie in the source, in a directory that the user may
write to. -/
structure Job (os : Os) (fs : Fs) (src dst : List UInt8) (s q : Place) (n : Name) (d : Bool) :
    Prop where
  found : os.resolve fs true src = .found s
  readable : ∀ r x, fs.node (s ++ r) = some x → os.may fs .read (s ++ r) = true ∧
    (x.isDir = true ∧ os.may fs .search (s ++ r) = true ∨ ∃ i, x = .file i)
  missing : os.resolve fs false dst = .missing q n d
  writable : os.may fs .write q = true
  apart : ¬ s <+: q ++ [n]
  short : ∀ r x, fs.node (s ++ r) = some x →
    Short os (src ++ slashed (r.map Subtype.val)) ∧ Short os (dst ++ slashed (r.map Subtype.val))

/-- The owner may fill a directory that has been made with these permission bits. -/
def Enterable (um mode : Mode) : Prop :=
  (⟨mode &&& ~~~um, .owner⟩ : Attrs).allows .write = true ∧
    (⟨mode &&& ~~~um, .owner⟩ : Attrs).allows .search = true

instance (um mode : Mode) : Decidable (Enterable um mode) := inferInstanceAs (Decidable (_ ∧ _))

/-- Every directory of the source that is not empty gives its owner write and search permission,
under the mask. -/
def Fillable (fs : Fs) (um : Mode) (s : Place) : Prop :=
  ∀ r m a x, fs.node (s ++ r) = some (.dir a) → fs.node (s ++ r ++ [m]) = some x →
    Enterable um a.mode

namespace Job

variable {os : Os} {fs fs' : Fs} {src dst : List UInt8} {s q : Place} {n : Name} {d : Bool}

theorem free (job : Job os fs src dst s q n d) : fs.Free q n := by
  have hsound := os.resolve_sound fs false dst
  rw [job.missing] at hsound
  exact hsound

theorem exists_src (job : Job os fs src dst s q n d) : ∃ x, fs.node s = some x := by
  have hsound := os.resolve_sound fs true src
  rw [job.found] at hsound
  exact hsound

/-- The source is not below the destination. -/
theorem not_below (job : Job os fs src dst s q n d) (r : Place) : ¬ q ++ [n] <+: s ++ r := by
  intro hpre
  rcases List.prefix_or_prefix_of_prefix hpre (List.prefix_append s r) with hts | hst
  · obtain ⟨x, hx⟩ := job.exists_src
    obtain ⟨y, hy⟩ := Fs.exists_of_prefix hts hx
    exact absurd (job.free.2.symm.trans hy) nofun
  · exact job.apart hst

theorem node_src (job : Job os fs src dst s q n d) (h : Outside (q ++ [n]) fs fs') (r : Place) :
    fs'.node (s ++ r) = fs.node (s ++ r) := h.node _ (job.not_below r)

theorem keeps (job : Job os fs src dst s q n d) (h : Outside (q ++ [n]) fs fs') :
    Keeps (os.may fs .search) (os.may fs' .search) fs fs' := by
  have hnode : ∀ p x, fs.node p = some x → fs'.node p = fs.node p := by
    intro p x hx
    refine h.node p fun hpre => ?_
    obtain ⟨y, hy⟩ := Fs.exists_of_prefix hpre hx
    exact absurd (job.free.2.symm.trans hy) nofun
  refine ⟨fun p x hx => ⟨x, (hnode p x hx).trans hx, rfl⟩, fun p hp hmay => ?_⟩
  obtain ⟨a, ha⟩ := Fs.isDir_iff.mp hp
  rw [Caller.may_congr (hnode p _ ha) h.inodes]
  exact hmay

theorem resolve_src (job : Job os fs src dst s q n d) (h : Outside (q ++ [n]) fs fs') :
    os.resolve fs' true src = .found s := by
  have hkept := Caller.resolve_keeps (job.keeps h) true src
  rw [job.found] at hkept
  exact hkept

theorem resolve_dst (job : Job os fs src dst s q n d) (h : Outside (q ++ [n]) fs fs')
    (follow : Bool) {x : Node} (hx : fs'.node (q ++ [n]) = some x)
    (hlink : ∀ target, x ≠ .symlink target) (hd : d = true → x.isDir = true) :
    os.resolve fs' follow dst = .found (q ++ [n]) := by
  have hkept := Caller.resolve_keeps (job.keeps h) follow dst
  have hmissing : os.resolve fs follow dst = .missing q n d := by
    rcases follow
    · exact job.missing
    · exact Caller.resolve_of_missing job.missing
  rw [hmissing] at hkept
  exact hkept.2 x hx hlink hd

theorem may_src (job : Job os fs src dst s q n d) (h : Outside (q ++ [n]) fs fs') (r : Place)
    (access : Access) : os.may fs' access (s ++ r) = os.may fs access (s ++ r) :=
  Caller.may_congr (job.node_src h r) h.inodes access

end Job

/-! ### Files -/

/-- There is a new file at `t`, and nothing else has changed. -/
structure NewFile (fs : Fs) (t : Place) (file : Inode) (fs' : Fs) : Prop where
  node : fs'.node = Function.update fs.node t (some (.file fs.next))
  inodes : fs'.inodes = Function.update fs.inodes fs.next file
  next : fs'.next = fs.next + 1

namespace NewFile

variable {fs fs' : Fs} {s t : Place} {file : Inode}

theorem of_addFile {q : Place} {n : Name} (h : fs.Free q n) (a : Attrs) :
    NewFile fs (q ++ [n]) ⟨a, []⟩ (fs.addFile q n a) :=
  ⟨Fs.node_addFile h a, Fs.inodes_addFile h a, Fs.next_addFile h a⟩

theorem node_self (h : NewFile fs t file fs') : fs'.node t = some (.file fs.next) := by
  rw [h.node, Function.update_self]

theorem inode_self (h : NewFile fs t file fs') : fs'.inodes fs.next = file := by
  rw [h.inodes, Function.update_self]

theorem inode_old (h : NewFile fs t file fs') {i : ℕ} (hi : i < fs.next) :
    fs'.inodes i = fs.inodes i := by
  rw [h.inodes, Function.update_of_ne hi.ne]

theorem setInode (h : NewFile fs t file fs') (f : Inode → Inode) :
    NewFile fs t (f file) (fs'.setInode fs.next f) where
  node := h.node
  inodes := by
    show Function.update fs'.inodes fs.next (f (fs'.inodes fs.next)) = _
    rw [h.inode_self, h.inodes, Function.update_idem]
  next := h.next

theorem outside (h : NewFile fs t file fs') : Outside t fs fs' :=
  .of_update h.node (fun _ hi => h.inode_old hi) (h.next.symm ▸ Nat.le_succ _)

theorem copied (h : NewFile fs t file fs') (ht : fs.node t = none) {i : ℕ}
    (hi : fs.node s = some (.file i)) (hmode : file.attrs.mode = (fs.inodes i).attrs.mode)
    (hcontent : file.content = (fs.inodes i).content) : Copied fs s fs' t := by
  intro r
  rcases r with _ | ⟨m, r⟩
  · rw [List.append_nil, List.append_nil, hi, h.node_self]
    show (fs'.inodes fs.next).attrs.mode = _ ∧ (fs'.inodes fs.next).content = _
    rw [h.inode_self]
    exact ⟨hmode, hcontent⟩
  · have hsrc : fs.node (s ++ m :: r) = none := by
      rcases hx : fs.node (s ++ m :: r) with _ | x
      · rfl
      · obtain ⟨a, ha⟩ := Fs.isDir_iff.mp (Fs.isDir_of_append hx)
        exact absurd (hi.symm.trans ha) (by simp)
    have hdst : fs'.node (t ++ m :: r) = none := by
      rw [h.node, Function.update_of_ne (by simp), Fs.node_below ht]
    rw [hsrc, hdst]
    trivial

end NewFile

section Rules

variable {os : Os} {fs₀ fs : Fs} {um₀ um : Mode} {argv : List (List UInt8)} {P : State → Prop}
  {k : List Frame} {src dst : List UInt8} {s q : Place} {n : Name} {d : Bool}

/-- **`cp_file`** makes a file with the contents and the permission bits of the source. -/
theorem ensures_copyFile (hfaults : os.faults = false) (job : Job os fs src dst s q n false)
    {i : ℕ} (hi : fs.node s = some (.file i))
    (hk : ∀ fs', Copied fs s fs' (q ++ [n]) → Outside (q ++ [n]) fs fs' →
      (machine os fs₀ um₀ argv).Ensures P ⟨fs', um, k, none⟩) :
    (machine os fs₀ um₀ argv).Ensures P ⟨fs, um, .cpFile src dst :: k, none⟩ := by
  have hnofault : ¬ os.faults = true := by simp [hfaults]
  have hmay : os.may fs .read s = true := by
    have hread := (job.readable [] (.file i) (by rw [List.append_nil, hi])).1
    rwa [List.append_nil] at hread
  have hopenRead : os.openRead fs src = some i := by
    rw [Caller.openRead, job.found]
    simp only [hi, hmay, if_true]
  have hopenWrite : ∀ mode, os.openWrite fs dst mode =
      some (fs.addFile q n ⟨mode, .owner⟩, some fs.next) := by
    intro mode
    rw [Caller.openWrite, Caller.resolve_of_missing job.missing]
    simp only [job.writable, if_true]
  have hlt := fs.lt_next s i hi
  refine ensures_cpFile_of_openRead hfaults hopenRead ?_
  generalize hfile : fs.inodes i = file
  refine ensures_openDst_of_openWrite hfaults (hopenWrite _) ?_
  -- what has been read is in the new file
  refine ensures_copying file.content
    (I := fun fs' pos =>
      NewFile fs (q ++ [n]) ⟨⟨file.attrs.mode, .owner⟩, file.content.take pos⟩ fs')
    (fun fs' pos h => ?_) (fun fs' pos m h _ _ => ?_) (fun hfault => absurd hfault hnofault)
    (fun fs' pos h hend => ?_) (NewFile.of_addFile job.free _)
  · rw [h.inode_old hlt, hfile]
  · have happend := h.setInode fun f =>
      { f with content := f.content ++ (file.content.drop pos).take m }
    rwa [← List.take_add] at happend
  · have hnode := h.node_self
    have hfound := job.resolve_dst h.outside true hnode (by simp) (by simp)
    have hattrs : fs'.attrs (q ++ [n]) = some ⟨file.attrs.mode, .owner⟩ := by
      rw [Fs.attrs, hnode]
      show some (fs'.inodes fs.next).attrs = _
      rw [h.inode_self]
    refine ensures_leaveFile ?_ fun hfault => absurd hfault hnofault
    rw [Caller.chmod_of_owner hfound hattrs rfl, Fs.setMode_of_file hnode]
    have hleft := h.setInode fun f => { f with attrs := { f.attrs with mode := file.attrs.mode } }
    refine hk _ (hleft.copied job.free.2 hi ?_ ?_) hleft.outside
    · rw [hfile]
    · rw [hfile]
      exact List.take_of_length_le hend

/-- The destination of a file cannot be made. -/
theorem ensures_cpFile_denied (hdst : ∀ mode, os.openWrite fs dst mode = none)
    (hP : ∀ fs' um', P ⟨fs', um', [], some 1⟩) :
    (machine os fs₀ um₀ argv).Ensures P ⟨fs, um, .cpFile src dst :: k, none⟩ := by
  refine ensures_cpFile (fun _ => hP _ _) fun inFd _ => ?_
  refine ensures_openDst (fun _ => hP _ _) fun fs' outFd hopen => ?_
  exact absurd ((hdst _).symm.trans hopen) nofun

/-- The destination of a directory cannot be made. -/
theorem ensures_cpDir_denied (hdst : ∀ mode, os.mkdir fs dst mode = .failed)
    (hP : ∀ fs' um', P ⟨fs', um', [], some 1⟩) :
    (machine os fs₀ um₀ argv).Ensures P ⟨fs, um, .cpDir src dst :: k, none⟩ := by
  refine ensures_cpDir (fun _ => hP _ _) fun kind mode _ => ?_
  refine ensures_makeDst (fun _ => hP _ _) (fun fs' hmade => ?_) fun hexists => ?_
  · exact absurd ((hdst _).symm.trans hmade) nofun
  · exact absurd ((hdst _).symm.trans hexists) nofun

/-! ### Directories -/

theorem join_short {dir name : List UInt8} (h : Short os (dir ++ slash :: name)) :
    join os dir name = dir ++ slash :: name := by
  rw [join]
  split
  · rename_i size hsize
    rw [Short, hsize] at h
    exact snprintf_eq_self (by simpa using h)
  · rfl

/-- The directory `t` is being filled: the entries with these `names` are still to be copied. -/
structure Filling (fs : Fs) (um : Mode) (s t : Place) (mode : Mode) (names : List (List UInt8))
    (fs' : Fs) : Prop where
  outside : Outside t fs fs'
  top : fs'.node t = some (.dir ⟨mode &&& ~~~um, .owner⟩)
  todo : ∀ m : Name, m.1 ∈ names → fs'.node (t ++ [m]) = none
  copied : ∀ m : Name, m.1 ∉ names → Copied fs (s ++ [m]) fs' (t ++ [m])
  filled : ∀ (m : Name) x, m.1 ∉ names → fs.node (s ++ [m]) = some x →
    Enterable um mode ∧ Fillable fs um (s ++ [m])

namespace Filling

variable {fs' fs'' : Fs} {t : Place} {mode : Mode} {name : List UInt8} {m : Name}
  {names : List (List UInt8)}

theorem of_addDir (h : fs.Free q n) (hnames : ∀ (m : Name) x, fs.node (s ++ [m]) = some x →
      m.1 ∈ names) :
    Filling fs um s (q ++ [n]) mode names (fs.addDir q n ⟨mode &&& ~~~um, .owner⟩) := by
  have hnode := Fs.node_addDir h ⟨mode &&& ~~~um, .owner⟩
  have hbelow : ∀ m r, (fs.addDir q n ⟨mode &&& ~~~um, .owner⟩).node (q ++ [n] ++ m :: r) = none :=
    fun m r => by rw [hnode, Function.update_of_ne (by simp), Fs.node_below h.2]
  refine ⟨.of_addDir h _, by rw [hnode, Function.update_self], fun m _ => hbelow m [],
    fun m hm r => ?_, ?_⟩
  · have hnone : fs.node (s ++ [m]) = none := by
      rcases hx : fs.node (s ++ [m]) with _ | x
      · rfl
      · exact absurd (hnames m x hx) hm
    rw [Fs.node_below hnone, List.append_assoc (q ++ [n]), List.singleton_append, hbelow]
    trivial
  · intro m x hm hx
    exact absurd (hnames m x hx) hm

theorem skip (h : Filling fs um s t mode (name :: names) fs') (hname : ¬ IsName name) :
    Filling fs um s t mode names fs' := by
  have hnot : ∀ m : Name, m.1 ∉ names → m.1 ∉ name :: names := by
    intro m hm hmem
    rcases List.mem_cons.mp hmem with rfl | hmem
    · exact hname m.2
    · exact hm hmem
  exact ⟨h.outside, h.top, fun m hm => h.todo m (List.mem_cons_of_mem _ hm),
    fun m hm => h.copied m (hnot m hm), fun m x hm => h.filled m x (hnot m hm)⟩

theorem entry (h : Filling fs um s t mode (m.1 :: names) fs') (hm : m.1 ∉ names)
    (hcopied : Copied fs (s ++ [m]) fs'' (t ++ [m])) (hout : Outside (t ++ [m]) fs' fs'')
    (henter : Enterable um mode) (hfill : Fillable fs um (s ++ [m])) :
    Filling fs um s t mode names fs'' := by
  have hne : ∀ m' : Name, m' ≠ m → ∀ r, ¬ t ++ [m] <+: t ++ [m'] ++ r := by
    intro m' hm' r hpre
    rw [List.append_assoc, List.prefix_append_right_inj, List.singleton_append,
      List.cons_prefix_cons] at hpre
    exact hm' hpre.1.symm
  have hnot : ∀ m' : Name, m' ≠ m → m'.1 ∉ names → m'.1 ∉ m.1 :: names := by
    intro m' hm' hmem hcons
    rcases List.mem_cons.mp hcons with heq | hcons
    · exact hm' (Subtype.ext heq)
    · exact hmem hcons
  refine ⟨h.outside.trans (hout.mono (List.prefix_append t [m])), ?_, fun m' hm' => ?_,
    fun m' hm' => ?_, fun m' x hm' hx => ?_⟩
  · rw [hout.node t, h.top]
    exact fun hpre => absurd hpre.length_le (by simp)
  · have hother : m' ≠ m := by
      rintro rfl
      exact hm hm'
    have hnode := hout.node _ (hne m' hother [])
    rw [List.append_nil] at hnode
    rw [hnode, h.todo m' (List.mem_cons_of_mem _ hm')]
  · by_cases hother : m' = m
    · exact hother ▸ hcopied
    · exact (h.copied m' (hnot m' hother hm')).of_dst (fun r => hout.node _ (hne m' hother r))
        hout.inodes
  · by_cases hother : m' = m
    · exact hother ▸ ⟨henter, hfill⟩
    · exact h.filled m' x (hnot m' hother hm') hx

end Filling

/-! ### One entry -/

namespace Job

variable {fs' : Fs} {mode : Mode} {m : Name} {x : Node} {names : List (List UInt8)}

/-- A directory of the source may be searched. -/
theorem search_src (job : Job os fs src dst s q n d) (hdir : fs.isDir s = true) :
    os.may fs .search s = true := by
  obtain ⟨a, ha⟩ := Fs.isDir_iff.mp hdir
  rcases (job.readable [] (.dir a) (by rwa [List.append_nil])).2 with ⟨-, hmay⟩ | ⟨i, hi⟩
  · rwa [List.append_nil] at hmay
  · cases hi

theorem isDir_src (job : Job os fs src dst s q n d) (h : Outside (q ++ [n]) fs fs')
    (hdir : fs.isDir s = true) : fs'.isDir s = true := by
  have hnode := job.node_src h []
  rw [List.append_nil] at hnode
  rwa [Fs.isDir, hnode]

theorem not_symlink (job : Job os fs src dst s q n d) (r : Place) (target : List UInt8) :
    fs.node (s ++ r) ≠ some (.symlink target) := by
  intro hx
  rcases (job.readable r _ hx).2 with ⟨hdir, -⟩ | ⟨i, hi⟩
  · cases hdir
  · cases hi

theorem short_entry (job : Job os fs src dst s q n d) (hx : fs.node (s ++ [m]) = some x) :
    Short os (src ++ slash :: m.1) ∧ Short os (dst ++ slash :: m.1) := by
  have hshort := job.short [m] x hx
  rwa [List.map_cons, List.map_nil, slashed_cons, slashed_nil, List.append_nil] at hshort

theorem resolve_srcPath (job : Job os fs src dst s q n d) (h : Outside (q ++ [n]) fs fs')
    (hx : fs.node (s ++ [m]) = some x) :
    os.resolve fs' true (join os src m.1) = .found (s ++ [m]) := by
  have hdir := Fs.isDir_parent hx
  have hnode := job.node_src h [m]
  have hshort := (job.short_entry hx).1
  have hmay := job.may_src h [] .search
  rw [List.append_nil, job.search_src hdir] at hmay
  rw [join_short hshort, Caller.resolve_child (job.resolve_src h)
    (fun target => by rw [hnode]; exact job.not_symlink [m] target) true hshort, walkName,
    job.isDir_src h hdir, hmay, hnode, hx]
  rfl

/-- Where its copy will be, if the directory that was made can be searched. -/
theorem resolve_dstPath (job : Job os fs src dst s q n d)
    (h : Filling fs um s (q ++ [n]) mode (m.1 :: names) fs') (hx : fs.node (s ++ [m]) = some x)
    (follow : Bool) : os.resolve fs' follow (join os dst m.1) =
      if os.may fs' .search (q ++ [n]) then .missing (q ++ [n]) m false else .failed := by
  have hnone := h.todo m List.mem_cons_self
  have hshort := (job.short_entry hx).2
  have hfound := job.resolve_dst h.outside true h.top nofun fun _ => rfl
  rw [join_short hshort, Caller.resolve_child hfound
    (fun target => by rw [hnone]; nofun) follow hshort, walkName,
    Fs.isDir_iff.mpr ⟨_, h.top⟩, hnone, Bool.true_and]

theorem may_dst (hpriv : os.privileged = false) {t : Place}
    (h : Filling fs um s t mode names fs') (access : Access) :
    os.may fs' access t = (⟨mode &&& ~~~um, .owner⟩ : Attrs).allows access := by
  rw [Caller.may, hpriv, Fs.attrs, h.top]
  rfl

/-- **The job of an entry.** -/
theorem entry (hpriv : os.privileged = false) (job : Job os fs src dst s q n d)
    (h : Filling fs um s (q ++ [n]) mode (m.1 :: names) fs') (hx : fs.node (s ++ [m]) = some x)
    (henter : Enterable um mode) :
    Job os fs' (join os src m.1) (join os dst m.1) (s ++ [m]) (q ++ [n]) m false := by
  have hsrcPath : join os src m.1 = src ++ slashed [m.1] := by
    rw [join_short (job.short_entry hx).1, slashed_cons, slashed_nil, List.append_nil]
  have hdstPath : join os dst m.1 = dst ++ slashed [m.1] := by
    rw [join_short (job.short_entry hx).2, slashed_cons, slashed_nil, List.append_nil]
  have hold : ∀ r y, fs'.node (s ++ [m] ++ r) = some y → fs.node (s ++ m :: r) = some y := by
    intro r y hy
    rwa [List.append_assoc, List.singleton_append, job.node_src h.outside] at hy
  refine ⟨job.resolve_srcPath h.outside hx, fun r y hy => ?_, ?_, ?_, fun hpre => ?_,
    fun r y hy => ?_⟩
  · rw [List.append_assoc, List.singleton_append, job.may_src h.outside, job.may_src h.outside]
    exact job.readable (m :: r) y (hold r y hy)
  · rw [job.resolve_dstPath h hx, may_dst hpriv h, if_pos henter.2]
  · rw [may_dst hpriv h, henter.1]
  · rcases List.prefix_concat_iff.mp hpre with heq | hpre
    · exact job.apart ((List.append_inj_left' heq rfl) ▸ List.prefix_refl s)
    · exact job.apart ((List.prefix_append s [m]).trans hpre)
  · have hshort := job.short (m :: r) y (hold r y hy)
    rw [hsrcPath, hdstPath, List.append_assoc, List.append_assoc, ← slashed_append]
    exact hshort

/-- What cannot be entered refuses every entry. -/
theorem denied (hpriv : os.privileged = false) (job : Job os fs src dst s q n d)
    (h : Filling fs um s (q ++ [n]) mode (m.1 :: names) fs') (hx : fs.node (s ++ [m]) = some x)
    (hno : ¬ Enterable um mode) : (∀ mode', os.mkdir fs' (join os dst m.1) mode' = .failed) ∧
      ∀ mode', os.openWrite fs' (join os dst m.1) mode' = none := by
  rw [Enterable, ← may_dst hpriv h, ← may_dst hpriv h] at hno
  constructor
  · intro mode'
    rw [Caller.mkdir, job.resolve_dstPath h hx]
    by_cases hsearch : os.may fs' .search (q ++ [n]) = true
    · rw [if_pos hsearch]
      exact if_neg fun hwrite => hno ⟨hwrite, hsearch⟩
    · rw [if_neg hsearch]
  · intro mode'
    rw [Caller.openWrite, job.resolve_dstPath h hx]
    by_cases hsearch : os.may fs' .search (q ++ [n]) = true
    · rw [if_pos hsearch]
      exact if_neg fun hwrite => hno ⟨hwrite, hsearch⟩
    · rw [if_neg hsearch]

end Job

/-- Copying what is at `s` to `t` goes well, and then on, if the source is fillable; else the
program exits. -/
def Copies (os : Os) (fs₀ : Fs) (um₀ um : Mode) (argv : List (List UInt8)) (P : State → Prop)
    (fs : Fs) (frame : Frame) (s t : Place) : Prop :=
  ∀ k, (Fillable fs um s → ∀ fs', Copied fs s fs' t → Outside t fs fs' →
      (machine os fs₀ um₀ argv).Ensures P ⟨fs', um, k, none⟩) →
    (¬ Fillable fs um s → ∀ fs' um', P ⟨fs', um', [], some 1⟩) →
    (machine os fs₀ um₀ argv).Ensures P ⟨fs, um, frame :: k, none⟩

theorem fillable_of_file {i : ℕ} (hi : fs.node s = some (.file i)) : Fillable fs um s := by
  intro r m a x ha _
  rcases r with _ | ⟨m', r⟩
  · rw [List.append_nil, hi] at ha
    cases ha
  · obtain ⟨b, hb⟩ := Fs.isDir_iff.mp (Fs.isDir_of_append ha)
    exact absurd (hi.symm.trans hb) (by simp)

theorem copies_file (hfaults : os.faults = false) (job : Job os fs src dst s q n false)
    {i : ℕ} (hi : fs.node s = some (.file i)) :
    Copies os fs₀ um₀ um argv P fs (.cpFile src dst) s (q ++ [n]) :=
  fun _ hgood _ => ensures_copyFile hfaults job hi (hgood (fillable_of_file hi))

/-- What is true of an entry is true of it while others are copied. -/
theorem fillable_congr {fs' : Fs} (h : ∀ r, fs'.node (s ++ r) = fs.node (s ++ r)) :
    Fillable fs' um s ↔ Fillable fs um s := by
  rw [Fillable, Fillable]
  simp only [h, List.append_assoc]

/-- **An entry of a directory.** -/
theorem ensures_entry (hpriv : os.privileged = false) (hfaults : os.faults = false)
    (job : Job os fs src dst s q n d) {mode : Mode} {m : Name} {x : Node}
    {names : List (List UInt8)} {fs' : Fs}
    (h : Filling fs um s (q ++ [n]) mode (m.1 :: names) fs') (hm : m.1 ∉ names)
    (hx : fs.node (s ++ [m]) = some x)
    (hchild : ∀ src dst, Job os fs' src dst (s ++ [m]) (q ++ [n]) m false →
      fs'.isDir (s ++ [m]) = true →
      Copies os fs₀ um₀ um argv P fs' (.cpDir src dst) (s ++ [m]) (q ++ [n] ++ [m]))
    (hgood : ∀ fs'', Filling fs um s (q ++ [n]) mode names fs'' →
      (machine os fs₀ um₀ argv).Ensures P ⟨fs'', um, k, none⟩)
    (hbad : ¬ (Enterable um mode ∧ Fillable fs um (s ++ [m])) →
      ∀ fs' um', P ⟨fs', um', [], some 1⟩) :
    (machine os fs₀ um₀ argv).Ensures P
      ⟨fs', um, .statEntry (join os src m.1) (join os dst m.1) :: k, none⟩ := by
  have hfound := job.resolve_srcPath h.outside hx
  have hnode : ∀ r, fs'.node (s ++ [m] ++ r) = fs.node (s ++ [m] ++ r) := by
    intro r
    rw [List.append_assoc, job.node_src h.outside]
  have hx' : fs'.node (s ++ [m]) = some x := by
    have hsame := hnode []
    rw [List.append_nil] at hsame
    rw [hsame, hx]
  have hfill := @fillable_congr fs um (s ++ [m]) fs' hnode
  have hdone : Enterable um mode → Fillable fs' um (s ++ [m]) → ∀ fs'',
      Copied fs' (s ++ [m]) fs'' (q ++ [n] ++ [m]) → Outside (q ++ [n] ++ [m]) fs' fs'' →
      (machine os fs₀ um₀ argv).Ensures P ⟨fs'', um, k, none⟩ := by
    intro henter hfillable fs'' hcopied hout
    exact hgood fs'' (h.entry hm (hcopied.of_src hnode h.outside.inodes) hout henter
      (hfill.mp hfillable))
  have hbad' : Enterable um mode → ¬ Fillable fs' um (s ++ [m]) →
      ∀ fs' um', P ⟨fs', um', [], some 1⟩ := fun _ hno =>
    hbad fun hboth => hno (hfill.mpr hboth.2)
  refine ensures_statEntry (fun hskip => ?_) (fun mode' hstat => ?_) fun i mode' hstat => ?_
  · rcases hskip with hfault | ⟨hnodir, hnofile⟩
    · simp [hfaults] at hfault
    · rcases (job.readable [m] x hx).2 with ⟨hdir, -⟩ | ⟨i, rfl⟩
      · obtain ⟨a, ha⟩ := Fs.isDir_iff.mp (show fs'.isDir (s ++ [m]) = true by rwa [Fs.isDir, hx'])
        exact absurd (Caller.stat_of_dir hfound ha) (hnodir a.mode)
      · exact absurd (Caller.stat_of_file hfound hx') (hnofile i _)
  all_goals
    obtain ⟨p, y, hp, hy, hkind⟩ := Caller.found_of_stat hstat
    obtain rfl := Target.found.inj (hfound.symm.trans hp)
    obtain rfl := Option.some.inj (hx'.symm.trans hy)
    by_cases henter : Enterable um mode
  · exact hchild _ _ (job.entry hpriv h hx henter)
      (by rw [Fs.isDir, hx']; exact Node.isDir_iff.mpr hkind) k (hdone henter) (hbad' henter)
  · exact ensures_cpDir_denied (job.denied hpriv h hx henter).1 (hbad fun hboth => henter hboth.1)
  · have hi : fs'.node (s ++ [m]) = some (.file i) := by
      rcases x with _ | j | _ | _ <;> cases hkind
      exact hx'
    exact copies_file hfaults (job.entry hpriv h hx henter) hi k (hdone henter) (hbad' henter)
  · exact ensures_cpFile_denied (job.denied hpriv h hx henter).2 (hbad fun hboth => henter hboth.1)

/-! ### Directories, level by level -/

theorem Filling.fillable {fs' : Fs} {t : Place} {a : Attrs}
    (h : Filling fs um s t a.mode [] fs') (ha : fs.node s = some (.dir a)) :
    Fillable fs um s := by
  intro r m b x hb hx
  rcases r with _ | ⟨m', r⟩
  · rw [List.append_nil] at hb hx
    obtain rfl := Node.dir.inj (Option.some.inj (hb.symm.trans ha))
    exact (h.filled m x List.not_mem_nil hx).1
  · obtain ⟨y, hy⟩ := Fs.exists_of_prefix (List.prefix_append (s ++ [m']) r)
      (by rwa [List.append_assoc])
    exact (h.filled m' y List.not_mem_nil hy).2 r m b x
      (by rwa [List.append_assoc]) (by rwa [List.append_assoc s])

/-- **Leaving a directory.** When the entries are there, the permission bits are set. -/
theorem Filling.leave {fs' : Fs} {t : Place} {a : Attrs} (h : Filling fs um s t a.mode [] fs')
    (ha : fs.node s = some (.dir a)) :
    Copied fs s (fs'.setMode t a.mode) t ∧ Outside t fs (fs'.setMode t a.mode) := by
  obtain ⟨hnode, hinodes, hnext⟩ := Fs.setMode_of_dir h.top a.mode
  constructor
  · intro r
    rcases r with _ | ⟨m, r⟩
    · rw [List.append_nil, List.append_nil, ha, hnode, Function.update_self]
      rfl
    · have hsame := h.copied m List.not_mem_nil r
      rw [List.append_assoc, List.append_assoc] at hsame
      rw [hnode, Function.update_of_ne (by simp)]
      exact hsame.congr (fun _ _ => rfl) fun j _ => by rw [hinodes]
  · exact h.outside.trans (.of_update hnode (fun i _ => by rw [hinodes]) hnext.ge)

/-- The loop of `cp_dir`. -/
theorem copies_entries (hpriv : os.privileged = false) (hfaults : os.faults = false)
    (job : Job os fs src dst s q n d) {a : Attrs} (ha : fs.node s = some (.dir a))
    (hchild : ∀ fs' src dst m, Job os fs' src dst (s ++ [m]) (q ++ [n]) m false →
      fs'.isDir (s ++ [m]) = true → Outside (q ++ [n]) fs fs' →
      Copies os fs₀ um₀ um argv P fs' (.cpDir src dst) (s ++ [m]) (q ++ [n] ++ [m]))
    (hgood : Fillable fs um s → ∀ fs', Copied fs s fs' (q ++ [n]) → Outside (q ++ [n]) fs fs' →
      (machine os fs₀ um₀ argv).Ensures P ⟨fs', um, k, none⟩)
    (hbad : ¬ Fillable fs um s → ∀ fs' um', P ⟨fs', um', [], some 1⟩)
    {names : List (List UInt8)} (hnodup : names.Nodup)
    (hnames : ∀ c ∈ names, c = ascii "." ∨ c = ascii ".." ∨
      ∃ m : Name, c = m.1 ∧ ∃ x, fs.node (s ++ [m]) = some x)
    {fs' : Fs} (h : Filling fs um s (q ++ [n]) a.mode names fs') :
    (machine os fs₀ um₀ argv).Ensures P
      ⟨fs', um, .readEntry src dst a.mode names :: k, none⟩ := by
  have hnofault : ¬ os.faults = true := by simp [hfaults]
  induction names generalizing fs' with
  | nil =>
    have hfound := job.resolve_dst h.outside true h.top nofun fun _ => rfl
    have hattrs : fs'.attrs (q ++ [n]) = some ⟨a.mode &&& ~~~um, .owner⟩ := by
      rw [Fs.attrs, h.top]
    obtain ⟨hcopied, hout⟩ := h.leave ha
    refine ensures_readEntry_nil (ensures_leaveDir ?_ fun hfault => absurd hfault hnofault)
    rw [Caller.chmod_of_owner hfound hattrs rfl]
    exact hgood (h.fillable ha) _ hcopied hout
  | cons c names ih =>
    rw [List.nodup_cons] at hnodup
    have hrest : ∀ fs'', Filling fs um s (q ++ [n]) a.mode names fs'' →
        (machine os fs₀ um₀ argv).Ensures P
          ⟨fs'', um, .readEntry src dst a.mode names :: k, none⟩ := fun fs'' h' =>
      ih hnodup.2 (fun c hc => hnames c (List.mem_cons_of_mem _ hc)) h'
    refine ensures_readEntry_cons (fun hfault => absurd hfault hnofault) (fun hdot => ?_)
      fun hname => ?_
    · refine hrest fs' (h.skip fun hisName => ?_)
      rcases hdot with rfl | rfl
      · exact hisName.2.2.2.1 rfl
      · exact hisName.2.2.2.2 rfl
    · rw [not_or] at hname
      obtain ⟨m, rfl, x, hx⟩ :=
        ((hnames c List.mem_cons_self).resolve_left hname.1).resolve_left hname.2
      refine ensures_entry hpriv hfaults job h hnodup.1 hx
        (fun src dst job' hdir => hchild fs' src dst m job' hdir h.outside) hrest fun hno => ?_
      refine hbad fun hfill => hno ⟨?_, ?_⟩
      · exact hfill [] m a x (by rwa [List.append_nil]) (by rwa [List.append_nil])
      · intro r m' b y hb hy
        exact hfill (m :: r) m' b y (by rwa [List.append_assoc] at hb)
          (by rwa [List.append_assoc s] at hy)

/-- **`cp_dir`**, by induction on how deep the source is. -/
theorem copies_dir (hpriv : os.privileged = false) (hfaults : os.faults = false) (depth : ℕ)
    (job : Job os fs src dst s q n d) (hdir : fs.isDir s = true)
    (hdepth : ∀ r x, fs.node (s ++ r) = some x → r.length < depth) :
    Copies os fs₀ um₀ um argv P fs (.cpDir src dst) s (q ++ [n]) := by
  have hnofault : ¬ os.faults = true := by simp [hfaults]
  induction depth generalizing fs src dst s q n d with
  | zero =>
    obtain ⟨x, hx⟩ := job.exists_src
    exact absurd (hdepth [] x (by rwa [List.append_nil])) (Nat.not_lt_zero _)
  | succ depth ih =>
    intro k hgood hbad
    obtain ⟨a, ha⟩ := Fs.isDir_iff.mp hdir
    have hstat := Caller.stat_of_dir job.found ha
    have hmkdir : os.mkdir fs dst (a.mode &&& ~~~um) =
        .made (fs.addDir q n ⟨a.mode &&& ~~~um, .owner⟩) := by
      rw [Caller.mkdir, job.missing]
      exact if_pos job.writable
    have hout := Outside.of_addDir job.free ⟨a.mode &&& ~~~um, .owner⟩
    have hopendir : os.opendir (fs.addDir q n ⟨a.mode &&& ~~~um, .owner⟩) src = some s := by
      have hread := (job.readable [] _ (by rwa [List.append_nil])).1
      rw [← job.may_src hout, List.append_nil] at hread
      rw [Caller.opendir, job.resolve_src hout]
      simp only [job.isDir_src hout hdir, hread, Bool.and_self, if_true]
    refine ensures_cpDir_of_stat hfaults hstat ?_
    refine ensures_makeDst_of_made hfaults hmkdir ?_
    refine ensures_openSrcDir_of_opendir hfaults hopendir fun names hlists => ?_
    refine copies_entries hpriv hfaults job ha (fun fs' src dst m job' hdir' hout' => ?_) hgood
      hbad hlists.nodup (fun c hc => ?_) (Filling.of_addDir job.free fun m x hx => ?_)
    · refine ih job' hdir' fun r x hx => ?_
      rw [List.append_assoc, job.node_src hout'] at hx
      exact Nat.lt_of_succ_lt_succ (hdepth (m :: r) x hx)
    · have hmem := hlists.mem hc
      simpa only [job.node_src hout] using hmem
    · exact hlists.mem_of_node ((job.node_src hout [m]).trans hx)

end Rules

/-! ### The program -/

/-- `cpdr` copies a fillable source, and exits with 1 otherwise. A file cannot be copied to a path
with a slash at the end. -/
theorem ensures_job {os : Os} (hpriv : os.privileged = false) (hfaults : os.faults = false)
    {fs : Fs} {um : Mode} {cmd src dst : List UInt8} {s q : Place} {n : Name} {d : Bool}
    {P : State → Prop} (job : Job os fs src dst s q n d)
    (hgood : (d = true → fs.isDir s = true) → Fillable fs um s → ∀ fs', Copied fs s fs' (q ++ [n]) →
      P ⟨fs', um, [], some 0⟩)
    (hbad : ¬ ((d = true → fs.isDir s = true) ∧ Fillable fs um s) →
      ∀ fs' um', P ⟨fs', um', [], some 1⟩) :
    (machine os fs um [cmd, src, dst]).Ensures P (machine os fs um [cmd, src, dst]).init := by
  obtain ⟨x, hx⟩ := job.exists_src
  have hkind : x.isDir = true ∨ ∃ i, x = .file i :=
    (job.readable [] x (by rwa [List.append_nil])).2.imp_left And.left
  refine ensures_main (fun hnodir hnofile => ?_) (fun hfault => ?_) (fun mode hstat => ?_)
    fun i mode hstat => ?_
  · rcases hkind with hdir | ⟨i, rfl⟩
    · obtain ⟨a, ha⟩ := Fs.isDir_iff.mp (show fs.isDir s = true by rwa [Fs.isDir, hx])
      exact absurd (Caller.stat_of_dir job.found ha) (hnodir a.mode)
    · exact absurd (Caller.stat_of_file job.found hx) (hnofile i _)
  · simp [hfaults] at hfault
  all_goals
    obtain ⟨p, y, hp, hy, hkindy⟩ := Caller.found_of_stat hstat
    obtain rfl := Target.found.inj (job.found.symm.trans hp)
    obtain rfl := Option.some.inj (hx.symm.trans hy)
  · have hdir : fs.isDir s = true := by
      rw [Fs.isDir, hx]
      exact Node.isDir_iff.mpr hkindy
    obtain ⟨D, hD⟩ := fs.exists_depth
    have hdepth : ∀ r x, fs.node (s ++ r) = some x → r.length < D + 1 := by
      intro r x hr
      have hlen := hD _ x hr
      rw [List.length_append] at hlen
      omega
    exact copies_dir hpriv hfaults (D + 1) job hdir hdepth _
      (fun hfill fs' hcopied _ => ensures_mainReturn (hgood (fun _ => hdir) hfill fs' hcopied))
      fun hno => hbad fun hboth => hno hboth.2
  · have hfile : fs.node s = some (.file i) := by
      rcases x with _ | j | _ | _ <;> cases hkindy
      exact hx
    rcases d
    · exact copies_file hfaults job hfile _
        (fun hfill fs' hcopied _ => ensures_mainReturn (hgood nofun hfill fs' hcopied))
        fun hno => hbad fun hboth => hno hboth.2
    · refine ensures_cpFile_denied (fun mode => ?_) (hbad fun hboth => ?_)
      · rw [Caller.openWrite, Caller.resolve_of_missing job.missing]
      · have hdir := hboth.1 rfl
        rw [Fs.isDir, hfile] at hdir
        cases hdir

/-- **What `cpdr` copies.** An unprivileged user who may read the source and write to the directory
of the destination gets a copy of the source and exit status 0, in whichever order the directories
are listed and however the files are read, exactly when no call fails for reasons outside the file
system, a file is not copied to a path with a slash at the end, and every directory of the source
that is not empty gives its owner write and search permission under the mask. -/
theorem copies_iff (os : Os) (hpriv : os.privileged = false) {fs : Fs} (um : Mode)
    (cmd : List UInt8) {src dst : List UInt8} {s q : Place} {n : Name} {d : Bool}
    (job : Job os fs src dst s q n d) :
    (machine os fs um [cmd, src, dst]).Ensures
        (fun st => st.status = some 0 ∧ Copied fs s st.fs (q ++ [n]))
        (machine os fs um [cmd, src, dst]).init ↔
      os.faults = false ∧ (d = true → fs.isDir s = true) ∧ Fillable fs um s := by
  constructor
  · intro hens
    rcases hfaults : os.faults
    · refine ⟨rfl, ?_⟩
      by_contra hno
      refine Machine.Ensures.not_both (ensures_job hpriv hfaults job
        (P := fun st => st.status = some 1) (fun hd hfill => absurd ⟨hd, hfill⟩ hno)
        fun _ _ _ => rfl) (fun st hst hboth => ?_) hens
      rw [hst] at hboth
      exact absurd hboth.1 (by decide)
    · have hrun : (machine os fs um [cmd, src, dst]).runFrom ⟨fs, um, [.main [cmd, src, dst]], none⟩
          [.fault] = some (⟨fs, um, [], some 1⟩, [.perror src]) := by
        refine Machine.runFrom_cons_eq_some.mpr ⟨(⟨fs, um, [], some 1⟩, [.perror src]), ?_,
          (⟨fs, um, [], some 1⟩, []), rfl, by simp⟩
        show step os _ _ = _
        rw [step, if_neg (by simp [hfaults])]
        rfl
      exact absurd ((hens.of_runFrom hrun).of_stopped fun _ => rfl).1 (by simp)
  · rintro ⟨hfaults, hd, hfill⟩
    exact ensures_job hpriv hfaults job (fun _ _ fs' hcopied => ⟨rfl, hcopied⟩)
      fun hno => absurd ⟨hd, hfill⟩ hno

/-! ### A directory with one entry -/

/-- The directory `/d` with these permission bits, and the file `/d/f` in it. -/
def oneEntry (mode : Mode) : Fs :=
  ((Fs.root ⟨0o755, .owner⟩).addDir [] ⟨ascii "d", isName_d⟩ ⟨mode, .owner⟩).addFile
    [⟨ascii "d", isName_d⟩] ⟨ascii "f", isName_f⟩ ⟨0o644, .owner⟩

theorem nodes_oneEntry (mode : Mode) : (oneEntry mode).nodes =
    [([], .dir ⟨0o755, .owner⟩), ([⟨ascii "d", by decide⟩], .dir ⟨mode, .owner⟩),
      ([⟨ascii "d", by decide⟩, ⟨ascii "f", by decide⟩], .file 0)] := rfl

theorem node_oneEntry {mode : Mode} {r : Place} {x : Node}
    (h : (oneEntry mode).node ([⟨ascii "d", by decide⟩] ++ r) = some x) :
    r = [] ∧ x = .dir ⟨mode, .owner⟩ ∨ r = [⟨ascii "f", by decide⟩] ∧ x = .file 0 := by
  rw [Fs.node, nodes_oneEntry, BoundedMap.find, if_neg (by simp), BoundedMap.find] at h
  split at h
  · rename_i hr
    exact Or.inl ⟨(List.cons.inj hr).2.symm, (Option.some.inj h).symm⟩
  · rw [BoundedMap.find] at h
    split at h
    · rename_i hr
      exact Or.inr ⟨(List.cons.inj hr).2.symm, (Option.some.inj h).symm⟩
    · cases h

theorem inodes_oneEntry (mode : Mode) : (oneEntry mode).inodes 0 = ⟨⟨0o644, .owner⟩, []⟩ := by
  rw [oneEntry, Fs.inodes_addFile ⟨rfl, rfl⟩]
  exact Function.update_self 0 _ _

/-- Copying it to `/e` is a job if its owner may read it. -/
theorem job_oneEntry {mode : Mode} (hread : (⟨mode, .owner⟩ : Attrs).allows .read = true)
    (hsearch : (⟨mode, .owner⟩ : Attrs).allows .search = true) :
    Job userOs (oneEntry mode) (ascii "d") (ascii "e") [⟨ascii "d", by decide⟩] []
      ⟨ascii "e", by decide⟩ false where
  found := rfl
  readable r x hx := by
    rcases node_oneEntry hx with ⟨rfl, rfl⟩ | ⟨rfl, rfl⟩
    · exact ⟨hread, Or.inl ⟨rfl, hsearch⟩⟩
    · refine ⟨?_, Or.inr ⟨0, rfl⟩⟩
      show ((oneEntry mode).inodes 0).attrs.allows .read = true
      rw [inodes_oneEntry]
      decide
  missing := rfl
  writable := rfl
  apart := by decide
  short r x hx := by
    rcases node_oneEntry hx with ⟨rfl, -⟩ | ⟨rfl, -⟩ <;> exact ⟨by decide, by decide⟩

/-- `cpdr d e` copies a directory that its owner may write to. -/
theorem copies_oneEntry : (machine userOs (oneEntry 0o755) 0o022
      [ascii "cpdr", ascii "d", ascii "e"]).Ensures
    (fun st => st.status = some 0 ∧
      Copied (oneEntry 0o755) [⟨ascii "d", by decide⟩] st.fs [⟨ascii "e", by decide⟩])
    (machine userOs (oneEntry 0o755) 0o022 [ascii "cpdr", ascii "d", ascii "e"]).init := by
  refine (copies_iff userOs rfl 0o022 (ascii "cpdr")
    (job_oneEntry (by decide) (by decide))).mpr ⟨rfl, nofun, fun r m a x ha _ => ?_⟩
  rcases node_oneEntry ha with ⟨-, ha⟩ | ⟨-, ha⟩
  · obtain rfl := Node.dir.inj ha
    decide
  · cases ha

/-- `cpdr d e` exits with 1 if nobody may write to the directory, because the copy is made without
write permission before `f` is copied. -/
theorem readOnlyDir_not_copied :
    ¬ ∀ (os : Os) (fs : Fs) (um : Mode) (cmd src dst : List UInt8) (s q : Place) (n : Name)
      (d : Bool), os.privileged = false → os.faults = false → Job os fs src dst s q n d →
      (d = true → fs.isDir s = true) →
      (machine os fs um [cmd, src, dst]).Ensures
        (fun st => st.status = some 0 ∧ Copied fs s st.fs (q ++ [n]))
        (machine os fs um [cmd, src, dst]).init := by
  intro hall
  have hrun : ((machine userOs (oneEntry 0o555) 0o022 [ascii "cpdr", ascii "d", ascii "e"]).runFrom
      (machine userOs (oneEntry 0o555) 0o022 [ascii "cpdr", ascii "d", ascii "e"]).init
      [.result, .result, .result, .listing [ascii ".", ascii "..", ascii "f"], .result, .result,
        .result, .result, .result, .result]).map
      (fun r => (r.1.status, r.2)) = some (some 1, [.perror (ascii "e/f")]) := by decide
  obtain ⟨⟨st, es⟩, hrun, heq⟩ := Option.map_eq_some_iff.mp hrun
  obtain ⟨hstatus, -⟩ := Prod.mk.inj heq
  have hens := hall userOs (oneEntry 0o555) 0o022 (ascii "cpdr") (ascii "d") (ascii "e")
    [⟨ascii "d", by decide⟩] [] ⟨ascii "e", by decide⟩ false rfl rfl
    (job_oneEntry (by decide) (by decide)) nofun
  have hstopped : (machine userOs (oneEntry 0o555) 0o022
      [ascii "cpdr", ascii "d", ascii "e"]).Stopped st := by
    intro a
    show step userOs st a = none
    rw [step, if_pos (Or.inl (by rw [hstatus]; rfl))]
  have hdone := ((hens.of_runFrom hrun).of_stopped hstopped).1
  rw [hstatus] at hdone
  exact absurd hdone (by decide)

end Cpdr

end SystemProgramming
