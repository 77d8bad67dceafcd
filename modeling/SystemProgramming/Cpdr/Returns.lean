import SystemProgramming.Cpdr.Rules

/-!
# When `cpdr` returns

`cp_dir` makes the destination directory before it lists the source. Where the destination lies
inside the source, the listing leads to it, and into it again.

The steps of such a recursion go down along the names between source and destination, over and
over: from `s` and `s/a/b` to `s/a` and `s/a/b/a`, to `s/a/b` and `s/a/b/a/b`. It has no end unless
something that is not a directory stands in the way.

## How it goes

What has been copied cannot be lost: the tree only grows (`Grows`). If the destination is not inside
the source, or something stands in the way, there is a bound for how deep the recursion goes, and
the proof is by induction on what is left of it. If it is inside, the recursion makes the next
directory before it lists the one it is in, so the listing has the new directory again: from each
pair of paths a run goes on to the next, and never ends.

## Two bounds

Where the destination is not below the source, the bound is the depth of the tree. The source may
still grow, if the destination is a directory above it; but what is copied there has moved up, so
that nothing below the source gets deeper than it has been (`depth_of_grows`). Where the destination
is below the source and something stands in the way, the bound is the number of levels after which
the recursion comes to it, which is the number that `unroll` is given. Both are for any behaviour of
the kernel, as a call that fails ends the program.

## Main definitions

* `Grows` — what `cpdr` does to the tree
* `unroll`, `Swallows` — a destination that the source never gets to the end of

## Main results

* `returns_apart`, `returns_blocked` — where the recursion ends
* `diverges` — where it does not
* `returns_iff` — `cpdr` returns, whoever runs it and whatever fails, unless the source swallows
  the destination
-/

namespace SystemProgramming

namespace Cpdr

/-! ### A growing tree -/

/-- Nothing is removed, and what is new stands at a place in `T` and is no symbolic link. -/
structure Grows (T : Place → Prop) (fs fs' : Fs) : Prop where
  kept : ∀ p x, fs.node p = some x → ∃ x', fs'.node p = some x' ∧ x'.kind = x.kind
  new : ∀ p x, fs'.node p = some x → fs.node p = none → T p ∧ ∀ target, x ≠ .symlink target

namespace Grows

variable {T : Place → Prop} {fs fs' fs'' : Fs}

theorem of_node_eq (h : fs'.node = fs.node) : Grows T fs fs' where
  kept p x hx := ⟨x, by rw [h, hx], rfl⟩
  new p x hx hnone := by
    rw [h, hnone] at hx
    cases hx

theorem trans (h : Grows T fs fs') (h' : Grows T fs' fs'') : Grows T fs fs'' where
  kept p x hx := by
    obtain ⟨x', hx', hk⟩ := h.kept p x hx
    obtain ⟨x'', hx'', hk'⟩ := h'.kept p x' hx'
    exact ⟨x'', hx'', hk'.trans hk⟩
  new p x hx hnone := by
    rcases hx' : fs'.node p with _ | x'
    · exact h'.new p x hx hx'
    · obtain ⟨hT, hlink⟩ := h.new p x' hx' hnone
      obtain ⟨x'', hx'', hk⟩ := h'.kept p x' hx'
      obtain rfl := Option.some.inj (hx.symm.trans hx'')
      refine ⟨hT, fun target htarget => ?_⟩
      subst htarget
      rcases x' with _ | _ | _ | _ <;> cases hk
      exact hlink target rfl

theorem mono {T' : Place → Prop} (h : Grows T fs fs') (hT : ∀ p, T p → T' p) :
    Grows T' fs fs' where
  kept := h.kept
  new p x hx hnone := ⟨hT p (h.new p x hx hnone).1, (h.new p x hx hnone).2⟩

/-- One new node, or another one of its kind. -/
theorem of_update {p : Place} {x : Node} (h : fs'.node = Function.update fs.node p (some x))
    (hlink : ∀ target, x ≠ .symlink target)
    (hp : fs.node p = none ∧ T p ∨ ∃ y, fs.node p = some y ∧ x.kind = y.kind) :
    Grows T fs fs' where
  kept q y hy := by
    rw [h]
    by_cases hqp : q = p
    · subst hqp
      rw [Function.update_self]
      rcases hp with ⟨hnone, -⟩ | ⟨y', hy', hk⟩
      · exact absurd (hnone.symm.trans hy) nofun
      · obtain rfl := Option.some.inj (hy.symm.trans hy')
        exact ⟨x, rfl, hk⟩
    · rw [Function.update_of_ne hqp]
      exact ⟨y, hy, rfl⟩
  new q y hy hnone := by
    rw [h] at hy
    by_cases hqp : q = p
    · subst hqp
      rw [Function.update_self] at hy
      obtain rfl := Option.some.inj hy
      rcases hp with ⟨-, hT⟩ | ⟨y', hy', -⟩
      · exact ⟨hT, hlink⟩
      · exact absurd (hnone.symm.trans hy') nofun
    · rw [Function.update_of_ne hqp, hnone] at hy
      cases hy

theorem noSymlinks (h : Grows T fs fs') (hsym : fs.NoSymlinks) : fs'.NoSymlinks := by
  intro p target htarget
  rcases hx : fs.node p with _ | x
  · exact (h.new p _ htarget hx).2 target rfl
  · obtain ⟨x', hx', hk⟩ := h.kept p x hx
    obtain rfl := Option.some.inj (htarget.symm.trans hx')
    rcases x with _ | _ | target' | _ <;> cases hk
    exact hsym p _ hx

theorem isDir (h : Grows T fs fs') {p : Place} (hp : fs.isDir p = true) : fs'.isDir p = true := by
  obtain ⟨a, ha⟩ := Fs.isDir_iff.mp hp
  obtain ⟨x', hx', hk⟩ := h.kept p _ ha
  rw [Fs.isDir, hx']
  exact Node.isDir_iff.mpr hk

theorem locate (h : Grows T fs fs') {c : Caller} {follow : Bool} {path : List UInt8} {p : Place}
    (hp : c.locate fs follow path = .found p) : c.locate fs' follow path = .found p := by
  have hkept := @Caller.locate_keeps c fs fs' h.kept follow path
  rw [hp] at hkept
  exact hkept

end Grows

/-! ### What the calls do to the tree -/

theorem grows_chmod (T : Place → Prop) (c : Caller) (fs : Fs) (path : List UInt8) (mode : Mode) :
    Grows T fs (c.chmod fs path mode) := by
  rw [Caller.chmod]
  split
  · rename_i p _
    split
    · rcases fs.node_setMode p mode with hsame | ⟨a, ha, hnode⟩
      · exact .of_node_eq hsame
      · exact .of_update hnode (by simp) (Or.inr ⟨_, ha, rfl⟩)
    · exact .of_node_eq rfl
  · exact .of_node_eq rfl

/-- A directory that was made is what its path names. -/
theorem made_mkdir {c : Caller} {fs fs' : Fs} {path : List UInt8} {mode : Mode}
    (h : c.mkdir fs path mode = .made fs') : ∃ t, (c.locate fs false path).place = some t ∧
      fs.node t = none ∧ fs'.isDir t = true ∧ Grows (· = t) fs fs' ∧
      c.locate fs' false path = .found t := by
  have hsound := c.resolve_sound fs false path
  rw [Caller.mkdir] at h
  split at h
  · cases h
  · rename_i p n d hmissing
    split at h
    · cases h
      rw [hmissing] at hsound
      have hlocate : c.locate fs false path = .missing p n d :=
        Caller.locate_of_resolve hmissing nofun
      have hnode := Fs.node_addDir hsound ⟨mode, .owner⟩
      have hnew : (fs.addDir p n ⟨mode, .owner⟩).node (p ++ [n]) =
          some (.dir ⟨mode, .owner⟩) := by rw [hnode, Function.update_self]
      have hgrows : Grows (· = p ++ [n]) fs (fs.addDir p n ⟨mode, .owner⟩) :=
        .of_update hnode nofun (Or.inl ⟨hsound.2, rfl⟩)
      have hkept := @Caller.locate_keeps c fs _ hgrows.kept false path
      rw [hlocate] at hkept
      exact ⟨p ++ [n], by rw [hlocate]; rfl, hsound.2, Fs.isDir_iff.mpr ⟨_, hnew⟩, hgrows,
        hkept.2 _ hnew nofun fun _ => rfl⟩
    · cases h
  · cases h

theorem exists_mkdir {c : Caller} {fs : Fs} {path : List UInt8} {mode : Mode}
    (h : c.mkdir fs path mode = .exists) : ∃ t, c.locate fs false path = .found t := by
  rw [Caller.mkdir] at h
  split at h
  · rename_i t ht
    exact ⟨t, Caller.locate_of_resolve ht nofun⟩
  · split at h <;> cases h
  · cases h

theorem grows_openWrite {c : Caller} {fs fs' : Fs} {path : List UInt8} {mode : Mode}
    {outFd : Option ℕ} (h : c.openWrite fs path mode = some (fs', outFd)) :
    ∃ t, (c.locate fs true path).place = some t ∧ Grows (· = t) fs fs' := by
  have hsound := c.resolve_sound fs true path
  have hlocate : c.resolve fs true path ≠ .failed →
      c.locate fs true path = c.resolve fs true path := Caller.locate_of_resolve rfl
  rw [Caller.openWrite] at h
  generalize c.resolve fs true path = r at h hsound hlocate
  rcases r with p | ⟨p, n, _ | _⟩ | _
  · refine ⟨p, by rw [hlocate (by simp)]; rfl, ?_⟩
    dsimp only at h
    split at h
    · obtain ⟨-, heq⟩ := Option.ite_none_right_eq_some.mp h
      cases heq
      exact .of_node_eq rfl
    · cases h
      exact .of_node_eq rfl
    · cases h
  · refine ⟨p ++ [n], by rw [hlocate (by simp)]; rfl, ?_⟩
    obtain ⟨-, heq⟩ := Option.ite_none_right_eq_some.mp h
    cases heq
    exact .of_update (Fs.node_addFile hsound _) (by simp) (Or.inl ⟨hsound.2, rfl⟩)
  · cases h
  · cases h

/-! ### Rules for returning -/

/-- The program ends, whatever happens. -/
def Returns (os : Os) (fs₀ : Fs) (um₀ : Mode) (argv : List (List UInt8)) (s : State) : Prop :=
  (machine os fs₀ um₀ argv).Ensures (fun s => s.status.isSome = true) s

section Rules

variable {os : Os} {fs₀ fs : Fs} {um₀ um : Mode} {argv : List (List UInt8)} {k : List Frame}
  {T : Place → Prop} {src dst : List UInt8} {s t : Place}

/-- `cp_file` returns, or the program exits. -/
theorem returns_cpFile (hT : ∀ t, (os.locate fs true dst).place = some t → T t)
    (hk : ∀ fs', Grows T fs fs' → Returns os fs₀ um₀ argv ⟨fs', um, k, none⟩) :
    Returns os fs₀ um₀ argv ⟨fs, um, .cpFile src dst :: k, none⟩ := by
  refine ensures_cpFile (fun _ => rfl) fun inFd hin => ?_
  refine ensures_openDst (fun _ => rfl) fun fs' outFd hopen => ?_
  obtain ⟨p, -, hp⟩ := Caller.found_of_openRead hin
  obtain ⟨t, ht, hgrows⟩ := grows_openWrite hopen
  have hgrows' : Grows T fs fs' := hgrows.mono fun _ hp => hp ▸ hT t ht
  have hempty : outFd = some inFd → (fs'.inodes inFd).content = [] := by
    intro hout
    rw [(Caller.openWrite_files hopen).2 inFd (fs.lt_next p inFd hp), if_pos hout]
  refine ensures_copying (fs'.inodes inFd).content
    (I := fun fs'' _ => Grows T fs fs'' ∧
      (fs''.inodes inFd).content = (fs'.inodes inFd).content)
    (fun _ _ hI => hI.2) ?_ (fun _ _ => rfl) ?_ ⟨hgrows', rfl⟩
  · rintro fs'' pos n ⟨hgrows'', hsame⟩ hn hle
    have hne : outFd ≠ some inFd := by
      intro hout
      rw [hempty hout, List.length_nil] at hle
      omega
    refine ⟨hgrows''.trans (.of_node_eq ?_), ?_⟩
    · rcases outFd with _ | i <;> rfl
    · rw [(append_files fs'' outFd _).2 inFd, if_neg hne, List.append_nil, hsame]
  · rintro fs'' pos ⟨hgrows'', -⟩ -
    exact ensures_leaveFile (hk _ (hgrows''.trans (grows_chmod T _ _ _ _)))
      fun _ => hk _ hgrows''

theorem join_eq (hmax : os.pathMax = none) (dir name : List UInt8) :
    join os dir name = dir ++ slash :: name := by
  rw [join, hmax]

/-- What `stat` finds at a name of a directory. -/
theorem child_of_stat {path : List UInt8} {n : Name} {kind : Kind} {mode : Mode}
    (hpath : os.locate fs true path = walkName fs (fun _ => true) s n)
    (hstat : os.stat fs path = some (kind, mode)) :
    os.locate fs true path = .found (s ++ [n]) ∧
      ∃ x, fs.node (s ++ [n]) = some x ∧ x.kind = kind := by
  obtain ⟨p, x, hp, hx, hkind⟩ := Caller.found_of_stat hstat
  have hlocate := Caller.locate_of_resolve hp nofun
  have hplace := congrArg Target.place (hpath.symm.trans hlocate)
  obtain rfl : p = s ++ [n] := place_walkName hplace
  exact ⟨hlocate, x, hx, hkind⟩

/-- A call of `cp_dir` for the entry `n` returns, once the tree has grown. -/
def ReturnsBelow (os : Os) (fs₀ : Fs) (um₀ um : Mode) (argv : List (List UInt8))
    (T : Place → Prop) (fs : Fs) (src dst : List UInt8) (s t : Place) : Prop :=
  ∀ (n : Name) (k : List Frame) (fs' : Fs), Grows T fs fs' →
    os.locate fs' true (join os src n.1) = .found (s ++ [n]) → fs'.isDir (s ++ [n]) = true →
    os.locate fs' false (join os dst n.1) = walkName fs' (fun _ => true) t n →
    (∀ fs'', Grows T fs' fs'' → Returns os fs₀ um₀ argv ⟨fs'', um, k, none⟩) →
    Returns os fs₀ um₀ argv ⟨fs', um, .cpDir (join os src n.1) (join os dst n.1) :: k, none⟩

/-- The loop of `cp_dir`. -/
theorem returns_readEntry (hmax : os.pathMax = none) (hsym : fs.NoSymlinks) {mode : Mode}
    (hchild : ReturnsBelow os fs₀ um₀ um argv T fs src dst s t)
    (hT : ∀ fs' n x, Grows T fs fs' → fs'.node (s ++ [n]) = some x → T (t ++ [n]))
    (hk : ∀ fs', Grows T fs fs' → Returns os fs₀ um₀ argv ⟨fs', um, k, none⟩)
    {names : List (List UInt8)} (hnames : ∀ c ∈ names, c = ascii "." ∨ c = ascii ".." ∨ IsName c)
    {fs' : Fs} (hgrows : Grows T fs fs') (hsrc : os.locate fs' true src = .found s)
    (hdst : os.locate fs' false dst = .found t) :
    Returns os fs₀ um₀ argv ⟨fs', um, .readEntry src dst mode names :: k, none⟩ := by
  have hleave : ∀ fs'', Grows T fs fs'' →
      Returns os fs₀ um₀ argv ⟨fs'', um, .leaveDir dst mode :: k, none⟩ := fun fs'' h =>
    ensures_leaveDir (hk _ (h.trans (grows_chmod T _ _ _ _))) fun _ => hk _ h
  induction names generalizing fs' with
  | nil => exact ensures_readEntry_nil (hleave fs' hgrows)
  | cons name names ih =>
    have hnext : ∀ fs'', Grows T fs' fs'' →
        Returns os fs₀ um₀ argv ⟨fs'', um, .readEntry src dst mode names :: k, none⟩ :=
      fun fs'' h => ih (fun c hc => hnames c (List.mem_cons_of_mem _ hc)) (hgrows.trans h)
        (h.locate hsrc) (h.locate hdst)
    refine ensures_readEntry_cons (fun _ => hleave fs' hgrows)
      (fun _ => hnext fs' (.of_node_eq rfl)) fun hname => ?_
    rw [not_or] at hname
    have hisName : IsName name :=
      ((hnames name List.mem_cons_self).resolve_left hname.1).resolve_left hname.2
    obtain ⟨n, rfl⟩ : ∃ n : Name, n.1 = name := ⟨⟨name, hisName⟩, rfl⟩
    have hsym' := hgrows.noSymlinks hsym
    have hsrcPath : os.locate fs' true (join os src n.1) = walkName fs' (fun _ => true) s n := by
      rw [join_eq hmax]
      exact Caller.locate_child hsrc (hsym' _) true
    have hdstPath : ∀ follow, os.locate fs' follow (join os dst n.1) =
        walkName fs' (fun _ => true) t n := by
      intro follow
      rw [join_eq hmax]
      exact Caller.locate_child ((Caller.locate_follow hsym' true false dst).trans hdst)
        (hsym' _) follow
    refine ensures_statEntry (fun _ => hnext fs' (.of_node_eq rfl)) ?_ ?_
    · intro mode' hstat
      obtain ⟨hlocate, x, hx, hkind⟩ := child_of_stat hsrcPath hstat
      have hdir : fs'.isDir (s ++ [n]) = true := by
        rw [Fs.isDir, hx]
        exact Node.isDir_iff.mpr hkind
      exact hchild n _ fs' hgrows hlocate hdir (hdstPath false) hnext
    · intro i mode' hstat
      obtain ⟨-, x, hx, -⟩ := child_of_stat hsrcPath hstat
      refine returns_cpFile (fun p hp => ?_) hnext
      rw [hdstPath true] at hp
      rw [place_walkName hp]
      exact hT fs' n x hgrows hx

/-- `cp_dir` returns, or the program exits, if the calls for the entries do. -/
theorem returns_cpDir (hmax : os.pathMax = none) (hsym : fs.NoSymlinks)
    (hsrc : os.locate fs true src = .found s)
    (hdst : ∀ p, (os.locate fs false dst).place = some p → p = t) (hTt : T t)
    (hchild : ∀ fs', Grows T fs fs' → os.locate fs' false dst = .found t →
      ReturnsBelow os fs₀ um₀ um argv T fs' src dst s t)
    (hT : ∀ fs' n x, Grows T fs fs' → fs'.node (s ++ [n]) = some x → T (t ++ [n]))
    (hk : ∀ fs', Grows T fs fs' → Returns os fs₀ um₀ argv ⟨fs', um, k, none⟩) :
    Returns os fs₀ um₀ argv ⟨fs, um, .cpDir src dst :: k, none⟩ := by
  have hlist : ∀ fs' mode, Grows T fs fs' → os.locate fs' false dst = .found t →
      Returns os fs₀ um₀ argv ⟨fs', um, .openSrcDir src dst mode :: k, none⟩ := by
    intro fs' mode hgrows hfound
    refine ensures_openSrcDir (fun _ => rfl) fun p names _ hlists => ?_
    refine returns_readEntry hmax (hgrows.noSymlinks hsym) (hchild fs' hgrows hfound)
      (fun fs'' n x h => hT fs'' n x (hgrows.trans h)) (fun fs'' h => hk fs'' (hgrows.trans h))
      (fun c hc => ?_) (.of_node_eq rfl) (hgrows.locate hsrc) hfound
    rcases hlists.mem hc with hdot | hdotdot | ⟨n, rfl, -⟩
    · exact Or.inl hdot
    · exact Or.inr (Or.inl hdotdot)
    · exact Or.inr (Or.inr n.2)
  refine ensures_cpDir (fun _ => rfl) fun kind mode _ => ?_
  refine ensures_makeDst (fun _ => rfl) (fun fs' hmade => ?_) fun hexists => ?_
  · obtain ⟨p, hp, -, -, hgrows, hfound⟩ := made_mkdir hmade
    obtain rfl := hdst p hp
    exact hlist fs' mode (hgrows.mono fun _ h => h ▸ hTt) hfound
  · obtain ⟨p, hp⟩ := exists_mkdir hexists
    obtain rfl := hdst p (by rw [hp]; rfl)
    exact hlist fs mode (.of_node_eq rfl) hp

/-! ### Where the recursion ends -/

/-- The destination does not lie below the source. -/
def Apart (s t : Place) : Prop := t.length ≤ s.length ∨ ¬ s <+: t

/-- What is copied does not make the source deeper. -/
theorem depth_of_grows {D : ℕ} (hapart : Apart s t) {fs' : Fs}
    (hD : ∀ p x, fs.node p = some x → s <+: p → p.length ≤ D)
    (h : Grows (fun p => ∃ q, p = t ++ q ∧ (s ++ q).length ≤ D) fs fs') :
    ∀ p x, fs'.node p = some x → s <+: p → p.length ≤ D := by
  intro p x hx hsp
  rcases hold : fs.node p with _ | y
  · obtain ⟨⟨q, rfl, hq⟩, -⟩ := h.new p x hx hold
    rw [List.length_append] at hq ⊢
    rcases hapart with hle | hno
    · omega
    · by_contra hlt
      exact hno (List.prefix_of_prefix_length_le hsp (List.prefix_append t q) (by omega))
  · exact hD p y hold hsp

theorem returns_within {D : ℕ} (hmax : os.pathMax = none) (hapart : Apart s t) (N : ℕ) :
    ∀ (q : Place) (src dst : List UInt8) (fs : Fs) (k : List Frame),
      D < (s ++ q).length + N → fs.NoSymlinks →
      (∀ p x, fs.node p = some x → s <+: p → p.length ≤ D) →
      os.locate fs true src = .found (s ++ q) →
      (∀ p, (os.locate fs false dst).place = some p → p = t ++ q) →
      (∀ fs', Grows (fun p => ∃ q, p = t ++ q ∧ (s ++ q).length ≤ D) fs fs' →
        Returns os fs₀ um₀ argv ⟨fs', um, k, none⟩) →
      Returns os fs₀ um₀ argv ⟨fs, um, .cpDir src dst :: k, none⟩ := by
  induction N with
  | zero =>
    intro q src dst fs k hlt _ hD hsrc _ _
    have hsound := os.locate_sound fs true src
    rw [hsrc] at hsound
    obtain ⟨x, hx⟩ := hsound
    have hle := hD _ x hx (List.prefix_append s q)
    omega
  | succ N ih =>
    intro q src dst fs k hlt hsym hD hsrc hdst hk
    have hsound := os.locate_sound fs true src
    rw [hsrc] at hsound
    obtain ⟨x, hx⟩ := hsound
    refine returns_cpDir hmax hsym hsrc hdst ⟨q, rfl, hD _ x hx (List.prefix_append s q)⟩ ?_ ?_ hk
    · intro fs₁ hgrows₁ _ n k' fs₂ hgrows₂ hloc _ hdst' hk'
      have hgrows := hgrows₁.trans hgrows₂
      refine ih (q ++ [n]) _ _ fs₂ k' ?_ (hgrows.noSymlinks hsym)
        (depth_of_grows hapart hD hgrows) ?_ ?_ hk'
      · simp only [List.length_append, List.length_singleton] at hlt ⊢
        omega
      · rw [hloc, List.append_assoc]
      · intro p hp
        rw [hdst'] at hp
        rw [place_walkName hp, List.append_assoc]
    · intro fs' n y hgrows hy
      refine ⟨q ++ [n], List.append_assoc _ _ _, ?_⟩
      rw [← List.append_assoc]
      exact depth_of_grows hapart hD hgrows _ y hy
        ((List.prefix_append s q).trans (List.prefix_append _ _))

/-- **A destination that does not lie below the source.** -/
theorem returns_apart (hmax : os.pathMax = none) (hsym : fs.NoSymlinks) (hapart : Apart s t)
    (hsrc : os.locate fs true src = .found s)
    (hdst : ∀ p, (os.locate fs false dst).place = some p → p = t)
    (hk : ∀ fs', Grows (fun _ => True) fs fs' → Returns os fs₀ um₀ argv ⟨fs', um, k, none⟩) :
    Returns os fs₀ um₀ argv ⟨fs, um, .cpDir src dst :: k, none⟩ := by
  obtain ⟨D, hD⟩ := fs.exists_depth
  refine returns_within hmax hapart (D + 1) [] src dst fs k (by omega) hsym
    (fun p x hx _ => hD p x hx) (by rw [hsrc, List.append_nil])
    (fun p hp => by rw [hdst p hp, List.append_nil]) fun fs' h => hk fs' (h.mono fun _ _ => trivial)

/-- A destination that cannot be reached. -/
theorem returns_of_noDst (hno : os.locate fs false dst = .failed) :
    Returns os fs₀ um₀ argv ⟨fs, um, .cpDir src dst :: k, none⟩ := by
  refine ensures_cpDir (fun _ => rfl) fun kind mode _ => ?_
  refine ensures_makeDst (fun _ => rfl) (fun fs' hmade => ?_) fun hexists => ?_
  · obtain ⟨p, hp, -⟩ := made_mkdir hmade
    rw [hno] at hp
    cases hp
  · obtain ⟨p, hp⟩ := exists_mkdir hexists
    rw [hno] at hp
    cases hp

/-- The names on the way to the destination, after so many levels. -/
def unroll : ℕ → List Name → List Name
  | 0, r => r
  | _ + 1, [] => []
  | j + 1, a :: r => a :: unroll j (r ++ [a])

/-- **A destination below the source, and something in its way.** -/
theorem returns_blocked (hmax : os.pathMax = none) (j : ℕ) :
    ∀ (s : Place) (r : List Name) (src dst : List UInt8) (fs : Fs) (k : List Frame), r ≠ [] →
      fs.NoSymlinks → os.locate fs true src = .found s →
      (∀ p, (os.locate fs false dst).place = some p → p = s ++ r) →
      (∃ x, fs.node (s ++ unroll j r) = some x ∧ x.isDir = false) →
      (∀ fs', Grows (fun _ => True) fs fs' → Returns os fs₀ um₀ argv ⟨fs', um, k, none⟩) →
      Returns os fs₀ um₀ argv ⟨fs, um, .cpDir src dst :: k, none⟩ := by
  have hkept : ∀ {fs fs' : Fs} {p : Place}, Grows (fun _ => True) fs fs' →
      (∃ x, fs.node p = some x ∧ x.isDir = false) →
      ∃ x, fs'.node p = some x ∧ x.isDir = false := by
    rintro fs fs' p h ⟨x, hx, hno⟩
    obtain ⟨x', hx', hk⟩ := h.kept p x hx
    refine ⟨x', hx', Bool.eq_false_iff.mpr fun hd => ?_⟩
    rw [Node.isDir_iff.mpr (hk ▸ Node.isDir_iff.mp hd)] at hno
    cases hno
  induction j with
  | zero =>
    intro s r src dst fs k _ hsym hsrc hdst hblock hk
    refine returns_cpDir hmax hsym hsrc hdst trivial ?_ (fun _ _ _ _ _ => trivial) hk
    intro fs₁ hgrows₁ _ n k' fs₂ hgrows₂ _ _ hdst' _
    obtain ⟨x, hx, hno⟩ := hkept (hgrows₁.trans hgrows₂) hblock
    have hnoDir : fs₂.isDir (s ++ r) = false := by
      rw [Fs.isDir, show fs₂.node (s ++ r) = some x from hx]
      exact hno
    refine returns_of_noDst ?_
    rw [hdst', walkName, hnoDir]
    rfl
  | succ j ih =>
    intro s r src dst fs k hr hsym hsrc hdst hblock hk
    obtain ⟨a, r, rfl⟩ := List.exists_cons_of_ne_nil hr
    refine returns_cpDir hmax hsym hsrc hdst trivial ?_ (fun _ _ _ _ _ => trivial) hk
    intro fs₁ hgrows₁ _ n k' fs₂ hgrows₂ hloc _ hdst' hk'
    have hgrows := hgrows₁.trans hgrows₂
    have hplace : ∀ p, (os.locate fs₂ false (join os dst n.1)).place = some p →
        p = s ++ a :: r ++ [n] := by
      intro p hp
      rw [hdst'] at hp
      exact place_walkName hp
    by_cases hna : n = a
    · subst hna
      refine ih (s ++ [n]) (r ++ [n]) _ _ fs₂ k' (by simp) (hgrows.noSymlinks hsym) hloc
        (fun p hp => ?_) ?_ hk'
      · rw [hplace p hp]
        simp
      · rw [List.append_assoc]
        exact hkept hgrows hblock
    · refine returns_apart hmax (hgrows.noSymlinks hsym) (Or.inr fun hpre => hna ?_) hloc hplace hk'
      rw [List.append_assoc, List.prefix_append_right_inj, List.cons_append,
        List.cons_prefix_cons] at hpre
      exact hpre.1

end Rules

/-! ### Where it does not end -/

section Diverges

variable {os : Os} {fs₀ fs : Fs} {um₀ um : Mode} {argv : List (List UInt8)} {k : List Frame}
  {dst : List UInt8} {t : Place}

theorem machine_step {frame : Frame} {a : Answer} (ha : a ≠ .fault) :
    (machine os fs₀ um₀ argv).step ⟨fs, um, frame :: k, none⟩ a =
      stepFrame os ⟨fs, um, frame :: k, none⟩ k frame a := by
  show step os _ a = _
  rw [step, if_neg]
  simp [ha]

/-- A call of `cp_dir` with a destination below its source, and only directories in its way. -/
def Sinking (os : Os) (um : Mode) (st : State) : Prop :=
  ∃ (fs : Fs) (k : List Frame) (src dst : List UInt8) (p : Place) (r : List Name),
    st = ⟨fs, um, .cpDir src dst :: k, none⟩ ∧ fs.NoSymlinks ∧
      os.locate fs true src = .found p ∧ fs.isDir p = true ∧ r ≠ [] ∧
      (os.locate fs false dst).place = some (p ++ r) ∧
      ∀ j x, fs.node (p ++ unroll j r) = some x → x.isDir = true

/-- The destination is there, or it can be made. -/
theorem step_makeDst (hpriv : os.privileged = true) (hmax : os.pathMax = none)
    (hdst : (os.locate fs false dst).place = some t)
    (hdir : ∀ x, fs.node t = some x → x.isDir = true) (um : Mode) (k : List Frame)
    (src : List UInt8) (mode : Mode) :
    ∃ fs', stepFrame os ⟨fs, um, .makeDst src dst mode :: k, none⟩ k (.makeDst src dst mode)
        .result = some (⟨fs', um, .openSrcDir src dst mode :: k, none⟩, []) ∧
      Grows (· = t) fs fs' ∧ os.locate fs' false dst = .found t ∧ fs'.isDir t = true := by
  rw [stepFrame]
  rcases hmade : os.mkdir fs dst (mode &&& ~~~um) with fs' | _ | _
  · obtain ⟨p, hp, -, hpdir, hgrows, hfound⟩ := made_mkdir hmade
    obtain rfl := Option.some.inj (hdst.symm.trans hp)
    exact ⟨fs', rfl, hgrows, hfound, hpdir⟩
  · obtain ⟨p, hp⟩ := exists_mkdir hmade
    obtain rfl : p = t := by simpa [hp, Target.place] using hdst
    have hsound := os.locate_sound fs false dst
    rw [hp] at hsound
    obtain ⟨x, hx⟩ := hsound
    refine ⟨fs, rfl, .of_node_eq rfl, hp, ?_⟩
    rw [Fs.isDir, hx]
    exact hdir x hx
  · rw [Caller.mkdir, Caller.resolve_of_privileged hpriv hmax] at hmade
    rcases hr : os.locate fs false dst with p | ⟨p, n, d⟩ | _
    · rw [hr] at hmade
      cases hmade
    · rw [hr] at hmade
      simp only [Caller.may, hpriv, Bool.true_or, if_true] at hmade
      cases hmade
    · rw [hr] at hdst
      cases hdst

/-- From a listing to where the program goes on with its first name. -/
theorem run_entry {src : List UInt8} {mode : Mode} {p : Place} {a : Name}
    {names : List (List UInt8)} {next : Frame} (hopen : os.opendir fs src = some p)
    (hnames : fs.Lists p (a.1 :: names))
    (hnext : ∀ k, stepFrame os
      ⟨fs, um, .statEntry (join os src a.1) (join os dst a.1) :: k, none⟩ k
      (.statEntry (join os src a.1) (join os dst a.1)) .result =
      some (⟨fs, um, next :: k, none⟩, [])) :
    (machine os fs₀ um₀ argv).runFrom ⟨fs, um, .openSrcDir src dst mode :: k, none⟩
        [.listing (a.1 :: names), .result, .result] =
      some (⟨fs, um, next :: .readEntry src dst mode names :: k, none⟩, []) := by
  have hlist : stepFrame os ⟨fs, um, .openSrcDir src dst mode :: k, none⟩ k
      (.openSrcDir src dst mode) (.listing (a.1 :: names)) =
      some (⟨fs, um, .readEntry src dst mode (a.1 :: names) :: k, none⟩, []) := by
    rw [stepFrame, hopen]
    simp only [hnames, if_true]
    rfl
  have hread : stepFrame os ⟨fs, um, .readEntry src dst mode (a.1 :: names) :: k, none⟩ k
      (.readEntry src dst mode (a.1 :: names)) .result =
      some (⟨fs, um, .statEntry (join os src a.1) (join os dst a.1) ::
        .readEntry src dst mode names :: k, none⟩, []) := by
    rw [stepFrame, if_neg]
    · rfl
    · rw [not_or]
      exact ⟨a.2.2.2.2.1, a.2.2.2.2.2⟩
  simp only [Machine.runFrom, machine_step, ne_eq, reduceCtorEq, not_false_eq_true, hlist, hread,
    hnext, Option.bind_some, Option.map_some, List.append_nil]

/-- What has been made is a directory, so there are still only directories in the way. -/
theorem isDir_of_grown {fs' : Fs} {p : Place} {a : Name} {r : List Name}
    (hgrows : Grows (· = p ++ a :: r) fs fs') (htdir : fs'.isDir (p ++ a :: r) = true)
    (hway : ∀ j x, fs.node (p ++ unroll j (a :: r)) = some x → x.isDir = true) (j : ℕ) {x : Node}
    (hx : fs'.node (p ++ [a] ++ unroll j (r ++ [a])) = some x) : x.isDir = true := by
  have hassoc : p ++ [a] ++ unroll j (r ++ [a]) = p ++ unroll (j + 1) (a :: r) := by
    simp [unroll]
  rw [hassoc] at hx
  rcases hold : fs.node (p ++ unroll (j + 1) (a :: r)) with _ | y
  · obtain ⟨hpt, -⟩ := hgrows.new _ x hx hold
    rw [hpt] at hx
    rw [Fs.isDir, hx] at htdir
    exact htdir
  · obtain ⟨y', hy', hk⟩ := hgrows.kept _ y hold
    obtain rfl := Option.some.inj (hx.symm.trans hy')
    exact Node.isDir_iff.mpr (hk.trans (Node.isDir_iff.mp (hway _ y hold)))

/-- **Down one level.** -/
theorem sinking_step (hpriv : os.privileged = true) (hmax : os.pathMax = none) {st : State}
    (h : Sinking os um st) : ∃ a as q,
      (machine os fs₀ um₀ argv).runFrom st (a :: as) = some q ∧ Sinking os um q.1 := by
  obtain ⟨fs, k, src, dst, p, r, rfl, hsym, hsrc, hpdir, hr, hdst, hway⟩ := h
  obtain ⟨a, r, rfl⟩ := List.exists_cons_of_ne_nil hr
  obtain ⟨attrs, hattrs⟩ := Fs.isDir_iff.mp hpdir
  have hstat : os.stat fs src = some (.dir, attrs.mode) :=
    Caller.stat_of_dir ((Caller.resolve_of_privileged hpriv hmax _ true _).trans hsrc) hattrs
  obtain ⟨fs', hmake, hgrows, hdst', htdir⟩ :=
    step_makeDst hpriv hmax hdst (hway 0) um k src attrs.mode
  have hsrc' := hgrows.locate hsrc
  have hsym' := hgrows.noSymlinks hsym
  have hadir : fs'.isDir (p ++ [a]) = true := by
    rcases r with _ | ⟨b, r⟩
    · exact htdir
    · obtain ⟨x, hx⟩ := Fs.isDir_iff.mp htdir
      rw [List.append_cons] at hx
      exact Fs.isDir_of_append hx
  obtain ⟨aattrs, haattrs⟩ := Fs.isDir_iff.mp hadir
  -- the listing begins with the name that leads to the destination
  obtain ⟨names, hnames⟩ := Fs.exists_lists_cons haattrs
  have hopendir : os.opendir fs' src = some p := by
    rw [Caller.opendir, Caller.resolve_of_privileged hpriv hmax, hsrc']
    simp only [hgrows.isDir hpdir, Caller.may, hpriv, Bool.true_or, Bool.and_self, if_true]
  have hsrcPath : os.locate fs' true (join os src a.1) = .found (p ++ [a]) := by
    rw [join_eq hmax, Caller.locate_child hsrc' (hsym' _), walkName, hgrows.isDir hpdir]
    simp only [haattrs, Bool.and_self, if_true]
  have hstat' : os.stat fs' (join os src a.1) = some (.dir, aattrs.mode) :=
    Caller.stat_of_dir ((Caller.resolve_of_privileged hpriv hmax _ true _).trans hsrcPath) haattrs
  have hdstPath : os.locate fs' false (join os dst a.1) =
      walkName fs' (fun _ => true) (p ++ a :: r) a := by
    rw [join_eq hmax]
    exact Caller.locate_child ((Caller.locate_follow hsym' true false dst).trans hdst') (hsym' _) _
  have henter : stepFrame os ⟨fs, um, .cpDir src dst :: k, none⟩ k (.cpDir src dst) .result =
      some (⟨fs, um, .makeDst src dst attrs.mode :: k, none⟩, []) := by
    rw [stepFrame, hstat]
    rfl
  have hentry : (machine os fs₀ um₀ argv).runFrom
      ⟨fs', um, .openSrcDir src dst attrs.mode :: k, none⟩
      [.listing (a.1 :: names), .result, .result] = some (⟨fs', um,
        .cpDir (join os src a.1) (join os dst a.1) :: .readEntry src dst attrs.mode names :: k,
        none⟩, []) := by
    refine run_entry hopendir hnames fun k => ?_
    rw [stepFrame, hstat']
    rfl
  have hrun : (machine os fs₀ um₀ argv).runFrom ⟨fs, um, .cpDir src dst :: k, none⟩
      [.result, .result, .listing (a.1 :: names), .result, .result] = some (⟨fs', um,
        .cpDir (join os src a.1) (join os dst a.1) :: .readEntry src dst attrs.mode names :: k,
        none⟩, []) := by
    have hfrom := Machine.runFrom_cons_eq_some.mpr
      ⟨_, (machine_step (by simp)).trans hmake, _, hentry, rfl⟩
    exact Machine.runFrom_cons_eq_some.mpr ⟨_, (machine_step (by simp)).trans henter, _, hfrom, rfl⟩
  refine ⟨_, _, _, hrun, fs', _, _, _, p ++ [a], r ++ [a], rfl, hsym', hsrcPath, hadir, by simp,
    ?_, fun j x hx => isDir_of_grown hgrows htdir hway j hx⟩
  rw [hdstPath, walkName, htdir, Bool.true_and, if_pos rfl]
  split <;> simp [Target.place]

/-- **A destination below the source, and only directories in its way.** -/
theorem diverges (os : Os) (hpriv : os.privileged = true) (hmax : os.pathMax = none)
    (um : Mode) (cmd src dst : List UInt8) {p : Place} {r : List Name} (hsym : fs.NoSymlinks)
    (hsrc : os.locate fs true src = .found p)
    (hpdir : fs.isDir p = true) (hr : r ≠ [])
    (hdst : (os.locate fs false dst).place = some (p ++ r))
    (hway : ∀ j x, fs.node (p ++ unroll j r) = some x → x.isDir = true) :
    ¬ Returns os fs um [cmd, src, dst] (machine os fs um [cmd, src, dst]).init := by
  intro hreturns
  obtain ⟨attrs, hattrs⟩ := Fs.isDir_iff.mp hpdir
  have hstat : os.stat fs src = some (.dir, attrs.mode) :=
    Caller.stat_of_dir ((Caller.resolve_of_privileged hpriv hmax _ true _).trans hsrc) hattrs
  have hmain : stepFrame os ⟨fs, um, [.main [cmd, src, dst]], none⟩ [] (.main [cmd, src, dst])
      .result = some (⟨fs, um, [.cpDir src dst, .mainReturn], none⟩, []) := by
    rw [stepFrame, hstat]
    rfl
  have hrun : (machine os fs um [cmd, src, dst]).runFrom ⟨fs, um, [.main [cmd, src, dst]], none⟩
      [.result] = some (⟨fs, um, [.cpDir src dst, .mainReturn], none⟩, []) := by
    simp only [Machine.runFrom, machine_step, ne_eq, reduceCtorEq, not_false_eq_true, hmain,
      Option.bind_some, Option.map_some, List.append_nil]
  refine Machine.not_ensures_of_forever (R := Sinking os um) (fun st h => sinking_step hpriv hmax h)
    ?_ (hreturns.of_runFrom hrun)
  exact ⟨fs, _, src, dst, p, r, rfl, hsym, hsrc, hpdir, hr, hdst, hway⟩

end Diverges

/-! ### When it ends -/

/-- The destination `t` lies below the source `s`, and nothing but directories stands on the way
down along the names between them, over and over. -/
def Swallows (fs : Fs) (s t : Place) : Prop :=
  ∃ r, r ≠ [] ∧ t = s ++ r ∧ ∀ j x, fs.node (s ++ unroll j r) = some x → x.isDir = true

/-- **When `cpdr` returns.** For a directory in a tree without symbolic links, `cpdr` ends after
finitely many steps, whoever runs it, in whichever order the directories are listed and whatever
fails, exactly when the source does not swallow the destination. -/
theorem returns_iff (c : Caller) (hmax : c.pathMax = none) {fs : Fs} (hsym : fs.NoSymlinks)
    (um : Mode) (cmd : List UInt8) {src : List UInt8} (dst : List UInt8) {s : Place}
    (hsrc : c.locate fs true src = .found s) (hdir : fs.isDir s = true) :
    (∀ privileged faults, Returns ⟨{ c with privileged }, faults⟩ fs um [cmd, src, dst]
        (machine ⟨{ c with privileged }, faults⟩ fs um [cmd, src, dst]).init) ↔
      ¬ ∃ t, (c.locate fs false dst).place = some t ∧ Swallows fs s t := by
  constructor
  · rintro hall ⟨t, ht, r, hr, rfl, hway⟩
    exact diverges ⟨{ c with privileged := true }, false⟩ rfl hmax um cmd src dst hsym hsrc hdir hr
      ht hway (hall true false)
  · intro hno privileged faults
    have hend : ∀ fs', Returns ⟨{ c with privileged }, faults⟩ fs um [cmd, src, dst]
        ⟨fs', um, [.mainReturn], none⟩ := fun fs' => ensures_mainReturn rfl
    refine ensures_main (fun _ _ => rfl) (fun _ => rfl) (fun _ _ => ?_) fun i mode hstat => ?_
    · rcases hplace : (c.locate fs false dst).place with _ | t
      · refine returns_of_noDst ?_
        rcases hr : c.locate fs false dst with p | ⟨p, n, d⟩ | _
        · rw [hr] at hplace
          cases hplace
        · rw [hr] at hplace
          cases hplace
        · exact hr
      · have hdst : ∀ p, (c.locate fs false dst).place = some p → p = t := fun p hp =>
          Option.some.inj (hp.symm.trans hplace)
        by_cases hapart : Apart s t
        · exact returns_apart hmax hsym hapart hsrc hdst fun fs' _ => hend fs'
        · rw [Apart, not_or, not_le, not_not] at hapart
          obtain ⟨hlt, r, rfl⟩ := hapart
          have hr : r ≠ [] := by
            rintro rfl
            simp at hlt
          have hblock : ∃ j x, fs.node (s ++ unroll j r) = some x ∧ x.isDir = false := by
            by_contra hclear
            push Not at hclear
            refine hno ⟨s ++ r, hplace, r, hr, rfl, fun j x hx => ?_⟩
            simpa using hclear j x hx
          obtain ⟨j, hblock⟩ := hblock
          exact returns_blocked hmax j s r src dst fs _ hr hsym hsrc hdst hblock
            fun fs' _ => hend fs'
    · obtain ⟨p, x, hp, hx, hkind⟩ := Caller.found_of_stat hstat
      obtain rfl : p = s := by
        have hlocate := Caller.locate_of_resolve hp nofun
        exact Target.found.inj (hlocate.symm.trans hsrc)
      obtain ⟨a, ha⟩ := Fs.isDir_iff.mp hdir
      obtain rfl := Option.some.inj (hx.symm.trans ha)
      cases hkind

/-! ### A directory and what is in it -/

/-- The directory `/d`, which is empty. -/
def oneDir : Fs := (Fs.root ⟨0o755, .owner⟩).addDir [] ⟨ascii "d", isName_d⟩ ⟨0o755, .owner⟩

/-- A user in `/`, where paths may have any length. -/
def longPaths : Caller := ⟨false, [], none⟩

theorem isDir_of_oneDir {p : Place} {x : Node} (h : oneDir.node p = some x) : x.isDir = true := by
  have hnodes : oneDir.nodes = [([], .dir ⟨0o755, .owner⟩),
      ([⟨ascii "d", by decide⟩], .dir ⟨0o755, .owner⟩)] := rfl
  rw [Fs.node, hnodes, BoundedMap.find, BoundedMap.find, BoundedMap.find] at h
  split at h
  · cases h
    rfl
  · split at h <;> cases h
    rfl

theorem noSymlinks_oneDir : oneDir.NoSymlinks := fun _ _ h => nomatch isDir_of_oneDir h

/-- `cpdr d e` returns, whatever fails. -/
theorem returns_iff_newDir : Returns ⟨longPaths, true⟩ oneDir 0o022
    [ascii "cpdr", ascii "d", ascii "e"]
    (machine ⟨longPaths, true⟩ oneDir 0o022 [ascii "cpdr", ascii "d", ascii "e"]).init := by
  refine (returns_iff longPaths rfl noSymlinks_oneDir 0o022 (ascii "cpdr") (ascii "e")
    (s := [⟨ascii "d", by decide⟩]) (by decide) (by decide)).mpr ?_ false true
  rintro ⟨t, ht, r, -, rfl, -⟩
  have hplace : (longPaths.locate oneDir false (ascii "e")).place =
      some [⟨ascii "e", by decide⟩] := by decide
  rw [hplace] at ht
  obtain ⟨hname, -⟩ := List.cons.inj (Option.some.inj ht)
  exact absurd (congrArg Subtype.val hname) (by decide)

/-- `cpdr d d/x` does not. -/
theorem not_returns_into_itself :
    ¬ ∀ (c : Caller) (fs : Fs) (um : Mode) (cmd src dst : List UInt8) (s : Place) (faults : Bool),
      c.pathMax = none → fs.NoSymlinks → c.locate fs true src = .found s → fs.isDir s = true →
      Returns ⟨c, faults⟩ fs um [cmd, src, dst]
        (machine ⟨c, faults⟩ fs um [cmd, src, dst]).init := by
  intro hall
  refine diverges ⟨{ longPaths with privileged := true }, false⟩ rfl rfl 0o022 (ascii "cpdr")
    (ascii "d") (ascii "d/x") (p := [⟨ascii "d", by decide⟩]) (r := [⟨ascii "x", by decide⟩])
    noSymlinks_oneDir (by decide) (by decide) (by decide) (by decide)
    (fun j x hx => isDir_of_oneDir hx) ?_
  exact hall { longPaths with privileged := true } oneDir 0o022 (ascii "cpdr") (ascii "d")
    (ascii "d/x") [⟨ascii "d", by decide⟩] false rfl noSymlinks_oneDir (by decide) (by decide)

end Cpdr

end SystemProgramming
