import SystemProgramming.Cp2.Copy

/-!
# The destination of `cp2`, when nothing is copied

`creat` empties the destination before the first `read`, so whatever fails from then on comes too
late. A directory can be opened for reading, and only `read` fails.

## How it goes

Up to `creat` nothing has been written, and behind it the destination is empty or has a beginning of
the source. So whether the destination is as it was is settled by one call, and the equivalence is
about which calls can still fail before and after it.

## Main definitions

* `Emptied` — the destination, behind `creat`
* `Stage` — what has become of the destination at each line

## Main results

* `Stage.call` — a call keeps it
* `untouched_iff` — when the destination is as it was, although nothing has been read
-/

namespace SystemProgramming

namespace Cp2

variable {os : Os} {fs₀ fs : Fs} {src dst : List UInt8} {s s' : State} {a : Answer}
  {es es' : List Event}

/-- `creat` has not succeeded, and nothing has been changed. -/
def Untouched (fs₀ : Fs) (es : List Event) (fs : Fs) : Prop := .created ∉ es ∧ fs = fs₀

/-- `creat` has succeeded. As long as nothing has been read, the destination is empty, if it is a
regular file. -/
structure Emptied (os : Os) (fs₀ : Fs) (dst : List UInt8) (es : List Event) (fs : Fs) : Prop where
  created : .created ∈ es
  contents_eq : (∀ bytes, .delivered bytes ∉ es) →
    os.contents fs dst = (os.contents fs₀ dst).map fun _ => []

/-- What has become of the destination when `cp2` has come to a line. -/
def Stage (os : Os) (fs₀ : Fs) (dst : List UInt8) (es : List Event) (s : State) : Prop :=
  match s.line with
  | .statSrc => Untouched fs₀ es s.fs
  | .statDst _ => Untouched fs₀ es s.fs
  | .openSrc => Untouched fs₀ es s.fs
  | .creatDst _ => Untouched fs₀ es s.fs
  | .read _ => Emptied os fs₀ dst es s.fs
  | .write _ _ => .created ∈ es ∧ ∃ bytes, .delivered bytes ∈ es
  | .closeIn => Emptied os fs₀ dst es s.fs
  | .closeOut => Emptied os fs₀ dst es s.fs
  | .exited _ => Untouched fs₀ es s.fs ∨ Emptied os fs₀ dst es s.fs

theorem Emptied.append (h : Emptied os fs₀ dst es fs) (es' : List Event) :
    Emptied os fs₀ dst (es ++ es') fs := by
  refine ⟨List.mem_append_left _ h.created, fun hnone => h.contents_eq ?_⟩
  intro bytes hmem
  exact hnone bytes (List.mem_append_left _ hmem)

/-- Once something has been read, nothing is said of the destination. -/
theorem emptied_of_delivered {bytes : List UInt8} (hcreated : .created ∈ es)
    (h : .delivered bytes ∈ es) : Emptied os fs₀ dst es fs :=
  ⟨hcreated, fun hnone => absurd h (hnone bytes)⟩

theorem stage_exited (h : Untouched fs₀ es fs ∨ Emptied os fs₀ dst es fs) {events : List Event}
    (hevents : .created ∉ events) : Stage os fs₀ dst (es ++ events) ⟨fs, .exited 1⟩ := by
  rcases h with ⟨hcreated, hfs⟩ | hemptied
  · refine Or.inl ⟨?_, hfs⟩
    rw [List.mem_append, not_or]
    exact ⟨hcreated, hevents⟩
  · exact Or.inr (hemptied.append _)

/-- At every line but the last one it is one or the other. -/
theorem Stage.untouched_or_emptied {line : Line} (h : Stage os fs₀ dst es ⟨fs, line⟩) :
    Untouched fs₀ es fs ∨ Emptied os fs₀ dst es fs := by
  cases line with
  | statSrc => exact Or.inl h
  | statDst stSrc => exact Or.inl h
  | openSrc => exact Or.inl h
  | creatDst inFd => exact Or.inl h
  | read fds => exact Or.inr h
  | write fds bytes =>
    obtain ⟨hcreated, read, hread⟩ := h
    exact Or.inr (emptied_of_delivered hcreated hread)
  | closeIn => exact Or.inr h
  | closeOut => exact Or.inr h
  | exited status => exact h

/-- A destination that exists is emptied, if it is a regular file. -/
theorem emptied_creat (hdst : (os.stat fs₀ dst).isSome) {outFd : Option ℕ}
    (h : os.creat fs₀ dst = some (fs, outFd)) :
    os.contents fs dst = (os.contents fs₀ dst).map fun _ => [] := by
  rcases Os.creat_cases h with ⟨j, hj, -, rfl⟩ | ⟨p, hp, -, rfl⟩ | ⟨hnone, -, -, -⟩
  · rw [Os.contents_file hj, Os.contents_file (Os.stat_of_node_eq (Fs.node_setInode _ _ _) hj),
      Fs.inodes_setInode_self]
    rfl
  · rw [Os.contents, hp]
    rfl
  · rw [hnone] at hdst
    cases hdst

/-- **A call** keeps what is said of the destination. -/
theorem Stage.call (hdst : (os.stat fs₀ dst).isSome) (h : Stage os fs₀ dst es s)
    (hcall : Call os src dst s s' es') : Stage os fs₀ dst (es ++ es') s' := by
  cases hcall with
  | statSrc _ =>
    rw [List.append_nil]
    exact h
  | statDst _ =>
    rw [List.append_nil]
    exact h
  | openSrc _ =>
    rw [List.append_nil]
    exact h
  | creatDst hcreat =>
    obtain ⟨-, rfl⟩ := h
    refine ⟨?_, fun _ => emptied_creat hdst hcreat⟩
    exact List.mem_append_right _ (List.mem_singleton.mpr rfl)
  | @read fs fds bytes _ _ _ =>
    have hemptied : Emptied os fs₀ dst es fs := h
    refine ⟨List.mem_append_left _ hemptied.created, bytes, ?_⟩
    exact List.mem_append_right _ (List.mem_singleton.mpr rfl)
  | endOfFile _ => exact Emptied.append h []
  | write fs fds bytes =>
    obtain ⟨hcreated, read, hread⟩ := h
    rw [List.append_nil]
    exact emptied_of_delivered hcreated hread
  | shortWrite fs fds _ hevents =>
    obtain ⟨hcreated, read, hread⟩ := h
    exact stage_exited (Or.inr (emptied_of_delivered hcreated hread)) hevents
  | closeIn fs => exact Emptied.append h []
  | closeOut fs => exact Or.inr (Emptied.append h [])
  | giveUp fs _ hevents => exact stage_exited h.untouched_or_emptied hevents

/-- **The destination is as it was**, when `cp2` has ended and nothing has been read, exactly if
`creat` has not succeeded, or if there was nothing to be lost. -/
theorem untouched_iff (hdst : (os.stat fs₀ dst).isSome) {name : List UInt8} {as : List Answer}
    (h : (machine os fs₀ [name, src, dst]).run as = some (s, es)) {status : ℕ}
    (hexit : s.line = .exited status) (hnone : ∀ bytes, .delivered bytes ∉ es) :
    os.contents s.fs dst = os.contents fs₀ dst ↔
      .created ∉ es ∨ os.contents fs₀ dst = none ∨ os.contents fs₀ dst = some [] := by
  have hstage : Stage os fs₀ dst es s := by
    refine Machine.run_invariant (M := machine os fs₀ [name, src, dst]) (I := Stage os fs₀ dst)
      ⟨List.not_mem_nil, rfl⟩ ?_ h
    intro es s a s' es' hs hstep
    exact hs.call hdst (call_of_step hstep)
  obtain ⟨fs, line⟩ := s
  obtain rfl : line = .exited status := hexit
  rcases hstage with ⟨hcreated, rfl⟩ | hemptied
  · exact iff_of_true rfl (Or.inl hcreated)
  · rw [hemptied.contents_eq hnone]
    cases hbefore : os.contents fs₀ dst with
    | none => exact iff_of_true rfl (Or.inr (Or.inl rfl))
    | some content =>
      constructor
      · intro hsame
        exact Or.inr (Or.inr (congrArg some (Option.some.inj hsame).symm))
      · rintro (hcreated | hnothing | hempty)
        · exact absurd hemptied.created hcreated
        · cases hnothing
        · exact hempty.symm

/-- The file `/f`, which contains `x`, and the directory `/d`. -/
def fileAndDir : Fs := oneFile.addDir [] ⟨ascii "d", Cpdr.isName_d⟩ ⟨0o755, .owner⟩

/-- `cp2 d f`, where `creat` fails. -/
theorem untouched_without_creat : ∃ s es,
    (machine rootOs fileAndDir [ascii "cp2", ascii "d", ascii "f"]).run [.ok, .ok, .ok, .fails] =
        some (s, es) ∧
      rootOs.contents s.fs (ascii "f") = rootOs.contents fileAndDir (ascii "f") := by
  have hrun : ((machine rootOs fileAndDir [ascii "cp2", ascii "d", ascii "f"]).run
      [.ok, .ok, .ok, .fails]).map (fun r => (r.1.line, r.2)) = some (.exited 1,
        [.stderr (ascii "Error: :Cannnot creat "), .perror (ascii "f")]) := rfl
  obtain ⟨⟨s, es⟩, hrun, heq⟩ := Option.map_eq_some_iff.mp hrun
  obtain ⟨hexit, rfl⟩ := Prod.mk.inj heq
  exact ⟨s, _, hrun, (untouched_iff rfl hrun hexit (by simp)).mpr (Or.inl (by simp))⟩

/-- `cp2 d f`: the directory cannot be read, and the file is empty. -/
theorem directory_empties_destination : ¬ ∀ (os : Os) (fs : Fs) (name src dst : List UInt8)
    (as : List Answer) (s : State) (es : List Event) (status : ℕ),
    (os.stat fs dst).isSome → os.stat fs src ≠ os.stat fs dst →
      (machine os fs [name, src, dst]).run as = some (s, es) → s.line = .exited status →
        status ≠ 0 → (∀ bytes, .delivered bytes ∉ es) →
          os.contents s.fs dst = os.contents fs dst := by
  intro hclaim
  have hrun : ((machine rootOs fileAndDir [ascii "cp2", ascii "d", ascii "f"]).run
      [.ok, .ok, .ok, .ok, .fails]).map
      (fun r => (r.1.line, r.2, rootOs.contents r.1.fs (ascii "f"))) = some (.exited 1,
        [.created, .stderr (ascii "Error: :Read error from  "), .perror (ascii "d")],
        some []) := rfl
  obtain ⟨⟨s, es⟩, hrun, heq⟩ := Option.map_eq_some_iff.mp hrun
  obtain ⟨hexit, hrest⟩ := Prod.mk.inj heq
  obtain ⟨rfl, hempty⟩ := Prod.mk.inj hrest
  have hsame := hclaim rootOs fileAndDir (ascii "cp2") (ascii "d") (ascii "f") _ s _ 1 rfl
    (by decide) hrun hexit Nat.one_ne_zero (by simp)
  have hbefore : rootOs.contents fileAndDir (ascii "f") = some (ascii "x") := rfl
  rw [hempty, hbefore] at hsame
  exact absurd hsame (by decide)

end Cp2

end SystemProgramming
