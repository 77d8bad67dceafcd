import SystemProgramming.Cpdr.CpDir

/-!
# Rules for `cpdr`

One rule for each call of the program: what has to be ensured behind the call for every answer it
may get. The obligations for `exit(1)` are void where a call cannot fail.

## How the rules are used

`Ensures` is about all runs at once, so a rule has to say what is needed for every answer of the
kernel. For a call that looks at the file system this is one answer, or the failure; for `read` and
for a listing it is a whole family, and the rule quantifies over it. The stack below the current
frame is arbitrary in every rule, so that a rule for `cp_dir` can be used at any depth.

## Main results

* `ensures_cpDir`, ..., `ensures_leaveFile` — the rules
* `ensures_cpDir_of_stat`, ..., `ensures_openDst_of_openWrite` — the rules for calls that succeed
-/

namespace SystemProgramming

namespace Cpdr

variable {os : Os} {fs₀ fs : Fs} {um₀ um : Mode} {argv : List (List UInt8)} {P : State → Prop}
  {k : List Frame}

/-- From a state that is not the last one. -/
theorem ensures_frame {frame : Frame}
    (hcan : ∃ a, a ≠ .fault ∧ (stepFrame os ⟨fs, um, frame :: k, none⟩ k frame a).isSome)
    (hall : ∀ a s es, (a = .fault → os.faults = true) →
      stepFrame os ⟨fs, um, frame :: k, none⟩ k frame a = some (s, es) →
      (machine os fs₀ um₀ argv).Ensures P s) :
    (machine os fs₀ um₀ argv).Ensures P ⟨fs, um, frame :: k, none⟩ := by
  have hstep : ∀ a, (machine os fs₀ um₀ argv).step ⟨fs, um, frame :: k, none⟩ a =
      if a = .fault ∧ os.faults = false then none
      else stepFrame os ⟨fs, um, frame :: k, none⟩ k frame a := by
    intro a
    show step os _ a = _
    rw [step]
    simp
  refine .next ?_ ?_
  · obtain ⟨a, ha, hsome⟩ := hcan
    obtain ⟨p, hp⟩ := Option.isSome_iff_exists.mp hsome
    exact ⟨a, p, by rw [hstep, if_neg (fun h => ha h.1), hp]⟩
  · intro a s es h
    rw [hstep] at h
    obtain ⟨hno, h⟩ := Option.ite_none_left_eq_some.mp h
    exact hall a s es (fun ha => by simpa [ha] using hno) h

/-- From a state that is the last one. -/
theorem ensures_end {stack : List Frame} {code : ℕ} (h : P ⟨fs, um, stack, some code⟩) :
    (machine os fs₀ um₀ argv).Ensures P ⟨fs, um, stack, some code⟩ :=
  .stopped (fun _ => rfl) h

/-- A call that the file system answers, and that nothing else can answer but a failure. -/
theorem ensures_call {frame : Frame}
    (hresult : ∃ r, stepFrame os ⟨fs, um, frame :: k, none⟩ k frame .result = some r ∧
      (machine os fs₀ um₀ argv).Ensures P r.1)
    (hlisting : ∀ names, stepFrame os ⟨fs, um, frame :: k, none⟩ k frame (.listing names) = none)
    (hblock : ∀ n written,
      stepFrame os ⟨fs, um, frame :: k, none⟩ k frame (.block n written) = none)
    (hfault : ∀ r, os.faults = true →
      stepFrame os ⟨fs, um, frame :: k, none⟩ k frame .fault = some r →
      (machine os fs₀ um₀ argv).Ensures P r.1) :
    (machine os fs₀ um₀ argv).Ensures P ⟨fs, um, frame :: k, none⟩ := by
  obtain ⟨r, hr, hens⟩ := hresult
  refine ensures_frame ⟨.result, nofun, by rw [hr]; rfl⟩ fun a s es hfail hstep => ?_
  rcases a with _ | names | ⟨n, written⟩ | _
  · obtain rfl := Option.some.inj (hr.symm.trans hstep)
    exact hens
  · exact absurd ((hlisting names).symm.trans hstep) nofun
  · exact absurd ((hblock n written).symm.trans hstep) nofun
  · exact hfault (s, es) (hfail rfl) hstep

theorem ensures_mainReturn (h : P ⟨fs, um, k, some 0⟩) :
    (machine os fs₀ um₀ argv).Ensures P ⟨fs, um, .mainReturn :: k, none⟩ := by
  refine ensures_call ⟨_, rfl, ensures_end h⟩ (fun _ => rfl) (fun _ _ => rfl) fun r _ hstep => ?_
  cases hstep

theorem ensures_main {cmd src dst : List UInt8}
    (hexit : (∀ mode, os.stat fs src ≠ some (.dir, mode)) →
      (∀ i mode, os.stat fs src ≠ some (.file i, mode)) → P ⟨fs, um, [], some 1⟩)
    (hfault : os.faults = true → P ⟨fs, um, [], some 1⟩)
    (hdir : ∀ mode, os.stat fs src = some (.dir, mode) →
      (machine os fs₀ um₀ argv).Ensures P ⟨fs, um, .cpDir src dst :: .mainReturn :: k, none⟩)
    (hfile : ∀ i mode, os.stat fs src = some (.file i, mode) →
      (machine os fs₀ um₀ argv).Ensures P ⟨fs, um, .cpFile src dst :: .mainReturn :: k, none⟩) :
    (machine os fs₀ um₀ argv).Ensures P ⟨fs, um, .main [cmd, src, dst] :: k, none⟩ := by
  have hstat : ∃ r, mainStat ⟨fs, um, .main [cmd, src, dst] :: k, none⟩ src dst k
      (os.stat fs src) = some r ∧ (machine os fs₀ um₀ argv).Ensures P r.1 := by
    rcases hr : os.stat fs src with _ | ⟨_ | i | target | _, mode⟩
    · exact ⟨_, rfl, ensures_end (hexit (by simp [hr]) (by simp [hr]))⟩
    · exact ⟨_, rfl, hdir mode hr⟩
    · exact ⟨_, rfl, hfile i mode hr⟩
    · exact ⟨_, rfl, ensures_end (hexit (by simp [hr]) (by simp [hr]))⟩
    · exact ⟨_, rfl, ensures_end (hexit (by simp [hr]) (by simp [hr]))⟩
  refine ensures_call hstat (fun _ => rfl) (fun _ _ => rfl) fun r hfail hstep => ?_
  cases hstep
  exact ensures_end (hfault hfail)

theorem ensures_cpDir {src dst : List UInt8}
    (hexit : os.stat fs src = none ∨ os.faults = true → P ⟨fs, um, [], some 1⟩)
    (h : ∀ kind mode, os.stat fs src = some (kind, mode) →
      (machine os fs₀ um₀ argv).Ensures P ⟨fs, um, .makeDst src dst mode :: k, none⟩) :
    (machine os fs₀ um₀ argv).Ensures P ⟨fs, um, .cpDir src dst :: k, none⟩ := by
  have hresult : ∃ r, stepFrame os ⟨fs, um, .cpDir src dst :: k, none⟩ k (.cpDir src dst) .result =
      some r ∧ (machine os fs₀ um₀ argv).Ensures P r.1 := by
    rw [stepFrame]
    rcases hr : os.stat fs src with _ | ⟨kind, mode⟩
    · exact ⟨_, rfl, ensures_end (hexit (Or.inl hr))⟩
    · exact ⟨_, rfl, h kind mode hr⟩
  refine ensures_call hresult (fun _ => rfl) (fun _ _ => rfl) fun r hfail hstep => ?_
  cases hstep
  exact ensures_end (hexit (Or.inr hfail))

theorem ensures_makeDst {src dst : List UInt8} {mode : Mode}
    (hexit : os.mkdir fs dst (mode &&& ~~~um) = .failed ∨ os.faults = true →
      P ⟨fs, um, [], some 1⟩)
    (hmade : ∀ fs', os.mkdir fs dst (mode &&& ~~~um) = .made fs' →
      (machine os fs₀ um₀ argv).Ensures P ⟨fs', um, .openSrcDir src dst mode :: k, none⟩)
    (hexists : os.mkdir fs dst (mode &&& ~~~um) = .exists →
      (machine os fs₀ um₀ argv).Ensures P ⟨fs, um, .openSrcDir src dst mode :: k, none⟩) :
    (machine os fs₀ um₀ argv).Ensures P ⟨fs, um, .makeDst src dst mode :: k, none⟩ := by
  have hresult : ∃ r, stepFrame os ⟨fs, um, .makeDst src dst mode :: k, none⟩ k
      (.makeDst src dst mode) .result = some r ∧ (machine os fs₀ um₀ argv).Ensures P r.1 := by
    rw [stepFrame]
    rcases hr : os.mkdir fs dst (mode &&& ~~~um) with fs' | _ | _
    · exact ⟨_, rfl, hmade fs' hr⟩
    · exact ⟨_, rfl, hexists hr⟩
    · exact ⟨_, rfl, ensures_end (hexit (Or.inl hr))⟩
  refine ensures_call hresult (fun _ => rfl) (fun _ _ => rfl) fun r hfail hstep => ?_
  cases hstep
  exact ensures_end (hexit (Or.inr hfail))

theorem ensures_openSrcDir {src dst : List UInt8} {mode : Mode}
    (hexit : os.opendir fs src = none ∨ os.faults = true → P ⟨fs, um, [], some 1⟩)
    (h : ∀ p names, os.opendir fs src = some p → fs.Lists p names →
      (machine os fs₀ um₀ argv).Ensures P ⟨fs, um, .readEntry src dst mode names :: k, none⟩) :
    (machine os fs₀ um₀ argv).Ensures P ⟨fs, um, .openSrcDir src dst mode :: k, none⟩ := by
  refine ensures_frame ?_ fun a s es hfail hstep => ?_
  · rcases hp : os.opendir fs src with _ | p
    · exact ⟨.result, nofun, by rw [stepFrame, hp]; rfl⟩
    · refine ⟨.listing (ascii "." :: ascii ".." :: (fs.entries p).map Subtype.val), nofun, ?_⟩
      rw [stepFrame, hp]
      simp only [Fs.Lists, List.Perm.refl, if_true]
      rfl
  · rcases a with _ | names | _ | _
    · rw [stepFrame] at hstep
      rcases hp : os.opendir fs src with _ | p
      · rw [hp] at hstep
        cases hstep
        exact ensures_end (hexit (Or.inl hp))
      · rw [hp] at hstep
        cases hstep
    · rw [stepFrame] at hstep
      rcases hp : os.opendir fs src with _ | p
      · rw [hp] at hstep
        cases hstep
      · rw [hp] at hstep
        obtain ⟨hlists, hgo⟩ := Option.ite_none_right_eq_some.mp hstep
        cases hgo
        exact h p names hp hlists
    · cases hstep
    · cases hstep
      exact ensures_end (hexit (Or.inr (hfail rfl)))

theorem ensures_readEntry_nil {src dst : List UInt8} {mode : Mode}
    (h : (machine os fs₀ um₀ argv).Ensures P ⟨fs, um, .leaveDir dst mode :: k, none⟩) :
    (machine os fs₀ um₀ argv).Ensures P ⟨fs, um, .readEntry src dst mode [] :: k, none⟩ := by
  refine ensures_call ⟨_, rfl, h⟩ (fun _ => rfl) (fun _ _ => rfl) fun r _ hstep => ?_
  cases hstep
  exact h

theorem ensures_readEntry_cons {src dst name : List UInt8} {mode : Mode}
    {names : List (List UInt8)}
    (hfault : os.faults = true →
      (machine os fs₀ um₀ argv).Ensures P ⟨fs, um, .leaveDir dst mode :: k, none⟩)
    (hskip : name = ascii "." ∨ name = ascii ".." →
      (machine os fs₀ um₀ argv).Ensures P ⟨fs, um, .readEntry src dst mode names :: k, none⟩)
    (hentry : ¬ (name = ascii "." ∨ name = ascii "..") → (machine os fs₀ um₀ argv).Ensures P
      ⟨fs, um, .statEntry (join os src name) (join os dst name) ::
        .readEntry src dst mode names :: k, none⟩) :
    (machine os fs₀ um₀ argv).Ensures P
      ⟨fs, um, .readEntry src dst mode (name :: names) :: k, none⟩ := by
  have hresult : ∃ r, stepFrame os ⟨fs, um, .readEntry src dst mode (name :: names) :: k, none⟩ k
      (.readEntry src dst mode (name :: names)) .result = some r ∧
        (machine os fs₀ um₀ argv).Ensures P r.1 := by
    rw [stepFrame]
    by_cases hname : name = ascii "." ∨ name = ascii ".."
    · exact ⟨_, if_pos hname, hskip hname⟩
    · exact ⟨_, if_neg hname, hentry hname⟩
  refine ensures_call hresult (fun _ => rfl) (fun _ _ => rfl) fun r hfail hstep => ?_
  cases hstep
  exact hfault hfail

theorem ensures_statEntry {srcPath dstPath : List UInt8}
    (hskip : os.faults = true ∨ (∀ mode, os.stat fs srcPath ≠ some (.dir, mode)) ∧
        (∀ i mode, os.stat fs srcPath ≠ some (.file i, mode)) →
      (machine os fs₀ um₀ argv).Ensures P ⟨fs, um, k, none⟩)
    (hdir : ∀ mode, os.stat fs srcPath = some (.dir, mode) →
      (machine os fs₀ um₀ argv).Ensures P ⟨fs, um, .cpDir srcPath dstPath :: k, none⟩)
    (hfile : ∀ i mode, os.stat fs srcPath = some (.file i, mode) →
      (machine os fs₀ um₀ argv).Ensures P ⟨fs, um, .cpFile srcPath dstPath :: k, none⟩) :
    (machine os fs₀ um₀ argv).Ensures P ⟨fs, um, .statEntry srcPath dstPath :: k, none⟩ := by
  have hresult : ∃ r, entryStat ⟨fs, um, .statEntry srcPath dstPath :: k, none⟩ srcPath dstPath k
      (os.stat fs srcPath) = some r ∧ (machine os fs₀ um₀ argv).Ensures P r.1 := by
    rcases hr : os.stat fs srcPath with _ | ⟨_ | i | target | _, mode⟩
    · exact ⟨_, rfl, hskip (Or.inr ⟨by simp [hr], by simp [hr]⟩)⟩
    · exact ⟨_, rfl, hdir mode hr⟩
    · exact ⟨_, rfl, hfile i mode hr⟩
    · exact ⟨_, rfl, hskip (Or.inr ⟨by simp [hr], by simp [hr]⟩)⟩
    · exact ⟨_, rfl, hskip (Or.inr ⟨by simp [hr], by simp [hr]⟩)⟩
  refine ensures_call hresult (fun _ => rfl) (fun _ _ => rfl) fun r hfail hstep => ?_
  cases hstep
  exact hskip (Or.inl hfail)

theorem ensures_leaveDir {dst : List UInt8} {mode : Mode}
    (h : (machine os fs₀ um₀ argv).Ensures P ⟨os.chmod fs dst mode, um, k, none⟩)
    (hfault : os.faults = true → (machine os fs₀ um₀ argv).Ensures P ⟨fs, um, k, none⟩) :
    (machine os fs₀ um₀ argv).Ensures P ⟨fs, um, .leaveDir dst mode :: k, none⟩ := by
  refine ensures_call ⟨_, rfl, h⟩ (fun _ => rfl) (fun _ _ => rfl) fun r hfail hstep => ?_
  cases hstep
  exact hfault hfail

theorem ensures_leaveFile {dst : List UInt8} {mode : Mode}
    (h : (machine os fs₀ um₀ argv).Ensures P ⟨os.chmod fs dst mode, um, k, none⟩)
    (hfault : os.faults = true → (machine os fs₀ um₀ argv).Ensures P ⟨fs, um, k, none⟩) :
    (machine os fs₀ um₀ argv).Ensures P ⟨fs, um, .leaveFile dst mode :: k, none⟩ := by
  refine ensures_call ⟨_, rfl, h⟩ (fun _ => rfl) (fun _ _ => rfl) fun r hfail hstep => ?_
  cases hstep
  exact hfault hfail

theorem ensures_cpFile {src dst : List UInt8}
    (hexit : os.openRead fs src = none ∨ os.faults = true → P ⟨fs, um, [], some 1⟩)
    (h : ∀ inFd, os.openRead fs src = some inFd → (machine os fs₀ um₀ argv).Ensures P
      ⟨fs, um, .openDst src dst inFd (fs.inodes inFd).attrs.mode :: k, none⟩) :
    (machine os fs₀ um₀ argv).Ensures P ⟨fs, um, .cpFile src dst :: k, none⟩ := by
  have hresult : ∃ r, stepFrame os ⟨fs, um, .cpFile src dst :: k, none⟩ k (.cpFile src dst)
      .result = some r ∧ (machine os fs₀ um₀ argv).Ensures P r.1 := by
    rw [stepFrame]
    rcases hr : os.openRead fs src with _ | inFd
    · exact ⟨_, rfl, ensures_end (hexit (Or.inl hr))⟩
    · exact ⟨_, rfl, h inFd hr⟩
  refine ensures_call hresult (fun _ => rfl) (fun _ _ => rfl) fun r hfail hstep => ?_
  cases hstep
  exact ensures_end (hexit (Or.inr hfail))

theorem ensures_openDst {src dst : List UInt8} {inFd : ℕ} {mode : Mode}
    (hexit : os.openWrite fs dst mode = none ∨ os.faults = true → P ⟨fs, 0, [], some 1⟩)
    (h : ∀ fs' outFd, os.openWrite fs dst mode = some (fs', outFd) →
      (machine os fs₀ um₀ argv).Ensures P
        ⟨fs', um, .copying src dst inFd outFd 0 mode :: k, none⟩) :
    (machine os fs₀ um₀ argv).Ensures P ⟨fs, um, .openDst src dst inFd mode :: k, none⟩ := by
  have hresult : ∃ r, stepFrame os ⟨fs, um, .openDst src dst inFd mode :: k, none⟩ k
      (.openDst src dst inFd mode) .result = some r ∧
        (machine os fs₀ um₀ argv).Ensures P r.1 := by
    rw [stepFrame]
    rcases hr : os.openWrite fs dst mode with _ | ⟨fs', outFd⟩
    · exact ⟨_, rfl, ensures_end (hexit (Or.inl hr))⟩
    · exact ⟨_, rfl, h fs' outFd hr⟩
  refine ensures_call hresult (fun _ => rfl) (fun _ _ => rfl) fun r hfail hstep => ?_
  cases hstep
  exact ensures_end (hexit (Or.inr hfail))

/-- The loop of `cp_file`, with an invariant of the file system and of how much has been read. -/
theorem ensures_copying {src dst : List UInt8} {inFd : ℕ} {outFd : Option ℕ} {mode : Mode}
    (content : List UInt8) {I : Fs → ℕ → Prop}
    (hcontent : ∀ fs pos, I fs pos → (fs.inodes inFd).content = content)
    (hblock : ∀ fs pos n, I fs pos → 0 < n → pos + n ≤ content.length →
      I (append fs outFd ((content.drop pos).take n)) (pos + n))
    (hexit : os.faults = true → ∀ fs, P ⟨fs, um, [], some 1⟩)
    (hend : ∀ fs pos, I fs pos → content.length ≤ pos →
      (machine os fs₀ um₀ argv).Ensures P ⟨fs, um, .leaveFile dst mode :: k, none⟩)
    {pos : ℕ} (hI : I fs pos) : (machine os fs₀ um₀ argv).Ensures P
      ⟨fs, um, .copying src dst inFd outFd pos mode :: k, none⟩ := by
  induction hrest : content.length - pos using Nat.strong_induction_on generalizing fs pos with
  | _ rest ih =>
    have hc := hcontent fs pos hI
    refine ensures_frame ?_ fun a s es hfail hstep => ?_
    · by_cases hend' : content.length ≤ pos
      · exact ⟨.result, nofun, by rw [stepFrame, hc, if_pos hend']; rfl⟩
      · refine ⟨.block 1 1, nofun, ?_⟩
        simp only [stepFrame, hc]
        rw [if_pos ⟨Nat.one_pos, by decide, by omega, le_rfl⟩, if_pos trivial]
        rfl
    · rcases a with _ | _ | ⟨n, written⟩ | _
      · rw [stepFrame, hc] at hstep
        obtain ⟨hle, hgo⟩ := Option.ite_none_right_eq_some.mp hstep
        cases hgo
        exact hend fs pos hI hle
      · cases hstep
      · simp only [stepFrame, hc] at hstep
        obtain ⟨⟨hn, -, hle, hw⟩, hbody⟩ := Option.ite_none_right_eq_some.mp hstep
        split at hbody
        · rename_i heq
          subst heq
          cases hbody
          have hsize : ((content.drop pos).take written).length = written := by
            rw [List.length_take, List.length_drop]
            omega
          rw [List.take_of_length_le hsize.le]
          exact ih _ (by omega) (hblock fs pos written hI hn hle) rfl
        · obtain ⟨hfaults, hgo⟩ := Option.ite_none_right_eq_some.mp hbody
          cases hgo
          exact ensures_end (hexit hfaults _)
      · cases hstep
        exact ensures_end (hexit (hfail rfl) _)

/-! ### Calls that succeed -/

section Success

variable {src dst : List UInt8} {mode : Mode}

theorem ensures_cpDir_of_stat (hfaults : os.faults = false) {kind : Kind}
    (hstat : os.stat fs src = some (kind, mode))
    (h : (machine os fs₀ um₀ argv).Ensures P ⟨fs, um, .makeDst src dst mode :: k, none⟩) :
    (machine os fs₀ um₀ argv).Ensures P ⟨fs, um, .cpDir src dst :: k, none⟩ := by
  refine ensures_cpDir (fun hno => ?_) fun kind' mode' hstat' => ?_
  · rcases hno with hnone | hfault
    · exact absurd (hstat.symm.trans hnone) nofun
    · exact absurd (hfaults.symm.trans hfault) (by decide)
  · obtain ⟨rfl, rfl⟩ := Prod.mk.inj (Option.some.inj (hstat.symm.trans hstat'))
    exact h

theorem ensures_makeDst_of_made (hfaults : os.faults = false) {fs' : Fs}
    (hmade : os.mkdir fs dst (mode &&& ~~~um) = .made fs')
    (h : (machine os fs₀ um₀ argv).Ensures P ⟨fs', um, .openSrcDir src dst mode :: k, none⟩) :
    (machine os fs₀ um₀ argv).Ensures P ⟨fs, um, .makeDst src dst mode :: k, none⟩ := by
  refine ensures_makeDst (fun hno => ?_) (fun fs'' hmade' => ?_) fun hexists => ?_
  · rcases hno with hfailed | hfault
    · exact absurd (hmade.symm.trans hfailed) nofun
    · exact absurd (hfaults.symm.trans hfault) (by decide)
  · obtain rfl := MkdirResult.made.inj (hmade.symm.trans hmade')
    exact h
  · exact absurd (hmade.symm.trans hexists) nofun

theorem ensures_openSrcDir_of_opendir (hfaults : os.faults = false) {p : Place}
    (hopen : os.opendir fs src = some p)
    (h : ∀ names, fs.Lists p names →
      (machine os fs₀ um₀ argv).Ensures P ⟨fs, um, .readEntry src dst mode names :: k, none⟩) :
    (machine os fs₀ um₀ argv).Ensures P ⟨fs, um, .openSrcDir src dst mode :: k, none⟩ := by
  refine ensures_openSrcDir (fun hno => ?_) fun p' names hopen' hlists => ?_
  · rcases hno with hnone | hfault
    · exact absurd (hopen.symm.trans hnone) nofun
    · exact absurd (hfaults.symm.trans hfault) (by decide)
  · obtain rfl := Option.some.inj (hopen.symm.trans hopen')
    exact h names hlists

theorem ensures_cpFile_of_openRead (hfaults : os.faults = false) {inFd : ℕ}
    (hopen : os.openRead fs src = some inFd)
    (h : (machine os fs₀ um₀ argv).Ensures P
      ⟨fs, um, .openDst src dst inFd (fs.inodes inFd).attrs.mode :: k, none⟩) :
    (machine os fs₀ um₀ argv).Ensures P ⟨fs, um, .cpFile src dst :: k, none⟩ := by
  refine ensures_cpFile (fun hno => ?_) fun inFd' hopen' => ?_
  · rcases hno with hnone | hfault
    · exact absurd (hopen.symm.trans hnone) nofun
    · exact absurd (hfaults.symm.trans hfault) (by decide)
  · obtain rfl := Option.some.inj (hopen.symm.trans hopen')
    exact h

theorem ensures_openDst_of_openWrite (hfaults : os.faults = false) {inFd : ℕ} {fs' : Fs}
    {outFd : Option ℕ} (hopen : os.openWrite fs dst mode = some (fs', outFd))
    (h : (machine os fs₀ um₀ argv).Ensures P
      ⟨fs', um, .copying src dst inFd outFd 0 mode :: k, none⟩) :
    (machine os fs₀ um₀ argv).Ensures P ⟨fs, um, .openDst src dst inFd mode :: k, none⟩ := by
  refine ensures_openDst (fun hno => ?_) fun fs'' outFd' hopen' => ?_
  · rcases hno with hnone | hfault
    · exact absurd (hopen.symm.trans hnone) nofun
    · exact absurd (hfaults.symm.trans hfault) (by decide)
  · obtain ⟨rfl, rfl⟩ := Prod.mk.inj (Option.some.inj (hopen.symm.trans hopen'))
    exact h

end Success

end Cpdr

end SystemProgramming
