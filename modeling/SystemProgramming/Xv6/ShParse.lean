import SystemProgramming.Xv6.ShTokens

/-!
# The parser follows the grammar

Whatever the parser accepts is derived by the grammar, and whatever the grammar derives is
accepted, with the command that it means. `Meets` is the first half: it says what a call has
found if it returns, and excludes that the bound for the depth of the calls is reached. The second
half is by induction over the derivation; a phrase is read to its end if what follows it cannot be
taken for a part of it.

## Reading as much as possible

The grammar allows a redirection to stand before, between and behind the words of a command, and the
parser reads them where it finds them. A text may be derived in more than one way where something is
optional; the parser takes what it can, and the results say that no other derivation of the whole
line gives another command. The fuel, `fuelFor`, is linear in the length of the line: between two
calls that consume nothing there are only so many others.

## The depth of the calls

The four functions call each other, and `parseblock` calls the first of them again, behind a
parenthesis. Every cycle of calls takes a token, and between two tokens there are at most four
levels. So a bound of four for each token, and a few for the levels at the end, is enough
(`Sound`); tokens are not longer than the line that they are cut from. The bound is an artefact of
the translation, and that it is never reached is a part of the result: `Meets` does not hold of
`outOfFuel`.

## Main definitions

* `Meets`, `Found`, `Sound` — what a call of the parser guarantees
* `Follows`, `Complete` — what can stand behind a phrase, and that it is read to its end

## Main results

* `sound` — what is accepted is derived
* `parse_of_derives` — what is derived is accepted
-/

namespace SystemProgramming

namespace Xv6

namespace Sh

variable {line s : List UInt8} {t : Token} {ts : List Token}

/-- The call does not run out of fuel, and what it returns has the property. -/
def Meets (P : Cmd Span → List UInt8 → Prop) : Parse → Prop
  | .ok r => P r.1 r.2
  | .error (.panic _) => True
  | .error .outOfFuel => False

theorem Meets.bind {P Q : Cmd Span → List UInt8 → Prop} {x : Parse}
    {f : Cmd Span × List UInt8 → Parse} (h : Meets P x) (hf : ∀ c s, P c s → Meets Q (f (c, s))) :
    Meets Q (x >>= f) := by
  rcases x with (e | _) | ⟨c, s⟩
  · trivial
  · exact h
  · exact hf c s h

theorem Meets.mono {P Q : Cmd Span → List UInt8 → Prop} {x : Parse} (h : Meets P x)
    (hPQ : ∀ c s, P c s → Q c s) : Meets Q x := by
  rcases x with (e | _) | ⟨c, s⟩
  · trivial
  · exact h
  · exact hPQ c s h

/-! ### Words -/

theorem map_backs {W V : Type} (f : W → V) : ∀ (n : ℕ) (c : Cmd W),
    (backs n c).map f = backs n (c.map f)
  | 0, _ => rfl
  | n + 1, c => map_backs f n (.back c)

theorem words_backs {W : Type} : ∀ (n : ℕ) (c : Cmd W), (backs n c).words = c.words
  | 0, _ => rfl
  | n + 1, c => words_backs n (.back c)

theorem code_eq_iff : t.code = 97 ↔ ∃ w, t = .word w := by
  cases t with
  | word w => exact ⟨fun _ => ⟨w, rfl⟩, fun _ => rfl⟩
  | _ => exact ⟨fun h => absurd h (by decide), fun ⟨_, h⟩ => by cases h⟩

theorem code_ne_zero : t.code ≠ 0 := by
  cases t with
  | word w => exact show (97 : UInt8) ≠ 0 by decide
  | _ => decide

/-- The words of the command are delimited by its pointers. -/
def AllCounted (line : List UInt8) (c : Cmd Span) : Prop := ∀ w ∈ c.words, Counted line w

theorem redircmd_eq (c : Cmd Span) (file : Span) : ∀ mode : Redirection,
    redircmd c file (operator mode).code = .redir c file mode
  | .input => rfl
  | .output => rfl
  | .append => rfl

theorem isOneOf_redir_iff : t.isOneOf (ascii "<>") = true ↔ ∃ mode, t = operator mode := by
  cases t with
  | lt => exact ⟨fun _ => ⟨.input, rfl⟩, fun _ => by decide⟩
  | gt => exact ⟨fun _ => ⟨.output, rfl⟩, fun _ => by decide⟩
  | gtgt => exact ⟨fun _ => ⟨.append, rfl⟩, fun _ => by decide⟩
  | word w =>
    exact ⟨fun h => absurd h Bool.false_ne_true, fun ⟨mode, h⟩ => by cases mode <;> cases h⟩
  | _ => exact ⟨fun h => absurd h (by decide), fun ⟨mode, h⟩ => by cases mode <;> cases h⟩

theorem isOneOf_text_iff {t' : Token} (h : t' ∈ [Token.bar, .amp, .semi, .lpar, .rpar]) :
    t.isOneOf t'.text = true ↔ t = t' := by
  simp only [List.mem_cons, List.not_mem_nil, or_false] at h
  rcases h with rfl | rfl | rfl | rfl | rfl <;> cases t <;>
    simp [Token.isOneOf, Token.first, Token.text, ascii]

/-- Looking for the end of a simple command. -/
theorem isOneOf_end_iff :
    t.isOneOf (ascii "|)&;") = true ↔ t ∈ [Token.bar, .rpar, .amp, .semi] := by
  cases t <;> simp [Token.isOneOf, Token.first, Token.text, ascii]

/-! ### What is accepted -/

theorem peek_text_iff (t' : Token) (ht' : t' ∈ [Token.bar, .amp, .semi, .lpar, .rpar])
    (h : Rest line ts s) : (peek s t'.text).1 = true ↔ ts.head? = some t' := by
  cases ts with
  | nil => simp [peek_nil _ h]
  | cons t ts =>
    have hsub : t'.text ⊆ symbols := by
      simp only [List.mem_cons, List.not_mem_nil, or_false] at ht'
      rcases ht' with rfl | rfl | rfl | rfl | rfl <;> decide
    rw [peek_cons hsub h, isOneOf_text_iff ht', List.head?_cons, Option.some_inj]

theorem peek_text (t' : Token) (ht' : t' ∈ [Token.bar, .amp, .semi, .lpar, .rpar])
    (h : Rest line ts s) :
    Rest line ts (peek s t'.text).2 ∧
      ((peek s t'.text).1 = true → ∃ ts', ts = t' :: ts' ∧
        Rest line ts' (gettoken (peek s t'.text).2).ps) := by
  refine ⟨peek_snd _ h, fun htrue => ?_⟩
  obtain ⟨ts', rfl⟩ := List.head?_eq_some_iff.mp ((peek_text_iff t' ht' h).mp htrue)
  exact ⟨ts', rfl, gettoken_ps (peek_snd _ h)⟩

theorem peek_redir_iff (h : Rest line ts s) :
    (peek s (ascii "<>")).1 = true ↔ ∃ mode, ts.head? = some (operator mode) := by
  cases ts with
  | nil => simp [peek_nil _ h]
  | cons t ts =>
    rw [peek_cons (by decide) h, isOneOf_redir_iff, List.head?_cons]
    exact exists_congr fun mode => Option.some_inj.symm

theorem peek_redir (h : Rest line ts s) :
    Rest line ts (peek s (ascii "<>")).2 ∧
      ((peek s (ascii "<>")).1 = true → ∃ mode ts', ts = operator mode :: ts' ∧
        (gettoken (peek s (ascii "<>")).2).ret = (operator mode).code ∧
        Rest line ts' (gettoken (peek s (ascii "<>")).2).ps) := by
  refine ⟨peek_snd _ h, fun htrue => ?_⟩
  obtain ⟨mode, hmode⟩ := (peek_redir_iff h).mp htrue
  obtain ⟨ts', rfl⟩ := List.head?_eq_some_iff.mp hmode
  exact ⟨mode, ts', rfl, gettoken_ret (peek_snd _ h), gettoken_ps (peek_snd _ h)⟩

/-- A token that `gettoken` calls `'a'` is a word. -/
theorem gettoken_of_ret (h : Rest line ts s) (hret : (gettoken s).ret = 97) :
    ∃ w ts', ts = .word w :: ts' ∧ (gettoken s).span.word = w ∧ Counted line (gettoken s).span ∧
      Rest line ts' (gettoken s).ps := by
  cases ts with
  | nil =>
    rw [(gettoken_nil h).1] at hret
    exact absurd hret (by decide)
  | cons t ts =>
    rw [gettoken_ret h] at hret
    obtain ⟨w, rfl⟩ := code_eq_iff.mp hret
    obtain ⟨hword, hcounted⟩ := gettoken_word h
    exact ⟨w, ts, rfl, hword, hcounted, gettoken_ps h⟩

theorem parseamps_meets : ∀ {fuel : ℕ} {c : Cmd Span} {ts : List Token} {s : List UInt8},
    ts.length < fuel → Rest line ts s →
      Meets (fun c' s' => ∃ n ts', ts = List.replicate n .amp ++ ts' ∧ Rest line ts' s' ∧
        c' = backs n c) (parseamps fuel c s)
  | fuel + 1, c, ts, s, hfuel, h => by
    obtain ⟨hrest, hamp⟩ := peek_text .amp (by simp) h
    rw [parseamps]
    split
    · rename_i htrue
      obtain ⟨ts', rfl, hrest'⟩ := hamp htrue
      rw [List.length_cons] at hfuel
      refine (parseamps_meets (Nat.lt_of_succ_lt_succ hfuel) hrest').mono ?_
      rintro c' s' ⟨n, ts'', rfl, hs', rfl⟩
      exact ⟨n + 1, ts'', rfl, hs', rfl⟩
    · exact ⟨0, ts, rfl, hrest, rfl⟩

theorem parseredirs_meets : ∀ {fuel : ℕ} {c : Cmd Span} {ts : List Token} {s : List UInt8},
    ts.length < fuel → Rest line ts s → AllCounted line c →
      Meets (fun c' s' => ∃ rs ts', ts = redirTokens rs ++ ts' ∧ Rest line ts' s' ∧
        AllCounted line c' ∧ c'.map Span.word = redirected (c.map Span.word) rs)
        (parseredirs fuel c s)
  | fuel + 1, c, ts, s, hfuel, h, hc => by
    obtain ⟨hrest, hredir⟩ := peek_redir h
    rw [parseredirs]
    split
    · rename_i htrue
      obtain ⟨mode, ts', rfl, hret, hrest'⟩ := hredir htrue
      dsimp only
      split
      · trivial
      · rename_i hword
        obtain ⟨w, ts'', rfl, rfl, hcounted, hrest''⟩ := gettoken_of_ret hrest' (not_not.mp hword)
        rw [hret, redircmd_eq]
        rw [List.length_cons, List.length_cons] at hfuel
        refine (parseredirs_meets (by omega) hrest'' ?_).mono ?_
        · intro w hw
          rcases List.mem_append.mp hw with hw | hw
          · exact hc w hw
          · rwa [List.mem_singleton.mp hw]
        · rintro c' s' ⟨rs, ts₃, rfl, hs', hc', hmap⟩
          exact ⟨(_, mode) :: rs, ts₃, rfl, hs', hc', hmap⟩
    · exact ⟨[], ts, rfl, hrest, hc, rfl⟩

theorem parseargs_meets : ∀ {fuel : ℕ} {ret : Cmd Span} {argc : ℕ} {ts : List Token}
    {s : List UInt8} {argv : List (List UInt8)} {rs : List (List UInt8 × Redirection)},
    ts.length < fuel → Rest line ts s → AllCounted line ret → argc < maxArgs →
      ret.map Span.word = redirected (.exec argv) rs →
      Meets (fun c' s' => ∃ parts ts', ts = partTokens parts ++ ts' ∧ Rest line ts' s' ∧
        AllCounted line c' ∧ argc + (args parts).length < maxArgs ∧
        c'.map Span.word = redirected (.exec (argv ++ args parts)) (rs ++ redirs parts))
        (parseargs fuel ret argc s)
  | fuel + 1, ret, argc, ts, s, argv, rs, hfuel, h, hret, hargc, hmap => by
    have hpeek := peek_snd (ascii "|)&;") h
    have hdone : ∀ s', Rest line ts s' → ∃ parts ts', ts = partTokens parts ++ ts' ∧
        Rest line ts' s' ∧ AllCounted line ret ∧ argc + (args parts).length < maxArgs ∧
        ret.map Span.word = redirected (.exec (argv ++ args parts)) (rs ++ redirs parts) :=
      fun s' hs' => ⟨[], ts, rfl, hs', hret, hargc, by
        rw [hmap, args, redirs, List.append_nil, List.append_nil]⟩
    rw [parseargs]
    split
    · exact hdone _ hpeek
    · dsimp only
      split
      · rename_i hzero
        cases ts with
        | nil => exact hdone _ (gettoken_nil hpeek).2
        | cons t ts =>
          rw [gettoken_ret hpeek] at hzero
          exact absurd hzero code_ne_zero
      · split
        · trivial
        · rename_i hword
          split
          · trivial
          · rename_i hmax
            obtain ⟨w, ts', rfl, hw, hcounted, hrest⟩ := gettoken_of_ret hpeek (not_not.mp hword)
            rw [List.length_cons] at hfuel
            refine (parseredirs_meets (c := ret.addArg _) (by omega) hrest ?_).bind ?_
            · intro v hv
              rcases Cmd.mem_words_addArg hv with hv | rfl
              · exact hret v hv
              · exact hcounted
            · rintro c₁ s₁ ⟨rs₁, ts₁, rfl, hs₁, hc₁, hmap₁⟩
              rw [Cmd.map_addArg, hmap, hw, addArg_redirected, Cmd.addArg,
                ← redirected_append] at hmap₁
              rw [List.length_append] at hfuel
              refine (parseargs_meets (by omega) hs₁ hc₁ (by omega) hmap₁).mono ?_
              rintro c₂ s₂ ⟨parts, ts₂, rfl, hs₂, hc₂, hargs, hmap₂⟩
              refine ⟨.arg w :: (ofRedirs rs₁ ++ parts), ts₂, ?_, hs₂, hc₂, ?_, ?_⟩
              · rw [partTokens, partTokens_ofRedirs_append, List.cons_append, List.append_assoc]
              · rw [args, args_ofRedirs_append, List.length_cons]
                omega
              · rw [hmap₂, args, args_ofRedirs_append, redirs, redirs_ofRedirs_append,
                  List.append_assoc, List.append_assoc, List.singleton_append]

/-- What a call for a phrase has found. -/
def Found (line : List UInt8) (ph : Phrase) (ts : List Token) (c : Cmd Span) (s : List UInt8) :
    Prop :=
  ∃ ts₁ ts₂, ts = ts₁ ++ ts₂ ∧ Rest line ts₂ s ∧ AllCounted line c ∧
    Derives ph ts₁ (c.map Span.word)

/-- What is guaranteed for calls of a depth: the bound is never reached, since every token is read
at no more than four levels of calls. -/
structure Sound (line : List UInt8) (fuel : ℕ) : Prop where
  ofLine : ∀ {ts s}, Rest line ts s → 4 * ts.length + 3 < fuel →
    Meets (Found line .line ts) (parseline fuel s)
  ofPipe : ∀ {ts s}, Rest line ts s → 4 * ts.length + 2 < fuel →
    Meets (Found line .pipe ts) (parsepipe fuel s)
  ofExec : ∀ {ts s}, Rest line ts s → 4 * ts.length + 1 < fuel →
    Meets (Found line .exec ts) (parseexec fuel s)
  ofBlock : ∀ {ts s}, Rest line ts s → ts ≠ [] → 4 * ts.length < fuel →
    Meets (Found line .exec ts) (parseblock fuel s)

variable {fuel : ℕ}

theorem Sound.parseline (ih : Sound line fuel) (h : Rest line ts s)
    (hfuel : 4 * ts.length + 3 < fuel + 1) :
    Meets (Found line .line ts) (parseline (fuel + 1) s) := by
  rw [Sh.parseline]
  refine (ih.ofPipe h (by omega)).bind ?_
  rintro c₁ s₁ ⟨ts₁, ts', rfl, hs₁, hc₁, hd₁⟩
  rw [List.length_append] at hfuel
  refine (parseamps_meets (by omega) hs₁).bind ?_
  rintro c₂ s₂ ⟨n, ts₂, rfl, hs₂, rfl⟩
  rw [List.length_append] at hfuel
  obtain ⟨hrest, hsemi⟩ := peek_text .semi (by simp) hs₂
  have hwords : AllCounted line (backs n c₁) := fun w hw => hc₁ w (words_backs n c₁ ▸ hw)
  dsimp only
  split
  · rename_i htrue
    obtain ⟨ts₃, rfl, hs₃⟩ := hsemi htrue
    rw [List.length_cons] at hfuel
    refine (ih.ofLine hs₃ (by omega)).bind ?_
    rintro c₄ s₄ ⟨ts₄, ts₅, rfl, hs₅, hc₄, hd₄⟩
    refine ⟨ts₁ ++ List.replicate n .amp ++ .semi :: ts₄, ts₅, by simp, hs₅, ?_, ?_⟩
    · intro w hw
      exact (List.mem_append.mp hw).elim (hwords w) (hc₄ w)
    · rw [Cmd.map, map_backs]
      exact .list n hd₁ hd₄
  · refine ⟨ts₁ ++ List.replicate n .amp, ts₂, by simp, hrest, hwords, ?_⟩
    rw [map_backs]
    exact .back n hd₁

theorem Sound.parsepipe (ih : Sound line fuel) (h : Rest line ts s)
    (hfuel : 4 * ts.length + 2 < fuel + 1) :
    Meets (Found line .pipe ts) (parsepipe (fuel + 1) s) := by
  rw [Sh.parsepipe]
  refine (ih.ofExec h (by omega)).bind ?_
  rintro c₁ s₁ ⟨ts₁, ts', rfl, hs₁, hc₁, hd₁⟩
  rw [List.length_append] at hfuel
  obtain ⟨hrest, hbar⟩ := peek_text .bar (by simp) hs₁
  dsimp only
  split
  · rename_i htrue
    obtain ⟨ts₂, rfl, hs₂⟩ := hbar htrue
    rw [List.length_cons] at hfuel
    refine (ih.ofPipe hs₂ (by omega)).bind ?_
    rintro c₃ s₃ ⟨ts₃, ts₄, rfl, hs₄, hc₃, hd₃⟩
    refine ⟨ts₁ ++ .bar :: ts₃, ts₄, by simp, hs₄, ?_, .pipe hd₁ hd₃⟩
    intro w hw
    exact (List.mem_append.mp hw).elim (hc₁ w) (hc₃ w)
  · exact ⟨ts₁, ts', rfl, hrest, hc₁, .one hd₁⟩

theorem Sound.parseexec (ih : Sound line fuel) (h : Rest line ts s)
    (hfuel : 4 * ts.length + 1 < fuel + 1) :
    Meets (Found line .exec ts) (parseexec (fuel + 1) s) := by
  obtain ⟨hrest, hparen⟩ := peek_text .lpar (by simp) h
  rw [Sh.parseexec]
  split
  · rename_i htrue
    obtain ⟨ts', rfl, -⟩ := hparen htrue
    exact ih.ofBlock hrest (List.cons_ne_nil _ _) (by omega)
  · refine (parseredirs_meets (c := .exec []) (by omega) hrest fun w hw => ?_).bind ?_
    · exact absurd hw List.not_mem_nil
    · rintro c₁ s₁ ⟨rs, ts₁, rfl, hs₁, hc₁, hmap₁⟩
      rw [List.length_append] at hfuel
      refine (parseargs_meets (by omega) hs₁ hc₁ (by decide) hmap₁).mono ?_
      rintro c₂ s₂ ⟨parts, ts₂, rfl, hs₂, hc₂, hargs, hmap₂⟩
      refine ⟨partTokens (ofRedirs rs ++ parts), ts₂, ?_, hs₂, hc₂, ?_⟩
      · rw [partTokens_ofRedirs_append, List.append_assoc]
      · rw [hmap₂, List.map_nil, List.nil_append, ← redirs_ofRedirs_append rs,
          ← args_ofRedirs_append rs]
        refine .exec _ ?_
        rw [args_ofRedirs_append]
        omega

theorem Sound.parseblock (ih : Sound line fuel) (h : Rest line ts s) (hne : ts ≠ [])
    (hfuel : 4 * ts.length < fuel + 1) :
    Meets (Found line .exec ts) (parseblock (fuel + 1) s) := by
  obtain ⟨-, hparen⟩ := peek_text .lpar (by simp) h
  rw [Sh.parseblock]
  dsimp only
  split
  · rename_i htrue
    obtain ⟨ts', rfl, hs'⟩ := hparen htrue
    rw [List.length_cons] at hfuel
    refine (ih.ofLine hs' (by omega)).bind ?_
    rintro c₁ s₁ ⟨ts₁, ts₂, rfl, hs₁, hc₁, hd₁⟩
    rw [List.length_append] at hfuel
    obtain ⟨-, hclose⟩ := peek_text .rpar (by simp) hs₁
    dsimp only
    split
    · rename_i htrue
      obtain ⟨ts₃, rfl, hs₃⟩ := hclose htrue
      rw [List.length_cons] at hfuel
      refine (parseredirs_meets (by omega) hs₃ hc₁).mono ?_
      rintro c₄ s₄ ⟨rs, ts₄, rfl, hs₄, hc₄, hmap₄⟩
      refine ⟨.lpar :: ts₁ ++ .rpar :: redirTokens rs, ts₄, by simp, hs₄, hc₄, ?_⟩
      rw [hmap₄]
      exact .block rs hd₁
    · trivial
  · trivial

theorem sound : ∀ fuel : ℕ, Sound line fuel
  | 0 => ⟨fun _ h => by omega, fun _ h => by omega, fun _ h => by omega, fun _ _ h => by omega⟩
  | fuel + 1 =>
    have ih := sound fuel
    ⟨ih.parseline, ih.parsepipe, ih.parseexec, ih.parseblock⟩

/-! ### What is derived -/

/-- The tokens do not go on with a part of the phrase in front of them. -/
def Follows : Phrase → List Token → Prop
  | .line, ts => ∀ t, ts.head? = some t → t ∈ [Token.rpar]
  | .pipe, ts => ∀ t, ts.head? = some t → t ∈ [Token.rpar, .amp, .semi]
  | .exec, ts => ∀ t, ts.head? = some t → t ∈ [Token.rpar, .amp, .semi, .bar]

theorem Follows.exec_of_pipe (h : Follows .pipe ts) : Follows .exec ts := fun t ht => by
  have hmem := h t ht
  simp only [List.mem_cons, List.not_mem_nil, or_false] at hmem ⊢
  tauto

theorem Follows.pipe_of_line (h : Follows .line ts) : Follows .pipe ts := fun t ht => by
  have hmem := h t ht
  simp only [List.mem_cons, List.not_mem_nil, or_false] at hmem ⊢
  exact Or.inl hmem

/-- Ampersands and a semicolon stand behind a pipeline. -/
theorem follows_replicate_append (h : Follows .pipe ts) (n : ℕ) :
    Follows .pipe (List.replicate n .amp ++ ts) := by
  cases n with
  | zero => exact h
  | succ n =>
    intro t ht
    obtain rfl := Option.some.inj ht
    decide

theorem ok_bind (r : Cmd Span × List UInt8) (f : Cmd Span × List UInt8 → Parse) :
    (Except.ok r >>= f) = f r := rfl

theorem parseamps_eq : ∀ (n : ℕ) {fuel : ℕ} {c : Cmd Span} {s : List UInt8}, n < fuel →
    Rest line (List.replicate n .amp ++ ts) s → ts.head? ≠ some .amp →
      ∃ s', parseamps fuel c s = .ok (backs n c, s') ∧ Rest line ts s'
  | 0, fuel + 1, c, s, _, h, hend => by
    refine ⟨_, ?_, peek_snd (ascii "&") h⟩
    have hpeek : ¬ (peek s (ascii "&")).1 = true := fun htrue =>
      hend ((peek_text_iff .amp (by simp) h).mp htrue)
    rw [parseamps, if_neg hpeek]
    rfl
  | n + 1, fuel + 1, c, s, hfuel, h, hend => by
    obtain ⟨s', hs', hrest⟩ := parseamps_eq n (c := .back c) (Nat.lt_of_succ_lt_succ hfuel)
      (gettoken_ps (peek_snd (ascii "&") h)) hend
    have hpeek : (peek s (ascii "&")).1 = true := (peek_text_iff .amp (by simp) h).mpr rfl
    refine ⟨s', ?_, hrest⟩
    rw [parseamps, if_pos hpeek, hs']
    rfl

theorem parseredirs_eq : ∀ (rs : List (List UInt8 × Redirection)) {fuel : ℕ} {c : Cmd Span}
    {s : List UInt8}, rs.length < fuel → Rest line (redirTokens rs ++ ts) s →
      (∀ mode, ts.head? ≠ some (operator mode)) →
      ∃ c' s', parseredirs fuel c s = .ok (c', s') ∧ Rest line ts s' ∧
        c'.map Span.word = redirected (c.map Span.word) rs
  | [], fuel + 1, c, s, _, h, hend => by
    refine ⟨c, _, ?_, peek_snd (ascii "<>") h, rfl⟩
    rw [parseredirs, if_neg fun htrue => ?_]
    obtain ⟨mode, hmode⟩ := (peek_redir_iff h).mp htrue
    exact hend mode hmode
  | (file, mode) :: rs, fuel + 1, c, s, hfuel, h, hend => by
    have hop := peek_snd (ascii "<>") h
    have hfile := gettoken_ps hop
    obtain ⟨c', s', hs', hrest, hmap⟩ := parseredirs_eq rs
      (c := .redir c (gettoken (gettoken (peek s (ascii "<>")).2).ps).span mode)
      (Nat.lt_of_succ_lt_succ hfuel) (gettoken_ps hfile) hend
    refine ⟨c', s', ?_, hrest, ?_⟩
    · rw [parseredirs, if_pos ((peek_redir_iff h).mpr ⟨mode, rfl⟩)]
      show (if (gettoken (gettoken (peek s (ascii "<>")).2).ps).ret ≠ 97 then _ else _) = _
      have hret : (gettoken (gettoken (peek s (ascii "<>")).2).ps).ret = 97 := gettoken_ret hfile
      rw [if_neg (not_not.mpr hret), gettoken_ret hop, redircmd_eq, hs']
    · rw [hmap, Cmd.map, (gettoken_word hfile).1]
      rfl

/-- The redirections at the beginning of a simple command. -/
theorem exists_ofRedirs {W : Type} : ∀ parts : List (Part W), ∃ rs parts',
    parts = ofRedirs rs ++ parts' ∧ ∀ p, parts'.head? = some p → ∃ w, p = .arg w
  | [] => ⟨[], [], rfl, fun _ h => by cases h⟩
  | .arg w :: parts => ⟨[], .arg w :: parts, rfl, fun _ h => ⟨w, (Option.some.inj h).symm⟩⟩
  | .redir file mode :: parts => by
    obtain ⟨rs, parts', rfl, harg⟩ := exists_ofRedirs parts
    exact ⟨(file, mode) :: rs, parts', rfl, harg⟩

/-- What comes behind redirections: a word, or what follows the simple command. -/
theorem head_partTokens {parts : List (Part (List UInt8))}
    (harg : ∀ p, parts.head? = some p → ∃ w, p = .arg w) (hts : Follows .exec ts) {t : Token}
    (h : (partTokens parts ++ ts).head? = some t) :
    (∃ w, t = .word w) ∨ t ∈ [Token.rpar, .amp, .semi, .bar] := by
  cases parts with
  | nil => exact Or.inr (hts t h)
  | cons p parts =>
    obtain ⟨w, rfl⟩ := harg p rfl
    exact Or.inl ⟨w, (Option.some.inj h).symm⟩

theorem parseargs_eq : ∀ {fuel : ℕ} (parts : List (Part (List UInt8))) {ret : Cmd Span} {argc : ℕ}
    {s : List UInt8} {argv : List (List UInt8)} {rs : List (List UInt8 × Redirection)},
    (partTokens parts).length < fuel → Rest line (partTokens parts ++ ts) s →
      (∀ p, parts.head? = some p → ∃ w, p = .arg w) → Follows .exec ts →
      argc + (args parts).length < maxArgs → ret.map Span.word = redirected (.exec argv) rs →
      ∃ c' s', parseargs fuel ret argc s = .ok (c', s') ∧ Rest line ts s' ∧
        c'.map Span.word = redirected (.exec (argv ++ args parts)) (rs ++ redirs parts)
  | fuel + 1, [], ret, argc, s, argv, rs, _, h, _, hts, _, hmap => by
    have hpeek := peek_snd (ascii "|)&;") h
    have hmap' : ret.map Span.word = redirected (.exec (argv ++ args [])) (rs ++ redirs []) := by
      rw [hmap, args, redirs, List.append_nil, List.append_nil]
    rw [parseargs]
    cases ts with
    | nil =>
      obtain ⟨hret, hps⟩ := gettoken_nil hpeek
      refine ⟨ret, _, ?_, hps, hmap'⟩
      rw [if_neg (by rw [peek_nil _ h]; exact Bool.false_ne_true)]
      exact if_pos hret
    | cons t ts =>
      have ht : t.isOneOf (ascii "|)&;") = true := by
        rw [isOneOf_end_iff]
        have hmem := hts t rfl
        simp only [List.mem_cons, List.not_mem_nil, or_false] at hmem ⊢
        tauto
      refine ⟨ret, _, ?_, hpeek, hmap'⟩
      rw [if_pos ((peek_cons (by decide) h).trans ht)]
  | fuel + 1, .redir file mode :: parts, _, _, _, _, _, _, _, harg, _, _, _ => by
    obtain ⟨w, hw⟩ := harg _ rfl
    cases hw
  | fuel + 1, .arg w :: parts, ret, argc, s, argv, rs, hfuel, h, _, hts, hargc, hmap => by
    obtain ⟨rs', parts, rfl, harg⟩ := exists_ofRedirs parts
    rw [args, args_ofRedirs_append, List.length_cons] at hargc
    rw [partTokens, partTokens_ofRedirs_append, List.length_cons, List.length_append] at hfuel
    rw [partTokens, partTokens_ofRedirs_append, List.cons_append, List.append_assoc] at h
    have hpeek := peek_snd (ascii "|)&;") h
    have hstop : ¬ (peek s (ascii "|)&;")).1 = true := by
      rw [peek_cons (by decide) h]
      exact Bool.false_ne_true
    have hret : (gettoken (peek s (ascii "|)&;")).2).ret = 97 := gettoken_ret hpeek
    obtain ⟨hword, -⟩ := gettoken_word hpeek
    rw [length_redirTokens] at hfuel
    have hlength : rs'.length < fuel := by omega
    have hend : ∀ mode, (partTokens parts ++ ts).head? ≠ some (operator mode) := by
      intro mode hmode
      rcases head_partTokens harg hts hmode with ⟨w, hw⟩ | hmem
      · cases mode <;> cases hw
      · cases mode <;> exact absurd hmem (by decide)
    obtain ⟨c₁, s₁, hs₁, hrest₁, hmap₁⟩ := parseredirs_eq rs'
      (c := ret.addArg (gettoken (peek s (ascii "|)&;")).2).span) hlength (gettoken_ps hpeek) hend
    rw [Cmd.map_addArg, hmap, hword, addArg_redirected, Cmd.addArg, ← redirected_append] at hmap₁
    have hparts : (partTokens parts).length < fuel := by omega
    have hargs : argc + 1 + (args parts).length < maxArgs := by omega
    obtain ⟨c₂, s₂, hs₂, hrest₂, hmap₂⟩ := parseargs_eq parts hparts hrest₁ harg hts hargs hmap₁
    refine ⟨c₂, s₂, ?_, hrest₂, ?_⟩
    · rw [parseargs, if_neg hstop]
      show (if (gettoken (peek s (ascii "|)&;")).2).ret = 0 then _ else if _ ≠ 97 then _ else _) = _
      rw [if_neg (by rw [hret]; decide), if_neg (not_not.mpr hret),
        if_neg (by omega), hs₁, ok_bind, hs₂]
    · rw [hmap₂, args, args_ofRedirs_append, redirs, redirs_ofRedirs_append,
        List.append_assoc, List.append_assoc, List.singleton_append]

/-- The function that reads a phrase. -/
def parse : Phrase → ℕ → List UInt8 → Parse
  | .line => parseline
  | .pipe => parsepipe
  | .exec => parseexec

/-- The levels of calls for a phrase. -/
def Phrase.calls : Phrase → ℕ
  | .line => 3
  | .pipe => 2
  | .exec => 1

/-- The tokens are read to their end, and for the command. -/
def Complete (line : List UInt8) (ph : Phrase) (ts₁ : List Token) (c : Cmd (List UInt8)) : Prop :=
  ∀ (fuel : ℕ) ⦃ts : List Token⦄ ⦃s : List UInt8⦄, Rest line (ts₁ ++ ts) s → Follows ph ts →
    4 * (ts₁ ++ ts).length + ph.calls < fuel →
      ∃ c' s', parse ph fuel s = .ok (c', s') ∧ Rest line ts s' ∧ c'.map Span.word = c

variable {ts₁ ts₂ : List Token} {c₁ c₂ : Cmd (List UInt8)}

theorem complete_exec (parts : List (Part (List UInt8))) (hargs : (args parts).length < maxArgs) :
    Complete line .exec (partTokens parts) (redirected (.exec (args parts)) (redirs parts)) := by
  rintro (_ | fuel) ts s hs hts hfuel
  · omega
  obtain ⟨rs, parts, rfl, harg⟩ := exists_ofRedirs parts
  rw [partTokens_ofRedirs_append, List.append_assoc] at hs hfuel
  rw [args_ofRedirs_append] at hargs
  rw [List.length_append, List.length_append, length_redirTokens, Phrase.calls] at hfuel
  have hparen : ¬ (peek s (ascii "(")).1 = true := by
    intro htrue
    have hhead := (peek_text_iff .lpar (by simp) hs).mp htrue
    cases rs with
    | nil =>
      rcases head_partTokens harg hts hhead with ⟨w, hw⟩ | hmem
      · cases hw
      · exact absurd hmem (by decide)
    | cons r rs =>
      obtain ⟨file, mode⟩ := r
      cases mode <;> cases hhead
  have hend : ∀ mode, (partTokens parts ++ ts).head? ≠ some (operator mode) := by
    intro mode hmode
    rcases head_partTokens harg hts hmode with ⟨w, hw⟩ | hmem
    · cases mode <;> cases hw
    · cases mode <;> exact absurd hmem (by decide)
  have hrs : rs.length < fuel := by omega
  have hparts : (partTokens parts).length < fuel := by omega
  obtain ⟨c₁, s₁, hs₁, hrest₁, hmap₁⟩ :=
    parseredirs_eq rs (c := .exec []) hrs (peek_snd (ascii "(") hs) hend
  obtain ⟨c₂, s₂, hs₂, hrest₂, hmap₂⟩ :=
    parseargs_eq parts hparts hrest₁ harg hts (by rwa [Nat.zero_add]) hmap₁
  refine ⟨c₂, s₂, ?_, hrest₂, ?_⟩
  · rw [parse, parseexec, if_neg hparen, hs₁, ok_bind, hs₂]
  · rw [hmap₂, List.map_nil, List.nil_append, args_ofRedirs_append, redirs_ofRedirs_append]

theorem complete_block (rs : List (List UInt8 × Redirection)) (ih : Complete line .line ts₁ c₁) :
    Complete line .exec (.lpar :: ts₁ ++ .rpar :: redirTokens rs) (redirected c₁ rs) := by
  intro fuel ts s hs hts hfuel
  have htokens : .lpar :: ts₁ ++ .rpar :: redirTokens rs ++ ts =
      .lpar :: (ts₁ ++ .rpar :: (redirTokens rs ++ ts)) := by simp
  rw [htokens] at hs hfuel
  rw [List.length_cons, Phrase.calls] at hfuel
  obtain ⟨fuel, rfl⟩ : ∃ n, fuel = n + 2 := ⟨fuel - 2, by omega⟩
  have hpeek := peek_snd (ascii "(") hs
  have hparen : (peek s (ascii "(")).1 = true := (peek_text_iff .lpar (by simp) hs).mpr rfl
  have hparen' : (peek (peek s (ascii "(")).2 (ascii "(")).1 = true :=
    (peek_text_iff .lpar (by simp) hpeek).mpr rfl
  have hinner := gettoken_ps (peek_snd (ascii "(") hpeek)
  obtain ⟨c', s₁, hs₁, hrest₁, rfl⟩ := ih fuel hinner
    (fun t ht => by obtain rfl := Option.some.inj ht; exact List.mem_singleton_self _)
    (by rw [Phrase.calls]; omega)
  have hclose : (peek s₁ (ascii ")")).1 = true := (peek_text_iff .rpar (by simp) hrest₁).mpr rfl
  have hrs : rs.length < fuel := by
    rw [List.length_append, List.length_cons, List.length_append, length_redirTokens] at hfuel
    omega
  have hend : ∀ mode, ts.head? ≠ some (operator mode) := fun mode hmode => by
    have hmem := hts _ hmode
    cases mode <;> exact absurd hmem (by decide)
  obtain ⟨c₂, s₂, hs₂, hrest₂, hmap₂⟩ :=
    parseredirs_eq rs (c := c') hrs (gettoken_ps (peek_snd (ascii ")") hrest₁)) hend
  refine ⟨c₂, s₂, ?_, hrest₂, hmap₂⟩
  rw [parse, parseexec, if_pos hparen, parseblock, if_pos hparen']
  show (parseline fuel _ >>= _) = _
  rw [show parseline fuel _ = _ from hs₁, ok_bind]
  show (if (peek s₁ (ascii ")")).1 = true then _ else _) = _
  rw [if_pos hclose, hs₂]

theorem complete_one (ih : Complete line .exec ts₁ c₁) : Complete line .pipe ts₁ c₁ := by
  rintro (_ | fuel) ts s hs hts hfuel
  · omega
  rw [Phrase.calls] at hfuel
  obtain ⟨c', s₁, hs₁, hrest₁, rfl⟩ := ih fuel hs hts.exec_of_pipe
    (by rw [Phrase.calls]; omega)
  have hbar : ¬ (peek s₁ (ascii "|")).1 = true := fun htrue => by
    have hmem := hts _ ((peek_text_iff .bar (by simp) hrest₁).mp htrue)
    exact absurd hmem (by decide)
  refine ⟨c', _, ?_, peek_snd (ascii "|") hrest₁, rfl⟩
  rw [parse, parsepipe, show parseexec fuel s = _ from hs₁, ok_bind]
  exact if_neg hbar

theorem complete_pipe (ih : Complete line .exec ts₁ c₁) (ih' : Complete line .pipe ts₂ c₂) :
    Complete line .pipe (ts₁ ++ .bar :: ts₂) (.pipe c₁ c₂) := by
  rintro (_ | fuel) ts s hs hts hfuel
  · omega
  rw [List.append_assoc, List.cons_append] at hs hfuel
  rw [Phrase.calls] at hfuel
  obtain ⟨c, s₁, hs₁, hrest₁, rfl⟩ := ih fuel hs
    (fun t ht => by obtain rfl := Option.some.inj ht; decide) (by rw [Phrase.calls]; omega)
  have hbar : (peek s₁ (ascii "|")).1 = true := (peek_text_iff .bar (by simp) hrest₁).mpr rfl
  rw [List.length_append, List.length_cons] at hfuel
  obtain ⟨c', s₂, hs₂, hrest₂, rfl⟩ := ih' fuel
    (gettoken_ps (peek_snd (ascii "|") hrest₁)) hts (by rw [Phrase.calls]; omega)
  refine ⟨.pipe c c', s₂, ?_, hrest₂, rfl⟩
  rw [parse, parsepipe, show parseexec fuel s = _ from hs₁, ok_bind]
  show (if (peek s₁ (ascii "|")).1 = true then _ else _) = _
  rw [if_pos hbar, show parsepipe fuel _ = _ from hs₂]
  rfl

theorem complete_back (n : ℕ) (ih : Complete line .pipe ts₁ c₁) :
    Complete line .line (ts₁ ++ List.replicate n .amp) (backs n c₁) := by
  rintro (_ | fuel) ts s hs hts hfuel
  · omega
  rw [List.append_assoc] at hs hfuel
  rw [Phrase.calls] at hfuel
  obtain ⟨c, s₁, hs₁, hrest₁, rfl⟩ := ih fuel hs
    (follows_replicate_append hts.pipe_of_line n) (by rw [Phrase.calls]; omega)
  have hn : n < fuel := by
    rw [List.length_append, List.length_append, List.length_replicate] at hfuel
    omega
  obtain ⟨s₂, hs₂, hrest₂⟩ := parseamps_eq n (c := c) hn hrest₁ fun hamp => by
    exact absurd (hts _ hamp) (by decide)
  have hsemi : ¬ (peek s₂ (ascii ";")).1 = true := fun htrue => by
    have hmem := hts _ ((peek_text_iff .semi (by simp) hrest₂).mp htrue)
    exact absurd hmem (by decide)
  refine ⟨backs n c, _, ?_, peek_snd (ascii ";") hrest₂, map_backs _ n c⟩
  rw [parse, parseline, show parsepipe fuel s = _ from hs₁, ok_bind, hs₂, ok_bind]
  exact if_neg hsemi

theorem complete_list (n : ℕ) (ih : Complete line .pipe ts₁ c₁) (ih' : Complete line .line ts₂ c₂) :
    Complete line .line (ts₁ ++ List.replicate n .amp ++ .semi :: ts₂) (.list (backs n c₁) c₂) := by
  rintro (_ | fuel) ts s hs hts hfuel
  · omega
  rw [List.append_assoc, List.append_assoc, List.cons_append] at hs hfuel
  rw [Phrase.calls] at hfuel
  obtain ⟨c, s₁, hs₁, hrest₁, rfl⟩ := ih fuel hs
    (follows_replicate_append (fun t ht => by obtain rfl := Option.some.inj ht; decide) n)
    (by rw [Phrase.calls]; omega)
  rw [List.length_append, List.length_append, List.length_replicate, List.length_cons] at hfuel
  have hn : n < fuel := by omega
  obtain ⟨s₂, hs₂, hrest₂⟩ := parseamps_eq n (c := c) hn hrest₁ fun hamp => by cases hamp
  have hsemi : (peek s₂ (ascii ";")).1 = true := (peek_text_iff .semi (by simp) hrest₂).mpr rfl
  obtain ⟨c', s₃, hs₃, hrest₃, rfl⟩ := ih' fuel
    (gettoken_ps (peek_snd (ascii ";") hrest₂)) hts (by rw [Phrase.calls]; omega)
  refine ⟨.list (backs n c) c', s₃, ?_, hrest₃, ?_⟩
  · rw [parse, parseline, show parsepipe fuel s = _ from hs₁, ok_bind, hs₂, ok_bind]
    show (if (peek s₂ (ascii ";")).1 = true then _ else _) = _
    rw [if_pos hsemi, show parseline fuel _ = _ from hs₃]
    rfl
  · rw [Cmd.map, map_backs]

/-- **What the grammar derives is accepted**, for the command that it means. -/
theorem parse_of_derives {ph : Phrase} (h : Derives ph ts₁ c₁) : Complete line ph ts₁ c₁ := by
  induction h with
  | exec parts hargs => exact complete_exec parts hargs
  | block rs _ ih => exact complete_block rs ih
  | one _ ih => exact complete_one ih
  | pipe _ _ ih ih' => exact complete_pipe ih ih'
  | back n _ ih => exact complete_back n ih
  | list n _ _ ih ih' => exact complete_list n ih ih'

end Sh

end Xv6

end SystemProgramming
