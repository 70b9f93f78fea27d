/-
  One pass of macro expansion, against expanding until nothing changes.

  The value of a macro is expanded when it is defined, so it only mentions what is no
  macro yet.  If the macros of a run are defined in order, and once (`OrderedDefinition`), that
  is what is never one (`Tables`): every content line is emitted as replacing whole identifiers
  by the bodies as they were written makes it in the end (`expansion_reaches_fixpoint`).  The
  values of the command line are taken as they are, and so are the comments around an include
  (`predefined_not_expanded`).
-/
import PocketDarwin.PatchDtc.Visits

namespace PocketDarwin.PatchDtc.Preprocessor

section
variable (py : Python)

/-! ## Whole identifiers -/

/-- A maximal run of letters, digits and underscores: the identifier in it starts at its first
    non-digit. -/
def replaceRun (macros : Macros) (run : Text) : Text :=
  match run.dropWhile (fun c => !(py.isAlpha c || c == '_')) with
  | [] => run
  | c :: ident =>
    run.takeWhile (fun c => !(py.isAlpha c || c == '_')) ++ (macros.lookup (c :: ident)).getD
      (c :: ident)

/-- The whole identifiers outside of string literals are replaced. -/
def replaceWhole (macros : Macros) : Text → Text
  | [] => []
  | '"' :: cs => '"' :: (slice cs (readString cs) ++ replaceWhole macros (readString cs))
  | c :: cs =>
    if isMacroChar py c then
      replaceRun py macros (c :: cs.takeWhile (isMacroChar py)) ++
        replaceWhole macros (cs.dropWhile (isMacroChar py))
    else c :: replaceWhole macros cs
termination_by cs => cs.length
decreasing_by
  · have := (readString_suffix cs).length_le; simp only [List.length_cons]; omega
  · have := dropWhile_length_le (isMacroChar py) cs; simp only [List.length_cons]; omega
  · simp

variable (macros : Macros)

/-- A run is read as its digits, one by one, and the identifier. -/
theorem substitute_run (hquote :
    isMacroChar py '"' = false) {run : Text} (hrun : ∀ c ∈ run, isMacroChar py c)
    {r : Text} (hr : ∀ c ∈ r.head?, ¬ isMacroChar py c) :
    substitute py macros (run ++ r) = replaceRun py macros run ++ substitute py macros r := by
  induction run with
  | nil => rfl
  | cons c run ih =>
    have hne : c ≠ '"' := by
      rintro rfl
      rw [hrun '"' (List.mem_cons_self ..)] at hquote
      cases hquote
    have htail : ∀ d ∈ run, isMacroChar py d := fun d hd => hrun d (List.mem_cons_of_mem _ hd)
    rw [List.cons_append, substitute_char py hne]
    by_cases hc : (py.isAlpha c || c == '_') = true
    · rw [if_pos hc, takeWhile_run htail hr, dropWhile_run htail hr, replaceRun,
        List.dropWhile_cons_of_neg (by simp [hc]), List.takeWhile_cons_of_neg (by simp [hc])]
      rfl
    · rw [if_neg hc, ih htail, replaceRun, replaceRun, List.dropWhile_cons_of_pos (by simp [hc]),
        List.takeWhile_cons_of_pos (by simp [hc])]
      split <;> rfl

/-- **The loop of the expansion** replaces the whole identifiers. -/
theorem replaceWhole_eq (hquote : isMacroChar py '"' = false) (line : Text) :
    replaceWhole py macros line = substitute py macros line := by
  fun_induction replaceWhole py macros line with
  | case1 => rw [substitute]
  | case2 cs ih => rw [substitute, ih]
  | case3 c cs h hc ih =>
    have hrun : ∀ d ∈ c :: cs.takeWhile (isMacroChar py), isMacroChar py d := by
      intro d hd
      rcases List.mem_cons.1 hd with rfl | hd
      · exact hc
      · exact List.mem_takeWhile_imp hd
    have hsub := substitute_run py macros hquote hrun (head?_dropWhile_not_mem (isMacroChar py) cs)
    rw [List.cons_append, List.takeWhile_append_dropWhile] at hsub
    rw [ih, hsub]
  | case4 c cs h hc ih =>
    have hletter : ¬ (py.isAlpha c || c == '_') = true := by
      intro hletter
      refine hc ?_
      simp only [isMacroChar, Bool.or_eq_true] at hletter ⊢
      rcases hletter with h' | h'
      · exact .inl (.inl h')
      · exact .inr h'
    rw [ih, substitute_char py h, if_neg hletter]

theorem substitute_eq_expand (line : Text) :
    substitute py macros line = expandMacrosInLine py line macros := by
  rw [substitute_eq, expandMacrosInLine_eq]

end

/-! ## The tables of a run -/

section
variable {P : Type} (py : Python)

/-- The table of the bodies as they were written, behind a line. -/
def written (macros : Macros) (v : Visit P) : Macros :=
  match v.change py with
  | some (.define name body) => macros.insert name body
  | some (.undef name) => macros.erase name
  | none => macros

/-- The macros of a table that another one has, too. -/
def restrict (macros defined : Macros) : Macros where
  entries := macros.entries.filter fun entry => (defined.lookup entry.1).isSome
  nodupKeys := macros.nodupKeys.sublist List.filter_sublist

/-- A line defines a macro that is not defined yet, by macros that are; and it undefines none. -/
structure OrderedDefinition (final : Macros) (v : Visit P) : Prop where
  fresh : ∀ name body, v.change py = some (.define name body) → v.st.macros.lookup name = none
  closed : ∀ name body, v.change py = some (.define name body) → balancedQuotes py body
  backward : ∀ name body, v.change py = some (.define name body) → ∀ used ∈ mentions py body,
    final.lookup used ≠ none → v.st.macros.lookup used ≠ none
  kept : ∀ name, v.change py = some (.undef name) → v.st.macros.lookup name = none

/-- The values of the command line mention no macros. -/
structure PlainValues (final macros : Macros) : Prop where
  closed : ClosedValues py macros
  plain : ∀ name value, macros.lookup name = some value → ∀ used ∈ mentions py value,
  final.lookup used = none

/-- The tables of the bodies as they were written, and of the values. -/
structure Tables (final raw stored : Macros) : Prop where
  domain : ∀ name, raw.lookup name = none ↔ stored.lookup name = none
  values : ∀ name body, raw.lookup name = some body →
    stored.lookup name = some (expandMacrosInLine py body stored)
  closed : ClosedValues py raw
  known : ∀ name body, raw.lookup name = some body → ∀ used ∈ mentions py body,
    final.lookup used ≠ none → stored.lookup used ≠ none
  persists : ∀ name value, stored.lookup name = some value → final.lookup name = some value
  ranked : ∃ (rank : Text → ℕ) (bound : ℕ), (∀ name, raw.lookup name ≠ none → rank name < bound) ∧
    ∀ name body, raw.lookup name = some body →
      ∀ used ∈ mentions py body, raw.lookup used ≠ none → rank used < rank name

variable {py} {final raw stored : Macros}

theorem OrderedDefinition.of_define {v : Visit P} {name body : Text}
    (h : v.change py = some (.define name body))
    (hfresh : v.st.macros.lookup name = none) (hclosed : balancedQuotes py body)
    (hbackward : ∀ used ∈ mentions py body, final.lookup used ≠ none →
      v.st.macros.lookup used ≠ none) :
    OrderedDefinition py final v := by
  refine ⟨fun n b hn => ?_, fun n b hn => ?_, fun n b hn => ?_, fun n hn => ?_⟩
  all_goals
    rw [h] at hn
    cases hn
  exacts [hfresh, hclosed, hbackward]

theorem OrderedDefinition.of_none {v : Visit P} (h : v.change py = none) :
    OrderedDefinition py final v := by
  refine ⟨fun n b hn => ?_, fun n b hn => ?_, fun n b hn => ?_, fun n hn => ?_⟩
  all_goals
    rw [h] at hn
    cases hn

theorem lookup_restrict (macros defined : Macros) (name : Text) :
    (restrict macros defined).lookup name = if (defined.lookup name).isSome then macros.lookup name
      else none := by
  ext value
  rw [← Option.mem_def, AList.mem_lookup_iff, restrict, List.mem_filter, ← AList.mem_lookup_iff]
  split_ifs with h
  · rw [and_iff_left h, Option.mem_def]
  · simp [h]

theorem PlainValues.tables (h : PlainValues py final stored)
    (hpersists : ∀ name value, stored.lookup name = some value → final.lookup name = some value) :
    Tables py final stored stored := by
  have hnone : ∀ name value, stored.lookup name = some value → ∀ used ∈ mentions py value,
      stored.lookup used = none := by
    intro name value hl used hused
    cases hs : stored.lookup used with
    | none => rfl
    | some body =>
      have := hpersists used body hs
      rw [h.plain name value hl used hused] at this
      cases this
  refine ⟨fun _ => Iff.rfl, fun name value hl => ?_, h.closed, fun name value hl used hused hne =>
    ?_, hpersists, ?_⟩
  · rw [expand_fixed py (hnone name value hl)]
    exact hl
  · exact absurd (h.plain name value hl used hused) hne
  · refine ⟨fun _ => 0, 1, fun _ _ => Nat.one_pos, fun name value hl used hused hne => ?_⟩
    exact absurd (hnone name value hl used hused) hne

/-- A name that is not defined yet is not mentioned by what is. -/
theorem Tables.not_mentioned (h : Tables py final raw stored) {name : Text}
    (hfresh : stored.lookup name = none)
    (hfinal : final.lookup name ≠ none) {other body : Text} (hl : raw.lookup other = some body) :
    name ∉ mentions py body := fun hmem => h.known other body hl name hmem hfinal hfresh

/-- A macro is defined by macros that are defined. -/
theorem Tables.define (h : Tables py final raw stored) {name body : Text}
    (hfresh : stored.lookup name = none)
    (hclosed : balancedQuotes py body)
    (hbackward : ∀ used ∈ mentions py body, final.lookup used ≠ none → stored.lookup used ≠ none)
    (hfinal : final.lookup name = some (expandMacrosInLine py body stored)) :
    Tables py final (raw.insert name body) (stored.insert name (expandMacrosInLine py body stored)) := by
  have hsome : final.lookup name ≠ none := by
    rw [hfinal]
    exact Option.some_ne_none _
  have hnot : name ∉ mentions py body := fun hmem => hbackward name hmem hsome hfresh
  -- the new macro changes the values of those before no more than its own
  have hcongr : ∀ text, name ∉ mentions py text →
      expandMacrosInLine py text (stored.insert name (expandMacrosInLine py body stored)) =
        expandMacrosInLine py text stored := by
    intro text htext
    refine expand_congr py fun used hused => AList.lookup_insert_ne ?_
    rintro rfl
    exact htext hused
  have hcases : ∀ other text, (raw.insert name body).lookup other = some text →
      (other = name ∧ text = body) ∨ (other ≠ name ∧ raw.lookup other = some text) := by
    intro other text hl
    by_cases hne : other = name
    · subst hne
      rw [AList.lookup_insert, Option.some.injEq] at hl
      exact .inl ⟨rfl, hl.symm⟩
    · rw [AList.lookup_insert_ne hne] at hl
      exact .inr ⟨hne, hl⟩
  have hmention : ∀ other text, (raw.insert name body).lookup other = some text →
      name ∉ mentions py text := by
    intro other text hl
    rcases hcases other text hl with ⟨-, rfl⟩ | ⟨-, hl⟩
    · exact hnot
    · exact h.not_mentioned hfresh hsome hl
  refine ⟨fun other => ?_, fun other text hl => ?_, fun other text hl => ?_,
    fun other text hl used hused hne => ?_,
    fun other value hl => ?_, ?_⟩
  · by_cases hne : other = name
    · subst hne
      rw [AList.lookup_insert, AList.lookup_insert]
      exact iff_of_false (Option.some_ne_none _) (Option.some_ne_none _)
    · rw [AList.lookup_insert_ne hne, AList.lookup_insert_ne hne]
      exact h.domain other
  · rw [hcongr text (hmention other text hl)]
    rcases hcases other text hl with ⟨rfl, rfl⟩ | ⟨hne, hl⟩
    · exact AList.lookup_insert ..
    · rw [AList.lookup_insert_ne hne]
      exact h.values other text hl
  · rcases hcases other text hl with ⟨-, rfl⟩ | ⟨-, hl⟩
    · exact hclosed
    · exact h.closed other text hl
  · have hused' : used ≠ name := by
      rintro rfl
      exact hmention other text hl hused
    rw [AList.lookup_insert_ne hused']
    rcases hcases other text hl with ⟨-, rfl⟩ | ⟨-, hl⟩
    · exact hbackward used hused hne
    · exact h.known other text hl used hused hne
  · by_cases hne : other = name
    · subst hne
      rw [AList.lookup_insert] at hl
      rw [hfinal, hl]
    · rw [AList.lookup_insert_ne hne] at hl
      exact h.persists other value hl
  · -- the new macro has a rank above those of the others
    obtain ⟨rank, bound, hbound, hrank⟩ := h.ranked
    refine ⟨Function.update rank name bound, bound + 1, fun other hne => ?_,
      fun other text hl used hused hne => ?_⟩
    · by_cases heq : other = name
      · rw [heq, Function.update_self]
        exact Nat.lt_succ_self bound
      · rw [AList.lookup_insert_ne heq] at hne
        rw [Function.update_of_ne heq]
        exact (hbound other hne).trans (Nat.lt_succ_self bound)
    · have hused' : used ≠ name := by
        rintro rfl
        exact hmention other text hl hused
      rw [AList.lookup_insert_ne hused'] at hne
      rw [Function.update_of_ne hused']
      rcases hcases other text hl with ⟨rfl, rfl⟩ | ⟨hother, hl⟩
      · rw [Function.update_self]
        exact hbound used hne
      · rw [Function.update_of_ne hother]
        exact hrank other text hl used hused hne

/-- A name that is not in a table is not erased from it. -/
theorem erase_of_lookup {macros : Macros} {name : Text} (h : macros.lookup name = none) :
    macros.erase name = macros := by
  have hmem : name ∉ macros.keys := AList.lookup_eq_none.1 h
  exact AList.ext (List.kerase_of_notMem_keys hmem)

/-- A line of a run whose macros are defined in order. -/
theorem Tables.follow {v : Visit P} (h : Tables py final raw v.st.macros)
    (hv : OrderedDefinition py final v)
    (hpersists : ∀ name value, (follow py v.st.macros v).lookup name = some value →
      final.lookup name = some value) :
    Tables py final (written py raw v) (follow py v.st.macros v) := by
  unfold written
  unfold Preprocessor.follow at hpersists ⊢
  cases hchange : v.change py with
  | none => exact h
  | some change =>
    rw [hchange] at hpersists
    cases change with
    | define name body =>
      refine h.define (hv.fresh name body hchange) (hv.closed name body hchange)
        (hv.backward name body hchange) ?_
      exact hpersists name _ (AList.lookup_insert ..)
    | undef name =>
      have hnone := hv.kept name hchange
      simp only [Change.apply, erase_of_lookup hnone, erase_of_lookup ((h.domain name).2 hnone)]
      exact h

/-- What is defined stays as it is. -/
theorem Follows.persists {m m' : Macros} {vs : List (Visit P)} (h : Follows py m vs m')
    (hordered : ∀ v ∈ vs, OrderedDefinition py final v) {name value : Text}
    (hl : m.lookup name = some value) :
    m'.lookup name = some value := by
  induction vs generalizing m with
  | nil =>
    rw [Follows] at h
    rw [h]
    exact hl
  | cons v vs ih =>
    obtain ⟨rfl, hrest⟩ := h
    have hv := hordered v (List.mem_cons_self ..)
    refine ih hrest (fun u hu => hordered u (List.mem_cons_of_mem _ hu)) ?_
    unfold Preprocessor.follow
    cases hchange : v.change py with
    | none => exact hl
    | some change =>
      have hne : ∀ other, v.st.macros.lookup other = none → name ≠ other := by
        rintro other hother rfl
        rw [hother] at hl
        cases hl
      cases change with
      | define other body =>
        exact (AList.lookup_insert_ne (hne other (hv.fresh other body hchange))).trans hl
      | undef other => exact (AList.lookup_erase_ne (hne other (hv.kept other hchange))).trans hl

/-- **The tables at the lines of a run.** -/
theorem Follows.tables {vs : List (Visit P)} (hfollow : Follows py stored vs final)
    (hordered : ∀ v ∈ vs, OrderedDefinition py final v) (h : Tables py final raw stored) :
    ∀ before v after, vs = before ++ v :: after → Tables py final (before.foldl (written py) raw)
      v.st.macros := by
  induction vs generalizing raw stored with
  | nil =>
    intro before v after he
    simp at he
  | cons u us ih =>
    obtain ⟨rfl, hrest⟩ := hfollow
    have hrestOrdered : ∀ v ∈ us, OrderedDefinition py final v :=
      fun v hv => hordered v (List.mem_cons_of_mem _ hv)
    intro before v after he
    cases before with
    | nil =>
      rw [List.nil_append, List.cons.injEq] at he
      rw [← he.1]
      exact h
    | cons w before =>
      rw [List.cons_append, List.cons.injEq] at he
      rw [List.foldl_cons, ← he.1]
      refine ih hrest hrestOrdered (h.follow (hordered u (List.mem_cons_self ..))
        fun name value hl => ?_) before v
        after he.2
      exact hrest.persists hrestOrdered hl

/-- What a line is expanded to, and what the bodies make of it in the end. -/
theorem Tables.fixpoint (h : Tables py final raw stored) (line : Text) :
    expandMacrosInLine py (expandMacrosInLine py line stored) (restrict final raw) =
      expandMacrosInLine py line stored ∧
      ∃ n, (expandMacrosInLine py · raw)^[n] line = expandMacrosInLine py line stored ∧
        expandMacrosInLine py (expandMacrosInLine py line stored) raw = expandMacrosInLine py line
          stored := by
  obtain ⟨rank, bound, hbound, hrank⟩ := h.ranked
  have hline : ∀ used ∈ mentions py line, raw.lookup used ≠ none → rank used < bound :=
    fun used _ => hbound used
  obtain ⟨hend, hfixed⟩ := expand_eq_iterate py h.closed (fun name => (h.domain name).1)
    h.values hrank bound hline
  have hnone := mentions_iterate py h.closed hrank bound hline
  rw [hend] at hnone
  refine ⟨expand_fixed py fun used hused => ?_, bound, hend, hfixed⟩
  rw [lookup_restrict, hnone used hused]
  rfl

theorem conditionalLine_plain (preundefs : List Text) (input : P) (st : Expansion) {line : Text}
    (h : directiveKind line = .plain) : conditionalLine py preundefs input st line =
      .ok (if st.active then { st with output :=
        st.output ++ [expandMacrosInLine py line st.macros] } else st) := by
  unfold directiveKind at h
  unfold conditionalLine
  cases h₁ : ifdefMatch line with
  | some name => simp [h₁] at h
  | none =>
  cases h₂ : ifndefMatch line with
  | some name => simp [h₁, h₂] at h
  | none =>
  cases h₃ : ifMatch line with
  | some expr => simp [h₁, h₂, h₃] at h
  | none =>
  cases h₄ : elifMatch line with
  | some expr => simp [h₁, h₂, h₃, h₄] at h
  | none =>
  by_cases h₅ : elseMatch line
  · simp [h₁, h₂, h₃, h₄, h₅] at h
  by_cases h₆ : endifMatch line
  · simp [h₁, h₂, h₃, h₄, h₅, h₆] at h
  simp only [h₅, h₆, Bool.false_eq_true, if_false]
  split_ifs <;> rfl

/-- A content line is emitted with its macros expanded. -/
theorem processLine_content (fs : FileSystem P) (includeDirs : List P) (preundefs : List Text)
    (expand : P → Macros → Except (Failure P) (Text × Macros)) {v : Visit P} {line : Text}
    (h : v.content py = some line) :
    processLine py fs includeDirs preundefs expand v.input v.st v.line =
      .ok { v.st with output := v.st.output ++ [expandMacrosInLine py line v.st.macros] } := by
  unfold Visit.content at h
  dsimp only at h
  split_ifs at h with hcond
  simp only [Bool.or_eq_true, not_or, Bool.not_eq_true, Bool.not_eq_false', decide_eq_true_eq,
    not_not,
    Option.isSome_eq_false_iff, Option.isNone_iff_eq_none] at hcond
  obtain ⟨⟨⟨⟨⟨hmark, hactive⟩, hinc⟩, hdef⟩, hundef⟩, hkind⟩ := hcond
  rw [Option.some.injEq] at h
  subst h
  simp only [processLine, hmark, hinc, definitionLine, hdef, hundef,
    conditionalLine_plain preundefs v.input v.st hkind,
    hactive, Bool.false_eq_true, if_false, if_true]

variable (py) (fs : FileSystem P) (includeDirs : List P) (preundefs : List Text)

/-- What a run emits for a content line: a fixed point of the expansion under the macros of the end
    that are defined before the line, and what replacing whole identifiers by the bodies of these
    as they were written makes of the line in the end. -/
structure ReachesFixpoint (final raw : Macros) (v : Visit P) (line e : Text) : Prop where
  emitted : ∀ expand, processLine py fs includeDirs preundefs expand v.input v.st v.line =
    .ok { v.st with output := v.st.output ++ [e] }
  fixed : expandMacrosInLine py e (restrict final raw) = e
  replaced : ∃ n, (replaceWhole py raw)^[n] line = e
  settled : replaceWhole py raw e = e

variable [DecidableEq P]

/-- **One pass of expansion reaches the fixpoint** in every run whose macros are defined in order. -/
theorem expansion_reaches_fixpoint
    (hquote : isMacroChar py '"' = false) (predefines : Macros) (input : P)
    {text : Text} {final : Macros}
    (hrun : expandIncludes py fs includeDirs preundefs (fs.files.length + 1) [] input
      (initialMacros preundefs predefines) = .ok (text, final))
    (hinitial : PlainValues py final (initialMacros preundefs predefines))
    (hordered : ∀ v ∈ runVisits py fs includeDirs preundefs predefines input,
      OrderedDefinition py final v)
    {before after : List (Visit P)} {v : Visit P}
    (hv : runVisits py fs includeDirs preundefs predefines input = before ++ v :: after)
    {line : Text} (hline : v.content py = some line) :
    ∃ e, ReachesFixpoint py fs includeDirs preundefs final
      (before.foldl (written py) (initialMacros preundefs predefines)) v line e := by
  obtain ⟨m', hfollow, hend⟩ := runVisits_follow py fs includeDirs preundefs predefines input
  have hfinal : final = m' := hend _ hrun
  rw [← hfinal] at hfollow
  have htables := hfollow.tables hordered (hinitial.tables fun name value =>
    hfollow.persists hordered) before v after hv
  obtain ⟨hfixed, n, hreplaced, hsettled⟩ := htables.fixpoint line
  have hwhole : ∀ macros, replaceWhole py macros = (expandMacrosInLine py · macros) := by
    intro macros
    funext text
    rw [replaceWhole_eq py macros hquote, substitute_eq_expand]
  refine ⟨expandMacrosInLine py line v.st.macros,
    (processLine_content fs includeDirs preundefs · hline), hfixed,
    ⟨n, ?_⟩, ?_⟩
  · rw [hwhole]
    exact hreplaced
  · rw [hwhole]
    exact hsettled

end

/-- A file that defines a macro by another one. -/
def orderedText : Text := "#define A 1\n#define B A\n<B \"A\">\n".toList

/-- The lines that it reaches. -/
def orderedVisits : List (Visit Unit) := runVisits asciiPython (oneFile orderedText) [] [] ∅ ()

theorem orderedText_reaches_fixpoint :
    ∃ before v after final e, orderedVisits = before ++ v :: after ∧
    v.content asciiPython = some "<B \"A\">".toList ∧
      ReachesFixpoint asciiPython (oneFile orderedText) [] []
        final (before.foldl (written asciiPython) ∅) v
        "<B \"A\">".toList e := by
  obtain ⟨v, hget, hcontent⟩ : ∃ v ∈ orderedVisits[2]?, v.content asciiPython =
      some "<B \"A\">".toList := by
    decide +kernel
  obtain ⟨hlen, rfl⟩ := List.getElem?_eq_some_iff.1 hget
  have hsplit : orderedVisits = orderedVisits.take 2 ++ orderedVisits[2] :: orderedVisits.drop 3 := by
    rw [← List.drop_eq_getElem_cons hlen, List.take_append_drop]
  have hok : (expandIncludes asciiPython (oneFile orderedText) [] [] 2 [] () ∅).isOk := by
    decide +kernel
  obtain ⟨text, final, hrun⟩ : ∃ text final,
      expandIncludes asciiPython (oneFile orderedText) [] [] 2 [] () ∅ = .ok (text, final) := by
    cases hx : expandIncludes asciiPython (oneFile orderedText) [] [] 2 [] () ∅ with
    | error e =>
      rw [hx] at hok
      cases hok
    | ok r => exact ⟨r.1, r.2, rfl⟩
  have hchanges : ∀ v ∈ orderedVisits, v.change asciiPython = none ∨
      (v.change asciiPython = some (.define ['A'] ['1']) ∧ v.st.macros.lookup ['A'] = none) ∨
      (v.change asciiPython = some (.define ['B'] ['A']) ∧ v.st.macros.lookup ['B'] = none ∧
        v.st.macros.lookup ['A'] = some ['1']) := by
    decide +kernel
  have hordered : ∀ v ∈ orderedVisits, OrderedDefinition asciiPython final v := by
    intro v hv
    rcases hchanges v hv with h | ⟨h, hfresh⟩ | ⟨h, hfresh, hknown⟩
    · exact .of_none h
    · refine .of_define h hfresh (by decide +kernel) fun used hused => ?_
      have hnil : mentions asciiPython ['1'] = [] := by decide +kernel
      rw [hnil] at hused
      cases hused
    · refine .of_define h hfresh (by decide +kernel) fun used hused _ => ?_
      have hused' : used = ['A'] := by
        have hsingle : mentions asciiPython ['A'] = [['A']] := by decide +kernel
        rw [hsingle] at hused
        exact List.mem_singleton.1 hused
      rw [hused', hknown]
      exact Option.some_ne_none _
  have hplain : PlainValues asciiPython final ∅ := by
    constructor
    · intro name value hl
      cases hl
    · intro name value hl
      cases hl
  obtain ⟨e, he⟩ := expansion_reaches_fixpoint asciiPython (oneFile orderedText) [] [] (by decide)
    ∅ () hrun hplain
    hordered hsplit hcontent
  exact ⟨_, _, _, final, e, hsplit, hcontent, he⟩

/-- The table of `-D B=1 -D A=B`. -/
def chainedMacros : Macros := (AList.singleton ['B'] ['1']).insert ['A'] ['B']

/-- A file `f` that defines `begin` and includes an empty one. -/
def markedFiles : FileSystem Bool where
  ofText _ := false
  join _ _ := false
  parent p := p
  name p := if p then ['f'] else ['g']
  str p := if p then ['f'] else ['g']
  resolve p := p
  isFile _ := true
  readText p := if p then "#define begin 1\n#include \"g\"\n".toList else []
  files := [true, false]
  resolve_mem := by simp

/-- With `-D B=1 -D A=B`, the line `A` is emitted as `B`, which is expanded to `1`; and the comment that marks the begin
    of an include is emitted as it is. -/
theorem predefined_not_expanded :
    (∀ v ∈ runVisits asciiPython (oneFile ['A', '\n']) [] [] chainedMacros (), v.change asciiPython = none) ∧
    (mentions asciiPython ['1'] = [] ∧ mentions asciiPython ['B'] = [['B']]) ∧
    expandIncludesNative asciiPython (oneFile ['A', '\n']) [] [] chainedMacros () = .ok ['B', '\n'] ∧
    expandMacrosInLine asciiPython ['B'] chainedMacros = ['1'] ∧
    expandIncludesNative asciiPython markedFiles [] [] ∅ true =
      .ok (beginMark markedFiles true ['g'] ++ '\n' :: '\n' :: '\n' :: endMark ['g'] ++ ['\n']) ∧
    expandMacrosInLine asciiPython (beginMark markedFiles true ['g']) (AList.singleton "begin".toList ['1']) ≠
      beginMark markedFiles true ['g'] := by
  refine ⟨?_, ?_, ?_, ?_, ?_, ?_⟩
  · decide +kernel
  · decide +kernel
  · decide +kernel
  · decide +kernel
  · decide +kernel
  · decide +kernel

end PocketDarwin.PatchDtc.Preprocessor
