/-
  What the scanner reads of a comment that is stuck to a token.

  A comment right behind a name, a colon, a `;` or a slash is read as a part of
  it up to its first blank, and as code from there on.  With the text of `mark m`
  it then names the property `marker m`: one that is in no given list of calls
  (`exists_marker`).
-/
import Mathlib.Data.Set.Finite.Basic
import PocketDarwin.PatchDtc.Comments

namespace PocketDarwin.PatchDtc

/-! ## A comment that is read -/

theorem marker_chars (m : ℕ) : ∀ c ∈ List.replicate (m + 1) 'x', isDeclChar c := by
  intro c hc
  rw [List.eq_of_mem_replicate hc]
  decide

theorem marker_nonempty (m : ℕ) : List.replicate (m + 1) 'x' ≠ [] := List.cons_ne_nil _ _

/-- A name that is as long as one wants. -/
def marker (m : ℕ) : Name where
  text := List.replicate (m + 1) 'x'
  nonempty := marker_nonempty m
  chars := marker_chars m

/-- A newline, closing braces and the property `x`. -/
def markText (x : Text) (k : ℕ) : Text := '\n' :: (List.replicate k '}' ++ ' ' :: (x ++ [' ', ';', ' ']))

theorem markText_free (m k : ℕ) : ¬ ['*', '/'] <:+: markText (marker m).text k := by
  intro h
  have hmem : '/' ∈ markText (marker m).text k := h.subset (by simp)
  simp [markText, marker] at hmem

/-- A comment with this text. -/
def mark (m k : ℕ) : Comment := .block (markText (marker m).text k) (markText_free m k)

theorem mark_text (m k : ℕ) (r : Text) :
    (mark m k).text ++ r = '/' :: '*' :: (markText (marker m).text k ++ ('*' :: '/' :: r)) := by
  simp [mark, Comment.text]

/-- A scan that goes on at `cs` passes `x` to `on_property`. -/
def ReadsProperty (x : Text) (n d : ℕ) (cs : Text) : Prop :=
  ∃ ps rest t, Reads n d cs ps rest ∧ Call.property x t ∈ callsOf ps

section
variable {x : Text} {n d : ℕ} {cs mid rest : Text} {ps : List Piece}

theorem ReadsProperty.behind (hr : Reads n d cs ps mid) (h : ReadsProperty x n (depthAfter d ps) mid) :
    ReadsProperty x n d cs := by
  obtain ⟨qs, rest, t, hq, ht⟩ := h
  refine ⟨ps ++ qs, rest, t, hr.trans hq, ?_⟩
  rw [callsOf_append]
  exact List.mem_append_right _ ht

theorem Reads.property_mem {t : Text} (h : Reads n d cs ps rest) (ht : Call.property x t ∈ callsOf ps) :
    ReadsProperty x n d cs := ⟨ps, rest, t, h, ht⟩

theorem ReadsProperty.mem_events {text : Text} (h : ReadsProperty x text.length 0 text) :
    Event.property x ∈ events text := by
  obtain ⟨ps, rest, t, hr, ht⟩ := h
  have hcalls : calls text = callsOf ps ++ (scanFrom recorder text.length (depthAfter 0 ps) rest []).2 := by
    rw [calls, scanDts_eq_scanFrom, hr, replay_recorder, List.nil_append]
    obtain ⟨qs, rest', -, -, hrun⟩ := scanSteps_accounts text.length rest.length (depthAfter 0 ps) rest
    simp only [scanFrom]
    rw [hrun, hrun, replay_recorder, replay_recorder, List.nil_append]
    rfl
  rw [events, hcalls]
  exact List.mem_map.2 ⟨_, List.mem_append_left _ ht, rfl⟩

end

/-- One of the names is not among finitely many. -/
theorem exists_marker (es : List Event) : ∃ m, Event.property (marker m).text ∉ es := by
  have hinj : Function.Injective fun m => Event.property (marker m).text := by
    intro m m' h
    have hlen := congrArg List.length (Event.property.inj h)
    simpa [marker] using hlen
  by_contra hall
  push Not at hall
  refine Set.infinite_range_of_injective hinj (es.finite_toSet.subset ?_)
  rintro _ ⟨m, rfl⟩
  exact hall m

section
variable {m n d : ℕ} {r start u v : Text}

theorem marker_reads (h : At false n ((marker m).text ++ ' ' :: ';' :: r)) :
    Reads n d ((marker m).text ++ ' ' :: ';' :: r)
      [.property (marker m).text ((marker m).text ++ [' ', ';'])] r := by
  have hp := @property_reads n d r false none ⟨marker m, Gap.space, none⟩ rfl rfl
  simp only [Property.text, Property.valueText, Gap.space, Gap.text, Triv.text, List.flatMap_cons,
    List.flatMap_nil, labelText_none, labelled, List.append_assoc, List.nil_append, List.cons_append,
    List.append_nil, Reads.raw_nil_iff] at hp
  exact hp h

theorem skipTrivia_mark (r : Text) :
    skipTrivia (markText (marker m).text 0 ++ r) = (marker m).text ++ ' ' :: ';' :: ' ' :: r := by
  simp only [markText, List.replicate_zero, List.nil_append, List.cons_append, List.append_assoc]
  rw [skipTrivia_blank (by decide), skipTrivia_blank (by decide)]
  exact ((marker m).startsDecl _).skipTrivia

/-- **A comment that is stuck to a name** is read as a part of it, up to its newline. -/
theorem stuck_reads (hs : Declares start) (hn : nameStart n start = v ++ ((mark m 0).text ++ r))
    (hchars : ∀ c ∈ v, isNameChar c) (he : start = u ++ ((mark m 0).text ++ r))
    (hle : ((mark m 0).text ++ r).length ≤ n) :
    Reads n d start
      [.raw (u ++ ['/', '*', '\n', ' ']), .property (marker m).text ((marker m).text ++ [' ', ';'])]
      (' ' :: '*' :: '/' :: r) := by
  rw [mark_text] at hn he hle
  have hnm : NameAt n start (v ++ ['/', '*']) (markText (marker m).text 0 ++ ('*' :: '/' :: r)) := by
    refine ⟨by simp [hn], by simp, ?_, by simp [markText]; decide⟩
    intro c hc
    rcases List.mem_append.1 hc with hc | hc
    · exact hchars c hc
    · rcases List.mem_pair.1 hc with rfl | rfl <;> decide
  have hat : At false n ((marker m).text ++ ' ' :: ';' :: ' ' :: '*' :: '/' :: r) := by
    simp [markText] at hle
    simp [At]
    omega
  refine (hnm.copies hs (skipTrivia_mark _) ?_ ?_ (by simp)).trans (marker_reads hat)
  · exact ((marker m).startsDecl _).skipTrivia ▸ ((marker m).startsDecl _).undeclared
  · rw [he]
    simp [markText]

/-- No label starts at a name with a comment stuck to it. -/
theorem nameStart_stuck (n : ℕ) (hv : ∀ c ∈ v, isDeclChar c) (r : Text) :
    nameStart n (v ++ ((mark m 0).text ++ r)) = v ++ ((mark m 0).text ++ r) := by
  rw [mark_text]
  refine nameStart_none (labelMatch_none n _ (fun h => ?_) (by decide) (by decide) (by decide))
  exact absurd (hv _ h) (by decide)

/-- A name behind a label that is read. -/
theorem name_stuck {first : Bool} {label : Option Label} {name : Name} (hl : labelRead first label)
    (hat : At first n (labelText label ++ (name.text ++ ((mark m 0).text ++ r)))) :
    ReadsProperty (marker m).text n d (labelText label ++ (name.text ++ ((mark m 0).text ++ r))) := by
  have hle : ((mark m 0).text ++ r).length ≤ n := by
    have := hat.le
    simp only [List.length_append] at this ⊢
    omega
  have hr := @labelled_reads n d first label _ name.text (' ' :: '*' :: '/' :: r)
    (fun t => [.raw (t ++ ['/', '*', '\n', ' ']), .property (marker m).text ((marker m).text ++ [' ', ';'])])
    hl (name.startsDecl _) hat (nameStart_stuck n name.chars r) fun pre hdecl hname =>
      stuck_reads hdecl hname (fun c hc => declChar_name c (name.chars c hc)) (by simp) hle
  exact hr.property_mem (List.mem_singleton.2 rfl)

/-- The name of a label. -/
theorem label_stuck {l : Label} {g : Gap} (hbefore : l.before = .comment (mark m 0) :: g)
    (hle : (l.text ++ r).length ≤ n) : ReadsProperty (marker m).text n d (l.text ++ r) := by
  have he : l.text ++ r = l.name.text ++ ((mark m 0).text ++ (g.text ++ ':' :: (l.after.text ++ r))) := by
    simp [Label.text, hbefore, Gap.text, Triv.text]
  have hs := (l.startsDecl r).declares
  rw [he] at hs hle ⊢
  refine (stuck_reads hs (nameStart_stuck n l.name.decl _)
    (fun c hc => declChar_name c (l.name.decl c hc)) rfl ?_).property_mem (List.mem_singleton.2 rfl)
  rw [List.length_append] at hle
  omega

/-- The colon of a label that is not recognised. -/
theorem colon_stuck {first : Bool} {l : Label} {g : Gap} (hafter : l.after = .comment (mark m 0) :: g)
    (hset : l.before.setOff) (hfirst : ¬ (first && l.before.bare)) (hat : At first n (l.text ++ r)) :
    ReadsProperty (marker m).text n d (l.text ++ r) := by
  have hname : ∀ c ∈ l.name.text, isNameChar c := fun c hc => declChar_name c (l.name.decl c hc)
  have hs : nameStart n (l.text ++ r) = l.text ++ r := by
    cases first with
    | false => exact hat.nameStart
    | true => exact nameStart_comment n r (by simpa using hfirst)
  have hdecl := (l.startsDecl r).declares
  rcases hb : l.before with _ | ⟨t, g'⟩
  · have he : l.text ++ r = (l.name.text ++ [':']) ++ ((mark m 0).text ++ (g.text ++ r)) := by
      simp [Label.text, hb, hafter, Gap.text, Triv.text]
    have hle := hat.le
    rw [he] at hs hdecl hle ⊢
    refine (stuck_reads hdecl hs (fun c hc => ?_) rfl ?_).property_mem (List.mem_singleton.2 rfl)
    · rcases List.mem_append.1 hc with hc | hc
      · exact hname c hc
      · rw [List.mem_singleton.1 hc]
        decide
    · rw [List.length_append] at hle
      omega
  · have hspaced : l.before.spaced := by simpa [hb, Gap.setOff] using hset
    have he : l.text ++ r =
        l.name.text ++ (l.before.text ++ ':' :: ((mark m 0).text ++ (g.text ++ r))) := by
      simp [Label.text, hafter, Gap.text, Triv.text]
    have hle := hat.le
    rw [he] at hs hdecl hle ⊢
    have hnm : NameAt n _ l.name.text (l.before.text ++ ':' :: ((mark m 0).text ++ (g.text ++ r))) :=
      ⟨hs, by simp [Ident.text], hname, Gap.stops_of_spaced hspaced _⟩
    have hcopy : Reads n d _ [.raw (l.name.text ++ l.before.text)] (':' :: ((mark m 0).text ++ (g.text ++ r))) :=
      hnm.copiesGap hdecl (by simp [skipTrivia_firm (show isFirm ':' by decide)]) rfl
    have hlater : (':' :: ((mark m 0).text ++ (g.text ++ r))).length < n := by
      have hne : l.name.text ≠ [] := by simp [Ident.text]
      have := List.length_pos_iff.2 hne
      simp only [List.length_append, List.length_cons] at hle ⊢
      omega
    refine ReadsProperty.behind hcopy ?_
    refine (stuck_reads (u := [':']) (v := [':']) ⟨':', _, rfl, by decide, by decide, by decide⟩
      (nameStart_later hlater) (by simp; decide) rfl ?_).property_mem (List.mem_singleton.2 rfl)
    rw [List.length_cons] at hlater
    omega

/-- The label of a reference. -/
theorem target_stuck (target : Ident)
    (hle : ('&' :: (target.text ++ ((mark m 0).text ++ r))).length ≤ n) :
    ReadsProperty (marker m).text n d ('&' :: (target.text ++ ((mark m 0).text ++ r))) := by
  have hchars : ∀ c ∈ target.text ++ ['/', '*'], isReferenceChar c := by
    intro c hc
    rcases List.mem_append.1 hc with hc | hc
    · exact target.reference c hc
    · rcases List.mem_pair.1 hc with rfl | rfl <;> decide
  have he : target.text ++ ((mark m 0).text ++ r) =
      (target.text ++ ['/', '*']) ++ (markText (marker m).text 0 ++ ('*' :: '/' :: r)) := by
    simp [mark_text]
  obtain ⟨x, w, hx, hblank, hbrace⟩ : ∃ x w, (marker m).text ++ ' ' :: ';' :: ' ' :: '*' :: '/' :: r = x :: w ∧
      isBlank x = false ∧ x ≠ '{' := ⟨'x', _, rfl, by decide, by decide⟩
  have hdrop : ((target.text ++ ((mark m 0).text ++ r)).dropWhile isReferenceChar).dropWhile isBlank = x :: w := by
    rw [he, dropWhile_run hchars (by simp [markText]; decide), ← hx]
    simp only [markText, List.replicate_zero, List.nil_append, List.cons_append, List.append_assoc]
    rw [List.dropWhile_cons, if_pos (by decide), List.dropWhile_cons, if_pos (by decide), hx,
      List.dropWhile_cons, if_neg (by simp [hblank])]
  have hsplit : '&' :: (target.text ++ ((mark m 0).text ++ r)) =
      ('&' :: (target.text ++ ['/', '*', '\n', ' '])) ++ (x :: w) := by
    rw [he, ← hx]
    simp [markText]
  have hcopy : Reads n d ('&' :: (target.text ++ ((mark m 0).text ++ r)))
      [.raw ('&' :: (target.text ++ ['/', '*', '\n', ' ']))] (x :: w) := by
    refine Accounts.reads ⟨by simp [Piece.span, hsplit], by rw [hsplit]; exact length_lt_append (by simp) _,
      fun σ cb out s => ?_⟩
    have hstep : scanStep cb ⟨n, '&' :: (target.text ++ ((mark m 0).text ++ r)), d, out⟩ s =
        reference cb ⟨n, '&' :: (target.text ++ ((mark m 0).text ++ r)), d, out⟩
          ('&' :: (target.text ++ ((mark m 0).text ++ r))) (target.text ++ ((mark m 0).text ++ r)) s := by
      simp [scanStep, skipTrivia_firm (show isFirm '&' by decide)]
    rw [hstep]
    simp only [reference, hdrop]
    split
    · rename_i heq
      exact absurd (List.cons.inj heq).1 hbrace
    · rw [hsplit, slice_append]
      simp [Piece.emit, Piece.depth]
  refine ReadsProperty.behind hcopy ?_
  rw [← hx]
  refine (marker_reads ?_).property_mem (List.mem_singleton.2 rfl)
  rw [mark_text] at hle
  simp [markText] at hle
  simp [At]
  omega

/-- The slash of a root block. -/
theorem slash_stuck (hle : ('/' :: ((mark m 0).text ++ r)).length ≤ n) :
    ReadsProperty (marker m).text n d ('/' :: ((mark m 0).text ++ r)) := by
  have hskip : skipTrivia ('/' :: ((mark m 0).text ++ r)) =
      (marker m).text ++ ' ' :: ';' :: ' ' :: '*' :: '/' :: r := by
    have hline : toNewline ('*' :: (markText (marker m).text 0 ++ ('*' :: '/' :: r))) =
        markText (marker m).text 0 ++ ('*' :: '/' :: r) := rfl
    rw [mark_text, skipTrivia, hline, skipTrivia_mark]
  have hcopy := Reads.skip n d ('/' :: ((mark m 0).text ++ r))
  rw [hskip] at hcopy
  refine ReadsProperty.behind hcopy ((marker_reads ?_).property_mem (List.mem_singleton.2 rfl))
  rw [mark_text] at hle
  simp [markText] at hle
  simp [At]
  omega

/-- The `;` of a block. -/
theorem semicolon_stuck (hle : ((mark m 0).text ++ r).length ≤ n) :
    ReadsProperty (marker m).text n d (';' :: ((mark m 0).text ++ r)) := by
  have hm : labelMatch n (';' :: ((mark m 0).text ++ r)) = none :=
    labelMatch_none n (u := []) _ (by simp) (by decide) (by decide) (by decide)
  exact (stuck_reads (u := [';']) (v := [';']) ⟨';', _, rfl, by decide, by decide, by decide⟩
    (nameStart_none hm) (by simp; decide) rfl hle).property_mem (List.mem_singleton.2 rfl)

end

/-! ## In a fixup subtree -/

theorem readBalanced_open (j : ℕ) (r : Text) :
    readBalanced '{' '}' (j + 1) ('{' :: r) = readBalanced '{' '}' (j + 2) r := by
  rw [readBalanced, if_pos rfl] <;> simp

theorem readBalanced_closers (k : ℕ) (r : Text) :
    readBalanced '{' '}' k (List.replicate k '}' ++ r) = r := by
  induction k with
  | zero => rw [List.replicate_zero, List.nil_append, readBalanced]
  | succ k ih =>
    rw [List.replicate_succ, List.cons_append, readBalanced, if_neg (by decide), if_pos rfl, ih] <;> simp

/-- **Behind a slash, a comment is a line comment**, and what follows on its newline is code. -/
theorem readBalanced_slash (m j : ℕ) (r : Text) :
    readBalanced '{' '}' (j + 1) ('/' :: ((mark m (j + 1)).text ++ r)) =
      ' ' :: ((marker m).text ++ ' ' :: ';' :: ' ' :: '*' :: '/' :: r) := by
  have hline : toNewline ('*' :: (markText (marker m).text (j + 1) ++ ('*' :: '/' :: r))) =
      markText (marker m).text (j + 1) ++ ('*' :: '/' :: r) := rfl
  rw [mark_text, (braces_skip j).line, hline, markText, List.cons_append, (braces_skip j).char _ _ (by decide),
    List.append_assoc, readBalanced_closers]
  simp

theorem Gap.Within.mark {g₀ g : Gap} (h : g₀.Within g) (h₀ : g₀.setOff) (h' : ¬ g.setOff) (c : Comment) :
    Gap.Within (.comment c :: g₀) g := by
  have hc : ¬ (Triv.comment c).isBlankTriv := by simp [Triv.isBlankTriv]
  cases h with
  | nil => exact absurd rfl h'
  | @other x _ _ _ heq _ =>
    subst heq
    cases x <;> exact absurd h₀ h'
  | @comment c₀ _ _ _ hc₀ _ _ =>
    cases c₀ with
    | blank => exact absurd rfl hc₀
    | comment => cases h₀
  | left hc' hl => exact .comment hc hc' hl

theorem Gap.Within.not_setOff {g₀ g : Gap} (h : g₀.Within g) (h₀ : g₀.spaced) (h' : ¬ g.spaced) :
    ¬ g.setOff := by
  cases g with
  | nil =>
    cases h
    cases h₀
  | cons t g => exact h'

theorem Value.Within.mark {v₀ v : Value} (h : Value.Within v₀ v) (h₀ : v₀.setOff) (h' : ¬ v.setOff)
    (c : Comment) : Value.Within (.inner (.comment c) :: v₀) v := by
  cases h with
  | nil => exact absurd rfl h'
  | other hx _ => exact absurd (hx.setOff_iff.1 h₀) h'
  | @comment c₀ _ _ _ hc₀ _ _ =>
    rcases c₀ with (g | c | gs) | s | is | is
    · cases hc₀
    · cases h₀
    all_goals cases hc₀
  | left hc' hl => exact .comment rfl hc' hl

/-- Within `j + 1` braces, a reader that comes to `w` stops in front of the marker. -/
def EndsEarly (m j : ℕ) (w : Text) : Prop :=
  ∀ r, ∃ r', readBalanced '{' '}' (j + 1) (w ++ r) = ' ' :: ((marker m).text ++ ' ' :: ';' :: r')

namespace EndsEarly
variable {m j : ℕ} {u w : Text}

theorem behind (hu : Passes (readBalanced '{' '}' (j + 1)) u) (h : EndsEarly m j w) : EndsEarly m j (u ++ w) := by
  intro r
  rw [List.append_assoc, hu]
  exact h r

theorem append (h : EndsEarly m j w) (u : Text) : EndsEarly m j (w ++ u) := by
  intro r
  rw [List.append_assoc]
  exact h (u ++ r)

theorem inside (h : EndsEarly m (j + 1) w) (u : Text) : EndsEarly m j ('{' :: (w ++ u)) := by
  intro r
  rw [List.cons_append, readBalanced_open]
  exact h.append u r

theorem slash (m j : ℕ) (w : Text) : EndsEarly m j ('/' :: ((mark m (j + 1)).text ++ w)) := by
  intro r
  rw [List.cons_append, List.append_assoc, readBalanced_slash]
  exact ⟨_, rfl⟩

end EndsEarly

/-- **A comment behind a slash ends a fixup subtree.** -/
theorem exists_unquiet {b₀ b : Body} (hw : b₀.Within b) (hs : b₀.spaced) (hroot : b.rootless)
    (h : ¬ b.quiet) (m j : ℕ) : ∃ e : Body, e.Within b ∧ EndsEarly m j e.text := by
  have hgap := fun j => (braces_skip j).gap_passes blank_flat
  induction hw generalizing j with
  | done => exact absurd rfl h
  | @directive lead₀ _ d₀ d' rest₀ _ hl hd hr ih =>
    simp only [Body.spaced, Bool.and_eq_true] at hs
    by_cases hargs : d'.args.setOff
    · obtain ⟨e, he, hends⟩ := ih hs.2 hroot (fun hq => h (by simp [Body.quiet, hargs, hq])) j
      exact ⟨.directive lead₀ d₀ e, .directive hl hd he,
        hends.behind ((hgap j lead₀).append (directive_passes j hs.1))⟩
    · refine ⟨.directive lead₀ { d₀ with args := .inner (.comment (mark m (j + 1))) :: d₀.args } rest₀,
        .directive hl ⟨hd.name, hd.args.mark hs.1 hargs _⟩ hr, ?_⟩
      have hname : Passes (readBalanced '{' '}' (j + 1)) ('/' :: d₀.name) := by
        refine (braces_skip j).slash_passes ?_ ?_
        · simpa using d₀.noComment []
        · exact (braces_skip j).run_passes fun x hx => declChar_flat x (d₀.decl x hx)
      have hslash := EndsEarly.slash m j (Value.text d₀.args ++ ';' :: rest₀.text)
      have hends := hslash.behind ((hgap j lead₀).append hname)
      simpa [Body.text, Directive.text, Directive.name, Value.text, Lexeme.text, Inner.text] using hends
  | @property lead₀ _ label₀ _ p₀ _ rest₀ _ hl hlabel hp hr ih =>
    simp only [Body.spaced, Bool.and_eq_true] at hs
    obtain ⟨e, he, hends⟩ := ih hs.2 hroot h j
    exact ⟨.property lead₀ label₀ p₀ e, .property hl hlabel hp he,
      hends.behind (((hgap j lead₀).append (label_passes j label₀)).append (property_passes j p₀))⟩
  | @node lead₀ _ gap₀ _ close₀ _ label₀ _ name body₀ body' rest₀ _ hl hlabel hg hb hc hr ih₁ ih₂ =>
    simp only [Body.spaced, Bool.and_eq_true] at hs
    simp only [Body.rootless, Bool.and_eq_true] at hroot
    have hopen := ((hgap j lead₀).append (label_passes j label₀)).append ((name.passes j).append (hgap j gap₀))
    by_cases hq : body'.quiet
    · obtain ⟨e, he, hends⟩ := ih₂ hs.2 hroot.2 (fun hq' => h (by simp [Body.quiet, hq, hq'])) j
      have hblock := block_passes j (body_neutral body₀ (Body.quiet_of_spaced hs.1.1.2)) close₀
      exact ⟨.node lead₀ label₀ name gap₀ body₀ close₀ e, .node name hl hlabel hg hb hc he,
        hends.behind (hopen.append hblock)⟩
    · obtain ⟨e, he, hends⟩ := ih₁ hs.1.1.2 hroot.1 hq (j + 1)
      exact ⟨.node lead₀ label₀ name gap₀ e close₀ rest₀, .node name hl hlabel hg he hc hr,
        ((hends.inside (Body.blockEnd close₀)).behind hopen).append rest₀.text⟩
  | @reference lead₀ _ gap₀ _ close₀ _ target body₀ body' rest₀ _ hl hg hb hc hr ih₁ ih₂ =>
    simp only [Body.spaced, Bool.and_eq_true] at hs
    simp only [Body.rootless, Bool.and_eq_true] at hroot
    have htarget := (braces_skip j).run_passes fun x hx => declChar_flat x (target.decl x hx)
    have hamp : Passes (readBalanced '{' '}' (j + 1)) ['&'] := (braces_skip j).char_passes (by decide)
    have hopen := (hgap j lead₀).append (hamp.cons (htarget.append (hgap j gap₀)))
    by_cases hq : body'.quiet
    · obtain ⟨e, he, hends⟩ := ih₂ hs.2 hroot.2 (fun hq' => h (by simp [Body.quiet, hq, hq'])) j
      have hblock := block_passes j (body_neutral body₀ (Body.quiet_of_spaced hs.1.1.2)) close₀
      exact ⟨.reference lead₀ target gap₀ body₀ close₀ e, .reference target hl hg hb hc he,
        hends.behind (hopen.append hblock)⟩
    · obtain ⟨e, he, hends⟩ := ih₁ hs.1.1.2 hroot.1 hq (j + 1)
      exact ⟨.reference lead₀ target gap₀ e close₀ rest₀, .reference target hl hg he hc hr,
        ((hends.inside (Body.blockEnd close₀)).behind hopen).append rest₀.text⟩
  | root => cases hroot

end PocketDarwin.PatchDtc
