/-
  What the scanner makes of a document: the pieces it reads, declaration by
  declaration.

  `Body.pieces` gives the pieces of a body, and `body_reads` shows that the
  scanner reads them.  Three things are not as the grammar has them.  A label is
  copied and not handed on with its declaration, except at the start of the text
  (`labelled`).  With a comment between its label and its brace a reference is
  copied: no callback is called and the depth stays, although the closing brace
  counts.  And the root block is copied in the same way.
-/
import PocketDarwin.PatchDtc.Reading

namespace PocketDarwin.PatchDtc

/-! ## The pieces of a body -/

/-- The declaration `own` with its label: what is copied in front of it, and
    what is handed to the callback. -/
def labelled (first : Bool) (label : Option Label) (own : Text) : Text × Text :=
  match label with
  | none => ([], own)
  | some l => if first && l.before.bare then ([], l.text ++ own) else (l.text, own)

/-- The white space at the start of a gap, and the rest of it. -/
def Gap.blanks (g : Gap) : Gap := g.takeWhile Triv.isBlankTriv

def Gap.behindBlanks (g : Gap) : Gap := g.dropWhile Triv.isBlankTriv

/-- The end of a fixup subtree: the part that is handed to the callback, and
    what is copied because a comment stands in front of the `;`. -/
def fixupTail (close : Gap) : Text × Text :=
  if close.bare then (Body.blockEnd close, [])
  else ('}' :: close.blanks.text, close.behindBlanks.text ++ [';'])

/-- The pieces of a closing brace. -/
def closing (close : Gap) : List Piece := [.raw ['}'], .nodeExit, .raw (close.text ++ [';'])]

/-- A node at depth `d` that is taken for a fixup subtree. -/
def IsFixup (d : ℕ) (name : Text) : Prop := d = 0 ∧ name ∈ fixupNodeNames

instance (d : ℕ) (name : Text) : Decidable (IsFixup d name) :=
  decidable_of_iff (d = 0 ∧ fixupNodeNames.contains name) (by simp [IsFixup])

/-- The pieces of a body that is read at depth `d`; `first` says that it stands
    at the start of the text. -/
def Body.pieces : Bool → ℕ → Body → List Piece
  | _, _, .done tail => [.raw tail.text]
  | _, d, .directive lead dir rest =>
    .raw lead.text :: .directive dir.name dir.text (d == 0) :: rest.pieces false d
  | first, d, .property lead label p rest =>
    let t := labelled (first && lead.isEmpty) label p.text
    .raw lead.text :: .raw t.1 :: .property p.name.text t.2 :: rest.pieces false d
  | first, d, .node lead label name gap body close rest =>
    if IsFixup d name.text then
      let own := name.text ++ gap.text ++ '{' :: (body.text ++ (fixupTail close).1)
      let t := labelled (first && lead.isEmpty) label own
      .raw lead.text :: .raw t.1 :: .fixup name.text t.2 :: .raw (fixupTail close).2 ::
        rest.pieces false d
    else
      let t := labelled (first && lead.isEmpty) label (name.text ++ gap.text)
      let inside := body.pieces false (d + 1)
      .raw lead.text :: .raw t.1 :: .nodeOpen name.text t.2 :: .raw ['{'] ::
        (inside ++ (closing close ++ rest.pieces false (depthAfter (d + 1) inside - 1)))
  | _, d, .reference lead target gap body close rest =>
    let decl := '&' :: (target.text ++ gap.text)
    if gap.bare then
      let inside := body.pieces false (d + 1)
      .raw lead.text :: .nodeOpen ['&'] decl :: .raw ['{'] ::
        (inside ++ (closing close ++ rest.pieces false (depthAfter (d + 1) inside - 1)))
    else
      let inside := body.pieces false d
      .raw lead.text :: .raw decl :: .raw ['{'] ::
        (inside ++ (closing close ++ rest.pieces false (depthAfter d inside - 1)))
  | _, d, .root lead gap body close rest =>
    let inside := body.pieces false d
    .raw lead.text :: .raw ('/' :: gap.text) :: .raw ['{'] ::
      (inside ++ (closing close ++ rest.pieces false (depthAfter d inside - 1)))

/-! ## Tokens -/

section
variable {n d : ℕ} {r : Text}

theorem skipTrivia_slash {w : Text} (h : NoComment w) : skipTrivia ('/' :: w) = '/' :: w := by
  obtain ⟨x, w, rfl, h₁, h₂⟩ := h
  rw [skipTrivia, if_neg (by decide)] <;> simp [h₁, h₂]

theorem Lexeme.head (l : Lexeme) : ∃ x w, l.text = x :: w ∧ x ≠ ';' ∧ (w = [] ∨ ¬ isInlineBlank x) := by
  cases l with
  | inner i =>
    cases i with
    | glyph g =>
      cases g with
      | char c h => exact ⟨c, [], rfl, ne_of_class h.1 (by decide), .inl rfl⟩
      | slash c h => exact ⟨'/', [c], rfl, by decide, .inr (by decide)⟩
    | comment c => cases c <;> exact ⟨'/', _, rfl, by decide, .inr (by decide)⟩
    | path gs => exact ⟨'&', _, rfl, by decide, .inr (by decide)⟩
  | string s => exact ⟨'"', _, rfl, by decide, .inr (by decide)⟩
  | cells is => exact ⟨'<', _, rfl, by decide, .inr (by decide)⟩
  | bytes is => exact ⟨'[', _, rfl, by decide, .inr (by decide)⟩

/-- A directive is read up to its own `;`. -/
theorem directiveEnd_args (v : Value) (r : Text) : directiveEnd (v.text ++ ';' :: r) = r := by
  induction v with
  | nil => simp [directiveEnd, Value.text, show isInlineBlank ';' = false by decide]
  | cons l v ih =>
    have hv := readUntilSemicolon_value (l :: v) r
    obtain ⟨x, w, he, hx, hw⟩ := l.head
    by_cases hb : isInlineBlank x
    · obtain rfl : w = [] := by
        rcases hw with hw | hw
        · exact hw
        · exact absurd hb hw
      simpa [Value.text, he, directiveEnd, hb] using ih
    · simp only [Value.text, List.flatMap_cons, he, List.append_assoc, List.cons_append] at hv ⊢
      unfold directiveEnd
      rw [List.dropWhile_cons, if_neg hb]
      split
      · rename_i heq
        exact absurd (List.cons.inj heq).1 hx
      · exact hv

theorem Directive.noComment (dir : Directive) (r : Text) : NoComment (dir.name ++ r) := by
  have h₁ := dir.isHead
  refine ⟨dir.head, _, rfl, ?_, ?_⟩ <;>
  · rintro he
    rw [he] at h₁
    exact absurd h₁ (by decide)

theorem Directive.undeclared (dir : Directive) (r : Text) :
    ∀ c ∈ (skipTrivia (dir.text ++ r)).head?, c ≠ '{' ∧ c ≠ '=' ∧ c ≠ ';' := by
  rw [Directive.text, List.cons_append, List.append_assoc, skipTrivia_slash (dir.noComment _)]
  simp

theorem directive_reads (dir : Directive) :
    Reads n d (dir.text ++ r) [.directive dir.name dir.text (d == 0)] r := by
  have he : dir.text ++ r = '/' :: (dir.name ++ '/' :: (dir.args.text ++ ';' :: r)) := by
    simp [Directive.text]
  have hm : directiveMatch (dir.text ++ r) = some (dir.name, dir.args.text ++ ';' :: r) := by
    have hstop : ∀ c ∈ ('/' :: (dir.args.text ++ ';' :: r)).head?, ¬ isDirectiveChar c := by
      simp; decide
    rw [he, Directive.name, List.cons_append]
    simp only [directiveMatch, dir.isHead, if_true, dropWhile_run dir.isTail hstop,
      takeWhile_run dir.isTail hstop]
  refine Accounts.reads ⟨by simp [Piece.span], length_lt_append (by simp [Directive.text]) r,
    fun σ cb out s => ?_⟩
  have hskip : skipTrivia (dir.text ++ r) = dir.text ++ r := by
    rw [he, skipTrivia_slash (dir.noComment _)]
  have hstep : scanStep cb ⟨n, dir.text ++ r, d, out⟩ s =
      slash cb ⟨n, dir.text ++ r, d, out⟩ (dir.text ++ r) (dir.text ++ r).tail s := by
    unfold scanStep
    simp only [hskip, slice_self, List.append_nil]
    simp [he]
  rw [hstep]
  simp only [slash, hm, directiveEnd_args, slice_append]
  simp [Piece.emit, Piece.depth]

/-- A character that is part of no token is copied. -/
theorem stray_reads {c : Char} (hc : isFirm c ∧ c ≠ '}' ∧ c ≠ '&')
    (hname : ¬ isNameChar c ∧ ¬ isIdentChar c ∧ ¬ isSpace c ∧ c ≠ ':') :
    Reads n d (c :: r) [.raw [c]] r := by
  have hm : labelMatch n (c :: r) = none :=
    labelMatch_none n (u := []) r (by simp) hname.2.1 hname.2.2.1 hname.2.2.2
  refine Accounts.reads ⟨by simp [Piece.span], by simp, fun σ cb out s => ?_⟩
  rw [scanStep_declares ⟨c, r, rfl, hc⟩]
  simp [declaration, nameStart_none hm, Piece.emit, Piece.depth, hname.1]

/-- A brace that no name stands in front of is copied. -/
theorem brace_reads : Reads n d ('{' :: r) [.raw ['{']] r := stray_reads (by decide) (by decide)

/-- The slash of a root block is copied. -/
theorem slash_reads {w : Text} (h : NoComment w) (ha : ∀ c ∈ w.head?, ¬ c.isAlpha) :
    Reads n d ('/' :: w) [.raw ['/']] w := by
  refine Accounts.reads ⟨by simp [Piece.span], by simp, fun σ cb out s => ?_⟩
  obtain ⟨x, w, rfl, h₁, h₂⟩ := h
  have hskip : skipTrivia ('/' :: x :: w) = '/' :: x :: w := skipTrivia_slash ⟨x, w, rfl, h₁, h₂⟩
  have hx : x.isAlpha = false := by simpa using ha
  have hm : directiveMatch ('/' :: x :: w) = none := by simp [directiveMatch, hx]
  unfold scanStep
  simp [hskip, slash, hm, Piece.emit, Piece.depth]

theorem Gap.bare_iff {g : Gap} : g.bare ↔ g.behindBlanks = [] := by
  simp [Gap.bare, Gap.behindBlanks, List.dropWhile_eq_nil_iff]

theorem Gap.text_blanks (g : Gap) : g.blanks.text ++ g.behindBlanks.text = g.text := by
  rw [Gap.text, Gap.text, Gap.text, ← List.flatMap_append, Gap.blanks, Gap.behindBlanks,
    List.takeWhile_append_dropWhile]

theorem Gap.blanks_blank (g : Gap) : ∀ c ∈ g.blanks.text, isBlank c := by
  intro c hc
  obtain ⟨t, ht, hct⟩ := List.mem_flatMap.1 hc
  have := List.mem_takeWhile_imp ht
  cases t with
  | blank c' h =>
    obtain rfl : c = c' := by simpa [Triv.text] using hct
    exact h
  | comment c' => simp [Triv.isBlankTriv] at this

/-- Behind the white space of a gap stands a comment, or the end of the gap. -/
theorem Gap.behindBlanks_head (g : Gap) :
    g.behindBlanks = [] ∨ ∃ w, g.behindBlanks.text = '/' :: w := by
  induction g with
  | nil => exact .inl rfl
  | cons t g ih =>
    cases t with
    | blank c h => exact ih
    | comment c => cases c <;> exact .inr ⟨_, rfl⟩

/-- White space is read up to a comment or what is behind the gap. -/
theorem Gap.dropBlanks (g : Gap) {r : Text} (hr : ∀ c ∈ r.head?, ¬ isBlank c) :
    (g.text ++ r).dropWhile isBlank = g.behindBlanks.text ++ r := by
  rw [← g.text_blanks, List.append_assoc]
  refine dropWhile_run g.blanks_blank ?_
  rcases g.behindBlanks_head with h | ⟨w, h⟩
  · rw [h]
    exact hr
  · rw [h]
    simp; decide

/-! ## Blocks -/

theorem Ident.reference (target : Ident) : ∀ c ∈ target.text, isReferenceChar c := by
  intro c hc
  have hd := target.decl c hc
  have h₁ : isBlank c = false := by
    rw [Bool.eq_false_iff]
    exact fun hb => blank_not_name c hb (declChar_name c hd)
  simp [isReferenceChar, h₁, ne_of_class hd (x := '{') (by decide)]

/-- A block, up to its opening brace. -/
theorem reference_reads (target : Ident) {gap : Gap} (hg : gap.setOff) :
    Reads n d ('&' :: (target.text ++ gap.text) ++ '{' :: r)
      (if gap.bare then [.nodeOpen ['&'] ('&' :: (target.text ++ gap.text)), .raw ['{']]
        else [.raw ('&' :: (target.text ++ gap.text)), .raw ['{']]) r := by
  have hstop : ∀ c ∈ (gap.text ++ '{' :: r).head?, ¬ isReferenceChar c := by
    rcases gap with _ | ⟨t | c, g⟩
    · simp [Gap.text]; decide
    · rename_i hb
      intro c hc
      obtain rfl : _ = c := by simpa [Gap.text, Triv.text] using hc
      simp [isReferenceChar, hb]
    · simp [Gap.setOff, Gap.spaced] at hg
  have hdrop : ((target.text ++ (gap.text ++ '{' :: r)).dropWhile isReferenceChar).dropWhile isBlank =
      gap.behindBlanks.text ++ '{' :: r := by
    rw [dropWhile_run target.reference hstop]
    exact gap.dropBlanks (by simp; decide)
  have he : '&' :: (target.text ++ gap.text)
      ++ '{' :: r = '&' :: (target.text ++ (gap.text ++ '{' :: r)) := by
    simp
  have hstep : ∀ (σ : Type) (cb : ScanCallbacks σ) (out : Text) (s : σ),
      scanStep cb ⟨n, '&' :: (target.text ++ gap.text) ++ '{' :: r, d, out⟩ s =
        reference cb ⟨n, '&' :: (target.text ++ gap.text) ++ '{' :: r, d, out⟩
          ('&' :: (target.text ++ gap.text) ++ '{' :: r) (target.text ++ (gap.text ++ '{' :: r)) s := by
    intro σ cb out s
    rw [he]
    simp [scanStep, skipTrivia_firm (show isFirm '&' by decide)]
  split_ifs with hb
  · rw [Gap.bare_iff.1 hb] at hdrop
    refine Accounts.reads ⟨by simp [Piece.span], by simp; omega, fun σ cb out s => ?_⟩
    rw [hstep]
    simp only [reference, hdrop, Gap.text_nil, List.nil_append]
    rw [slice_append]
    simp [Piece.emit, Piece.depth]
  · -- the comment is left to the next iteration
    have hne : gap.behindBlanks ≠ [] := fun h => hb (Gap.bare_iff.2 h)
    obtain ⟨w, hw⟩ := gap.behindBlanks_head.resolve_left hne
    have h₁ : Reads n d ('&' :: (target.text ++ gap.text) ++ '{' :: r)
        [.raw ('&' :: (target.text ++ gap.blanks.text))] (gap.behindBlanks.text ++ '{' :: r) := by
      have hpre : '&' :: (target.text ++ gap.text) ++ '{' :: r =
          '&' :: (target.text ++ gap.blanks.text) ++ (gap.behindBlanks.text ++ '{' :: r) := by
        rw [← gap.text_blanks]
        simp
      refine Accounts.reads ⟨by rw [hpre]; simp [Piece.span], ?_, fun σ cb out s => ?_⟩
      · rw [hpre]
        exact length_lt_append (by simp) _
      · rw [hstep]
        simp only [reference, hdrop]
        split
        · rename_i heq
          simp [hw] at heq
        · rw [hpre, slice_append]
          simp [Piece.emit, Piece.depth]
    have h₂ := (h₁.trans (Reads.gap n d gap.behindBlanks _)).join
    have h₃ := h₂.trans brace_reads
    rwa [show '&' :: (target.text ++ gap.blanks.text) ++ gap.behindBlanks.text =
      '&' :: (target.text ++ gap.text) by rw [← gap.text_blanks]; simp] at h₃

theorem Gap.setOff_of_bare {g : Gap} (h : g.bare) : g.setOff := by
  rcases g with _ | ⟨t | c, g⟩
  · rfl
  · rfl
  · simp [Gap.bare, Triv.isBlankTriv] at h

/-- A block of a reference without a comment in front of its brace. -/
theorem bareReference_reads (target : Ident) {gap : Gap} (hg : gap.bare) :
    Reads n d ('&' :: (target.text ++ gap.text) ++ '{' :: r)
      [.nodeOpen ['&'] ('&' :: (target.text ++ gap.text)), .raw ['{']] r := by
  have h := reference_reads (n := n) (d := d) (r := r) target (Gap.setOff_of_bare hg)
  rwa [if_pos hg] at h

theorem root_reads {gap : Gap} (hg : gap.setOff) :
    Reads n d ('/' :: gap.text ++ '{' :: r) [.raw ('/' :: gap.text), .raw ['{']] r := by
  have h₁ : Reads n d ('/' :: (gap.text ++ '{' :: r)) [.raw ['/']] (gap.text ++ '{' :: r) := by
    refine slash_reads (Gap.noComment hg ⟨'{', r, rfl, by decide, by decide⟩) fun c hc ha => ?_
    have hname : ∀ c ∈ (gap.text ++ '{' :: r).head?, ¬ isNameChar c :=
      Gap.stops blank_not_name hg (by simp; decide)
    exact hname c hc (by simp [isNameChar, Char.isAlphanum, ha])
  exact (h₁.trans (Reads.gap n d gap _)).join.trans brace_reads

/-- What may follow a block: it does not run on from the `;`, and does not make a
    declaration of it. -/
structure Follows (r : Text) : Prop where
  stops : ∀ c ∈ r.head?, ¬ isNameChar c
  undeclared : ∀ c ∈ (skipTrivia r).head?, c ≠ '{' ∧ c ≠ '=' ∧ c ≠ ';'

theorem semicolon_reads (h : Follows r) : Reads n d (';' :: r) [.raw [';']] r := by
  have hm : labelMatch n (';' :: r) = none :=
    labelMatch_none n (u := []) r (by simp) (by decide) (by decide) (by decide)
  have hat : NameAt n (';' :: r) [';'] r :=
    ⟨nameStart_none hm, by simp, by simp; decide, h.stops⟩
  exact hat.copiesGap (g := []) ⟨';', r, rfl, by decide, by decide, by decide⟩ h.undeclared rfl

theorem scanStep_close {σ : Type} (cb : ScanCallbacks σ) (out : Text) (s : σ) :
    scanStep cb ⟨n, '}' :: r, d, out⟩ s = closeBrace cb ⟨n, '}' :: r, d, out⟩ r s := by
  simp [scanStep, skipTrivia_firm (show isFirm '}' by decide)]

/-- A closing brace whose `;` is behind a comment: the scanner stops behind the brace. -/
theorem exit_reads {close : Gap} (hb : ¬ close.bare) :
    Reads n d (Body.blockEnd close ++ r) [.raw ['}'], .nodeExit] (close.text ++ ';' :: r) := by
  have he : Body.blockEnd close ++ r = '}' :: (close.text ++ ';' :: r) := by simp [Body.blockEnd]
  have hdrop := close.dropBlanks (r := ';' :: r) (by simp; decide)
  have hne : close.behindBlanks ≠ [] := fun h => hb (Gap.bare_iff.2 h)
  obtain ⟨w, hw⟩ := close.behindBlanks_head.resolve_left hne
  rw [he]
  refine Accounts.reads ⟨by simp [Piece.span], by simp, fun σ cb out s => ?_⟩
  simp only [scanStep_close, closeBrace, hdrop]
  split
  · rename_i heq
    simp [hw] at heq
  · simp [Piece.emit, Piece.depth]

theorem close_reads (close : Gap) (h : close.bare ∨ Follows r) :
    Reads n d (Body.blockEnd close ++ r) (closing close) r := by
  by_cases hb : close.bare
  · have he : Body.blockEnd close ++ r = '}' :: (close.text ++ ';' :: r) := by simp [Body.blockEnd]
    have hdrop := close.dropBlanks (r := ';' :: r) (by simp; decide)
    rw [Gap.bare_iff.1 hb] at hdrop
    rw [he]
    refine Accounts.reads ⟨by simp [closing, Piece.span], by simp; omega, fun σ cb out s => ?_⟩
    simp only [scanStep_close, closeBrace, hdrop, Gap.text_nil, List.nil_append]
    rw [slice_append]
    simp [closing, Piece.emit, Piece.depth]
  · have h₂ := (Reads.gap n (d - 1) close (';' :: r)).trans (semicolon_reads (h.resolve_left hb))
    exact (exit_reads hb).trans h₂.join

/-- The end of a fixup subtree. -/
theorem fixupEnd_body {b : Body} (hb : b.quiet) (close : Gap) (r : Text) :
    fixupEnd (b.text ++ (Body.blockEnd close ++ r)) =
      if close.bare then r else close.behindBlanks.text ++ ';' :: r := by
  have he : b.text ++ (Body.blockEnd close ++ r) = b.text ++ '}' :: (close.text ++ ';' :: r) := by
    simp [Body.blockEnd]
  have hdrop := close.dropBlanks (r := ';' :: r) (by simp; decide)
  rw [he, fixupEnd, (body_neutral b hb).inside (by decide) (by decide) (by decide), hdrop]
  split_ifs with hc
  · rw [Gap.bare_iff.1 hc]
    rfl
  · have hne : close.behindBlanks ≠ [] := fun h => hc (Gap.bare_iff.2 h)
    obtain ⟨w, hw⟩ := close.behindBlanks_head.resolve_left hne
    rw [hw]
    split
    · rename_i heq
      simp at heq
    · rfl

/-! ## Labelled declarations -/

/-- The position `cs` in a text of length `n` is its start, or behind it. -/
def At (first : Bool) (n : ℕ) (cs : Text) : Prop := if first then cs.length = n else cs.length < n

theorem At.le {first : Bool} {cs : Text} (h : At first n cs) : cs.length ≤ n := by
  cases first <;> simp [At] at h <;> omega

theorem At.later {first : Bool} {w cs : Text} (h : At first n (w ++ cs)) (hw : w ≠ []) :
    At false n cs := by
  have h₁ := h.le
  have h₂ := length_lt_append hw cs
  simp only [At, Bool.false_eq_true, if_false]
  omega

theorem At.behindText {w cs : Text} (h : At false n (w ++ cs)) : At false n cs := by
  simp only [At, Bool.false_eq_true, if_false, List.length_append] at h ⊢
  omega

theorem At.nameStart {cs : Text} (h : At false n cs) : nameStart n cs = cs :=
  nameStart_later (by simpa [At] using h)

theorem Reads.raw_nil_iff {cs : Text} {ps : List Piece} :
    Reads n d cs (.raw [] :: ps) r ↔ Reads n d cs ps r := by
  simp [Reads, Piece.emit, Piece.depth]

theorem Reads.raw_nil {cs : Text} {ps : List Piece} (h : Reads n d cs ps r) :
    Reads n d cs (.raw [] :: ps) r := Reads.raw_nil_iff.2 h

/-- A label is recognised, or it is copied and what is behind it read on its own. -/
def labelRead (first : Bool) : Option Label → Bool
  | none => true
  | some l => (first && l.before.bare) || l.spaced

theorem labelRead_of_spaced {label : Option Label} (h : labelSpaced label) (first : Bool) :
    labelRead first label := by
  cases label with
  | none => rfl
  | some l => exact Bool.or_eq_true_iff.2 (.inr h)

/-- **A labelled declaration**: if the declaration is read from its name on, and
    from a label in front of it that is recognised, then it is read with any
    label. -/
theorem labelled_reads {first : Bool} {label : Option Label} {cs own e : Text}
    {f : Text → List Piece} (hl : labelRead first label) (hcs : StartsDecl cs)
    (hat : At first n (labelText label ++ cs)) (hbare : nameStart n cs = cs)
    (hdecl : ∀ pre, Declares (pre ++ cs) → nameStart n (pre ++ cs) = cs →
      Reads n d (pre ++ cs) (f (pre ++ own)) e) :
    Reads n d (labelText label ++ cs)
      (.raw (labelled first label own).1 :: f (labelled first label own).2) e := by
  cases label with
  | none => exact (hdecl [] hcs.declares hbare).raw_nil
  | some l =>
    simp only [labelText] at hat ⊢
    by_cases hf : first && l.before.bare
    · simp only [labelled, if_pos hf]
      simp only [Bool.and_eq_true] at hf
      have hlen : (l.text ++ cs).length = n := by simpa [At, hf.1] using hat
      exact (hdecl l.text (l.startsDecl cs).declares (nameStart_labelled hcs hf.2 hlen)).raw_nil
    · simp only [labelled, if_neg hf]
      have hs : nameStart n (l.text ++ cs) = l.text ++ cs := by
        cases first with
        | false => exact hat.nameStart
        | true => exact nameStart_comment n cs (by simpa using hf)
      have hspaced : l.spaced := (Bool.or_eq_true_iff.1 hl).resolve_left hf
      exact (label_reads d hspaced hcs.undeclared hat.le hs).trans (hdecl [] hcs.declares hbare)

theorem property_reads {first : Bool} {label : Option Label} {p : Property} (hl : labelRead first label)
    (hg : p.gap.spaced) (hat : At first n (labelText label ++ (p.text ++ r))) :
    Reads n d (labelText label ++ (p.text ++ r))
      [.raw (labelled first label p.text).1, .property p.name.text (labelled first label p.text).2] r := by
  obtain ⟨x, v, hv, hx⟩ : ∃ x v, Property.valueText p.value = x :: v ∧ (x = ';' ∨ x = '=') := by
    cases p.value with
    | none => exact ⟨';', [], rfl, .inl rfl⟩
    | some v => exact ⟨'=', _, rfl, .inr rfl⟩
  have he : p.text ++ r = p.name.text ++ (p.gap.text ++ x :: (v ++ r)) := by
    simp [Property.text, hv]
  have hstart : StartsDecl (p.text ++ r) := he ▸ p.name.startsDecl _
  have hne : p.text ≠ [] := by simp [Property.text, p.name.nonempty]
  have hx' : ¬ isIdentChar x ∧ ¬ isSpace x ∧ x ≠ ':' ∧ isFirm x := by
    rcases hx with rfl | rfl <;> decide
  refine labelled_reads (f := fun t => [.property p.name.text t]) hl hstart hat ?_
    fun pre hdecl hname => ?_
  · rw [he]
    exact nameStart_bare n p.name.chars p.gap (v ++ r) hx'.1 hx'.2.1 hx'.2.2.1
  have hnm : NameAt n (pre ++ (p.text ++ r)) p.name.text (p.gap.text ++ x :: (v ++ r)) := by
    refine ⟨by rw [hname, he], p.name.nonempty, fun c hc => declChar_name c (p.name.chars c hc), ?_⟩
    exact Gap.stops_of_spaced hg _
  have hskip : skipTrivia (p.gap.text ++ x :: (v ++ r)) = x :: (v ++ r) := by
    rw [skipTrivia_gap, skipTrivia_firm hx'.2.2.2]
  cases hval : p.value with
  | none =>
    obtain ⟨rfl, rfl⟩ : ';' = x ∧ [] = v := by simpa [hval, Property.valueText] using hv
    exact hnm.flags hdecl hskip (by simp) (by simp [hne])
  | some w =>
    obtain ⟨rfl, rfl⟩ : '=' = x ∧ w.text ++ [';'] = v := by simpa [hval, Property.valueText] using hv
    refine hnm.assigns hdecl hskip ?_ (by simp) (by simp [hne])
    rw [semicolon_skips.char _ _ (by decide), List.append_assoc]
    exact readUntilSemicolon_value w r

/-- The opening of a node. -/
theorem node_reads {first : Bool} {label : Option Label} {name : Name} {gap : Gap}
    (hl : labelRead first label) (hg : gap.setOff)
    (hat : At first n (labelText label ++ (name.text ++ gap.text ++ '{' :: r)))
    (hf : ¬ IsFixup d name.text) :
    Reads n d (labelText label ++ (name.text ++ gap.text ++ '{' :: r))
      [.raw (labelled first label (name.text ++ gap.text)).1,
        .nodeOpen name.text (labelled first label (name.text ++ gap.text)).2, .raw ['{']] r := by
  have he : name.text ++ gap.text ++ '{' :: r = name.text ++ (gap.text ++ '{' :: r) := by simp
  refine labelled_reads (f := fun t => [.nodeOpen name.text t, .raw ['{']]) hl
    (he ▸ name.startsDecl _) hat ?_ fun pre hdecl hname => ?_
  · rw [he]
    exact nameStart_bare n name.chars gap r (by decide) (by decide) (by decide)
  refine NameAt.opens (w := gap.text ++ '{' :: r) ⟨by rw [hname, he], name.nonempty,
    fun c hc => declChar_name c (name.chars c hc), Gap.stops blank_not_name hg (by simp; decide)⟩
      hdecl ?_ (by simp) hf
  rw [skipTrivia_gap, skipTrivia_firm (by decide)]

/-- A fixup subtree at depth 0, with `w` behind its opening brace. -/
theorem fixup_opens {first : Bool} {label : Option Label} {name : Name} {gap : Gap} {w own : Text}
    (hl : labelRead first label) (hg : gap.setOff)
    (hat : At first n (labelText label ++ (name.text ++ gap.text ++ '{' :: w))) (hf : IsFixup d name.text)
    (hown : name.text ++ gap.text ++ '{' :: w = own ++ fixupEnd w) (hne : own ≠ []) :
    Reads n d (labelText label ++ (name.text ++ gap.text ++ '{' :: w))
      [.raw (labelled first label own).1, .fixup name.text (labelled first label own).2] (fixupEnd w) := by
  have he : name.text ++ gap.text ++ '{' :: w = name.text ++ (gap.text ++ '{' :: w) := by simp
  refine labelled_reads (f := fun t => [.fixup name.text t]) hl (he ▸ name.startsDecl _) hat ?_
    fun pre hdecl hname => ?_
  · rw [he]
    exact nameStart_bare n name.chars gap _ (by decide) (by decide) (by decide)
  have hnm : NameAt n (pre ++ (name.text ++ gap.text ++ '{' :: w)) name.text (gap.text ++ '{' :: w) :=
    ⟨by rw [hname, he], name.nonempty, fun c hc => declChar_name c (name.chars c hc),
      Gap.stops blank_not_name hg (by simp; decide)⟩
  have hskip : skipTrivia (gap.text ++ '{' :: w) = '{' :: w := by
    rw [skipTrivia_gap, skipTrivia_firm (by decide)]
  refine hnm.fixes hdecl hskip ?_ (by simp [hne]) hf
  rw [hown, List.append_assoc]

/-- A fixup subtree. -/
theorem fixup_reads {first : Bool} {label : Option Label} {name : Name} {gap close : Gap} {b : Body}
    (hl : labelRead first label) (hg : gap.setOff) (hb : b.quiet) (hr : close.bare ∨ Follows r)
    (hat : At first n
      (labelText label ++ (name.text ++ gap.text ++ '{' :: (b.text ++ (Body.blockEnd close ++ r)))))
    (hf : IsFixup d name.text) {own : Text}
    (hown : own = name.text ++ gap.text ++ '{' :: (b.text ++ (fixupTail close).1)) :
    Reads n d
      (labelText label ++ (name.text ++ gap.text ++ '{' :: (b.text ++ (Body.blockEnd close ++ r))))
      [.raw (labelled first label own).1, .fixup name.text (labelled first label own).2,
        .raw (fixupTail close).2] r := by
  have hend := fixupEnd_body hb close r
  have hsplit : name.text ++ gap.text ++ '{' :: (b.text ++ (Body.blockEnd close ++ r)) =
      own ++ fixupEnd (b.text ++ (Body.blockEnd close ++ r)) := by
    rw [hend, hown, fixupTail]
    split_ifs with hc
    · simp
    · simp only [Body.blockEnd, List.append_assoc, List.cons_append, List.nil_append]
      rw [← close.text_blanks]
      simp
  have h₁ := fixup_opens hl hg hat hf hsplit (by simp [hown])
  rw [hend] at h₁
  simp only [fixupTail]
  by_cases hc : close.bare
  · rw [if_pos hc] at h₁ ⊢
    exact h₁.trans Reads.refl.raw_nil
  · rw [if_neg hc] at h₁ ⊢
    have h₂ := (Reads.gap n d close.behindBlanks _).trans (semicolon_reads (hr.resolve_left hc))
    exact h₁.trans h₂.join

end

/-! ## Bodies -/

/-- What follows a body: the end of the text, or a closing brace. -/
def Ends (after : Text) : Prop := after = [] ∨ ∃ r, after = '}' :: r

theorem Ends.undeclared {after : Text} (h : Ends after) :
    ∀ c ∈ (skipTrivia after).head?, c ≠ '{' ∧ c ≠ '=' ∧ c ≠ ';' := by
  rcases h with rfl | ⟨r, rfl⟩
  · simp [skipTrivia]
  · simp [skipTrivia_firm (show isFirm '}' by decide)]

theorem Ends.stops {after : Text} (h : Ends after) : ∀ c ∈ after.head?, ¬ isNameChar c := by
  rcases h with rfl | ⟨r, rfl⟩
  · simp
  · simp; decide

/-- The slash of a root block in front starts no comment. -/
def Body.slashSetOff : Body → Bool
  | .root _ gap _ _ _ => gap.setOff
  | _ => true

/-- The first token of a declaration. -/
theorem body_undeclared {b : Body} (hb : b.slashSetOff) {after : Text} (ha : Ends after) :
    ∀ c ∈ (skipTrivia (b.text ++ after)).head?, c ≠ '{' ∧ c ≠ '=' ∧ c ≠ ';' := by
  cases b with
  | done tail =>
    rw [Body.text, skipTrivia_gap]
    exact ha.undeclared
  | directive lead dir rest =>
    simp only [Body.text, List.append_assoc]
    rw [skipTrivia_gap]
    exact dir.undeclared _
  | property lead label p rest =>
    simp only [Body.text, List.append_assoc]
    rw [skipTrivia_gap]
    cases label with
    | none =>
      simp only [labelText, Property.text, List.nil_append, List.append_assoc]
      exact (p.name.startsDecl _).undeclared
    | some l => exact (l.startsDecl _).undeclared
  | node lead label name gap body close rest =>
    simp only [Body.text, List.append_assoc]
    rw [skipTrivia_gap]
    cases label with
    | none => exact (name.startsDecl _).undeclared
    | some l => exact (l.startsDecl _).undeclared
  | reference lead target gap body close rest =>
    simp only [Body.text, List.append_assoc, List.cons_append]
    rw [skipTrivia_gap, skipTrivia_firm (by decide)]
    simp
  | root lead gap body close rest =>
    simp only [Body.text, List.append_assoc, List.cons_append]
    rw [skipTrivia_gap, skipTrivia_slash (Gap.noComment hb ⟨'{', _, rfl, by decide, by decide⟩)]
    simp

theorem body_follows {b : Body} (hb : b.slashSetOff) (hl : b.spacedLead) {after : Text} (ha : Ends after) :
    Follows (b.text ++ after) := by
  refine ⟨?_, body_undeclared hb ha⟩
  cases b with
  | done tail => exact Gap.stops blank_not_name hl ha.stops
  | directive | property | node | reference | root =>
    simp only [Body.text, List.append_assoc]
    exact Gap.stops_of_spaced hl _

theorem gap_text_ne_nil {g : Gap} (h : g ≠ []) : g.text ≠ [] := by
  rcases g with _ | ⟨t | c, g⟩
  · exact absurd rfl h
  · simp [Gap.text, Triv.text]
  · cases c <;> simp [Gap.text, Triv.text, Comment.text]

/-- Behind the gap in front of a declaration. -/
theorem At.behind {n : ℕ} {first : Bool} {lead : Gap} {cs : Text}
    (h : At first n (lead.text ++ cs)) : At (first && lead.isEmpty) n cs := by
  cases lead with
  | nil => simpa using h
  | cons t g =>
    have := h.later (gap_text_ne_nil (by simp))
    simpa using this

/-- Behind the braces of a block. -/
theorem At.block {n : ℕ} {first : Bool} {w x y : Text} {close : Gap}
    (h : At first n (w ++ '{' :: (x ++ (Body.blockEnd close ++ y)))) :
    At false n (x ++ (Body.blockEnd close ++ y)) ∧ At false n y := by
  rw [show ∀ z : Text, w ++ '{' :: z = (w ++ ['{']) ++ z by simp] at h
  have hinside := h.later (by simp)
  refine ⟨hinside, ?_⟩
  rw [← List.append_assoc] at hinside
  exact hinside.later (by simp [Body.blockEnd])

theorem At.labelledBlock {n : ℕ} {first : Bool} {w v x y : Text} {close : Gap}
    (h : At first n (w ++ (v ++ '{' :: (x ++ (Body.blockEnd close ++ y))))) :
    At false n (x ++ (Body.blockEnd close ++ y)) ∧ At false n y := by
  rw [← List.append_assoc] at h
  exact h.block

namespace Body
variable (lead gap close : Gap) (body rest : Body) (after : Text)

theorem text_node (label : Option Label) (name : Name) :
    (node lead label name gap body close rest).text ++ after = lead.text ++ (labelText label ++
      (name.text ++ gap.text ++ '{' :: (body.text ++ (blockEnd close ++ (rest.text ++ after))))) := by
  simp [text]

theorem text_reference (target : Ident) :
    (reference lead target gap body close rest).text ++ after = lead.text ++
      ('&' :: (target.text ++ gap.text) ++
        '{' :: (body.text ++ (blockEnd close ++ (rest.text ++ after)))) := by
  simp [text]

theorem text_root : (root lead gap body close rest).text ++ after = lead.text ++
    ('/' :: gap.text ++ '{' :: (body.text ++ (blockEnd close ++ (rest.text ++ after)))) := by
  simp [text]

end Body

/-- **What the scanner has to find** in a body at depth `d` for its pieces: labels that are read by
    themselves, names and the slashes of root blocks that no comment is stuck to, and no comment
    behind a `;` that the scanner does not read with its brace.  Of a fixup subtree only the braces
    matter. -/
def Body.Sound : Bool → ℕ → Body → Prop
  | _, _, .done _ => True
  | _, d, .directive _ _ rest => rest.Sound false d
  | first, d, .property lead label p rest =>
    labelRead (first && lead.isEmpty) label ∧ p.gap.spaced ∧ rest.Sound false d
  | first, d, .node lead label name gap body close rest =>
    labelRead (first && lead.isEmpty) label ∧ gap.setOff ∧ (close.bare ∨ rest.spacedLead) ∧
      if IsFixup d name.text then body.quiet ∧ rest.Sound false d
      else body.Sound false (d + 1) ∧
        rest.Sound false (depthAfter (d + 1) (body.pieces false (d + 1)) - 1)
  | _, d, .reference _ _ gap body close rest =>
    gap.setOff ∧ (close.bare ∨ rest.spacedLead) ∧
      if gap.bare then body.Sound false (d + 1) ∧
        rest.Sound false (depthAfter (d + 1) (body.pieces false (d + 1)) - 1)
      else body.Sound false d ∧ rest.Sound false (depthAfter d (body.pieces false d) - 1)
  | _, d, .root _ gap body close rest =>
    gap.setOff ∧ (close.bare ∨ rest.spacedLead) ∧ body.Sound false d ∧
      rest.Sound false (depthAfter d (body.pieces false d) - 1)

theorem Body.sound_of_spaced {b : Body} (h : b.spaced) (first : Bool) (d : ℕ) : b.Sound first d := by
  induction b generalizing first d with
  | done tail => trivial
  | directive lead dir rest ih =>
    simp only [spaced, Bool.and_eq_true] at h
    exact ih h.2 false d
  | property lead label p rest ih =>
    simp only [spaced, Bool.and_eq_true] at h
    exact ⟨labelRead_of_spaced h.1.1 _, h.1.2, ih h.2 false d⟩
  | node lead label name gap body close rest ih₁ ih₂ =>
    simp only [spaced, Bool.and_eq_true] at h
    obtain ⟨⟨⟨⟨hl, hg⟩, hbody⟩, hlead⟩, hrest⟩ := h
    refine ⟨labelRead_of_spaced hl _, hg, .inr hlead, ?_⟩
    split_ifs
    · exact ⟨quiet_of_spaced hbody, ih₂ hrest false d⟩
    · exact ⟨ih₁ hbody false (d + 1), ih₂ hrest false _⟩
  | reference lead target gap body close rest ih₁ ih₂ =>
    simp only [spaced, Bool.and_eq_true] at h
    obtain ⟨⟨⟨hg, hbody⟩, hlead⟩, hrest⟩ := h
    refine ⟨hg, .inr hlead, ?_⟩
    split_ifs
    · exact ⟨ih₁ hbody false (d + 1), ih₂ hrest false _⟩
    · exact ⟨ih₁ hbody false d, ih₂ hrest false _⟩
  | root lead gap body close rest ih₁ ih₂ =>
    simp only [spaced, Bool.and_eq_true] at h
    obtain ⟨⟨⟨hg, hbody⟩, hlead⟩, hrest⟩ := h
    exact ⟨hg, .inr hlead, ih₁ hbody false d, ih₂ hrest false _⟩

theorem Body.Sound.slashSetOff {b : Body} {first : Bool} {d : ℕ} (h : b.Sound first d) :
    b.slashSetOff := by
  cases b with
  | root => exact h.1
  | done | directive | property | node | reference => rfl

/-- What follows a block. -/
theorem Body.Sound.follows {b : Body} {first : Bool} {d : ℕ} (h : b.Sound first d) {close : Gap}
    (hl : close.bare ∨ b.spacedLead) {after : Text} (ha : Ends after) :
    close.bare ∨ Follows (b.text ++ after) :=
  hl.imp_right fun hl => body_follows h.slashSetOff hl ha

/-- **The scanner reads the pieces of a body.** -/
theorem body_reads (b : Body) {n : ℕ} {first : Bool} {after : Text} {d : ℕ} (hb : b.Sound first d)
    (hat : At first n (b.text ++ after)) (ha : Ends after) :
    Reads n d (b.text ++ after) (b.pieces first d) after := by
  induction b generalizing n first after d with
  | done tail => exact Reads.gap n d tail after
  | directive lead dir rest ih =>
    simp only [Body.text, List.append_assoc] at hat ⊢
    have hrest := hat.behind.later (w := dir.text) (by simp [Directive.text])
    exact (Reads.gap n d lead _).trans ((directive_reads dir).trans (ih hb hrest ha))
  | property lead label p rest ih =>
    obtain ⟨hl, hg, hb⟩ := hb
    simp only [Body.text, List.append_assoc] at hat ⊢
    have hp := hat.behind
    have hrest : At false n (rest.text ++ after) := by
      rw [← List.append_assoc] at hp
      exact hp.later (by simp [Property.text, p.name.nonempty])
    exact (Reads.gap n d lead _).trans ((property_reads hl hg hp).trans (ih hb hrest ha))
  | node lead label name gap body close rest ih₁ ih₂ =>
    obtain ⟨hl, hg, hlead, hb⟩ := hb
    rw [Body.text_node] at hat ⊢
    have hp := hat.behind
    obtain ⟨hinside, hrest⟩ := hp.labelledBlock
    rw [Body.pieces]
    split_ifs at hb ⊢ with hf
    · refine (Reads.gap n d lead _).trans ?_
      exact (fixup_reads hl hg hb.1 (hb.2.follows hlead ha) hp hf rfl).trans (ih₂ hb.2 hrest ha)
    · refine (Reads.gap n d lead _).trans ((node_reads hl hg hp hf).trans ?_)
      refine (ih₁ hb.1 hinside (.inr ⟨_, rfl⟩)).trans ?_
      exact (close_reads close (hb.2.follows hlead ha)).trans (ih₂ hb.2 hrest ha)
  | reference lead target gap body close rest ih₁ ih₂ =>
    obtain ⟨hg, hlead, hb⟩ := hb
    rw [Body.text_reference] at hat ⊢
    obtain ⟨hinside, hrest⟩ := hat.behind.block
    have hopen := reference_reads (n := n) (d := d)
      (r := body.text ++ (Body.blockEnd close ++ (rest.text ++ after))) target hg
    rw [Body.pieces]
    split_ifs at hb ⊢ with hbare
    · rw [if_pos hbare] at hopen
      refine (Reads.gap n d lead _).trans (hopen.trans ?_)
      refine (ih₁ hb.1 hinside (.inr ⟨_, rfl⟩)).trans ?_
      exact (close_reads close (hb.2.follows hlead ha)).trans (ih₂ hb.2 hrest ha)
    · rw [if_neg hbare] at hopen
      refine (Reads.gap n d lead _).trans (hopen.trans ?_)
      refine (ih₁ hb.1 hinside (.inr ⟨_, rfl⟩)).trans ?_
      exact (close_reads close (hb.2.follows hlead ha)).trans (ih₂ hb.2 hrest ha)
  | root lead gap body close rest ih₁ ih₂ =>
    obtain ⟨hg, hlead, hb₁, hb₂⟩ := hb
    rw [Body.text_root] at hat ⊢
    obtain ⟨hinside, hrest⟩ := hat.behind.block
    refine (Reads.gap n d lead _).trans ((root_reads hg).trans ?_)
    refine (ih₁ hb₁ hinside (.inr ⟨_, rfl⟩)).trans ?_
    exact (close_reads close (hb₂.follows hlead ha)).trans (ih₂ hb₂ hrest ha)

/-- **The scan of a document is the replay of its pieces**, for every callbacks
    object. -/
theorem scan_document {d : Document} (h : d.body.Sound true 0) {σ : Type} (cb : ScanCallbacks σ) (s : σ) :
    scanDts cb d.text s = replay cb s (d.body.pieces true 0) := by
  have hat : At true d.text.length (d.body.text ++ []) := by simp [At, Document.text]
  have hr := body_reads d.body h hat (.inl rfl) σ cb s
  rw [List.append_nil] at hr
  rw [scanDts_eq_scanFrom]
  simpa [Document.text] using hr

end PocketDarwin.PatchDtc
