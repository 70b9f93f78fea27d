/-
  The calls of the scanner and the documents they are made for.

  `Body.visits` is the pre-order traversal of a body: one visit for each call
  that the `ScanCallbacks` contract promises, with the label of the declaration
  it is made for.

  * `scan_exact`: on a document with white space between its tokens, the calls
    are the visits, one by one;
  * `labels_travel_iff`: a label is handed on with its declaration only where
    the declaration is the first thing in the file.
-/
import PocketDarwin.PatchDtc.Documents

namespace PocketDarwin.PatchDtc

/-! ## The traversal of a document -/

/-- A call without its text. -/
inductive Event where
  | directive (name : Text) (atRoot : Bool)
  | nodeOpen (name : Text)
  | nodeExit
  | property (name : Text)
  | fixup (name : Text)
deriving DecidableEq, Repr

/-- The callback that is called, and the name passed to it. -/
def Call.event : Call → Event
  | directive name _ atRoot => .directive name atRoot
  | nodeOpen name _ => .nodeOpen name
  | nodeExit => .nodeExit
  | property name _ => .property name
  | fixup name _ => .fixup name

/-- The text handed to the callback. -/
def Call.text : Call → Text
  | directive _ t _ | nodeOpen _ t | property _ t | fixup _ t => t
  | nodeExit => []

section
variable (name t : Text) (atRoot : Bool)

@[simp] theorem Call.text_directive : (Call.directive name t atRoot).text = t := rfl

@[simp] theorem Call.text_nodeOpen : (Call.nodeOpen name t).text = t := rfl

@[simp] theorem Call.text_nodeExit : Call.nodeExit.text = [] := rfl

@[simp] theorem Call.text_property : (Call.property name t).text = t := rfl

@[simp] theorem Call.text_fixup : (Call.fixup name t).text = t := rfl

end

/-- The calls made by a scan, as events. -/
def events (text : Text) : List Event := (calls text).map Call.event

/-- A call that is due, and the label of the declaration it is due for. -/
structure Visit where
  event : Event
  label : Option Label := none

/-- The pre-order traversal of a body at depth `d`: one call for each directive
    and property, one before and one after each node or reference, one for a
    fixup subtree at depth 0 and none for its contents, and one at the end of a
    root block, which does not count for the depth. -/
def Body.visits : ℕ → Body → List Visit
  | _, .done _ => []
  | d, .directive _ dir rest => ⟨.directive dir.name (d == 0), none⟩ :: rest.visits d
  | d, .property _ label p rest => ⟨.property p.name.text, label⟩ :: rest.visits d
  | d, .node _ label name _ body _ rest =>
    if IsFixup d name.text then ⟨.fixup name.text, label⟩ :: rest.visits d
    else ⟨.nodeOpen name.text, label⟩ ::
      (body.visits (d + 1) ++ ⟨.nodeExit, none⟩ :: rest.visits d)
  | d, .reference _ _ _ body _ rest =>
    ⟨.nodeOpen ['&'], none⟩ :: (body.visits (d + 1) ++ ⟨.nodeExit, none⟩ :: rest.visits d)
  | d, .root _ _ body _ rest => body.visits d ++ ⟨.nodeExit, none⟩ :: rest.visits d

/-- The pre-order traversal of a document. -/
def Document.visits (d : Document) : List Visit := d.body.visits 0

/-! ## The calls of a body -/

/-- The calls made for pieces. -/
def callsOf (ps : List Piece) : List Call := ps.filterMap Piece.call

section
variable (t name : Text) (atRoot : Bool) (ps qs : List Piece)

@[simp] theorem callsOf_raw : callsOf (.raw t :: ps) = callsOf ps := rfl

@[simp] theorem callsOf_directive :
    callsOf (.directive name t atRoot :: ps) = .directive name t atRoot :: callsOf ps := rfl

@[simp] theorem callsOf_nodeOpen :
    callsOf (.nodeOpen name t :: ps) = .nodeOpen name t :: callsOf ps := rfl

@[simp] theorem callsOf_nodeExit : callsOf (.nodeExit :: ps) = .nodeExit :: callsOf ps := rfl

@[simp] theorem callsOf_property :
    callsOf (.property name t :: ps) = .property name t :: callsOf ps := rfl

@[simp] theorem callsOf_fixup : callsOf (.fixup name t :: ps) = .fixup name t :: callsOf ps := rfl

@[simp] theorem callsOf_append : callsOf (ps ++ qs) = callsOf ps ++ callsOf qs :=
  List.filterMap_append

@[simp] theorem callsOf_closing (close : Gap) : callsOf (closing close) = [.nodeExit] := rfl

@[simp] theorem depthAfter_closing (d : ℕ) (close : Gap) : depthAfter d (closing close) = d - 1 := rfl

end

theorem calls_document {d : Document} (h : d.body.Sound true 0) :
    calls d.text = callsOf (d.body.pieces true 0) := by
  rw [calls, scan_document h, replay_recorder, List.nil_append, callsOf]

/-- Root blocks stand at depth 0 only. -/
def Body.fits (d : ℕ) (b : Body) : Bool := b.rootless || (d == 0 && b.rootsOnTop)

/-- The references that the scanner reads have no comment in front of their
    brace. -/
def Body.bareWhereRead : ℕ → Body → Bool
  | _, .done _ => true
  | d, .directive _ _ rest | d, .property _ _ _ rest => rest.bareWhereRead d
  | d, .node _ _ name _ body _ rest =>
    (decide (IsFixup d name.text) || body.bareWhereRead (d + 1)) && rest.bareWhereRead d
  | d, .reference _ _ gap body _ rest =>
    gap.bare && body.bareWhereRead (d + 1) && rest.bareWhereRead d
  | d, .root _ _ body _ rest => body.bareWhereRead d && rest.bareWhereRead d

theorem Body.fits_block {d : ℕ} {body rest : Body}
    (h : (body.rootless && rest.rootless) || (d == 0 && (body.rootless && rest.rootsOnTop))) :
    body.fits (d + 1) ∧ rest.fits d := by
  simp only [Body.fits, Bool.or_eq_true, Bool.and_eq_true] at h ⊢
  rcases h with ⟨h₁, h₂⟩ | ⟨h₁, h₂, h₃⟩
  · exact ⟨.inl h₁, .inl h₂⟩
  · exact ⟨.inl h₂, .inr ⟨h₁, h₃⟩⟩

theorem Body.fits_root {d : ℕ} {body rest : Body}
    (h : false || (d == 0 && (body.rootless && rest.rootsOnTop))) :
    d = 0 ∧ body.fits 0 ∧ rest.fits 0 := by
  simp only [Bool.false_or, Bool.and_eq_true, beq_iff_eq] at h
  simp [Body.fits, h]

/-- **A body is read as it is nested**: its depth is the one before it, and its
    calls are its visits. -/
theorem body_calls (b : Body) (first : Bool) {d : ℕ} (hf : b.fits d) (hr : b.bareWhereRead d) :
    depthAfter d (b.pieces first d) = d ∧
      (callsOf (b.pieces first d)).map Call.event = (b.visits d).map Visit.event := by
  induction b generalizing first d with
  | done tail => exact ⟨rfl, rfl⟩
  | directive lead dir rest ih =>
    obtain ⟨h₁, h₂⟩ := ih false hf hr
    refine ⟨h₁, ?_⟩
    simp [Body.pieces, Body.visits, Call.event, h₂]
  | property lead label p rest ih =>
    obtain ⟨h₁, h₂⟩ := ih false hf hr
    refine ⟨h₁, ?_⟩
    simp [Body.pieces, Body.visits, Call.event, h₂]
  | node lead label name gap body close rest ih₁ ih₂ =>
    obtain ⟨hf₁, hf₂⟩ := Body.fits_block hf
    simp only [Body.bareWhereRead, Bool.and_eq_true, Bool.or_eq_true, decide_eq_true_eq] at hr
    obtain ⟨h₃, h₄⟩ := ih₂ false hf₂ hr.2
    by_cases hfix : IsFixup d name.text
    · simp only [Body.pieces, Body.visits, if_pos hfix, depthAfter_cons]
      refine ⟨h₃, ?_⟩
      simp [Call.event, h₄]
    · obtain ⟨h₁, h₂⟩ := ih₁ false hf₁ (hr.1.resolve_left hfix)
      simp only [Body.pieces, Body.visits, if_neg hfix, depthAfter_cons, depthAfter_append,
        depthAfter_closing, Piece.depth, h₁, Nat.add_sub_cancel]
      refine ⟨h₃, ?_⟩
      simp [Call.event, h₂, h₄]
  | reference lead target gap body close rest ih₁ ih₂ =>
    obtain ⟨hf₁, hf₂⟩ := Body.fits_block hf
    simp only [Body.bareWhereRead, Bool.and_eq_true] at hr
    obtain ⟨h₁, h₂⟩ := ih₁ false hf₁ hr.1.2
    obtain ⟨h₃, h₄⟩ := ih₂ false hf₂ hr.2
    simp only [Body.pieces, Body.visits, if_pos hr.1.1, depthAfter_cons, depthAfter_append,
      depthAfter_closing, Piece.depth, h₁, Nat.add_sub_cancel]
    refine ⟨h₃, ?_⟩
    simp [Call.event, h₂, h₄]
  | root lead gap body close rest ih₁ ih₂ =>
    obtain ⟨rfl, hf₁, hf₂⟩ := Body.fits_root hf
    simp only [Body.bareWhereRead, Bool.and_eq_true] at hr
    obtain ⟨h₁, h₂⟩ := ih₁ false hf₁ hr.1
    obtain ⟨h₃, h₄⟩ := ih₂ false hf₂ hr.2
    simp only [Body.pieces, Body.visits, depthAfter_cons, depthAfter_append, depthAfter_closing,
      Piece.depth, h₁, Nat.zero_sub]
    refine ⟨h₃, ?_⟩
    simp [Call.event, h₂, h₄]

theorem Document.fits (d : Document) : d.body.fits 0 := by
  simp [Body.fits, d.rootsOnTop]

theorem bareReferences_read (b : Body) (d : ℕ) (h : b.bareReferences) : b.bareWhereRead d := by
  induction b generalizing d with
  | done tail => rfl
  | directive lead dir rest ih => exact ih d h
  | property lead label p rest ih => exact ih d h
  | node lead label name gap body close rest ih₁ ih₂ =>
    simp only [Body.bareReferences, Bool.and_eq_true] at h
    simp [Body.bareWhereRead, ih₁ (d + 1) h.1, ih₂ d h.2]
  | reference lead target gap body close rest ih₁ ih₂ =>
    simp only [Body.bareReferences, Bool.and_eq_true] at h
    simp [Body.bareWhereRead, h.1.1, ih₁ (d + 1) h.1.2, ih₂ d h.2]
  | root lead gap body close rest ih₁ ih₂ =>
    simp only [Body.bareReferences, Bool.and_eq_true] at h
    simp [Body.bareWhereRead, ih₁ d h.1, ih₂ d h.2]

theorem events_of_bareWhereRead {d : Document} (h : d.body.Sound true 0) (hr : d.body.bareWhereRead 0) :
    events d.text = d.visits.map Visit.event := by
  rw [events, calls_document h]
  exact (body_calls d.body true d.fits hr).2

/-- **The calls are the pre-order traversal.**  On every document of the grammar
    with white space between its tokens and no comment between the label of a
    reference and its brace, the scanner makes the calls of the traversal, with
    their names, in their order, and no others. -/
theorem scan_exact (d : Document) (h : d.body.spaced) (hr : d.body.bareReferences) :
    events d.text = d.visits.map Visit.event :=
  events_of_bareWhereRead (Body.sound_of_spaced h true 0) (bareReferences_read d.body 0 hr)

section
open Gap (space)

/-- `l: ` -/
def labelL : Label := ⟨⟨'l', [], by decide, by simp⟩, [], space⟩

/-- A space, and a comment that holds a brace. -/
def commentGap : Gap := space ++ [.comment (.block ['}'] (by decide))]

/-- `/dts-v1/; / { l: a@1 { b ="}"; }; __symbols__ { c ; }; }; &l { d ; };`, with a
    comment in front of `b`. -/
def nestedDocument : Document where
  body := .directive [] .dtsV1 (.root space space
    (.node space (some labelL) (.of ['a', '@', '1'] (by decide)) space
      (.property commentGap none
        ⟨.of ['b'] (by decide), space, some [.string [.char '}' (by decide)]]⟩ (.done space)) []
      (.node space none (.of ['_', '_', 's', 'y', 'm', 'b', 'o', 'l', 's', '_', '_'] (by decide)) space
        (.property space none ⟨.of ['c'] (by decide), space, none⟩ (.done space)) []
        (.done space))) []
    (.reference space labelL.name space
      (.property space none ⟨.of ['d'] (by decide), space, none⟩ (.done space)) []
      (.done [])))
  rootsOnTop := by decide

theorem scan_exact_nested : nestedDocument.body.spaced ∧ nestedDocument.body.bareReferences ∧
    events nestedDocument.text =
      [.directive ['d', 't', 's', '-', 'v', '1'] true, .nodeOpen ['a', '@', '1'], .property ['b'],
        .nodeExit, .fixup ['_', '_', 's', 'y', 'm', 'b', 'o', 'l', 's', '_', '_'], .nodeExit,
        .nodeOpen ['&'], .property ['d'], .nodeExit] := by
  refine ⟨by decide, by decide, ?_⟩
  rw [scan_exact nestedDocument (by decide) (by decide)]
  decide

end

/-! ## Labels -/

/-- White space and comments, around at most one punctuation mark. -/
def Mark (t : Text) : Prop :=
  ∃ (g g' : Gap) (m : Text), m ∈ [[], ['{'], ['}'], [';'], ['/']] ∧ t = g.text ++ m ++ g'.text

/-- **Labels travel with what they label**: the text handed to a callback starts
    with the label of its declaration, and the scanner copies nothing by itself
    but white space, comments and punctuation, so that a label stands in the
    output only with the declaration that the callback returned. -/
structure LabelsTravel (d : Document) : Prop where
  handed : ∀ x ∈ (calls d.text).zip d.visits, labelText x.2.label <+: x.1.text
  copied : ∃ ps, spans ps = d.text ∧
    (∀ (σ : Type) (cb : ScanCallbacks σ) (s : σ), scanDts cb d.text s = replay cb s ps) ∧
      ∀ t, Piece.raw t ∈ ps → Mark t

/-- There is no label, or it is the first thing in the text and no comment
    stands in front of its colon. -/
def labelFirst (first : Bool) : Option Label → Bool
  | none => true
  | some l => first && l.before.bare

/-- The only label outside of the fixup subtrees, if there is one, is the first
    thing in the text. -/
def Body.labelsFirst : Bool → ℕ → Body → Bool
  | _, _, .done _ => true
  | _, d, .directive _ _ rest => rest.labelsFirst false d
  | first, d, .property lead label _ rest =>
    labelFirst (first && lead.isEmpty) label && rest.labelsFirst false d
  | first, d, .node lead label name _ body _ rest =>
    labelFirst (first && lead.isEmpty) label &&
      (decide (IsFixup d name.text) || body.labelsFirst false (d + 1)) &&
        rest.labelsFirst false d
  | _, d, .reference _ _ _ body _ rest => body.labelsFirst false (d + 1) && rest.labelsFirst false d
  | _, d, .root _ _ body _ rest => body.labelsFirst false d && rest.labelsFirst false d

/-- A declaration does not start with a label of its own. -/
theorem label_not_start {l : Label} (hl : l.before.setOff) {nm : Text} (hnm : ∀ c ∈ nm, isDeclChar c)
    {gap : Gap} (hg : gap.setOff) {r : Text} (hr : ∀ c ∈ r.head?, ¬ isDeclChar c)
    (hc : ∀ tl, skipTrivia r ≠ ':' :: tl) : ¬ l.text <+: nm ++ (gap.text ++ r) := by
  rintro ⟨z, hz⟩
  have he : l.text ++ z = l.name.text ++ (l.before.text ++ ':' :: (l.after.text ++ z)) := by
    simp [Label.text]
  have hstop₁ : ∀ c ∈ (l.before.text ++ ':' :: (l.after.text ++ z)).head?, ¬ isDeclChar c :=
    Gap.stops blank_not_decl hl (by simp; decide)
  have hstop₂ := Gap.stops blank_not_decl hg hr
  have hd : l.before.text ++ ':' :: (l.after.text ++ z) = gap.text ++ r := by
    rw [← dropWhile_run l.name.decl hstop₁, ← he, hz, dropWhile_run hnm hstop₂]
  refine hc (l.after.text ++ z) ?_
  rw [← skipTrivia_gap gap r, ← hd, skipTrivia_gap, skipTrivia_firm (by decide)]

/-- What is handed over starts with the label exactly if the label is recognised. -/
theorem handed_iff {first : Bool} {label : Option Label} {own : Text}
    (h : ∀ l, label = some l → ¬ l.text <+: own) :
    labelText label <+: (labelled first label own).2 ↔ labelFirst first label := by
  cases label with
  | none => simp [labelText, labelFirst]
  | some l =>
    by_cases hf : first && l.before.bare
    · simp only [labelled, labelText, labelFirst, if_pos hf]
      exact ⟨fun _ => hf, fun _ => List.prefix_append _ _⟩
    · simp only [labelled, labelText, labelFirst, if_neg hf]
      exact ⟨fun hp => absurd hp (h l rfl), fun hp => absurd hp hf⟩

theorem Body.length_calls (b : Body) {d : ℕ} (hf : b.fits d) (hr : b.bareWhereRead d) :
    (callsOf (b.pieces false d)).length = (b.visits d).length := by
  have := congrArg List.length (body_calls b false hf hr).2
  simpa using this

theorem body_handed_iff (b : Body) (hb : b.spaced) (first : Bool) {d : ℕ} (hf : b.fits d)
    (hr : b.bareWhereRead d) :
    (∀ x ∈ (callsOf (b.pieces first d)).zip (b.visits d), labelText x.2.label <+: x.1.text) ↔
      b.labelsFirst first d := by
  induction b generalizing first d with
  | done tail => simp [Body.visits, Body.labelsFirst]
  | directive lead dir rest ih =>
    simp only [Body.spaced, Bool.and_eq_true] at hb
    simpa [Body.pieces, Body.visits, Body.labelsFirst, labelText] using ih hb.2 false hf hr
  | property lead label p rest ih =>
    simp only [Body.spaced, Bool.and_eq_true] at hb
    have hrest := ih hb.2 false hf hr
    have hown : ∀ l, label = some l → ¬ l.text <+: p.text := by
      rintro l rfl
      simp only [labelSpaced, Label.spaced, Bool.and_eq_true] at hb
      rw [Property.text, List.append_assoc]
      refine label_not_start hb.1.1.1 p.name.chars (Gap.setOff_of_spaced hb.1.2) ?_ ?_
      · cases p.value <;> simp [Property.valueText] <;> decide
      · cases p.value <;> simp [Property.valueText, skipTrivia_firm (show isFirm ';' by decide),
          skipTrivia_firm (show isFirm '=' by decide)]
    simp only [Body.pieces, Body.visits, Body.labelsFirst, callsOf_raw, callsOf_property,
      List.zip_cons_cons, List.forall_mem_cons, Call.text_property, Bool.and_eq_true, hrest,
      handed_iff hown]
  | node lead label name gap body close rest ih₁ ih₂ =>
    simp only [Body.spaced, Bool.and_eq_true] at hb
    obtain ⟨⟨⟨⟨hl, hg⟩, hbody⟩, -⟩, hsp⟩ := hb
    obtain ⟨hf₁, hf₂⟩ := Body.fits_block hf
    simp only [Body.bareWhereRead, Bool.and_eq_true, Bool.or_eq_true, decide_eq_true_eq] at hr
    have hrest := ih₂ hsp false hf₂ hr.2
    have hown : ∀ r : Text, (∀ c ∈ r.head?, ¬ isDeclChar c) → (∀ tl, skipTrivia r ≠ ':' :: tl) →
        ∀ l, label = some l → ¬ l.text <+: name.text ++ gap.text ++ r := by
      rintro r hr hc l rfl
      simp only [labelSpaced, Label.spaced, Bool.and_eq_true] at hl
      rw [List.append_assoc]
      exact label_not_start hl.1 name.chars hg hr hc
    by_cases hfix : IsFixup d name.text
    · have hown' := hown ('{' :: (body.text ++ (fixupTail close).1)) (by simp; decide)
        (by simp [skipTrivia_firm (show isFirm '{' by decide)])
      simp only [Body.pieces, Body.visits, Body.labelsFirst, if_pos hfix, callsOf_raw, callsOf_fixup,
        List.zip_cons_cons, List.forall_mem_cons, Call.text_fixup, Bool.and_eq_true, hrest,
        handed_iff hown', decide_eq_true hfix, Bool.true_or, and_true]
    · have hown' : ∀ l, label = some l → ¬ l.text <+: name.text ++ gap.text := by
        simpa using hown [] (by simp) (by simp [skipTrivia])
      have hr₁ := hr.1.resolve_left hfix
      have hdepth := (body_calls body false hf₁ hr₁).1
      simp only [Body.pieces, Body.visits, Body.labelsFirst, if_neg hfix, callsOf_raw, callsOf_nodeOpen,
        callsOf_append, callsOf_closing, hdepth, Nat.add_sub_cancel, List.zip_cons_cons,
        List.zip_append (body.length_calls hf₁ hr₁), List.forall_mem_append, List.forall_mem_cons,
        List.singleton_append, Call.text_nodeOpen, Bool.and_eq_true, hrest, ih₁ hbody false hf₁ hr₁,
        handed_iff hown', decide_eq_false hfix, Bool.false_or, labelText_none, List.nil_prefix,
        true_and]
      exact and_assoc.symm
  | reference lead target gap body close rest ih₁ ih₂ =>
    simp only [Body.spaced, Bool.and_eq_true] at hb
    obtain ⟨hf₁, hf₂⟩ := Body.fits_block hf
    simp only [Body.bareWhereRead, Bool.and_eq_true] at hr
    have hdepth := (body_calls body false hf₁ hr.1.2).1
    simp only [Body.pieces, Body.visits, Body.labelsFirst, if_pos hr.1.1, callsOf_raw, callsOf_nodeOpen,
      callsOf_append, callsOf_closing, hdepth, Nat.add_sub_cancel, List.zip_cons_cons,
      List.zip_append (body.length_calls hf₁ hr.1.2), List.forall_mem_append, List.forall_mem_cons,
      List.singleton_append, Bool.and_eq_true, ih₁ hb.1.1.2 false hf₁ hr.1.2, ih₂ hb.2 false hf₂ hr.2,
      labelText_none, List.nil_prefix, true_and]
  | root lead gap body close rest ih₁ ih₂ =>
    simp only [Body.spaced, Bool.and_eq_true] at hb
    obtain ⟨rfl, hf₁, hf₂⟩ := Body.fits_root hf
    simp only [Body.bareWhereRead, Bool.and_eq_true] at hr
    have hdepth := (body_calls body false hf₁ hr.1).1
    simp only [Body.pieces, Body.visits, Body.labelsFirst, callsOf_raw, callsOf_append,
      callsOf_closing, hdepth, Nat.zero_sub, List.zip_append (body.length_calls hf₁ hr.1),
      List.forall_mem_append, List.forall_mem_cons, List.singleton_append, List.zip_cons_cons,
      Bool.and_eq_true, ih₁ hb.1.1.2 false hf₁ hr.1, ih₂ hb.2 false hf₂ hr.2, labelText_none,
      List.nil_prefix, true_and]

/-- A piece that is copied is a mark. -/
def Piece.Marked : Piece → Prop
  | raw t => Mark t
  | _ => True

theorem Mark.gap (g : Gap) : Mark g.text := ⟨g, [], [], by simp, by simp⟩

theorem Mark.single {c : Char} (h : [c] ∈ [['{'], ['}'], [';'], ['/']]) (g g' : Gap) :
    Mark (g.text ++ [c] ++ g'.text) :=
  ⟨g, g', [c], List.mem_cons_of_mem _ h, rfl⟩

theorem Mark.openBrace : Mark ['{'] := Mark.single (by decide) [] []

theorem closing_marked (close : Gap) : ∀ p ∈ closing close, p.Marked := by
  have h₁ : Mark ['}'] := Mark.single (by decide) [] []
  have h₂ : Mark (close.text ++ [';']) := by simpa using Mark.single (by decide) close []
  simp [closing, Piece.Marked, h₁, h₂]

theorem labelled_marked {first : Bool} {label : Option Label} (h : labelFirst first label) (own : Text) :
    Mark (labelled first label own).1 := by
  have hnil : Mark [] := Mark.gap []
  cases label with
  | none => exact hnil
  | some l =>
    simp only [labelled, labelFirst] at h ⊢
    rw [if_pos h]
    exact hnil

theorem fixupTail_marked (close : Gap) : Mark (fixupTail close).2 := by
  rw [fixupTail]
  split_ifs
  · exact Mark.gap []
  · simpa using Mark.single (by decide) close.behindBlanks []

/-- With no label to copy, only white space, comments and punctuation are copied. -/
theorem body_marked (b : Body) (first : Bool) {d : ℕ} (hf : b.fits d) (hr : b.bareWhereRead d)
    (hl : b.labelsFirst first d) : ∀ p ∈ b.pieces first d, p.Marked := by
  induction b generalizing first d with
  | done tail => simp [Body.pieces, Piece.Marked, Mark.gap]
  | directive lead dir rest ih =>
    have h := ih false hf hr hl
    simpa [Body.pieces, Piece.Marked, Mark.gap] using h
  | property lead label p rest ih =>
    simp only [Body.labelsFirst, Bool.and_eq_true] at hl
    have h := ih false hf hr hl.2
    simpa [Body.pieces, Piece.Marked, Mark.gap, labelled_marked hl.1] using h
  | node lead label name gap body close rest ih₁ ih₂ =>
    obtain ⟨hf₁, hf₂⟩ := Body.fits_block hf
    simp only [Body.bareWhereRead, Bool.and_eq_true, Bool.or_eq_true, decide_eq_true_eq] at hr
    simp only [Body.labelsFirst, Bool.and_eq_true, Bool.or_eq_true, decide_eq_true_eq] at hl
    have hrest := ih₂ false hf₂ hr.2 hl.2
    by_cases hfix : IsFixup d name.text
    · simp only [Body.pieces, if_pos hfix, List.forall_mem_cons]
      exact ⟨Mark.gap lead, labelled_marked hl.1.1 _, trivial, fixupTail_marked close, hrest⟩
    · have hr₁ := hr.1.resolve_left hfix
      have hbody := ih₁ false hf₁ hr₁ (hl.1.2.resolve_left hfix)
      simp only [Body.pieces, if_neg hfix, (body_calls body false hf₁ hr₁).1, Nat.add_sub_cancel,
        List.forall_mem_cons, List.forall_mem_append]
      exact ⟨Mark.gap lead, labelled_marked hl.1.1 _, trivial, Mark.openBrace, hbody,
        closing_marked close, hrest⟩
  | reference lead target gap body close rest ih₁ ih₂ =>
    obtain ⟨hf₁, hf₂⟩ := Body.fits_block hf
    simp only [Body.bareWhereRead, Bool.and_eq_true] at hr
    simp only [Body.labelsFirst, Bool.and_eq_true] at hl
    have hrest := ih₂ false hf₂ hr.2 hl.2
    have hbody := ih₁ false hf₁ hr.1.2 hl.1
    simp only [Body.pieces, if_pos hr.1.1, (body_calls body false hf₁ hr.1.2).1, Nat.add_sub_cancel,
      List.forall_mem_cons, List.forall_mem_append]
    exact ⟨Mark.gap lead, trivial, Mark.openBrace, hbody, closing_marked close, hrest⟩
  | root lead gap body close rest ih₁ ih₂ =>
    obtain ⟨rfl, hf₁, hf₂⟩ := Body.fits_root hf
    simp only [Body.bareWhereRead, Bool.and_eq_true] at hr
    simp only [Body.labelsFirst, Bool.and_eq_true] at hl
    have hrest := ih₂ false hf₂ hr.2 hl.2
    have hbody := ih₁ false hf₁ hr.1 hl.1
    simp only [Body.pieces, (body_calls body false hf₁ hr.1).1, Nat.zero_sub,
      List.forall_mem_cons, List.forall_mem_append]
    exact ⟨Mark.gap lead, Mark.single (by decide) [] gap, Mark.openBrace, hbody,
      closing_marked close, hrest⟩

/-- **Labels travel with their declarations exactly where the scanner can see
    them**: on a document with white space between its tokens, every text handed
    to a callback starts with the label of its declaration, and no label is
    copied on its own, exactly when the only label outside of the fixup subtrees
    is the first thing in the file. -/
theorem labels_travel_iff (d : Document) (h : d.body.spaced) (hr : d.body.bareReferences) :
    LabelsTravel d ↔ d.body.labelsFirst true 0 := by
  have hread := bareReferences_read d.body 0 hr
  have hsound := Body.sound_of_spaced h true 0
  have hiff := body_handed_iff d.body h true d.fits hread
  rw [← calls_document hsound] at hiff
  constructor
  · intro ht
    exact hiff.1 ht.handed
  · intro hl
    refine ⟨hiff.2 hl, d.body.pieces true 0, ?_, fun σ cb s => scan_document hsound cb s, fun t ht => ?_⟩
    · exact spans_of_replay (scan_document hsound keeper ())
    · exact body_marked d.body true d.fits hread hl (.raw t) ht

section
open Gap (space)

/-- `n` -/
def nameN : Name := .of ['n'] (by decide)

/-- `l: n { };`, behind the given gap. -/
def labelledNode (lead : Gap) : Document where
  body := .node lead (some labelL) nameN space (.done space) [] (.done [])
  rootsOnTop := rfl

theorem labels_travel_first :
    (labelledNode []).body.spaced ∧ (labelledNode []).body.bareReferences ∧ LabelsTravel (labelledNode []) :=
  ⟨by decide, by decide, (labels_travel_iff (labelledNode []) (by decide) (by decide)).2 (by decide)⟩

/-- With a space in front of it, the label is not handed on. -/
theorem label_left_behind :
    calls (labelledNode space).text = [.nodeOpen ['n'] ['n', ' '], .nodeExit] ∧
      ¬ LabelsTravel (labelledNode space) := by
  have hcalls : calls (labelledNode space).text = [.nodeOpen ['n'] ['n', ' '], .nodeExit] := by
    decide +kernel
  refine ⟨hcalls, fun h => ?_⟩
  have := h.handed
  rw [hcalls] at this
  revert this
  decide

end

end PocketDarwin.PatchDtc
