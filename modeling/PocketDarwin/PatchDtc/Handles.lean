/-
  What becomes of the handles of a node.

  The old `dtc` makes `phandle` and `linux,phandle` of one handle, so the patcher is to keep
  one of the two.  `Body.outcome` runs the callbacks over a plain document and notes, for
  every block, the properties it declares and those that are kept (`PlainDocument.patch_text`).
  Which ones are kept is decided in the frame of the block (`keptNames`), and goes wrong
  twice: the root block has no frame, and a property that is dropped by name has been seen
  all the same (`handles_kept_iff`).
-/
import PocketDarwin.PatchDtc.Idempotent

namespace PocketDarwin.PatchDtc

open Patcher

/-! ## The callbacks on a body -/

/-- What becomes of the properties of a node, of the body of a reference, or of the root. -/
structure Block where
  isRoot : Bool
  declared : List Text
  kept : List Text
deriving DecidableEq, Repr

/-- What the callbacks make of a body: the text, the own properties that are kept, the blocks
    inside, and the patcher. -/
structure Outcome where
  text : Text
  kept : List Text
  blocks : List Block
  patcher : Patcher

/-- A plain body that is read at depth `d`, through the callbacks.  A fixup subtree is deleted
    as a whole. -/
def Body.outcome (opts : Options) : ℕ → Patcher → Body → Outcome
  | _, s, .done tail => ⟨tail.text, [], [], s⟩
  | d, s, .directive lead dir rest =>
    let r := onDirective opts dir.name dir.text (d == 0) s
    let t := rest.outcome opts d r.2
    { t with text := lead.text ++ (r.1.getD dir.text ++ t.text) }
  | d, s, .property lead label p rest =>
    let r := onProperty opts p.name.text p.text s
    let t := rest.outcome opts d r.2
    { t with
      text := lead.text ++ (labelText label ++ (r.1.getD p.text ++ t.text))
      kept := if r.1 = some [] then t.kept else p.name.text :: t.kept }
  | d, s, .node lead label name gap body close rest =>
    if IsFixup d name.text then
      let full := name.text ++ gap.text ++ '{' :: (body.text ++ blockEnd close)
      let r := onFixupSubtree opts name.text full s
      let t := rest.outcome opts d r.2
      { t with text := lead.text ++ (labelText label ++ (r.1.getD [] ++ t.text)) }
    else
      let r := onNodeOpen opts name.text (name.text ++ gap.text) s
      let c := body.outcome opts (d + 1) r.2
      let t := rest.outcome opts d (onNodeExit c.patcher)
      { t with
        text := lead.text ++ (labelText label ++ (orText (name.text ++ gap.text) r.1 ++
          '{' :: (c.text ++ (blockEnd close ++ t.text))))
        blocks := ⟨false, body.propertyNames, c.kept⟩ :: (c.blocks ++ t.blocks) }
  | d, s, .reference lead target gap body close rest =>
    let decl := '&' :: (target.text ++ gap.text)
    let r := onNodeOpen opts ['&'] decl s
    let c := body.outcome opts (d + 1) r.2
    let t := rest.outcome opts d (onNodeExit c.patcher)
    { t with
      text := lead.text ++ (orText decl r.1 ++ '{' :: (c.text ++ (blockEnd close ++ t.text)))
      blocks := ⟨false, body.propertyNames, c.kept⟩ :: (c.blocks ++ t.blocks) }
  | d, s, .root lead gap body close rest =>
    let c := body.outcome opts d s
    let t := rest.outcome opts d (onNodeExit c.patcher)
    { t with
      text := lead.text ++ ('/' :: gap.text ++ '{' :: (c.text ++ (blockEnd close ++ t.text)))
      blocks := ⟨true, body.propertyNames, c.kept⟩ :: (c.blocks ++ t.blocks) }

/-- The pieces of a block behind its opening brace. -/
theorem replay_block {opts : Options} {s : Patcher} {inside after : List Piece} {close : Gap}
    {c t : Outcome}
    (hinside : replay (callbacks opts) s inside = (c.text, c.patcher))
    (hafter : replay (callbacks opts) (onNodeExit c.patcher) after = (t.text, t.patcher)) :
    replay (callbacks opts) s (inside ++ (closing close ++ after)) =
      (c.text ++ (Body.blockEnd close ++ t.text), t.patcher) := by
  have hexit : (callbacks opts).onNodeExit = onNodeExit := rfl
  rw [replay_append, hinside]
  simp only [closing, List.cons_append, List.nil_append, replay_cons, Piece.emit, hexit, hafter,
    Body.blockEnd]

/-- **The outcome is that of the scanner's run.** -/
theorem replay_outcome (opts : Options) (b : Body) (hplain : b.plain) {d : ℕ} (hf : b.fits d)
    (s : Patcher) :
    replay (callbacks opts) s (b.pieces false d) =
      ((b.outcome opts d s).text, (b.outcome opts d s).patcher) := by
  induction b generalizing d s with
  | done tail => simp [Body.pieces, Body.outcome, replay, Piece.emit]
  | directive lead dir rest ih =>
    simp only [Body.plain, Bool.and_eq_true] at hplain
    simp only [Body.pieces, Body.outcome, replay_cons, Piece.emit]
    rw [ih hplain.2 hf]
    rfl
  | property lead label p rest ih =>
    simp only [Body.plain, Bool.and_eq_true] at hplain
    simp only [Body.pieces, Body.outcome, Bool.false_and, labelled_later, replay_cons, Piece.emit]
    rw [ih hplain.2 hf]
    rfl
  | node lead label name gap body close rest ih₁ ih₂ =>
    simp only [Body.plain, Bool.and_eq_true] at hplain
    obtain ⟨⟨⟨⟨⟨-, -⟩, -⟩, hbody⟩, hclose⟩, hrest⟩ := hplain
    obtain ⟨hf₁, hf₂⟩ := Body.fits_block hf
    by_cases hc : IsFixup d name.text
    · have htail : fixupTail close = (Body.blockEnd close, []) := by simp [fixupTail, hclose]
      simp only [Body.pieces, Body.outcome, if_pos hc, Bool.false_and, labelled_later, htail,
        replay_cons,
        Piece.emit, List.nil_append]
      rw [ih₂ hrest hf₂]
      rfl
    · have hread := plain_bareWhereRead body (d + 1) hbody
      simp only [Body.pieces, Body.outcome, if_neg hc, Bool.false_and, labelled_later,
        (body_calls body false hf₁ hread).1, Nat.add_sub_cancel, replay_cons, Piece.emit]
      rw [replay_block (ih₁ hbody hf₁ _) (ih₂ hrest hf₂ _)]
      rfl
  | reference lead target gap body close rest ih₁ ih₂ =>
    simp only [Body.plain, Bool.and_eq_true] at hplain
    obtain ⟨⟨⟨⟨-, hgap⟩, hbody⟩, -⟩, hrest⟩ := hplain
    obtain ⟨hf₁, hf₂⟩ := Body.fits_block hf
    have hread := plain_bareWhereRead body (d + 1) hbody
    simp only [Body.pieces, Body.outcome, if_pos hgap, (body_calls body false hf₁ hread).1,
      Nat.add_sub_cancel,
      replay_cons, Piece.emit]
    rw [replay_block (ih₁ hbody hf₁ _) (ih₂ hrest hf₂ _)]
    rfl
  | root lead gap body close rest ih₁ ih₂ =>
    simp only [Body.plain, Bool.and_eq_true] at hplain
    obtain ⟨⟨⟨-, hbody⟩, -⟩, hrest⟩ := hplain
    obtain ⟨rfl, hf₁, hf₂⟩ := Body.fits_root hf
    have hread := plain_bareWhereRead body 0 hbody
    simp only [Body.pieces, Body.outcome, (body_calls body false hf₁ hread).1, replay_cons,
      Piece.emit]
    rw [replay_block (ih₁ hbody hf₁ _) (ih₂ hrest hf₂ _)]
    simp

namespace PlainDocument
variable (opts : Options) (d : PlainDocument)

/-- The patcher behind `/dts-v1/;`. -/
def started : Patcher := (onDirective opts Directive.dtsV1.name Directive.dtsV1.text true {}).2

/-- What becomes of the blocks of a plain document. -/
def blocks : List Block := (d.body.outcome opts 0 (started opts)).blocks

/-- **The output for a plain document.** -/
theorem patch_text : patch opts d.text = Directive.dtsV1.text ++
    (d.body.outcome opts 0 (started opts)).text := by
  have hpieces : d.document.body.pieces true 0 = .raw [] :: .directive Directive.dtsV1.name
      Directive.dtsV1.text true :: d.body.pieces false 0 := rfl
  have hkept : (onDirective opts Directive.dtsV1.name Directive.dtsV1.text true {}).1 = none := by
    have hname : strippedDirectives.contains Directive.dtsV1.name = false := by decide
    simp only [onDirective, hname, Bool.and_false, Bool.false_eq_true, if_false]
  have hsound := Body.sound_of_spaced d.document_spaced true 0
  rw [patch, ← document_text, scan_document hsound, hpieces, replay_cons, replay_cons]
  show (onDirective opts Directive.dtsV1.name Directive.dtsV1.text true {}).1.getD
    Directive.dtsV1.text ++
    (replay (callbacks opts) (started opts) (d.body.pieces false 0)).1 = _
  rw [hkept, replay_outcome opts d.body d.plain d.fits]
  rfl

end PlainDocument

/-! ## Frames -/

section
variable (opts : Options)

/-- The properties of a block that are kept, in its frame. -/
def keptNames : Option Frame → List Text → List Text
  | _, [] => []
  | frame, name :: names =>
    if opts.extraDropProps.contains name then keptNames (frame.map (.see name)) names
    else if opts.dropPhandleDuplicates && duplicate frame name
      then keptNames (frame.map (.drop name)) names
    else name :: keptNames (frame.map (.see name)) names

theorem onProperty_keeps {p : Patcher} {frame : Option Frame} (hin : InFrame p frame) {name w : Text}
    (hne : name ≠ []) (hw : w ≠ []) :
    let r := onProperty opts name (name ++ w) p
    SameBelow p r.2 ∧
      if opts.extraDropProps.contains name then r.1 = some [] ∧ InFrame r.2 (frame.map (.see name))
      else if opts.dropPhandleDuplicates && duplicate frame name then
        r.1 = some [] ∧ InFrame r.2 (frame.map (.drop name))
      else r.1 ≠ some [] ∧ InFrame r.2 (frame.map (.see name)) := by
  have hd := drops_iff hin name
  obtain ⟨ht₁, ht₂, -⟩ := track_frame hin name
  simp only [onProperty]
  by_cases hextra : opts.extraDropProps.contains name
  · simp only [hextra, if_true]
    exact ⟨ht₂.trans (.of_eq rfl rfl), trivial, ht₁.of_eq rfl rfl⟩
  simp only [hextra, Bool.false_eq_true, if_false]
  rw [← hd]
  by_cases h₁ : opts.dropPhandleDuplicates &&
    (name == phandle && dropsTwin phandle linuxPhandle (track name p))
  · obtain ⟨ho, h₁'⟩ := Bool.and_eq_true_iff.1 h₁
    obtain rfl : name = phandle := by
      simp only [Bool.and_eq_true, beq_iff_eq] at h₁'
      exact h₁'.1
    simp only [ho, h₁', Bool.true_or, Bool.and_self, if_true]
    obtain ⟨hframe, hbelow, -⟩ := dropProperty_frame hin phandle
    exact ⟨hbelow, trivial, hframe⟩
  by_cases h₂ : opts.dropPhandleDuplicates &&
    (name == linuxPhandle && dropsTwin linuxPhandle phandle (track name p))
  · obtain ⟨ho, h₂'⟩ := Bool.and_eq_true_iff.1 h₂
    obtain rfl : name = linuxPhandle := by
      simp only [Bool.and_eq_true, beq_iff_eq] at h₂'
      exact h₂'.1
    simp only [ho, Bool.true_and] at h₁
    simp only [ho, h₁, h₂', Bool.false_or, Bool.and_self, Bool.true_and, if_true,
      Bool.false_eq_true, if_false]
    obtain ⟨hframe, hbelow, -⟩ := dropProperty_frame hin linuxPhandle
    exact ⟨hbelow, trivial, hframe⟩
  · rw [Bool.and_or_distrib_left]
    simp only [h₁, h₂, Bool.or_self, Bool.false_eq_true, if_false]
    refine ⟨ht₂.trans (.of_eq (by simp) (by simp)), ?_, ht₁.of_eq (by simp) (by simp)⟩
    split_ifs
    · rw [replaceFirst_append hne, ne_eq, Option.some.injEq, List.append_eq_nil_iff]
      exact fun h => hw h.2
    · exact (Option.some_ne_none _).symm

/-- The properties that are kept of a body are those that its frame decides, and so for the
    blocks inside. -/
structure Outcome.DecidedIn (frame : Option Frame) (p : Patcher) (names : List Text) (o : Outcome) :
    Prop where
  kept : o.kept = keptNames opts frame names
  below : SameBelow p o.patcher
  blocks : ∀ block ∈ o.blocks, block.kept = keptNames opts (if block.isRoot then none else some {})
    block.declared

variable {opts}

/-- A node or the body of a reference: a frame of its own is pushed and popped. -/
theorem Outcome.DecidedIn.block {p : Patcher} {frame : Option Frame} (hin : InFrame p frame)
    {name decl : Text}
    {body rest : Body} {d : ℕ}
    (hbody : ∀ {q : Patcher}, InFrame q (some {}) →
      (body.outcome opts (d + 1) q).DecidedIn opts (some {}) q body.propertyNames)
    (hrest : ∀ {q : Patcher}, InFrame q frame →
      (rest.outcome opts d q).DecidedIn opts frame q rest.propertyNames)
    (text : Text) :
    let c := body.outcome opts (d + 1) (onNodeOpen opts name decl p).2
    let t := rest.outcome opts d (onNodeExit c.patcher)
    Outcome.DecidedIn opts frame p rest.propertyNames
      ⟨text, t.kept, ⟨false, body.propertyNames, c.kept⟩ :: (c.blocks ++ t.blocks), t.patcher⟩ := by
  intro c t
  obtain ⟨hprops, hdropped⟩ := onNodeOpen_stacks opts name decl p
  have hopen : InFrame (onNodeOpen opts name decl p).2 (some {}) := by
    constructor
    · rw [hprops]
      rfl
    · rw [hdropped]
      rfl
  have hc : c.DecidedIn opts (some {}) _ body.propertyNames := hbody hopen
  obtain ⟨h₁, h₂, -⟩ := onNodeExit_of_sameBelow hprops hdropped hc.below
  have ht : t.DecidedIn opts frame _ rest.propertyNames := hrest (hin.of_eq h₁ h₂)
  refine ⟨ht.kept, (SameBelow.of_eq h₁ h₂).trans ht.below, fun block hblock => ?_⟩
  rcases List.mem_cons.1 hblock with rfl | hblock
  · exact hc.kept
  · rcases List.mem_append.1 hblock with hblock | hblock
    · exact hc.blocks block hblock
    · exact ht.blocks block hblock

/-- **What is kept of a body is decided in its frame.** -/
theorem outcome_decided (b : Body) {d : ℕ} (hf : b.fits d) {frame : Option Frame}
    (hd : frame = none ↔ d = 0)
    {p : Patcher} (hin : InFrame p frame) :
    (b.outcome opts d p).DecidedIn opts frame p b.propertyNames := by
  induction b generalizing d frame p with
  | done tail => exact ⟨rfl, .refl p, fun _ h => by cases h⟩
  | directive lead dir rest ih =>
    obtain ⟨h₁, h₂⟩ := onDirective_stacks opts dir.name dir.text (d == 0) p
    have hrest := ih hf hd (hin.of_eq h₁ h₂)
    exact ⟨hrest.kept, (SameBelow.of_eq h₁ h₂).trans hrest.below, hrest.blocks⟩
  | property lead label pr rest ih =>
    have hw : pr.gap.text ++ Property.valueText pr.value ≠ [] := by
      cases pr.value <;> simp [Property.valueText]
    obtain ⟨hsame, hcases⟩ := onProperty_keeps opts hin pr.name.nonempty hw
    rw [← List.append_assoc, show pr.name.text ++ pr.gap.text ++ Property.valueText pr.value = pr.text
      from rfl] at hsame hcases
    have hnext : ∀ {f : Frame → Frame}, InFrame (onProperty opts pr.name.text pr.text p).2
        (frame.map f) →
        (rest.outcome opts d (onProperty opts pr.name.text pr.text p).2).DecidedIn opts
          (frame.map f) _
          rest.propertyNames := fun hframe => ih hf (frame_map hd _) hframe
    by_cases hextra : opts.extraDropProps.contains pr.name.text
    · rw [if_pos hextra] at hcases
      have hrest := hnext hcases.2
      refine ⟨?_, hsame.trans hrest.below, hrest.blocks⟩
      rw [Body.outcome, Body.propertyNames, keptNames, if_pos hextra, if_pos hcases.1]
      exact hrest.kept
    rw [if_neg hextra] at hcases
    by_cases hdup : opts.dropPhandleDuplicates && duplicate frame pr.name.text
    · rw [if_pos hdup] at hcases
      have hrest := hnext hcases.2
      refine ⟨?_, hsame.trans hrest.below, hrest.blocks⟩
      rw [Body.outcome, Body.propertyNames, keptNames, if_neg hextra, if_pos hdup, if_pos hcases.1]
      exact hrest.kept
    · rw [if_neg hdup] at hcases
      have hrest := hnext hcases.2
      refine ⟨?_, hsame.trans hrest.below, hrest.blocks⟩
      rw [Body.outcome, Body.propertyNames, keptNames, if_neg hextra, if_neg hdup, if_neg hcases.1]
      exact congrArg (pr.name.text :: ·) hrest.kept
  | node lead label name gap body close rest ih₁ ih₂ =>
    obtain ⟨hf₁, hf₂⟩ := Body.fits_block hf
    by_cases hc : IsFixup d name.text
    · obtain ⟨h₁, h₂⟩ := onFixupSubtree_stacks opts name.text
        (name.text ++ gap.text ++ '{' :: (body.text ++ Body.blockEnd close)) p
      have hrest := ih₂ hf₂ hd (hin.of_eq h₁ h₂)
      rw [Body.outcome, if_pos hc]
      exact ⟨hrest.kept, (SameBelow.of_eq h₁ h₂).trans hrest.below, hrest.blocks⟩
    · rw [Body.outcome, if_neg hc]
      exact .block hin (ih₁ hf₁ (by simp)) (ih₂ hf₂ hd) _
  | reference lead target gap body close rest ih₁ ih₂ =>
    obtain ⟨hf₁, hf₂⟩ := Body.fits_block hf
    exact .block hin (ih₁ hf₁ (by simp)) (ih₂ hf₂ hd) _
  | root lead gap body close rest ih₁ ih₂ =>
    obtain ⟨rfl, hf₁, hf₂⟩ := Body.fits_root hf
    obtain rfl : frame = none := hd.2 rfl
    have hc := ih₁ hf₁ hd hin
    have hframe : InFrame (body.outcome opts 0 p).patcher none := by
      have h₁ := hc.below.props.1
      have h₂ := hc.below.dropped.1
      rw [hin.1] at h₁
      rw [hin.2] at h₂
      exact ⟨List.length_eq_zero_iff.1 h₁, List.length_eq_zero_iff.1 h₂⟩
    -- the closing brace finds no frame
    have hexit : onNodeExit (body.outcome opts 0 p).patcher = (body.outcome opts 0 p).patcher := by
      rw [onNodeExit, hframe.1]
    have ht := ih₂ hf₂ hd hframe
    rw [Body.outcome, hexit]
    refine ⟨ht.kept, hc.below.trans ht.below, fun block hblock => ?_⟩
    rcases List.mem_cons.1 hblock with rfl | hblock
    · exact hc.kept
    · rcases List.mem_append.1 hblock with hblock | hblock
      · exact hc.blocks block hblock
      · exact ht.blocks block hblock

end

/-! ## Handles -/

def isHandle (name : Text) : Bool := name == phandle || name == linuxPhandle

/-- The two frames say the same of handles. -/
def SameHandles : Option Frame → Option Frame → Prop
  | none, none => True
  | some f, some f' =>
    ∀ name, isHandle name → (name ∈ f.seen ↔ name ∈ f'.seen) ∧
    (name ∈ f.dropped ↔ name ∈ f'.dropped)
  | _, _ => False

namespace SameHandles
variable {frame frame' : Option Frame} (h : SameHandles frame frame')
include h

theorem see (name : Text) : SameHandles (frame.map (.see name)) (frame'.map (.see name)) := by
  rcases frame with _ | f <;> rcases frame' with _ | f' <;> try exact h
  intro other hother
  simp only [Frame.see, List.mem_insert_iff, (h other hother).1, (h other hother).2, iff_self,
    and_self]

theorem drop (name : Text) : SameHandles (frame.map (.drop name)) (frame'.map (.drop name)) := by
  rcases frame with _ | f <;> rcases frame' with _ | f' <;> try exact h
  intro other hother
  simp only [Frame.drop, List.mem_insert_iff, (h other hother).1, (h other hother).2, iff_self,
    and_self]

theorem see_other {name : Text} (hname : ¬ isHandle name) :
    SameHandles (frame.map (.see name)) frame' := by
  rcases frame with _ | f <;> rcases frame' with _ | f' <;> try exact h
  intro other hother
  have hne : other ≠ name := by
    rintro rfl
    exact hname hother
  simp only [Frame.see, List.mem_insert_iff, hne, false_or]
  exact h other hother

theorem duplicate_eq (name : Text) : duplicate frame name = duplicate frame' name := by
  rcases frame with _ | f <;> rcases frame' with _ | f' <;> try cases h
  · rfl
  · obtain ⟨h₁, h₂⟩ := h phandle (by decide)
    obtain ⟨h₃, h₄⟩ := h linuxPhandle (by decide)
    simp only [duplicate, List.contains_eq_mem, h₁, h₂, h₃, h₄]

end SameHandles

section
variable {opts : Options}

theorem duplicate_other {frame : Option Frame} {name : Text} (h : ¬ isHandle name) :
    duplicate frame name = false := by
  rw [isHandle, Bool.or_eq_true, not_or, Bool.not_eq_true, Bool.not_eq_true] at h
  cases frame with
  | none => rfl
  | some f => simp only [duplicate, h.1, h.2, Bool.false_and, Bool.or_self]

/-- Which handles are kept depends on the handles. -/
theorem keptNames_handles {frame frame' : Option Frame} (h : SameHandles frame frame')
    (names : List Text) :
    (keptNames opts frame names).filter isHandle = keptNames opts frame' (names.filter isHandle) := by
  induction names generalizing frame frame' with
  | nil => rfl
  | cons name names ih =>
    by_cases hname : isHandle name
    · rw [List.filter_cons_of_pos hname, keptNames, keptNames, ← h.duplicate_eq]
      split_ifs
      · exact ih (h.see name)
      · exact ih (h.drop name)
      · rw [List.filter_cons_of_pos hname, ih (h.see name)]
    · rw [List.filter_cons_of_neg hname, keptNames, duplicate_other hname, Bool.and_false,
        if_neg Bool.false_ne_true]
      split_ifs
      · exact ih (h.see_other hname)
      · rw [List.filter_cons_of_neg hname, ih (h.see_other hname)]

/-- Outside of a frame nothing is a duplicate. -/
theorem keptNames_none (names : List Text) :
    keptNames opts none names = names.filter (!opts.extraDropProps.contains ·) := by
  induction names with
  | nil => rfl
  | cons name names ih =>
    rw [keptNames, duplicate, Bool.and_false, if_neg Bool.false_ne_true, List.filter_cons,
      Option.map_none, ih]
    cases opts.extraDropProps.contains name <;> rfl

theorem keptNames_single (name : Text) :
    keptNames opts (some {}) [name] = [name].filter (!opts.extraDropProps.contains ·) := by
  have hdup : duplicate (some {}) name = false := by simp [duplicate]
  rw [keptNames, hdup, Bool.and_false, if_neg Bool.false_ne_true, keptNames, List.filter_cons]
  cases opts.extraDropProps.contains name <;> rfl

/-- The second of two handles is not kept. -/
theorem keptNames_pair (hopt : opts.dropPhandleDuplicates) {first second : Text}
    (h₁ : isHandle first)
    (h₂ : isHandle second) (hne : first ≠ second) :
    keptNames opts (some {}) [first, second] = [first].filter (!opts.extraDropProps.contains ·) := by
  have hdup : duplicate (some {}) first = false := by simp [duplicate]
  have hdup' : duplicate (some (Frame.see first {})) second = true := by
    rw [isHandle, Bool.or_eq_true, beq_iff_eq, beq_iff_eq] at h₁ h₂
    rcases h₁ with rfl | rfl <;> rcases h₂ with rfl | rfl
    · exact absurd rfl hne
    · decide
    · decide
    · exact absurd rfl hne
  have hrest : keptNames opts (some (Frame.see first {})) [second] = [] := by
    rw [keptNames, hdup', hopt, Bool.and_self, if_pos rfl, keptNames, keptNames, ite_self]
  rw [keptNames, hdup, Bool.and_false, if_neg Bool.false_ne_true, Option.map_some, hrest,
    List.filter_cons]
  cases opts.extraDropProps.contains first <;> rfl

/-- The handles among different names. -/
theorem handles_cases {names : List Text} (h : names.Nodup) :
    names.filter isHandle = [] ∨ (∃ only, names.filter isHandle = [only]) ∨
      ∃ first second, names.filter isHandle = [first, second] ∧ isHandle first ∧ isHandle second ∧
      first ≠ second := by
  have hnodup := h.filter isHandle
  have hhandle : ∀ name ∈ names.filter isHandle, name = phandle ∨ name = linuxPhandle := by
    intro name hname
    have := (List.mem_filter.1 hname).2
    rwa [isHandle, Bool.or_eq_true, beq_iff_eq, beq_iff_eq] at this
  have hmem : ∀ name ∈ names.filter isHandle, isHandle name :=
    fun name hname => (List.mem_filter.1 hname).2
  rcases hcases : names.filter isHandle with _ | ⟨a, _ | ⟨b, _ | ⟨c, rest⟩⟩⟩
  · exact .inl rfl
  · exact .inr (.inl ⟨a, rfl⟩)
  · rw [hcases] at hnodup hmem
    simp only [List.nodup_cons, List.mem_singleton] at hnodup
    exact .inr (.inr ⟨a, b, rfl, hmem a (by simp), hmem b (by simp), hnodup.1⟩)
  · -- there are no three
    rw [hcases] at hnodup hhandle
    simp only [List.nodup_cons, List.mem_cons, not_or] at hnodup
    have ha := hhandle a (by simp)
    have hb := hhandle b (by simp)
    have hc := hhandle c (by simp)
    obtain ⟨⟨hab, hac, -⟩, ⟨hbc, -⟩, -⟩ := hnodup
    rcases hc with rfl | rfl
    · exact absurd ((ha.resolve_left hac).trans (hb.resolve_left hbc).symm) hab
    · exact absurd ((ha.resolve_right hac).trans (hb.resolve_right hbc).symm) hab

end

/-- The handle that a node is to keep, from those that it declares: the first one if none is to be
    dropped, and otherwise the other one. -/
def handleToKeep (extraDropProps declared : List Text) : List Text :=
  ((declared.filter isHandle).filter (!extraDropProps.contains ·)).take 1

namespace Block
variable (extraDropProps : List Text) (b : Block)

/-- Of its handles a block keeps the one that it is to keep. -/
def KeepsHandle : Prop := b.kept.filter isHandle = handleToKeep extraDropProps b.declared

/-- Where the handles of a block are both declared, one of them is to be dropped by name if it is the
    root; otherwise the first one is not, unless the second one is, too. -/
def Settled : Prop := ∀ first second, b.declared.filter isHandle = [first, second] →
  if b.isRoot then first ∈ extraDropProps ∨ second ∈ extraDropProps
  else first ∈ extraDropProps → second ∈ extraDropProps

variable {b} {opts : Options}

theorem keepsHandle_iff (hopt : opts.dropPhandleDuplicates) (hnodup : b.declared.Nodup)
    (hkept : b.kept = keptNames opts (if b.isRoot then none else some {}) b.declared) :
    b.KeepsHandle opts.extraDropProps ↔ b.Settled opts.extraDropProps := by
  have hsame : ∀ frame : Option Frame, SameHandles frame frame := by
    intro frame
    cases frame with
    | none => trivial
    | some f => exact fun _ _ => ⟨Iff.rfl, Iff.rfl⟩
  rw [KeepsHandle, Settled, handleToKeep, hkept, keptNames_handles (hsame _)]
  rcases handles_cases hnodup with hnil | ⟨only, honly⟩ | ⟨first, second, hpair, h₁, h₂, hne⟩
  · rw [hnil]
    simp [keptNames]
  · rw [honly]
    have hshort : ([only].filter (!opts.extraDropProps.contains ·)).take 1 =
        [only].filter (!opts.extraDropProps.contains ·) :=
      List.take_of_length_le (List.length_filter_le _ _)
    rw [hshort]
    cases b.isRoot with
    | true => simp [keptNames_none]
    | false => simp [keptNames_single]
  · rw [hpair]
    cases b.isRoot with
    | true =>
      rw [if_pos rfl, keptNames_none]
      by_cases hf : first ∈ opts.extraDropProps <;> by_cases hs : second ∈ opts.extraDropProps <;>
        simp [hf, hs]
    | false =>
      rw [if_neg Bool.false_ne_true, keptNames_pair hopt h₁ h₂ hne]
      by_cases hf : first ∈ opts.extraDropProps <;> by_cases hs : second ∈ opts.extraDropProps <;>
        simp [hf, hs]

end Block

/-- No block declares a property twice. -/
theorem outcome_nodup (opts : Options) (b : Body) (hb : b.distinct) (d : ℕ) (s : Patcher) :
    ∀ block ∈ (b.outcome opts d s).blocks, block.declared.Nodup := by
  induction b generalizing d s with
  | done tail => exact fun _ h => by cases h
  | directive lead dir rest ih => exact ih hb d _
  | property lead label p rest ih => exact ih hb d _
  | node lead label name gap body close rest ih₁ ih₂ =>
    simp only [Body.distinct, Bool.and_eq_true, decide_eq_true_eq] at hb
    intro block hblock
    rw [Body.outcome] at hblock
    split_ifs at hblock with hc
    · exact ih₂ hb.2 d _ block hblock
    · rcases List.mem_cons.1 hblock with rfl | hblock
      · exact hb.1.1
      · rcases List.mem_append.1 hblock with hblock | hblock
        · exact ih₁ hb.1.2 _ _ block hblock
        · exact ih₂ hb.2 _ _ block hblock
  | reference lead target gap body close rest ih₁ ih₂ | root lead gap body close rest ih₁ ih₂ =>
    simp only [Body.distinct, Bool.and_eq_true, decide_eq_true_eq] at hb
    intro block hblock
    rcases List.mem_cons.1 hblock with rfl | hblock
    · exact hb.1.1
    · rcases List.mem_append.1 hblock with hblock | hblock
      · exact ih₁ hb.1.2 _ _ block hblock
      · exact ih₂ hb.2 _ _ block hblock

/-- **The handles of a plain document** in which no node declares a property twice: the output is
    that of the callbacks, and every block keeps the handle that it is to keep, if and only if
    every block is settled. -/
theorem handles_kept_iff (opts : Options) (hopt : opts.dropPhandleDuplicates) (d : PlainDocument)
    (hdistinct : d.body.distinct) :
    patch opts d.text = Directive.dtsV1.text ++
      (d.body.outcome opts 0 (PlainDocument.started opts)).text ∧
      ((∀ block ∈ d.blocks opts, block.KeepsHandle opts.extraDropProps) ↔
        ∀ block ∈ d.blocks opts, block.Settled opts.extraDropProps) := by
  have hstarted : InFrame (PlainDocument.started opts) none := by
    obtain ⟨h₁, h₂⟩ := onDirective_stacks opts Directive.dtsV1.name Directive.dtsV1.text true {}
    exact ⟨h₁, h₂⟩
  have hdecided : (d.body.outcome opts 0 (PlainDocument.started opts)).DecidedIn opts none _
      d.body.propertyNames :=
    outcome_decided d.body d.fits (by simp) hstarted
  refine ⟨d.patch_text opts, forall₂_congr fun block hblock => ?_⟩
  exact Block.keepsHandle_iff hopt (outcome_nodup opts d.body hdistinct 0 _ block hblock)
    (hdecided.blocks block hblock)

section
open Gap (space)

/-- `/dts-v1/; / { phandle ; l: linux,phandle ; };` -/
def rootTwins : PlainDocument where
  body := .root space space (twins (.done space)) [] (.done [])
  rootsOnTop := by decide
  plain := by decide
  spaced := by decide

/-- With `linux,phandle` dropped by name, the node and the root keep `phandle`. -/
theorem twins_kept :
    (∀ block ∈ labelledDuplicate.blocks { extraDropProps := [linuxPhandle] },
      block.KeepsHandle [linuxPhandle]) ∧
      ∀ block ∈ rootTwins.blocks { extraDropProps := [linuxPhandle] },
      block.KeepsHandle [linuxPhandle] := by
  have hnode : labelledDuplicate.blocks { extraDropProps := [linuxPhandle] } =
      [⟨false, [phandle, linuxPhandle], [phandle]⟩] := by
    decide +kernel
  have hroot : rootTwins.blocks { extraDropProps := [linuxPhandle] } =
      [⟨true, [phandle, linuxPhandle], [phandle]⟩] := by
    decide +kernel
  have hpair : [phandle, linuxPhandle].filter isHandle = [phandle, linuxPhandle] := by decide
  constructor
  · refine (handles_kept_iff { extraDropProps := [linuxPhandle] } rfl labelledDuplicate
      (by decide)).2.2 ?_
    rw [hnode]
    intro block hblock first second h
    rw [List.mem_singleton.1 hblock] at h ⊢
    obtain ⟨rfl, rfl⟩ : phandle = first ∧ linuxPhandle = second := by simpa [hpair] using h
    decide
  · refine (handles_kept_iff { extraDropProps := [linuxPhandle] } rfl rootTwins (by decide)).2.2 ?_
    rw [hroot]
    intro block hblock first second h
    rw [List.mem_singleton.1 hblock] at h ⊢
    obtain ⟨rfl, rfl⟩ : phandle = first ∧ linuxPhandle = second := by simpa [hpair] using h
    decide

/-- The root keeps both handles, and with `phandle` dropped by name the node loses both. -/
theorem twins_not_kept :
    patch {} rootTwins.text = "/dts-v1/; / \x7b phandle ; l: linux,phandle ; \x7d;".toList ∧
      (¬ ∀ block ∈ rootTwins.blocks {}, block.KeepsHandle []) ∧
      patch { extraDropProps := [phandle] } labelledDuplicate.text =
        "/dts-v1/; n \x7b  l:  \x7d;".toList ∧
      ¬ ∀ block ∈ labelledDuplicate.blocks { extraDropProps := [phandle] },
      block.KeepsHandle [phandle] := by
  refine ⟨by decide +kernel, fun h => ?_, by decide +kernel, fun h => ?_⟩
  · have hblock : ⟨true, [phandle, linuxPhandle], [phandle, linuxPhandle]⟩ ∈ rootTwins.blocks {} :=
      by decide +kernel
    have hkept := h _ hblock
    exact absurd hkept (by unfold Block.KeepsHandle; decide)
  · have hblock : ⟨false, [phandle, linuxPhandle], []⟩ ∈ labelledDuplicate.blocks
        { extraDropProps := [phandle] } := by
      decide +kernel
    have hkept := h _ hblock
    exact absurd hkept (by unfold Block.KeepsHandle; decide)

end

end PocketDarwin.PatchDtc
