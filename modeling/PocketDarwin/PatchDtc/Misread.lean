/-
  Where comments change the calls of the scanner.

  A comment between the label of a reference and its brace hides the opening of
  the reference (`opens_le`).  At any other place that is not `Body.safe` a
  comment is stuck to a token, and can name a property (`exists_misread`).

  * `comments_ignored_iff`: comments at given places do not change the calls,
    whatever their texts are, exactly if the places are safe.
-/
import PocketDarwin.PatchDtc.Stuck

namespace PocketDarwin.PatchDtc

/-! ## In front of and behind other declarations -/

/-- A comment in front of a body. -/
def Body.mark (c : Comment) : Body → Body
  | done tail => done (.comment c :: tail)
  | directive lead d rest => directive (.comment c :: lead) d rest
  | property lead label p rest => property (.comment c :: lead) label p rest
  | node lead label name gap body close rest => node (.comment c :: lead) label name gap body close rest
  | reference lead target gap body close rest => reference (.comment c :: lead) target gap body close rest
  | root lead gap body close rest => root (.comment c :: lead) gap body close rest

theorem Body.mark_text (c : Comment) (b : Body) (r : Text) :
    (b.mark c).text ++ r = c.text ++ (b.text ++ r) := by
  cases b <;> simp [mark, text, Gap.text, Triv.text]

theorem Body.Within.mark {b₀ b : Body} (h : b₀.Within b) (h₀ : b₀.spacedLead) (h' : ¬ b.spacedLead)
    (c : Comment) : (b₀.mark c).Within b := by
  have hlead : ∀ {g₀ g : Gap}, g₀.Within g → g₀.spaced → ¬ g.spaced → Gap.Within (.comment c :: g₀) g :=
    fun hg hg₀ hg' => hg.mark (Gap.setOff_of_spaced hg₀) (hg.not_setOff hg₀ hg') c
  cases h with
  | done ht => exact .done (ht.mark h₀ h' c)
  | directive hl hd hr => exact .directive (hlead hl h₀ h') hd hr
  | property hl hlabel hp hr => exact .property (hlead hl h₀ h') hlabel hp hr
  | node name hl hlabel hg hb hc hr => exact .node name (hlead hl h₀ h') hlabel hg hb hc hr
  | reference target hl hg hb hc hr => exact .reference target (hlead hl h₀ h') hg hb hc hr
  | root hl hg hb hc hr => exact .root (hlead hl h₀ h') hg hb hc hr

section
variable {m n d D : ℕ} {x r w : Text} {ps : List Piece} {body : Body} {close : Gap}

theorem ReadsProperty.behindGap {lead : Gap} (h : ReadsProperty x n d r) :
    ReadsProperty x n d (lead.text ++ r) :=
  .behind (Reads.gap n d lead r) h

theorem ReadsProperty.behindClose (h : ReadsProperty x n (d - 1) r) (hclose : close.bare) :
    ReadsProperty x n d (Body.blockEnd close ++ r) :=
  .behind (close_reads close (.inl hclose)) h

/-- Behind a comment in front of the `;` of a block, a comment is stuck to the `;`. -/
theorem close_stuck (hclose : ¬ close.bare) (hle : ((mark m 0).text ++ r).length ≤ n) :
    ReadsProperty (marker m).text n d (Body.blockEnd close ++ ((mark m 0).text ++ r)) :=
  .behind (exit_reads hclose) (.behindGap (semicolon_stuck hle))

/-- Behind a fixup subtree. -/
theorem ReadsProperty.behindFixup {first : Bool} {label : Option Label} {name : Name} {gap : Gap}
    (hl : labelRead first label) (hg : gap.setOff) (hf : IsFixup d name.text)
    (hat : At first n (labelText label ++ (name.text ++ gap.text ++ '{' :: w)))
    (h : At false n (fixupEnd w) → ReadsProperty x n d (fixupEnd w)) :
    ReadsProperty x n d (labelText label ++ (name.text ++ gap.text ++ '{' :: w)) := by
  obtain ⟨own, hown⟩ := fixupEnd_suffix w
  have hsplit : name.text ++ gap.text ++ '{' :: w = (name.text ++ gap.text ++ '{' :: own) ++ fixupEnd w := by
    simp only [List.append_assoc, List.cons_append, hown]
  refine .behind (fixup_opens hl hg hat hf hsplit (by simp)) (h ?_)
  rw [hsplit, ← List.append_assoc] at hat
  exact hat.later (by simp)

/-- Behind the body of a block that is read as it is nested. -/
theorem ReadsProperty.behindBody (hs : body.spaced) (hr : body.bareReferences) (hf : body.fits d)
    (hat : At false n (body.text ++ (Body.blockEnd close ++ r)))
    (h : ReadsProperty x n d (Body.blockEnd close ++ r)) :
    ReadsProperty x n d (body.text ++ (Body.blockEnd close ++ r)) := by
  have hread := body_reads body (Body.sound_of_spaced hs false d) hat (.inr ⟨_, rfl⟩)
  refine .behind hread ?_
  rwa [(body_calls body false hf (bareReferences_read body d hr)).1]

end

/-! ## Where a comment is misread -/

/-- What becomes of a body `e` by a comment at a place where there is none in `b₀`: it is read as
    the property `marker m`, or it hides a reference. -/
def Misread (m : ℕ) (first : Bool) (d : ℕ) (b₀ e : Body) : Prop :=
  (∀ n after, At first n (e.text ++ after) → ReadsProperty (marker m).text n d (e.text ++ after)) ∨
    e.spaced ∧ (b₀.spacedLead → e.spacedLead) ∧ e.bareWhereRead d = false

namespace Misread
variable {m d : ℕ} {first : Bool} {lead gap close close' : Gap} {label : Option Label} {body rest e : Body}

theorem directive {dir : Directive} (hs : (Body.directive lead dir rest).spaced)
    (h : Misread m false d rest e) : Misread m first d (.directive lead dir rest) (.directive lead dir e) := by
  simp only [Body.spaced, Bool.and_eq_true] at hs
  rcases h with hread | ⟨he, -, hbare⟩
  · refine .inl fun n after hat => ?_
    simp only [Body.text, List.append_assoc] at hat ⊢
    have hrest := hat.behind.later (w := dir.text) (by simp [Directive.text])
    exact .behindGap (.behind (directive_reads dir) (hread n after hrest))
  · exact .inr ⟨by simp [Body.spaced, hs.1, he], id, hbare⟩

theorem property {p : Property} (hs : (Body.property lead label p rest).spaced)
    (h : Misread m false d rest e) :
    Misread m first d (.property lead label p rest) (.property lead label p e) := by
  simp only [Body.spaced, Bool.and_eq_true] at hs
  rcases h with hread | ⟨he, -, hbare⟩
  · refine .inl fun n after hat => ?_
    simp only [Body.text, List.append_assoc] at hat ⊢
    have hp := hat.behind
    have hrest : At false n (e.text ++ after) := by
      rw [← List.append_assoc] at hp
      exact hp.later (by simp [Property.text, p.name.nonempty])
    have hprop := property_reads (n := n) (d := d) (labelRead_of_spaced hs.1.1 _) hs.1.2 hp
    exact .behindGap (.behind hprop (hread n after hrest))
  · exact .inr ⟨by simp [Body.spaced, hs.1.1, hs.1.2, he], id, hbare⟩

theorem nodeBody {name : Name} (hs : (Body.node lead label name gap body close rest).spaced)
    (hfix : ¬ IsFixup d name.text) (h : Misread m false (d + 1) body e) :
    Misread m first d (.node lead label name gap body close rest)
      (.node lead label name gap e close rest) := by
  simp only [Body.spaced, Bool.and_eq_true] at hs
  obtain ⟨⟨⟨⟨hl, hg⟩, -⟩, hlead⟩, hrest⟩ := hs
  rcases h with hread | ⟨he, -, hbare⟩
  · refine .inl fun n after hat => ?_
    rw [Body.text_node] at hat ⊢
    have hp := hat.behind
    have hopen := node_reads (labelRead_of_spaced hl _) hg hp hfix
    exact .behindGap (.behind hopen (hread n _ hp.labelledBlock.1))
  · exact .inr ⟨by simp [Body.spaced, hl, hg, he, hlead, hrest], id,
      by simp [Body.bareWhereRead, hfix, hbare]⟩

theorem nodeRest {name : Name} (hs : (Body.node lead label name gap body close rest).spaced)
    (hr : body.bareReferences) (hf : body.fits (d + 1)) (hclose : close'.bare) (h : Misread m false d rest e) :
    Misread m first d (.node lead label name gap body close rest)
      (.node lead label name gap body close' e) := by
  simp only [Body.spaced, Bool.and_eq_true] at hs
  obtain ⟨⟨⟨⟨hl, hg⟩, hbody⟩, hlead⟩, -⟩ := hs
  rcases h with hread | ⟨he, hle, hbare⟩
  · refine .inl fun n after hat => ?_
    rw [Body.text_node] at hat ⊢
    have hp := hat.behind
    obtain ⟨hinside, hrest⟩ := hp.labelledBlock
    by_cases hfix : IsFixup d name.text
    · have hsub := fixup_reads (labelRead_of_spaced hl _) hg (Body.quiet_of_spaced hbody) (.inl hclose) hp hfix rfl
      exact .behindGap (.behind hsub (hread n after hrest))
    · refine .behindGap (.behind (node_reads (labelRead_of_spaced hl _) hg hp hfix) ?_)
      exact .behindBody hbody hr hf hinside (.behindClose (hread n after hrest) hclose)
  · exact .inr ⟨by simp [Body.spaced, hl, hg, hbody, hle hlead, he], id, by simp [Body.bareWhereRead, hbare]⟩

theorem referenceBody {target : Ident} (hs : (Body.reference lead target gap body close rest).spaced)
    (hgap : gap.bare) (h : Misread m false (d + 1) body e) :
    Misread m first d (.reference lead target gap body close rest)
      (.reference lead target gap e close rest) := by
  simp only [Body.spaced, Bool.and_eq_true] at hs
  obtain ⟨⟨⟨hg, -⟩, hlead⟩, hrest⟩ := hs
  rcases h with hread | ⟨he, -, hbare⟩
  · refine .inl fun n after hat => ?_
    rw [Body.text_reference] at hat ⊢
    exact .behindGap (.behind (bareReference_reads target hgap) (hread n _ hat.behind.block.1))
  · exact .inr ⟨by simp [Body.spaced, hg, he, hlead, hrest], id, by simp [Body.bareWhereRead, hbare]⟩

theorem referenceRest {target : Ident} (hs : (Body.reference lead target gap body close rest).spaced)
    (hgap : gap.bare) (hr : body.bareReferences) (hf : body.fits (d + 1)) (hclose : close'.bare)
    (h : Misread m false d rest e) :
    Misread m first d (.reference lead target gap body close rest)
      (.reference lead target gap body close' e) := by
  simp only [Body.spaced, Bool.and_eq_true] at hs
  obtain ⟨⟨⟨hg, hbody⟩, hlead⟩, -⟩ := hs
  rcases h with hread | ⟨he, hle, hbare⟩
  · refine .inl fun n after hat => ?_
    rw [Body.text_reference] at hat ⊢
    obtain ⟨hinside, hrest⟩ := hat.behind.block
    refine .behindGap (.behind (bareReference_reads target hgap) ?_)
    exact .behindBody hbody hr hf hinside (.behindClose (hread n after hrest) hclose)
  · exact .inr ⟨by simp [Body.spaced, hg, hbody, hle hlead, he], id, by simp [Body.bareWhereRead, hbare]⟩

theorem rootBody (hs : (Body.root lead gap body close rest).spaced) (h : Misread m false d body e) :
    Misread m first d (.root lead gap body close rest) (.root lead gap e close rest) := by
  simp only [Body.spaced, Bool.and_eq_true] at hs
  obtain ⟨⟨⟨hg, -⟩, hlead⟩, hrest⟩ := hs
  rcases h with hread | ⟨he, -, hbare⟩
  · refine .inl fun n after hat => ?_
    rw [Body.text_root] at hat ⊢
    exact .behindGap (.behind (root_reads hg) (hread n _ hat.behind.block.1))
  · exact .inr ⟨by simp [Body.spaced, hg, he, hlead, hrest], id, by simp [Body.bareWhereRead, hbare]⟩

theorem rootRest (hs : (Body.root lead gap body close rest).spaced) (hr : body.bareReferences)
    (hf : body.fits 0) (hclose : close'.bare) (h : Misread m false 0 rest e) :
    Misread m first 0 (.root lead gap body close rest) (.root lead gap body close' e) := by
  simp only [Body.spaced, Bool.and_eq_true] at hs
  obtain ⟨⟨⟨hg, hbody⟩, hlead⟩, -⟩ := hs
  rcases h with hread | ⟨he, hle, hbare⟩
  · refine .inl fun n after hat => ?_
    rw [Body.text_root] at hat ⊢
    obtain ⟨hinside, hrest⟩ := hat.behind.block
    refine .behindGap (.behind (root_reads hg) ?_)
    exact .behindBody hbody hr hf hinside (.behindClose (hread n after hrest) hclose)
  · exact .inr ⟨by simp [Body.spaced, hg, hbody, hle hlead, he], id, by simp [Body.bareWhereRead, hbare]⟩

/-! A comment in front of what follows a block, behind one in front of its `;`. -/

section
variable {b₀ : Body} (hclose : ¬ close'.bare)
include hclose

theorem nodeClose {name : Name} (hs : (Body.node lead label name gap body close rest).spaced)
    (hr : body.bareReferences) (hf : body.fits (d + 1)) :
    Misread m first d b₀ (.node lead label name gap body close' (rest.mark (mark m 0))) := by
  simp only [Body.spaced, Bool.and_eq_true] at hs
  obtain ⟨⟨⟨⟨hl, hg⟩, hbody⟩, -⟩, -⟩ := hs
  refine .inl fun n after hat => ?_
  rw [Body.text_node, Body.mark_text] at hat ⊢
  have hp := hat.behind
  obtain ⟨hinside, hrest⟩ := hp.labelledBlock
  by_cases hfix : IsFixup d name.text
  · refine .behindGap (.behindFixup (labelRead_of_spaced hl _) hg hfix hp fun _ => ?_)
    rw [fixupEnd_body (Body.quiet_of_spaced hbody), if_neg hclose]
    exact .behindGap (semicolon_stuck hrest.le)
  · refine .behindGap (.behind (node_reads (labelRead_of_spaced hl _) hg hp hfix) ?_)
    exact .behindBody hbody hr hf hinside (close_stuck hclose hrest.le)

theorem referenceClose {target : Ident} (hs : (Body.reference lead target gap body close rest).spaced)
    (hgap : gap.bare) (hr : body.bareReferences) (hf : body.fits (d + 1)) :
    Misread m first d b₀ (.reference lead target gap body close' (rest.mark (mark m 0))) := by
  simp only [Body.spaced, Bool.and_eq_true] at hs
  obtain ⟨⟨⟨-, hbody⟩, -⟩, -⟩ := hs
  refine .inl fun n after hat => ?_
  rw [Body.text_reference, Body.mark_text] at hat ⊢
  obtain ⟨hinside, hrest⟩ := hat.behind.block
  refine .behindGap (.behind (bareReference_reads target hgap) ?_)
  exact .behindBody hbody hr hf hinside (close_stuck hclose hrest.le)

theorem rootClose (hs : (Body.root lead gap body close rest).spaced) (hr : body.bareReferences)
    (hf : body.fits d) :
    Misread m first d b₀ (.root lead gap body close' (rest.mark (mark m 0))) := by
  simp only [Body.spaced, Bool.and_eq_true] at hs
  obtain ⟨⟨⟨hg, hbody⟩, -⟩, -⟩ := hs
  refine .inl fun n after hat => ?_
  rw [Body.text_root, Body.mark_text] at hat ⊢
  obtain ⟨hinside, hrest⟩ := hat.behind.block
  refine .behindGap (.behind (root_reads hg) ?_)
  exact .behindBody hbody hr hf hinside (close_stuck hclose hrest.le)

end

end Misread

/-! ## The places that are not safe -/

section
variable {n d : ℕ} {first : Bool}

/-- A comment stuck to the name of a label, or to the colon of one that is not recognised. -/
theorem exists_label_stuck (m : ℕ) {label₀ label : Option Label} (h : Option.Rel Label.Within label₀ label)
    (hs : labelSpaced label₀) (hl : ¬ labelRead first label) :
    ∃ label₁, Option.Rel Label.Within label₁ label ∧ ∀ n d r, At first n (labelText label₁ ++ r) →
      ReadsProperty (marker m).text n d (labelText label₁ ++ r) := by
  cases h with
  | none => exact absurd rfl hl
  | @some l₀ l h =>
    simp only [labelSpaced, Label.spaced, Bool.and_eq_true] at hs
    simp only [labelRead, Label.spaced, Bool.or_eq_true, not_or] at hl
    by_cases hb : l.before.setOff
    · have ha : ¬ l.after.spaced := by
        intro ha
        exact hl.2 (by simp [hb, ha])
      have hafter := h.after.mark (Gap.setOff_of_spaced hs.2) (h.after.not_setOff hs.2 ha) (mark m 0)
      refine ⟨some ⟨l.name, l.before, .comment (mark m 0) :: l₀.after⟩, .some ⟨rfl, .refl _, hafter⟩, ?_⟩
      intro n d r hat
      exact colon_stuck (l := ⟨l.name, l.before, .comment (mark m 0) :: l₀.after⟩) rfl hb hl.1 hat
    · refine ⟨some ⟨l.name, .comment (mark m 0) :: l₀.before, l₀.after⟩,
        .some ⟨rfl, h.before.mark hs.1 hb _, h.after⟩, ?_⟩
      intro n d r hat
      exact label_stuck (l := ⟨l.name, .comment (mark m 0) :: l₀.before, l₀.after⟩) rfl hat.le

/-- A fixup subtree that ends too early. -/
theorem fixup_stuck {m : ℕ} {label : Option Label} {name : Name} {gap : Gap} {w r : Text}
    (hl : labelRead first label) (hg : gap.setOff) (hf : IsFixup d name.text)
    (hat : At first n (labelText label ++ (name.text ++ gap.text ++ '{' :: w)))
    (hw : readBalanced '{' '}' 1 w = ' ' :: ((marker m).text ++ ' ' :: ';' :: r)) :
    ReadsProperty (marker m).text n d (labelText label ++ (name.text ++ gap.text ++ '{' :: w)) := by
  have hend : fixupEnd w = (marker m).text ++ ' ' :: ';' :: r := by
    rw [fixupEnd, hw]
    rfl
  refine .behindFixup hl hg hf hat fun hat' => ?_
  rw [hend] at hat' ⊢
  exact (marker_reads hat').property_mem (List.mem_singleton.2 rfl)

end

section
variable {m d : ℕ} {first : Bool} {b₀ : Body} {lead₀ lead gap₀ gap close₀ close : Gap}
variable {label₀ label : Option Label} {body₀ body rest₀ rest : Body}

/-- In front of the value of a property. -/
theorem exists_misread_property {p₀ p : Property} (hs : (Body.property lead₀ label₀ p₀ rest₀).spaced)
    (hlabel : Option.Rel Label.Within label₀ label) (hp : p₀.Within p) (hrest : rest₀.Within rest)
    (h : ¬ (labelRead (first && lead.isEmpty) label ∧ p.gap.spaced)) :
    ∃ e, Body.Within e (.property lead label p rest) ∧ Misread m first d b₀ e := by
  simp only [Body.spaced, Bool.and_eq_true] at hs
  by_cases hread : labelRead (first && lead.isEmpty) label
  · have hg : ¬ p.gap.spaced := fun hg => h ⟨hread, hg⟩
    have hgap := hp.gap.mark (Gap.setOff_of_spaced hs.1.2) (hp.gap.not_setOff hs.1.2 hg) (mark m 0)
    refine ⟨.property lead label { p₀ with gap := .comment (mark m 0) :: p₀.gap } rest₀,
      .property (.refl _) (labelWithin_refl _) ⟨hp.name, hgap, hp.value⟩ hrest, .inl fun n after hat => ?_⟩
    simp only [Body.text, Property.text, Gap.text, List.flatMap_cons, Triv.text, List.append_assoc] at hat ⊢
    exact .behindGap (name_stuck hread (At.behind hat))
  · obtain ⟨label₁, hlabel₁, hstuck⟩ := exists_label_stuck m hlabel hs.1.1 hread
    refine ⟨.property lead label₁ p₀ rest₀, .property (.refl _) hlabel₁ hp hrest, .inl fun n after hat => ?_⟩
    simp only [Body.text, List.append_assoc] at hat ⊢
    exact .behindGap (hstuck n d _ hat.behind)

/-- Around the body of a node. -/
theorem exists_misread_node (name : Name) (hs : (Body.node lead₀ label₀ name gap₀ body₀ close₀ rest₀).spaced)
    (hr : body₀.bareReferences) (hf : body₀.fits (d + 1)) (hl : lead₀.Within lead)
    (hlabel : Option.Rel Label.Within label₀ label) (hg : gap₀.Within gap) (hb : body₀.Within body)
    (hc : close₀.Within close) (hrest : rest₀.Within rest)
    (h : ¬ (labelRead (first && lead.isEmpty) label ∧ gap.setOff ∧ (close.bare ∨ rest.spacedLead))) :
    ∃ e, Body.Within e (.node lead label name gap body close rest) ∧ Misread m first d b₀ e := by
  have hs' := hs
  simp only [Body.spaced, Bool.and_eq_true] at hs'
  obtain ⟨⟨⟨⟨hl₀, hg₀⟩, -⟩, hlead₀⟩, -⟩ := hs'
  by_cases hread : labelRead (first && lead.isEmpty) label
  · by_cases hgap : gap.setOff
    · have hclose : ¬ (close.bare ∨ rest.spacedLead) := fun hclose => h ⟨hread, hgap, hclose⟩
      rw [not_or] at hclose
      exact ⟨.node lead₀ label₀ name gap₀ body₀ close (rest₀.mark (mark m 0)),
        .node name hl hlabel hg hb (.refl _) (hrest.mark hlead₀ hclose.2 _), .nodeClose hclose.1 hs hr hf⟩
    · refine ⟨.node lead label name (.comment (mark m 0) :: gap₀) body₀ close₀ rest₀,
        .node name (.refl _) (labelWithin_refl _) (hg.mark hg₀ hgap _) hb hc hrest, .inl fun n after hat => ?_⟩
      rw [Body.text_node] at hat ⊢
      simp only [Gap.text, List.flatMap_cons, Triv.text, List.append_assoc] at hat ⊢
      exact .behindGap (name_stuck hread (At.behind hat))
  · obtain ⟨label₁, hlabel₁, hstuck⟩ := exists_label_stuck m hlabel hl₀ hread
    refine ⟨.node lead label₁ name gap₀ body₀ close₀ rest₀, .node name (.refl _) hlabel₁ hg hb hc hrest,
      .inl fun n after hat => ?_⟩
    rw [Body.text_node] at hat ⊢
    exact .behindGap (hstuck n d _ hat.behind)

/-- In the body of a fixup subtree. -/
theorem exists_misread_fixup (name : Name) (hs : (Body.node lead₀ label₀ name gap₀ body₀ close₀ rest₀).spaced)
    (hf : body₀.fits (d + 1)) (hl : lead₀.Within lead) (hlabel : Option.Rel Label.Within label₀ label)
    (hg : gap₀.Within gap) (hb : body₀.Within body) (hc : close₀.Within close) (hrest : rest₀.Within rest)
    (hfix : IsFixup d name.text) (h : ¬ body.quiet) :
    ∃ e, Body.Within e (.node lead label name gap body close rest) ∧ Misread m first d b₀ e := by
  simp only [Body.spaced, Bool.and_eq_true] at hs
  have hroot : body.rootless := by
    simpa [Body.fits, ← hb.rootless] using hf
  obtain ⟨e, he, hends⟩ := exists_unquiet hb hs.1.1.2 hroot h m 0
  refine ⟨.node lead₀ label₀ name gap₀ e close₀ rest₀, .node name hl hlabel hg he hc hrest,
    .inl fun n after hat => ?_⟩
  rw [Body.text_node] at hat ⊢
  obtain ⟨r, hr⟩ := hends (Body.blockEnd close₀ ++ (rest₀.text ++ after))
  exact .behindGap (fixup_stuck (labelRead_of_spaced hs.1.1.1.1 _) hs.1.1.1.2 hfix hat.behind hr)

/-- Around the body of a reference. -/
theorem exists_misread_reference (target : Ident)
    (hs : (Body.reference lead₀ target gap₀ body₀ close₀ rest₀).spaced) (hgap₀ : gap₀.bare)
    (hr : body₀.bareReferences) (hf : body₀.fits (d + 1)) (hl : lead₀.Within lead) (hg : gap₀.Within gap)
    (hb : body₀.Within body) (hc : close₀.Within close) (hrest : rest₀.Within rest)
    (h : ¬ (gap.bare ∧ (close.bare ∨ rest.spacedLead))) :
    ∃ e, Body.Within e (.reference lead target gap body close rest) ∧
      Misread m first d (.reference lead₀ target gap₀ body₀ close₀ rest₀) e := by
  have hs' := hs
  simp only [Body.spaced, Bool.and_eq_true] at hs'
  obtain ⟨⟨⟨hg₀, hbody₀⟩, hlead₀⟩, hrest₀⟩ := hs'
  by_cases hgap : gap.bare
  · have hclose : ¬ (close.bare ∨ rest.spacedLead) := fun hclose => h ⟨hgap, hclose⟩
    rw [not_or] at hclose
    exact ⟨.reference lead₀ target gap₀ body₀ close (rest₀.mark (mark m 0)),
      .reference target hl hg hb (.refl _) (hrest.mark hlead₀ hclose.2 _),
      .referenceClose hclose.1 hs hgap₀ hr hf⟩
  · by_cases hset : gap.setOff
    · exact ⟨.reference lead₀ target gap body₀ close₀ rest₀, .reference target hl (.refl _) hb hc hrest,
        .inr ⟨by simp [Body.spaced, hset, hbody₀, hlead₀, hrest₀], id, by simp [Body.bareWhereRead, hgap]⟩⟩
    · refine ⟨.reference lead₀ target (.comment (mark m 0) :: gap₀) body₀ close₀ rest₀,
        .reference target hl (hg.mark hg₀ hset _) hb hc hrest, .inl fun n after hat => ?_⟩
      rw [Body.text_reference] at hat ⊢
      simp only [Gap.text, List.flatMap_cons, Triv.text, List.append_assoc, List.cons_append] at hat ⊢
      exact .behindGap (target_stuck target (At.behind hat).le)

/-- Around the body of a root block. -/
theorem exists_misread_root (hs : (Body.root lead₀ gap₀ body₀ close₀ rest₀).spaced) (hr : body₀.bareReferences)
    (hf : body₀.fits d) (hl : lead₀.Within lead) (hg : gap₀.Within gap) (hb : body₀.Within body)
    (hc : close₀.Within close) (hrest : rest₀.Within rest)
    (h : ¬ (gap.setOff ∧ (close.bare ∨ rest.spacedLead))) :
    ∃ e, Body.Within e (.root lead gap body close rest) ∧ Misread m first d b₀ e := by
  have hs' := hs
  simp only [Body.spaced, Bool.and_eq_true] at hs'
  by_cases hgap : gap.setOff
  · have hclose : ¬ (close.bare ∨ rest.spacedLead) := fun hclose => h ⟨hgap, hclose⟩
    rw [not_or] at hclose
    exact ⟨.root lead₀ gap₀ body₀ close (rest₀.mark (mark m 0)),
      .root hl hg hb (.refl _) (hrest.mark hs'.1.2 hclose.2 _), .rootClose hclose.1 hs hr hf⟩
  · refine ⟨.root lead₀ (.comment (mark m 0) :: gap₀) body₀ close₀ rest₀,
      .root hl (hg.mark hs'.1.1.1 hgap _) hb hc hrest, .inl fun n after hat => ?_⟩
    rw [Body.text_root] at hat ⊢
    simp only [Gap.text, List.flatMap_cons, Triv.text, List.append_assoc, List.cons_append] at hat ⊢
    exact .behindGap (slash_stuck (At.behind hat).le)

end

/-- **At a place that is not safe, a comment is misread.** -/
theorem exists_misread (m : ℕ) {b₀ b : Body} (hw : b₀.Within b) (first : Bool) {d : ℕ} (hs : b₀.spaced)
    (hr : b₀.bareReferences) (hf : b₀.fits d) (h : ¬ b.safe first d) :
    ∃ e : Body, e.Within b ∧ Misread m first d b₀ e := by
  induction hw generalizing first d with
  | done => exact absurd rfl h
  | @directive lead₀ _ d₀ _ rest₀ _ hl hd hrest ih =>
    have hs' := hs
    simp only [Body.spaced, Bool.and_eq_true] at hs'
    obtain ⟨e, he, hm⟩ := ih false hs'.2 hr hf h
    exact ⟨.directive lead₀ d₀ e, .directive hl hd he, hm.directive hs⟩
  | @property lead₀ lead label₀ label p₀ p rest₀ _ hl hlabel hp hrest ih =>
    have hs' := hs
    simp only [Body.spaced, Bool.and_eq_true] at hs'
    by_cases hfront : labelRead (first && lead.isEmpty) label ∧ p.gap.spaced
    · obtain ⟨e, he, hm⟩ := ih false hs'.2 hr hf (fun h' => h (by simp [Body.safe, hfront, h']))
      exact ⟨.property lead₀ label₀ p₀ e, .property hl hlabel hp he, hm.property hs⟩
    · exact exists_misread_property hs hlabel hp hrest hfront
  | @node lead₀ lead gap₀ gap close₀ close label₀ label name body₀ body rest₀ rest hl hlabel hg hb hc hrest
      ih₁ ih₂ =>
    have hs' := hs
    simp only [Body.spaced, Bool.and_eq_true] at hs'
    simp only [Body.bareReferences, Bool.and_eq_true] at hr
    obtain ⟨hf₁, hf₂⟩ := Body.fits_block hf
    by_cases haround : labelRead (first && lead.isEmpty) label ∧ gap.setOff ∧ (close.bare ∨ rest.spacedLead)
    · by_cases hsafe : rest.safe false d
      · by_cases hfix : IsFixup d name.text
        · have hquiet : ¬ body.quiet := fun hq => h (by simp [Body.safe, haround, hsafe, hfix, hq])
          exact exists_misread_fixup name hs hf₁ hl hlabel hg hb hc hrest hfix hquiet
        · have hbody : ¬ body.safe false (d + 1) := fun hb =>
            h (by simp [Body.safe, haround, hsafe, hfix, hb])
          obtain ⟨e, he, hm⟩ := ih₁ false hs'.1.1.2 hr.1 hf₁ hbody
          exact ⟨.node lead₀ label₀ name gap₀ e close₀ rest₀, .node name hl hlabel hg he hc hrest,
            hm.nodeBody hs hfix⟩
      · obtain ⟨e, he, hm⟩ := ih₂ false hs'.2 hr.2 hf₂ hsafe
        exact ⟨.node lead₀ label₀ name gap₀ body₀ close.uncomment e,
          .node name hl hlabel hg hb close.uncomment_within he, hm.nodeRest hs hr.1 hf₁ close.uncomment_bare⟩
    · exact exists_misread_node name hs hr.1 hf₁ hl hlabel hg hb hc hrest haround
  | @reference lead₀ _ gap₀ gap close₀ close target body₀ body rest₀ rest hl hg hb hc hrest ih₁ ih₂ =>
    have hs' := hs
    simp only [Body.spaced, Bool.and_eq_true] at hs'
    simp only [Body.bareReferences, Bool.and_eq_true] at hr
    obtain ⟨hf₁, hf₂⟩ := Body.fits_block hf
    by_cases haround : gap.bare ∧ (close.bare ∨ rest.spacedLead)
    · by_cases hsafe : rest.safe false d
      · have hbody : ¬ body.safe false (d + 1) := fun hb => h (by simp [Body.safe, haround, hsafe, hb])
        obtain ⟨e, he, hm⟩ := ih₁ false hs'.1.1.2 hr.1.2 hf₁ hbody
        exact ⟨.reference lead₀ target gap₀ e close₀ rest₀, .reference target hl hg he hc hrest,
          hm.referenceBody hs hr.1.1⟩
      · obtain ⟨e, he, hm⟩ := ih₂ false hs'.2 hr.2 hf₂ hsafe
        exact ⟨.reference lead₀ target gap₀ body₀ close.uncomment e,
          .reference target hl hg hb close.uncomment_within he,
          hm.referenceRest hs hr.1.1 hr.1.2 hf₁ close.uncomment_bare⟩
    · exact exists_misread_reference target hs hr.1.1 hr.1.2 hf₁ hl hg hb hc hrest haround
  | @root lead₀ _ gap₀ gap close₀ close body₀ body rest₀ rest hl hg hb hc hrest ih₁ ih₂ =>
    have hs' := hs
    simp only [Body.spaced, Bool.and_eq_true] at hs'
    simp only [Body.bareReferences, Bool.and_eq_true] at hr
    obtain ⟨rfl, hf₁, hf₂⟩ := Body.fits_root hf
    by_cases haround : gap.setOff ∧ (close.bare ∨ rest.spacedLead)
    · by_cases hsafe : rest.safe false 0
      · have hbody : ¬ body.safe false 0 := fun hb => h (by simp [Body.safe, haround, hsafe, hb])
        obtain ⟨e, he, hm⟩ := ih₁ false hs'.1.1.2 hr.1 hf₁ hbody
        exact ⟨.root lead₀ gap₀ e close₀ rest₀, .root hl hg he hc hrest, hm.rootBody hs⟩
      · obtain ⟨e, he, hm⟩ := ih₂ false hs'.2 hr.2 hf₂ hsafe
        exact ⟨.root lead₀ gap₀ body₀ close.uncomment e, .root hl hg hb close.uncomment_within he,
          hm.rootRest hs hr.1 hf₁ close.uncomment_bare⟩
    · exact exists_misread_root hs hr.1 hf₁ hl hg hb hc hrest haround

/-! ## A reference behind a comment -/

/-- The openings among the calls. -/
def opens (es : List Event) : ℕ := es.countP fun e => match e with
  | .nodeOpen _ => true
  | _ => false

section
variable (name : Text) (atRoot : Bool) (es fs : List Event)

@[simp] theorem opens_directive : opens (.directive name atRoot :: es) = opens es := by simp [opens]

@[simp] theorem opens_nodeOpen : opens (.nodeOpen name :: es) = opens es + 1 := by simp [opens]

@[simp] theorem opens_nodeExit : opens (.nodeExit :: es) = opens es := by simp [opens]

@[simp] theorem opens_property : opens (.property name :: es) = opens es := by simp [opens]

@[simp] theorem opens_fixup : opens (.fixup name :: es) = opens es := by simp [opens]

@[simp] theorem opens_append : opens (es ++ fs) = opens es + opens fs := by simp [opens]

end

/-- **A hidden reference is missed for good.**  Read at a depth that is too low,
    a body makes no more openings than it should, and fewer if a reference is
    hidden behind a comment. -/
theorem opens_le (b : Body) (first : Bool) {d D : ℕ} (hd : d ≤ D) (hf : b.fits D) :
    depthAfter d (b.pieces first d) ≤ D ∧
      opens ((callsOf (b.pieces first d)).map Call.event) ≤ opens ((b.visits D).map Visit.event) ∧
      (b.bareWhereRead D = false →
        opens ((callsOf (b.pieces first d)).map Call.event) < opens ((b.visits D).map Visit.event)) := by
  induction b generalizing first d D with
  | done tail => exact ⟨hd, Nat.le_refl _, fun h => by simp [Body.bareWhereRead] at h⟩
  | directive lead dir rest ih =>
    have h := ih false hd hf
    simpa [Body.pieces, Body.visits, Body.bareWhereRead, Call.event, Piece.depth] using h
  | property lead label p rest ih =>
    have h := ih false hd hf
    simpa [Body.pieces, Body.visits, Body.bareWhereRead, Call.event, Piece.depth] using h
  | node lead label name gap body close rest ih₁ ih₂ =>
    obtain ⟨hf₁, hf₂⟩ := Body.fits_block hf
    by_cases hfix : IsFixup d name.text
    · obtain ⟨h₁, h₂, h₃⟩ := ih₂ false hd hf₂
      simp only [Body.pieces, if_pos hfix, Body.visits, Body.bareWhereRead]
      by_cases hD : IsFixup D name.text
      · have hzero := hD.1
        simp [hD, Call.event, Piece.depth]
        exact ⟨by omega, h₂, h₃⟩
      · simp [hD, Call.event, Piece.depth]
        exact ⟨h₁, by omega, fun _ => by omega⟩
    · have hD : ¬ IsFixup D name.text := fun h => hfix ⟨by have := h.1; omega, h.2⟩
      obtain ⟨h₁, h₂, h₃⟩ := ih₁ (d := d + 1) (D := D + 1) false (Nat.succ_le_succ hd) hf₁
      obtain ⟨h₄, h₅, h₆⟩ := ih₂ (d := depthAfter (d + 1) (body.pieces false (d + 1)) - 1) false
        (by omega) hf₂
      simp only [Body.pieces, if_neg hfix, Body.visits, if_neg hD, Body.bareWhereRead]
      simp [hD, Call.event, Piece.depth, depthAfter_append]
      refine ⟨h₄, by omega, fun h => ?_⟩
      by_cases hb : body.bareWhereRead (D + 1)
      · have := h₆ (h hb)
        omega
      · have := h₃ (by simpa using hb)
        omega
  | reference lead target gap body close rest ih₁ ih₂ =>
    obtain ⟨hf₁, hf₂⟩ := Body.fits_block hf
    by_cases hbare : gap.bare
    · obtain ⟨h₁, h₂, h₃⟩ := ih₁ (d := d + 1) (D := D + 1) false (Nat.succ_le_succ hd) hf₁
      obtain ⟨h₄, h₅, h₆⟩ := ih₂ (d := depthAfter (d + 1) (body.pieces false (d + 1)) - 1) false
        (by omega) hf₂
      simp only [Body.pieces, if_pos hbare, Body.visits, Body.bareWhereRead]
      simp [hbare, Call.event, Piece.depth, depthAfter_append]
      refine ⟨h₄, by omega, fun h => ?_⟩
      by_cases hb : body.bareWhereRead (D + 1)
      · have := h₆ (h hb)
        omega
      · have := h₃ (by simpa using hb)
        omega
    · -- the opening itself is missing
      obtain ⟨h₁, h₂, -⟩ := ih₁ (D := D + 1) false (Nat.le_succ_of_le hd) hf₁
      obtain ⟨h₄, h₅, -⟩ := ih₂ (d := depthAfter d (body.pieces false d) - 1) false (by omega) hf₂
      simp only [Body.pieces, if_neg hbare, Body.visits, Body.bareWhereRead]
      simp [Call.event, Piece.depth, depthAfter_append]
      exact ⟨h₄, by omega, fun _ => by omega⟩
  | root lead gap body close rest ih₁ ih₂ =>
    obtain ⟨rfl, hf₁, hf₂⟩ := Body.fits_root hf
    obtain rfl : d = 0 := by omega
    obtain ⟨h₁, h₂, h₃⟩ := ih₁ false (Nat.le_refl 0) hf₁
    obtain ⟨h₄, h₅, h₆⟩ := ih₂ (d := depthAfter 0 (body.pieces false 0) - 1) false (by omega) hf₂
    simp only [Body.pieces, Body.visits, Body.bareWhereRead]
    simp [Call.event, Piece.depth, depthAfter_append]
    refine ⟨by omega, by omega, fun h => ?_⟩
    by_cases hb : body.bareWhereRead 0
    · have := h₆ (h hb)
      omega
    · have := h₃ (by simpa using hb)
      omega

/-! ## Comments in documents -/

/-- With comments at safe places only, the calls are those of the traversal. -/
theorem events_of_safe {d : Document} (h : d.body.safe true 0) :
    events d.text = d.visits.map Visit.event := by
  obtain ⟨hsound, hbare⟩ := Body.sound_of_safe h d.fits
  exact events_of_bareWhereRead hsound hbare

/-- A document with a reference that is hidden has other calls. -/
theorem events_of_hidden {d : Document} (h : d.body.spaced) (hb : d.body.bareWhereRead 0 = false) :
    events d.text ≠ d.visits.map Visit.event := by
  intro he
  have hlt := (opens_le d.body true (Nat.le_refl 0) d.fits).2.2 hb
  rw [events, calls_document (Body.sound_of_spaced h true 0)] at he
  rw [he] at hlt
  exact absurd hlt (Nat.lt_irrefl _)

/-- **Comments do not change the calls exactly where they are safe.**  For a document with white space
    between its tokens, and places for comments in it, the scanner makes the same calls with the same
    names whatever comments stand at the places, exactly if the places are safe. -/
theorem comments_ignored_iff (d₀ d : Document) (h : d₀.body.spaced) (hr : d₀.body.bareReferences)
    (hw : d₀.body.Within d.body) :
    (∀ e : Document, e.body.Within d.body → events e.text = events d₀.text) ↔ d.body.safe true 0 := by
  have hvisits : ∀ e : Document, e.body.Within d.body → e.visits.map Visit.event = events d₀.text := by
    intro e he
    rw [scan_exact d₀ h hr, Document.visits, Document.visits, he.visits 0, hw.visits 0]
  constructor
  · intro hall
    by_contra hsafe
    obtain ⟨m, hm⟩ := exists_marker (events d₀.text)
    obtain ⟨b, hb, hmis⟩ := exists_misread m hw true h hr d₀.fits hsafe
    have heq := hall ⟨b, by rw [hb.rootsOnTop, d.rootsOnTop]⟩ hb
    have hv := hvisits ⟨b, by rw [hb.rootsOnTop, d.rootsOnTop]⟩ hb
    rcases hmis with hread | ⟨hs, -, hbare⟩
    · have hmem := (hread b.text.length [] (by simp [At]))
      rw [List.append_nil] at hmem
      exact hm (heq ▸ hmem.mem_events)
    · exact events_of_hidden hs hbare (heq.trans hv.symm)
  · intro hsafe e he
    rw [events_of_safe (he.safe true id hsafe), hvisits e he]

section
open Gap (space)

/-- A comment that holds a brace, and a space. -/
def stuckGap : Gap := .comment (.block [' ', '}', ' '] (by decide)) :: space

/-- `n { a ; };`, with the given gap in front of the brace. -/
def nodeDocument (gap : Gap) : Document where
  body := .node [] none nameN gap
    (.property space none ⟨.of ['a'] (by decide), space, none⟩ (.done space)) [] (.done [])
  rootsOnTop := rfl

/-- `&l { a ; };`, with the given gap in front of the brace and the given gap
    behind it. -/
def referenceDocument (gap lead : Gap) : Document where
  body := .reference [] labelL.name gap
    (.property lead none ⟨.of ['a'] (by decide), space, none⟩ (.done space)) [] (.done [])
  rootsOnTop := rfl

theorem space_within : space.Within commentGap := .other rfl (.left (by simp [Triv.isBlankTriv]) .nil)

theorem referenceDocument_within {gap gap' lead lead' : Gap} (hg : gap.Within gap') (hl : lead.Within lead') :
    (referenceDocument gap lead).body.Within (referenceDocument gap' lead').body :=
  .reference _ (.refl _) hg (.property hl .none (.refl _) (.done (.refl _))) (.refl _) (.done (.refl _))

theorem comments_ignored_behind_brace :
    events (referenceDocument space commentGap).text = events (referenceDocument space space).text :=
  (comments_ignored_iff (referenceDocument space space) (referenceDocument space commentGap)
    (by decide) (by decide) (referenceDocument_within (.refl _) space_within)).2 (by decide) _ (.refl _)

/-- A comment between the label of a reference and its brace hides the opening, and one that is stuck to
    the name of a node is read as code. -/
theorem comments_change_calls :
    ((referenceDocument space space).body.spaced ∧
      (referenceDocument space space).body.Within (referenceDocument commentGap space).body ∧
      events (referenceDocument space space).text = [.nodeOpen ['&'], .property ['a'], .nodeExit] ∧
      events (referenceDocument commentGap space).text = [.property ['a'], .nodeExit]) ∧
    (nodeDocument space).body.spaced ∧ (nodeDocument space).body.Within (nodeDocument stuckGap).body ∧
      events (nodeDocument space).text = [.nodeOpen ['n'], .property ['a'], .nodeExit] ∧
      events (nodeDocument stuckGap).text =
        [.nodeExit, .nodeOpen ['*', '/'], .property ['a'], .nodeExit] := by
  refine ⟨⟨by decide, referenceDocument_within space_within (.refl _), ?_, ?_⟩, by decide, ?_, ?_, ?_⟩
  · decide +kernel
  · decide +kernel
  · have hgap : space.Within stuckGap := .left (by simp [Triv.isBlankTriv]) (Gap.Within.refl space)
    exact .node _ (.refl _) .none hgap (.refl _) (.refl _) (.refl _)
  · decide +kernel
  · decide +kernel

end

end PocketDarwin.PatchDtc
