/-
  The patch pass is idempotent on plain documents.

  A residue is settled when a second run finds nothing to do in it: no stripped
  directive, no fixup subtree, no duplicate, and no long name
  (`Residue.Settled`).  The second run does not read the names of the first: of
  `stem~suffix` it copies `stem~` and takes `suffix` for the name (`cutName`),
  and it copies the labels that were left behind.

  * `residue_reads`, `residue_leaves`: a settled residue is copied;
  * `residue_settled`: what the first run leaves is settled, if no node declares
    a property twice.
-/
import PocketDarwin.PatchDtc.Meaning

namespace PocketDarwin.PatchDtc

open Patcher

/-! ## Names with a suffix -/

/-- A name as the scanner reads it: what is copied, up to a `~`, and the rest. -/
def cutName (name : Text) : Text × Text :=
  match name.dropWhile (· != '~') with
  | [] => ([], name)
  | _ :: suffix => (name.takeWhile (· != '~') ++ ['~'], suffix)

theorem cutName_append (name : Text) : (cutName name).1 ++ (cutName name).2 = name := by
  have h := List.takeWhile_append_dropWhile (p := (· != '~')) (l := name)
  unfold cutName
  split
  · rfl
  · rename_i c suffix heq
    have hc : c = '~' := by
      have := List.head?_dropWhile_not (· != '~') name
      simpa [heq] using this
    rw [heq, hc] at h
    simpa using h

theorem cutName_of_notMem {name : Text} (h : '~' ∉ name) : cutName name = ([], name) := by
  have hd : name.dropWhile (· != '~') = [] := by
    rw [List.dropWhile_eq_nil_iff]
    intro c hc
    simp only [bne_iff_ne, ne_eq]
    rintro rfl
    exact h hc
  rw [cutName, hd]

theorem cutName_suffix {stem : Text} (h : '~' ∉ stem) (suffix : Text) :
    cutName (stem ++ '~' :: suffix) = (stem ++ ['~'], suffix) := by
  have hrun : ∀ c ∈ stem, (c != '~') = true := by
    intro c hc
    simp only [bne_iff_ne, ne_eq]
    rintro rfl
    exact h hc
  have hstop : ∀ c ∈ ('~' :: suffix).head?, ¬ (c != '~') = true := by simp
  rw [cutName, dropWhile_run hrun hstop, takeWhile_run hrun hstop]

/-- What the scanner copies of a name is nothing, or it ends in a `~`; the rest
    is a name of the grammar. -/
structure Legible (name : Text) : Prop where
  front : (cutName name).1 = [] ∨
    ∃ stem, stem ≠ [] ∧ (∀ c ∈ stem, isDeclChar c) ∧ (cutName name).1 = stem ++ ['~']
  suffix : spelled (cutName name).2

theorem Legible.nonempty {name : Text} (h : Legible name) : (cutName name).2 ≠ [] :=
  (Name.of _ h.suffix).nonempty

theorem Legible.startsDecl {name : Text} (h : Legible name) (label : Option Label) (r : Text) :
    StartsDecl (labelText label ++ (name ++ r)) := by
  cases label with
  | some l => exact l.startsDecl (name ++ r)
  | none =>
    rw [labelText_none, List.nil_append, ← cutName_append name, List.append_assoc]
    rcases h.front with h₁ | ⟨stem, hne, hdecl, h₁⟩
    · rw [h₁]
      exact (Name.of _ h.suffix).startsDecl r
    · rw [h₁]
      simpa using (⟨stem, hne, hdecl⟩ : Name).startsDecl ('~' :: ((cutName name).2 ++ r))

theorem notMem_of_decl {w : Text} (h : ∀ c ∈ w, isDeclChar c) : '~' ∉ w := fun hc =>
  absurd (h _ hc) (by decide)

theorem hex_decl {c : Char} (h : Md5.isHex c) : isDeclChar c := by
  simp only [Md5.isHex, Bool.or_eq_true, Bool.and_eq_true, decide_eq_true_eq] at h
  rcases h with h | ⟨h₁, h₂⟩
  · simp [isDeclChar, Char.isAlphanum, h]
  · have hz : c ≤ 'z' := Char.le_trans h₂ (by decide)
    have hlower : c.isAlphanum := by
      rw [isAlphanum_eq, decide_eq_true (Char.le_def.1 h₁), decide_eq_true (Char.le_def.1 hz)]
      simp
    simp [isDeclChar, hlower]

/-! ## Settled residues -/

section
variable {n d : ℕ} {r : Text}

/-- The part of a name up to its `~` is copied. -/
theorem stem_reads {stem : Text} (hne : stem ≠ []) (hdecl : ∀ c ∈ stem, isDeclChar c)
    (hat : At false n (stem ++ '~' :: r)) :
    Reads n d (stem ++ '~' :: r) [.raw (stem ++ ['~'])] r := by
  have hnm : NameAt n (stem ++ '~' :: r) stem (Gap.text [] ++ '~' :: r) :=
    ⟨hat.nameStart, hne, fun c hc => declChar_name c (hdecl c hc),
      by simp; decide⟩
  have hstart : StartsDecl (stem ++ '~' :: r) := (⟨stem, hne, hdecl⟩ : Name).startsDecl _
  have h₁ := hnm.copiesGap (d := d) hstart.declares
    (by simp [skipTrivia_firm (show isFirm '~' by decide)]) rfl
  rw [Gap.text_nil, List.append_nil] at h₁
  exact (h₁.trans (stray_reads (by decide) (by decide))).join

/-- The label of a declaration and the part of its name up to the `~`. -/
theorem front_reads {label : Option Label} {name : Text} (h : Legible name) (hl : labelSpaced label)
    (hat : At false n (labelText label ++ (name ++ r))) :
    Reads n d (labelText label ++ (name ++ r)) [.raw (labelText label), .raw (cutName name).1]
        ((cutName name).2 ++ r) ∧ At false n ((cutName name).2 ++ r) := by
  have hname : At false n (name ++ r) := hat.behindText
  have hcut : name ++ r = (cutName name).1 ++ ((cutName name).2 ++ r) := by
    rw [← List.append_assoc, cutName_append]
  have h₁ : Reads n d (labelText label ++ (name ++ r)) [.raw (labelText label)] (name ++ r) := by
    cases label with
    | none => exact Reads.refl.raw_nil
    | some l =>
      exact label_reads d hl (h.startsDecl none r).undeclared hat.le hat.nameStart
  have h₂ : Reads n d (name ++ r) [.raw (cutName name).1] ((cutName name).2 ++ r) := by
    rcases h.front with hf | ⟨stem, hne, hdecl, hf⟩
    · rw [hcut, hf]
      exact Reads.refl.raw_nil
    · rw [hcut, hf, List.append_assoc, List.singleton_append]
      refine stem_reads hne hdecl ?_
      rwa [hcut, hf, List.append_assoc, List.singleton_append] at hname
  exact ⟨h₁.trans h₂, (hcut ▸ hname).behindText⟩

end

namespace Residue

/-- A second run finds nothing to do. -/
def Settled : Option Frame → Residue → Prop
  | _, done _ => True
  | frame, orphan _ _ rest => rest.Settled frame
  | frame, directive _ d rest => ¬ strippedDirectives.contains d.name ∧ rest.Settled frame
  | frame, property _ _ name _ _ rest =>
    Legible name ∧ (cutName name).2.length ≤ 31 ∧ ¬ duplicate frame (cutName name).2 ∧
      rest.Settled (frame.map (.see (cutName name).2))
  | frame, node _ _ name _ body _ rest =>
    Legible name ∧ (keyOf .node (cutName name).2).length ≤ 31 ∧
      ¬ (frame.isNone && fixupNodeNames.contains (cutName name).2) ∧
      body.Settled (some {}) ∧ rest.Settled frame
  | frame, reference _ _ _ body _ rest => body.Settled (some {}) ∧ rest.Settled frame
  | frame, root _ _ body _ rest => body.Settled none ∧ rest.Settled frame

/-- The pieces of a settled residue at depth `d`. -/
def pieces : ℕ → Residue → List Piece
  | _, done tail => [.raw tail.text]
  | d, orphan lead label rest => .raw lead.text :: .raw label.text :: rest.pieces d
  | d, directive lead dir rest =>
    .raw lead.text :: .directive dir.name dir.text (d == 0) :: rest.pieces d
  | d, property lead label name gap value rest =>
    .raw lead.text :: .raw (labelText label) :: .raw (cutName name).1 ::
      .property (cutName name).2 ((cutName name).2 ++ gap.text ++ Property.valueText value) ::
      rest.pieces d
  | d, node lead label name gap body close rest =>
    .raw lead.text :: .raw (labelText label) :: .raw (cutName name).1 ::
      .nodeOpen (cutName name).2 ((cutName name).2 ++ gap.text) :: .raw ['{'] ::
      (body.pieces (d + 1) ++ (closing close ++ rest.pieces d))
  | d, reference lead target gap body close rest =>
    .raw lead.text :: .nodeOpen ['&'] ('&' :: (target.text ++ gap.text)) :: .raw ['{'] ::
      (body.pieces (d + 1) ++ (closing close ++ rest.pieces d))
  | d, root lead gap body close rest =>
    .raw lead.text :: .raw ('/' :: gap.text) :: .raw ['{'] ::
      (body.pieces d ++ (closing close ++ rest.pieces d))

/-- Root blocks stand at depth 0 only. -/
def fits (d : ℕ) (r : Residue) : Bool := r.rootless || (d == 0 && r.rootsOnTop)

theorem fits_block {d : ℕ} {body rest : Residue}
    (h : (body.rootless && rest.rootless) || (d == 0 && (body.rootless && rest.rootsOnTop))) :
    body.fits (d + 1) ∧ rest.fits d := by
  simp only [fits, Bool.or_eq_true, Bool.and_eq_true] at h ⊢
  rcases h with ⟨h₁, h₂⟩ | ⟨h₁, h₂, h₃⟩
  · exact ⟨.inl h₁, .inl h₂⟩
  · exact ⟨.inl h₂, .inr ⟨h₁, h₃⟩⟩

theorem fits_root {d : ℕ} {body rest : Residue}
    (h : false || (d == 0 && (body.rootless && rest.rootsOnTop))) :
    d = 0 ∧ body.fits 0 ∧ rest.fits 0 := by
  simp only [Bool.false_or, Bool.and_eq_true, beq_iff_eq] at h
  simp [fits, h]

/-- A residue ends at the depth it starts at. -/
theorem depthAfter_pieces (r : Residue) {d : ℕ} (h : r.fits d) : depthAfter d (r.pieces d) = d := by
  induction r generalizing d with
  | done tail => rfl
  | orphan lead label rest ih => exact ih h
  | directive lead dir rest ih => exact ih h
  | property lead label name gap value rest ih => exact ih h
  | node lead label name gap body close rest ih₁ ih₂ =>
    obtain ⟨h₁, h₂⟩ := fits_block h
    simp [pieces, Piece.depth, depthAfter_append, ih₁ h₁, ih₂ h₂]
  | reference lead target gap body close rest ih₁ ih₂ =>
    obtain ⟨h₁, h₂⟩ := fits_block h
    simp [pieces, Piece.depth, depthAfter_append, ih₁ h₁, ih₂ h₂]
  | root lead gap body close rest ih₁ ih₂ =>
    obtain ⟨rfl, h₁, h₂⟩ := fits_root h
    simp [pieces, Piece.depth, depthAfter_append, ih₁ h₁, ih₂ h₂]

/-! ## Reading a settled residue -/

/-- The first token of a residue. -/
theorem undeclared {r : Residue} {frame : Option Frame} (hset : r.Settled frame) (hr : r.spaced)
    {after : Text} (ha : Ends after) :
    ∀ c ∈ (skipTrivia (r.text ++ after)).head?, c ≠ '{' ∧ c ≠ '=' ∧ c ≠ ';' := by
  cases r with
  | done tail =>
    rw [text, skipTrivia_gap]
    exact ha.undeclared
  | orphan lead label rest =>
    simp only [text, List.append_assoc]
    rw [skipTrivia_gap]
    exact (label.startsDecl _).undeclared
  | directive lead dir rest =>
    simp only [text, List.append_assoc]
    rw [skipTrivia_gap]
    exact dir.undeclared _
  | property lead label name gap value rest =>
    simp only [text, List.append_assoc]
    rw [skipTrivia_gap]
    exact (hset.1.startsDecl label _).undeclared
  | node lead label name gap body close rest =>
    simp only [text, List.append_assoc]
    rw [skipTrivia_gap]
    exact (hset.1.startsDecl label _).undeclared
  | reference lead target gap body close rest =>
    simp only [text, List.append_assoc, List.cons_append]
    rw [skipTrivia_gap, skipTrivia_firm (by decide)]
    simp
  | root lead gap body close rest =>
    simp only [spaced, Bool.and_eq_true] at hr
    simp only [text, List.append_assoc, List.cons_append]
    rw [skipTrivia_gap, skipTrivia_slash (Gap.noComment hr.1.1.1 ⟨'{', _, rfl, by decide, by decide⟩)]
    simp

theorem follows {r : Residue} {frame : Option Frame} (hset : r.Settled frame) (hr : r.spaced)
    (hl : r.spacedLead) {after : Text} (ha : Ends after) : Follows (r.text ++ after) := by
  refine ⟨?_, undeclared hset hr ha⟩
  cases r with
  | done tail => exact Gap.stops blank_not_name hl ha.stops
  | orphan | directive | property | node | reference | root =>
    simp only [text, List.append_assoc]
    exact Gap.stops_of_spaced hl _

/-- **The scanner reads the pieces of a settled residue.** -/
theorem residue_reads (r : Residue) (hplain : r.plain) (hr : r.spaced) {n d : ℕ} {frame : Option Frame}
    (hset : r.Settled frame) (hd : frame = none ↔ d = 0) (hfits : r.fits d) {after : Text}
    (hat : At false n (r.text ++ after)) (ha : Ends after) :
    Reads n d (r.text ++ after) (r.pieces d) after := by
  induction r generalizing d frame after with
  | done tail => exact Reads.gap n d tail after
  | orphan lead label rest ih =>
    simp only [plain, spaced, Bool.and_eq_true] at hplain hr
    simp only [text, List.append_assoc] at hat ⊢
    have hl := hat.behind
    have hrest := ih hplain.2 hr.2 hset hd hfits (hl.later (by simp [Label.text])) ha
    have hlabel := label_reads d hr.1 (undeclared (r := rest) hset hr.2 ha) hl.le hl.nameStart
    exact (Reads.gap n d lead _).trans (hlabel.trans hrest)
  | directive lead dir rest ih =>
    simp only [plain, spaced, Bool.and_eq_true] at hplain hr
    simp only [text, List.append_assoc] at hat ⊢
    have hrest := hat.behind.later (w := dir.text) (by simp [Directive.text])
    refine (Reads.gap n d lead _).trans ((directive_reads dir).trans ?_)
    exact ih hplain.2 hr.2 hset.2 hd hfits hrest ha
  | property lead label name gap value rest ih =>
    simp only [plain, spaced, Bool.and_eq_true] at hplain hr
    obtain ⟨hleg, -, -, hset⟩ := hset
    have he : (property lead label name gap value rest).text ++ after = lead.text ++ (labelText label ++
        (name ++ ((gap.text ++ Property.valueText value) ++ (rest.text ++ after)))) := by
      simp [text]
    rw [he] at hat ⊢
    obtain ⟨hfront, hname⟩ := front_reads (d := d) hleg hr.1.1 hat.behind
    let p : Property := ⟨.of _ hleg.suffix, gap, value⟩
    have hown : At false n (labelText none ++ (p.text ++ (rest.text ++ after))) := by
      simpa [p, Property.text, Name.of] using hname
    have hp := property_reads (d := d) rfl hr.1.2 hown
    have hrest := ih hplain.2 hr.2 hset (frame_map hd _) hfits hname.behindText.behindText ha
    simp only [labelText_none, List.nil_append, p, Property.text, Name.of, labelled,
      Reads.raw_nil_iff] at hp
    rw [show ∀ w, (cutName name).2 ++ ((gap.text ++ Property.valueText value) ++ w) =
      (cutName name).2 ++ gap.text ++ Property.valueText value ++ w by simp] at hfront
    exact (Reads.gap n d lead _).trans (hfront.trans (hp.trans hrest))
  | node lead label name gap body close rest ih₁ ih₂ =>
    simp only [plain, spaced, Bool.and_eq_true] at hplain hr
    obtain ⟨⟨⟨⟨hl, hg⟩, hbody⟩, hlead⟩, hsp⟩ := hr
    obtain ⟨hleg, -, hfix, hset₁, hset₂⟩ := hset
    obtain ⟨hf₁, hf₂⟩ := fits_block hfits
    have hfollows := follows hset₂ hsp hlead ha
    have he : (node lead label name gap body close rest).text ++ after =
        lead.text ++ (labelText label ++
        (name ++ (gap.text ++ '{' :: (body.text ++ (Body.blockEnd close ++ (rest.text ++ after)))))) := by
      simp [text]
    rw [he] at hat ⊢
    obtain ⟨hfront, hname⟩ := front_reads (d := d) hleg hl hat.behind
    obtain ⟨hinside, hrest⟩ := hname.behindText.block
    have hown : At false n (labelText none ++ ((Name.of _ hleg.suffix).text ++ gap.text ++
        '{' :: (body.text ++ (Body.blockEnd close ++ (rest.text ++ after))))) := by
      simpa [Name.of] using hname
    have hopen := node_reads (d := d) rfl hg hown (mt (fixup_iff hd _).2 hfix)
    simp only [labelText_none, List.nil_append, Name.of, labelled, Reads.raw_nil_iff] at hopen
    rw [show ∀ w : Text, (cutName name).2 ++ (gap.text ++ w) =
      (cutName name).2 ++ gap.text ++ w by simp] at hfront
    refine (Reads.gap n d lead _).trans (hfront.trans (hopen.trans ?_))
    refine (ih₁ hplain.1.1.2 hbody hset₁ (by simp) hf₁ hinside (.inr ⟨_, rfl⟩)).trans ?_
    refine (close_reads close (.inr hfollows)).trans ?_
    simpa [Piece.depth, depthAfter_pieces body hf₁] using ih₂ hplain.2 hsp hset₂ hd hf₂ hrest ha
  | reference lead target gap body close rest ih₁ ih₂ =>
    simp only [plain, spaced, Bool.and_eq_true] at hplain hr
    obtain ⟨⟨⟨hg, hbody⟩, hlead⟩, hsp⟩ := hr
    obtain ⟨hset₁, hset₂⟩ := hset
    obtain ⟨hf₁, hf₂⟩ := fits_block hfits
    have hfollows := follows hset₂ hsp hlead ha
    have he : (reference lead target gap body close rest).text ++ after = lead.text ++
        ('&' :: (target.text ++ gap.text) ++
          '{' :: (body.text ++ (Body.blockEnd close ++ (rest.text ++ after)))) := by
      simp [text]
    rw [he] at hat ⊢
    obtain ⟨hinside, hrest⟩ := hat.behind.block
    have hopen := reference_reads (n := n) (d := d)
      (r := body.text ++ (Body.blockEnd close ++ (rest.text ++ after))) target hg
    rw [if_pos hplain.1.1.1.2] at hopen
    refine (Reads.gap n d lead _).trans (hopen.trans ?_)
    refine (ih₁ hplain.1.1.2 hbody hset₁ (by simp) hf₁ hinside (.inr ⟨_, rfl⟩)).trans ?_
    refine (close_reads close (.inr hfollows)).trans ?_
    simpa [Piece.depth, depthAfter_pieces body hf₁] using ih₂ hplain.2 hsp hset₂ hd hf₂ hrest ha
  | root lead gap body close rest ih₁ ih₂ =>
    simp only [plain, spaced, Bool.and_eq_true] at hplain hr
    obtain ⟨⟨⟨hg, hbody⟩, hlead⟩, hsp⟩ := hr
    obtain ⟨hset₁, hset₂⟩ := hset
    obtain ⟨rfl, hf₁, hf₂⟩ := fits_root hfits
    have hfollows := follows hset₂ hsp hlead ha
    have he : (root lead gap body close rest).text ++ after = lead.text ++
        ('/' :: gap.text ++ '{' :: (body.text ++ (Body.blockEnd close ++ (rest.text ++ after)))) := by
      simp [text]
    rw [he] at hat ⊢
    obtain ⟨hinside, hrest⟩ := hat.behind.block
    refine (Reads.gap n 0 lead _).trans ((root_reads hg).trans ?_)
    refine (ih₁ hplain.1.1.2 hbody hset₁ (by simp) hf₁ hinside (.inr ⟨_, rfl⟩)).trans ?_
    refine (close_reads close (.inr hfollows)).trans ?_
    simpa [Piece.depth, depthAfter_pieces body hf₁] using ih₂ hplain.2 hsp hset₂ hd hf₂ hrest ha

/-! ## The patcher on a settled residue -/

/-- **The patcher leaves a settled residue as it is.** -/
theorem residue_leaves (r : Residue) {d : ℕ} {frame : Option Frame} (hset : r.Settled frame)
    (hd : frame = none ↔ d = 0) (hfits : r.fits d) {p : Patcher} (hin : InFrame p frame) :
    Leaves p (r.pieces d) r.text p.truncateSeen := by
  induction r generalizing d frame p with
  | done tail => exact ⟨by simp [pieces, Piece.emit, text], rfl, .refl p⟩
  | orphan lead label rest ih =>
    simp only [pieces, text, List.append_assoc]
    exact ((ih hset hd hfits hin).raw _).raw _
  | directive lead dir rest ih =>
    obtain ⟨hs, hset⟩ := hset
    have hdir := Leaves.directive (p := p) dir.name dir.text (d == 0)
      fun q h₁ h₂ h₃ => h₃ ▸ ih hset hd hfits (hin.of_eq h₁ h₂)
    simp only [hs, Bool.false_eq_true, if_false] at hdir
    simp only [pieces, text, List.append_assoc]
    exact hdir.raw lead.text
  | property lead label name gap value rest ih =>
    obtain ⟨hleg, hshort, hdup, hset⟩ := hset
    have hpr := onProperty_frame hin (w := gap.text ++ Property.valueText value) hleg.nonempty
    simp only [if_neg hdup] at hpr
    rw [truncated_short p.truncateSeen (show (keyOf .property (cutName name).2).length ≤
      31 from hshort),
      ← List.append_assoc] at hpr
    obtain ⟨h₁, h₂, h₃, h₄⟩ := hpr
    have hrest := ih hset (frame_map hd _) hfits h₂
    rw [h₄] at hrest
    have hprop := hrest.cons (x := .property (cutName name).2 _) h₁ h₃
    have htext : (property lead label name gap value rest).text = lead.text ++ (labelText label ++
        ((cutName name).1 ++ ((cutName name).2 ++ gap.text ++ Property.valueText value ++
          rest.text))) := by
      rw [text]
      nth_rewrite 1 [← cutName_append name]
      simp
    rw [htext]
    exact ((hprop.raw _).raw _).raw _
  | node lead label name gap body close rest ih₁ ih₂ =>
    obtain ⟨hleg, hshort, hfix, hset₁, hset₂⟩ := hset
    obtain ⟨hf₁, hf₂⟩ := fits_block hfits
    have hnode := Leaves.node (p := p) (w := gap.text) close hleg.nonempty
      (fun q hq h => h ▸ ih₁ hset₁ (by simp) hf₁ hq)
      fun p' e₁ e₂ e₃ => e₃ ▸ ih₂ hset₂ hd hf₂ (hin.of_eq e₁ e₂)
    rw [truncated_short p.truncateSeen hshort] at hnode
    have htext : (node lead label name gap body close rest).text = lead.text ++ (labelText label ++
        ((cutName name).1 ++ ((cutName name).2 ++ gap.text ++
          '{' :: (body.text ++ (Body.blockEnd close ++ rest.text))))) := by
      rw [text]
      nth_rewrite 1 [← cutName_append name]
      simp
    rw [htext]
    exact ((hnode.raw _).raw _).raw _
  | reference lead target gap body close rest ih₁ ih₂ =>
    obtain ⟨hset₁, hset₂⟩ := hset
    obtain ⟨hf₁, hf₂⟩ := fits_block hfits
    have href := Leaves.reference (p := p) (w := target.text ++ gap.text) close
      (fun q hq h => h ▸ ih₁ hset₁ (by simp) hf₁ hq)
      fun p' e₁ e₂ e₃ => e₃ ▸ ih₂ hset₂ hd hf₂ (hin.of_eq e₁ e₂)
    simp only [text, List.append_assoc, List.cons_append] at href ⊢
    exact href.raw _
  | root lead gap body close rest ih₁ ih₂ =>
    obtain ⟨hset₁, hset₂⟩ := hset
    obtain ⟨rfl, hf₁, hf₂⟩ := fits_root hfits
    obtain rfl : frame = none := hd.2 rfl
    have hblock := (ih₁ hset₁ hd hf₁ hin).rootBlock ('/' :: gap.text) close hin
      fun p' e₁ e₂ => e₂ ▸ ih₂ hset₂ hd hf₂ e₁
    simp only [text, List.append_assoc, List.cons_append] at hblock ⊢
    exact hblock.raw _

end Residue

/-! ## What the first run leaves is settled -/

/-- The key of a truncation. -/
theorem keyOf_truncation {kind : Kind} {w : Text} (h : kind = .node → '@' ∉ w) (name : Text) :
    keyOf kind (w ++ tailOf kind name) = w := by
  cases kind with
  | property => exact List.append_nil w
  | node =>
    refine takeWhile_run ?_ ?_
    · intro c hc
      simp only [bne_iff_ne, ne_eq]
      rintro rfl
      exact h rfl hc
    · intro c hc
      have hstop := List.head?_dropWhile_not (· != '@') name
      simp only [tailOf] at hc
      rw [Option.mem_def.1 hc] at hstop
      simpa using hstop

theorem notMem_keyOf {kind : Kind} (h : kind = .node) (name : Text) : '@' ∉ keyOf kind name := by
  subst h
  intro hc
  simpa using List.mem_takeWhile_imp hc

/-- The names that the patcher knows. -/
def knownNames : List Text := phandle :: linuxPhandle :: fixupNodeNames

theorem known_length : ∀ w ∈ knownNames, w.length < 28 := by decide

theorem known_head : ∀ w ∈ knownNames, ¬ w.head?.any Md5.isHex := by decide

/-- **A truncation as the scanner reads it**: its key is short, and it is no known
    name, unless nothing was truncated. -/
theorem truncated_legible (name : Name) (t : Table) (kind : Kind) :
    Legible (truncated t name.text kind).1 ∧
      (keyOf kind (cutName (truncated t name.text kind).1).2).length ≤ 31 ∧
      ((cutName (truncated t name.text kind).1).2 = name.text ∨
        (cutName (truncated t name.text kind).1).2 ∉ knownNames) := by
  have hdecl := name.chars
  have hsplit := keyOf_append_tailOf kind name.text
  have hkey : ∀ c ∈ keyOf kind name.text, isDeclChar c := fun c hc =>
    hdecl c (hsplit ▸ List.mem_append_left _ hc)
  have htail : ∀ c ∈ tailOf kind name.text, isDeclChar c := fun c hc =>
    hdecl c (hsplit ▸ List.mem_append_right _ hc)
  rcases Nat.lt_or_ge 31 (keyOf kind name.text).length with hlong | hshort
  · obtain ⟨c, he, hc⟩ := truncated_long t hlong
    rw [he]
    split_ifs at hc
    · obtain ⟨stem, suf, rfl, hstem, hpre, hsuf, hlen, hhex⟩ := hc
      have hstemdecl : ∀ c ∈ stem, isDeclChar c := fun c hc => hkey c (hpre.subset hc)
      have hcut : cutName (stem ++ '~' :: suf ++ tailOf kind name.text) =
          (stem ++ ['~'], suf ++ tailOf kind name.text) := by
        rw [List.append_assoc, List.cons_append]
        exact cutName_suffix (notMem_of_decl hstemdecl) _
      have hat : '@' ∉ suf := fun h => absurd (hhex _ h) (by decide)
      have hspelled : spelled (suf ++ tailOf kind name.text) := by
        rw [spelled_iff]
        refine ⟨by simp [hsuf], fun c hc => ?_⟩
        rcases List.mem_append.1 hc with hc | hc
        · exact hex_decl (hhex c hc)
        · exact htail c hc
      refine ⟨⟨.inr ⟨stem, hstem, hstemdecl, by rw [hcut]⟩, by rw [hcut]; exact hspelled⟩, ?_, .inr ?_⟩
      · rw [hcut, keyOf_truncation fun _ => hat]
        omega
      · rw [hcut]
        intro hknown
        cases suf with
        | nil => exact hsuf rfl
        | cons x suf => exact known_head _ hknown (hhex x (by simp))
    · have hall : ∀ x ∈ c ++ tailOf kind name.text, isDeclChar x := by
        intro x hx
        rcases List.mem_append.1 hx with hx | hx
        · exact hkey x (List.mem_of_mem_take (hc ▸ hx))
        · exact htail x hx
      have hcut := cutName_of_notMem (notMem_of_decl hall)
      have hlen : c.length = 28 := by
        rw [hc, List.length_take]
        omega
      have hspelled : spelled (c ++ tailOf kind name.text) := by
        rw [spelled_iff]
        refine ⟨fun he => ?_, hall⟩
        simp [(List.append_eq_nil_iff.1 he).1] at hlen
      refine ⟨⟨.inl (by rw [hcut]), by rw [hcut]; exact hspelled⟩, ?_, .inr ?_⟩
      · rw [hcut, keyOf_truncation]
        · omega
        · intro hk hx
          exact notMem_keyOf hk name.text (List.mem_of_mem_take (hc ▸ hx))
      · rw [hcut]
        intro hknown
        have := known_length _ hknown
        simp only [List.length_append] at this
        omega
  · rw [truncated_short t hshort]
    have hcut : cutName name.text = ([], name.text) := cutName_of_notMem (notMem_of_decl hdecl)
    rw [hcut]
    exact ⟨⟨.inl (by rw [hcut]), by rw [hcut]; exact name.spelled⟩, hshort, .inl rfl⟩

/-- The names of the properties that a node with this body declares itself. -/
def Body.propertyNames : Body → List Text
  | .done _ => []
  | .property _ _ p rest => p.name.text :: rest.propertyNames
  | .directive _ _ rest | .node _ _ _ _ _ _ rest | .reference _ _ _ _ _ rest | .root _ _ _ _ rest =>
    rest.propertyNames

/-- No node declares a property twice. -/
def Body.distinct : Body → Bool
  | .done _ => true
  | .directive _ _ rest | .property _ _ _ rest => rest.distinct
  | .node _ _ _ _ body _ rest | .reference _ _ _ body _ rest | .root _ _ body _ rest =>
    decide body.propertyNames.Nodup && body.distinct && rest.distinct

/-- The frames of the first and of the second run at the same place, with the
    properties `names` to come: the second has seen no known name that the first
    has not seen. -/
inductive Tracks (names : List Text) : Option Frame → Option Frame → Prop
  | outside : Tracks names none none
  | inside {f f' : Frame} (nodup : names.Nodup) (fresh : ∀ x ∈ names, x ∉ f.seen)
      (dropped : ∀ x ∈ f.dropped, x ∈ f.seen) (seen : ∀ x ∈ f'.seen, x ∈ knownNames → x ∈ f.seen) :
      Tracks names (some f) (some f')

namespace Tracks
variable {name : Text} {names : List Text} {frame frame' : Option Frame}

theorem block {names : List Text} (h : names.Nodup) : Tracks names (some {}) (some {}) :=
  .inside h (by simp) (by simp) (by simp)

theorem isNone_eq (h : Tracks names frame frame') : frame'.isNone = frame.isNone := by
  cases h <;> rfl

/-- A property that the first run drops. -/
theorem drop (h : Tracks (name :: names) frame frame') :
    Tracks names (frame.map (.drop name)) frame' := by
  cases h with
  | outside => exact .outside
  | inside nodup fresh dropped seen =>
    rw [List.nodup_cons] at nodup
    refine .inside nodup.2 (fun x hx => ?_) (fun x hx => ?_) (fun x hx hk => ?_)
    · simp only [Frame.drop, List.mem_insert_iff, not_or]
      exact ⟨fun he => nodup.1 (he ▸ hx), fresh x (by simp [hx])⟩
    · simp only [Frame.drop, List.mem_insert_iff] at hx ⊢
      exact hx.imp_right (dropped x)
    · simp [Frame.drop, seen x hx hk]

/-- A property that the first run keeps, under the name `part`. -/
theorem see (h : Tracks (name :: names) frame frame') {part : Text}
    (hpart : part = name ∨ part ∉ knownNames) :
    Tracks names (frame.map (.see name)) (frame'.map (.see part)) := by
  cases h with
  | outside => exact .outside
  | inside nodup fresh dropped seen =>
    rw [List.nodup_cons] at nodup
    refine .inside nodup.2 (fun x hx => ?_) (fun x hx => ?_) (fun x hx hk => ?_)
    · simp only [Frame.see, List.mem_insert_iff, not_or]
      exact ⟨fun he => nodup.1 (he ▸ hx), fresh x (by simp [hx])⟩
    · simp [Frame.see, dropped x hx]
    · simp only [Frame.see, List.mem_insert_iff] at hx ⊢
      rcases hx with rfl | hx
      · exact .inl (hpart.resolve_right (not_not_intro hk))
      · exact .inr (seen x hx hk)

/-- What is no duplicate in the first run is none in the second. -/
theorem not_duplicate (h : Tracks (name :: names) frame frame') {part : Text}
    (hpart : part = name ∨ part ∉ knownNames) (hdup : ¬ duplicate frame name) :
    ¬ duplicate frame' part := by
  have hknown : phandle ∈ knownNames ∧ linuxPhandle ∈ knownNames := by decide
  cases h with
  | outside => exact Bool.false_ne_true
  | inside nodup fresh dropped seen =>
    have hnd := fun hx => fresh name (by simp) (dropped name hx)
    simp only [duplicate, Bool.or_eq_true, Bool.and_eq_true, beq_iff_eq, List.contains_eq_mem,
      decide_eq_true_eq, Bool.not_eq_true', decide_eq_false_iff_not] at hdup ⊢
    rintro (⟨⟨rfl, h₁⟩, -⟩ | ⟨⟨rfl, h₁⟩, -⟩)
    · obtain rfl := hpart.resolve_right (not_not_intro hknown.1)
      exact hdup (.inl ⟨⟨rfl, seen _ h₁ hknown.2⟩, hnd⟩)
    · obtain rfl := hpart.resolve_right (not_not_intro hknown.2)
      exact hdup (.inr ⟨⟨rfl, seen _ h₁ hknown.1⟩, hnd⟩)

end Tracks

namespace Residue

@[simp] theorem settled_behind (g : Gap) (r : Residue) (frame : Option Frame) :
    (r.behind g).Settled frame ↔ r.Settled frame := by
  cases r <;> rfl

@[simp] theorem settled_deleted (g : Gap) (label : Option Label) (r : Residue) (frame : Option Frame) :
    (deleted g label r).Settled frame ↔ r.Settled frame := by
  cases label <;> simp [deleted, Settled]

end Residue

/-- **What the first run leaves is settled**, if no node declares a property
    twice. -/
theorem residue_settled (b : Body) (hb : b.distinct) (t : Table) {frame frame' : Option Frame}
    (h : Tracks b.propertyNames frame frame') : (b.residue frame t).1.Settled frame' := by
  induction b generalizing t frame frame' with
  | done tail => trivial
  | directive lead d rest ih =>
    have hrest := ih hb t h
    simp only [Body.residue]
    split_ifs with hs
    · simpa using hrest
    · exact ⟨hs, hrest⟩
  | property lead label p rest ih =>
    simp only [Body.residue]
    split_ifs with hdup
    · simpa using ih hb t h.drop
    · obtain ⟨hleg, hshort, hpart⟩ := truncated_legible p.name t .property
      exact ⟨hleg, hshort, h.not_duplicate hpart hdup, ih hb _ (h.see hpart)⟩
  | node lead label name gap body close rest ih₁ ih₂ =>
    simp only [Body.distinct, Bool.and_eq_true, decide_eq_true_eq] at hb
    simp only [Body.residue]
    split_ifs with hfix
    · simpa using ih₂ hb.2 t h
    · obtain ⟨hleg, hshort, hpart⟩ := truncated_legible name t .node
      refine ⟨hleg, hshort, ?_, ih₁ hb.1.2 _ (.block hb.1.1), ih₂ hb.2 _ h⟩
      rw [h.isNone_eq]
      intro hx
      have hmem := hx
      rw [Bool.and_eq_true, List.contains_iff_mem] at hmem
      rw [hpart.resolve_right (not_not_intro (by simp [knownNames, hmem.2]))] at hx
      exact hfix hx
  | reference lead target gap body close rest ih₁ ih₂ =>
    simp only [Body.distinct, Bool.and_eq_true, decide_eq_true_eq] at hb
    exact ⟨ih₁ hb.1.2 t (.block hb.1.1), ih₂ hb.2 _ h⟩
  | root lead gap body close rest ih₁ ih₂ =>
    simp only [Body.distinct, Bool.and_eq_true, decide_eq_true_eq] at hb
    exact ⟨ih₁ hb.1.2 t .outside, ih₂ hb.2 _ h⟩

/-- A document that starts with `/dts-v1/;` and goes on with a settled residue is
    its own output. -/
theorem patch_settled (r : Residue) (hplain : r.plain) (hspaced : r.spaced) (hroots : r.rootsOnTop)
    (hset : r.Settled none) :
    patch {} (Directive.dtsV1.text ++ r.text) = Directive.dtsV1.text ++ r.text := by
  have hfits : r.fits 0 := by simp [Residue.fits, hroots]
  have hframe : InFrame {} none := ⟨rfl, rfl⟩
  have hleaves := (Residue.residue_leaves r hset (by simp) hfits hframe).out
  have hat : At false (Directive.dtsV1.text ++ r.text).length (r.text ++ []) := by
    rw [List.append_nil]
    exact length_lt_append (by simp [Directive.text]) r.text
  have hreads := (Residue.residue_reads r hplain hspaced hset (by simp) hfits hat (.inl rfl))
  rw [List.append_nil] at hreads
  have hall := ((directive_reads (n := (Directive.dtsV1.text ++ r.text).length) (d := 0)
    (r := r.text) .dtsV1).trans hreads) Patcher (callbacks {}) {}
  rw [patch, scanDts_eq_scanFrom, hall]
  simp only [scanFrom_nil, List.append_nil, List.singleton_append, replay_cons]
  exact congrArg (Directive.dtsV1.text ++ ·) hleaves

/-- **The patch pass is idempotent** on plain documents in which no node declares
    a property twice. -/
theorem patch_idempotent (d : PlainDocument) (h : d.body.distinct) :
    patch {} (patch {} d.text) = patch {} d.text := by
  rw [d.patch_plain]
  exact patch_settled d.residue (residue_plain d.body none ∅ d.plain)
    (residue_spaced d.body none ∅ d.spaced) (residue_rootsOnTop d.body none ∅ d.rootsOnTop)
    (residue_settled d.body h ∅ .outside)

section
open Gap (space)

/-- `/dts-v1/; n { phandle ; l: linux,phandle ; aa…ab ; aa…ac ; };` -/
def crowdedNode : PlainDocument where
  body := .node space none nameN space (twins (clashing (.done space))) [] (.done [])
  rootsOnTop := by decide
  plain := by decide
  spaced := by decide

/-- The second run keeps the label that the first leaves behind, and the `~`. -/
theorem patch_idempotent_crowdedNode : crowdedNode.body.distinct ∧
    patch {} (patch {} crowdedNode.text) = patch {} crowdedNode.text :=
  ⟨by decide, patch_idempotent crowdedNode (by decide)⟩

end

end PocketDarwin.PatchDtc
