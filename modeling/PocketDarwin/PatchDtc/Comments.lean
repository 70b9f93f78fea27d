/-
  Comments in documents.

  `Body.Within b b'` says that `b` differs from `b'` in comments only, and has
  them at no other places: the comments of `b'` mark the places, and `b` has any
  comments at some of them.  The traversal does not depend on them
  (`Body.Within.visits`).

  `Body.safe` is about the places: with comments there and nowhere else, the
  scanner finds all that it has to find (`Body.sound_of_safe`).
-/
import PocketDarwin.PatchDtc.Exact

namespace PocketDarwin.PatchDtc

/-! ## Documents that differ in comments -/

/-- `l` is `l'` with any comments at some of the places of those of `l'`, and with what is the `same`
    elsewhere. -/
inductive Fewer {α : Type} (isComment : α → Prop) (same : α → α → Prop) : List α → List α → Prop
  | nil : Fewer isComment same [] []
  | other {x y : α} {l l' : List α} (h : same x y) (hl : Fewer isComment same l l') :
    Fewer isComment same (x :: l) (y :: l')
  | comment {c c' : α} {l l' : List α} (h : isComment c) (h' : isComment c')
    (hl : Fewer isComment same l l') : Fewer isComment same (c :: l) (c' :: l')
  | left {c' : α} {l l' : List α} (h' : isComment c') (hl : Fewer isComment same l l') :
    Fewer isComment same l (c' :: l')

theorem Fewer.refl {α : Type} {isComment : α → Prop} {same : α → α → Prop} (h : ∀ x, same x x)
    (l : List α) : Fewer isComment same l l := by
  induction l with
  | nil => exact .nil
  | cons x l ih => exact .other (h x) ih

def Gap.Within (g g' : Gap) : Prop := Fewer (fun t => ¬ t.isBlankTriv) (· = ·) g g'

/-- Pieces of an array. -/
def InnerWithin {p : Char → Bool} (is is' : List (Inner p)) : Prop :=
  Fewer (fun i => i.isComment) (· = ·) is is'

def Lexeme.isComment : Lexeme → Bool
  | inner i => i.isComment
  | _ => false

inductive Lexeme.Within : Lexeme → Lexeme → Prop
  | refl (l : Lexeme) : Within l l
  | cells {is is' : List (Inner isCellChar)} (h : InnerWithin is is') : Within (cells is) (cells is')
  | bytes {is is' : List (Inner isInert)} (h : InnerWithin is is') : Within (bytes is) (bytes is')

def Value.Within (v v' : Value) : Prop := Fewer (fun l => l.isComment) Lexeme.Within v v'

structure Label.Within (l l' : Label) : Prop where
  name : l.name = l'.name
  before : l.before.Within l'.before
  after : l.after.Within l'.after

structure Directive.Within (d d' : Directive) : Prop where
  name : d.name = d'.name
  args : Value.Within d.args d'.args

structure Property.Within (p p' : Property) : Prop where
  name : p.name = p'.name
  gap : p.gap.Within p'.gap
  value : Option.Rel Value.Within p.value p'.value

inductive Body.Within : Body → Body → Prop
  | done {tail tail' : Gap} (ht : tail.Within tail') : Within (.done tail) (.done tail')
  | directive {lead lead' : Gap} {d d' : Directive} {rest rest' : Body} (hl : lead.Within lead')
    (hd : d.Within d') (hr : rest.Within rest') :
    Within (.directive lead d rest) (.directive lead' d' rest')
  | property {lead lead' : Gap} {label label' : Option Label} {p p' : Property} {rest rest' : Body}
    (hl : lead.Within lead') (hlabel : Option.Rel Label.Within label label') (hp : p.Within p')
    (hr : rest.Within rest') : Within (.property lead label p rest) (.property lead' label' p' rest')
  | node {lead lead' gap gap' close close' : Gap} {label label' : Option Label} (name : Name)
    {body body' rest rest' : Body} (hl : lead.Within lead') (hlabel : Option.Rel Label.Within label label')
    (hg : gap.Within gap') (hb : body.Within body') (hc : close.Within close')
    (hr : rest.Within rest') :
    Within (.node lead label name gap body close rest) (.node lead' label' name gap' body' close' rest')
  | reference {lead lead' gap gap' close close' : Gap} (target : Ident) {body body' rest rest' : Body}
    (hl : lead.Within lead') (hg : gap.Within gap') (hb : body.Within body') (hc : close.Within close')
    (hr : rest.Within rest') :
    Within (.reference lead target gap body close rest) (.reference lead' target gap' body' close' rest')
  | root {lead lead' gap gap' close close' : Gap} {body body' rest rest' : Body}
    (hl : lead.Within lead') (hg : gap.Within gap') (hb : body.Within body') (hc : close.Within close')
    (hr : rest.Within rest') :
    Within (.root lead gap body close rest) (.root lead' gap' body' close' rest')

@[refl] theorem Gap.Within.refl (g : Gap) : g.Within g := Fewer.refl (fun _ => rfl) g

@[refl] theorem Value.Within.refl (v : Value) : Value.Within v v := Fewer.refl Lexeme.Within.refl v

theorem Label.Within.refl (l : Label) : l.Within l := ⟨rfl, .refl _, .refl _⟩

theorem Property.Within.refl (p : Property) : p.Within p := by
  refine ⟨rfl, .refl _, ?_⟩
  cases p.value with
  | none => exact .none
  | some v => exact .some (.refl v)

theorem labelWithin_refl (label : Option Label) : Option.Rel Label.Within label label := by
  cases label with
  | none => exact .none
  | some l => exact .some (.refl l)

theorem Body.Within.refl (b : Body) : b.Within b := by
  induction b with
  | done tail => exact .done (.refl _)
  | directive lead d rest ih => exact .directive (.refl _) ⟨rfl, .refl _⟩ ih
  | property lead label p rest ih => exact .property (.refl _) (labelWithin_refl _) (.refl _) ih
  | node lead label name gap body close rest ih₁ ih₂ =>
    exact .node name (.refl _) (labelWithin_refl _) (.refl _) ih₁ (.refl _) ih₂
  | reference lead target gap body close rest ih₁ ih₂ =>
    exact .reference target (.refl _) (.refl _) ih₁ (.refl _) ih₂
  | root lead gap body close rest ih₁ ih₂ => exact .root (.refl _) (.refl _) ih₁ (.refl _) ih₂

/-- The white space of a gap. -/
def Gap.uncomment (g : Gap) : Gap := g.filter Triv.isBlankTriv

theorem Gap.uncomment_bare (g : Gap) : g.uncomment.bare := by
  rw [Gap.bare, List.all_eq_true]
  exact fun t ht => (List.mem_filter.1 ht).2

theorem Gap.uncomment_within (g : Gap) : g.uncomment.Within g := by
  induction g with
  | nil => exact .nil
  | cons t g ih =>
    cases t with
    | blank c h => exact .other rfl ih
    | comment c => exact .left (by simp [Triv.isBlankTriv]) ih

/-! ## What stays the same -/

section
variable {g g' : Gap} {v v' : Value} {b b' : Body}

theorem Gap.Within.spaced (h : g.Within g') (h' : g'.spaced) : g.spaced := by
  rcases g' with _ | ⟨t | c, g'⟩
  · cases h'
  · cases h with
    | other heq _ => exact heq ▸ rfl
    | comment _ hc _ => exact absurd rfl hc
    | left hc _ => exact absurd rfl hc
  · cases h'

theorem Gap.Within.setOff (h : g.Within g') (h' : g'.setOff) : g.setOff := by
  cases h with
  | nil => rfl
  | other heq hl => exact Gap.setOff_of_spaced (Gap.Within.spaced (.other heq hl) h')
  | comment hc hc' hl => exact Gap.setOff_of_spaced (Gap.Within.spaced (.comment hc hc' hl) h')
  | left hc hl => exact Gap.setOff_of_spaced (Gap.Within.spaced (.left hc hl) h')

theorem Gap.Within.bare (h : g.Within g') (h' : g'.bare) : g.bare := by
  rw [Gap.bare, List.all_eq_true] at h' ⊢
  induction h with
  | nil => exact h'
  | other heq _ ih =>
    rw [List.forall_mem_cons] at h' ⊢
    exact ⟨heq ▸ h'.1, ih h'.2⟩
  | comment _ hc _ _ => exact absurd (h' _ List.mem_cons_self) hc
  | left hc _ _ => exact absurd (h' _ List.mem_cons_self) hc

theorem Gap.Within.isEmpty (h : g.Within g') (h' : g'.isEmpty) : g.isEmpty := by
  cases h with
  | nil => rfl
  | other | comment | left => cases h'

theorem Lexeme.Within.setOff_iff {l l' : Lexeme} (h : l.Within l') :
    Value.setOff (l :: v) ↔ Value.setOff (l' :: v') := by
  cases h with
  | refl => rcases l with ((⟨c, hc⟩ | ⟨c, hc⟩) | c | gs) | s | is | is <;> exact Iff.rfl
  | cells | bytes => exact Iff.rfl

theorem Value.Within.setOff (h : v.Within v') (h' : v'.setOff) : v.setOff := by
  cases h with
  | nil => rfl
  | other hx _ => exact hx.setOff_iff.2 h'
  | @comment c c' _ _ _ hc _ | @left c' _ _ hc _ =>
    rcases c' with (g | c | gs) | s | is | is
    · cases hc
    · cases h'
    all_goals cases hc

theorem labelRead_mono {label label' : Option Label} (h : Option.Rel Label.Within label label')
    {first first' : Bool} (hfirst : first' → first) (h' : labelRead first' label') :
    labelRead first label := by
  cases h with
  | none => rfl
  | some h =>
    simp only [labelRead, Label.spaced, Bool.or_eq_true, Bool.and_eq_true] at h' ⊢
    refine h'.imp (fun h' => ⟨hfirst h'.1, h.before.bare h'.2⟩) fun h' => ?_
    exact ⟨h.before.setOff h'.1, h.after.spaced h'.2⟩

theorem Body.Within.spacedLead (h : b.Within b') (h' : b'.spacedLead) : b.spacedLead := by
  cases h with
  | done ht => exact ht.setOff h'
  | directive hl | property hl | node _ hl | reference _ hl | root hl => exact hl.spaced h'

theorem Body.Within.quiet (h : b.Within b') (h' : b'.quiet) : b.quiet := by
  induction h with
  | done => rfl
  | directive _ hd _ ih =>
    simp only [Body.quiet, Bool.and_eq_true] at h' ⊢
    exact ⟨hd.args.setOff h'.1, ih h'.2⟩
  | property _ _ _ _ ih => exact ih h'
  | node _ _ _ _ _ _ _ ih₁ ih₂ | reference _ _ _ _ _ _ ih₁ ih₂ =>
    simp only [Body.quiet, Bool.and_eq_true] at h' ⊢
    exact ⟨ih₁ h'.1, ih₂ h'.2⟩
  | root _ hg _ _ _ ih₁ ih₂ =>
    simp only [Body.quiet, Bool.and_eq_true] at h' ⊢
    exact ⟨⟨hg.setOff h'.1.1, ih₁ h'.1.2⟩, ih₂ h'.2⟩

theorem Body.Within.rootless (h : b.Within b') : b.rootless = b'.rootless := by
  induction h with
  | done => rfl
  | directive _ _ _ ih => exact ih
  | property _ _ _ _ ih => exact ih
  | node _ _ _ _ _ _ _ ih₁ ih₂ | reference _ _ _ _ _ _ ih₁ ih₂ => simp [Body.rootless, ih₁, ih₂]
  | root => rfl

theorem Body.Within.rootsOnTop (h : b.Within b') : b.rootsOnTop = b'.rootsOnTop := by
  induction h with
  | done => rfl
  | directive _ _ _ ih => exact ih
  | property _ _ _ _ ih => exact ih
  | node _ _ _ _ hb _ _ _ ih₂ | reference _ _ _ hb _ _ _ ih₂ =>
    simp [Body.rootsOnTop, hb.rootless, ih₂]
  | root _ _ hb _ _ _ ih₂ => simp [Body.rootsOnTop, hb.rootless, ih₂]

/-- The traversal does not depend on the comments. -/
theorem Body.Within.visits (h : b.Within b') (d : ℕ) :
    (b.visits d).map Visit.event = (b'.visits d).map Visit.event := by
  induction h generalizing d with
  | done => rfl
  | directive _ hd _ ih => simp [Body.visits, hd.name, ih]
  | property _ _ hp _ ih => simp [Body.visits, hp.name, ih]
  | node _ _ _ _ _ _ _ ih₁ ih₂ =>
    simp only [Body.visits]
    split_ifs <;> simp [ih₁, ih₂]
  | reference _ _ _ _ _ _ ih₁ ih₂ => simp [Body.visits, ih₁, ih₂]
  | root _ _ _ _ _ ih₁ ih₂ => simp [Body.visits, ih₁, ih₂]

end

/-! ## Where a comment changes nothing -/

/-- **The places where a comment changes nothing**: white space is between it and the name, the label
    or the slash in front of it; none is in front of the brace of a reference; if one is between the
    brace and the `;` of a block, white space follows on the `;`.  In a fixup subtree it may stand
    anywhere but right behind a slash.  A label at the start of the text may have any behind its
    colon. -/
def Body.safe : Bool → ℕ → Body → Bool
  | _, _, .done _ => true
  | _, d, .directive _ _ rest => rest.safe false d
  | first, d, .property lead label p rest =>
    labelRead (first && lead.isEmpty) label && p.gap.spaced && rest.safe false d
  | first, d, .node lead label name gap body close rest =>
    labelRead (first && lead.isEmpty) label && gap.setOff &&
      (if IsFixup d name.text then body.quiet else body.safe false (d + 1)) &&
      (close.bare || rest.spacedLead) && rest.safe false d
  | _, d, .reference _ _ gap body close rest =>
    gap.bare && body.safe false (d + 1) && (close.bare || rest.spacedLead) && rest.safe false d
  | _, d, .root _ gap body close rest =>
    gap.setOff && body.safe false d && (close.bare || rest.spacedLead) && rest.safe false d

section
variable {b b' : Body} {first : Bool} {d : ℕ}

theorem Body.Within.safe (h : b.Within b') (first' : Bool) (hfirst : first' → first) (h' : b'.safe first' d) :
    b.safe first d := by
  induction h generalizing first first' d with
  | done => rfl
  | directive _ _ _ ih => exact ih false id h'
  | property hl hlabel hp _ ih =>
    simp only [Body.safe, Bool.and_eq_true] at h' ⊢
    refine ⟨⟨labelRead_mono hlabel (fun h => ?_) h'.1.1, hp.gap.spaced h'.1.2⟩, ih false id h'.2⟩
    rw [Bool.and_eq_true] at h ⊢
    exact ⟨hfirst h.1, hl.isEmpty h.2⟩
  | node name hl hlabel hg hb hc hr ih₁ ih₂ =>
    simp only [Body.safe, Bool.and_eq_true, Bool.or_eq_true] at h' ⊢
    obtain ⟨⟨⟨⟨h₁, h₂⟩, h₃⟩, h₄⟩, h₅⟩ := h'
    refine ⟨⟨⟨⟨labelRead_mono hlabel (fun h => ?_) h₁, hg.setOff h₂⟩, ?_⟩, ?_⟩, ih₂ false id h₅⟩
    · rw [Bool.and_eq_true] at h ⊢
      exact ⟨hfirst h.1, hl.isEmpty h.2⟩
    · split_ifs at h₃ ⊢
      · exact hb.quiet h₃
      · exact ih₁ false id h₃
    · exact h₄.imp hc.bare hr.spacedLead
  | reference _ _ hg _ hc hr ih₁ ih₂ =>
    simp only [Body.safe, Bool.and_eq_true, Bool.or_eq_true] at h' ⊢
    obtain ⟨⟨⟨h₁, h₂⟩, h₃⟩, h₄⟩ := h'
    exact ⟨⟨⟨hg.bare h₁, ih₁ false id h₂⟩, h₃.imp hc.bare hr.spacedLead⟩, ih₂ false id h₄⟩
  | root _ hg _ hc hr ih₁ ih₂ =>
    simp only [Body.safe, Bool.and_eq_true, Bool.or_eq_true] at h' ⊢
    obtain ⟨⟨⟨h₁, h₂⟩, h₃⟩, h₄⟩ := h'
    exact ⟨⟨⟨hg.setOff h₁, ih₁ false id h₂⟩, h₃.imp hc.bare hr.spacedLead⟩, ih₂ false id h₄⟩

/-- With comments at these places only, the scanner finds what it has to, and all references. -/
theorem Body.sound_of_safe (h : b.safe first d) (hf : b.fits d) :
    b.Sound first d ∧ b.bareWhereRead d := by
  induction b generalizing first d with
  | done tail => exact ⟨trivial, rfl⟩
  | directive lead dir rest ih => exact ih h hf
  | property lead label p rest ih =>
    simp only [safe, Bool.and_eq_true] at h
    obtain ⟨hrest, hbare⟩ := ih h.2 hf
    exact ⟨⟨h.1.1, h.1.2, hrest⟩, hbare⟩
  | node lead label name gap body close rest ih₁ ih₂ =>
    simp only [safe, Bool.and_eq_true, Bool.or_eq_true] at h
    obtain ⟨⟨⟨⟨hl, hg⟩, hbody⟩, hc⟩, hrest⟩ := h
    obtain ⟨hf₁, hf₂⟩ := Body.fits_block hf
    obtain ⟨hrest, hbare⟩ := ih₂ hrest hf₂
    simp only [Sound, bareWhereRead]
    split_ifs at hbody ⊢ with hfix
    · exact ⟨⟨hl, hg, hc, hbody, hrest⟩, by simp [hfix, hbare]⟩
    · obtain ⟨hbody, hbare'⟩ := ih₁ hbody hf₁
      rw [(body_calls body false hf₁ hbare').1]
      exact ⟨⟨hl, hg, hc, hbody, hrest⟩, by simp [hbare, hbare']⟩
  | reference lead target gap body close rest ih₁ ih₂ =>
    simp only [safe, Bool.and_eq_true, Bool.or_eq_true] at h
    obtain ⟨⟨⟨hg, hbody⟩, hc⟩, hrest⟩ := h
    obtain ⟨hf₁, hf₂⟩ := Body.fits_block hf
    obtain ⟨hbody, hbare'⟩ := ih₁ hbody hf₁
    obtain ⟨hrest, hbare⟩ := ih₂ hrest hf₂
    simp only [Sound, bareWhereRead, if_pos hg, (body_calls body false hf₁ hbare').1]
    exact ⟨⟨Gap.setOff_of_bare hg, hc, hbody, hrest⟩, by simp [hg, hbare, hbare']⟩
  | root lead gap body close rest ih₁ ih₂ =>
    simp only [safe, Bool.and_eq_true, Bool.or_eq_true] at h
    obtain ⟨⟨⟨hg, hbody⟩, hc⟩, hrest⟩ := h
    obtain ⟨rfl, hf₁, hf₂⟩ := Body.fits_root hf
    obtain ⟨hbody, hbare'⟩ := ih₁ hbody hf₁
    obtain ⟨hrest, hbare⟩ := ih₂ hrest hf₂
    simp only [Sound, bareWhereRead, (body_calls body false hf₁ hbare').1]
    exact ⟨⟨hg, hc, hbody, hrest⟩, by simp [hbare, hbare']⟩

end

end PocketDarwin.PatchDtc
