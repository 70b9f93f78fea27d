/-
  Meaning preservation of the patch pass.

  The pass means to turn a plain document into the plain document of the patched
  tree (`PlainDocument.Preserved`).  Two things go wrong.  The label of a deleted
  declaration stays in the text, where it reads as the label of what follows;
  and the suffix of a truncated name has a `~`, which no name may hold.
  `meaning_preserved_iff` shows that these are all: the meaning is preserved
  exactly when no labelled declaration is deleted and no long name needs a
  suffix.

  One direction reads the residue as a body.  The other counts: a body has as
  many characters other than white space as its tree, and a label that is left
  behind is in the text and not in the tree.
-/
import PocketDarwin.PatchDtc.Residues

namespace PocketDarwin.PatchDtc

open Patcher

/-! ## Residues that are bodies -/

/-- All names of the tree are names of the grammar. -/
def Tree.spelled : Tree → Bool
  | nil => true
  | directive _ _ rest => rest.spelled
  | property _ name _ rest => PatchDtc.spelled name && rest.spelled
  | node _ name children rest => PatchDtc.spelled name && children.spelled && rest.spelled
  | reference _ children rest | root children rest => children.spelled && rest.spelled

namespace Residue

/-- A body of which everything is left. -/
@[simp] def ofBody : Body → Residue
  | .done tail => done tail
  | .directive lead d rest => directive lead d (ofBody rest)
  | .property lead label p rest => property lead label p.name.text p.gap p.value (ofBody rest)
  | .node lead label name gap body close rest =>
    node lead label name.text gap (ofBody body) close (ofBody rest)
  | .reference lead target gap body close rest =>
    reference lead target gap (ofBody body) close (ofBody rest)
  | .root lead gap body close rest => root lead gap (ofBody body) close (ofBody rest)

/-- No label is left behind. -/
def whole : Residue → Bool
  | done _ => true
  | orphan _ _ _ => false
  | directive _ _ rest | property _ _ _ _ _ rest => rest.whole
  | node _ _ _ _ body _ rest | reference _ _ _ body _ rest | root _ _ body _ rest =>
    body.whole && rest.whole

section
variable (b : Body)

theorem text_ofBody : (ofBody b).text = b.text := by
  induction b <;> simp_all [text, Body.text, Property.text]

theorem tree_ofBody : (ofBody b).tree = b.tree := by
  induction b <;> simp_all [tree, Body.tree]

theorem plain_ofBody : (ofBody b).plain = b.plain := by
  induction b <;> simp_all [plain, Body.plain]

theorem spacedLead_ofBody : (ofBody b).spacedLead = b.spacedLead := by
  cases b <;> rfl

theorem spaced_ofBody : (ofBody b).spaced = b.spaced := by
  induction b <;> simp_all [spaced, Body.spaced, spacedLead_ofBody]

theorem rootless_ofBody : (ofBody b).rootless = b.rootless := by
  induction b <;> simp_all [rootless, Body.rootless]

theorem rootsOnTop_ofBody : (ofBody b).rootsOnTop = b.rootsOnTop := by
  induction b <;> simp_all [rootsOnTop, Body.rootsOnTop, rootless_ofBody]

theorem whole_ofBody : (ofBody b).whole := by
  induction b <;> simp_all [whole]

end

/-- **A whole residue whose names are names of the grammar is a body.** -/
theorem exists_body (r : Residue) (h₁ : r.whole) (h₂ : r.tree.spelled) : ∃ b, ofBody b = r := by
  induction r with
  | done tail => exact ⟨.done tail, rfl⟩
  | orphan lead label rest ih => cases h₁
  | directive lead d rest ih =>
    obtain ⟨b, rfl⟩ := ih h₁ h₂
    exact ⟨.directive lead d b, rfl⟩
  | property lead label name gap value rest ih =>
    simp only [tree, Tree.spelled, Bool.and_eq_true] at h₂
    obtain ⟨b, rfl⟩ := ih h₁ h₂.2
    exact ⟨.property lead label ⟨.of name h₂.1, gap, value⟩ b, rfl⟩
  | node lead label name gap body close rest ih₁ ih₂ =>
    simp only [whole, tree, Tree.spelled, Bool.and_eq_true] at h₁ h₂
    obtain ⟨b, rfl⟩ := ih₁ h₁.1 h₂.1.2
    obtain ⟨b', rfl⟩ := ih₂ h₁.2 h₂.2
    exact ⟨.node lead label (.of name h₂.1.1) gap b close b', rfl⟩
  | reference lead target gap body close rest ih₁ ih₂ =>
    simp only [whole, tree, Tree.spelled, Bool.and_eq_true] at h₁ h₂
    obtain ⟨b, rfl⟩ := ih₁ h₁.1 h₂.1
    obtain ⟨b', rfl⟩ := ih₂ h₁.2 h₂.2
    exact ⟨.reference lead target gap b close b', rfl⟩
  | root lead gap body close rest ih₁ ih₂ =>
    simp only [whole, tree, Tree.spelled, Bool.and_eq_true] at h₁ h₂
    obtain ⟨b, rfl⟩ := ih₁ h₁.1 h₂.1
    obtain ⟨b', rfl⟩ := ih₂ h₁.2 h₂.2
    exact ⟨.root lead gap b close b', rfl⟩

end Residue

theorem Body.tree_spelled (b : Body) : b.tree.spelled := by
  induction b <;> simp_all [Body.tree, Tree.spelled, Name.spelled]

/-! ## Ink -/

/-- The number of characters other than white space. -/
def ink (w : Text) : ℕ := w.countP (!isBlank ·)

@[simp] theorem ink_append (u w : Text) : ink (u ++ w) = ink u + ink w := List.countP_append

theorem ink_cons (c : Char) (w : Text) : ink (c :: w) = ink [c] + ink w := ink_append [c] w

theorem Gap.ink_bare {g : Gap} (h : g.bare) : ink g.text = 0 := by
  refine List.countP_eq_zero.2 fun c hc => ?_
  obtain ⟨t, ht, hct⟩ := List.mem_flatMap.1 hc
  have hb := List.all_eq_true.1 h t ht
  cases t with
  | blank c' hc' =>
    obtain rfl : c = c' := by simpa [Triv.text] using hct
    simp [hc']
  | comment c' => cases hb

/-- The ink of a label. -/
def labelInk : Option Text → ℕ
  | none => 0
  | some name => ink name + 1

/-- The ink of the value of a property, with its `=` and `;`. -/
def valueInk : Option Text → ℕ
  | none => 1
  | some v => ink v + 2

namespace Tree

/-- The ink that it takes to write a tree. -/
def ink : Tree → ℕ
  | nil => 0
  | directive name args rest => PatchDtc.ink name + PatchDtc.ink args + 3 + rest.ink
  | property label name value rest =>
    labelInk label + PatchDtc.ink name + valueInk value + rest.ink
  | node label name children rest => labelInk label + PatchDtc.ink name + 3 + children.ink + rest.ink
  | reference target children rest => PatchDtc.ink target + 4 + children.ink + rest.ink
  | root children rest => 4 + children.ink + rest.ink

end Tree

theorem ink_labelText {label : Option Label} (h : labelPlain label) :
    ink (labelText label) = labelInk (labelName label) := by
  cases label with
  | none => rfl
  | some l =>
    simp only [labelPlain, Bool.and_eq_true] at h
    simp only [labelText, Label.text, labelName, Option.map_some, labelInk, ink_append,
      Gap.ink_bare h.1]
    rw [ink_cons, Gap.ink_bare h.2]
    rfl

theorem ink_valueText (value : Option Value) :
    ink (Property.valueText value) = valueInk (value.map Value.text) := by
  cases value with
  | none => rfl
  | some v =>
    rw [Property.valueText, ink_cons, ink_append, Option.map_some, valueInk]
    have h₁ : ink ['='] = 1 := by decide
    have h₂ : ink [';'] = 1 := by decide
    omega

theorem ink_blockEnd {close : Gap} (h : close.bare) : ink (Body.blockEnd close) = 2 := by
  rw [Body.blockEnd, ink_cons, ink_append, Gap.ink_bare h]
  rfl

namespace Residue

/-- The ink of the labels that are left behind. -/
def lost : Residue → ℕ
  | done _ => 0
  | orphan _ label rest => labelInk (some label.name.text) + rest.lost
  | directive _ _ rest | property _ _ _ _ _ rest => rest.lost
  | node _ _ _ _ body _ rest | reference _ _ _ body _ rest | root _ _ body _ rest =>
    body.lost + rest.lost

theorem whole_iff (r : Residue) : r.whole ↔ r.lost = 0 := by
  induction r <;> simp_all [whole, lost, labelInk]

/-- **The ink of a residue is that of its tree and of the labels left behind.** -/
theorem ink_text (r : Residue) (h : r.plain) : ink r.text = r.tree.ink + r.lost := by
  have hbrace : ∀ w : Text, ink ('{' :: w) = 1 + ink w := fun w => ink_cons _ w
  have hslash : ∀ w : Text, ink ('/' :: w) = 1 + ink w := fun w => ink_cons _ w
  have hand : ∀ w : Text, ink ('&' :: w) = 1 + ink w := fun w => ink_cons _ w
  induction r with
  | done tail => exact Gap.ink_bare h
  | orphan lead label rest ih =>
    simp only [plain, Bool.and_eq_true] at h
    have hl := ink_labelText h.1.2
    simp only [labelText, labelName, Option.map_some] at hl
    simp only [text, ink_append, Gap.ink_bare h.1.1, hl, ih h.2, tree, lost]
    omega
  | directive lead d rest ih =>
    simp only [plain, Bool.and_eq_true] at h
    have hsemi : ink [';'] = 1 := by decide
    simp only [text, Directive.text, ink_append, Gap.ink_bare h.1.1, hslash, hsemi, ih h.2, tree,
      Tree.ink, lost]
    omega
  | property lead label name gap value rest ih =>
    simp only [plain, Bool.and_eq_true] at h
    simp only [text, ink_append, Gap.ink_bare h.1.1.1.1, Gap.ink_bare h.1.1.2,
      ink_labelText h.1.1.1.2, ink_valueText, ih h.2, tree, Tree.ink, lost]
    omega
  | node lead label name gap body close rest ih₁ ih₂ =>
    simp only [plain, Bool.and_eq_true] at h
    simp only [text, ink_append, hbrace, Gap.ink_bare h.1.1.1.1.1, Gap.ink_bare h.1.1.1.2,
      ink_labelText h.1.1.1.1.2, ink_blockEnd h.1.2, ih₁ h.1.1.2, ih₂ h.2, tree, Tree.ink, lost]
    omega
  | reference lead target gap body close rest ih₁ ih₂ =>
    simp only [plain, Bool.and_eq_true] at h
    simp only [text, ink_append, hbrace, hand, Gap.ink_bare h.1.1.1.1, Gap.ink_bare h.1.1.1.2,
      ink_blockEnd h.1.2, ih₁ h.1.1.2, ih₂ h.2, tree, Tree.ink, lost]
    omega
  | root lead gap body close rest ih₁ ih₂ =>
    simp only [plain, Bool.and_eq_true] at h
    simp only [text, ink_append, hbrace, hslash, Gap.ink_bare h.1.1.1.1, Gap.ink_bare h.1.1.1.2,
      ink_blockEnd h.1.2, ih₁ h.1.1.2, ih₂ h.2, tree, Tree.ink, lost]
    omega

end Residue

/-- The ink of a body is that of its tree. -/
theorem Body.ink_text (b : Body) (h : b.plain) : ink b.text = b.tree.ink := by
  have hr := Residue.ink_text (.ofBody b) (by rw [Residue.plain_ofBody, h])
  rwa [Residue.text_ofBody, Residue.tree_ofBody, (Residue.whole_iff _).1 (Residue.whole_ofBody b)] at hr

/-! ## What the pass is for -/

namespace PlainDocument
variable (d : PlainDocument)

/-- **The meaning of the document is preserved**: the output is a plain document
    again, and its tree is the patched tree. -/
def Preserved : Prop :=
  ∃ d' : PlainDocument, patch {} d.text = d'.text ∧ d'.tree = (d.tree.patched none ∅).1

theorem residue_tree : d.residue.tree = (d.tree.patched none ∅).1 :=
  (PatchDtc.residue_tree d.body none ∅).1

/-- The meaning is preserved if the residue is a body. -/
theorem preserved_iff_residue : d.Preserved ↔ d.residue.whole ∧ d.residue.tree.spelled := by
  constructor
  · rintro ⟨d', htext, htree⟩
    rw [← residue_tree] at htree
    have hspelled : d.residue.tree.spelled := by
      rw [← htree]
      exact d'.body.tree_spelled
    refine ⟨?_, hspelled⟩
    -- the two texts are the same, and so is the ink in them
    rw [patch_plain, text, List.append_cancel_left_eq] at htext
    have hink := d.residue.ink_text (residue_plain d.body none ∅ d.plain)
    rw [htext, d'.body.ink_text d'.plain, ← htree] at hink
    rw [Residue.whole_iff]
    exact (Nat.left_eq_add.1 hink)
  · rintro ⟨hwhole, hspelled⟩
    obtain ⟨b, hb⟩ := d.residue.exists_body hwhole hspelled
    have h₁ : b.rootsOnTop := by
      rw [← Residue.rootsOnTop_ofBody, hb]
      exact residue_rootsOnTop d.body none ∅ d.rootsOnTop
    have h₂ : b.plain := by
      rw [← Residue.plain_ofBody, hb]
      exact residue_plain d.body none ∅ d.plain
    have h₃ : b.spaced := by
      rw [← Residue.spaced_ofBody, hb]
      exact residue_spaced d.body none ∅ d.spaced
    refine ⟨⟨b, h₁, h₂, h₃⟩, ?_, ?_⟩
    · rw [patch_plain, text, ← hb, Residue.text_ofBody]
    · rw [tree, ← Residue.tree_ofBody, hb, residue_tree]

end PlainDocument

/-! ## Deleted labels -/

/-- No labelled declaration is deleted: neither a fixup subtree outside of the
    nodes nor a phandle duplicate has a label. -/
def Body.keepsLabels : Option Frame → Body → Bool
  | _, .done _ => true
  | frame, .directive _ _ rest => rest.keepsLabels frame
  | frame, .property _ label p rest =>
    if duplicate frame p.name.text then
      label.isNone && rest.keepsLabels (frame.map (.drop p.name.text))
    else rest.keepsLabels (frame.map (.see p.name.text))
  | frame, .node _ label name _ body _ rest =>
    if frame.isNone && fixupNodeNames.contains name.text then
      label.isNone && rest.keepsLabels frame
    else body.keepsLabels (some {}) && rest.keepsLabels frame
  | frame, .reference _ _ _ body _ rest => body.keepsLabels (some {}) && rest.keepsLabels frame
  | frame, .root _ _ body _ rest => body.keepsLabels none && rest.keepsLabels frame

namespace Residue

@[simp] theorem whole_behind (g : Gap) (r : Residue) : (r.behind g).whole = r.whole := by
  cases r <;> rfl

@[simp] theorem whole_deleted (g : Gap) (label : Option Label) (r : Residue) :
    (deleted g label r).whole = (label.isNone && r.whole) := by
  cases label <;> simp [deleted, whole]

end Residue

theorem residue_whole (b : Body) (frame : Option Frame) (t : Table) :
    (b.residue frame t).1.whole = b.keepsLabels frame := by
  induction b generalizing frame t with
  | done tail => rfl
  | directive lead d rest ih =>
    simp only [Body.residue, Body.keepsLabels]
    split_ifs <;> simp [Residue.whole, ih frame t]
  | property lead label p rest ih =>
    simp only [Body.residue, Body.keepsLabels]
    split_ifs
    · simp [ih (frame.map (.drop p.name.text)) t]
    · simp [Residue.whole, ih (frame.map (.see p.name.text)) _]
  | node lead label name gap body close rest ih₁ ih₂ =>
    simp only [Body.residue, Body.keepsLabels]
    split_ifs
    · simp [ih₂ frame t]
    · simp [Residue.whole, ih₁ (some {}) _, ih₂ frame _]
  | reference lead target gap body close rest ih₁ ih₂ =>
    simp [Body.residue, Body.keepsLabels, Residue.whole, ih₁ (some {}) _, ih₂ frame _]
  | root lead gap body close rest ih₁ ih₂ =>
    simp [Body.residue, Body.keepsLabels, Residue.whole, ih₁ none _, ih₂ frame _]

/-! ## Names that need a suffix -/

/-- The key of a name, if it is long. -/
def longKey (kind : Kind) (name : Text) : NameCalls :=
  if 31 < (keyOf kind name).length then [(kind, keyOf kind name)] else []

/-- The long keys of a body, in the order of the text, without those in fixup
    subtrees; `top` says that the body stands outside of the nodes. -/
def Body.longKeys : Bool → Body → NameCalls
  | _, .done _ => []
  | top, .directive _ _ rest => rest.longKeys top
  | top, .property _ _ p rest => longKey .property p.name.text ++ rest.longKeys top
  | top, .node _ _ name _ body _ rest =>
    if top && fixupNodeNames.contains name.text then rest.longKeys top
    else longKey .node name.text ++ (body.longKeys false ++ rest.longKeys top)
  | top, .reference _ _ _ body _ rest => body.longKeys false ++ rest.longKeys top
  | top, .root _ _ body _ rest => body.longKeys true ++ rest.longKeys top

/-- The kind that a key was last used as, in calls whose last is at the head. -/
def lastKind (earlier : NameCalls) (key : Text) : Option Kind :=
  (earlier.find? (·.2 == key)).map (·.1)

/-- Another long key with the same first characters was last used as this
    kind. -/
def clashes (earlier : NameCalls) (kind : Kind) (key : Text) : Bool :=
  earlier.any fun c =>
    c.2 != key && c.2.take 28 == key.take 28 && lastKind earlier c.2 == some kind

/-- No key of a list clashes with the ones before it. -/
def apart : NameCalls → NameCalls → Bool
  | _, [] => true
  | earlier, (kind, key) :: later => !clashes earlier kind key && apart ((kind, key) :: earlier) later

theorem apart_append (earlier cs ds : NameCalls) :
    apart earlier (cs ++ ds) = (apart earlier cs && apart (cs.reverse ++ earlier) ds) := by
  induction cs generalizing earlier with
  | nil => rfl
  | cons c cs ih => simp [apart, ih, Bool.and_assoc]

/-- The table holds the long keys met so far, each with its first characters. -/
def TableSays (t : Table) (earlier : NameCalls) : Prop :=
  ∀ key, t.lookup key = (lastKind earlier key).map fun kind => (key.take 28, kind)

theorem TableSays.rivalled_eq {t : Table} {earlier : NameCalls} (h : TableSays t earlier) (kind : Kind)
    (key : Text) : rivalled t kind key = clashes earlier kind key := by
  rw [Bool.eq_iff_iff, rivalled, taken_iff]
  simp only [clashes, List.any_eq_true, Bool.and_eq_true, bne_iff_ne, beq_iff_eq]
  constructor
  · rintro ⟨y, hy, hl⟩
    rw [h, Option.map_eq_some_iff] at hl
    obtain ⟨k, hk, he⟩ := hl
    obtain ⟨h₁, rfl⟩ := Prod.mk.inj he
    have hmem := hk
    rw [lastKind, Option.map_eq_some_iff] at hmem
    obtain ⟨c, hc, -⟩ := hmem
    obtain rfl : c.2 = y := by simpa using List.find?_some hc
    exact ⟨c, List.mem_of_find?_eq_some hc, ⟨hy, h₁⟩, hk⟩
  · rintro ⟨c, -, ⟨hne, htake⟩, hk⟩
    exact ⟨c.2, hne, by rw [h, hk, Option.map_some, htake]⟩

theorem TableSays.insert {t : Table} {earlier : NameCalls} (h : TableSays t earlier) (kind : Kind)
    (key : Text) : TableSays (t.insert key (key.take 28, kind)) ((kind, key) :: earlier) := by
  intro y
  by_cases hy : y = key
  · subst hy
    simp [lastKind]
  · have hne : (key == y) = false := beq_eq_false_iff_ne.2 (Ne.symm hy)
    rw [AList.lookup_insert_ne hy, h y]
    simp [lastKind, hne]

/-- A run over names that starts with the keys `earlier` in the table: `ok` says
    whether the names it leaves are names of the grammar. -/
structure Spells (earlier : NameCalls) (ok : Bool) (t : Table) (keys : NameCalls) : Prop where
  ok : ok = apart earlier keys
  table : apart earlier keys → TableSays t (keys.reverse ++ earlier)

theorem Spells.append {earlier ks ks' : NameCalls} {ok ok' : Bool} {t t' : Table}
    (h : Spells earlier ok t ks)
    (h' : TableSays t (ks.reverse ++ earlier) → Spells (ks.reverse ++ earlier) ok' t' ks') :
    Spells earlier (ok && ok') t' (ks ++ ks') := by
  have hok := h.ok
  by_cases ha : apart earlier ks
  · obtain ⟨h₁, h₂⟩ := h' (h.table ha)
    refine ⟨by rw [apart_append, hok, h₁], fun hb => ?_⟩
    rw [apart_append, ha, Bool.true_and] at hb
    rw [List.reverse_append, List.append_assoc]
    exact h₂ hb
  · rw [Bool.not_eq_true] at ha
    refine ⟨by rw [apart_append, hok, ha, Bool.false_and, Bool.false_and], fun hb => ?_⟩
    rw [apart_append, ha, Bool.false_and] at hb
    cases hb

/-- A name and its truncation. -/
theorem truncated_spells {name : Text} (hname : spelled name) {t : Table} {earlier : NameCalls}
    (h : TableSays t earlier) (kind : Kind) :
    Spells earlier (spelled (truncated t name kind).1) (truncated t name kind).2 (longKey kind name) := by
  have hne : name ≠ [] := (Name.of name hname).nonempty
  have hchars := (Name.of name hname).chars
  have hsplit := keyOf_append_tailOf kind name
  rcases Nat.lt_or_ge 31 (keyOf kind name).length with hlong | hshort
  · obtain ⟨c, he, hc⟩ := truncated_long t hlong
    have hkey : longKey kind name = [(kind, keyOf kind name)] := if_pos hlong
    rw [he, hkey]
    rw [h.rivalled_eq] at hc
    have hapart : apart earlier [(kind, keyOf kind name)] = !clashes earlier kind (keyOf kind name) := by
      simp [apart]
    refine ⟨?_, ?_⟩
    · rw [hapart]
      split_ifs at hc with hclash
      · obtain ⟨stem, suf, rfl, -⟩ := hc
        simp [hclash, spelled, show isDeclChar '~' = false by decide]
      · have htrunc := truncated_ne_nil t hne kind
        rw [he] at htrunc
        simp only [Bool.not_eq_true] at hclash
        rw [hclash, Bool.not_false, spelled_iff]
        refine ⟨htrunc, fun x hx => hchars x ?_⟩
        show x ∈ name
        rw [← hsplit]
        rw [hc] at hx
        rcases List.mem_append.1 hx with hx | hx
        · exact List.mem_append_left _ (List.mem_of_mem_take hx)
        · exact List.mem_append_right _ hx
    · intro ha
      rw [hapart, Bool.not_eq_true'] at ha
      rw [if_neg (by simp [ha])] at hc
      rw [hc]
      exact h.insert kind (keyOf kind name)
  · have hkey : longKey kind name = [] := if_neg (by omega)
    rw [truncated_short t hshort, hkey]
    exact ⟨hname, fun _ => h⟩

theorem longKey_duplicate {frame : Option Frame} {name : Text} (h : duplicate frame name) :
    longKey .property name = [] := by
  have hname : name = phandle ∨ name = linuxPhandle := by
    cases frame with
    | none => cases h
    | some f =>
      simp only [duplicate, Bool.or_eq_true, Bool.and_eq_true, beq_iff_eq] at h
      rcases h with h | h
      · exact .inl h.1.1
      · exact .inr h.1.1
  rcases hname with rfl | rfl <;> decide

/-- **The names of the residue are names of the grammar** as long as no key
    clashes. -/
theorem residue_spells (b : Body) (frame : Option Frame) {t : Table} {earlier : NameCalls}
    (h : TableSays t earlier) :
    Spells earlier (b.residue frame t).1.tree.spelled (b.residue frame t).2 (b.longKeys frame.isNone) := by
  induction b generalizing frame t earlier with
  | done tail => exact ⟨rfl, fun _ => h⟩
  | directive lead d rest ih =>
    simp only [Body.residue, Body.longKeys]
    split_ifs
    · simpa using ih frame h
    · simpa [Residue.tree, Tree.spelled] using ih frame h
  | property lead label p rest ih =>
    simp only [Body.residue, Body.longKeys]
    split_ifs with hdup
    · rw [longKey_duplicate hdup, ← Option.isNone_map (f := Frame.drop p.name.text)]
      simp only [Residue.tree_deleted, List.nil_append]
      exact ih _ h
    · rw [← Option.isNone_map (f := Frame.see p.name.text)]
      exact (truncated_spells p.name.spelled h .property).append fun h' => ih _ h'
  | node lead label name gap body close rest ih₁ ih₂ =>
    simp only [Body.residue, Body.longKeys]
    split_ifs
    · simpa using ih₂ frame h
    · rw [Residue.tree, Tree.spelled, Bool.and_assoc]
      exact (truncated_spells name.spelled h .node).append fun h' =>
        (ih₁ (some {}) h').append fun h'' => ih₂ frame h''
  | reference lead target gap body close rest ih₁ ih₂ =>
    exact (ih₁ (some {}) h).append fun h' => ih₂ frame h'
  | root lead gap body close rest ih₁ ih₂ =>
    exact (ih₁ none h).append fun h' => ih₂ frame h'

/-- **The pass preserves the meaning of a plain document** if and only if no
    labelled declaration is deleted and no long name clashes with an earlier
    one. -/
theorem meaning_preserved_iff (d : PlainDocument) :
    d.Preserved ↔ d.body.keepsLabels none ∧ apart [] (d.body.longKeys true) := by
  have hempty : TableSays ∅ [] := fun key => AList.lookup_empty key
  have hspells := (residue_spells d.body none hempty).ok
  rw [d.preserved_iff_residue, PlainDocument.residue, residue_whole, hspells]
  rfl

section
open Gap (space)

/-- `phandle ; l: linux,phandle ;`, and then `rest`. -/
def twins (rest : Body) : Body :=
  .property space none ⟨.of phandle (by decide), space, none⟩
    (.property space (some labelL) ⟨.of linuxPhandle (by decide), space, none⟩ rest)

/-- The name of 31 times `a` and then `c`. -/
def longName (c : Char) (h : isDeclChar c) : Name where
  text := List.replicate 31 'a' ++ [c]
  nonempty := by simp
  chars := by
    intro x hx
    rcases List.mem_append.1 hx with hx | hx
    · rw [List.eq_of_mem_replicate hx]
      decide
    · rw [List.mem_singleton.1 hx]
      exact h

/-- `aa…ab ; aa…ac ;`, and then `rest`. -/
def clashing (rest : Body) : Body :=
  .property space none ⟨longName 'b' (by decide), space, none⟩
    (.property space none ⟨longName 'c' (by decide), space, none⟩ rest)

/-- `/dts-v1/; n { phandle ; l: linux,phandle ; };` -/
def labelledDuplicate : PlainDocument where
  body := .node space none nameN space (twins (.done space)) [] (.done [])
  rootsOnTop := by decide
  plain := by decide
  spaced := by decide

/-- `/dts-v1/; aa…ab ; aa…ac ;` -/
def clashingNames : PlainDocument where
  body := clashing (.done [])
  rootsOnTop := by decide
  plain := by decide
  spaced := by decide

/-- The label `l` is left behind, and a truncated name has a `~`. -/
theorem meaning_not_preserved :
    patch {} labelledDuplicate.text = "/dts-v1/; n \x7b phandle ; l:  \x7d;".toList ∧
      ¬ labelledDuplicate.Preserved ∧
      patch {} clashingNames.text =
        "/dts-v1/; aaaaaaaaaaaaaaaaaaaaaaaaaaaa ; aaaaaaaaaaaaaaaaaaaaaaaaaaaa~1 ;".toList ∧
      ¬ clashingNames.Preserved := by
  refine ⟨by decide +kernel, ?_, by decide +kernel, ?_⟩
  · rw [PlainDocument.preserved_iff_residue]
    rintro ⟨hwhole, -⟩
    exact absurd hwhole (by decide +kernel)
  · rw [PlainDocument.preserved_iff_residue]
    rintro ⟨-, hspelled⟩
    exact absurd hspelled (by decide +kernel)

end

end PocketDarwin.PatchDtc
