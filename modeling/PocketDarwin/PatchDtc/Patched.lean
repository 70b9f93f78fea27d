/-
  What the patcher leaves of a plain document.

  A plain document is `/dts-v1/;` and a body without comments.  The patcher
  meets its declarations in the order of the text, with the table of truncated
  names and, inside of a node, the properties seen and dropped there (`Frame`).
  `Body.residue` is what is left: it has the shape of a body, but its names may
  hold a `~`, and where a labelled declaration was deleted the label is left
  behind (`Residue.orphan`).  `patch_plain` shows that this is the output.

  `Tree` is a document without its layout, and `Tree.patched` is the tree that
  the pass is for: without the stripped directives, the fixup subtrees at the
  top and the dropped phandle duplicates, and with truncated names.
-/
import PocketDarwin.PatchDtc.Exact
import PocketDarwin.PatchDtc.Frames
import PocketDarwin.PatchDtc.Rename

namespace PocketDarwin.PatchDtc

open Patcher

/-! ## Plain documents -/

namespace Lexeme

/-- No comment. -/
def plain : Lexeme → Bool
  | inner i => !i.isComment
  | string _ => true
  | cells is => is.all (!·.isComment)
  | bytes is => is.all (!·.isComment)

end Lexeme

def Value.plain (v : Value) : Bool := v.all Lexeme.plain

def labelPlain : Option Label → Bool
  | none => true
  | some l => l.before.bare && l.after.bare

def valuePlain : Option Value → Bool
  | none => true
  | some v => v.plain

/-- White space, and no comment, between the tokens. -/
def Body.plain : Body → Bool
  | .done tail => tail.bare
  | .directive lead d rest => lead.bare && d.args.plain && rest.plain
  | .property lead label p rest =>
    lead.bare && labelPlain label && p.gap.bare && valuePlain p.value && rest.plain
  | .node lead label _ gap body close rest =>
    lead.bare && labelPlain label && gap.bare && body.plain && close.bare && rest.plain
  | .reference lead _ gap body close rest | .root lead gap body close rest =>
    lead.bare && gap.bare && body.plain && close.bare && rest.plain

/-- `/dts-v1/;` followed by declarations, with white space between tokens. -/
structure PlainDocument where
  body : Body
  rootsOnTop : body.rootsOnTop
  plain : body.plain
  spaced : body.spaced

namespace PlainDocument

def text (d : PlainDocument) : Text := Directive.dtsV1.text ++ d.body.text

/-- A plain document as a document. -/
def document (d : PlainDocument) : Document := ⟨.directive [] .dtsV1 d.body, d.rootsOnTop⟩

theorem document_text (d : PlainDocument) : d.document.text = d.text := rfl

end PlainDocument

/-! ## Trees -/

/-- A document without its layout, in the first-child, next-sibling form. -/
inductive Tree where
  | nil
  | directive (name args : Text) (rest : Tree)
  | property (label : Option Text) (name : Text) (value : Option Text) (rest : Tree)
  | node (label : Option Text) (name : Text) (children rest : Tree)
  | reference (target : Text) (children rest : Tree)
  | root (children rest : Tree)
deriving DecidableEq

/-- The name of a label. -/
def labelName (label : Option Label) : Option Text := label.map (·.name.text)

def Body.tree : Body → Tree
  | .done _ => .nil
  | .directive _ d rest => .directive d.name d.args.text rest.tree
  | .property _ label p rest =>
    .property (labelName label) p.name.text (p.value.map Value.text) rest.tree
  | .node _ label name _ body _ rest => .node (labelName label) name.text body.tree rest.tree
  | .reference _ target _ body _ rest => .reference target.text body.tree rest.tree
  | .root _ _ body _ rest => .root body.tree rest.tree

/-- The names that have been truncated, with their truncation and kind. -/
abbrev Table := AList (fun _ : Text => Text × Kind)

/-- The truncation of a name, and the table after it. -/
def truncated (t : Table) (name : Text) (kind : Kind) : Text × Table :=
  let r := truncateName {} name kind { truncateSeen := t }
  (r.1, r.2.truncateSeen)

/-- The properties of a node that have been met, and those of them that have
    been dropped. -/
structure Frame where
  seen : List Text := []
  dropped : List Text := []

namespace Frame

def see (name : Text) (f : Frame) : Frame := { f with seen := f.seen.insert name }

def drop (name : Text) (f : Frame) : Frame :=
  { seen := f.seen.insert name, dropped := f.dropped.insert name }

end Frame

/-- A property is a duplicate: its twin has been met on the node, and it has not
    been dropped there before.  Outside of a node nothing is a duplicate. -/
def duplicate (frame : Option Frame) (name : Text) : Bool :=
  match frame with
  | none => false
  | some f =>
    (name == phandle && f.seen.contains linuxPhandle && !f.dropped.contains phandle) ||
      (name == linuxPhandle && f.seen.contains phandle && !f.dropped.contains linuxPhandle)

/-- The tree that the pass is for. -/
def Tree.patched : Option Frame → Table → Tree → Tree × Table
  | _, t, .nil => (.nil, t)
  | frame, t, .directive name args rest =>
    let r := rest.patched frame t
    if strippedDirectives.contains name then r else (.directive name args r.1, r.2)
  | frame, t, .property label name value rest =>
    if duplicate frame name then rest.patched (frame.map (.drop name)) t
    else
      let n := truncated t name .property
      let r := rest.patched (frame.map (.see name)) n.2
      (.property label n.1 value r.1, r.2)
  | frame, t, .node label name children rest =>
    if frame.isNone && fixupNodeNames.contains name then rest.patched frame t
    else
      let n := truncated t name .node
      let c := children.patched (some {}) n.2
      let r := rest.patched frame c.2
      (.node label n.1 c.1 r.1, r.2)
  | frame, t, .reference target children rest =>
    let c := children.patched (some {}) t
    let r := rest.patched frame c.2
    (.reference target c.1 r.1, r.2)
  | frame, t, .root children rest =>
    let c := children.patched none t
    let r := rest.patched frame c.2
    (.root c.1 r.1, r.2)

/-! ## Residues -/

/-- What is left of a body. -/
inductive Residue where
  | done (tail : Gap)
  /-- the label of a declaration that was deleted -/
  | orphan (lead : Gap) (label : Label) (rest : Residue)
  | directive (lead : Gap) (d : Directive) (rest : Residue)
  | property (lead : Gap) (label : Option Label) (name : Text) (gap : Gap) (value : Option Value)
      (rest : Residue)
  | node (lead : Gap) (label : Option Label) (name : Text) (gap : Gap) (body : Residue) (close : Gap)
      (rest : Residue)
  | reference (lead : Gap) (target : Ident) (gap : Gap) (body : Residue) (close : Gap) (rest : Residue)
  | root (lead : Gap) (gap : Gap) (body : Residue) (close : Gap) (rest : Residue)

namespace Residue

def text : Residue → Text
  | done tail => tail.text
  | orphan lead label rest => lead.text ++ label.text ++ rest.text
  | directive lead d rest => lead.text ++ d.text ++ rest.text
  | property lead label name gap value rest =>
    lead.text ++ labelText label ++ (name ++ gap.text ++ Property.valueText value) ++ rest.text
  | node lead label name gap body close rest =>
    lead.text ++ labelText label ++ (name ++ gap.text) ++ '{' :: (body.text ++ Body.blockEnd close) ++
      rest.text
  | reference lead target gap body close rest =>
    lead.text ++ ('&' :: (target.text ++ gap.text)) ++ '{' :: (body.text ++ Body.blockEnd close) ++
      rest.text
  | root lead gap body close rest =>
    lead.text ++ ('/' :: gap.text) ++ '{' :: (body.text ++ Body.blockEnd close) ++ rest.text

def tree : Residue → Tree
  | done _ => .nil
  | orphan _ _ rest => rest.tree
  | directive _ d rest => .directive d.name d.args.text rest.tree
  | property _ label name _ value rest =>
    .property (labelName label) name (value.map Value.text) rest.tree
  | node _ label name _ body _ rest => .node (labelName label) name body.tree rest.tree
  | reference _ target _ body _ rest => .reference target.text body.tree rest.tree
  | root _ _ body _ rest => .root body.tree rest.tree

/-- The residue with one more gap in front. -/
def behind (g : Gap) : Residue → Residue
  | done tail => done (g ++ tail)
  | orphan lead label rest => orphan (g ++ lead) label rest
  | directive lead d rest => directive (g ++ lead) d rest
  | property lead label name gap value rest => property (g ++ lead) label name gap value rest
  | node lead label name gap body close rest => node (g ++ lead) label name gap body close rest
  | reference lead target gap body close rest => reference (g ++ lead) target gap body close rest
  | root lead gap body close rest => root (g ++ lead) gap body close rest

/-- What is left of a declaration that is deleted. -/
def deleted (lead : Gap) (label : Option Label) (rest : Residue) : Residue :=
  match label with
  | none => rest.behind lead
  | some l => orphan lead l rest

@[simp] theorem text_behind (g : Gap) (r : Residue) : (r.behind g).text = g.text ++ r.text := by
  cases r <;> simp [behind, text, Gap.text]

@[simp] theorem tree_behind (g : Gap) (r : Residue) : (r.behind g).tree = r.tree := by
  cases r <;> rfl

@[simp] theorem text_deleted (lead : Gap) (label : Option Label) (r : Residue) :
    (deleted lead label r).text = lead.text ++ labelText label ++ r.text := by
  cases label <;> simp [deleted, text, labelText]

@[simp] theorem tree_deleted (lead : Gap) (label : Option Label) (r : Residue) :
    (deleted lead label r).tree = r.tree := by
  cases label <;> simp [deleted, tree]

end Residue

/-- What the patcher leaves of a body. -/
def Body.residue : Option Frame → Table → Body → Residue × Table
  | _, t, .done tail => (.done tail, t)
  | frame, t, .directive lead d rest =>
    let r := rest.residue frame t
    if strippedDirectives.contains d.name then (r.1.behind lead, r.2) else (.directive lead d r.1, r.2)
  | frame, t, .property lead label p rest =>
    if duplicate frame p.name.text then
      let r := rest.residue (frame.map (.drop p.name.text)) t
      (.deleted lead label r.1, r.2)
    else
      let n := truncated t p.name.text .property
      let r := rest.residue (frame.map (.see p.name.text)) n.2
      (.property lead label n.1 p.gap p.value r.1, r.2)
  | frame, t, .node lead label name gap body close rest =>
    if frame.isNone && fixupNodeNames.contains name.text then
      let r := rest.residue frame t
      (.deleted lead label r.1, r.2)
    else
      let n := truncated t name.text .node
      let c := body.residue (some {}) n.2
      let r := rest.residue frame c.2
      (.node lead label n.1 gap c.1 close r.1, r.2)
  | frame, t, .reference lead target gap body close rest =>
    let c := body.residue (some {}) t
    let r := rest.residue frame c.2
    (.reference lead target gap c.1 close r.1, r.2)
  | frame, t, .root lead gap body close rest =>
    let c := body.residue none t
    let r := rest.residue frame c.2
    (.root lead gap c.1 close r.1, r.2)

/-- **The tree of the residue is the patched tree.** -/
theorem residue_tree (b : Body) (frame : Option Frame) (t : Table) :
    (b.residue frame t).1.tree = (b.tree.patched frame t).1 ∧
      (b.residue frame t).2 = (b.tree.patched frame t).2 := by
  induction b generalizing frame t with
  | done tail => exact ⟨rfl, rfl⟩
  | directive lead d rest ih =>
    obtain ⟨h₁, h₂⟩ := ih frame t
    simp only [Body.residue, Body.tree, Tree.patched]
    split_ifs <;> simp [Residue.tree, h₁, h₂]
  | property lead label p rest ih =>
    simp only [Body.residue, Body.tree, Tree.patched]
    split_ifs
    · simpa using ih _ t
    · simpa [Residue.tree] using ih _ _
  | node lead label name gap body close rest ih₁ ih₂ =>
    simp only [Body.residue, Body.tree, Tree.patched]
    split_ifs
    · simpa using ih₂ _ t
    · obtain ⟨h₁, h₂⟩ := ih₁ (some {}) (truncated t name.text .node).2
      obtain ⟨h₃, h₄⟩ := ih₂ frame (body.residue (some {}) (truncated t name.text .node).2).2
      simp [Residue.tree, h₁, h₃, h₄, ← h₂]
  | reference lead target gap body close rest ih₁ ih₂ =>
    obtain ⟨h₁, h₂⟩ := ih₁ (some {}) t
    obtain ⟨h₃, h₄⟩ := ih₂ frame (body.residue (some {}) t).2
    simp [Body.residue, Body.tree, Tree.patched, Residue.tree, h₁, h₃, h₄, ← h₂]
  | root lead gap body close rest ih₁ ih₂ =>
    obtain ⟨h₁, h₂⟩ := ih₁ none t
    obtain ⟨h₃, h₄⟩ := ih₂ frame (body.residue none t).2
    simp [Body.residue, Body.tree, Tree.patched, Residue.tree, h₁, h₃, h₄, ← h₂]

/-! ## Truncated names -/

/-- A key with a suffix: some of its first characters, `~`, and up to four
    hexadecimal digits. -/
def Suffixed (key c : Text) : Prop :=
  ∃ stem suf, c = stem ++ '~' :: suf ∧ stem ≠ [] ∧ stem <+: key ∧ suf ≠ [] ∧ suf.length ≤ 4 ∧
    ∀ x ∈ suf, Md5.isHex x

theorem decimal_facts : ∀ j < 100, (toString j).toList ≠ [] ∧ (toString j).toList.length ≤ 4 ∧
    (toString j).toList.all Md5.isHex := by
  decide +kernel

section
variable {key : Text} (h : 31 < key.length)
include h

theorem numbered_suffixed {j : ℕ} (hj : j < 99) :
    Suffixed key (numbered {} (baseOf {} key) (j + 1)) := by
  obtain ⟨h₁, h₂, h₃⟩ := decimal_facts (j + 1) (by omega)
  refine ⟨key.take 28, (toString (j + 1)).toList, ?_, ?_, List.take_prefix 28 key, h₁, h₂,
    List.all_eq_true.1 h₃⟩
  · rw [numbered_default h hj, numberedKey, number, if_neg (by omega), suffixText]
  · intro he
    have := congrArg List.length he
    simp only [List.length_take, List.length_nil] at this
    omega

theorem hashed_suffixed : Suffixed key (hashed {} (baseOf {} key) key) := by
  refine ⟨key.take 26, (Md5.hexdigest key).take 4, ?_, ?_, List.take_prefix 26 key, ?_,
    by simp only [List.length_take]; omega, ?_⟩
  · rw [hashed, baseOf_default h, takeTo, if_pos (by decide)]
    have : (({} : Options).maxNameLen - 5).toNat = 26 := rfl
    rw [this, List.take_take]
    rfl
  · intro he
    have := congrArg List.length he
    simp only [List.length_take, List.length_nil] at this
    omega
  · have := Md5.hexdigest_ne_nil key
    cases hx : Md5.hexdigest key <;> simp_all
  · intro x hx
    exact Md5.isHex_of_mem_hexdigest (List.mem_of_mem_take hx)

/-- Behind the first candidate all candidates have a suffix. -/
theorem probe_suffixed (isTaken : Text → Bool) (fuel s : ℕ) {c : Text} (hc : Suffixed key c) :
    Suffixed key (probe {} isTaken (baseOf {} key) key fuel s c) := by
  induction fuel generalizing s c with
  | zero => exact hc
  | succ fuel ih =>
    rw [probe]
    split_ifs with h₁ h₂
    · exact hashed_suffixed h
    · exact ih (s + 1) (numbered_suffixed h (by omega))
    · exact hc

/-- The first characters of a key, or the key with a suffix if these are taken. -/
theorem truncateWithCollisions_shape (kind : Kind) (p : Patcher) :
    if p.taken kind key (key.take 28) then Suffixed key (truncateWithCollisions {} key kind p).1
    else (truncateWithCollisions {} key kind p).1 = key.take 28 := by
  simp only [truncateWithCollisions]
  rw [probe, baseOf_default h]
  split_ifs with h₁ h₂
  · omega
  · rw [← baseOf_default h]
    exact probe_suffixed h _ _ _ (numbered_suffixed h (by omega))
  · rfl

end

/-- The first characters of a long key belong to another name of the kind. -/
def rivalled (t : Table) (kind : Kind) (key : Text) : Bool :=
  ({ truncateSeen := t } : Patcher).taken kind key (key.take 28)

theorem truncated_short (t : Table) {name : Text} {kind : Kind} (h : (keyOf kind name).length ≤ 31) :
    truncated t name kind = (name, t) := by
  simp only [truncated, truncateName_eq]
  rw [truncateKey_short _ (length_le_default.2 h)]
  simp [keyOf_append_tailOf]

theorem truncated_long (t : Table) {name : Text} {kind : Kind} (h : 31 < (keyOf kind name).length) :
    ∃ c, truncated t name kind = (c ++ tailOf kind name, t.insert (keyOf kind name) (c, kind)) ∧
      if rivalled t kind (keyOf kind name) then Suffixed (keyOf kind name) c
      else c = (keyOf kind name).take 28 := by
  refine ⟨(truncateWithCollisions {} (keyOf kind name) kind { truncateSeen := t }).1, ?_,
    truncateWithCollisions_shape h kind _⟩
  simp only [truncated, truncateName_eq]
  rw [truncateKey_long _ (fun hle => absurd (length_le_default.1 hle) (by omega))]
  rfl

theorem truncated_ne_nil (t : Table) {name : Text} (hne : name ≠ []) (kind : Kind) :
    (truncated t name kind).1 ≠ [] := by
  rcases Nat.lt_or_ge 31 (keyOf kind name).length with h | h
  · obtain ⟨c, he, hc⟩ := truncated_long t h
    rw [he]
    have hcne : c ≠ [] := by
      split_ifs at hc
      · obtain ⟨stem, suf, rfl, -⟩ := hc
        simp
      · intro hx
        have := congrArg List.length (hc.symm.trans hx)
        simp only [List.length_take, List.length_nil] at this
        omega
    simp [hcne]
  · rw [truncated_short t h]
    exact hne

/-! ## The patcher on pieces -/

theorem truncateName_table (name : Text) (kind : Kind) (p : Patcher) :
    (truncateName {} name kind p).1 = (truncated p.truncateSeen name kind).1 ∧
      (truncateName {} name kind p).2.truncateSeen = (truncated p.truncateSeen name kind).2 := by
  simp only [truncated, truncateName_eq, truncateKey]
  split_ifs <;> exact ⟨rfl, rfl⟩

/-- The frame of the node that is being read. -/
def InFrame (p : Patcher) : Option Frame → Prop
  | none => p.nodePropStack = [] ∧ p.nodeDroppedStack = []
  | some f => p.nodePropStack.head? = some f.seen ∧ p.nodeDroppedStack.head? = some f.dropped

/-- The same frames below the top. -/
structure SameBelow (p p' : Patcher) : Prop where
  props : p'.nodePropStack.length = p.nodePropStack.length ∧ p'.nodePropStack.tail = p.nodePropStack.tail
  dropped : p'.nodeDroppedStack.length = p.nodeDroppedStack.length ∧
    p'.nodeDroppedStack.tail = p.nodeDroppedStack.tail

theorem SameBelow.refl (p : Patcher) : SameBelow p p := ⟨⟨rfl, rfl⟩, ⟨rfl, rfl⟩⟩

theorem SameBelow.trans {p q r : Patcher} (h₁ : SameBelow p q) (h₂ : SameBelow q r) : SameBelow p r :=
  ⟨⟨h₂.props.1.trans h₁.props.1, h₂.props.2.trans h₁.props.2⟩,
    ⟨h₂.dropped.1.trans h₁.dropped.1, h₂.dropped.2.trans h₁.dropped.2⟩⟩

theorem SameBelow.of_eq {p q : Patcher} (h₁ : q.nodePropStack = p.nodePropStack)
    (h₂ : q.nodeDroppedStack = p.nodeDroppedStack) : SameBelow p q :=
  ⟨⟨by rw [h₁], by rw [h₁]⟩, ⟨by rw [h₂], by rw [h₂]⟩⟩

theorem InFrame.of_eq {p q : Patcher} {frame : Option Frame} (h : InFrame p frame)
    (h₁ : q.nodePropStack = p.nodePropStack) (h₂ : q.nodeDroppedStack = p.nodeDroppedStack) :
    InFrame q frame := by
  cases frame with
  | none => exact ⟨h₁ ▸ h.1, h₂ ▸ h.2⟩
  | some f => exact ⟨h₁ ▸ h.1, h₂ ▸ h.2⟩

/-- A text that starts with a name, with the name replaced by its truncation. -/
theorem replaced_text {name tr w : Text} (hne : name ≠ []) :
    (if tr ≠ name then some (replaceFirst name tr (name ++ w)) else none).getD (name ++ w) = tr ++ w := by
  split_ifs with h
  · rw [replaceFirst_append hne]
    rfl
  · simp only [ne_eq, not_not] at h
    rw [h]
    rfl

section
variable {p : Patcher} {frame : Option Frame} (hin : InFrame p frame)
include hin

theorem track_frame (name : Text) :
    InFrame (track name p) (frame.map (.see name)) ∧ SameBelow p (track name p) ∧
      (track name p).truncateSeen = p.truncateSeen := by
  unfold track
  cases frame with
  | none =>
    obtain ⟨h₁, h₂⟩ := hin
    rw [h₁]
    exact ⟨⟨h₁, h₂⟩, .refl p, rfl⟩
  | some f =>
    obtain ⟨h₁, h₂⟩ := hin
    rcases hs : p.nodePropStack with _ | ⟨top, below⟩
    · rw [hs] at h₁
      cases h₁
    · obtain rfl : top = f.seen := by simpa [hs] using h₁
      exact ⟨⟨rfl, h₂⟩, ⟨⟨by simp [hs], by simp [hs]⟩, ⟨rfl, rfl⟩⟩, rfl⟩

theorem dropProperty_frame (name : Text) :
    InFrame (dropProperty name (track name p)) (frame.map (.drop name)) ∧
      SameBelow p (dropProperty name (track name p)) ∧
        (dropProperty name (track name p)).truncateSeen = p.truncateSeen := by
  obtain ⟨h₁, h₂, h₃⟩ := track_frame hin name
  cases frame with
  | none =>
    have h₄ : (dropProperty name (track name p)).nodeDroppedStack =
        (track name p).nodeDroppedStack := by
      simp [dropProperty, h₁.2]
    exact ⟨⟨h₁.1, h₄.trans h₁.2⟩, h₂.trans (.of_eq rfl h₄), h₃⟩
  | some f =>
    rcases hs : (track name p).nodeDroppedStack with _ | ⟨top, below⟩
    · have := h₁.2
      rw [hs] at this
      cases this
    · obtain rfl : top = f.dropped := by simpa [hs, Frame.see] using h₁.2
      refine ⟨⟨h₁.1, by simp [dropProperty, hs, Frame.drop]⟩, h₂.trans ⟨⟨rfl, rfl⟩, ?_⟩, h₃⟩
      simp [dropProperty, hs]

/-- Whether the patcher drops a property. -/
theorem drops_iff (name : Text) :
    (name == phandle && dropsTwin phandle linuxPhandle (track name p) ||
      name == linuxPhandle && dropsTwin linuxPhandle phandle (track name p)) = duplicate frame name := by
  have h := (track_frame hin name).1
  have hne : (linuxPhandle == phandle) = false := by decide
  have hne' : (phandle == linuxPhandle) = false := by decide
  cases frame with
  | none => simp [dropsTwin, h.1, duplicate]
  | some f =>
    obtain ⟨h₁, h₂⟩ := h
    rcases hs : (track name p).nodePropStack with _ | ⟨seen, below⟩
    · rw [hs] at h₁
      cases h₁
    rcases hd : (track name p).nodeDroppedStack with _ | ⟨dropped, below'⟩
    · rw [hd] at h₂
      cases h₂
    obtain rfl : seen = f.seen.insert name := by simpa [hs, Frame.see] using h₁
    obtain rfl : dropped = f.dropped := by simpa [hd, Frame.see] using h₂
    simp only [dropsTwin, hs, hd, duplicate]
    by_cases h₃ : name = phandle
    · subst h₃
      simp [hne', show linuxPhandle ≠ phandle by decide]
    · by_cases h₄ : name = linuxPhandle
      · subst h₄
        simp [hne, show phandle ≠ linuxPhandle by decide]
      · simp [beq_eq_false_iff_ne.2 h₃, beq_eq_false_iff_ne.2 h₄]

/-- **A property in its frame.** -/
theorem onProperty_frame {name w : Text} (hne : name ≠ []) :
    let r := onProperty {} name (name ++ w) p
    let n := truncated p.truncateSeen name .property
    if duplicate frame name then
      r.1 = some [] ∧ InFrame r.2 (frame.map (.drop name)) ∧ SameBelow p r.2 ∧
        r.2.truncateSeen = p.truncateSeen
    else
      r.1.getD (name ++ w) = n.1 ++ w ∧ InFrame r.2 (frame.map (.see name)) ∧ SameBelow p r.2 ∧
        r.2.truncateSeen = n.2 := by
  have hd := drops_iff hin name
  obtain ⟨ht₁, ht₂, ht₃⟩ := track_frame hin name
  have hx : ({} : Options).extraDropProps.contains name = false := rfl
  simp only [onProperty, hx, Bool.true_and, Bool.false_eq_true, if_false]
  rw [← hd]
  by_cases h₁ : name == phandle && dropsTwin phandle linuxPhandle (track name p)
  · obtain rfl : name = phandle := by
      simp only [Bool.and_eq_true, beq_iff_eq] at h₁
      exact h₁.1
    simp only [h₁, Bool.true_or, if_true]
    exact ⟨trivial, dropProperty_frame hin phandle⟩
  by_cases h₂ : name == linuxPhandle && dropsTwin linuxPhandle phandle (track name p)
  · obtain rfl : name = linuxPhandle := by
      simp only [Bool.and_eq_true, beq_iff_eq] at h₂
      exact h₂.1
    simp only [h₁, h₂, Bool.or_true, if_true, Bool.false_eq_true, if_false]
    exact ⟨trivial, dropProperty_frame hin linuxPhandle⟩
  · simp only [h₁, h₂, Bool.or_self, Bool.false_eq_true, if_false]
    have hn := truncateName_table name .property (track name p)
    rw [ht₃] at hn
    refine ⟨?_, ht₁.of_eq (by simp) (by simp), ht₂.trans (.of_eq (by simp) (by simp)), hn.2⟩
    rw [hn.1]
    exact replaced_text hne

end

/-! ## The patcher on a body -/

/-- The opening of a node. -/
theorem onNodeOpen_frame (p : Patcher) {name w : Text} (hne : name ≠ []) :
    let r := onNodeOpen {} name (name ++ w) p
    let n := truncated p.truncateSeen name .node
    orText (name ++ w) r.1 = n.1 ++ w ∧ r.2.truncateSeen = n.2 ∧
      r.2.nodePropStack = [] :: p.nodePropStack ∧ r.2.nodeDroppedStack = [] :: p.nodeDroppedStack := by
  have hn := truncateName_table name .node
    { p with nodePropStack := [] :: p.nodePropStack, nodeDroppedStack := [] :: p.nodeDroppedStack }
  refine ⟨?_, hn.2, (onNodeOpen_stacks {} name (name ++ w) p).1,
    (onNodeOpen_stacks {} name (name ++ w) p).2⟩
  have hne' : ∀ x : Text, (truncated p.truncateSeen name .node).1 ++ x ≠ [] := by
    intro x h
    exact truncated_ne_nil _ hne _ (List.append_eq_nil_iff.1 h).1
  simp only [onNodeOpen]
  rw [hn.1]
  split_ifs with h
  · rw [replaceFirst_append hne]
    cases hx : (truncated p.truncateSeen name .node).1 ++ w with
    | nil => exact absurd hx (hne' w)
    | cons c cs => rfl
  · simp only [ne_eq, not_not] at h
    simp only [orText]
    rw [h]

theorem onNodeExit_of_sameBelow {p q : Patcher} {a b : List Text} {as bs : List (List Text)}
    (h₁ : p.nodePropStack = a :: as) (h₂ : p.nodeDroppedStack = b :: bs) (h : SameBelow p q) :
    (onNodeExit q).nodePropStack = as ∧ (onNodeExit q).nodeDroppedStack = bs ∧
      (onNodeExit q).truncateSeen = q.truncateSeen := by
  have hp := h.props
  have hd := h.dropped
  rw [h₁] at hp
  rw [h₂] at hd
  rcases hq : q.nodePropStack with _ | ⟨x, xs⟩
  · rw [hq] at hp
    simp at hp
  · rw [hq] at hp
    simp only [onNodeExit, hq]
    exact ⟨hp.2, hd.2, trivial⟩

theorem labelled_later (label : Option Label) (own : Text) :
    labelled false label own = (labelText label, own) := by
  cases label <;> simp [labelled, labelText]

theorem plain_bareWhereRead (b : Body) (d : ℕ) (h : b.plain) : b.bareWhereRead d := by
  induction b generalizing d with
  | done tail => rfl
  | directive lead dir rest ih =>
    simp only [Body.plain, Bool.and_eq_true] at h
    exact ih d h.2
  | property lead label p rest ih =>
    simp only [Body.plain, Bool.and_eq_true] at h
    exact ih d h.2
  | node lead label name gap body close rest ih₁ ih₂ =>
    simp only [Body.plain, Bool.and_eq_true] at h
    simp [Body.bareWhereRead, ih₁ (d + 1) h.1.1.2, ih₂ d h.2]
  | reference lead target gap body close rest ih₁ ih₂ =>
    simp only [Body.plain, Bool.and_eq_true] at h
    simp [Body.bareWhereRead, h.1.1.1.2, ih₁ (d + 1) h.1.1.2, ih₂ d h.2]
  | root lead gap body close rest ih₁ ih₂ =>
    simp only [Body.plain, Bool.and_eq_true] at h
    simp [Body.bareWhereRead, ih₁ d h.1.1.2, ih₂ d h.2]

/-- A run of the patcher over pieces: the output, the table, and the frames. -/
structure Leaves (p : Patcher) (ps : List Piece) (out : Text) (t : Table) : Prop where
  out : (replay (callbacks {}) p ps).1 = out
  table : (replay (callbacks {}) p ps).2.truncateSeen = t
  below : SameBelow p (replay (callbacks {}) p ps).2

namespace Leaves
variable {p : Patcher} {ps qs : List Piece} {out out' : Text} {t t' : Table}

theorem cons {x : Piece} {w : Text} (hw : (x.emit (callbacks {}) p).1 = w)
    (hb : SameBelow p (x.emit (callbacks {}) p).2) (h : Leaves (x.emit (callbacks {}) p).2 ps out t) :
    Leaves p (x :: ps) (w ++ out) t :=
  ⟨by rw [replay_cons, hw, h.out], by rw [replay_cons, h.table], hb.trans h.below⟩

theorem raw (w : Text) (h : Leaves p ps out t) : Leaves p (.raw w :: ps) (w ++ out) t :=
  h.cons (x := .raw w) rfl (.refl p)

theorem onNodeExit_callbacks (opts : Options) : (callbacks opts).onNodeExit = onNodeExit := rfl

/-- A block: an opening that pushes a frame, the contents, the closing brace,
    which pops it, and what follows. -/
theorem block {x : Piece} {w : Text} (close : Gap) (hw : (x.emit (callbacks {}) p).1 = w)
    (h₁ : (x.emit (callbacks {}) p).2.nodePropStack = [] :: p.nodePropStack)
    (h₂ : (x.emit (callbacks {}) p).2.nodeDroppedStack = [] :: p.nodeDroppedStack)
    (h : Leaves (x.emit (callbacks {}) p).2 ps out t)
    (hrest : ∀ p' : Patcher, p'.nodePropStack = p.nodePropStack →
      p'.nodeDroppedStack = p.nodeDroppedStack → p'.truncateSeen = t → Leaves p' qs out' t') :
    Leaves p (x :: .raw ['{'] :: (ps ++ (closing close ++ qs)))
      (w ++ '{' :: (out ++ (Body.blockEnd close ++ out'))) t' := by
  generalize hq : (x.emit (callbacks {}) p).2 = q at h h₁ h₂
  obtain ⟨e₁, e₂, e₃⟩ := onNodeExit_of_sameBelow h₁ h₂ h.below
  have hr := hrest (onNodeExit (replay (callbacks {}) q ps).2) e₁ e₂ (e₃.trans h.table)
  have he : replay (callbacks {}) p (x :: .raw ['{'] :: (ps ++ (closing close ++ qs))) =
      (w ++ '{' :: (out ++ (Body.blockEnd close ++ out')),
        (replay (callbacks {}) (onNodeExit (replay (callbacks {}) q ps).2) qs).2) := by
    rw [replay_cons, hw, hq, replay_cons, replay_append]
    simp [h.out, ← hr.out, closing, Piece.emit, Body.blockEnd, onNodeExit_callbacks]
  refine ⟨by rw [he], by rw [he]; exact hr.table, ?_⟩
  rw [he]
  exact (SameBelow.of_eq e₁ e₂).trans hr.below

/-- A root block, whose closing brace finds no frame. -/
theorem rootBlock (w : Text) (close : Gap) (hp : InFrame p none) (h : Leaves p ps out t)
    (hrest : ∀ p' : Patcher, InFrame p' none → p'.truncateSeen = t → Leaves p' qs out' t') :
    Leaves p (.raw w :: .raw ['{'] :: (ps ++ (closing close ++ qs)))
      (w ++ '{' :: (out ++ (Body.blockEnd close ++ out'))) t' := by
  have h₁ : (replay (callbacks {}) p ps).2.nodePropStack = [] := by
    have := h.below.props.1
    rw [hp.1] at this
    exact List.length_eq_zero_iff.1 this
  have h₂ : (replay (callbacks {}) p ps).2.nodeDroppedStack = [] := by
    have := h.below.dropped.1
    rw [hp.2] at this
    exact List.length_eq_zero_iff.1 this
  have hexit : onNodeExit (replay (callbacks {}) p ps).2 = (replay (callbacks {}) p ps).2 := by
    simp [onNodeExit, h₁]
  have hr := hrest (replay (callbacks {}) p ps).2 ⟨h₁, h₂⟩ h.table
  have he : replay (callbacks {}) p (.raw w :: .raw ['{'] :: (ps ++ (closing close ++ qs))) =
      (w ++ '{' :: (out ++ (Body.blockEnd close ++ out')),
        (replay (callbacks {}) (replay (callbacks {}) p ps).2 qs).2) := by
    rw [replay_cons, replay_cons, replay_append]
    simp [h.out, ← hr.out, closing, Piece.emit, Body.blockEnd, onNodeExit_callbacks, hexit]
  refine ⟨by rw [he], by rw [he]; exact hr.table, ?_⟩
  rw [he]
  exact h.below.trans hr.below

/-- A directive, which is deleted if it is one of those that are stripped. -/
theorem directive (name text : Text) (top : Bool)
    (h : ∀ q : Patcher, q.nodePropStack = p.nodePropStack → q.nodeDroppedStack = p.nodeDroppedStack →
      q.truncateSeen = p.truncateSeen → Leaves q ps out t) :
    Leaves p (.directive name text top :: ps)
      ((if strippedDirectives.contains name then [] else text) ++ out) t := by
  obtain ⟨h₁, h₂⟩ := onDirective_stacks {} name text top p
  have htable : (onDirective {} name text top p).2.truncateSeen = p.truncateSeen := by
    unfold onDirective
    split_ifs <;> rfl
  have hw : (onDirective {} name text top p).1.getD text =
      if strippedDirectives.contains name then [] else text := by
    simp only [onDirective, Bool.true_and]
    split_ifs <;> rfl
  exact (h _ h₁ h₂ htable).cons hw (.of_eq h₁ h₂)

/-- A fixup subtree. -/
theorem fixup {name : Text} (hname : fixupNodeNames.contains name) (text : Text)
    (h : ∀ q : Patcher, q.nodePropStack = p.nodePropStack → q.nodeDroppedStack = p.nodeDroppedStack →
      q.truncateSeen = p.truncateSeen → Leaves q ps out t) :
    Leaves p (.fixup name text :: ps) out t := by
  obtain ⟨h₁, h₂⟩ := onFixupSubtree_stacks {} name text p
  have htable : (onFixupSubtree {} name text p).2.truncateSeen = p.truncateSeen := by
    unfold onFixupSubtree
    split_ifs <;> rfl
  have hw : (onFixupSubtree {} name text p).1.getD [] = [] := by
    simp only [onFixupSubtree, hname, Bool.and_self, if_true]
    rfl
  exact (h _ h₁ h₂ htable).cons (x := .fixup name text) hw (.of_eq h₁ h₂)

/-- A node: the opening pushes an empty frame, and its name is truncated. -/
theorem node {name w : Text} (close : Gap) (hne : name ≠ [])
    (h : ∀ q : Patcher, InFrame q (some {}) → q.truncateSeen = (truncated p.truncateSeen name .node).2 →
      Leaves q ps out t)
    (hrest : ∀ p' : Patcher, p'.nodePropStack = p.nodePropStack →
      p'.nodeDroppedStack = p.nodeDroppedStack → p'.truncateSeen = t → Leaves p' qs out' t') :
    Leaves p (.nodeOpen name (name ++ w) :: .raw ['{'] :: (ps ++ (closing close ++ qs)))
      ((truncated p.truncateSeen name .node).1 ++ w ++ '{' :: (out ++ (Body.blockEnd close ++ out'))) t' := by
  obtain ⟨h₁, h₂, h₃, h₄⟩ := onNodeOpen_frame p (w := w) hne
  have hframe : InFrame (onNodeOpen {} name (name ++ w) p).2 (some {}) := by
    constructor
    · rw [h₃]
      rfl
    · rw [h₄]
      rfl
  exact (h _ hframe h₂).block (x := .nodeOpen name (name ++ w)) close h₁ h₃ h₄ hrest

/-- The `&` of a reference is read as the name of a node and is not truncated. -/
theorem reference {w : Text} (close : Gap)
    (h : ∀ q : Patcher, InFrame q (some {}) → q.truncateSeen = p.truncateSeen → Leaves q ps out t)
    (hrest : ∀ p' : Patcher, p'.nodePropStack = p.nodePropStack →
      p'.nodeDroppedStack = p.nodeDroppedStack → p'.truncateSeen = t → Leaves p' qs out' t') :
    Leaves p (.nodeOpen ['&'] ('&' :: w) :: .raw ['{'] :: (ps ++ (closing close ++ qs)))
      ('&' :: w ++ '{' :: (out ++ (Body.blockEnd close ++ out'))) t' := by
  have hshort : truncated p.truncateSeen ['&'] .node = (['&'], p.truncateSeen) :=
    truncated_short _ (by decide)
  have hnode := node (p := p) (w := w) close (List.cons_ne_nil '&' []) (by rw [hshort]; exact h) hrest
  rw [hshort] at hnode
  exact hnode

end Leaves

/-- Where the patcher takes a node for a fixup subtree. -/
theorem fixup_iff {frame : Option Frame} {d : ℕ} (hd : frame = none ↔ d = 0) (name : Text) :
    (frame.isNone && fixupNodeNames.contains name) = true ↔ IsFixup d name := by
  rw [IsFixup, Bool.and_eq_true, Option.isNone_iff_eq_none, hd, List.contains_iff_mem]

theorem frame_map {frame : Option Frame} {d : ℕ} (hd : frame = none ↔ d = 0) (f : Frame → Frame) :
    frame.map f = none ↔ d = 0 := by
  rw [Option.map_eq_none_iff, hd]

/-- **The patcher leaves the residue of a body.** -/
theorem body_leaves (b : Body) (hplain : b.plain) {d : ℕ} (hf : b.fits d) {frame : Option Frame}
    (hd : frame = none ↔ d = 0) {p : Patcher} (hin : InFrame p frame) :
    Leaves p (b.pieces false d) (b.residue frame p.truncateSeen).1.text
      (b.residue frame p.truncateSeen).2 := by
  induction b generalizing d frame p with
  | done tail =>
    exact ⟨by simp [Body.pieces, Piece.emit, Body.residue, Residue.text], rfl, .refl p⟩
  | directive lead dir rest ih =>
    simp only [Body.plain, Bool.and_eq_true] at hplain
    have hdir := Leaves.directive (p := p) dir.name dir.text (d == 0)
      fun q h₁ h₂ h₃ => h₃ ▸ ih hplain.2 hf hd (hin.of_eq h₁ h₂)
    simp only [Body.pieces, Body.residue]
    by_cases hs : strippedDirectives.contains dir.name
    · simp only [if_pos hs, List.nil_append] at hdir
      simp only [if_pos hs, Residue.text_behind]
      exact hdir.raw lead.text
    · simp only [if_neg hs] at hdir
      simp only [if_neg hs, Residue.text, List.append_assoc]
      exact hdir.raw lead.text
  | property lead label pr rest ih =>
    simp only [Body.plain, Bool.and_eq_true] at hplain
    have hpr := onProperty_frame hin (w := pr.gap.text ++ Property.valueText pr.value) pr.name.nonempty
    rw [← List.append_assoc, show pr.name.text ++ pr.gap.text ++ Property.valueText pr.value = pr.text
      from rfl] at hpr
    simp only [Body.pieces, Body.residue, Bool.false_and, labelled_later]
    by_cases hdup : duplicate frame pr.name.text
    · simp only [if_pos hdup] at hpr
      obtain ⟨h₁, h₂, h₃, h₄⟩ := hpr
      have hrest := ih hplain.2 hf (frame_map hd (.drop pr.name.text)) h₂
      rw [h₄] at hrest
      have hw : ((onProperty {} pr.name.text pr.text p).1.getD pr.text) = [] := by rw [h₁]; rfl
      simp only [if_pos hdup, Residue.text_deleted, List.append_assoc]
      exact ((hrest.cons (x := .property pr.name.text pr.text) hw h₃).raw _).raw lead.text
    · simp only [if_neg hdup] at hpr
      obtain ⟨h₁, h₂, h₃, h₄⟩ := hpr
      have hrest := ih hplain.2 hf (frame_map hd (.see pr.name.text)) h₂
      rw [h₄] at hrest
      have hlast := (hrest.cons (x := .property pr.name.text pr.text) h₁ h₃).raw (labelText label)
      simp only [if_neg hdup, Residue.text, List.append_assoc] at hlast ⊢
      exact hlast.raw lead.text
  | node lead label name gap body close rest ih₁ ih₂ =>
    simp only [Body.plain, Bool.and_eq_true] at hplain
    obtain ⟨⟨⟨⟨⟨-, -⟩, -⟩, hbody⟩, hclose⟩, hrp⟩ := hplain
    obtain ⟨hf₁, hf₂⟩ := Body.fits_block hf
    have hfix := fixup_iff hd name.text
    by_cases hc : IsFixup d name.text
    · have htail : (fixupTail close).2 = [] := by simp [fixupTail, hclose]
      simp only [Body.pieces, Body.residue, if_pos hc, if_pos (hfix.2 hc), Bool.false_and,
        labelled_later, Residue.text_deleted, List.append_assoc, htail]
      refine .raw lead.text (.raw (labelText label) (.fixup (List.contains_iff_mem.2 hc.2) _ ?_))
      intro q h₁ h₂ h₃
      exact .raw [] (h₃ ▸ ih₂ hrp hf₂ hd (hin.of_eq h₁ h₂))
    · have hread := plain_bareWhereRead body (d + 1) hbody
      simp only [Body.pieces, Body.residue, if_neg hc, if_neg (mt hfix.1 hc), Bool.false_and,
        labelled_later, (body_calls body false hf₁ hread).1, Nat.add_sub_cancel, Residue.text,
        List.append_assoc, List.cons_append]
      have hnode := Leaves.node (p := p) (w := gap.text) close name.nonempty
        (fun q hq h => h ▸ ih₁ hbody hf₁ (by simp) hq)
        fun p' e₁ e₂ e₃ => e₃ ▸ ih₂ hrp hf₂ hd (hin.of_eq e₁ e₂)
      simp only [List.append_assoc] at hnode
      exact .raw lead.text (.raw (labelText label) hnode)
  | reference lead target gap body close rest ih₁ ih₂ =>
    simp only [Body.plain, Bool.and_eq_true] at hplain
    obtain ⟨⟨⟨⟨-, hgap⟩, hbody⟩, -⟩, hrp⟩ := hplain
    obtain ⟨hf₁, hf₂⟩ := Body.fits_block hf
    have hread := plain_bareWhereRead body (d + 1) hbody
    simp only [Body.pieces, Body.residue, if_pos hgap, (body_calls body false hf₁ hread).1,
      Nat.add_sub_cancel, Residue.text, List.append_assoc, List.cons_append]
    have href := Leaves.reference (p := p) (w := target.text ++ gap.text) close
      (fun q hq h => h ▸ ih₁ hbody hf₁ (by simp) hq)
      fun p' e₁ e₂ e₃ => e₃ ▸ ih₂ hrp hf₂ hd (hin.of_eq e₁ e₂)
    simp only [List.append_assoc, List.cons_append] at href
    exact .raw lead.text href
  | root lead gap body close rest ih₁ ih₂ =>
    simp only [Body.plain, Bool.and_eq_true] at hplain
    obtain ⟨⟨⟨-, hbody⟩, -⟩, hrp⟩ := hplain
    obtain ⟨rfl, hf₁, hf₂⟩ := Body.fits_root hf
    obtain rfl : frame = none := hd.2 rfl
    have hread := plain_bareWhereRead body 0 hbody
    simp only [Body.pieces, Body.residue, (body_calls body false hf₁ hread).1, Residue.text,
      List.append_assoc, List.cons_append]
    have hblock := (ih₁ hbody hf₁ hd hin).rootBlock ('/' :: gap.text) close hin
      fun p' e₁ e₂ => e₂ ▸ ih₂ hrp hf₂ hd e₁
    simp only [List.cons_append] at hblock
    exact .raw lead.text hblock

namespace PlainDocument
variable (d : PlainDocument)

/-- What the patcher leaves of a plain document behind its `/dts-v1/;`. -/
def residue : Residue := (d.body.residue none ∅).1

/-- The tree of a plain document, behind its `/dts-v1/;`. -/
def tree : Tree := d.body.tree

theorem document_spaced : d.document.body.spaced := d.spaced

theorem fits : d.body.fits 0 := by simp [Body.fits, d.rootsOnTop]

/-- **The output for a plain document is its residue.** -/
theorem patch_plain : patch {} d.text = Directive.dtsV1.text ++ d.residue.text := by
  have hframe : InFrame {} none := ⟨rfl, rfl⟩
  have hleaves := body_leaves d.body d.plain d.fits (by simp) hframe
  have hpieces : d.document.body.pieces true 0 = .raw [] :: .directive Directive.dtsV1.name
      Directive.dtsV1.text true :: d.body.pieces false 0 := rfl
  have hsound := Body.sound_of_spaced d.document_spaced true 0
  rw [patch, ← document_text, scan_document hsound, hpieces, replay_cons, replay_cons]
  exact congrArg (Directive.dtsV1.text ++ ·) hleaves.out

end PlainDocument

end PocketDarwin.PatchDtc
