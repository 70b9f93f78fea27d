/-
  The frame stacks of the patcher and the braces of the text.

  The scanner counts braces in `depth`, clamped at zero; the patcher keeps a
  frame for every node or reference that is open, guarded on its own side.  The
  two never get out of step, on any text (`frames_follow_calls`): a closing
  brace ends the innermost node or reference that the scanner has open, if there
  is one, and the frame on top holds the properties met since then
  (`frameNames`).

  The scanner itself gets out of step with the braces of the text: it ends a
  node at the closing brace of a root block in it, and starts the body of
  `&{/soc} { … }` at the path.  While it takes the braces for what they are, the
  frame on top is that of the innermost brace (`frames_follow_braces`).
-/
import PocketDarwin.PatchDtc.Braces
import PocketDarwin.PatchDtc.Patcher

namespace PocketDarwin.PatchDtc

/-! ## The bodies of a history -/

/-- In a history, latest call first: the names passed to `on_property` in the
    body of the `k`-th node or reference still open, counted from the innermost
    one.  Going back, an exit closes a body whose calls are not counted. -/
def frameNames : ℕ → List Call → Option (List Text)
  | _, [] => none
  | k, .nodeExit :: h => frameNames (k + 1) h
  | 0, .nodeOpen _ _ :: _ => some []
  | k + 1, .nodeOpen _ _ :: h => frameNames k h
  | 0, .property name _ :: h => (frameNames 0 h).map (name :: ·)
  | k + 1, .property _ _ :: h => frameNames (k + 1) h
  | k, .directive _ _ _ :: h => frameNames k h
  | k, .fixup _ _ :: h => frameNames k h

/-- The same set of names. -/
def SameNames (xs ys : List Text) : Prop := ∀ x, x ∈ xs ↔ x ∈ ys

/-- The patcher's stacks in step with the depth `d` and the history `h`. -/
structure InStep (d : ℕ) (h : List Call) (p : Patcher) : Prop where
  props : p.nodePropStack.length = d
  dropped : p.nodeDroppedStack.length = d
  frames : ∀ k, Option.Rel SameNames p.nodePropStack[k]? (frameNames k h.reverse)

namespace Patcher
variable (opts : Options)

/-! ## What the callbacks do to the stacks -/

@[simp] theorem truncateName_props (name : Text) (kind : Kind) (p : Patcher) :
    (truncateName opts name kind p).2.nodePropStack = p.nodePropStack := by
  cases kind <;> simp only [truncateName] <;> split_ifs <;> rfl

@[simp] theorem truncateName_dropped (name : Text) (kind : Kind) (p : Patcher) :
    (truncateName opts name kind p).2.nodeDroppedStack = p.nodeDroppedStack := by
  cases kind <;> simp only [truncateName] <;> split_ifs <;> rfl

@[simp] theorem onDirective_stacks (name text : Text) (r : Bool) (p : Patcher) :
    (onDirective opts name text r p).2.nodePropStack = p.nodePropStack ∧
      (onDirective opts name text r p).2.nodeDroppedStack = p.nodeDroppedStack := by
  unfold onDirective; split_ifs <;> exact ⟨rfl, rfl⟩

@[simp] theorem onFixupSubtree_stacks (name text : Text) (p : Patcher) :
    (onFixupSubtree opts name text p).2.nodePropStack = p.nodePropStack ∧
      (onFixupSubtree opts name text p).2.nodeDroppedStack = p.nodeDroppedStack := by
  unfold onFixupSubtree; split_ifs <;> exact ⟨rfl, rfl⟩

@[simp] theorem onNodeOpen_stacks (name text : Text) (p : Patcher) :
    (onNodeOpen opts name text p).2.nodePropStack = [] :: p.nodePropStack ∧
      (onNodeOpen opts name text p).2.nodeDroppedStack = [] :: p.nodeDroppedStack := by
  simp [onNodeOpen]

@[simp] theorem dropProperty_dropped_length (name : Text) (p : Patcher) :
    (dropProperty name p).nodeDroppedStack.length = p.nodeDroppedStack.length := by
  unfold dropProperty; cases p.nodeDroppedStack <;> rfl

/-- A property is recorded in the frame on top, and nowhere else. -/
@[simp] theorem onProperty_props (name text : Text) (p : Patcher) :
    (onProperty opts name text p).2.nodePropStack = (track name p).nodePropStack := by
  simp only [onProperty]; split_ifs <;> simp [dropProperty]

@[simp] theorem onProperty_dropped_length (name text : Text) (p : Patcher) :
    (onProperty opts name text p).2.nodeDroppedStack.length = p.nodeDroppedStack.length := by
  have htrack : (track name p).nodeDroppedStack = p.nodeDroppedStack := by
    unfold track; cases p.nodePropStack <;> rfl
  simp only [onProperty]; split_ifs <;> simp [htrack]

end Patcher

/-! ## The invariant -/

section
variable (opts : Options) {d : ℕ} {h : List Call} {p : Patcher}

theorem InStep.nodeOpen (hi : InStep d h p) (name text : Text) :
    InStep (d + 1) (h ++ [.nodeOpen name text]) (Patcher.onNodeOpen opts name text p).2 := by
  refine ⟨by simp [hi.props], by simp [hi.dropped], fun k => ?_⟩
  cases k with
  | zero => simpa [frameNames] using Option.Rel.some (fun x => Iff.rfl)
  | succ k => simpa [frameNames] using hi.frames k

theorem InStep.nodeExit (hi : InStep d h p) :
    InStep (d - 1) (h ++ [.nodeExit]) (Patcher.onNodeExit p) := by
  have hf := fun k => hi.frames (k + 1)
  have h1 := hi.props
  have h2 := hi.dropped
  unfold Patcher.onNodeExit
  rcases hs : p.nodePropStack with _ | ⟨frame, frames⟩
  · rw [hs] at h1 hf
    refine ⟨by simp [hs, ← h1], by simp [h2, ← h1], fun k => ?_⟩
    simpa [frameNames, hs] using hf k
  · rw [hs] at h1 hf
    refine ⟨by simp [← h1], by simp [h2], fun k => ?_⟩
    simpa [frameNames] using hf k

theorem InStep.property (hi : InStep d h p) (name text : Text) :
    InStep d (h ++ [.property name text]) (Patcher.onProperty opts name text p).2 := by
  have h1 := hi.props
  refine ⟨?_, by simp [hi.dropped], fun k => ?_⟩
  · rw [Patcher.onProperty_props]
    unfold Patcher.track
    rcases hs : p.nodePropStack with _ | ⟨frame, frames⟩ <;> simpa [hs] using h1
  · have hf := hi.frames k
    rw [Patcher.onProperty_props]
    unfold Patcher.track
    rcases hs : p.nodePropStack with _ | ⟨frame, frames⟩ <;> rw [hs] at hf
    · cases k with
      | zero =>
        have hn : frameNames 0 h.reverse = none := by cases hn : frameNames 0 h.reverse <;> simp_all
        simp [frameNames, hn, hs]
      | succ k => simpa [frameNames, hs] using hf
    · cases k with
      | zero =>
        simp only [List.getElem?_cons_zero] at hf
        simp only [frameNames, List.reverse_append, List.reverse_cons, List.reverse_nil,
          List.nil_append, List.cons_append, List.getElem?_cons_zero]
        cases hn : frameNames 0 h.reverse with
        | none => rw [hn] at hf; cases hf
        | some names =>
          rw [hn] at hf
          cases hf with
          | some hs => exact .some fun x => by simp [hs x]
      | succ k => simpa [frameNames] using hf

theorem InStep.of_stacks_eq {p' : Patcher} (hi : InStep d h p) {c : Call}
    (hp : p'.nodePropStack = p.nodePropStack ∧ p'.nodeDroppedStack = p.nodeDroppedStack)
    (hc : ∀ k, frameNames k (h ++ [c]).reverse = frameNames k h.reverse) :
    InStep d (h ++ [c]) p' := by
  refine ⟨hp.1 ▸ hi.props, hp.2 ▸ hi.dropped, fun k => ?_⟩
  rw [hp.1, hc]
  exact hi.frames k

/-- One piece keeps the stacks in step. -/
theorem InStep.piece (hi : InStep d h p) (q : Piece) :
    InStep (q.depth d) (h ++ q.call.toList) (q.emit (Patcher.callbacks opts) p).2 := by
  cases q with
  | raw t => simpa [Piece.emit, Piece.call, Piece.depth] using hi
  | directive name t r =>
    exact hi.of_stacks_eq (Patcher.onDirective_stacks opts name t r p) fun k => by simp [frameNames]
  | nodeOpen name t => exact hi.nodeOpen opts name t
  | nodeExit => exact hi.nodeExit
  | property name t => exact hi.property opts name t
  | fixup name t =>
    exact hi.of_stacks_eq (Patcher.onFixupSubtree_stacks opts name t p) fun k => by simp [frameNames]

/-- Pieces keep the stacks in step. -/
theorem InStep.pieces (hi : InStep d h p) (qs : List Piece) :
    InStep (depthAfter d qs) (h ++ qs.filterMap Piece.call)
      (replay (Patcher.callbacks opts) p qs).2 := by
  induction qs generalizing d h p with
  | nil => simpa using hi
  | cons q qs ih =>
    have := ih (hi.piece opts q)
    cases hc : q.call <;> simp_all

end

namespace Braces

theorem frames_addName (name : Text) (l : List Brace) :
    (addName name l).filterMap id = (l.filterMap id).modifyHead (name :: ·) := by
  induction l with
  | nil => rfl
  | cons brace l ih =>
    cases brace with
    | none => exact ih
    | some names => rfl

/-- An iteration that takes the braces for what they are keeps the bodies of the text those of the
    history. -/
theorem Agrees.frames {b : Braces} {st : DTSState} {h : List Call} (ha : b.Agrees st)
    (hb : ∀ i, b.frames[i]? = frameNames i h.reverse) (i : ℕ) :
    (b.afterStep st).frames[i]? = frameNames i (h ++ st.stepCalls).reverse := by
  have hcalls := effect_makes st
  rw [Agrees] at ha
  rw [afterStep]
  generalize b.read st.stepText = b' at ha
  generalize st.effect = e at hcalls ha
  generalize st.stepCalls = calls at hcalls
  rw [List.reverse_append]
  cases hcalls with
  | opens name text =>
    have hframes : b'.frames = [] :: b.frames := ha
    cases i with
    | zero => exact congrArg (·[0]?) hframes
    | succ i => exact (congrArg (·[i + 1]?) hframes).trans (hb i)
  | closes =>
    have hframes : b'.frames = b.frames.tail := ha
    refine (congrArg (·[i]?) hframes).trans ?_
    rw [List.getElem?_tail, hb]
    rfl
  | nothing =>
    have hframes : b'.frames = b.frames := ha
    exact (congrArg (·[i]?) hframes).trans (hb i)
  | directive name text atRoot =>
    have hframes : b'.frames = b.frames := ha
    refine (congrArg (·[i]?) hframes).trans ((hb i).trans ?_)
    simp [frameNames]
  | property name text =>
    have hframes : (b'.record (.property name text)).frames = b.frames.modifyHead (name :: ·) :=
      (frames_addName name b'.opened).trans (congrArg _ ha)
    refine (congrArg (·[i]?) hframes).trans ?_
    rw [List.getElem?_modifyHead, hb]
    cases i <;> rfl
  | fixup name text =>
    have hframes : b'.frames = b.frames := ha
    refine (congrArg (·[i]?) hframes).trans ((hb i).trans ?_)
    simp [frameNames]

end Braces

end PocketDarwin.PatchDtc
