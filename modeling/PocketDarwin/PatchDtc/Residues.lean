/-
  The layout of what the patcher leaves.

  Deleting a declaration joins the gap in front of it with the one behind it, so
  white space stays between the tokens, no comment appears and root blocks stay
  at the top.
-/
import PocketDarwin.PatchDtc.Patched

namespace PocketDarwin.PatchDtc

open Patcher

namespace Gap

theorem bare_append (g g' : Gap) : bare (g ++ g') = (bare g && bare g') := List.all_append

theorem spaced_append {g : Gap} (h : spaced g) (g' : Gap) : spaced (g ++ g') := by
  rcases g with _ | ⟨t | c, g⟩
  · cases h
  · rfl
  · cases h

end Gap

namespace Residue

/-! ## The layout of a residue -/

/-- White space, and no comment, between the tokens. -/
def plain : Residue → Bool
  | done tail => tail.bare
  | orphan lead label rest => lead.bare && labelPlain (some label) && rest.plain
  | directive lead d rest => lead.bare && d.args.plain && rest.plain
  | property lead label _ gap value rest =>
    lead.bare && labelPlain label && gap.bare && valuePlain value && rest.plain
  | node lead label _ gap body close rest =>
    lead.bare && labelPlain label && gap.bare && body.plain && close.bare && rest.plain
  | reference lead _ gap body close rest | root lead gap body close rest =>
    lead.bare && gap.bare && body.plain && close.bare && rest.plain

def lead : Residue → Gap
  | done tail => tail
  | orphan lead _ _ | directive lead _ _ | property lead _ _ _ _ _ | node lead _ _ _ _ _ _
  | reference lead _ _ _ _ _ | root lead _ _ _ _ => lead

/-- White space, if anything, stands in front of what follows a block. -/
def spacedLead : Residue → Bool
  | done tail => tail.setOff
  | r => r.lead.spaced

/-- White space between the tokens that would run together. -/
def spaced : Residue → Bool
  | done _ => true
  | orphan _ label rest => label.spaced && rest.spaced
  | directive _ d rest => d.args.setOff && rest.spaced
  | property _ label _ gap _ rest => labelSpaced label && gap.spaced && rest.spaced
  | node _ label _ gap body _ rest =>
    labelSpaced label && gap.setOff && body.spaced && rest.spacedLead && rest.spaced
  | reference _ _ gap body _ rest | root _ gap body _ rest =>
    gap.setOff && body.spaced && rest.spacedLead && rest.spaced

/-- No root block. -/
def rootless : Residue → Bool
  | done _ => true
  | orphan _ _ rest | directive _ _ rest | property _ _ _ _ _ rest => rest.rootless
  | node _ _ _ _ body _ rest | reference _ _ _ body _ rest => body.rootless && rest.rootless
  | root _ _ _ _ _ => false

/-- Root blocks stand at the top level only. -/
def rootsOnTop : Residue → Bool
  | done _ => true
  | orphan _ _ rest | directive _ _ rest | property _ _ _ _ _ rest => rest.rootsOnTop
  | node _ _ _ _ body _ rest | reference _ _ _ body _ rest | root _ _ body _ rest =>
    body.rootless && rest.rootsOnTop

section
variable (g : Gap) (r : Residue)

@[simp] theorem plain_behind : (r.behind g).plain = (g.bare && r.plain) := by
  cases r <;> simp [behind, plain, Gap.bare_append, Bool.and_assoc]

@[simp] theorem spaced_behind : (r.behind g).spaced = r.spaced := by
  cases r <;> rfl

@[simp] theorem rootless_behind : (r.behind g).rootless = r.rootless := by
  cases r <;> rfl

@[simp] theorem rootsOnTop_behind : (r.behind g).rootsOnTop = r.rootsOnTop := by
  cases r <;> rfl

theorem spacedLead_behind {g : Gap} (h : g.spaced) : (r.behind g).spacedLead := by
  cases r with
  | done tail => exact Gap.setOff_of_spaced (Gap.spaced_append h tail)
  | _ => exact Gap.spaced_append h _

variable (label : Option Label)

@[simp] theorem plain_deleted : (deleted g label r).plain = (g.bare && labelPlain label && r.plain) := by
  cases label <;> simp [deleted, plain, labelPlain]

@[simp] theorem spaced_deleted : (deleted g label r).spaced = (labelSpaced label && r.spaced) := by
  cases label <;> simp [deleted, spaced, labelSpaced]

@[simp] theorem rootless_deleted : (deleted g label r).rootless = r.rootless := by
  cases label <;> simp [deleted, rootless]

@[simp] theorem rootsOnTop_deleted : (deleted g label r).rootsOnTop = r.rootsOnTop := by
  cases label <;> simp [deleted, rootsOnTop]

theorem spacedLead_deleted {g : Gap} (h : g.spaced) : (deleted g label r).spacedLead := by
  cases label with
  | none => exact spacedLead_behind r h
  | some l => exact h

end

end Residue

/-! ## Deletions keep the layout -/

section
variable (b : Body) (frame : Option Frame) (t : Table)

theorem residue_plain (h : b.plain) : (b.residue frame t).1.plain := by
  induction b generalizing frame t with
  | done tail => exact h
  | directive lead d rest ih =>
    simp only [Body.plain, Bool.and_eq_true] at h
    have := ih frame t h.2
    simp only [Body.residue]
    split_ifs <;> simp [Residue.plain, this, h]
  | property lead label p rest ih =>
    simp only [Body.plain, Bool.and_eq_true] at h
    simp only [Body.residue]
    split_ifs
    · simp [ih (frame.map (.drop p.name.text)) t h.2, h]
    · simp [Residue.plain, ih (frame.map (.see p.name.text)) _ h.2, h]
  | node lead label name gap body close rest ih₁ ih₂ =>
    simp only [Body.plain, Bool.and_eq_true] at h
    simp only [Body.residue]
    split_ifs
    · simp [ih₂ frame t h.2, h]
    · simp [Residue.plain, ih₁ (some {}) _ h.1.1.2, ih₂ frame _ h.2, h]
  | reference lead target gap body close rest ih₁ ih₂ =>
    simp only [Body.plain, Bool.and_eq_true] at h
    simp [Body.residue, Residue.plain, ih₁ (some {}) t h.1.1.2, ih₂ frame _ h.2, h]
  | root lead gap body close rest ih₁ ih₂ =>
    simp only [Body.plain, Bool.and_eq_true] at h
    simp [Body.residue, Residue.plain, ih₁ none t h.1.1.2, ih₂ frame _ h.2, h]

theorem residue_spacedLead (h : b.spacedLead) : (b.residue frame t).1.spacedLead := by
  cases b with
  | done tail => exact h
  | directive lead d rest =>
    simp only [Body.residue]
    split_ifs
    · exact Residue.spacedLead_behind _ h
    · exact h
  | property lead label p rest =>
    simp only [Body.residue]
    split_ifs
    · exact Residue.spacedLead_deleted _ _ h
    · exact h
  | node lead label name gap body close rest =>
    simp only [Body.residue]
    split_ifs
    · exact Residue.spacedLead_deleted _ _ h
    · exact h
  | reference lead target gap body close rest => exact h
  | root lead gap body close rest => exact h

theorem residue_spaced (h : b.spaced) : (b.residue frame t).1.spaced := by
  induction b generalizing frame t with
  | done tail => rfl
  | directive lead d rest ih =>
    simp only [Body.spaced, Bool.and_eq_true] at h
    have := ih frame t h.2
    simp only [Body.residue]
    split_ifs <;> simp [Residue.spaced, this, h]
  | property lead label p rest ih =>
    simp only [Body.spaced, Bool.and_eq_true] at h
    simp only [Body.residue]
    split_ifs
    · simp [ih (frame.map (.drop p.name.text)) t h.2, h]
    · simp [Residue.spaced, ih (frame.map (.see p.name.text)) _ h.2, h]
  | node lead label name gap body close rest ih₁ ih₂ =>
    simp only [Body.spaced, Bool.and_eq_true] at h
    simp only [Body.residue]
    split_ifs
    · simp [ih₂ frame t h.2, h]
    · simp [Residue.spaced, ih₁ (some {}) _ h.1.1.2, ih₂ frame _ h.2,
        residue_spacedLead rest frame _ h.1.2, h]
  | reference lead target gap body close rest ih₁ ih₂ =>
    simp only [Body.spaced, Bool.and_eq_true] at h
    simp [Body.residue, Residue.spaced, ih₁ (some {}) t h.1.1.2, ih₂ frame _ h.2,
      residue_spacedLead rest frame _ h.1.2, h]
  | root lead gap body close rest ih₁ ih₂ =>
    simp only [Body.spaced, Bool.and_eq_true] at h
    simp [Body.residue, Residue.spaced, ih₁ none t h.1.1.2, ih₂ frame _ h.2,
      residue_spacedLead rest frame _ h.1.2, h]

theorem residue_rootless (h : b.rootless) : (b.residue frame t).1.rootless := by
  induction b generalizing frame t with
  | done tail => rfl
  | directive lead d rest ih =>
    have := ih frame t h
    simp only [Body.residue]
    split_ifs <;> simpa [Residue.rootless] using this
  | property lead label p rest ih =>
    simp only [Body.residue]
    split_ifs
    · simpa using ih (frame.map (.drop p.name.text)) t h
    · simpa [Residue.rootless] using ih (frame.map (.see p.name.text)) _ h
  | node lead label name gap body close rest ih₁ ih₂ =>
    simp only [Body.rootless, Bool.and_eq_true] at h
    simp only [Body.residue]
    split_ifs
    · simpa using ih₂ frame t h.2
    · simp [Residue.rootless, ih₁ (some {}) _ h.1, ih₂ frame _ h.2]
  | reference lead target gap body close rest ih₁ ih₂ =>
    simp only [Body.rootless, Bool.and_eq_true] at h
    simp [Body.residue, Residue.rootless, ih₁ (some {}) t h.1, ih₂ frame _ h.2]
  | root lead gap body close rest ih₁ ih₂ => cases h

theorem residue_rootsOnTop (h : b.rootsOnTop) : (b.residue frame t).1.rootsOnTop := by
  induction b generalizing frame t with
  | done tail => rfl
  | directive lead d rest ih =>
    have := ih frame t h
    simp only [Body.residue]
    split_ifs <;> simpa [Residue.rootsOnTop] using this
  | property lead label p rest ih =>
    simp only [Body.residue]
    split_ifs
    · simpa using ih (frame.map (.drop p.name.text)) t h
    · simpa [Residue.rootsOnTop] using ih (frame.map (.see p.name.text)) _ h
  | node lead label name gap body close rest ih₁ ih₂ =>
    simp only [Body.rootsOnTop, Bool.and_eq_true] at h
    simp only [Body.residue]
    split_ifs
    · simpa using ih₂ frame t h.2
    · simp [Residue.rootsOnTop, residue_rootless body (some {}) _ h.1, ih₂ frame _ h.2]
  | reference lead target gap body close rest ih₁ ih₂ =>
    simp only [Body.rootsOnTop, Bool.and_eq_true] at h
    simp [Body.residue, Residue.rootsOnTop, residue_rootless body (some {}) t h.1, ih₂ frame _ h.2]
  | root lead gap body close rest ih₁ ih₂ =>
    simp only [Body.rootsOnTop, Bool.and_eq_true] at h
    simp [Body.residue, Residue.rootsOnTop, residue_rootless body none t h.1, ih₂ frame _ h.2]

end

end PocketDarwin.PatchDtc
