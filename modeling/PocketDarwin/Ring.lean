/-
  Circular queues: nodes with a pointer to the next and one to the previous node.

  `Run q a l b`: following the next pointers from `a` visits `l` and arrives at `b`, and
  the previous pointers lead the same way back.  `Ring q r l` is the queue with the head
  `r` and the elements `l`, a run from the head to itself.

  * `Ring.insque`, `Ring.remque`: what inserting behind the head and removing do to the
    elements, and that they leave the nodes of other queues alone (`Links.Agree`).
  * `Ring.next_head`, `Ring.next_mem`: where a walk over the queue goes on.
-/
import Mathlib.Data.List.Nodup
import Mathlib.Logic.Function.Basic
import PocketDarwin.Chain

namespace PocketDarwin

universe u
variable {α : Type u}

/-- The pointers of all nodes.  `none` is the null pointer. -/
structure Links (α : Type u) where
  next : α → Option α
  prev : α → Option α

namespace Links

variable [DecidableEq α]

/-- A queue without elements. -/
def queueInit (q : Links α) (r : α) : Links α :=
  ⟨Function.update q.next r (some r), Function.update q.prev r (some r)⟩

/-- Inserts `e` behind `pred`.  There is no result if a null pointer would be followed. -/
def insque (q : Links α) (e pred : α) : Option (Links α) :=
  let next := Function.update q.next e (q.next pred)
  let prev := Function.update q.prev e (some pred)
  (next pred).map fun n => ⟨Function.update next pred (some e), Function.update prev n (some e)⟩

/-- Takes `e` out of its queue and clears its pointers. -/
def remque (q : Links α) (e : α) : Option (Links α) := do
  let n ← q.next e
  let prev := Function.update q.prev n (q.prev e)
  let p ← prev e
  let next := Function.update q.next p (q.next e)
  some ⟨Function.update next e none, Function.update prev e none⟩

end Links

/-- From `a` through `l` to `b`, in both directions. -/
def Run (q : Links α) : α → List α → α → Prop
  | a, [], b => q.next a = some b ∧ q.prev b = some a
  | a, c :: l, b => (q.next a = some c ∧ q.prev c = some a) ∧ Run q c l b

/-- The queue with the head `r` and the elements `l`. -/
structure Ring (q : Links α) (r : α) (l : List α) : Prop where
  run : Run q r l r
  nodup : (r :: l).Nodup

/-- The pointers of the nodes of `l` are the same. -/
def Links.Agree (q q' : Links α) (l : List α) : Prop := ∀ a ∈ l, q'.next a = q.next a ∧ q'.prev a = q.prev a

section
variable {q q' : Links α} {a b c e r : α} {l l₁ l₂ : List α}

@[simp] theorem run_nil : Run q a [] b ↔ q.next a = some b ∧ q.prev b = some a := Iff.rfl

@[simp] theorem run_cons : Run q a (c :: l) b ↔ (q.next a = some c ∧ q.prev c = some a) ∧ Run q c l b := Iff.rfl

theorem run_append_cons : Run q a (l₁ ++ c :: l₂) b ↔ Run q a l₁ c ∧ Run q c l₂ b := by
  induction l₁ generalizing a with
  | nil => simp
  | cons d l₁ ih => simp [ih, and_assoc]

theorem Run.congr (h : Run q a l b) (hnext : ∀ c ∈ a :: l, q'.next c = q.next c)
    (hprev : ∀ c ∈ b :: l, q'.prev c = q.prev c) : Run q' a l b := by
  induction l generalizing a with
  | nil =>
    rw [run_nil, hnext a List.mem_cons_self, hprev b List.mem_cons_self]
    exact h
  | cons c l ih =>
    rw [run_cons, hnext a List.mem_cons_self, hprev c (by simp)]
    refine ⟨h.1, ih h.2 (fun d hd => hnext d (List.mem_cons_of_mem a hd)) fun d hd => hprev d ?_⟩
    rcases List.mem_cons.1 hd with rfl | hd
    · exact List.mem_cons_self
    · simp [hd]

theorem Run.prev_mem (h : Run q a l b) : ∃ x ∈ a :: l, q.prev b = some x := by
  induction l generalizing a with
  | nil => exact ⟨a, List.mem_cons_self, h.2⟩
  | cons c l ih =>
    obtain ⟨x, hx, hprev⟩ := ih h.2
    exact ⟨x, List.mem_cons_of_mem a hx, hprev⟩

theorem Run.next_mem (h : Run q a l b) : ∃ y ∈ b :: l, q.next a = some y := by
  cases l with
  | nil => exact ⟨b, List.mem_cons_self, h.1⟩
  | cons c l => exact ⟨c, by simp, h.1.1⟩

theorem Ring.congr (h : Ring q r l) (hq : q.Agree q' (r :: l)) : Ring q' r l :=
  ⟨h.run.congr (fun c hc => (hq c hc).1) fun c hc => (hq c hc).2, h.nodup⟩

theorem Ring.notMem (h : Ring q r l) : r ∉ l := (List.nodup_cons.1 h.nodup).1

/-- The walk from the head comes to the first element, or back. -/
theorem Ring.next_head (h : Ring q r l) : q.next r = some (l.head?.getD r) := by
  cases l with
  | nil => exact h.run.1
  | cons c l => exact h.run.1.1

/-- The walk from an element comes to the one behind it, or back to the head. -/
theorem Ring.next_mem (h : Ring q r (l₁ ++ e :: l₂)) : q.next e = some (l₂.head?.getD r) := by
  have hrun := (run_append_cons.1 h.run).2
  cases l₂ with
  | nil => exact hrun.1
  | cons c l₂ => exact hrun.1.1

/-- The walk comes to nothing else. -/
theorem Ring.mem_of_seg (h : Ring q r l) {k : List α} (hk : Seg q.next (some a) k (some b)) (ha : a ∈ r :: l) :
    b ∈ r :: l := by
  induction k generalizing a with
  | nil =>
    obtain rfl := Option.some.inj hk
    exact ha
  | cons c k ih =>
    obtain ⟨hc, hk⟩ := hk
    obtain rfl := Option.some.inj hc
    have hnext : ∃ d ∈ r :: l, q.next a = some d := by
      rcases List.mem_cons.1 ha with rfl | ha
      · refine ⟨_, ?_, h.next_head⟩
        cases l <;> simp
      · obtain ⟨l₁, l₂, rfl⟩ := List.append_of_mem ha
        refine ⟨_, ?_, h.next_mem⟩
        cases l₂ <;> simp
    obtain ⟨d, hd, hnext⟩ := hnext
    rw [hnext] at hk
    exact ih hk hd

/-- The walk comes to each element. -/
theorem Run.seg (h : Run q a l b) (hc : c ∈ l) : ∃ k, Seg q.next (some a) k (some c) := by
  induction l generalizing a with
  | nil => simp at hc
  | cons d l ih =>
    rcases List.mem_cons.1 hc with rfl | hc
    · exact ⟨[a], rfl, h.1.1⟩
    · obtain ⟨k, hk⟩ := ih h.2 hc
      refine ⟨a :: k, rfl, ?_⟩
      rw [h.1.1]
      exact hk

theorem Ring.mem_iff_seg (h : Ring q r l) : b ∈ r :: l ↔ ∃ k, Seg q.next (some r) k (some b) := by
  constructor
  · intro hb
    rcases List.mem_cons.1 hb with rfl | hb
    · exact ⟨[], rfl⟩
    · exact h.run.seg hb
  · rintro ⟨k, hk⟩
    exact h.mem_of_seg hk List.mem_cons_self

/-- The gap that `e` leaves is closed by one link in each direction, if the others stay. -/
theorem Run.unlink {x y : α} (h₁ : Run q a l₁ e) (h₂ : Run q e l₂ b) (hnodup : (a :: (l₁ ++ e :: l₂)).Nodup)
    (hb : b ∉ l₁ ++ e :: l₂) (hx : q.prev e = some x) (hy : q.next e = some y)
    (hnext : q'.next x = some y) (hnext' : ∀ c, c ≠ x → c ≠ e → q'.next c = q.next c)
    (hprev : q'.prev y = some x) (hprev' : ∀ c, c ≠ y → c ≠ e → q'.prev c = q.prev c) : Run q' a (l₁ ++ l₂) b := by
  induction l₁ generalizing a with
  | nil =>
    obtain rfl : x = a := Option.some.inj (hx.symm.trans h₁.2)
    rw [List.nil_append] at hb hnodup ⊢
    cases l₂ with
    | nil =>
      obtain rfl : y = b := Option.some.inj (hy.symm.trans h₂.1)
      exact ⟨hnext, hprev⟩
    | cons c l₂ =>
      obtain rfl : y = c := Option.some.inj (hy.symm.trans h₂.1.1)
      refine ⟨⟨hnext, hprev⟩, h₂.2.congr (fun d hd => hnext' d ?_ ?_) fun d hd =>
        hprev' d ?_ ?_⟩ <;> grind
  | cons c l₁ ih =>
    obtain ⟨x', hx', hprev_e⟩ := h₁.2.prev_mem
    obtain rfl : x = x' := Option.some.inj (hx.symm.trans hprev_e)
    obtain ⟨y', hy', hnext_e⟩ := h₂.next_mem
    obtain rfl : y = y' := Option.some.inj (hy.symm.trans hnext_e)
    refine ⟨⟨?_, ?_⟩, ih h₁.2 (List.nodup_cons.1 hnodup).2 fun h => hb (List.mem_cons_of_mem c h)⟩
    · rw [hnext' a (by grind) (by grind)]
      exact h₁.1.1
    · rw [hprev' c (by grind) (by grind)]
      exact h₁.1.2

/-! ## Changing a queue -/

variable [DecidableEq α]

theorem Ring.queueInit (q : Links α) (r : α) : Ring (q.queueInit r) r [] :=
  ⟨by simp [Links.queueInit], List.nodup_singleton r⟩

theorem Links.agree_queueInit (hr : r ∉ l) : q.Agree (q.queueInit r) l := by
  intro a ha
  have hne : a ≠ r := ne_of_mem_of_not_mem ha hr
  simp [Links.queueInit, hne]

/-- **Insertion.**  A node behind the head; nodes that are not of the queue keep their pointers. -/
theorem Ring.insque (h : Ring q r l) (he : e ∉ r :: l) :
    ∃ q', q.insque e r = some q' ∧ Ring q' r (e :: l) ∧ ∀ k, e ∉ k → (∀ a ∈ r :: l, a ∉ k) → q.Agree q' k := by
  have her : r ≠ e := fun h => he (h ▸ List.mem_cons_self)
  have hel : e ∉ l := fun h => he (List.mem_cons_of_mem r h)
  have hnext : Function.update q.next e (q.next r) r = some (l.head?.getD r) := by
    rw [Function.update_of_ne her, h.next_head]
  have hhead : l.head?.getD r ∈ r :: l := by cases l <;> simp
  have hne : l.head?.getD r ≠ e := ne_of_mem_of_not_mem hhead he
  have hins : q.insque e r = some ⟨Function.update (Function.update q.next e (q.next r)) r (some e),
      Function.update (Function.update q.prev e (some r)) (l.head?.getD r) (some e)⟩ := by
    simp only [Links.insque, hnext, Option.map_some]
  refine ⟨_, hins, ⟨?_, ?_⟩, ?_⟩
  · refine ⟨by simp [hne.symm], ?_⟩
    -- the old run, but with the links of its ends moved to `e`
    cases l with
    | nil => simp [her.symm, h.next_head]
    | cons c l =>
      have hc : r ≠ c := fun heq => h.notMem (heq ▸ List.mem_cons_self)
      have hcl : c ∉ l := (List.nodup_cons.1 (List.nodup_cons.1 h.nodup).2).1
      refine ⟨by simp [her.symm, h.next_head], h.run.2.congr (fun d hd => ?_) fun d hd => ?_⟩
      · have hdr : d ≠ r := ne_of_mem_of_not_mem hd h.notMem
        have hde : d ≠ e := ne_of_mem_of_not_mem hd hel
        simp [hdr, hde]
      · have hdc : d ≠ c := by
          rcases List.mem_cons.1 hd with rfl | hd
          · exact hc
          · exact ne_of_mem_of_not_mem hd hcl
        have hde : d ≠ e := by
          rcases List.mem_cons.1 hd with rfl | hd
          · exact her
          · exact ne_of_mem_of_not_mem hd fun h => hel (List.mem_cons_of_mem c h)
        simp [hdc, hde]
  · have := h.nodup
    simp only [List.nodup_cons, List.mem_cons, not_or] at this ⊢
    exact ⟨⟨her, this.1⟩, hel, this.2⟩
  · intro k hek hk a ha
    have hae : a ≠ e := ne_of_mem_of_not_mem ha hek
    have har : a ≠ r := ne_of_mem_of_not_mem ha (hk r List.mem_cons_self)
    have hah : a ≠ l.head?.getD r := ne_of_mem_of_not_mem ha (hk _ hhead)
    simp [hae, har, hah]

/-- **Removal** of any element. -/
theorem Ring.remque (h : Ring q r (l₁ ++ e :: l₂)) :
    ∃ q', q.remque e = some q' ∧ Ring q' r (l₁ ++ l₂) ∧ ∀ k, (∀ a ∈ r :: (l₁ ++ e :: l₂), a ∉ k) → q.Agree q' k := by
  obtain ⟨h₁, h₂⟩ := run_append_cons.1 h.run
  obtain ⟨x, hxmem, hx⟩ := h₁.prev_mem
  obtain ⟨y, hymem, hy⟩ := h₂.next_mem
  have hnodup := h.nodup
  have hxe : x ≠ e := by grind
  have hye : y ≠ e := by grind
  have hrem : q.remque e = some ⟨Function.update (Function.update q.next x (some y)) e none,
      Function.update (Function.update q.prev y (some x)) e none⟩ := by
    simp [Links.remque, hx, hy, hye.symm]
  refine ⟨_, hrem, ⟨h₁.unlink h₂ hnodup h.notMem hx hy ?_ ?_ ?_ ?_, ?_⟩, ?_⟩
  · simp [hxe]
  · intro c hcx hce
    simp [hcx, hce]
  · simp [hye]
  · intro c hcy hce
    simp [hcy, hce]
  · grind
  · intro k hk a ha
    have hae : a ≠ e := ne_of_mem_of_not_mem ha (hk e (by simp))
    have hax : a ≠ x := ne_of_mem_of_not_mem ha (hk x (by grind))
    have hay : a ≠ y := ne_of_mem_of_not_mem ha (hk y (by grind))
    simp [hae, hax, hay]

end

end PocketDarwin
