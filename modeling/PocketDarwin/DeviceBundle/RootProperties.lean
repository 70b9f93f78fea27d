/-
  The properties that `parseDTS` reads from a source with one root.

  The parser looks for `};` and for properties, and knows nothing of nested nodes, nor of the
  quotes that belong together.

  * `found_across`: from one property to the next, a match is found if their values are like
    the two ends of one.
  * `readsOwn_iff`: exactly the properties of the root are read, each where it is declared, if
    and only if they all stand before the first `};` of the body in the form that the
    expression has, and no other property there has it, nor a property with the next one.
-/
import Mathlib.Data.List.DropRight
import PocketDarwin.DeviceBundle.Matches
import PocketDarwin.DeviceBundle.Sources

namespace PocketDarwin.DeviceBundle

/-! ## Names -/

namespace StringProperty
variable (p : StringProperty)

/-- The part of the name that can be matched: the word at its end. -/
def word : Text := p.name.1.rtakeWhile isWord

theorem keyOf_opening {o : Text} (ho : Fresh o) :
    keyOf (o ++ p.opening) = if p.word = [] then none else some p.word := by
  split_ifs with hword
  · -- the name ends with another character
    have heq : o ++ p.opening = (o ++ p.lead.1 ++ p.name.1) ++ (p.beforeEq.1 ++ '=' :: p.afterEq.1)
        := by simp [opening]
    rw [heq]
    refine keyOf_append_none (fun c hc => ?_) p.beforeEq.2 p.afterEq.2
    rw [List.getLast?_append_of_ne_nil _ p.name.2.1, List.getLast?_eq_some_getLast p.name.2.1,
      Option.mem_some_iff] at hc
    have hlast := List.rtakeWhile_eq_nil_iff.1 hword p.name.2.1
    rw [hc] at hlast
    have hname : isNameChar c = true := List.all_eq_true.1 p.name.2.2 c (hc ▸ List.getLast_mem _)
    refine ⟨Bool.eq_false_iff.2 hlast, ?_⟩
    cases hblank : isBlank c with
    | false => rfl
    | true =>
      simp only [isBlank, Bool.or_eq_true, beq_iff_eq] at hblank
      rcases hblank with ((((rfl | rfl) | rfl) | rfl) | rfl) | rfl <;> exact absurd hname
        (by decide)
  · have hsplit : p.name.1 = p.name.1.rdropWhile isWord ++ p.word :=
      List.rdropWhile_append_rtakeWhile.symm
    have heq : o ++ p.opening =
        (o ++ p.lead.1 ++ p.name.1.rdropWhile isWord)
          ++ (p.word ++ (p.beforeEq.1 ++ '=' :: p.afterEq.1)) := by
      rw [opening]
      conv_lhs => rw [hsplit]
      simp
    have hfresh : Fresh (p.name.1.rdropWhile isWord) := by
      intro c hc
      have hne : p.name.1.rdropWhile isWord ≠ [] := by
        rintro hnil
        rw [hnil] at hc
        cases hc
      rw [List.getLast?_eq_some_getLast hne, Option.mem_some_iff] at hc
      exact Bool.eq_false_iff.2 (hc ▸ List.rdropWhile_last_not _ _ hne)
    rw [heq]
    exact keyOf_append ((ho.append (.of_blank p.lead.2)).append hfresh) hword
      (List.all_eq_true.2 fun c hc => List.mem_rtakeWhile_imp hc) p.beforeEq.2 p.afterEq.2

/-- The name is matched as a whole. -/
theorem word_eq_name_iff : p.word = p.name.1 ↔ p.name.1.all isWord = true := by
  rw [word, List.rtakeWhile_eq_self_iff, List.all_eq_true]

end StringProperty

/-! ## Bodies that are read -/

/-- The declaration has the form of the regular expression, from some part of its name on. -/
def StringProperty.Matched (p : StringProperty) : Prop := p.word ≠ [] ∧ p.beforeEnd.1 = []

/-- It has it from the start of its name. -/
def StringProperty.Plain (p : StringProperty) : Prop :=
  p.name.1.all isWord = true ∧ p.beforeEnd.1 = []

/-- The next property, if nothing ends before it. -/
def nextProperty : List Token → Option StringProperty
  | [] => none
  | .property _ p :: _ => some p
  | t :: l => if t.ends then none else nextProperty l

/-- Together they have the form: the value of the one is a key, and that of the other an end. -/
def Misread (p q : StringProperty) : Prop := EndsWithKey p.value.1 ∧ q.value.1.head? = some ';'

/-- The properties of the root stand before the first end of a block, and each is plain; no nested
    property before it is matched, nor joined with the next. -/
structure Legible (l : List Token) : Prop where
  visible : ∀ p, .property true p ∉ l.dropWhile (!·.ends)
  own : ∀ p, .property true p ∈ l.takeWhile (!·.ends) → p.Plain
  nested : ∀ p, .property false p ∈ l.takeWhile (!·.ends) → ¬ p.Matched
  apart : ∀ x p y q, l = x ++ .property false p :: y →
  (∀ t ∈ x ++ [.property false p], t.ends = false) →
    nextProperty y = some q → ¬ Misread p q

theorem legible_nil : Legible [] := by
  refine ⟨fun p h => ?_, fun p h => ?_, fun p h => ?_, fun x p y q h => ?_⟩
  · cases h
  · cases h
  · cases h
  · simp at h

theorem legible_cons_of_ends {t : Token} {l : List Token} (ht : t.ends = true) :
    Legible (t :: l) ↔ ∀ p, Token.property true p ∉ t :: l := by
  have hdrop : (t :: l).dropWhile (!·.ends) = t :: l := List.dropWhile_cons_of_neg (by simp [ht])
  have htake : (t :: l).takeWhile (!·.ends) = [] := List.takeWhile_cons_of_neg (by simp [ht])
  constructor
  · intro h p
    have hvisible := h.visible p
    rwa [hdrop] at hvisible
  · intro h
    refine ⟨fun p =>
      by rw [hdrop]; exact h p, fun p hp => ?_, fun p hp => ?_, fun x p y q heq hx => ?_⟩
    · rw [htake] at hp
      cases hp
    · rw [htake] at hp
      cases hp
    · have hfalse : t.ends = false := by
        cases x with
        | nil => exact hx t (by rw [(List.cons.inj heq).1]; exact List.mem_singleton_self _)
        | cons u x => exact hx t (by rw [(List.cons.inj heq).1]; exact List.mem_cons_self)
      rw [ht] at hfalse
      cases hfalse

theorem legible_cons {t : Token} {l : List Token} (ht : t.ends = false) :
    Legible (t :: l) ↔ (∀ p, t = .property true p → p.Plain) ∧
      (∀ p, t = .property false p → ¬ p.Matched ∧ ∀ q, nextProperty l = some q → ¬ Misread p q) ∧
      Legible l := by
  have hdrop : (t :: l).dropWhile (!·.ends) = l.dropWhile (!·.ends) :=
    List.dropWhile_cons_of_pos (by simp [ht])
  have htake : (t :: l).takeWhile (!·.ends) = t :: l.takeWhile (!·.ends) :=
    List.takeWhile_cons_of_pos (by simp [ht])
  constructor
  · rintro ⟨hvisible, hown, hnested, hapart⟩
    rw [hdrop] at hvisible
    rw [htake] at hown hnested
    refine ⟨fun p hp => hown p (hp ▸ List.mem_cons_self),
      fun p hp => ⟨hnested p (hp ▸ List.mem_cons_self), fun q hq => ?_⟩,
      hvisible, fun p hp => hown p (List.mem_cons_of_mem t hp),
      fun p hp => hnested p (List.mem_cons_of_mem t hp),
      fun x p y q heq hx => hapart (t :: x) p y q (congrArg (t :: ·) heq) ?_⟩
    · refine hapart [] p l q (congrArg (· :: l) hp) ?_ hq
      intro u hu
      rw [List.nil_append, List.mem_singleton] at hu
      rw [hu, ← hp, ht]
    · intro u hu
      rcases List.mem_cons.1 hu with rfl | hu
      · exact ht
      · exact hx u hu
  · rintro ⟨hplain, hfree, hvisible, hown, hnested, hapart⟩
    refine ⟨fun p =>
      by rw [hdrop]; exact hvisible p, fun p hp => ?_, fun p hp => ?_, fun x p y q heq hx hq => ?_⟩
    · rw [htake] at hp
      rcases List.mem_cons.1 hp with hp | hp
      · exact hplain p hp.symm
      · exact hown p hp
    · rw [htake] at hp
      rcases List.mem_cons.1 hp with hp | hp
      · exact (hfree p hp.symm).1
      · exact hnested p hp
    · cases x with
      | nil =>
        obtain ⟨rfl, rfl⟩ := List.cons.inj heq
        exact (hfree p rfl).2 q hq
      | cons u x =>
        exact hapart x p y q (List.cons.inj heq).2 (fun v hv => hx v (List.mem_cons_of_mem u hv)) hq

/-! ## What is found in a body -/

theorem Token.property_or (t : Token) :
    (∀ own p, t ≠ .property own p) ∨ ∃ own p, t = .property own p := by
  cases t with
  | property own p => exact .inr ⟨own, p, rfl⟩
  | statement s => exact .inl (by simp)
  | opening head => exact .inl (by simp)
  | closing lead space => exact .inl (by simp)

section
variable {tail : Text} {l : List Token} {own : Bool} {p : StringProperty} {t : Token}

/-- The content from a property on. -/
theorem content_property :
    ∃ s, content tail (.property own p :: l) =
      p.opening ++ '"' :: s ∧ (s.head? = some ';' ↔ p.value.1.head? = some ';') := by
  rw [content]
  cases hp : (Token.property own p).ends with
  | true => exact ⟨upToEnd p.value.1, rfl, head?_upToEnd _⟩
  | false =>
    refine ⟨p.value.1 ++ '"' :: (p.beforeEnd.1 ++ [';'] ++ content tail l), ?_, ?_⟩
    · simp [Token.text, StringProperty.text]
    · cases p.value.1 <;> simp

/-- A token that is no property has no quotes, and a name can follow it. -/
theorem quote_not_mem_text (ht : ∀ own p, t ≠ .property own p) : '"' ∉ t.text := by
  cases t with
  | property own p => exact absurd rfl (ht own p)
  | statement s =>
    intro hmem
    rcases List.mem_append.1 hmem with hmem | hmem
    · exact not_mem_of_all s.2 (by decide) hmem
    · exact absurd hmem (by decide)
  | opening head =>
    intro hmem
    rcases List.mem_append.1 hmem with hmem | hmem
    · exact not_mem_of_all head.2 (by decide) hmem
    · exact absurd hmem (by decide)
  | closing lead space =>
    have hlead : '"' ∉ lead.1 := not_mem_of_all lead.2 (by decide)
    have hspace : '"' ∉ space.1 := not_mem_of_all space.2 (by decide)
    simp [Token.text, hlead, hspace]

theorem Fresh.append_text {o : Text} (ht : ∀ own p, t ≠ .property own p) : Fresh (o ++ t.text) := by
  cases t with
  | property own p => exact absurd rfl (ht own p)
  | statement s =>
    rw [Token.text, ← List.append_assoc]
    exact Fresh.concat (by decide)
  | opening head =>
    rw [Token.text, ← List.append_assoc]
    exact Fresh.concat (by decide)
  | closing lead space =>
    have hsplit : o ++ (Token.closing lead space).text =
        (o ++ lead.1 ++ '\x7d' :: space.1) ++ [';'] := by
      simp [Token.text]
    rw [hsplit]
    exact Fresh.concat (by decide)

theorem quote_not_mem_shown (ht : ∀ own p, t ≠ .property own p) : '"' ∉ t.shown := by
  cases t with
  | property own p => exact absurd rfl (ht own p)
  | statement s => exact List.not_mem_nil
  | opening head => exact List.not_mem_nil
  | closing lead space => exact not_mem_of_all lead.2 (by decide)

theorem nextProperty_cons (ht : ∀ own p, t ≠ .property own p) :
    nextProperty (t :: l) = if t.ends then none else nextProperty l := by
  cases t with
  | property own p => exact absurd rfl (ht own p)
  | statement s => rfl
  | opening head => rfl
  | closing lead space => rfl

theorem ownAt_cons (ht : ∀ own p, t ≠ .property own p) (pos : ℕ) :
    ownAt pos (t :: l) = ownAt (pos + t.text.length) l := by
  cases t with
  | property own p => exact absurd rfl (ht own p)
  | statement s => rfl
  | opening head => rfl
  | closing lead space => rfl

/-- **From the value of one property to the next**: it is skipped, unless the two are misread. -/
theorem found_across {v o : Text} (hv : '"' ∉ v) (ho : '"' ∉ o) (htail : '"' ∉ tail) (pos : ℕ) :
    found pos (v ++ '"' :: (o ++ content tail l)) = ownAt (pos + v.length + 1 + o.length) l ↔
      (∀ q, nextProperty l = some q → ¬ (EndsWithKey v ∧ q.value.1.head? = some ';')) ∧
        found (pos + v.length + 1) (o ++ content tail l) = ownAt (pos + v.length + 1 + o.length) l := by
  induction l generalizing o with
  | nil =>
    have hs : '"' ∉ o ++ tail := by simp [ho, htail]
    rw [content, found_of_one hv hs, found_of_not_mem hs]
    simp [nextProperty]
  | cons t l ih =>
    rcases t.property_or with ht | ⟨own, q, rfl⟩
    · rw [nextProperty_cons ht, ownAt_cons ht, content]
      cases hends : t.ends with
      | true =>
        have hs : '"' ∉ o ++ t.shown := by simp [ho, quote_not_mem_shown ht]
        rw [if_pos rfl, if_pos rfl, found_of_one hv hs, found_of_not_mem hs]
        simp
      | false =>
        have ho' : '"' ∉ o ++ t.text := by simp [ho, quote_not_mem_text ht]
        have hnext := ih ho'
        rw [List.length_append, List.append_assoc, ← Nat.add_assoc] at hnext
        rw [if_neg Bool.false_ne_true, if_neg Bool.false_ne_true]
        exact hnext
    · obtain ⟨s, hs, hhead⟩ := @content_property tail l own q
      have ho' : '"' ∉ o ++ q.opening := by simp [ho, q.quote_not_mem_opening]
      have hquotes := found_quotes hv ho' pos s
      rw [hs, ← List.append_assoc]
      simp only [nextProperty, Option.some.injEq, forall_eq']
      by_cases hmisread : EndsWithKey v ∧ q.value.1.head? = some ';'
      · -- the match would end in the value of the second
        obtain ⟨key, hkey⟩ := Option.isSome_iff_exists.1 (keyOf_isSome_iff.2 hmisread.1)
        obtain ⟨t, ht⟩ := Option.isSome_iff_exists.1 (afterEnd_isSome_iff.2 (hhead.2 hmisread.2))
        refine iff_of_false (fun heq => ?_) fun h => h.1 hmisread
        rw [hquotes, hkey, ht] at heq
        have hmem : (pos + v.length + (o ++ q.opening).length + 3, key, o ++ q.opening) ∈
            ownAt (pos + v.length + 1 + o.length) (.property own q :: l) := by
          rw [← heq]
          exact List.mem_cons_self
        have hle := le_of_mem_ownAt hmem
        rw [Token.text, q.length_text, List.length_append] at hle
        omega
      · have hskip : found pos (v ++ '"' :: (o ++ q.opening ++ '"' :: s)) =
            found (pos + v.length + 1) (o ++ q.opening ++ '"' :: s) := by
          rw [hquotes]
          split
          · rename_i hkey ht
            refine absurd ⟨keyOf_isSome_iff.1 (by rw [hkey]; rfl),
              hhead.1 (afterEnd_isSome_iff.1 (by rw [ht]; rfl))⟩ hmisread
          · rfl
        rw [hskip]
        exact ⟨fun h => ⟨hmisread, h⟩, fun h => h.2⟩

/-- A property that is matched, and one that is not. -/
theorem found_property {o : Text} (ho : '"' ∉ o) (hfresh : Fresh o) (pos : ℕ) (s : Text) :
    (p.Matched → found pos (o ++ (p.text ++ s)) =
      (pos + o.length + p.text.length, p.word, p.value.1) :: found (pos + o.length + p.text.length) s) ∧
    (¬ p.Matched → found pos (o ++ (p.text ++ s)) =
      found (pos + (o ++ p.opening).length + 1)
        (p.value.1 ++ '"' :: (p.beforeEnd.1 ++ [';'] ++ s))) := by
  have hsplit : o ++ (p.text ++ s) = (o ++ p.opening) ++ '"' :: (p.value.1 ++ '"' ::
      (p.beforeEnd.1 ++ [';'] ++ s)) := by
    simp [StringProperty.text]
  have ho' : '"' ∉ o ++ p.opening := by simp [ho, p.quote_not_mem_opening]
  rw [hsplit, found_quotes ho' p.value.2, p.keyOf_opening hfresh]
  constructor
  · rintro ⟨hword, hend⟩
    have hpos : pos + (o ++ p.opening).length + p.value.1.length + 3 =
        pos + o.length + p.text.length := by
      rw [p.length_text, List.length_append, hend, List.length_nil]
      omega
    rw [if_neg hword, hend, hpos]
    rfl
  · intro hmatched
    by_cases hword : p.word = []
    · rw [if_pos hword]
    · obtain ⟨c, b, hend⟩ := List.exists_cons_of_ne_nil fun hend => hmatched ⟨hword, hend⟩
      have hc : isBlank c = true := List.all_eq_true.1 p.beforeEnd.2 c
        (by rw [hend]; exact List.mem_cons_self)
      have hnone : afterEnd (p.beforeEnd.1 ++ [';'] ++ s) = none := by
        rw [← Option.not_isSome_iff_eq_none, afterEnd_isSome_iff, hend]
        intro hhead
        obtain rfl : c = ';' := by simpa using hhead
        cases hc
      rw [if_neg hword, hnone]

/-- **A property of the root** is found where it is declared exactly if it is plain. -/
theorem found_own_iff {o : Text} (ho : '"' ∉ o) (hfresh : Fresh o) (pos : ℕ) (s : Text)
    (d : List (ℕ × Text × Text)) :
    found pos (o ++ (p.text ++ s)) = (pos + o.length + p.text.length, p.name.1, p.value.1) :: d ↔
      p.Plain ∧ found (pos + o.length + p.text.length) s = d := by
  obtain ⟨hmatch, hskip⟩ := found_property (p := p) ho hfresh pos s
  by_cases hm : p.Matched
  · rw [hmatch hm, List.cons.injEq, Prod.mk.injEq, Prod.mk.injEq, p.word_eq_name_iff]
    constructor
    · rintro ⟨⟨-, hname, -⟩, hd⟩
      exact ⟨⟨hname, hm.2⟩, hd⟩
    · rintro ⟨⟨hname, -⟩, hd⟩
      exact ⟨⟨rfl, hname, rfl⟩, hd⟩
  · rw [hskip hm]
    refine iff_of_false (fun heq => ?_) fun h => hm ?_
    · -- what is found next ends behind the declaration
      have hend : '"' ∉ p.beforeEnd.1 ++ [';'] := by
        simpa using not_mem_of_all p.beforeEnd.2 (by decide)
      have hone : (p.value.1 ++ '"' :: (p.beforeEnd.1 ++ [';'])).count '"' ≤ 1 := by
        rw [List.count_append, List.count_cons_self, List.count_eq_zero_of_not_mem p.value.2,
          List.count_eq_zero_of_not_mem hend]
      have hsplit : p.value.1 ++ '"' :: (p.beforeEnd.1 ++ [';'] ++ s) =
          (p.value.1 ++ '"' :: (p.beforeEnd.1 ++ [';'])) ++ s := by
        simp
      rw [hsplit] at heq
      have hlt := lt_of_found hone heq
      rw [p.length_text] at hlt
      simp only [List.length_append, List.length_cons, List.length_nil] at hlt
      omega
    · obtain ⟨hname, hnospace⟩ := h.1
      exact ⟨fun hword => p.name.2.1 (by rw [← p.word_eq_name_iff.2 hname, hword]), hnospace⟩

/-- **A nested property** is not found, nor what reaches from its value to the next, exactly if it
    is not matched and the two are not misread. -/
theorem found_nested_iff {o : Text} (ho : '"' ∉ o) (hfresh : Fresh o) (htail : '"' ∉ tail) (pos : ℕ) :
    found pos (o ++ (p.text ++ content tail l)) = ownAt (pos + o.length + p.text.length) l ↔
      ¬ p.Matched ∧ (∀ q, nextProperty l = some q → ¬ Misread p q) ∧
      found (pos + (o ++ p.opening).length + 1 + p.value.1.length + 1)
        (p.beforeEnd.1 ++ [';'] ++ content tail l) =
      ownAt (pos + o.length + p.text.length) l := by
  obtain ⟨hmatch, hskip⟩ := found_property (p := p) ho hfresh pos (content tail l)
  by_cases hm : p.Matched
  · rw [hmatch hm]
    refine iff_of_false (fun heq => ?_) fun h => h.1 hm
    exact absurd (lt_of_mem_ownAt (heq ▸ List.mem_cons_self)) (lt_irrefl _)
  · have hend : '"' ∉ p.beforeEnd.1 ++ [';'] := by
      simpa using not_mem_of_all p.beforeEnd.2 (by decide)
    have hpos : pos + (o ++ p.opening).length + 1 + p.value.1.length + 1 +
        (p.beforeEnd.1 ++ [';']).length = pos + o.length + p.text.length := by
      rw [p.length_text, List.length_append, List.length_append, List.length_singleton]
      omega
    have hacross := found_across (l := l) p.value.2 hend htail (pos + (o ++ p.opening).length + 1)
    rw [hpos] at hacross
    rw [hskip hm, hacross]
    exact ⟨fun h => ⟨hm, h⟩, fun h => h.2⟩

/-- **What is found in the tokens** is what is declared for the root, exactly if they are
    legible. -/
theorem found_content_iff {o : Text} (ho : '"' ∉ o) (hfresh : Fresh o) (htail : '"' ∉ tail)
    (pos : ℕ) : found pos (o ++ content tail l) = ownAt (pos + o.length) l ↔ Legible l := by
  induction l generalizing o pos with
  | nil =>
    have hs : '"' ∉ o ++ tail := by simp [ho, htail]
    rw [content, found_of_not_mem hs]
    exact iff_of_true rfl legible_nil
  | cons t l ih =>
    rw [content]
    cases hends : t.ends with
    | true =>
      -- nothing more is found
      have hnil : found pos (o ++ t.shown) = [] := by
        rcases t.property_or with ht | ⟨own, p, rfl⟩
        · exact found_of_not_mem (by simp [ho, quote_not_mem_shown ht]) pos
        · rw [Token.shown, ← List.append_assoc]
          exact found_of_one (by simp [ho, p.quote_not_mem_opening])
            (quote_not_mem_upToEnd p.value.2) pos
      rw [if_pos rfl, hnil, legible_cons_of_ends hends, ← ownAt_eq_nil_iff]
      exact eq_comm
    | false =>
      rw [if_neg Bool.false_ne_true, legible_cons hends]
      rcases t.property_or with ht | ⟨own, p, rfl⟩
      · have ho' : '"' ∉ o ++ t.text := by simp [ho, quote_not_mem_text ht]
        have hnext := ih ho' (Fresh.append_text ht) pos
        rw [List.length_append, List.append_assoc, ← Nat.add_assoc] at hnext
        rw [ownAt_cons ht, hnext]
        exact ⟨fun h => ⟨fun p hp => absurd hp (ht true p), fun p hp => absurd hp (ht false p), h⟩,
          fun h => h.2.2⟩
      · cases own with
        | true =>
          have hrest := ih (o := []) List.not_mem_nil (by simp [Fresh])
            (pos + o.length + p.text.length)
          rw [List.nil_append, List.length_nil, Nat.add_zero] at hrest
          have hown : ownAt (pos + o.length) (.property true p :: l) =
              (pos + o.length + p.text.length, p.name.1, p.value.1) ::
                ownAt (pos + o.length + p.text.length) l := rfl
          rw [Token.text, hown, found_own_iff ho hfresh, hrest]
          constructor
          · rintro ⟨hplain, hl⟩
            refine ⟨fun q hq => ?_, (by rintro q ⟨⟩), hl⟩
            cases hq
            exact hplain
          · rintro ⟨hplain, -, hl⟩
            exact ⟨hplain p rfl, hl⟩
        | false =>
          have hend : '"' ∉ p.beforeEnd.1 ++ [';'] := by
            simpa using not_mem_of_all p.beforeEnd.2 (by decide)
          have hrest := ih hend (Fresh.concat (by decide))
            (pos + (o ++ p.opening).length + 1 + p.value.1.length + 1)
          have hpos : pos + (o ++ p.opening).length + 1 + p.value.1.length + 1 +
              (p.beforeEnd.1 ++ [';']).length = pos + o.length + p.text.length := by
            rw [p.length_text, List.length_append, List.length_append, List.length_singleton]
            omega
          rw [hpos] at hrest
          have hown : ownAt (pos + o.length) (.property false p :: l) =
              ownAt (pos + o.length + p.text.length) l := rfl
          rw [Token.text, hown, found_nested_iff ho hfresh htail, hrest]
          constructor
          · rintro ⟨hm, hfree, hl⟩
            refine ⟨(by rintro q ⟨⟩), fun q hq => ?_, hl⟩
            cases hq
            exact ⟨hm, hfree⟩
          · rintro ⟨-, hfree, hl⟩
            exact ⟨(hfree p rfl).1, (hfree p rfl).2, hl⟩

end

namespace Source
variable (src : Source)

theorem rootContent_text : rootContent src.text = content src.lead.1 (src.body.tokens true) := by
  have hend : blockEnd <:+: src.body.text ++ src.lead.1 ++ blockEnd ++ src.after := ⟨_, _, rfl⟩
  rw [text, rootContent_eq src.not_header hend, text_eq_flatMap src.body true, List.append_assoc,
    List.append_assoc]
  exact upToEnd_tokens src.lead.2 _ _

/-- What is found is what the root declares, where it does; so that this is what is added to the
    root. -/
def ReadsOwn : Prop :=
  found 0 (rootContent src.text) = src.body.declared 0 ∧
  ∀ root, parseDTS src.text root =
    (true, (src.body.declared 0).foldl (fun m d => m.addProperty d.2.1 d.2.2) root)

end Source

theorem parseDTS_found (dtsContent : Text) (root : Properties) :
    parseDTS dtsContent root =
      (true, (found 0 (rootContent dtsContent)).foldl (fun m d => m.addProperty d.2.1 d.2.2) root) := by
  have hparse : parseDTS dtsContent root =
      (true, (readProperties (rootContent dtsContent).length (rootContent dtsContent)).foldl
        (fun m e => m.addProperty e.1 e.2) root) := by
    unfold parseDTS rootContent
    split
    · rfl
    · split <;> rfl
  rw [hparse, found, ← map_foundFrom, List.foldl_map]

/-- **The properties that are read are those of the root**, exactly if its body is legible. -/
theorem readsOwn_iff (src : Source) : src.ReadsOwn ↔ Legible (src.body.tokens true) := by
  have htail : '"' ∉ src.lead.1 := not_mem_of_all src.lead.2 (by decide)
  have hfound := found_content_iff (l := src.body.tokens true) (o := []) List.not_mem_nil
    (by simp [Fresh]) htail 0
  rw [List.nil_append, ← src.rootContent_text, List.length_nil, ← declared_eq_ownAt] at hfound
  rw [← hfound, Source.ReadsOwn]
  refine ⟨fun h => h.1, fun h => ⟨h, fun root => ?_⟩⟩
  rw [parseDTS_found, h]

/-- A blank between tokens. -/
def blank : Blanks := ⟨[' '], rfl⟩

/-- `/ { part-id = "A1"; cpu@0 { label = "cpu"; }; model = "X"; };` -/
def board : Source where
  before := "/dts-v1/;".toList
  not_header := by decide
  body := .property ⟨blank, ⟨"part-id".toList, by decide⟩, blank, blank,
    ⟨"A1".toList, by decide⟩, ⟨[], rfl⟩⟩
    (.node ⟨" cpu@0 ".toList, by decide⟩
      (.property ⟨blank, ⟨"label".toList, by decide⟩, blank, blank, ⟨"cpu".toList, by decide⟩,
        ⟨[], rfl⟩⟩ .nil)
      blank ⟨[], rfl⟩
      (.property ⟨blank, ⟨"model".toList, by decide⟩, blank, blank, ⟨"X".toList, by decide⟩,
        ⟨[], rfl⟩⟩ .nil))
  lead := blank
  after := []

/-- The id of the part is found under the end of its name, the label in another node, and the
    model is not found, since it stands behind the end of that node. -/
theorem board_misread :
    board.text = "/dts-v1/;".toList ++ header ++ " part-id = \"A1\";".toList ++
      " cpu@0 \x7b label = \"cpu\"; \x7d; model = \"X\"; ".toList ++ blockEnd ∧
    (board.body.declared 0).map Prod.snd =
      [("part-id".toList, "A1".toList), ("model".toList, "X".toList)] ∧
    (parseDTS board.text .empty).2.entries =
      [("id".toList, "A1".toList), ("label".toList, "cpu".toList)] ∧
    ¬ board.ReadsOwn := by
  refine ⟨by decide, by decide, by decide, fun h => absurd h.1 (by decide)⟩

end PocketDarwin.DeviceBundle
