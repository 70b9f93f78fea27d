/-
  How the scanner reads on: the position it goes on at and the pieces it has
  read up to there.

  `Reads n d cs ps rest` says that a scan of a text of length `n`, at depth `d`
  and at the position `cs`, reads the pieces `ps` and then goes on as it would
  at `rest`.  Trivia may be split off anywhere (`Reads.gap`), so the relation
  composes along the grammar although an iteration reads the trivia in front of
  a token together with the token.

  The rest of the module is about one declaration: where its name is
  (`NameAt`), what the scanner does with it, and what becomes of its label.
  A label is recognised at the start of the text only (`nameStart_labelled`);
  anywhere else it is copied (`label_reads`).
-/
import PocketDarwin.PatchDtc.Lossless
import PocketDarwin.PatchDtc.Readers

namespace PocketDarwin.PatchDtc

/-! ## Reading on -/

section
variable {σ : Type} (cb : ScanCallbacks σ)

/-- The output and the callbacks' state at the end of a scan that goes on at
    `cs`. -/
def scanFrom (n d : ℕ) (cs : Text) (s : σ) : Text × σ :=
  let r := scanSteps cb cs.length ⟨n, cs, d, []⟩ s
  (r.1.out, r.2)

theorem scanDts_eq_scanFrom (text : Text) (s : σ) :
    scanDts cb text s = scanFrom cb text.length 0 text s := rfl

theorem scanSteps_idle (k : ℕ) (st : DTSState) (s : σ) (h : st.rest = []) :
    scanSteps cb k st s = (st, s) := by
  induction k with
  | zero => rfl
  | succ k ih => rw [scanSteps, scanStep, if_pos h, ih]

theorem scanSteps_add (j k : ℕ) (st : DTSState) (s : σ) :
    scanSteps cb (j + k) st s = scanSteps cb k (scanSteps cb j st s).1 (scanSteps cb j st s).2 := by
  induction j generalizing st s with
  | zero => simp [scanSteps]
  | succ j ih => rw [Nat.succ_add, scanSteps, ih, scanSteps]

/-- As many iterations as there are characters are enough. -/
theorem scanSteps_enough {n d k : ℕ} {cs : Text} (h : cs.length ≤ k) (out : Text) (s : σ) :
    scanSteps cb k ⟨n, cs, d, out⟩ s = scanSteps cb cs.length ⟨n, cs, d, out⟩ s := by
  obtain ⟨j, rfl⟩ := Nat.exists_eq_add_of_le h
  obtain ⟨ps, rest, -, hle, hrun⟩ := scanSteps_accounts n cs.length d cs
  obtain rfl : rest = [] := List.length_eq_zero_iff.1 (by omega)
  rw [scanSteps_add, scanSteps_idle]
  rw [hrun]

theorem scanSteps_out (k n d : ℕ) (cs out : Text) (s : σ) :
    (scanSteps cb k ⟨n, cs, d, out⟩ s).1.out = out ++ (scanSteps cb k ⟨n, cs, d, []⟩ s).1.out ∧
      (scanSteps cb k ⟨n, cs, d, out⟩ s).2 = (scanSteps cb k ⟨n, cs, d, []⟩ s).2 := by
  obtain ⟨ps, rest, -, -, hrun⟩ := scanSteps_accounts n k d cs
  rw [hrun, hrun]
  exact ⟨rfl, rfl⟩

@[simp] theorem scanFrom_nil (n d : ℕ) (s : σ) : scanFrom cb n d [] s = ([], s) := rfl

end

/-- A scan at `cs` reads `ps` and goes on at `rest`. -/
def Reads (n d : ℕ) (cs : Text) (ps : List Piece) (rest : Text) : Prop :=
  ∀ (σ : Type) (cb : ScanCallbacks σ) (s : σ), scanFrom cb n d cs s =
    ((replay cb s ps).1 ++ (scanFrom cb n (depthAfter d ps) rest (replay cb s ps).2).1,
      (scanFrom cb n (depthAfter d ps) rest (replay cb s ps).2).2)

/-- What is accounted for by one iteration is read. -/
theorem Accounts.reads {n d : ℕ} {cs rest : Text} {ps : List Piece}
    (h : Accounts n d cs (fun _ cb st s => scanStep cb st s) ps rest) : Reads n d cs ps rest := by
  intro σ cb s
  obtain ⟨k, hk⟩ := Nat.exists_eq_add_of_lt h.progress
  have hrun := h.run σ cb [] s
  rw [scanFrom, show cs.length = (rest.length + k) + 1 from hk, scanSteps, hrun,
    scanSteps_enough cb (Nat.le_add_right _ _)]
  have ho := scanSteps_out cb rest.length n (depthAfter d ps) rest ([] ++ (replay cb s ps).1)
    (replay cb s ps).2
  simp only [List.nil_append] at ho ⊢
  rw [ho.1, ho.2]
  rfl

namespace Reads
variable {n d : ℕ} {cs mid rest : Text} {ps qs : List Piece}

theorem refl : Reads n d cs [] cs := fun σ cb s => by simp

theorem trans (h₁ : Reads n d cs ps mid) (h₂ : Reads n (depthAfter d ps) mid qs rest) :
    Reads n d cs (ps ++ qs) rest := by
  intro σ cb s
  rw [h₁ σ cb s, h₂ σ cb, replay_append, depthAfter_append]
  simp

/-- Two texts that are copied one after the other are copied as one. -/
theorem join {a b : Text} (h : Reads n d cs (.raw a :: .raw b :: ps) rest) :
    Reads n d cs (.raw (a ++ b) :: ps) rest := by
  intro σ cb s
  rw [h σ cb s]
  simp [Piece.emit, Piece.depth]

/-- A scan that is about to copy `w` and go on at `rest` goes on at whatever
    copies the rest of `w`. -/
theorem split {a b : Text} (h : Reads n d cs [.raw (a ++ b)] rest) (hm : Reads n d mid [.raw b] rest) :
    Reads n d cs [.raw a] mid := by
  intro σ cb s
  have h' := h σ cb s
  have hm' := hm σ cb s
  simp only [replay_cons, replay_nil, Piece.emit, depthAfter_cons, depthAfter_nil, Piece.depth,
    List.append_nil] at h' hm' ⊢
  rw [h', hm', List.append_assoc]

end Reads

/-! ## Trivia -/

theorem skipTrivia_skipTrivia (cs : Text) : skipTrivia (skipTrivia cs) = skipTrivia cs := by
  fun_induction skipTrivia cs with
  | case1 => simp [skipTrivia]
  | case2 | case3 | case4 => assumption
  | case5 c cs h₁ h₂ h => rw [skipTrivia, if_neg h] <;> assumption

theorem scanStep_trivia {n d : ℕ} {cs : Text} (h : skipTrivia cs ≠ []) {σ : Type}
    (cb : ScanCallbacks σ) (out : Text) (s : σ) :
    scanStep cb ⟨n, cs, d, out⟩ s =
      scanStep cb ⟨n, skipTrivia cs, d, out ++ slice cs (skipTrivia cs)⟩ s := by
  have hcs : cs ≠ [] := by
    rintro rfl
    exact h (by simp [skipTrivia])
  unfold scanStep
  rw [if_neg hcs, if_neg h]
  simp only [skipTrivia_skipTrivia, slice_self, List.append_nil]

/-- The trivia at a position is copied. -/
theorem Reads.skip (n d : ℕ) (cs : Text) :
    Reads n d cs [.raw (slice cs (skipTrivia cs))] (skipTrivia cs) := by
  by_cases hcs : cs = []
  · subst hcs
    intro σ cb s
    simp [skipTrivia, Piece.emit]
  by_cases h : skipTrivia cs = []
  · rw [h, slice_nil]
    refine Accounts.reads ⟨by simp [Piece.span], List.length_pos_iff.2 hcs, fun σ cb out s => ?_⟩
    simp [scanStep, hcs, h, Piece.emit, Piece.depth]
  · obtain ⟨ps, rest, ha⟩ := scanStep_accounts n d _ h
    have hb := ha.trivia (skipTrivia_suffix cs)
      (g := fun _ cb st s => scanStep cb st s) fun σ cb out s => scanStep_trivia h cb out s
    intro σ cb s
    rw [hb.reads σ cb s]
    simp only [replay_cons, replay_nil, Piece.emit, depthAfter_cons, depthAfter_nil, Piece.depth,
      List.append_nil]
    rw [ha.reads σ cb s, List.append_assoc]

/-- **A gap is copied.** -/
theorem Reads.gap (n d : ℕ) (g : Gap) (r : Text) : Reads n d (g.text ++ r) [.raw g.text] r := by
  refine .split (b := slice r (skipTrivia r)) ?_ (Reads.skip n d r)
  have h := Reads.skip n d (g.text ++ r)
  rw [skipTrivia_gap] at h
  rwa [append_slice (skipTrivia_suffix r)] at h

/-! ## One declaration -/

/-- The declaration at `start` has the name `nm`, and `w` behind it. -/
structure NameAt (n : ℕ) (start nm w : Text) : Prop where
  eq : nameStart n start = nm ++ w
  nonempty : nm ≠ []
  chars : ∀ c ∈ nm, isNameChar c
  stop : ∀ c ∈ w.head?, ¬ isNameChar c

/-- The scanner takes `start` for a declaration. -/
def Declares (start : Text) : Prop :=
  ∃ c tl, start = c :: tl ∧ isFirm c ∧ c ≠ '}' ∧ c ≠ '&'

theorem scanStep_declares {n d : ℕ} {start : Text} (h : Declares start) {σ : Type}
    (cb : ScanCallbacks σ) (out : Text) (s : σ) :
    scanStep cb ⟨n, start, d, out⟩ s = declaration cb ⟨n, start, d, out⟩ start s := by
  obtain ⟨c, tl, rfl, hc, h₁, h₂⟩ := h
  have h₃ : c ≠ '/' := by
    rintro rfl
    exact absurd hc (by decide)
  simp only [scanStep, skipTrivia_firm hc, slice_self, List.append_nil, reduceCtorEq, if_false]
  split <;> simp_all

namespace NameAt
variable {n d : ℕ} {start nm w r pre : Text}

theorem takeWhile (h : NameAt n start nm w) : (nameStart n start).takeWhile isNameChar = nm := by
  rw [h.eq]
  exact takeWhile_run h.chars h.stop

theorem dropWhile (h : NameAt n start nm w) : (nameStart n start).dropWhile isNameChar = w := by
  rw [h.eq]
  exact dropWhile_run h.chars h.stop

theorem opens (h : NameAt n start nm w) (hs : Declares start) (hr : skipTrivia w = '{' :: r)
    (he : start = pre ++ '{' :: r) (hf : ¬ (d = 0 ∧ nm ∈ fixupNodeNames)) :
    Reads n d start [.nodeOpen nm pre, .raw ['{']] r := by
  refine Accounts.reads ⟨by simp [Piece.span, he], by simp [he]; omega, fun σ cb out s => ?_⟩
  rw [scanStep_declares hs]
  simp only [declaration, h.takeWhile, h.dropWhile, hr, if_neg h.nonempty, if_neg hf]
  rw [show slice start ('{' :: r) = pre by rw [he, slice_append]]
  simp [Piece.emit, Piece.depth]

theorem fixes (h : NameAt n start nm w) (hs : Declares start) (hr : skipTrivia w = '{' :: r)
    (he : start = pre ++ fixupEnd r) (hne : pre ≠ []) (hf : d = 0 ∧ nm ∈ fixupNodeNames) :
    Reads n d start [.fixup nm pre] (fixupEnd r) := by
  refine Accounts.reads ⟨by simp [Piece.span, he], he ▸ length_lt_append hne _, fun σ cb out s => ?_⟩
  rw [scanStep_declares hs]
  simp only [declaration, h.takeWhile, h.dropWhile, hr, if_neg h.nonempty, if_pos hf, fixupSubtree]
  rw [show slice start (fixupEnd r) = pre by rw [he, slice_append]]
  simp [Piece.emit, Piece.depth]

theorem assigns (h : NameAt n start nm w) (hs : Declares start) {x : Text}
    (hr : skipTrivia w = '=' :: x) (hx : readUntilSemicolon ('=' :: x) = r)
    (he : start = pre ++ r) (hne : pre ≠ []) : Reads n d start [.property nm pre] r := by
  refine Accounts.reads ⟨by simp [Piece.span, he], he ▸ length_lt_append hne _, fun σ cb out s => ?_⟩
  rw [scanStep_declares hs]
  simp only [declaration, h.takeWhile, h.dropWhile, hr, if_neg h.nonempty, hx]
  rw [show slice start r = pre by rw [he, slice_append]]
  simp [Piece.emit, Piece.depth]

theorem flags (h : NameAt n start nm w) (hs : Declares start) (hr : skipTrivia w = ';' :: r)
    (he : start = pre ++ r) (hne : pre ≠ []) : Reads n d start [.property nm pre] r := by
  refine Accounts.reads ⟨by simp [Piece.span, he], he ▸ length_lt_append hne _, fun σ cb out s => ?_⟩
  rw [scanStep_declares hs]
  simp only [declaration, h.takeWhile, h.dropWhile, hr, if_neg h.nonempty]
  rw [show slice start r = pre by rw [he, slice_append]]
  simp [Piece.emit, Piece.depth]

/-- A name with nothing behind it that makes a declaration of it is copied. -/
theorem copies (h : NameAt n start nm w) (hs : Declares start) (hr : skipTrivia w = r)
    (h₁ : ∀ c ∈ r.head?, c ≠ '{' ∧ c ≠ '=' ∧ c ≠ ';') (he : start = pre ++ r) (hne : pre ≠ []) :
    Reads n d start [.raw pre] r := by
  refine Accounts.reads ⟨by simp [Piece.span, he], he ▸ length_lt_append hne _, fun σ cb out s => ?_⟩
  rw [scanStep_declares hs]
  simp only [declaration, h.takeWhile, h.dropWhile, hr, if_neg h.nonempty]
  rw [show slice start r = pre by rw [he, slice_append]]
  split
  · simp at h₁
  · simp at h₁
  · simp at h₁
  · simp [Piece.emit, Piece.depth]

end NameAt

/-! ## Names and labels -/

theorem declChar_name (c : Char) (h : isDeclChar c) : isNameChar c := by
  simp only [isDeclChar, Bool.or_eq_true, beq_iff_eq] at h
  rcases h with ((((((((h | rfl) | rfl) | rfl) | rfl) | rfl) | rfl) | rfl) | rfl) | rfl
  · simp [isNameChar, h]
  all_goals decide

theorem isAlphanum_eq (c : Char) : c.isAlphanum =
    (decide (c.val ≥ 'A'.val ∧ c.val ≤ 'Z'.val) ||
      (decide (c.val ≥ 'a'.val) && decide (c.val ≤ 'z'.val)) ||
      (decide (c.val ≥ '0'.val) && decide (c.val ≤ '9'.val))) := rfl

theorem declChar_range {c : Char} (h : isDeclChar c) : 33 ≤ c.toNat ∧ c.toNat ≤ 122 := by
  simp only [isDeclChar, Bool.or_eq_true, beq_iff_eq] at h
  rcases h with ((((((((h | rfl) | rfl) | rfl) | rfl) | rfl) | rfl) | rfl) | rfl) | rfl
  · simp [isAlphanum_eq, UInt32.le_iff_toNat_le] at h
    omega
  all_goals decide

theorem declChar_not_space (c : Char) (h : isDeclChar c) : isSpace c = false := by
  have hr := declChar_range h
  rw [Bool.eq_false_iff]
  intro hs
  simp [isSpace, Char.le_def, UInt32.le_iff_toNat_le] at hs
  rcases hs with (((((((((h | h) | rfl) | rfl) | rfl) | h) | rfl) | rfl) | rfl) | rfl) | rfl
  all_goals first | omega | (revert hr; decide)

theorem dropWhile_keeps {p : Char → Bool} (u : Text) {z : Char} (v : Text) (hz : ¬ p z) :
    ∃ u', u' <:+ u ∧ (u ++ z :: v).dropWhile p = u' ++ z :: v := by
  induction u with
  | nil => exact ⟨[], List.suffix_rfl, by simp [hz]⟩
  | cons c u ih =>
    by_cases hc : p c
    · obtain ⟨u', hu', he⟩ := ih
      exact ⟨u', hu'.trans (List.suffix_cons c u), by simpa [hc] using he⟩
    · exact ⟨c :: u, List.suffix_rfl, by simp [hc]⟩

/-- No label starts where something else stands in front of the first colon. -/
theorem labelMatch_none (n : ℕ) {u : Text} {z : Char} (v : Text) (hu : ':' ∉ u) (h₁ : ¬ isIdentChar z)
    (h₂ : ¬ isSpace z) (h₃ : z ≠ ':') : labelMatch n (u ++ z :: v) = none := by
  have key : ∀ w : Text, ':' ∉ w → ∀ r,
      ((w ++ z :: v).dropWhile isIdentChar).dropWhile isSpace ≠ ':' :: r := by
    intro w hw r he
    obtain ⟨w₁, hw₁, he₁⟩ := dropWhile_keeps w v h₁
    obtain ⟨w₂, hw₂, he₂⟩ := dropWhile_keeps w₁ v h₂
    rw [he₁, he₂] at he
    cases w₂ with
    | nil => exact h₃ (List.cons.inj he).1
    | cons c w₂ =>
      obtain ⟨rfl, -⟩ := List.cons.inj he
      exact hw ((hw₂.trans hw₁).subset (by simp))
  unfold labelMatch
  split_ifs
  · cases u with
    | nil =>
      have h₄ : ¬ isIdentStart z := fun h => h₁ (identStart_char z h)
      simp [h₄]
    | cons c u =>
      simp only [List.cons_append]
      split_ifs
      · have hk := key u (fun h => hu (by simp [h]))
        split
        · exact absurd ‹_› (hk _)
        · rfl
      · rfl
  · rfl
theorem blank_space (c : Char) (h : isBlank c) : isSpace c := by
  simp only [isBlank, Bool.or_eq_true, beq_iff_eq] at h
  rcases h with ((rfl | rfl) | rfl) | rfl <;> decide

theorem nameStart_later {n : ℕ} {start : Text} (h : start.length < n) : nameStart n start = start := by
  simp [nameStart, labelMatch, show start.length ≠ n by omega]

theorem nameStart_none {n : ℕ} {start : Text} (h : labelMatch n start = none) :
    nameStart n start = start := by
  rw [nameStart, h]

/-- White space, then the first character behind it. -/
theorem Gap.cut (g : Gap) (x : Char) (r : Text) :
    ∃ u z v, g.text ++ x :: r = u ++ z :: v ∧ (∀ c ∈ u, isBlank c) ∧
      (z = '/' ∨ (g.bare ∧ u = g.text ∧ z = x)) := by
  induction g with
  | nil => exact ⟨[], x, r, rfl, by simp, .inr ⟨rfl, rfl, rfl⟩⟩
  | cons t g ih =>
    cases t with
    | blank c h =>
      obtain ⟨u, z, v, he, hu, hz⟩ := ih
      refine ⟨c :: u, z, v, ?_, ?_, ?_⟩
      · simpa [Gap.text, Triv.text] using he
      · intro c' hc'
        rcases List.mem_cons.1 hc' with rfl | hc'
        · exact h
        · exact hu c' hc'
      · rcases hz with hz | ⟨hb, rfl, rfl⟩
        · exact .inl hz
        · exact .inr ⟨by simpa [Gap.bare, Triv.isBlankTriv] using hb, rfl, rfl⟩
    | comment c =>
      refine ⟨[], '/', c.text.tail ++ (Gap.text g ++ x :: r), ?_, by simp, .inl rfl⟩
      cases c <;> simp [Gap.text, Triv.text, Comment.text]

/-- A declaration without a label, at any position, starts with its name. -/
theorem nameStart_bare (n : ℕ) {nm : Text} (hnm : ∀ c ∈ nm, isDeclChar c) (g : Gap) {x : Char}
    (r : Text) (h₁ : ¬ isIdentChar x) (h₂ : ¬ isSpace x) (h₃ : x ≠ ':') :
    nameStart n (nm ++ (g.text ++ x :: r)) = nm ++ (g.text ++ x :: r) := by
  obtain ⟨u, z, v, he, hu, hz⟩ := g.cut x r
  have hnu : ':' ∉ nm ++ u := by
    intro h
    rcases List.mem_append.1 h with h | h
    · exact absurd (hnm _ h) (by decide)
    · exact absurd (hu _ h) (by decide)
  refine nameStart_none ?_
  rw [he, ← List.append_assoc]
  rcases hz with rfl | ⟨-, -, rfl⟩
  · exact labelMatch_none n v hnu (by decide) (by decide) (by decide)
  · exact labelMatch_none n v hnu h₁ h₂ h₃

/-- A text that starts with the name of a declaration. -/
def StartsDecl (own : Text) : Prop := ∃ c tl, own = c :: tl ∧ isDeclChar c

theorem StartsDecl.declares {own : Text} (h : StartsDecl own) : Declares own := by
  obtain ⟨c, tl, rfl, hc⟩ := h
  refine ⟨c, tl, rfl, ?_, ne_of_class hc (by decide), ne_of_class hc (by decide)⟩
  have h₁ : isBlank c = false := by
    rw [Bool.eq_false_iff]
    intro hb
    exact absurd (blank_space c hb) (by simp [declChar_not_space c hc])
  simp [isFirm, h₁, ne_of_class hc (x := '/') (by decide)]

theorem StartsDecl.skipTrivia {own : Text} (h : StartsDecl own) : skipTrivia own = own := by
  obtain ⟨c, tl, rfl, hc, -, -⟩ := h.declares
  exact skipTrivia_firm hc tl

theorem Label.startsDecl (l : Label) (own : Text) : StartsDecl (l.text ++ own) :=
  ⟨l.name.head, _, rfl, identChar_decl _ (identStart_char _ l.name.isStart)⟩

theorem Name.startsDecl (nm : Name) (r : Text) : StartsDecl (nm.text ++ r) := by
  have hne := nm.nonempty
  have hch := nm.chars
  cases h : nm.text with
  | nil => exact absurd h hne
  | cons c tl => exact ⟨c, tl ++ r, rfl, hch c (by simp [h])⟩

/-- Behind the colon of a label. -/
theorem skipTrivia_space {own : Text} (h : StartsDecl own) (g : Gap) :
    PatchDtc.skipTrivia ((g.text ++ own).dropWhile isSpace) = own := by
  induction g with
  | nil =>
    obtain ⟨c, tl, rfl, hc⟩ := h
    have : (c :: tl).dropWhile isSpace = c :: tl := by simp [declChar_not_space c hc]
    simp only [Gap.text, List.flatMap_nil, List.nil_append, this]
    exact StartsDecl.skipTrivia ⟨c, tl, rfl, hc⟩
  | cons t g ih =>
    cases t with
    | blank c hb => simpa [Gap.text, Triv.text, blank_space c hb] using ih
    | comment c =>
      have : (Gap.text (.comment c :: g) ++ own).dropWhile isSpace = Gap.text (.comment c :: g)
          ++ own := by
        cases c <;> simp [Gap.text, Triv.text, Comment.text, show isSpace '/' = false by decide]
      rw [this, skipTrivia_gap, h.skipTrivia]

/-- **At the start of the text a label is recognised**, if no comment stands in
    front of its colon. -/
theorem nameStart_labelled {n : ℕ} {l : Label} {own : Text} (h : StartsDecl own) (hb : l.before.bare)
    (hlen : (l.text ++ own).length = n) : nameStart n (l.text ++ own) = own := by
  have hbefore : ∀ c ∈ l.before.text, isSpace c := by
    intro c hc
    obtain ⟨t, ht, hct⟩ := List.mem_flatMap.1 hc
    cases t with
    | blank c' hc' =>
      obtain rfl : c = c' := by simpa [Triv.text] using hct
      exact blank_space c hc'
    | comment c' => exact absurd (List.all_eq_true.1 hb _ ht) (by simp [Triv.isBlankTriv])
  have h₁ : (l.name.tail ++ (l.before.text ++ ':' :: (l.after.text ++ own))).dropWhile isIdentChar =
      l.before.text ++ ':' :: (l.after.text ++ own) := by
    refine dropWhile_run l.name.isTail fun c hc hi => ?_
    cases hg : l.before.text with
    | nil =>
      obtain rfl : ':' = c := by simpa [hg] using hc
      exact absurd hi (by decide)
    | cons c' tl =>
      obtain rfl : c' = c := by simpa [hg] using hc
      have := hbefore c' (by simp [hg])
      simp [declChar_not_space c' (identChar_decl c' hi)] at this
  have h₂ : (l.before.text ++ ':' :: (l.after.text ++ own)).dropWhile isSpace =
      ':' :: (l.after.text ++ own) :=
    dropWhile_run hbefore (by simp; decide)
  have he : l.text ++ own =
      l.name.head :: (l.name.tail ++ (l.before.text ++ ':' :: (l.after.text ++ own))) := by
    simp [Label.text, Ident.text]
  have hm : labelMatch n (l.text ++ own) = some ((l.after.text ++ own).dropWhile isSpace) := by
    unfold labelMatch
    rw [if_pos hlen, he]
    simp only [l.name.isStart, if_true, h₁, h₂]
  rw [nameStart, hm]
  exact skipTrivia_space h _

/-- With a comment in front of its colon it is not recognised. -/
theorem nameStart_comment (n : ℕ) {l : Label} (own : Text) (hb : l.before.bare = false) :
    nameStart n (l.text ++ own) = l.text ++ own := by
  obtain ⟨u, z, v, he, hu, hz⟩ := l.before.cut ':' (l.after.text ++ own)
  have hz : z = '/' := by
    rcases hz with hz | ⟨hb', -⟩
    · exact hz
    · simp [hb] at hb'
  subst hz
  refine nameStart_none ?_
  rw [show l.text ++ own = (l.name.text ++ u) ++ '/' :: v by simp [Label.text, ← he]]
  refine labelMatch_none n v (fun h => ?_) (by decide) (by decide) (by decide)
  rcases List.mem_append.1 h with h | h
  · exact absurd (l.name.decl _ h) (by decide)
  · exact absurd (hu _ h) (by decide)

theorem Gap.blank_of_spaced {g : Gap} (h : g.spaced) (r : Text) :
    ∃ c tl, g.text ++ r = c :: tl ∧ isBlank c := by
  rcases g with _ | ⟨t | c, g⟩
  · simp [Gap.spaced] at h
  · exact ⟨_, Gap.text g ++ r, rfl, ‹_›⟩
  · simp [Gap.spaced] at h

theorem blank_not_name (c : Char) (h : isBlank c) : ¬ isNameChar c := by
  simp only [isBlank, Bool.or_eq_true, beq_iff_eq] at h
  rcases h with ((rfl | rfl) | rfl) | rfl <;> decide

theorem blank_not_decl (c : Char) (h : isBlank c) : ¬ isDeclChar c :=
  fun hd => blank_not_name c h (declChar_name c hd)

/-- A gap that is set off ends the run in front of it, if what is behind does. -/
theorem Gap.stops {p : Char → Bool} (hp : ∀ c, isBlank c → ¬ p c) {g : Gap} (h : g.setOff) {r : Text}
    (hr : ∀ c ∈ r.head?, ¬ p c) : ∀ c ∈ (g.text ++ r).head?, ¬ p c := by
  rcases g with _ | ⟨t | c, g⟩
  · exact hr
  · rename_i hb
    intro c hc
    obtain rfl : _ = c := by simpa [Gap.text, Triv.text] using hc
    exact hp _ hb
  · simp [Gap.setOff, Gap.spaced] at h

theorem Gap.setOff_of_spaced {g : Gap} (h : g.spaced) : g.setOff := by
  rcases g with _ | ⟨t | c, g⟩ <;> simp_all [Gap.setOff, Gap.spaced]

theorem Gap.stops_of_spaced {g : Gap} (h : g.spaced) (r : Text) :
    ∀ c ∈ (g.text ++ r).head?, ¬ isNameChar c := by
  obtain ⟨x, tl, he, hx⟩ := Gap.blank_of_spaced h r
  intro c hc
  obtain rfl : x = c := by simpa [he] using hc
  exact blank_not_name x hx

theorem StartsDecl.undeclared {cs : Text} (h : StartsDecl cs) :
    ∀ c ∈ (PatchDtc.skipTrivia cs).head?, c ≠ '{' ∧ c ≠ '=' ∧ c ≠ ';' := by
  rw [h.skipTrivia]
  obtain ⟨x, tl, rfl, hx⟩ := h
  intro c hc
  obtain rfl : x = c := by simpa using hc
  exact ⟨ne_of_class hx (by decide), ne_of_class hx (by decide), ne_of_class hx (by decide)⟩

/-- A name is copied, if what is behind the gap that follows it does not make a
    declaration of it. -/
theorem NameAt.copiesGap {n d : ℕ} {start nm own : Text} {g : Gap} (h : NameAt n start nm (g.text ++ own))
    (hs : Declares start) (hu : ∀ c ∈ (PatchDtc.skipTrivia own).head?, c ≠ '{' ∧ c ≠ '=' ∧ c ≠ ';')
    (he : start = nm ++ (g.text ++ own)) : Reads n d start [.raw (nm ++ g.text)] own := by
  have h₁ : Reads n d start [.raw ((nm ++ g.text) ++ slice own (PatchDtc.skipTrivia own))]
      (PatchDtc.skipTrivia own) := by
    refine h.copies hs (skipTrivia_gap g own) hu ?_ (by simp [h.nonempty])
    rw [List.append_assoc, slice_append_of_suffix (skipTrivia_suffix own), he, List.append_assoc]
  exact h₁.split (Reads.skip n d own)

/-- **A label that is not recognised is copied**, and what is behind it is read
    on its own. -/
theorem label_reads {n : ℕ} (d : ℕ) {l : Label} {own : Text} (hl : l.spaced)
    (hu : ∀ c ∈ (PatchDtc.skipTrivia own).head?, c ≠ '{' ∧ c ≠ '=' ∧ c ≠ ';')
    (hn : (l.text ++ own).length ≤ n) (hs : nameStart n (l.text ++ own) = l.text ++ own) :
    Reads n d (l.text ++ own) [.raw l.text] own := by
  simp only [Label.spaced, Bool.and_eq_true] at hl
  have hafter := Gap.stops_of_spaced hl.2 own
  have hname : ∀ x ∈ l.name.text, isNameChar x := fun x hx => declChar_name x (l.name.decl x hx)
  cases hb : l.before with
  | nil =>
    -- the colon is part of the run of name characters
    have he : l.text ++ own = (l.name.text ++ [':']) ++ (l.after.text ++ own) := by
      simp [Label.text, hb, Gap.text]
    have hat : NameAt n (l.text ++ own) (l.name.text ++ [':']) (l.after.text ++ own) := by
      refine ⟨by rw [hs, he], by simp, ?_, hafter⟩
      intro x hx
      rcases List.mem_append.1 hx with hx | hx
      · exact hname x hx
      · obtain rfl : x = ':' := by simpa using hx
        decide
    have h₁ := hat.copiesGap (d := d) (l.startsDecl own).declares hu he
    rwa [show l.name.text ++ [':'] ++ l.after.text = l.text by simp [Label.text, hb, Gap.text]] at h₁
  | cons t g =>
    have he : l.text ++ own = l.name.text ++ (l.before.text ++ (':' :: (l.after.text ++ own))) := by
      simp [Label.text]
    have hsp : l.before.spaced := by simpa [hb, Gap.setOff] using hl.1
    have hcolon : Declares (':' :: (l.after.text ++ own)) :=
      ⟨':', _, rfl, by decide, by decide, by decide⟩
    have hat : NameAt n (l.text ++ own) l.name.text (l.before.text ++ ':' :: (l.after.text ++ own)) := by
      exact ⟨by rw [hs, he], by simp [Ident.text], hname, Gap.stops_of_spaced hsp _⟩
    have h₁ : Reads n d (l.text ++ own) [.raw (l.name.text ++ l.before.text)]
        (':' :: (l.after.text ++ own)) := by
      refine hat.copiesGap (l.startsDecl own).declares ?_ he
      simp [skipTrivia_firm (show isFirm ':' by decide)]
    have hat' : NameAt n (':' :: (l.after.text ++ own)) [':'] (l.after.text ++ own) := by
      refine ⟨nameStart_later ?_, by simp, by simp; decide, hafter⟩
      refine Nat.lt_of_lt_of_le ?_ hn
      rw [he, ← List.append_assoc]
      exact length_lt_append (by simp [Ident.text]) _
    have h₂ : Reads n d (':' :: (l.after.text ++ own)) [.raw (':' :: l.after.text)] own :=
      hat'.copiesGap hcolon hu rfl
    have h₃ := (h₁.trans h₂).join
    rwa [show l.name.text ++ l.before.text ++ ':' :: l.after.text = l.text from rfl] at h₃

end PocketDarwin.PatchDtc
