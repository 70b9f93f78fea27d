/-
  What one iteration of the scanner reads and emits.

  The scanner cuts its input into pieces: text it copies (`raw`), and spans it
  hands to a callback and replaces by the reply.  Which pieces it cuts depends
  on the text alone, never on a reply, so a run with any callbacks object is
  the replay of one list of pieces (`scan_cut`).

  * `Accounts` relates what an iteration does, for every callbacks object, to
    the pieces it read; `scanStep_accounts` gives the pieces of every branch;
  * `scanSteps_accounts` composes them over `k` iterations, `scanSteps_rest`
    bounds the number of iterations by the length of the text;
  * `callsAfter` is the history of callbacks, as a recording object sees it
    (`scanSteps_pieces`).
-/
import PocketDarwin.PatchDtc.Scanner

namespace PocketDarwin.PatchDtc

/-! ## Pieces -/

/-- A piece of the input, in the order in which the scanner gets to it. -/
inductive Piece where
  /-- text that is copied -/
  | raw (text : Text)
  | directive (name text : Text) (atRoot : Bool)
  | nodeOpen (name text : Text)
  /-- `on_node_exit`, with no text of its own -/
  | nodeExit
  | property (name text : Text)
  | fixup (name text : Text)
deriving DecidableEq, Repr

namespace Piece

/-- The part of the input that the piece covers. -/
def span : Piece → Text
  | raw t | directive _ t _ | nodeOpen _ t | property _ t | fixup _ t => t
  | nodeExit => []

/-- The output for a piece: the text itself if it is not handed to a callback,
    otherwise the callback's reply.  `None` keeps the text of a directive or a
    property, `None` and the empty text keep that of a node opening, and `None`
    deletes a fixup subtree. -/
def emit {σ : Type} (cb : ScanCallbacks σ) (s : σ) : Piece → Text × σ
  | raw t => (t, s)
  | directive name t atRoot =>
    let r := cb.onDirective name t atRoot s
    (r.1.getD t, r.2)
  | nodeOpen name t =>
    let r := cb.onNodeOpen name t s
    (orText t r.1, r.2)
  | nodeExit => ([], cb.onNodeExit s)
  | property name t =>
    let r := cb.onProperty name t s
    (r.1.getD t, r.2)
  | fixup name t =>
    let r := cb.onFixupSubtree name t s
    (r.1.getD [], r.2)

/-- The brace depth after a piece. -/
def depth (d : ℕ) : Piece → ℕ
  | nodeOpen _ _ => d + 1
  | nodeExit => d - 1
  | _ => d

end Piece

/-- The text that pieces cover. -/
def spans (ps : List Piece) : Text := (ps.map Piece.span).flatten

/-- The brace depth after pieces. -/
def depthAfter (d : ℕ) (ps : List Piece) : ℕ := ps.foldl Piece.depth d

/-- The output for pieces, the callbacks being called in their order. -/
def replay {σ : Type} (cb : ScanCallbacks σ) (s : σ) : List Piece → Text × σ
  | [] => ([], s)
  | p :: ps =>
    let r := p.emit cb s
    let q := replay cb r.2 ps
    (r.1 ++ q.1, q.2)

@[simp] theorem spans_nil : spans [] = [] := rfl

@[simp] theorem spans_cons (p : Piece) (ps : List Piece) : spans (p :: ps) = p.span ++ spans ps := rfl

@[simp] theorem spans_append (ps qs : List Piece) : spans (ps ++ qs) = spans ps ++ spans qs := by
  simp [spans]

@[simp] theorem depthAfter_nil (d : ℕ) : depthAfter d [] = d := rfl

@[simp] theorem depthAfter_cons (d : ℕ) (p : Piece) (ps : List Piece) :
    depthAfter d (p :: ps) = depthAfter (p.depth d) ps := rfl

theorem depthAfter_append (d : ℕ) (ps qs : List Piece) :
    depthAfter d (ps ++ qs) = depthAfter (depthAfter d ps) qs := by
  simp [depthAfter]

section
variable {σ : Type} (cb : ScanCallbacks σ)

@[simp] theorem replay_nil (s : σ) : replay cb s [] = ([], s) := rfl

@[simp] theorem replay_cons (s : σ) (p : Piece) (ps : List Piece) :
    replay cb s (p :: ps) =
      ((p.emit cb s).1 ++ (replay cb (p.emit cb s).2 ps).1, (replay cb (p.emit cb s).2 ps).2) := rfl

theorem replay_append (s : σ) (ps qs : List Piece) :
    replay cb s (ps ++ qs) =
      ((replay cb s ps).1 ++ (replay cb (replay cb s ps).2 qs).1,
        (replay cb (replay cb s ps).2 qs).2) := by
  induction ps generalizing s with
  | nil => simp
  | cons p ps ih => simp [ih]

end

/-! ## One iteration -/

/-- What `f` does at depth `d`, at the position `cs` of a text of length `n`, is
    accounted for by the pieces `ps`, read up to `rest`. -/
structure Accounts (n d : ℕ) (cs : Text)
    (f : ∀ σ : Type, ScanCallbacks σ → DTSState → σ → DTSState × σ) (ps : List Piece)
    (rest : Text) : Prop where
  spans : spans ps ++ rest = cs
  progress : rest.length < cs.length
  run : ∀ (σ : Type) (cb : ScanCallbacks σ) (out : Text) (s : σ), f σ cb ⟨n, cs, d, out⟩ s =
    (⟨n, rest, depthAfter d ps, out ++ (replay cb s ps).1⟩, (replay cb s ps).2)

section
variable (n d : ℕ)

theorem closeBrace_accounts (tl : Text) :
    ∃ ps rest, Accounts n d ('}' :: tl) (fun _ cb st s => closeBrace cb st tl s) ps rest := by
  have hs := slice_append_of_suffix (List.dropWhile_suffix (l := tl) isBlank)
  have hle := dropWhile_length_le isBlank tl
  simp only [closeBrace]
  generalize tl.dropWhile isBlank = te at hs hle ⊢
  split
  · rename_i r
    refine ⟨[.raw ['}'], .nodeExit, .raw (slice tl (';' :: r)), .raw [';']], r, ?_, ?_,
      fun σ cb out s => ?_⟩
    · simp [Piece.span, hs]
    · simp only [List.length_cons] at hle ⊢; omega
    · simp [Piece.emit, Piece.depth]
  · refine ⟨[.raw ['}'], .nodeExit], tl, by simp [Piece.span], by simp, fun σ cb out s => ?_⟩
    simp [Piece.emit, Piece.depth]

theorem slash_accounts (tl : Text) :
    ∃ ps rest, Accounts n d ('/' :: tl) (fun _ cb st s => slash cb st ('/' :: tl) tl s) ps rest := by
  cases hm : directiveMatch ('/' :: tl) with
  | none =>
    refine ⟨[.raw ['/']], tl, by simp [Piece.span], by simp, fun σ cb out s => ?_⟩
    simp [slash, hm, Piece.emit, Piece.depth]
  | some m =>
    obtain ⟨name, r⟩ := m
    obtain ⟨hr, hlt⟩ := directiveMatch_suffix hm
    have he := directiveEnd_suffix r
    refine ⟨[.directive name (slice ('/' :: tl) (directiveEnd r)) (d == 0)], directiveEnd r,
      ?_, Nat.lt_of_le_of_lt he.length_le hlt, fun σ cb out s => ?_⟩
    · simpa [Piece.span] using slice_append_of_suffix (he.trans hr)
    · simp [slash, hm, Piece.emit, Piece.depth]

theorem reference_accounts (tl : Text) :
    ∃ ps rest, Accounts n d ('&' :: tl) (fun _ cb st s => reference cb st ('&' :: tl) tl s) ps rest := by
  have hsuf : ((tl.dropWhile isReferenceChar).dropWhile isBlank) <:+ tl :=
    (List.dropWhile_suffix _).trans (List.dropWhile_suffix _)
  simp only [reference]
  generalize (tl.dropWhile isReferenceChar).dropWhile isBlank = r at hsuf ⊢
  have hcons := hsuf.trans (List.suffix_cons '&' tl)
  have hle := hsuf.length_le
  split
  · rename_i r
    refine ⟨[.nodeOpen ['&'] (slice ('&' :: tl) ('{' :: r)), .raw ['{']], r, ?_, ?_,
      fun σ cb out s => ?_⟩
    · simpa [Piece.span] using slice_append_of_suffix hcons
    · simp only [List.length_cons] at hle ⊢; omega
    · simp [Piece.emit, Piece.depth]
  · refine ⟨[.raw (slice ('&' :: tl) r)], r, ?_, ?_, fun σ cb out s => ?_⟩
    · simpa [Piece.span] using slice_append_of_suffix hcons
    · simp only [List.length_cons]; omega
    · simp [Piece.emit, Piece.depth]

/-- What may follow a name. -/
theorem follows (r : Text) : (∃ r', r = '{' :: r') ∨ (∃ r', r = '=' :: r') ∨
    (∃ r', r = ';' :: r') ∨
      ((∀ r', r ≠ '{' :: r') ∧ (∀ r', r ≠ '=' :: r') ∧ (∀ r', r ≠ ';' :: r')) := by
  grind

theorem declaration_accounts (start : Text) (hne : start ≠ []) :
    ∃ ps rest, Accounts n d start (fun _ cb st s => declaration cb st start s) ps rest := by
  have hns := nameStart_suffix n start
  simp only [declaration]
  by_cases hname : (nameStart n start).takeWhile isNameChar = []
  · refine ⟨[.raw (start.take 1)], start.drop 1, ?_, ?_, fun σ cb out s => ?_⟩
    · simpa [Piece.span] using List.take_append_drop 1 start
    · have := List.length_pos_iff.2 hne
      simp only [List.length_drop]; omega
    · simp [hname, Piece.emit, Piece.depth]
  -- the name is not empty, so every branch below reads at least one character
  have hdrop : ((nameStart n start).dropWhile isNameChar).length < (nameStart n start).length := by
    have hl := congrArg List.length
      (List.takeWhile_append_dropWhile (p := isNameChar) (l := nameStart n start))
    have := List.length_pos_iff.2 hname
    simp only [List.length_append] at hl; omega
  have hr := skipTrivia_suffix ((nameStart n start).dropWhile isNameChar)
  have hlt : (skipTrivia ((nameStart n start).dropWhile isNameChar)).length < start.length := by
    have h1 := hr.length_le
    have h2 := hns.length_le
    omega
  have hrs := (hr.trans (List.dropWhile_suffix _)).trans hns
  generalize hn : (nameStart n start).takeWhile isNameChar = name at hname
  generalize hg : skipTrivia ((nameStart n start).dropWhile isNameChar) = r at hlt hrs
  rcases follows r with ⟨r, rfl⟩ | ⟨r, rfl⟩ | ⟨r, rfl⟩ | ⟨h₁, h₂, h₃⟩
  · have hr's := (List.suffix_cons '{' r).trans hrs
    have hr'lt := Nat.lt_of_le_of_lt (List.suffix_cons '{' r).length_le hlt
    by_cases hfix : d = 0 ∧ name ∈ fixupNodeNames
    · have he := fixupEnd_suffix r
      refine ⟨[.fixup name (slice start (fixupEnd r))], fixupEnd r, ?_,
        Nat.lt_of_le_of_lt he.length_le hr'lt, fun σ cb out s => ?_⟩
      · simpa [Piece.span] using slice_append_of_suffix (he.trans hr's)
      · simp [hn, hg, hname, hfix, fixupSubtree, Piece.emit, Piece.depth]
    · refine ⟨[.nodeOpen name (slice start ('{' :: r)), .raw ['{']], r, ?_, hr'lt,
        fun σ cb out s => ?_⟩
      · simpa [Piece.span] using slice_append_of_suffix hrs
      · simp only [hn, hg, hname, if_false]
        rw [if_neg hfix]
        simp [Piece.emit, Piece.depth]
  · have hq := readUntilSemicolon_suffix ('=' :: r)
    refine ⟨[.property name (slice start (readUntilSemicolon ('=' :: r)))],
      readUntilSemicolon ('=' :: r), ?_, Nat.lt_of_le_of_lt hq.length_le hlt, fun σ cb out s => ?_⟩
    · simpa [Piece.span] using slice_append_of_suffix (hq.trans hrs)
    · simp [hn, hg, hname, Piece.emit, Piece.depth]
  · have hr's := (List.suffix_cons ';' r).trans hrs
    refine ⟨[.property name (slice start r)], r, ?_,
      Nat.lt_of_le_of_lt (List.suffix_cons ';' r).length_le hlt, fun σ cb out s => ?_⟩
    · simpa [Piece.span] using slice_append_of_suffix hr's
    · simp [hn, hg, hname, Piece.emit, Piece.depth]
  · refine ⟨[.raw (slice start r)], r, ?_, hlt, fun σ cb out s => ?_⟩
    · simpa [Piece.span] using slice_append_of_suffix hrs
    · simp [hn, hg, hname, Piece.emit, Piece.depth]

/-- Copying the trivia first keeps the account. -/
theorem Accounts.trivia {n d : ℕ} {cs₀ cs : Text} {ps : List Piece} {rest : Text}
    {f g : ∀ σ : Type, ScanCallbacks σ → DTSState → σ → DTSState × σ} (hcs : cs <:+ cs₀)
    (hg : ∀ σ cb out s, g σ cb ⟨n, cs₀, d, out⟩ s = f σ cb ⟨n, cs, d, out ++ slice cs₀ cs⟩ s)
    (h : Accounts n d cs f ps rest) : Accounts n d cs₀ g (.raw (slice cs₀ cs) :: ps) rest := by
  refine ⟨?_, Nat.lt_of_lt_of_le h.progress hcs.length_le, fun σ cb out s => ?_⟩
  · rw [spans_cons, List.append_assoc, h.spans]
    exact slice_append_of_suffix hcs
  · rw [hg, h.run]
    simp [Piece.emit, Piece.depth]

/-- **An iteration reads pieces**, at least one character of them. -/
theorem scanStep_accounts (cs : Text) (h : cs ≠ []) :
    ∃ ps rest, Accounts n d cs (fun _ cb st s => scanStep cb st s) ps rest := by
  have hcs := skipTrivia_suffix cs
  generalize hg : skipTrivia cs = r at hcs
  by_cases hr : r = []
  · subst hr
    refine ⟨[.raw (slice cs [])], [], ?_, List.length_pos_iff.2 h, fun σ cb out s => ?_⟩
    · simp [Piece.span]
    · simp [scanStep, h, hg, Piece.emit, Piece.depth]
  by_cases h₁ : ∃ tl, r = '}' :: tl
  · obtain ⟨tl, rfl⟩ := h₁
    obtain ⟨ps, rest, ha⟩ := closeBrace_accounts n d tl
    exact ⟨_, _, ha.trivia hcs fun σ cb out s => by simp only [scanStep, h, if_false, hg]⟩
  by_cases h₂ : ∃ tl, r = '/' :: tl
  · obtain ⟨tl, rfl⟩ := h₂
    obtain ⟨ps, rest, ha⟩ := slash_accounts n d tl
    exact ⟨_, _, ha.trivia hcs fun σ cb out s => by simp only [scanStep, h, if_false, hg]⟩
  by_cases h₃ : ∃ tl, r = '&' :: tl
  · obtain ⟨tl, rfl⟩ := h₃
    obtain ⟨ps, rest, ha⟩ := reference_accounts n d tl
    exact ⟨_, _, ha.trivia hcs fun σ cb out s => by simp only [scanStep, h, if_false, hg]⟩
  obtain ⟨ps, rest, ha⟩ := declaration_accounts n d r hr
  refine ⟨_, _, ha.trivia hcs fun σ cb out s => ?_⟩
  simp only [scanStep, h, if_false, hg]
  split
  · exact absurd rfl hr
  · exact absurd ⟨_, rfl⟩ h₁
  · exact absurd ⟨_, rfl⟩ h₂
  · exact absurd ⟨_, rfl⟩ h₃
  · rfl

end

/-! ## Runs -/

/-- **A run reads pieces**: after `k` iterations, what was read, emitted and
    told to the callbacks is the replay of one list of pieces, whatever the
    callbacks object. -/
theorem scanSteps_accounts (n k d : ℕ) (cs : Text) :
    ∃ ps rest, spans ps ++ rest = cs ∧ rest.length ≤ cs.length - k ∧
      ∀ (σ : Type) (cb : ScanCallbacks σ) (out : Text) (s : σ), scanSteps cb k ⟨n, cs, d, out⟩ s =
        (⟨n, rest, depthAfter d ps, out ++ (replay cb s ps).1⟩, (replay cb s ps).2) := by
  induction k generalizing d cs with
  | zero => exact ⟨[], cs, by simp, by simp, fun σ cb out s => by simp [scanSteps]⟩
  | succ k ih =>
    by_cases h : cs = []
    · -- the loop has stopped
      obtain ⟨ps, rest, hsp, hle, hrun⟩ := ih d cs
      refine ⟨ps, rest, hsp, by rw [h] at hle ⊢; simpa using hle, fun σ cb out s => ?_⟩
      rw [scanSteps, scanStep, if_pos h]
      exact hrun σ cb out s
    · obtain ⟨ps, rest, ha⟩ := scanStep_accounts n d cs h
      obtain ⟨qs, rest', hsp, hle, hrun⟩ := ih (depthAfter d ps) rest
      refine ⟨ps ++ qs, rest', ?_, ?_, fun σ cb out s => ?_⟩
      · rw [spans_append, List.append_assoc, hsp, ha.spans]
      · have := ha.progress
        omega
      · rw [scanSteps, ha.run, hrun, replay_append, depthAfter_append]
        simp

/-- **The scan stops** within as many iterations as the text has characters. -/
theorem scanSteps_rest {σ : Type} (cb : ScanCallbacks σ) (text : Text) (s : σ) :
    (scanSteps cb text.length (DTSState.init text) s).1.rest = [] := by
  obtain ⟨ps, rest, -, hle, hrun⟩ := scanSteps_accounts text.length text.length 0 text
  obtain rfl : rest = [] := List.length_eq_zero_iff.1 (by omega)
  rw [DTSState.init, hrun]

/-- **The scanner loses nothing.**  Every text can be cut into pieces that cover
    it exactly, in order, such that for every callbacks object the scan stops
    at the end of the text and its output is that of the pieces, one by one. -/
theorem scan_cut (text : Text) :
    ∃ ps, spans ps = text ∧ ∀ (σ : Type) (cb : ScanCallbacks σ) (s : σ),
      (scanSteps cb text.length (DTSState.init text) s).1.rest = [] ∧
        scanDts cb text s = replay cb s ps := by
  obtain ⟨ps, rest, hsp, hle, hrun⟩ := scanSteps_accounts text.length text.length 0 text
  obtain rfl : rest = [] := List.length_eq_zero_iff.1 (by omega)
  refine ⟨ps, by simpa using hsp, fun σ cb s => ⟨scanSteps_rest cb text s, ?_⟩⟩
  rw [scanDts, DTSState.init, hrun]
  simp

/-- A callbacks object that keeps everything. -/
def keeper : ScanCallbacks Unit where
  onDirective _ _ _ s := (none, s)
  onNodeOpen _ _ s := (none, s)
  onNodeExit s := s
  onProperty _ _ s := (none, s)
  onFixupSubtree _ text s := (some text, s)

theorem replay_keeper (ps : List Piece) : (replay keeper () ps).1 = spans ps := by
  induction ps with
  | nil => rfl
  | cons p ps ih =>
    rw [replay_cons, spans_cons, ← ih]
    cases p <;> rfl

/-- Pieces that replay the scan of a text cover it. -/
theorem spans_of_replay {text : Text} {ps : List Piece}
    (h : scanDts keeper text () = replay keeper () ps) : spans ps = text := by
  obtain ⟨qs, hqs, hrun⟩ := scan_cut text
  rw [← replay_keeper, ← h, (hrun Unit keeper ()).2, replay_keeper, hqs]

/-! ## The history of calls -/

/-- A call of a callback. -/
inductive Call where
  | directive (name text : Text) (atRoot : Bool)
  | nodeOpen (name text : Text)
  | nodeExit
  | property (name text : Text)
  | fixup (name text : Text)
deriving DecidableEq, Repr

/-- A callbacks object that records its calls and replaces nothing. -/
def recorder : ScanCallbacks (List Call) where
  onDirective name text atRoot h := (none, h ++ [.directive name text atRoot])
  onNodeOpen name text h := (none, h ++ [.nodeOpen name text])
  onNodeExit h := h ++ [.nodeExit]
  onProperty name text h := (none, h ++ [.property name text])
  onFixupSubtree name text h := (none, h ++ [.fixup name text])

/-- The calls made by `scan_dts(text, cb)`. -/
def calls (text : Text) : List Call := (scanDts recorder text []).2

/-- The call made for a piece. -/
def Piece.call : Piece → Option Call
  | raw _ => none
  | directive name t atRoot => some (.directive name t atRoot)
  | nodeOpen name t => some (.nodeOpen name t)
  | nodeExit => some .nodeExit
  | property name t => some (.property name t)
  | fixup name t => some (.fixup name t)

theorem emit_recorder (h : List Call) (p : Piece) :
    (p.emit recorder h).2 = h ++ p.call.toList := by
  cases p <;> simp [Piece.emit, Piece.call, recorder]

theorem replay_recorder (h : List Call) (ps : List Piece) :
    (replay recorder h ps).2 = h ++ ps.filterMap Piece.call := by
  induction ps generalizing h with
  | nil => simp
  | cons p ps ih =>
    rw [replay_cons, ih, emit_recorder, List.append_assoc]
    cases hc : p.call <;> simp [hc]

end PocketDarwin.PatchDtc
