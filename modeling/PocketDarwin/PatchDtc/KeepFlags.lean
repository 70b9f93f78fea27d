/-
  What the flags of the patcher keep.

  With a flag that says so, a callback of the patcher replies `None`.  For a
  directive, a property and the opening of a node the scanner takes this for "keep
  as it is", as `ScanCallbacks` has it; a fixup subtree it deletes.  So the flags
  keep what they should in every text without a fixup subtree at the top, and in
  no other (`keep_flags_iff`).
-/
import PocketDarwin.PatchDtc.Frames
import PocketDarwin.PatchDtc.Rename

namespace PocketDarwin.PatchDtc

/-- The pieces that a text is cut into by the scanner. -/
def Cut (text : Text) (ps : List Piece) : Prop :=
  ∀ (σ : Type) (cb : ScanCallbacks σ) (s : σ), scanDts cb text s = replay cb s ps

/-- The output for each piece. -/
def emissions {σ : Type} (cb : ScanCallbacks σ) : σ → List Piece → List (Piece × Text)
  | _, [] => []
  | s, p :: ps => (p, (p.emit cb s).1) :: emissions cb (p.emit cb s).2 ps

/-- Every construct of a kind is copied byte for byte. -/
def Preserves (opts : Options) (text : Text) (kind : Piece → Prop) : Prop :=
  ∀ ps, Cut text ps → ∀ e ∈ emissions (Patcher.callbacks opts) {} ps, kind e.1 → e.2 = e.1.span

/-! ## Kinds -/

namespace Piece

def IsDirective (p : Piece) : Prop := ∃ name text atRoot, p = .directive name text atRoot

def IsFixup (p : Piece) : Prop := ∃ name text, p = .fixup name text

/-- A property with one of the two names of a handle, unless it is to be dropped by name. -/
def IsHandle (extraDropProps : List Text) (p : Piece) : Prop :=
  ∃ name text, p = .property name text ∧ (name = phandle ∨ name = linuxPhandle) ∧
  name ∉ extraDropProps

/-- A property with another name. -/
def IsOther (p : Piece) : Prop :=
  ∃ name text, p = .property name text ∧ name ≠ phandle ∧ name ≠ linuxPhandle

end Piece

/-- No base name of a node and no name of a property exceeds the limit; the `&` that stands
    for a reference is no name. -/
structure ShortNames (opts : Options) (text : Text) : Prop where
  node : ∀ name t, Call.nodeOpen name t ∈ calls text → name ≠ ['&'] →
    ((Patcher.keyOf .node name).length : ℤ) ≤ opts.maxNameLen
  property : ∀ name t, Call.property name t ∈ calls text → (name.length : ℤ) ≤ opts.maxNameLen

/-- **The flags keep**: with all of them set to, the text is unchanged, and each of them keeps
    the constructs of its kind whatever the others are. -/
structure KeepFlags (opts : Options) (text : Text) : Prop where
  unchanged : opts.stripDirectives = false → opts.stripFixups = false → opts.dropPhandleDuplicates = false →
    opts.extraDropProps = [] → patch opts text = text
  directives : opts.stripDirectives = false → Preserves opts text Piece.IsDirective
  fixups : opts.stripFixups = false → Preserves opts text Piece.IsFixup
  handles : opts.dropPhandleDuplicates = false →
  Preserves opts text (Piece.IsHandle opts.extraDropProps)
  others : opts.extraDropProps = [] → Preserves opts text Piece.IsOther

/-! ## Cuts -/

theorem exists_cut (text : Text) : ∃ ps, Cut text ps := by
  obtain ⟨ps, -, hrun⟩ := scan_cut text
  exact ⟨ps, fun σ cb s => (hrun σ cb s).2⟩

theorem Cut.spans {text : Text} {ps : List Piece} (h : Cut text ps) : spans ps = text :=
  spans_of_replay (h Unit keeper ())

theorem Cut.calls {text : Text} {ps : List Piece} (h : Cut text ps) :
    calls text = ps.filterMap Piece.call := by
  rw [PatchDtc.calls, h, replay_recorder, List.nil_append]

theorem Cut.mem_calls {text : Text} {ps : List Piece} (h : Cut text ps) {p : Piece} (hp : p ∈ ps)
    {c : Call}
    (hc : p.call = some c) : c ∈ PatchDtc.calls text := by
  rw [h.calls, List.mem_filterMap]
  exact ⟨p, hp, hc⟩

section
variable {σ : Type} (cb : ScanCallbacks σ)

theorem replay_eq_emissions (s : σ) (ps : List Piece) :
    (replay cb s ps).1 = ((emissions cb s ps).map Prod.snd).flatten := by
  induction ps generalizing s with
  | nil => rfl
  | cons p ps ih => rw [replay_cons, ih, emissions, List.map_cons, List.flatten_cons]

theorem emissions_fst (s : σ) (ps : List Piece) : (emissions cb s ps).map Prod.fst = ps := by
  induction ps generalizing s with
  | nil => rfl
  | cons p ps ih => rw [emissions, List.map_cons, ih]

/-- What holds of the emission of one piece, in a state that a run can be in, holds of all
    emissions of the run. -/
theorem emissions_forall {inv : σ → Prop} {ps : List Piece} {q : Piece × Text → Prop}
    (hstep : ∀ p ∈ ps, ∀ s, inv s → q (p, (p.emit cb s).1) ∧ inv (p.emit cb s).2) {s : σ}
    (hs : inv s) :
    ∀ e ∈ emissions cb s ps, q e := by
  induction ps generalizing s with
  | nil => intro e he; cases he
  | cons p ps ih =>
    obtain ⟨hq, hinv⟩ := hstep p (List.mem_cons_self ..) s hs
    intro e he
    rcases List.mem_cons.1 he with rfl | he
    · exact hq
    · exact ih (fun p' hp' => hstep p' (List.mem_cons_of_mem _ hp')) hinv e he

theorem mem_emissions {ps : List Piece} {p : Piece} (hp : p ∈ ps) (s : σ) :
    ∃ s', (p, (p.emit cb s').1) ∈ emissions cb s ps := by
  induction ps generalizing s with
  | nil => cases hp
  | cons p' ps ih =>
    rcases List.mem_cons.1 hp with rfl | hp
    · exact ⟨s, List.mem_cons_self ..⟩
    · obtain ⟨s', hs'⟩ := ih hp (p'.emit cb s).2
      exact ⟨s', List.mem_cons_of_mem _ hs'⟩

end

/-! ## Fixup subtrees -/

/-- The text of a fixup subtree is not empty. -/
def Call.NotEmpty : Call → Prop
  | .fixup _ text => text ≠ []
  | _ => True

theorem slice_ne_nil {a b : Text} (h : b.length < a.length) : slice a b ≠ [] := by
  intro hnil
  have := congrArg List.length hnil
  simp only [slice, List.length_take, List.length_nil] at this
  omega

theorem mem_append_call {h : List Call} {d : Call} (hd : d.NotEmpty) :
    ∀ c ∈ h ++ [d], c ∈ h ∨ c.NotEmpty := by
  intro c hc
  rcases List.mem_append.1 hc with hc | hc
  · exact .inl hc
  · rw [List.mem_singleton.1 hc]
    exact .inr hd

theorem declaration_calls (st : DTSState) (start : Text) (h : List Call) :
    ∀ c ∈ (declaration recorder st start h).2, c ∈ h ∨ c.NotEmpty := by
  have hns := (nameStart_suffix st.n start).length_le
  simp only [declaration]
  by_cases hname : (nameStart st.n start).takeWhile isNameChar = []
  · rw [if_pos hname]
    exact fun c hc => .inl hc
  rw [if_neg hname]
  have hr := (skipTrivia_suffix ((nameStart st.n start).dropWhile isNameChar)).length_le
  have hdrop := dropWhile_length_le isNameChar (nameStart st.n start)
  generalize skipTrivia ((nameStart st.n start).dropWhile isNameChar) = r at hr
  split
  · rename_i rest
    split_ifs
    · refine mem_append_call (slice_ne_nil ?_)
      have := (fixupEnd_suffix rest).length_le
      simp only [List.length_cons] at hr
      omega
    · exact mem_append_call trivial
  · exact mem_append_call trivial
  · exact mem_append_call trivial
  · exact fun c hc => .inl hc

theorem scanStep_calls (st : DTSState) (h : List Call) :
    ∀ c ∈ (scanStep recorder st h).2, c ∈ h ∨ c.NotEmpty := by
  have hkeep : ∀ c ∈ h, c ∈ h ∨ c.NotEmpty := fun c hc => .inl hc
  simp only [scanStep]
  split_ifs
  · exact hkeep
  split
  · exact hkeep
  · simp only [closeBrace]
    split <;> exact mem_append_call trivial
  · simp only [slash]
    split
    · exact mem_append_call trivial
    · exact hkeep
  · simp only [reference]
    split
    · exact mem_append_call trivial
    · exact hkeep
  · exact declaration_calls _ _ h

theorem scanSteps_calls (k : ℕ) (st : DTSState) (h : List Call) (hh : ∀ c ∈ h, c.NotEmpty) :
    ∀ c ∈ (scanSteps recorder k st h).2, c.NotEmpty := by
  induction k generalizing st h with
  | zero => exact hh
  | succ k ih =>
    refine ih _ _ fun c hc => ?_
    rcases scanStep_calls st h c hc with hc | hc
    · exact hh c hc
    · exact hc

theorem fixup_ne_nil {text name t : Text} (h : Call.fixup name t ∈ calls text) : t ≠ [] :=
  scanSteps_calls text.length _ [] (fun _ hc => by cases hc) _ h

/-! ## Replies -/

namespace Patcher

/-- The table of a patcher that has met no name over the limit: only the `&` of a reference
    may be in it, where the limit is 0. -/
def OnlyReference (p : Patcher) : Prop :=
  ∀ name v, p.truncateSeen.lookup name = some v → name = ['&']

section
variable {opts : Options} {p : Patcher}

theorem truncateName_short {name : Text} {kind : Kind}
    (h : ((keyOf kind name).length : ℤ) ≤ opts.maxNameLen) :
    truncateName opts name kind p = (name, p) := by
  rw [truncateName_eq, truncateKey_short opts h, keyOf_append_tailOf]

theorem truncateName_reference (hp : p.OnlyReference) :
    (truncateName opts ['&'] .node p).1 = ['&'] ∧
    (truncateName opts ['&'] .node p).2.OnlyReference := by
  by_cases h : (1 : ℤ) ≤ opts.maxNameLen
  · rw [truncateName_short (by exact h)]
    exact ⟨rfl, hp⟩
  · have hbase : baseOf opts ['&'] = ['&'] := by
      have hmax : max 1 (opts.maxNameLen - 3) = 1 := by omega
      have hlong : ((['&'] : Text).length : ℤ) > opts.maxNameLen - 1 := by
        show (1 : ℤ) > _
        omega
      simp only [baseOf, if_pos hlong, hmax]
      rfl
    have hfree : ¬ p.taken .node ['&'] ['&'] := by
      rw [taken_iff]
      rintro ⟨y, hy, hl⟩
      exact hy (hp y _ hl)
    have hprobe : probe opts (p.taken .node ['&']) (baseOf opts ['&']) ['&']
        101 0 (baseOf opts ['&']) = ['&'] := by
      rw [hbase, probe, if_neg hfree]
    have hkey : keyOf .node ['&'] = ['&'] := rfl
    have htail : tailOf .node ['&'] = [] := rfl
    rw [truncateName_eq, hkey, htail, truncateKey_long opts (by exact h), List.append_nil]
    refine ⟨hprobe, fun name v hv => ?_⟩
    by_contra hname
    change (p.truncateSeen.insert ['&'] _).lookup name = some v at hv
    rw [AList.lookup_insert_ne hname] at hv
    exact hname (hp name v hv)

/-- A name that is not changed gives the reply `None`. -/
theorem onNodeOpen_kept {name : Text} (hp : p.OnlyReference)
    (hname : name ≠ ['&'] → ((keyOf .node name).length : ℤ) ≤ opts.maxNameLen) (text : Text) :
    (onNodeOpen opts name text p).1 = none ∧ (onNodeOpen opts name text p).2.OnlyReference := by
  have hsame : ∀ q : Patcher, q.OnlyReference → (truncateName opts name .node q).1 = name ∧
      (truncateName opts name .node q).2.OnlyReference := by
    intro q hq
    by_cases href : name = ['&']
    · rw [href]
      exact truncateName_reference hq
    · rw [truncateName_short (hname href)]
      exact ⟨rfl, hq⟩
  obtain ⟨h₁, h₂⟩ := hsame ⟨p.stats, p.truncateSeen, [] :: p.nodePropStack,
    [] :: p.nodeDroppedStack⟩ hp
  simp only [onNodeOpen, h₁, ne_eq, not_true_eq_false, if_false]
  exact ⟨trivial, h₂⟩

theorem track_truncateSeen (name : Text) : (track name p).truncateSeen = p.truncateSeen := by
  unfold track
  cases p.nodePropStack <;> rfl

theorem onProperty_onlyReference {name : Text} (hp : p.OnlyReference)
    (hname : (name.length : ℤ) ≤ opts.maxNameLen) (text : Text) :
    (onProperty opts name text p).2.OnlyReference := by
  have htrack : (track name p).OnlyReference := by
    intro y v hv
    rw [track_truncateSeen] at hv
    exact hp y v hv
  have htrunc : ∀ q, truncateName opts name .property q = (name, q) :=
    fun q => truncateName_short hname
  simp only [onProperty, htrunc]
  split_ifs <;> exact htrack

/-- A property that no rule deletes gives the reply `None`. -/
theorem onProperty_kept {name : Text} (hname : (name.length : ℤ) ≤ opts.maxNameLen)
    (hextra : name ∉ opts.extraDropProps)
    (hdup : opts.dropPhandleDuplicates = false ∨ name ≠ phandle ∧ name ≠ linuxPhandle) (text : Text) :
    (onProperty opts name text p).1 = none := by
  have htrunc : ∀ q, truncateName opts name .property q = (name, q) :=
    fun q => truncateName_short hname
  have hrule : ∀ (x : Text) (b : Bool), (x = phandle ∨ x = linuxPhandle) →
      ¬ (opts.dropPhandleDuplicates && (name == x && b)) = true := by
    intro x b hx h
    simp only [Bool.and_eq_true, beq_iff_eq] at h
    rcases hdup with hdup | ⟨h₁, h₂⟩
    · rw [hdup] at h
      exact Bool.false_ne_true h.1
    · rcases hx with rfl | rfl
      · exact h₁ h.2.1
      · exact h₂ h.2.1
  simp only [onProperty, List.contains_iff_mem]
  rw [if_neg hextra, if_neg (hrule phandle _ (.inl rfl)), if_neg (hrule linuxPhandle _ (.inr rfl)), htrunc]
  simp

end

end Patcher

/-! ## The flags -/

section
variable {opts : Options} {text : Text}

/-- The pieces that the flags of a patcher keep. -/
def Kept (opts : Options) : Piece → Prop
  | .directive _ _ _ => opts.stripDirectives = false
  | .property name _ => name ∉ opts.extraDropProps ∧
      (opts.dropPhandleDuplicates = false ∨ name ≠ phandle ∧ name ≠ linuxPhandle)
  | .fixup _ _ => False
  | _ => True

/-- One piece: it is copied if it is kept, and the table stays as it is. -/
theorem emit_kept (hshort : ShortNames opts text) {ps : List Piece} (hcut : Cut text ps) {p : Piece}
    (hp : p ∈ ps)
    {s : Patcher} (hs : s.OnlyReference) :
    (Kept opts p → (p.emit (Patcher.callbacks opts) s).1 = p.span) ∧
      (p.emit (Patcher.callbacks opts) s).2.OnlyReference := by
  cases p with
  | raw t => exact ⟨fun _ => rfl, hs⟩
  | nodeExit =>
    refine ⟨fun _ => rfl, ?_⟩
    show (Patcher.onNodeExit s).OnlyReference
    unfold Patcher.onNodeExit
    split <;> exact hs
  | directive name t atRoot =>
    show (_ → ((Patcher.onDirective opts name t atRoot s).1.getD t = t)) ∧
      (Patcher.onDirective opts name t atRoot s).2.OnlyReference
    unfold Patcher.onDirective
    split_ifs with h
    · refine ⟨fun hkept => ?_, hs⟩
      rw [show opts.stripDirectives = false from hkept] at h
      cases h
    · exact ⟨fun _ => rfl, hs⟩
  | nodeOpen name t =>
    have hname := hshort.node name t (hcut.mem_calls hp rfl)
    obtain ⟨hnone, hinv⟩ := Patcher.onNodeOpen_kept hs hname t
    refine ⟨fun _ => ?_, hinv⟩
    show orText t (Patcher.onNodeOpen opts name t s).1 = t
    rw [hnone]
    rfl
  | property name t =>
    have hname := hshort.property name t (hcut.mem_calls hp rfl)
    refine ⟨fun hkept => ?_, Patcher.onProperty_onlyReference hs hname t⟩
    show (Patcher.onProperty opts name t s).1.getD t = t
    rw [Patcher.onProperty_kept hname hkept.1 hkept.2]
    rfl
  | fixup name t =>
    refine ⟨fun hkept => hkept.elim, ?_⟩
    show (Patcher.onFixupSubtree opts name t s).2.OnlyReference
    unfold Patcher.onFixupSubtree
    split_ifs <;> exact hs

/-- What the flags keep is copied. -/
theorem emissions_kept (hshort : ShortNames opts text) {ps : List Piece} (hcut : Cut text ps) :
    ∀ e ∈ emissions (Patcher.callbacks opts) {} ps, Kept opts e.1 → e.2 = e.1.span := by
  have hinit : Patcher.OnlyReference {} := by
    intro name v hv
    cases hv
  have hemit : ∀ p ∈ ps, ∀ s, Patcher.OnlyReference s →
      (Kept opts p → (p.emit (Patcher.callbacks opts) s).1 = p.span) ∧
        Patcher.OnlyReference (p.emit (Patcher.callbacks opts) s).2 :=
    fun p hp s hs => emit_kept hshort hcut hp hs
  exact emissions_forall (Patcher.callbacks opts) hemit hinit

theorem preserves_of_kept (hshort : ShortNames opts text) {kind : Piece → Prop}
    (hkind : ∀ p, kind p → Kept opts p) : Preserves opts text kind := by
  intro ps hcut e he hk
  exact emissions_kept hshort hcut e he (hkind e.1 hk)

/-- A text whose pieces are all kept is unchanged. -/
theorem patch_eq_of_kept (hshort : ShortNames opts text) {ps : List Piece} (hcut : Cut text ps)
    (hkept : ∀ p ∈ ps, Kept opts p) : patch opts text = text := by
  have hspan : ∀ e ∈ emissions (Patcher.callbacks opts) {} ps, e.2 = e.1.span := by
    intro e he
    refine emissions_kept hshort hcut e he (hkept e.1 ?_)
    rw [← emissions_fst (Patcher.callbacks opts) {} ps]
    exact List.mem_map_of_mem he
  calc patch opts text
      = ((emissions (Patcher.callbacks opts) {} ps).map Prod.snd).flatten := by
        rw [patch, hcut, replay_eq_emissions]
    _ = ((emissions (Patcher.callbacks opts) {} ps).map fun e => e.1.span).flatten := by
        rw [List.map_congr_left hspan]
    _ = spans ps := by
        rw [spans, ← emissions_fst (Patcher.callbacks opts) {} ps, List.map_map, emissions_fst]
        rfl
    _ = text := hcut.spans

/-- A fixup subtree is deleted, whatever the flag says. -/
theorem emit_fixup (opts : Options) (name t : Text) (s : Patcher) :
    ((Piece.fixup name t).emit (Patcher.callbacks opts) s).1 = [] := by
  show (Patcher.onFixupSubtree opts name t s).1.getD [] = []
  unfold Patcher.onFixupSubtree
  split_ifs <;> rfl

/-- A call for a fixup subtree. -/
def Call.isFixup : Call → Bool
  | .fixup _ _ => true
  | _ => false

/-- **The flags keep** what they should in every text without a fixup subtree, and in no other;
    unless the fixup subtrees are to be stripped. -/
theorem keep_flags_iff (hshort : ShortNames opts text) :
    KeepFlags opts text ↔ (opts.stripFixups = false → ∀ c ∈ calls text, ¬ c.isFixup) := by
  constructor
  · intro h hstrip c hc hfix
    cases c with
    | fixup name t =>
      obtain ⟨ps, hcut⟩ := exists_cut text
      have hp : Piece.fixup name t ∈ ps := by
        rw [hcut.calls, List.mem_filterMap] at hc
        obtain ⟨p, hp, hcall⟩ := hc
        cases p <;> simp only [Piece.call, Option.some.injEq, reduceCtorEq, Call.fixup.injEq]
          at hcall
        rw [← hcall.1, ← hcall.2]
        exact hp
      obtain ⟨s, hs⟩ := mem_emissions (Patcher.callbacks opts) hp {}
      have hkeep := h.fixups hstrip ps hcut _ hs ⟨name, t, rfl⟩
      rw [emit_fixup] at hkeep
      exact fixup_ne_nil hc hkeep.symm
    | _ => cases hfix
  · intro h
    have hnone : opts.stripFixups = false → ∀ ps, Cut text ps → ∀ p ∈ ps, ¬ p.IsFixup := by
      rintro hstrip ps hcut p hp ⟨name, t, rfl⟩
      exact h hstrip _ (hcut.mem_calls hp rfl) rfl
    refine ⟨fun hdir hstrip hdup hextra => ?_, fun hdir => preserves_of_kept hshort ?_,
      fun hstrip => ?_,
      fun hdup => preserves_of_kept hshort ?_, fun hextra => preserves_of_kept hshort ?_⟩
    · obtain ⟨ps, hcut⟩ := exists_cut text
      refine patch_eq_of_kept hshort hcut fun p hp => ?_
      have hfix := hnone hstrip ps hcut p hp
      cases p with
      | directive => exact hdir
      | property name t =>
        refine ⟨?_, .inl hdup⟩
        rw [hextra]
        exact List.not_mem_nil
      | fixup name t => exact hfix ⟨name, t, rfl⟩
      | _ => trivial
    · rintro p ⟨name, t, atRoot, rfl⟩
      exact hdir
    · intro ps hcut e he hfix
      refine absurd hfix (hnone hstrip ps hcut e.1 ?_)
      rw [← emissions_fst (Patcher.callbacks opts) {} ps]
      exact List.mem_map_of_mem he
    · rintro p ⟨name, t, rfl, -, hextra⟩
      exact ⟨hextra, .inl hdup⟩
    · rintro p ⟨name, t, rfl, hname⟩
      refine ⟨?_, .inr hname⟩
      rw [hextra]
      exact List.not_mem_nil

end

/-- All flags set to keep. -/
def keepAll : Options where
  stripDirectives := false
  stripFixups := false
  dropPhandleDuplicates := false

/-- A directive and a node with two handles are kept. -/
theorem keep_flags_handles :
    patch keepAll "/plugin/; n { phandle = <1>; linux,phandle = <1>; };".toList =
      "/plugin/; n { phandle = <1>; linux,phandle = <1>; };".toList := by
  have hcalls : calls "/plugin/; n { phandle = <1>; linux,phandle = <1>; };".toList =
      [.directive "plugin".toList "/plugin/;".toList true, .nodeOpen ['n'] "n ".toList,
        .property phandle "phandle = <1>;".toList,
        .property linuxPhandle "linux,phandle = <1>;".toList,
        .nodeExit] := by decide +kernel
  refine ((keep_flags_iff ⟨fun name t hc _ => ?_, fun name t hc => ?_⟩).2 fun _ => ?_).unchanged rfl
    rfl rfl rfl
  · simp only [hcalls, List.mem_cons, reduceCtorEq, Call.nodeOpen.injEq, List.not_mem_nil, or_false,
      false_or] at hc
    rw [hc.1]
    decide
  · simp only [hcalls, List.mem_cons, reduceCtorEq, Call.property.injEq, List.not_mem_nil, or_false,
      false_or] at hc
    rcases hc with ⟨rfl, -⟩ | ⟨rfl, -⟩ <;> decide
  · rw [hcalls]
    decide

/-- The symbols of a tree are deleted. -/
theorem fixup_not_kept :
    ShortNames keepAll "__symbols__ { };".toList ∧ ¬ KeepFlags keepAll "__symbols__ { };".toList := by
  have hcalls : calls "__symbols__ { };".toList =
      [.fixup "__symbols__".toList "__symbols__ { };".toList] := by
    decide +kernel
  refine ⟨⟨fun name t hc => ?_, fun name t hc => ?_⟩, fun h => ?_⟩
  · rw [hcalls] at hc
    simp at hc
  · rw [hcalls] at hc
    simp at hc
  · exact absurd (h.unchanged rfl rfl rfl rfl) (by decide +kernel)

end PocketDarwin.PatchDtc
