/-
  Referenced and modified pages.

  Both bits are kept for the page, not for its mappings.  `pmap_page_protect` clears them
  whenever it removes a mapping, and `pmap_disconnect` reads them after that.

  * `dirty_run`: in the runs in which every page is clean when a mapping of it is removed
    that way, and only in these, a modified page stays modified until that is cleared and
    `pmap_disconnect` returns what the page was.
-/
import PocketDarwin.Pmap.Effects

namespace PocketDarwin.Pmap

/-- The call is one that clears the modified bit of the page, or is meant to. -/
def Call.Cleans : Call → Ppn → Prop
  | .clearModify pn, p | .clearRefmod pn _, p => p = pn
  | _, _ => False

/-- A page that is modified before the call is so after it. -/
def StaysModified (c : Machine) (s : State) (call : Call) : Prop := ∀ s', s.call c call = .ok s' →
  ∀ p, c.Managed p → ¬ call.Cleans p → pmapIsModified c p s = .ok true → pmapIsModified c p s' = .ok true

/-- `pmap_disconnect` removes all mappings, and returns the bits that the page had. -/
def ReturnsRefmod (c : Machine) (s : State) : Call → Prop
  | .disconnect pn => ∃ refmod s', pmapDisconnect c pn s = .ok (refmod, s') ∧
    (∀ m va, ¬ (s'.view c).Mapped c pn m va) ∧ pmapGetRefmod c pn s = .ok refmod
  | _ => True

/-- Where `pmap_page_protect` or `pmap_disconnect` removes a mapping, the page has not been modified; for
    `pmap_disconnect`, it has not been referenced either. -/
def FindsClean (c : Machine) (s : State) : Call → Prop
  | .pageProtect pn prot => prot ≠ vmProtAll →
    (∃ m va, (s.view c).Mapped c pn m va ∧ (View.removes prot ∨ m = c.kernelPmap)) → s.flags pn &&& typeModified = 0
  | .disconnect pn => (∃ m va, (s.view c).Mapped c pn m va) → s.flags pn &&& (typeModified ||| typeReferenced) = 0
  | _ => True

/-- The result of `pmap_get_refmod`, by the attributes of the page. -/
def refmodBits (flags : BitVec 32) : BitVec 32 :=
  let refmod := flags &&& (typeModified ||| typeReferenced)
  let retval := if refmod &&& typeModified ≠ 0 then 0x1 else 0
  if refmod &&& typeReferenced ≠ 0 then retval ||| 0x2 else retval

section
variable {c : Machine} {s s' : State} {v v' : View} {p pn : Ppn} {prot : Prot} {flags : BitVec 32} {call : Call}
  {l : List (ℕ × ℕ)}

theorem pmapIsModified_eq (hp : c.Managed p) : pmapIsModified c p s = .ok true ↔ s.flags p &&& typeModified ≠ 0 := by
  simp only [pmapIsModified, physAttributeTest_eq (paiToPvh_of_managed hp), Bind.bind, Except.bind,
    Except.ok.injEq, bne_iff_ne]

theorem pmapGetRefmod_eq (hp : c.Managed p) : pmapGetRefmod c p s = .ok (refmodBits (s.flags p)) := by
  simp only [pmapGetRefmod, physAttributeTest_eq (paiToPvh_of_managed hp), Bind.bind, Except.bind]
  rfl

theorem refmodBits_eq_zero : refmodBits flags = 0 ↔ flags &&& (typeModified ||| typeReferenced) = 0 := by
  have hmod : flags &&& (typeModified ||| typeReferenced) &&& typeModified = flags &&& typeModified :=
    and_and_of_subset (by decide)
  have href : flags &&& (typeModified ||| typeReferenced) &&& typeReferenced =
      flags &&& typeReferenced :=
    and_and_of_subset (by decide)
  constructor
  · intro h
    rw [refmodBits] at h
    simp only [hmod, href] at h
    rw [BitVec.and_or_distrib_left]
    split_ifs at h with hr hm hm
    · simp at h
    · simp at h
    · simp at h
    · rw [not_not.1 hr, not_not.1 hm]
      rfl
  · intro h
    rw [refmodBits, h]
    rfl

/-- What the callers see of the modified bits. -/
theorem staysModified_iff (hok : s.call c call = .ok s') : StaysModified c s call ↔
    ∀ p, c.Managed p → ¬ call.Cleans p → s.flags p &&& typeModified ≠ 0 → s'.flags p &&& typeModified ≠ 0 := by
  constructor
  · intro h p hp hnot hmod
    exact (pmapIsModified_eq hp).1 (h s' hok p hp hnot ((pmapIsModified_eq hp).2 hmod))
  · intro h s₁ hok₁ p hp hnot hmod
    obtain rfl := Except.ok.inj (hok.symm.trans hok₁)
    exact (pmapIsModified_eq hp).2 (h p hp hnot ((pmapIsModified_eq hp).1 hmod))

namespace View

/-- The mappings of the page that are removed. -/
theorem exists_removed_iff (hl : v.MappingsOf c p l) : (∃ x ∈ l, removes prot = true ∨ x.1 = c.kernelPmap) ↔
    ∃ m va, v.Mapped c p m va ∧ (removes prot = true ∨ m = c.kernelPmap) := by
  constructor
  · rintro ⟨⟨m, va⟩, hmem, hremove⟩
    exact ⟨m, va, (hl.2 m va).1 hmem, hremove⟩
  · rintro ⟨m, va, hmapped, hremove⟩
    exact ⟨(m, va), (hl.2 m va).2 hmapped, hremove⟩

/-- Modified bits are lost where a mapping is removed. -/
theorem modified_pageProtect (hp : c.Managed p) (hl : v.MappingsOf c p l) :
    (∀ q, c.Managed q → v.flags q &&& typeModified ≠ 0 → (v.pageProtect c p prot l).flags q &&& typeModified ≠ 0) ↔
      ((∃ m va, v.Mapped c p m va ∧ (removes prot = true ∨ m = c.kernelPmap)) → v.flags p &&& typeModified = 0) := by
  rw [flags_pageProtect, ← exists_removed_iff hl]
  by_cases hremoved : ∃ x ∈ l, removes prot = true ∨ x.1 = c.kernelPmap
  · have hlost : v.flags p &&& ~~~(typeReferenced ||| typeModified) &&& typeModified = 0 :=
      and_and_of_disjoint (by decide)
    simp only [if_pos hremoved]
    constructor
    · intro h _
      by_contra hmod
      have := h p hp hmod
      rw [Function.update_self] at this
      exact this hlost
    · intro h q _ hmod
      have hne : q ≠ p := by
        rintro rfl
        exact hmod (h hremoved)
      rwa [Function.update_of_ne hne]
  · simp only [if_neg hremoved]
    exact iff_of_true (fun _ _ hmod => hmod) fun hex => absurd hex hremoved

/-- Modified bits stay as they are with a call that removes no page from its mappings. -/
theorem Effect.modified (h : v.Effect c call v') (hpageProtect : ∀ pn prot, call ≠ .pageProtect pn prot)
    (hdisconnect : ∀ pn, call ≠ .disconnect pn) (hclean : ¬ call.Cleans p) (hmod : v.flags p &&& typeModified ≠ 0) :
    v'.flags p &&& typeModified ≠ 0 := by
  have hkeeps : call.marks &&& typeModified = 0 → v'.flags p &&& typeModified ≠ 0 :=
    fun hmask => (h.keeps hmask p).symm ▸ hmod
  have hother : ∀ (pn : Ppn) (f : BitVec 32 → BitVec 32), p ≠ pn → v' = v.mark pn f →
      v'.flags p &&& typeModified ≠ 0 := by
    rintro pn f hne rfl
    simpa [mark, hne] using hmod
  cases call with
  | pageProtect pn prot => exact absurd rfl (hpageProtect pn prot)
  | disconnect pn => exact absurd rfl (hdisconnect pn)
  | setModify pn =>
    obtain rfl := h
    simp only [mark, Function.update_apply]
    split_ifs
    · exact or_and_ne_zero (by decide)
    · exact hmod
  | clearModify pn => exact hother pn _ hclean h
  | clearRefmod pn mask => exact hother pn _ hclean h
  | _ =>
    refine hkeeps ?_
    simp only [Call.marks]
    decide

/-- `pmap_disconnect` leaves no mapping of the page. -/
theorem not_mapped_disconnect (hl : v.MappingsOf c p l) {m va : ℕ} : ¬ (v.pageProtect c p 0 l).Mapped c p m va := by
  intro hmapped
  have hentry : (v.pageProtect c p 0 l).entry m va = _ := entry_pageProtect hl.1
  by_cases hmem : (m, va) ∈ l
  · rw [if_pos hmem, if_pos (.inl (by decide))] at hentry
    exact hmapped.entry_ne_zero hentry
  · rw [if_neg hmem] at hentry
    exact hmem ((hl.2 m va).2 ⟨hmapped.1, hmapped.2.1, hentry ▸ hmapped.2.2⟩)

end View

/-- `pmap_page_protect` keeps modified bits where it finds none to lose. -/
theorem staysModified_pageProtect (h : Inv c s) :
    StaysModified c s (.pageProtect pn prot) ↔ FindsClean c s (.pageProtect pn prot) := by
  rcases call_spec h (show Orderly c s (.pageProtect pn prot) from trivial)
    with ⟨s', hok, -, heffect, -⟩ | ⟨e, -, hstops⟩
  · rw [staysModified_iff hok]
    rw [View.Effect] at heffect
    split_ifs at heffect with hact
    · obtain ⟨l, hl, hview⟩ := heffect
      have hflags : s'.flags = ((s.view c).pageProtect c pn prot l).flags := congrArg View.flags hview
      rw [hflags, FindsClean, imp_iff_right hact.2]
      simpa [Call.Cleans] using View.modified_pageProtect hact.1 hl
    · have hflags : s'.flags = s.flags := congrArg View.flags heffect
      rw [hflags]
      refine iff_of_true (fun _ _ _ hmod => hmod) fun hprot hex => ?_
      obtain ⟨m, va, hmapped, -⟩ := hex
      exact absurd ⟨hmapped.1, hprot⟩ hact
  · exact hstops.elim

/-- `pmap_disconnect` returns the bits of the page where these are clear, or there is no mapping. -/
theorem clean_disconnect (h : Inv c s) (hp : c.Managed pn) :
    StaysModified c s (.disconnect pn) ∧ ReturnsRefmod c s (.disconnect pn) ↔ FindsClean c s (.disconnect pn) := by
  obtain ⟨refmod, s', hdisconnect, -, ⟨l, hl, hview⟩, hrefmod, -⟩ := pmapDisconnect_spec h hp
  have hok : s.call c (.disconnect pn) = .ok s' := by
    simp only [State.call, hdisconnect, Except.map]
  have hflags : s'.flags = ((s.view c).pageProtect c pn 0 l).flags := congrArg View.flags hview
  rw [pmapGetRefmod_eq hp, Except.ok.injEq] at hrefmod
  have hreturns : ReturnsRefmod c s (.disconnect pn) ↔
      refmodBits (s.flags pn) = refmodBits (s'.flags pn) := by
    rw [ReturnsRefmod, pmapGetRefmod_eq hp]
    constructor
    · rintro ⟨r, s₁, heq, -, hr⟩
      obtain ⟨rfl, rfl⟩ := Prod.mk.inj (Except.ok.inj (heq.symm.trans hdisconnect))
      exact (Except.ok.inj hr).trans hrefmod.symm
    · intro heq
      refine ⟨refmod, s', hdisconnect, fun m va hmapped => ?_, by rw [heq, hrefmod]⟩
      rw [hview] at hmapped
      exact View.not_mapped_disconnect hl hmapped
  rw [staysModified_iff hok, hreturns, FindsClean]
  by_cases hex : ∃ m va, (s.view c).Mapped c pn m va
  · -- the bits are cleared with the first mapping
    obtain ⟨m, va, hmapped⟩ := id hex
    have hremoved : ∃ x ∈ l, View.removes 0 = true ∨ x.1 = c.kernelPmap :=
      ⟨(m, va), (hl.2 m va).2 hmapped, .inl (by decide)⟩
    have hnew : s'.flags = Function.update s.flags pn
        (s.flags pn &&& ~~~(typeReferenced ||| typeModified)) := by
      rw [hflags, View.flags_pageProtect, if_pos hremoved, State.flags_view]
    have hlost : s.flags pn &&& ~~~(typeReferenced ||| typeModified)
        &&& (typeModified ||| typeReferenced) = 0 :=
      and_and_of_disjoint (by decide)
    rw [hnew, Function.update_self, refmodBits_eq_zero.2 hlost, refmodBits_eq_zero, imp_iff_right hex]
    refine ⟨fun hand => hand.2, fun hclean => ⟨fun q _ _ hmod => ?_, hclean⟩⟩
    have hne : q ≠ pn := by
      rintro rfl
      have hsub : s.flags q &&& (typeModified ||| typeReferenced) &&& typeModified =
          s.flags q &&& typeModified :=
        and_and_of_subset (by decide)
      refine hmod ?_
      rw [← hsub, hclean]
      rfl
    rwa [Function.update_of_ne hne]
  · have hnone : ¬ ∃ x ∈ l, View.removes 0 = true ∨ x.1 = c.kernelPmap := by
      rintro ⟨x, hx, -⟩
      exact hex ⟨x.1, x.2, (hl.2 x.1 x.2).1 hx⟩
    have hsame : s'.flags = s.flags := by
      rw [hflags, View.flags_pageProtect, if_neg hnone, State.flags_view]
    rw [hsame]
    exact iff_of_true ⟨fun _ _ _ hmod => hmod, rfl⟩ fun hex' => absurd hex' hex

/-- **One call** keeps the modified bits, and returns them, exactly if it finds the page clean. -/
theorem clean_iff (h : Inv c s) (ho : Orderly c s call) :
    StaysModified c s call ∧ ReturnsRefmod c s call ↔ FindsClean c s call := by
  have hother : (∀ pn prot, call ≠ .pageProtect pn prot) → (∀ pn, call ≠ .disconnect pn) →
      StaysModified c s call := by
    intro hpageProtect hdisconnect s' hok p hp hclean hmod
    have heffect := (call_ok h ho hok).2
    exact (pmapIsModified_eq hp).2 (heffect.modified hpageProtect hdisconnect hclean
      ((pmapIsModified_eq hp).1 hmod))
  cases call with
  | pageProtect pn prot => exact (and_iff_left trivial).trans (staysModified_pageProtect h)
  | disconnect pn => exact clean_disconnect h ho
  | _ => exact iff_of_true ⟨hother (by simp) (by simp), trivial⟩ trivial

/-- **Referenced and modified pages.**  In a run, modified pages stay so until they are cleaned and `pmap_disconnect`
    returns what the page was, exactly if pages are clean whenever `pmap_page_protect` or `pmap_disconnect` removes one of
    their mappings. -/
theorem dirty_run {log : List Call}
    (hlog : Meets (step c) (fun r call => ∀ s, r = .ok s → Orderly c s call) (.ok (boot c)) log) :
    Meets (step c) (fun r call => ∀ s, r = .ok s → StaysModified c s call ∧ ReturnsRefmod c s call) (.ok (boot c)) log ↔
      Meets (step c) (fun r call => ∀ s, r = .ok s → FindsClean c s call) (.ok (boot c)) log := by
  refine meets_iff_meets (I := fun r => ∀ s, r = .ok s → Inv c s) ?_ ?_ ?_ hlog
  · intro r call hinv ho
    exact forall_congr' fun s => forall_congr' fun hs => clean_iff (hinv s hs) (ho s hs)
  · intro r call hinv ho _ s' hs'
    obtain ⟨s, rfl, hok⟩ := step_eq_ok.1 hs'
    exact (call_ok (hinv s rfl) (ho s rfl) hok).1
  · intro s hs
    exact Except.ok.inj hs ▸ inv_boot c

end

/-- A page is entered, modified and cleaned, before it is disconnected. -/
theorem dirty_run_flat : Meets (step flat) (fun r call => ∀ s, r = .ok s → StaysModified flat s call ∧ ReturnsRefmod flat s call)
    (.ok (boot flat)) [.create 2 5, .enter 2 0x3000 7 vmProtAll false 6, .setModify 7, .clearModify 7, .disconnect 7] := by
  have hlog : Meets (step flat) (fun r call => ∀ s, r = .ok s → Orderly flat s call) (.ok (boot flat))
      [.create 2 5, .enter 2 0x3000 7 vmProtAll false 6, .setModify 7, .clearModify 7,
        .disconnect 7] := by decide +kernel
  refine (dirty_run hlog).2 ⟨fun _ _ => trivial, fun _ _ => trivial, fun _ _ => trivial,
    fun _ _ => trivial, ?_, trivial⟩
  have hclean : ∀ s, run flat [.create 2 5, .enter 2 0x3000 7 vmProtAll false 6, .setModify 7,
      .clearModify 7] = .ok s →
      s.flags 7 &&& (typeModified ||| typeReferenced) = 0 := by decide +kernel
  exact fun s hs _ => hclean s hs

/-- A modified page is disconnected: the bits that are returned are clear, and they are lost. -/
theorem modified_lost : ∃ s, run flat [.create 2 5, .enter 2 0x3000 7 vmProtAll false 6, .setModify 7] = .ok s ∧
    pmapIsModified flat 7 s = .ok true ∧ pmapGetRefmod flat 7 s = .ok 1 ∧
    ∃ r, pmapDisconnect flat 7 s = .ok r ∧ r.1 = 0 ∧ pmapIsModified flat 7 r.2 = .ok false := by
  decide +kernel

end PocketDarwin.Pmap
