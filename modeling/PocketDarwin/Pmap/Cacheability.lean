/-
  The memory type of a page, in the entries that map it.

  `pmap_set_cache_attributes` writes a memory type into the entries of a page and remembers
  one bit; from this bit `pmap_enter_options` derives the type of a new entry, which is
  write-through or none, and `pmap_cache_attributes` never sees it.

  * `cache_run`: as long as no page is set non-cacheable and no mapping is entered of a page
    that was set to something else than write-through, all mappings of a page have the type
    that was asked for.
  * `mixed_types`: otherwise, they do not, or nothing tells that the page is non-cacheable.
-/
import PocketDarwin.Pmap.Effects

namespace PocketDarwin.Pmap

/-- What `pmap_set_cache_attributes` was last asked for, by page. -/
abbrev Asked := Ppn → Option (BitVec 32)

/-- The page that is set is remembered. -/
def Asked.step (asked : Asked) : Call → Asked
  | .setCacheAttributes pn cacheattr => Function.update asked pn (some cacheattr)
  | _ => asked

/-- A call, with what was asked for. -/
def askStep (c : Machine) (x : Except Stop State × Asked) (call : Call) : Except Stop State × Asked :=
  (step c x.1 call, x.2.step call)

/-- The mappings of a page have one memory type, the one that was asked for, and `pmap_cache_attributes` tells whether
    the page was set non-cacheable. -/
structure Coherent (c : Machine) (s : State) (asked : Asked) : Prop where
  same : ∀ p m va m' va', (s.view c).Mapped c p m va → (s.view c).Mapped c p m' va' →
    memoryType ((s.view c).entry m va) = memoryType ((s.view c).entry m' va')
  wanted : ∀ p cacheattr m va, asked p = some cacheattr → (s.view c).Mapped c p m va →
    memoryType ((s.view c).entry m va) = cacheTemplate cacheattr
  reported : ∀ p cacheattr, c.Managed p → asked p = some cacheattr →
    (pmapCacheAttributes c p s = vmWimgIo ↔ cacheattr &&& vmMemNotCacheable ≠ 0)

/-- No page is set non-cacheable, and no mapping is entered of a page that was set to something else than
    write-through. -/
def WriteThrough (c : Machine) (asked : Asked) : Call → Prop
  | .setCacheAttributes _ cacheattr => cacheattr &&& vmMemNotCacheable = 0
  | .enter _ _ pa _ _ _ => c.Managed pa → asked pa = none ∨ asked pa = some vmWimgWthru
  | _ => True

/-- The type of the mappings of a page. -/
def Asked.type (asked : Asked) (p : Ppn) : Word := (asked p).elim writeThrough cacheTemplate

/-- What the calls keep. -/
structure Typed (c : Machine) (v : View) (asked : Asked) : Prop where
  cached : ∀ p, v.flags p &&& typeNocache = 0
  cacheable : ∀ p cacheattr, asked p = some cacheattr → cacheattr &&& vmMemNotCacheable = 0
  type : ∀ p m va, v.Mapped c p m va → memoryType (v.entry m va) = asked.type p

section
variable {c : Machine} {s : State} {v v' : View} {asked : Asked} {call : Call} {p : Ppn}

/-- `pmap_cache_attributes` never reports a page as non-cacheable. -/
theorem pmapCacheAttributes_ne : pmapCacheAttributes c p s ≠ vmWimgIo := by
  rw [pmapCacheAttributes]
  split_ifs with hzero hbit hbit
  · exact absurd hbit (by decide)
  · decide
  · exact absurd hbit (by decide)
  · decide

namespace Typed

theorem coherent (h : Typed c (s.view c) asked) : Coherent c s asked where
  same := fun p m va m' va' hmapped hmapped' => (h.type p m va hmapped).trans (h.type p m' va' hmapped').symm
  wanted := by
    intro p cacheattr m va hasked hmapped
    rw [h.type p m va hmapped, Asked.type, hasked, Option.elim_some]
  reported := by
    intro p cacheattr _ hasked
    exact iff_of_false pmapCacheAttributes_ne (not_not.2 (h.cacheable p cacheattr hasked))

/-- The type of a new entry. -/
theorem memoryType_template (h : Typed c v asked) {m va : ℕ} {prot : Prot} (hp : c.Managed p) :
    memoryType (v.template c m va p prot) = writeThrough := by
  rw [View.template, memoryType_templatePte (v.isMemoryType_cacheAttributes c p), View.cacheAttributes,
    if_neg (not_not.2 hp), if_neg (not_not.2 (h.cached p))]

/-- The attribute for pages that are not cached stays clear. -/
theorem cached_effect (h : Typed c v asked) (heffect : v.Effect c call v') (hcall : WriteThrough c asked call) (p : Ppn) :
    v'.flags p &&& typeNocache = 0 := by
  have hkeeps : call.marks &&& typeNocache = 0 → v'.flags p &&& typeNocache = 0 :=
    fun hmask => (heffect.keeps hmask p).trans (h.cached p)
  cases call with
  | setCacheAttributes pn cacheattr =>
    obtain ⟨l, -, rfl⟩ := heffect
    have hcall' : ¬ cacheattr &&& vmMemNotCacheable ≠ 0 := not_not.2 hcall
    have hfold := (View.foldl_cacheAt (isMemoryType_cacheTemplate cacheattr) v l).1
    simp only [View.setCacheAttributes, View.mark, if_neg hcall', hfold, Function.update_apply]
    split_ifs
    · exact and_and_of_disjoint (by decide)
    · exact h.cached p
  | clearRefmod pn mask =>
    obtain rfl := heffect
    simp only [View.mark, Function.update_apply]
    split_ifs
    · rw [BitVec.and_assoc, BitVec.and_comm (~~~mask), ← BitVec.and_assoc, h.cached]
      exact BitVec.zero_and
    · exact h.cached p
  | _ =>
    refine hkeeps ?_
    simp only [Call.marks]
    decide

/-- `pmap_set_cache_attributes` -/
theorem type_set {pn : Ppn} {cacheattr : BitVec 32} {l : List (ℕ × ℕ)} {m va : ℕ} (h : Typed c v asked)
    (hl : v.MappingsOf c pn l) (hmapped : (v.setCacheAttributes pn cacheattr l).Mapped c p m va) :
    memoryType ((v.setCacheAttributes pn cacheattr l).entry m va) = (asked.step (.setCacheAttributes pn cacheattr)).type p := by
  have hcache := isMemoryType_cacheTemplate cacheattr
  obtain ⟨hp, hboot, hpage⟩ := hmapped
  rw [Asked.type, Asked.step]
  rw [View.entry_setCacheAttributes hl.1] at hpage ⊢
  by_cases hmem : (m, va) ∈ l
  · rw [if_pos hmem, paIndex_setCacheability hcache, ((hl.2 m va).1 hmem).2.2] at hpage
    rw [if_pos hmem, memoryType_setCacheability hcache, ← hpage, Function.update_self, Option.elim_some]
  · rw [if_neg hmem] at hpage ⊢
    have hne : p ≠ pn := by
      rintro rfl
      exact hmem ((hl.2 m va).2 ⟨hp, hboot, hpage⟩)
    rw [Function.update_of_ne hne, h.type p m va ⟨hp, hboot, hpage⟩, Asked.type]

/-- **One call** keeps the memory types. -/
theorem effect (h : Typed c v asked) (heffect : v.Effect c call v') (hcall : WriteThrough c asked call) :
    Typed c v' (asked.step call) := by
  refine ⟨h.cached_effect heffect hcall, fun p cacheattr hasked => ?_, fun p m va hmapped => ?_⟩
  · cases call with
    | setCacheAttributes pn cacheattr' =>
      rw [Asked.step, Function.update_apply] at hasked
      split_ifs at hasked
      · exact Option.some.inj hasked ▸ hcall
      · exact h.cacheable p cacheattr hasked
    | _ => exact h.cacheable p cacheattr hasked
  · by_cases hset : ∃ pn cacheattr, call = .setCacheAttributes pn cacheattr
    · obtain ⟨pn, cacheattr, rfl⟩ := hset
      obtain ⟨l, hl, rfl⟩ := heffect
      exact h.type_set hl hmapped
    · have hsame : asked.step call = asked := by
        cases call with
        | setCacheAttributes pn cacheattr => exact absurd ⟨pn, cacheattr, rfl⟩ hset
        | _ => rfl
      rw [hsame]
      rcases heffect.entry m va with heq | hzero | ⟨-, hpage, -, htype⟩ | ⟨pa, prot, wired, grab,
        rfl, hwritten⟩ |
        ⟨pn, cacheattr, rfl, -⟩
      · rw [heq]
        exact h.type p m va (by rwa [View.Mapped, ← heq])
      · exact absurd hzero hmapped.entry_ne_zero
      · rw [htype]
        exact h.type p m va ⟨hmapped.1, hmapped.2.1, hpage ▸ hmapped.2.2⟩
      · obtain rfl : pa = p := by
          rw [← hmapped.2.2, hwritten, View.paIndex_template]
        rw [hwritten, h.memoryType_template hmapped.1, Asked.type]
        rcases hcall hmapped.1 with hnone | hsome
        · rw [hnone, Option.elim_none]
        · rw [hsome, Option.elim_some]
          decide
      · exact absurd ⟨pn, cacheattr, rfl⟩ hset

end Typed

theorem typed_boot (c : Machine) : Typed c ((boot c).view c) fun _ => none where
  cached := fun _ => BitVec.zero_and
  cacheable := fun _ _ hasked => by simp at hasked
  type := fun _ _ _ hmapped => absurd hmapped.resident not_resident_boot

/-- **One page, one memory type**, in every run that sets no page non-cacheable and enters no mapping of a page that was
    set to something else than write-through. -/
theorem cache_run {log : List Call}
    (hlog : Meets (askStep c) (fun x call => ∀ s, x.1 = .ok s → Orderly c s call ∧ WriteThrough c x.2 call)
      (.ok (boot c), fun _ => none) log) :
    Always (askStep c) (fun x => ∀ s, x.1 = .ok s → Coherent c s x.2) (.ok (boot c), fun _ => none) log := by
  have hrun : Always (askStep c) (fun x => ∀ s, x.1 = .ok s → Inv c s ∧ Typed c (s.view c) x.2)
      (.ok (boot c), fun _ => none) log := by
    refine Always.of_meets ?_ ?_ hlog
    · rintro ⟨r, asked⟩ call hI hmeets s' hs'
      obtain ⟨s, rfl, hok⟩ := step_eq_ok.1 hs'
      obtain ⟨hinv, htyped⟩ := hI s rfl
      obtain ⟨ho, hcall⟩ := hmeets s rfl
      obtain ⟨hinv', heffect⟩ := call_ok hinv ho hok
      exact ⟨hinv', htyped.effect heffect hcall⟩
    · intro s hs
      obtain rfl := Except.ok.inj hs
      exact ⟨inv_boot c, typed_boot c⟩
  exact hrun.imp fun x hI s hs => (hI s hs).2.coherent

end

instance (c : Machine) (asked : Asked) : ∀ call, Decidable (WriteThrough c asked call)
  | .setCacheAttributes _ cacheattr => inferInstanceAs (Decidable (cacheattr &&& vmMemNotCacheable = 0))
  | .enter _ _ pa _ _ _ => inferInstanceAs (Decidable (c.Managed pa → asked pa = none ∨ asked pa = some vmWimgWthru))
  | .create _ _ | .remove _ _ _ | .protect _ _ _ _ | .pageProtect _ _ | .disconnect _ | .changeWiring _ _ _ _ | .setModify _
  | .clearModify _ | .setReference _ | .clearReference _ | .clearRefmod _ _ | .mappingAdjust | .mappingFreePrime => isTrue trivial

/-- A page that is set to write-through between two mappings. -/
theorem cache_run_flat : Always (askStep flat) (fun x => ∀ s, x.1 = .ok s → Coherent flat s x.2) (.ok (boot flat), fun _ => none)
    [.create 2 5, .enter 2 0x3000 7 vmProtAll false 6, .setCacheAttributes 7 vmWimgWthru,
      .enter 2 0x4000 7 vmProtAll false 8] := by
  have hlog : Meets (askStep flat) (fun x call => ∀ s, x.1 = .ok s → Orderly flat s call ∧
      WriteThrough flat x.2 call)
      (.ok (boot flat), fun _ => none) [.create 2 5, .enter 2 0x3000 7 vmProtAll false 6,
        .setCacheAttributes 7 vmWimgWthru,
        .enter 2 0x4000 7 vmProtAll false 8] := by decide +kernel
  exact cache_run hlog

/-- Two mappings of a page with different types: the page is set to copyback between them.  And `pmap_cache_attributes`
    reports a page that was set to `VM_WIMG_IO` as cacheable. -/
theorem mixed_types :
    (∃ s, run flat [.create 2 5, .enter 2 0x3000 7 vmProtAll false 6, .setCacheAttributes 7 vmWimgCopyback,
        .enter 2 0x4000 7 vmProtAll false 8] = .ok s ∧
      (s.view flat).Mapped flat 7 2 0x3000 ∧ (s.view flat).Mapped flat 7 2 0x4000 ∧
      memoryType ((s.view flat).entry 2 0x3000) ≠ memoryType ((s.view flat).entry 2 0x4000)) ∧
    ∃ s, run flat [.setCacheAttributes 7 vmWimgIo] = .ok s ∧ pmapCacheAttributes flat 7 s = vmWimgCopyback := by
  decide +kernel

end PocketDarwin.Pmap
