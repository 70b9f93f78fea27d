/-
  `pmap_remove` and `pmap_protect` over ranges of addresses.

  The code cuts a range at the megabytes that one table covers, and goes through the
  entries of each; the callers see one entry after the other.

  * `forChunks_spec`: the loop over the tables.
  * `pmapRemove_spec`: removing a range removes what its addresses map, and stops nowhere
    but, possibly, at the count of wired pages.
  * `pmapProtect_spec`: protecting a range protects what its addresses map.
-/
import PocketDarwin.Pmap.View

namespace PocketDarwin.Pmap

/-! ## Addresses -/

/-- The addresses of `n` pages from `va` on. -/
def pagesFrom : (n va : ℕ) → List ℕ
  | 0, _ => []
  | n + 1, va => va :: pagesFrom n (va + 0x1000)

/-- The addresses of the pages from `sva` up to `eva`. -/
def pages (sva eva : ℕ) : List ℕ := pagesFrom ((eva - sva) / 0x1000) sva

theorem mem_pagesFrom {n va va' : ℕ} : va' ∈ pagesFrom n va ↔ ∃ j < n, va' = va + j * 0x1000 := by
  induction n generalizing va with
  | zero => simp [pagesFrom]
  | succ n ih =>
    rw [pagesFrom, List.mem_cons, ih]
    constructor
    · rintro (rfl | ⟨j, hj, rfl⟩)
      · exact ⟨0, by omega, by omega⟩
      · exact ⟨j + 1, by omega, by omega⟩
    · rintro ⟨j, hj, rfl⟩
      cases j with
      | zero => exact .inl (by omega)
      | succ j => exact .inr ⟨j, by omega, by omega⟩

theorem pagesFrom_append (n k va : ℕ) : pagesFrom (n + k) va = pagesFrom n va ++ pagesFrom k (va + n * 0x1000) := by
  induction n generalizing va with
  | zero => simp [pagesFrom]
  | succ n ih =>
    rw [Nat.succ_add, pagesFrom, ih, pagesFrom, List.cons_append]
    have : va + 0x1000 + n * 0x1000 = va + (n + 1) * 0x1000 := by omega
    rw [this]

theorem mem_pages {sva eva va : ℕ} (hs : sva % 0x1000 = 0) (he : eva % 0x1000 = 0) :
    va ∈ pages sva eva ↔ va % 0x1000 = 0 ∧ sva ≤ va ∧ va < eva := by
  rw [pages, mem_pagesFrom]
  constructor
  · rintro ⟨j, hj, rfl⟩
    omega
  · rintro ⟨hva, hle, hlt⟩
    exact ⟨(va - sva) / 0x1000, by omega, by omega⟩

theorem pages_append {sva lva eva : ℕ} (hs : sva % 0x1000 = 0) (hl : lva % 0x1000 = 0) (he : eva % 0x1000 = 0)
    (h₁ : sva ≤ lva) (h₂ : lva ≤ eva) : pages sva eva = pages sva lva ++ pages lva eva := by
  have hn : (eva - sva) / 0x1000 = (lva - sva) / 0x1000 + (eva - lva) / 0x1000 := by omega
  have hva : sva + (lva - sva) / 0x1000 * 0x1000 = lva := by omega
  rw [pages, hn, pagesFrom_append, hva, pages, pages]

theorem pages_self (va : ℕ) : pages va va = [] := by
  rw [pages, Nat.sub_self]
  rfl

/-- A part of the range that `pmap_remove` and `pmap_protect` do at once: it is in one megabyte. -/
structure Chunk (sva lva : ℕ) : Prop where
  aligned : sva % 0x1000 = 0
  aligned' : lva % 0x1000 = 0
  lt : sva < lva
  le : lva ≤ (sva / 0x100000 + 1) * 0x100000

/-- **Cutting a range.**  Below the last megabyte, the cut is the end of a megabyte or of the range. -/
theorem chunk_chunkEnd {sva eva : ℕ} (hs : sva % 0x1000 = 0) (he : eva % 0x1000 = 0) (hlt : sva < eva)
    (hend : eva ≤ 0xfff00000) : Chunk sva (chunkEnd sva eva) ∧ chunkEnd sva eva ≤ eva ∧
      (chunkEnd sva eva = eva ∨ chunkEnd sva eva / 0x100000 = sva / 0x100000 + 1) := by
  have hmod : (sva + 0x100000) % 0x100000000 = sva + 0x100000 := Nat.mod_eq_of_lt (by omega)
  unfold chunkEnd
  rw [hmod]
  dsimp only
  split_ifs with hcut
  · exact ⟨⟨hs, he, hlt, by omega⟩, le_rfl, .inl rfl⟩
  · exact ⟨⟨hs, by omega, by omega, by omega⟩, by omega, .inr (by omega)⟩

/-- The number of entries that the code finds from the two pointers. -/
theorem Chunk.entries {sva lva : ℕ} (h : Chunk sva lva) :
    (pteIndex lva + 0x100 * ((lva / 0x100000 : ℕ) - (sva / 0x100000 : ℕ)) - pteIndex sva : ℤ) =
      ((lva - sva) / 0x1000 : ℕ) ∧ pteIndex sva + (lva - sva) / 0x1000 ≤ 0x100 := by
  obtain ⟨h1, h2, h3, h4⟩ := h
  unfold pteIndex
  omega

theorem foldl_of_fixed {α β : Type} {f : β → α → β} {b : β} {l : List α} (h : ∀ a ∈ l, f b a = b) : l.foldl f b = b := by
  induction l with
  | nil => rfl
  | cons a l ih =>
    rw [List.foldl_cons, h a List.mem_cons_self]
    exact ih fun a' ha' => h a' (List.mem_cons_of_mem a ha')

/-! ## The loop over the tables -/

section
variable {c : Machine} {m eva : ℕ} {body : Block → ℕ → ℕ → ℕ → State → Except Stop State}

/-- **The loop.**  `Q sva` holds when the range is done up to `sva`: the body gets from one cut to the next, or
    stops, and a part without a table needs nothing to be done. -/
theorem forChunks_spec {Q : ℕ → State → Prop} {E : Stop → Prop}
    (htte : ∀ sva s, Q sva s → sva < eva → ∃ w, s.tables.tte m sva = .ok w)
    (hbody : ∀ sva lva s w, Q sva s → Chunk sva lva → lva ≤ eva → s.tables.tte m sva = .ok w → IsPageTable w →
      (∃ s', body (l1PteAddr w) (pteIndex sva) sva ((lva - sva) / 0x1000) s = .ok s' ∧ Q lva s') ∨
        ∃ e, body (l1PteAddr w) (pteIndex sva) sva ((lva - sva) / 0x1000) s = .error e ∧ E e)
    (hskip : ∀ sva lva s w, Q sva s → Chunk sva lva → lva ≤ eva → s.tables.tte m sva = .ok w → ¬ IsPageTable w →
      Q lva s)
    (he : eva % 0x1000 = 0) (hend : eva ≤ 0xfff00000) {fuel sva : ℕ} {s : State} (hs : sva % 0x1000 = 0)
    (hle : sva ≤ eva) (hfuel : sva < eva → eva ≤ (sva / 0x100000 + fuel) * 0x100000) (hQ : Q sva s) :
    (∃ s', forChunks body m eva fuel sva s = .ok s' ∧ Q eva s') ∨
      ∃ e, forChunks body m eva fuel sva s = .error e ∧ E e := by
  induction fuel generalizing sva s with
  | zero =>
    obtain rfl : sva = eva := by
      by_contra hne
      have := hfuel (by omega)
      omega
    exact .inl ⟨s, by rw [forChunks, if_neg (lt_irrefl _)], hQ⟩
  | succ fuel ih =>
    rw [forChunks]
    by_cases hlt : sva < eva
    case neg =>
      obtain rfl : sva = eva := by omega
      exact .inl ⟨s, by rw [if_neg hlt], hQ⟩
    obtain ⟨hchunk, hlva, hnext⟩ := chunk_chunkEnd hs he hlt hend
    obtain ⟨hn, hn'⟩ := hchunk.entries
    obtain ⟨w, hw⟩ := htte sva s hQ hlt
    have hfuel' : chunkEnd sva eva < eva → eva ≤ (chunkEnd sva eva / 0x100000 + fuel) * 0x100000 := by
      have := hfuel hlt
      omega
    rw [if_pos hlt]
    simp only [hw, Bind.bind, Except.bind]
    by_cases hpt : IsPageTable w
    · have hok : ¬ ((((chunkEnd sva eva - sva) / 0x1000 : ℕ) : ℤ) < 0 ∨
          0x400 < (((chunkEnd sva eva - sva) / 0x1000 : ℕ) : ℤ) * 4) := by omega
      rw [if_pos hpt, hn, if_neg hok, Int.toNat_natCast]
      rcases hbody sva _ s w hQ hchunk hlva hw hpt with ⟨s', hs', hQ'⟩ | ⟨e, herr, hE⟩
      · simp only [hs']
        exact ih hchunk.aligned' hlva hfuel' hQ'
      · simp only [herr]
        exact .inr ⟨e, rfl, hE⟩
    · rw [if_neg hpt]
      exact ih hchunk.aligned' hlva hfuel' (hskip sva _ s w hQ hchunk hlva hw hpt)

/-- The entries of a part of a range are next to each other in its table. -/
theorem pmapPte_chunk {t : Tables} {w : Word} {sva lva j : ℕ} (hwf : t.WF c) (hm : t.Live m) (hc : Chunk sva lva)
    (hl : Lookup c m sva) (hj : j < (lva - sva) / 0x1000) (hw : t.tte m sva = .ok w) (hpt : IsPageTable w) :
    pmapPte c t m (sva + j * 0x1000) = .ok (some (l1PteAddr w, pteIndex sva + j)) := by
  obtain ⟨h1, h2, h3, h4⟩ := hc
  have hl' : Lookup c m (sva + j * 0x1000) := by
    refine hl.imp_right fun hlow => ?_
    unfold commPageBase at hlow ⊢
    omega
  have htte : tteIndex (sva + j * 0x1000) = tteIndex sva := by
    unfold tteIndex
    omega
  have hpte : pteIndex (sva + j * 0x1000) = pteIndex sva + j := by
    unfold pteIndex
    omega
  obtain rfl : t.l1 m (tteIndex sva) = w := by
    rw [hwf.tte hm hl] at hw
    exact Except.ok.inj hw
  rw [hwf.pmapPte hm hl', htte, hpte, if_neg ((hwf.isPageTable m _ (hwf.covers hm hl)).1 hpt)]

/-- There are no entries without a table. -/
theorem entry_chunk {s : State} {w : Word} {sva lva va : ℕ} (hwf : s.tables.WF c) (hm : s.tables.Live m)
    (hc : Chunk sva lva) (hl : Lookup c m sva) (hva : va ∈ pages sva lva) (hw : s.tables.tte m sva = .ok w)
    (hpt : ¬ IsPageTable w) : (s.view c).entry m va = 0 := by
  by_contra hne
  obtain ⟨haligned, -⟩ := State.exists_pte hwf hne
  rw [State.entry_view haligned] at hne
  rw [mem_pages hc.aligned hc.aligned'] at hva
  obtain ⟨h1, h2, h3, h4⟩ := hc
  have hl' : Lookup c m va := by
    refine hl.imp_right fun hlow => ?_
    unfold commPageBase at hlow ⊢
    omega
  have htte : tteIndex va = tteIndex sva := by
    unfold tteIndex
    omega
  obtain rfl : s.tables.l1 m (tteIndex sva) = w := by
    rw [hwf.tte hm hl] at hw
    exact Except.ok.inj hw
  have hzero : l1PteAddr (s.tables.l1 m (tteIndex sva)) = 0 := by
    by_contra hb
    exact hpt ((hwf.isPageTable m _ (hwf.covers hm hl)).2 hb)
  rw [hwf.entry hm hl', htte, if_pos hzero] at hne
  exact hne rfl

/-- **Ranges, as the callers see them.**  If the body does `f` at the addresses of a part, the loop does `f`
    at the addresses of the range; `E` tells of the view that a stop prevents. -/
theorem forChunks_foldl (body : Block → ℕ → ℕ → ℕ → State → Except Stop State) {f : View → ℕ → View} {E : Stop → View → Prop} {s : State} {sva : ℕ}
    (hf : ∀ v va, v.entry m va = 0 → f v va = v) (hE : ∀ e v va, E e v → E e (f v va))
    (hbody : ∀ b i n va s', Inv c s' → (∀ j < n, pmapPte c s'.tables m (va + j * 0x1000) = .ok (some (b, i + j))) →
      (∀ va' ∈ pagesFrom n va, Aligned va' ∧ va' ∈ pages sva eva) →
      (∃ s₁, body b i va n s' = .ok s₁ ∧ Inv c s₁ ∧ s₁.view c = (pagesFrom n va).foldl f (s'.view c) ∧
        s'.tables.Same s₁.tables) ∨
        ∃ e, body b i va n s' = .error e ∧ E e ((pagesFrom n va).foldl f (s'.view c)))
    (h : Inv c s) (hm : s.tables.Live m) (hs : sva % 0x1000 = 0) (he : eva % 0x1000 = 0) (hend : eva ≤ 0xfff00000)
    (hl : m = c.kernelPmap ∨ eva ≤ commPageBase) :
    (∃ s', forChunks body m eva 0x1000 sva s = .ok s' ∧ Inv c s' ∧
      s'.view c = (pages sva eva).foldl f (s.view c) ∧ s.tables.Same s'.tables) ∨
      ∃ e, forChunks body m eva 0x1000 sva s = .error e ∧ E e ((pages sva eva).foldl f (s.view c)) := by
  rcases Nat.le_total eva sva with hge | hle
  · have hnil : pages sva eva = [] := by
      rw [pages, Nat.sub_eq_zero_of_le hge]
      rfl
    rw [hnil]
    exact .inl ⟨s, by rw [forChunks, if_neg (Nat.not_lt.2 hge)], h, rfl, .refl _⟩
  let Q : ℕ → State → Prop := fun va s' => sva ≤ va ∧ va % 0x1000 = 0 ∧ Inv c s' ∧
    s'.view c = (pages sva va).foldl f (s.view c) ∧ s.tables.Same s'.tables
  have hlookup : ∀ va, va < eva → Lookup c m va := fun va hlt => hl.imp_right fun hlow =>
    hlt.trans_le hlow
  have hstart : Q sva s := ⟨le_rfl, hs, h, by rw [pages_self]; rfl, .refl _⟩
  refine (forChunks_spec ?_ ?_ ?_ he hend hs hle (by omega) hstart).imp_left ?_
  · rintro va s' ⟨-, -, hinv, -, hsame⟩ hlt
    exact ⟨_, hinv.wf.tte (hsame.live.2 hm) (hlookup va hlt)⟩
  · rintro va lva s' w ⟨hva, hva', hinv, hview, hsame⟩ hchunk hlva hw hpt
    have hpages := pages_append hs hva' hchunk.aligned' hva hchunk.lt.le
    have hpte : ∀ j < (lva - va) / 0x1000, pmapPte c s'.tables m (va + j * 0x1000) =
        .ok (some (l1PteAddr w, pteIndex va + j)) := fun j hj =>
      pmapPte_chunk hinv.wf (hsame.live.2 hm) hchunk (hlookup va (hchunk.lt.trans_le hlva)) hj hw hpt
    have haddr : ∀ va' ∈ pages va lva, Aligned va' ∧ va' ∈ pages sva eva := by
      intro va' hmem
      obtain ⟨h1, h2, h3⟩ := (mem_pages hva' hchunk.aligned').1 hmem
      exact ⟨⟨h1, by omega⟩, (mem_pages hs he).2 ⟨h1, hva.trans h2, h3.trans_le hlva⟩⟩
    have hfold : (pages va lva).foldl f (s'.view c) = (pages sva lva).foldl f (s.view c) := by
      rw [hview, hpages, List.foldl_append]
    rcases hbody _ _ _ _ s' hinv hpte haddr with ⟨s₁, hok, hinv₁, hview₁, hsame₁⟩ | ⟨e, herr, hneg⟩
    · exact .inl ⟨s₁, hok, hva.trans hchunk.lt.le, hchunk.aligned', hinv₁, hview₁.trans hfold,
        hsame.trans hsame₁⟩
    · refine .inr ⟨e, herr, ?_⟩
      rw [pages_append hs hchunk.aligned' he (hva.trans hchunk.lt.le) hlva, List.foldl_append, ← hfold]
      exact List.foldlRecOn _ f hneg fun v hv va _ => hE e v va hv
  · rintro va lva s' w ⟨hva, hva', hinv, hview, hsame⟩ hchunk hlva hw hpt
    refine ⟨hva.trans hchunk.lt.le, hchunk.aligned', hinv, ?_, hsame⟩
    rw [pages_append hs hva' hchunk.aligned' hva hchunk.lt.le, List.foldl_append, ← hview,
      foldl_of_fixed]
    intro va' hmem
    exact hf _ _ (entry_chunk hinv.wf (hsame.live.2 hm) hchunk
      (hlookup va (hchunk.lt.trans_le hlva)) hmem hw hpt)
  · rintro ⟨s', hok, -, -, hinv, hview, hsame⟩
    exact ⟨s', hok, hinv, hview, hsame⟩

end

/-! ## Removing -/

section
variable {c : Machine} {s : State} {v : View} {m va : ℕ} {a : Removal} {loc : Block × ℕ}

theorem View.count_charge (n k n' k' : ℤ) :
    (v.count m (View.charge n k)).count m (View.charge n' k') = v.count m (View.charge (n + n') (k + k')) := by
  simp only [View.count, View.charge, Function.update_idem, Function.update_self, View.mk.injEq,
    true_and]
  congr 1
  simp only [Stats.mk.injEq]
  exact ⟨by omega, by omega, by rw [Int.add_mul]; omega, by rw [Int.add_mul]; omega⟩

/-- The variables of `pmap_remove_range` when the callers would see `v`: the counts are not adjusted yet. -/
structure Removal.Shows (c : Machine) (m : ℕ) (a : Removal) (v : View) : Prop where
  wf : a.s.tables.WF c
  lists : ∃ names, a.s.pv.Holds c a.bunch names (fun _ => False) ∧ Agrees c (a.s.view c) names
  view : (a.s.view c).count m (View.charge a.numRemoved a.numUnwired) = v
  counted : ∀ m', 0 ≤ v.excess c m'

section
variable {p : Ppn} {r : Ref} {bits : BitVec 32}

theorem physAttributeTest_eq (h : paiToPvh c p = .ok r) : physAttributeTest c p bits s = .ok (s.flags p &&& bits) := by
  rw [physAttributeTest, h]
  rfl

theorem physAttributeClear_eq (h : paiToPvh c p = .ok r) :
    physAttributeClear c p bits s = .ok { s with flags := Function.update s.flags p (s.flags p &&& ~~~bits) } := by
  rw [physAttributeClear, h]
  rfl

theorem physAttributeSet_eq (h : paiToPvh c p = .ok r) :
    physAttributeSet c p bits s = .ok { s with flags := Function.update s.flags p (s.flags p ||| bits) } := by
  rw [physAttributeSet, h]
  rfl

end

section
variable (hp : c.Managed (paIndex (v.entry m va)))
include hp

theorem View.entry_removeAt : (v.removeAt c m va).entry = (v.set m va 0).entry := by
  simp only [View.removeAt, if_pos hp]
  split_ifs <;> rfl

theorem View.stats_removeAt : (v.removeAt c m va).stats = Function.update v.stats m
    (View.charge 1 (if v.flags (paIndex (v.entry m va)) &&& typeWired ≠ 0 then 1 else 0) (v.stats m)) := by
  simp only [View.removeAt, if_pos hp]
  split_ifs <;> rfl

end

theorem View.removeAt_of_not_managed (hp : ¬ c.Managed (paIndex (v.entry m va))) : v.removeAt c m va = v := by
  simp only [View.removeAt, if_neg hp]

/-- One mapping less, and one less counted. -/
theorem View.excess_removeAt (hva : Aligned va) (hboot : ¬ c.Boot m va) (m' : ℕ) :
    (v.removeAt c m va).excess c m' = v.excess c m' := by
  by_cases hp : c.Managed (paIndex (v.entry m va))
  · refine View.excess_of_removed hva ⟨hp, hboot⟩ (View.entry_removeAt hp) (fun m' => ?_) m'
    rw [View.stats_removeAt hp]
    by_cases hm : m' = m
    · subst hm
      simp [View.charge]
    · simp [hm]
  · rw [View.removeAt_of_not_managed hp]

/-- **A round of `pmap_remove_range`.** -/
theorem removeOne_spec (h : a.Shows c m v) (hpte : pmapPte c a.s.tables m va = .ok (some loc)) (hva : Aligned va)
    (hboot : ¬ c.Boot m va) :
    ∃ a', removeOne c m va loc a = .ok a' ∧ a'.Shows c m (v.removeAt c m va) ∧ a.s.tables.Same a'.s.tables := by
  have hres : ∀ m', 0 ≤ (v.removeAt c m va).excess c m' := by
    intro m'
    rw [View.excess_removeAt hva hboot]
    exact h.counted m'
  obtain ⟨hwf, ⟨names, hholds, hagree⟩, hview, -⟩ := h
  have hentry : v.entry = (a.s.view c).entry := by rw [← hview]; rfl
  have hflags : v.flags = a.s.flags := by rw [← hview]; rfl
  have hget : a.s.tables.get loc = v.entry m va := by rw [hentry, State.get_eq hpte hva]
  unfold removeOne
  simp only [hget]
  by_cases hp : c.Managed (paIndex (v.entry m va))
  case neg =>
    rw [View.removeAt_of_not_managed hp] at hres ⊢
    refine ⟨a, ?_, ⟨hwf, ⟨names, hholds, hagree⟩, hview, hres⟩, .refl _⟩
    split_ifs <;> rfl
  generalize hpp : paIndex (v.entry m va) = p at hp ⊢
  have hmapped : (a.s.view c).Mapped c p m va := ⟨hp, hboot, hentry ▸ hpp⟩
  obtain ⟨o, pv', hrem, hholds'⟩ :=
    hholds.pmapPvRemove hp ((hagree.mem_iff p m va).2 hmapped) (hagree.nodup p)
  have hagree' := hagree.remove hmapped View.not_managed_zero
  have hset : (a.s.set loc 0).view c = (a.s.view c).set m va 0 := State.view_set hwf hpte hva
  have hentry' : ∀ s' : State, s'.tables = a.s.tables.set loc 0 →
      (s'.view c).entry = ((a.s.view c).set m va 0).entry := by
    intro s' hs'
    rw [← hset, State.view, State.view, hs']
    rfl
  have hremove : v.removeAt c m va =
      if a.s.flags p &&& typeWired ≠ 0 then
        (((a.s.view c).mark p (· &&& ~~~typeWired)).set m va 0).count m
          (View.charge (a.numRemoved + 1) (a.numUnwired + 1))
      else ((a.s.view c).set m va 0).count m (View.charge (a.numRemoved + 1) (a.numUnwired + 0)) := by
    simp only [View.removeAt, hpp, if_pos hp, hflags]
    rw [← hview, ← View.count_charge, ← View.count_charge]
    split_ifs <;> rfl
  have hpai := paiToPvh_of_managed hp
  rw [if_neg hp.ne_zero, if_neg (not_not.2 hp), physAttributeTest_eq hpai, physAttributeClear_eq hpai]
  simp only [Bind.bind, Except.bind]
  by_cases hwired : a.s.flags p &&& typeWired ≠ 0
  · rw [if_pos hwired] at hremove
    simp only [if_pos hwired, State.set, hrem]
    refine ⟨_, rfl, ⟨hwf.set, ⟨_, hholds'.collectSome, hagree'.of_entry (hentry' _ rfl)⟩, ?_, hres⟩,
      .set loc 0⟩
    rw [hremove]
    exact congrArg (View.count · m _) (View.ext (hentry' _ rfl) rfl rfl)
  · rw [if_neg hwired, Int.add_zero] at hremove
    simp only [if_neg hwired, State.set, hrem]
    refine ⟨_, rfl, ⟨hwf.set, ⟨_, hholds'.collectSome, hagree'.of_entry (hentry' _ rfl)⟩, ?_, hres⟩,
      .set loc 0⟩
    rw [hremove]
    exact congrArg (View.count · m _) (View.ext (hentry' _ rfl) rfl rfl)

/-- **The loop of `pmap_remove_range`.** -/
theorem removeLoop_spec {b : Block} {n i : ℕ} (h : a.Shows c m v)
    (hpte : ∀ j < n, pmapPte c a.s.tables m (va + j * 0x1000) = .ok (some (b, i + j)))
    (hva : ∀ va' ∈ pagesFrom n va, Aligned va' ∧ ¬ c.Boot m va') :
    ∃ a', removeLoop c m b n i va a = .ok a' ∧ a'.Shows c m ((pagesFrom n va).foldl (View.removeAt c m) v) ∧
      a.s.tables.Same a'.s.tables := by
  induction n generalizing i va a v with
  | zero => exact ⟨a, rfl, h, .refl _⟩
  | succ n ih =>
    obtain ⟨haligned, hboot⟩ := hva va List.mem_cons_self
    have hpte₀ : pmapPte c a.s.tables m va = .ok (some (b, i)) := by simpa using hpte 0 (Nat.succ_pos n)
    obtain ⟨a₁, hone, hshows, hsame⟩ := removeOne_spec h hpte₀ haligned hboot
    have hpte' : ∀ j < n, pmapPte c a₁.s.tables m (va + 0x1000 + j * 0x1000) =
        .ok (some (b, i + 1 + j)) := by
      intro j hj
      have := hpte (j + 1) (Nat.succ_lt_succ hj)
      rw [hsame.pmapPte, Nat.add_assoc i, Nat.add_comm 1 j, ← this]
      congr 1
      omega
    obtain ⟨a', hloop, hshows', hsame'⟩ :=
      ih hshows hpte' fun va' hmem => hva va' (List.mem_cons_of_mem va hmem)
    refine ⟨a', ?_, hshows', hsame.trans hsame'⟩
    simp only [removeLoop, hone, Bind.bind, Except.bind]
    exact hloop

/-- Removing takes wired pages away, if any. -/
theorem View.wiredCount_removeAt_le : ((v.removeAt c m va).stats m).wiredCount ≤ (v.stats m).wiredCount := by
  by_cases hp : c.Managed (paIndex (v.entry m va))
  · rw [View.stats_removeAt hp, Function.update_self]
    simp only [View.charge]
    split_ifs <;> omega
  · rw [View.removeAt_of_not_managed hp]

/-- **`pmap_remove_range`.** -/
theorem pmapRemoveRange_spec {b : Block} {n i : ℕ} (h : Inv c s)
    (hpte : ∀ j < n, pmapPte c s.tables m (va + j * 0x1000) = .ok (some (b, i + j)))
    (hva : ∀ va' ∈ pagesFrom n va, Aligned va' ∧ ¬ c.Boot m va')
    (hv : (pagesFrom n va).foldl (View.removeAt c m) (s.view c) = v) :
    (∃ s', pmapRemoveRange c m b i va n s = .ok s' ∧ Inv c s' ∧ s'.view c = v ∧ s.tables.Same s'.tables) ∨
      pmapRemoveRange c m b i va n s = .error .wiredCount ∧ (v.stats m).wiredCount < 0 := by
  have hshows : Removal.Shows c m ⟨s, .empty, 0, 0⟩ (s.view c) := by
    refine ⟨h.wf, h.lists, ?_, h.counted⟩
    refine View.ext rfl rfl ?_
    simp [View.count, View.charge, State.view]
  obtain ⟨a, hloop, ⟨hwf, ⟨names, hholds, hagree⟩, hview, hres⟩, hsame⟩ :=
    removeLoop_spec hshows hpte hva
  rw [hv] at hview hres
  have hstats : v.stats m = View.charge a.numRemoved a.numUnwired (a.s.stats m) := by
    rw [← hview]
    exact Function.update_self _ _ _
  have hresident : ¬ (a.s.stats m).residentCount < a.numRemoved := by
    have := hres m
    rw [View.excess, hstats] at this
    simp only [View.charge] at this
    omega
  have hwired : (v.stats m).wiredCount = (a.s.stats m).wiredCount - a.numUnwired := by
    rw [hstats, View.charge]
  simp only [pmapRemoveRange, hloop, Bind.bind, Except.bind, if_neg hresident, State.count,
    Function.update_self]
  by_cases hlt : (a.s.stats m).wiredCount < a.numUnwired
  · rw [if_pos hlt]
    exact .inr ⟨rfl, by omega⟩
  · rw [if_neg hlt]
    left
    refine ⟨_, rfl, ?_⟩
    have hview' : State.view c { a.s with
        pv := a.s.pv.freeBunch .user a.bunch
        stats := Function.update a.s.stats m (View.charge a.numRemoved a.numUnwired (a.s.stats m)) }
          = v := by
      rw [← hview]
      rfl
    rw [Function.update_idem]
    refine ⟨⟨hwf, ⟨names, hholds.freeBunch .user, hagree.of_entry rfl⟩, ?_⟩, hview', hsame⟩
    intro m'
    have := hres m'
    rw [← hview'] at this
    exact this

/-- **`pmap_remove`.**  Addresses up to the last megabyte, of which none was mapped before `pmap_init`: what
    they map is removed. -/
theorem pmapRemove_spec {sva eva : ℕ} (h : Inv c s) (hm : s.tables.Live m) (hs : sva % 0x1000 = 0)
    (he : eva % 0x1000 = 0) (hend : eva ≤ 0xfff00000) (hl : m = c.kernelPmap ∨ eva ≤ commPageBase)
    (hboot : ∀ va ∈ pages sva eva, ¬ c.Boot m va) (hv : (pages sva eva).foldl (View.removeAt c m) (s.view c) = v) :
    (∃ s', pmapRemove c m sva eva s = .ok s' ∧ Inv c s' ∧ s'.view c = v ∧ s.tables.Same s'.tables) ∨
      pmapRemove c m sva eva s = .error .wiredCount ∧ (v.stats m).wiredCount < 0 := by
  have hspec := forChunks_foldl (pmapRemoveRange c m) (f := View.removeAt c m)
    (E := fun e v => e = .wiredCount ∧ (v.stats m).wiredCount < 0) ?_ ?_ ?_ h hm hs he hend hl
  · rw [hv] at hspec
    refine hspec.imp_right ?_
    rintro ⟨e, herr, rfl, hneg⟩
    exact ⟨herr, hneg⟩
  · intro v va hzero
    refine View.removeAt_of_not_managed fun hp => hp.ne_zero ?_
    rw [hzero, paIndex_zero]
  · rintro e v va ⟨rfl, hneg⟩
    exact ⟨rfl, View.wiredCount_removeAt_le.trans_lt hneg⟩
  · intro b i n va s' hinv hpte hva
    refine (pmapRemoveRange_spec hinv hpte (fun va' hmem => ?_) rfl).imp_right fun hstop =>
      ⟨_, hstop.1, rfl, hstop.2⟩
    exact (hva va' hmem).imp_right (hboot va')

/-! ## Protecting -/

theorem protectLoop_spec (prot : Prot) {b : Block} {n i : ℕ} (hwf : s.tables.WF c)
    (hpte : ∀ j < n, pmapPte c s.tables m (va + j * 0x1000) = .ok (some (b, i + j)))
    (hva : ∀ va' ∈ pagesFrom n va, Aligned va') :
    (protectLoop prot b n i s).view c = (pagesFrom n va).foldl (View.protectAt m prot) (s.view c) ∧
      (protectLoop prot b n i s).pv = s.pv ∧ s.tables.Same (protectLoop prot b n i s).tables ∧
      (protectLoop prot b n i s).tables.WF c := by
  induction n generalizing i va s with
  | zero => exact ⟨rfl, rfl, .refl _, hwf⟩
  | succ n ih =>
    have haligned := hva va List.mem_cons_self
    have hpte₀ : pmapPte c s.tables m va = .ok (some (b, i)) := by simpa using hpte 0 (Nat.succ_pos n)
    have hpte' : ∀ j < n, pmapPte c s.tables m (va + 0x1000 + j * 0x1000) =
        .ok (some (b, i + 1 + j)) := by
      intro j hj
      rw [Nat.add_assoc i, Nat.add_comm 1 j, ← hpte (j + 1) (Nat.succ_lt_succ hj)]
      congr 1
      omega
    have hva' : ∀ va' ∈ pagesFrom n (va + 0x1000), Aligned va' :=
      fun va' hmem => hva va' (List.mem_cons_of_mem va hmem)
    have hget := State.get_eq hpte₀ haligned
    simp only [protectLoop, hget, pagesFrom, List.foldl_cons]
    by_cases hvalid : Valid ((s.view c).entry m va)
    · have hprotect : (s.view c).protectAt m prot va =
          (s.set (b, i) (protectPte prot ((s.view c).entry m va))).view c := by
        rw [View.protectAt, if_pos hvalid, State.view_set hwf hpte₀ haligned]
      rw [if_pos hvalid, hprotect]
      obtain ⟨h₁, h₂, h₃, h₄⟩ := ih (s := s.set (b, i) (protectPte prot ((s.view c).entry m va)))
        hwf.set hpte' hva'
      exact ⟨h₁, h₂, (Tables.Same.set _ _).trans h₃, h₄⟩
    · rw [if_neg hvalid, View.protectAt, if_neg hvalid]
      exact ih hwf hpte' hva'

theorem View.foldl_protectAt (v : View) (m : ℕ) (prot : Prot) (l : List ℕ) :
    (l.foldl (View.protectAt m prot) v).flags = v.flags ∧ (l.foldl (View.protectAt m prot) v).stats = v.stats ∧
      ∀ m' va', paIndex ((l.foldl (View.protectAt m prot) v).entry m' va') = paIndex (v.entry m' va') := by
  induction l generalizing v with
  | nil => exact ⟨rfl, rfl, fun _ _ => rfl⟩
  | cons va l ih =>
    obtain ⟨hflags, hstats, hentry⟩ := ih (v.protectAt m prot va)
    rw [List.foldl_cons, hflags, hstats]
    have hone : (v.protectAt m prot va).flags = v.flags ∧ (v.protectAt m prot va).stats = v.stats ∧
        ∀ m' va', paIndex ((v.protectAt m prot va).entry m' va') = paIndex (v.entry m' va') := by
      rw [View.protectAt]
      split_ifs
      · refine ⟨rfl, rfl, fun m' va' => ?_⟩
        rw [View.entry_set]
        split_ifs with heq
        · rw [heq.1, heq.2, paIndex_protectPte]
        · rfl
      · exact ⟨rfl, rfl, fun _ _ => rfl⟩
    exact ⟨hone.1, hone.2.1, fun m' va' => (hentry m' va').trans (hone.2.2 m' va')⟩

/-- **`pmap_protect`**, of a range like that of `pmap_remove`, with some permission left. -/
theorem pmapProtect_spec {sva eva : ℕ} {prot : Prot} (h : Inv c s) (hm : s.tables.Live m) (hs : sva % 0x1000 = 0)
    (he : eva % 0x1000 = 0) (hend : eva ≤ 0xfff00000) (hl : m = c.kernelPmap ∨ eva ≤ commPageBase)
    (hprot : prot ≠ 0) :
    ∃ s', pmapProtect c m sva eva prot s = .ok s' ∧ Inv c s' ∧
      s'.view c = (pages sva eva).foldl (View.protectAt m prot) (s.view c) ∧ s.tables.Same s'.tables := by
  have hm₀ : m ≠ 0 := fun hzero => hm (hzero ▸ h.wf.null)
  rw [pmapProtect, if_neg hm₀, if_neg hprot]
  have hspec := forChunks_foldl (fun b i _ n s => .ok (protectLoop prot b n i s))
    (f := View.protectAt m prot)
    (E := fun _ _ => False) ?_ (fun _ _ _ => id) ?_ h hm hs he hend hl
  · exact hspec.resolve_right fun ⟨_, _, hfalse⟩ => hfalse
  · intro v va hzero
    rw [View.protectAt, hzero, if_neg (by decide)]
  · intro b i n va s' hinv hpte hva
    obtain ⟨hview, hpv, hsame, hwf⟩ := protectLoop_spec prot hinv.wf hpte fun va' hmem =>
      (hva va' hmem).1
    have heffect := (s'.view c).foldl_protectAt m prot (pagesFrom n va)
    have hstats : (protectLoop prot b n i s').stats = s'.stats :=
      (congrArg View.stats hview).trans heffect.2.1
    refine .inl ⟨_, rfl, hinv.of_same_pages hwf hpv (fun m' => by rw [hstats]) ?_, hview, hsame⟩
    · intro m' va'
      rw [hview]
      exact heffect.2.2 m' va'

end

end PocketDarwin.Pmap
