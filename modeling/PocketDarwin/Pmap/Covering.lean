/-
  Which entries `pmap_remove` and `pmap_protect` visit.

  The end of a megabyte is computed in 32 bits, so that the last megabyte ends at 0: a range
  that reaches into it is never done.  A table of the first level may be shorter than the
  address space, and the code reads what is behind it.

  * `forChunks_eq_parts`: the loops go through the parts that `rangeParts` cuts.
  * `rangeParts_spec`: below the last megabyte they are done, and visit what the table has.
  * `coversRange_iff`: when the loops cover their range.
-/
import PocketDarwin.Pmap.Ranges

namespace PocketDarwin.Pmap

/-- `*pmap_tte(pmap, va)` by the index of the address, for what is in memory `behind` the tables. -/
def Tables.descriptor (t : Tables) (behind : ℕ → ℕ → Word) (m i : ℕ) : Word :=
  if i * 4 < t.l1Size m then t.l1 m i else behind m i

/-- A page and the place of its entry. -/
structure Visit where
  va : ℕ
  loc : Block × ℕ
deriving DecidableEq, Repr

/-- What `pmap_remove_range` and the loop of `pmap_protect` are given: the entries from `spte` up
    to `epte`. -/
structure Part where
  table : Block
  first : ℕ
  va : ℕ
  count : ℕ
deriving DecidableEq, Repr

/-- The entries of a part, in the order of the code. -/
def Part.visits (p : Part) : List Visit :=
  (List.range p.count).map fun j => ⟨p.va + j * 0x1000, p.table, p.first + j⟩

/-- Where a loop over a range is after some rounds. -/
inductive Ending where
  | done
  /-- `panic("pmap_remove: attempting to remove bogus PTE range")` and its kind -/
  | bogusRange
  | running
deriving DecidableEq, Repr

/-- The loops of `pmap_remove` and `pmap_protect`, for `fuel` rounds: the parts, and where the
    loop is. -/
def rangeParts (word : ℕ → Word) (eva : ℕ) : (fuel sva : ℕ) → List Part × Ending
  | 0, sva => ([], if sva < eva then .running else .done)
  | fuel + 1, sva =>
    if sva < eva then
      let lva := chunkEnd sva eva
      let tte := word (tteIndex sva)
      if IsPageTable tte then
        let n : ℤ := pteIndex lva + 0x100 * ((lva / 0x100000 : ℕ) - (sva / 0x100000 : ℕ))
          - pteIndex sva
        if n < 0 ∨ 0x400 < n * 4 then ([], .bogusRange)
        else
          let rest := rangeParts word eva fuel lva
          (⟨l1PteAddr tte, pteIndex sva, sva, n.toNat⟩ :: rest.1, rest.2)
      else rangeParts word eva fuel lva
    else ([], .done)

/-- The loop of `pmap_remove` -/
def removeParts (t : Tables) (behind : ℕ → ℕ → Word) (m sva eva fuel : ℕ) : List Part × Ending :=
  rangeParts (t.descriptor behind m) eva fuel sva

/-- The loop of `pmap_protect`, which for no access is that of `pmap_remove` -/
def protectParts (t : Tables) (behind : ℕ → ℕ → Word) (m sva eva : ℕ) (prot : Prot) (fuel : ℕ) :
    List Part × Ending :=
  if m = 0 then ([], .done)
  else if prot = 0 then removeParts t behind m sva eva fuel
  else rangeParts (t.descriptor behind m) eva fuel sva

/-! ## The loops and their parts -/

/-- What is left of a loop when it is through with its parts. -/
def Ending.result (s : State) : Ending → Except Stop State
  | .done => .ok s
  | .bogusRange => .error .bogusRange
  | .running => .error .hang

section
variable {c : Machine} {m eva : ℕ} {word : ℕ → Word}

/-- **The loop, by parts.**  The body is done for one part after the other, if it leaves the table
    alone. -/
theorem forChunks_eq_parts {body : Block → ℕ → ℕ → ℕ → State → Except Stop State}
    (hbody : ∀ b i va n s s', body b i va n s = .ok s' → s.tables.Same s'.tables) {fuel sva : ℕ}
    {s : State}
    (htte : ∀ va < eva, s.tables.tte m va = .ok (word (tteIndex va))) :
    forChunks body m eva fuel sva s =
      (rangeParts word eva fuel sva).1.foldlM (fun s p => body p.table p.first p.va p.count s) s >>=
        fun s' => (rangeParts word eva fuel sva).2.result s' := by
  induction fuel generalizing sva s with
  | zero =>
    rw [forChunks, rangeParts]
    split_ifs <;> rfl
  | succ fuel ih =>
    rw [forChunks, rangeParts]
    by_cases hlt : sva < eva
    case neg =>
      rw [if_neg hlt, if_neg hlt]
      rfl
    rw [if_pos hlt, if_pos hlt, htte sva hlt]
    simp only [Bind.bind, Except.bind]
    by_cases hpt : IsPageTable (word (tteIndex sva))
    case neg =>
      rw [if_neg hpt, if_neg hpt]
      exact ih htte
    rw [if_pos hpt, if_pos hpt]
    split_ifs with hbogus
    · rfl
    · rw [List.foldlM_cons]
      cases hb : body (l1PteAddr (word (tteIndex sva))) (pteIndex sva) sva _ s with
      | error e => rfl
      | ok s' =>
        have hsame := hbody _ _ _ _ _ _ hb
        exact ih fun va hva => hsame.tte.trans (htte va hva)

theorem removeOne_same {va : ℕ} {loc : Block × ℕ} {a a' : Removal}
    (h : removeOne c m va loc a = .ok a') :
    a.s.tables.Same a'.s.tables := by
  simp only [removeOne, physAttributeTest, physAttributeClear, Bind.bind, Except.bind] at h
  split_ifs at h with hpai hmanaged
  · obtain rfl := Except.ok.inj h
    exact .refl _
  · cases hpvh : paiToPvh c (paIndex (a.s.tables.get loc)) with
    | error e => simp [hpvh] at h
    | ok r =>
      simp only [hpvh] at h
      split_ifs at h
      all_goals
        split at h
        · simp at h
        · obtain rfl := Except.ok.inj h
          exact .set _ _
  · obtain rfl := Except.ok.inj h
    exact .refl _

theorem removeLoop_same {b : Block} {n i va : ℕ} {a a' : Removal}
    (h : removeLoop c m b n i va a = .ok a') :
    a.s.tables.Same a'.s.tables := by
  induction n generalizing i va a with
  | zero =>
    obtain rfl := Except.ok.inj h
    exact .refl _
  | succ n ih =>
    rw [removeLoop] at h
    cases hone : removeOne c m va (b, i) a with
    | error e => simp [hone, Bind.bind, Except.bind] at h
    | ok a₁ =>
      rw [hone] at h
      exact (removeOne_same hone).trans (ih h)

theorem pmapRemoveRange_same {b : Block} {i va n : ℕ} {s s' : State}
    (h : pmapRemoveRange c m b i va n s = .ok s') : s.tables.Same s'.tables := by
  rw [pmapRemoveRange] at h
  cases hloop : removeLoop c m b n i va ⟨s, .empty, 0, 0⟩ with
  | error e => simp [hloop, Bind.bind, Except.bind] at h
  | ok a =>
    simp only [hloop, Bind.bind, Except.bind] at h
    split_ifs at h
    obtain rfl := Except.ok.inj h
    exact removeLoop_same hloop

theorem protectLoop_same (prot : Prot) (b : Block) (n i : ℕ) (s : State) :
    s.tables.Same (protectLoop prot b n i s).tables := by
  induction n generalizing i s with
  | zero => exact .refl _
  | succ n ih =>
    rw [protectLoop]
    refine Tables.Same.trans ?_ (ih _ _)
    split_ifs
    · exact .set _ _
    · exact .refl _

variable {s : State} {sva : ℕ} {behind : ℕ → ℕ → Word}

theorem Tables.tte_descriptor {t : Tables} {va : ℕ} (h : tteIndex va * 4 < t.l1Size m) :
    t.tte m va = .ok (t.descriptor behind m (tteIndex va)) := by
  rw [Tables.tte, Tables.descriptor, if_pos h, if_pos h]

/-- **`pmap_remove`, by parts**, where the table covers the addresses. -/
theorem pmapRemove_eq_parts (hcov : ∀ va < eva, tteIndex va * 4 < s.tables.l1Size m) :
    pmapRemove c m sva eva s =
      (removeParts s.tables behind m sva eva 0x1000).1.foldlM
        (fun s p => pmapRemoveRange c m p.table p.first p.va p.count s) s >>=
        fun s' => (removeParts s.tables behind m sva eva 0x1000).2.result s' :=
  forChunks_eq_parts (fun _ _ _ _ _ _ => pmapRemoveRange_same) fun va hva =>
    Tables.tte_descriptor (hcov va hva)

/-- **`pmap_protect`, by parts**, for an access that is left. -/
theorem pmapProtect_eq_parts {prot : Prot} (hm : m ≠ 0) (hprot : prot ≠ 0)
    (hcov : ∀ va < eva, tteIndex va * 4 < s.tables.l1Size m) :
    pmapProtect c m sva eva prot s =
      (protectParts s.tables behind m sva eva prot 0x1000).1.foldlM
        (fun s p => .ok (protectLoop prot p.table p.count p.first s)) s >>=
        fun s' => (protectParts s.tables behind m sva eva prot 0x1000).2.result s' := by
  rw [pmapProtect, if_neg hm, if_neg hprot, protectParts, if_neg hm, if_neg hprot]
  refine @forChunks_eq_parts _ _ _ (fun b i _ n s => .ok (protectLoop prot b n i s)) ?_ _ _ _
    fun va hva => Tables.tte_descriptor (hcov va hva)
  intro b i va n s s' h
  obtain rfl := Except.ok.inj h
  exact protectLoop_same prot b n i s

end

/-! ## Below the last megabyte -/

/-- The visit of a page, if its descriptor is that of a table. -/
def pageVisit (word : ℕ → Word) (va : ℕ) : Option Visit :=
  if IsPageTable (word (tteIndex va)) then some ⟨va, l1PteAddr (word (tteIndex va)), pteIndex va⟩
    else none

/-- The page table entry of a page, as far as the table of the first level goes. -/
def Tables.pageEntry (t : Tables) (m va : ℕ) : Option Visit :=
  if tteIndex va * 4 < t.l1Size m then pageVisit (t.l1 m) va else none

section
variable {word : ℕ → Word} {sva lva eva va : ℕ}

theorem pagesFrom_eq_map (n va : ℕ) :
    pagesFrom n va = (List.range n).map fun j => va + j * 0x1000 := by
  induction n generalizing va with
  | zero => rfl
  | succ n ih =>
    rw [pagesFrom, ih, List.range_succ_eq_map, List.map_cons, List.map_map, Nat.zero_mul,
      Nat.add_zero]
    congr 1
    refine List.map_congr_left fun j _ => ?_
    simp only [Function.comp_apply]
    omega

/-- The pages of a part are those of one descriptor. -/
theorem Chunk.filterMap_pages (h : Chunk sva lva) : (pages sva lva).filterMap (pageVisit word) =
    if IsPageTable (word (tteIndex sva)) then
      Part.visits ⟨l1PteAddr (word (tteIndex sva)), pteIndex sva, sva, (lva - sva) / 0x1000⟩
    else [] := by
  obtain ⟨h1, h2, h3, h4⟩ := h
  have hindex : ∀ j < (lva - sva) / 0x1000, tteIndex (sva + j * 0x1000) = tteIndex sva ∧
      pteIndex (sva + j * 0x1000) = pteIndex sva + j := by
    intro j hj
    unfold tteIndex pteIndex
    omega
  rw [pages, pagesFrom_eq_map, List.filterMap_map]
  split_ifs with hpt
  · rw [Part.visits, ← List.filterMap_eq_map]
    refine List.filterMap_congr fun j hj => ?_
    obtain ⟨htte, hpte⟩ := hindex j (List.mem_range.1 hj)
    simp only [Function.comp_apply, pageVisit, htte, hpte, if_pos hpt]
  · refine List.filterMap_eq_nil_iff.2 fun j hj => ?_
    simp only [Function.comp_apply, pageVisit, (hindex j (List.mem_range.1 hj)).1, if_neg hpt]

/-- **Below the last megabyte** a loop is done after a round for each megabyte, and has visited
    the pages that have a table, in their order. -/
theorem rangeParts_spec (hs : sva % 0x1000 = 0) (he : eva % 0x1000 = 0) (hle : sva ≤ eva)
    (hend : eva ≤ 0xfff00000) {fuel : ℕ}
    (hfuel : sva < eva → eva ≤ (sva / 0x100000 + fuel) * 0x100000) :
    (rangeParts word eva fuel sva).2 = .done ∧
      (rangeParts word eva fuel sva).1.flatMap Part.visits = (pages sva eva).filterMap
        (pageVisit word) := by
  induction fuel generalizing sva with
  | zero =>
    obtain rfl : sva = eva := by
      by_contra hne
      have := hfuel (by omega)
      omega
    rw [rangeParts, if_neg (lt_irrefl _), pages_self]
    exact ⟨rfl, rfl⟩
  | succ fuel ih =>
    rw [rangeParts]
    by_cases hlt : sva < eva
    case neg =>
      obtain rfl : sva = eva := by omega
      rw [if_neg hlt, pages_self]
      exact ⟨rfl, rfl⟩
    obtain ⟨hchunk, hlva, hnext⟩ := chunk_chunkEnd hs he hlt hend
    obtain ⟨hn, hn'⟩ := hchunk.entries
    have hfuel' : chunkEnd sva eva < eva → eva ≤ (chunkEnd sva eva / 0x100000 + fuel) * 0x100000 := by
      have := hfuel hlt
      omega
    obtain ⟨hdone, hvisits⟩ := ih hchunk.aligned' hlva hfuel'
    rw [if_pos hlt, pages_append hs hchunk.aligned' he hchunk.lt.le hlva, List.filterMap_append,
      hchunk.filterMap_pages, ← hvisits]
    dsimp only
    by_cases hpt : IsPageTable (word (tteIndex sva))
    · have hok : ¬ ((((chunkEnd sva eva - sva) / 0x1000 : ℕ) : ℤ) < 0 ∨
          0x400 < (((chunkEnd sva eva - sva) / 0x1000 : ℕ) : ℤ) * 4) := by omega
      rw [if_pos hpt, if_pos hpt, hn, if_neg hok, Int.toNat_natCast]
      exact ⟨hdone, List.flatMap_cons⟩
    · rw [if_neg hpt, if_neg hpt]
      exact ⟨hdone, rfl⟩

/-! ## The last megabyte -/

theorem chunkEnd_lt (hlast : 0xfff00000 < eva) : chunkEnd sva eva < eva := by
  unfold chunkEnd
  dsimp only
  split_ifs <;> omega

/-- **A range into the last megabyte** is not done after any number of rounds: behind its last
    megabyte the loop is at address 0 again, unless the range is found bogus there. -/
theorem rangeParts_not_done (hlast : 0xfff00000 < eva) (hlt : sva < eva) (fuel : ℕ) :
    (rangeParts word eva fuel sva).2 ≠ .done := by
  induction fuel generalizing sva with
  | zero =>
    rw [rangeParts, if_pos hlt]
    exact Ending.noConfusion
  | succ fuel ih =>
    have hrest := ih (@chunkEnd_lt sva _ hlast)
    rw [rangeParts, if_pos hlt]
    dsimp only
    split_ifs
    · exact Ending.noConfusion
    · exact hrest
    · exact hrest

end

/-! ## Covering a range -/

/-- A loop ends, and has visited each page of the range that has a table, once, and nothing else. -/
def Covers (t : Tables) (m sva eva : ℕ) (run : ℕ → List Part × Ending) : Prop :=
  ∃ fuel, (run fuel).2 = .done ∧
    ((run fuel).1.flatMap Part.visits).Perm ((pages sva eva).filterMap (t.pageEntry m))

section
variable {t : Tables} {behind : ℕ → ℕ → Word} {m sva eva : ℕ}

/-- Nothing behind the table looks like the descriptor of a table to a range. -/
def ClearBehind (t : Tables) (behind : ℕ → ℕ → Word) (m sva eva : ℕ) : Prop :=
  ∀ va ∈ pages sva eva, t.l1Size m ≤ tteIndex va * 4 → ¬ IsPageTable (behind m (tteIndex va))

theorem pageVisit_descriptor_of_lt {va : ℕ} (h : tteIndex va * 4 < t.l1Size m) :
    pageVisit (t.descriptor behind m) va = t.pageEntry m va := by
  simp only [Tables.pageEntry, pageVisit, Tables.descriptor, if_pos h]

theorem filterMap_descriptor (h : ClearBehind t behind m sva eva) :
    (pages sva eva).filterMap (pageVisit (t.descriptor behind m)) = (pages sva eva).filterMap
      (t.pageEntry m) := by
  refine List.filterMap_congr fun va hva => ?_
  by_cases hin : tteIndex va * 4 < t.l1Size m
  · exact pageVisit_descriptor_of_lt hin
  · rw [Tables.pageEntry, if_neg hin, pageVisit, Tables.descriptor, if_neg hin,
      if_neg (h va hva (Nat.le_of_not_lt hin))]

/-- A visit of a page behind the table is not one that the range asks for. -/
theorem clearBehind_of_perm (h :
    ((pages sva eva).filterMap (pageVisit (t.descriptor behind m))).Perm
    ((pages sva eva).filterMap (t.pageEntry m))) : ClearBehind t behind m sva eva := by
  intro va hva hout hpt
  have hin : ¬ tteIndex va * 4 < t.l1Size m := Nat.not_lt.2 hout
  have hvisit : pageVisit (t.descriptor behind m) va =
      some ⟨va, l1PteAddr (behind m (tteIndex va)), pteIndex va⟩ := by
    rw [pageVisit, Tables.descriptor, if_neg hin, if_pos hpt]
  have hmem := h.subset (List.mem_filterMap.2 ⟨va, hva, hvisit⟩)
  obtain ⟨va', -, hentry⟩ := List.mem_filterMap.1 hmem
  unfold Tables.pageEntry pageVisit at hentry
  split_ifs at hentry with hin' hpt'
  obtain ⟨rfl, -⟩ := Visit.mk.inj (Option.some.inj hentry)
  exact hin hin'

/-- More rounds change nothing when the loop is done. -/
theorem rangeParts_of_done {word : ℕ → Word} {fuel fuel' : ℕ} (hle : fuel ≤ fuel')
    (h : (rangeParts word eva fuel sva).2 = .done) :
    rangeParts word eva fuel' sva = rangeParts word eva fuel sva := by
  induction fuel generalizing fuel' sva with
  | zero =>
    by_cases hlt : sva < eva
    · rw [rangeParts, if_pos hlt] at h
      exact absurd h Ending.noConfusion
    · cases fuel' with
      | zero => rfl
      | succ fuel' => rw [rangeParts, rangeParts, if_neg hlt, if_neg hlt]
  | succ fuel ih =>
    obtain ⟨k, rfl⟩ := Nat.exists_eq_add_of_le' hle
    rw [← Nat.add_assoc, rangeParts, rangeParts]
    rw [rangeParts] at h
    dsimp only at h ⊢
    split_ifs at h ⊢ with hlt hpt hbogus
    · rw [ih (by omega) h]
    · rw [ih (by omega) h]
    · rfl

/-- The loop of a range, for the table and what is behind it. -/
theorem covers_rangeParts_iff (hle : sva ≤ eva) (hs : sva % 0x1000 = 0) (he : eva % 0x1000 = 0) :
    Covers t m sva eva (fun fuel => rangeParts (t.descriptor behind m) eva fuel sva) ↔
      sva = eva ∨ eva ≤ 0xfff00000 ∧ ClearBehind t behind m sva eva := by
  have hfuel : eva ≤ 0xfff00000 → sva < eva → eva ≤ (sva / 0x100000 + 0x1000) * 0x100000 := by
    intro hend _
    rw [Nat.add_mul]
    omega
  constructor
  · rintro ⟨fuel, hdone, hperm⟩
    by_cases heq : sva = eva
    · exact .inl heq
    have hlt : sva < eva := by omega
    have hend : eva ≤ 0xfff00000 := Nat.le_of_not_lt fun hlast => rangeParts_not_done hlast hlt fuel hdone
    obtain ⟨hdone', hvisits⟩ := @rangeParts_spec (t.descriptor behind m) _ _ hs he hle hend _
      (hfuel hend)
    have hmore := rangeParts_of_done (Nat.le_max_left fuel 0x1000) hdone
    refine .inr ⟨hend, clearBehind_of_perm ?_⟩
    rw [← hvisits, ← rangeParts_of_done (Nat.le_max_right fuel 0x1000) hdone', hmore]
    exact hperm
  · rintro (rfl | ⟨hend, hclear⟩)
    · refine ⟨0, ?_, ?_⟩
      · simp only [rangeParts, if_neg (lt_irrefl sva)]
      · simp only [rangeParts, pages_self]
        exact .refl _
    · obtain ⟨hdone, hvisits⟩ := @rangeParts_spec (t.descriptor behind m) _ _ hs he hle hend _
        (hfuel hend)
      refine ⟨0x1000, hdone, ?_⟩
      rw [hvisits, filterMap_descriptor hclear]

/-- **Ranges of pages.**  `pmap_remove` and `pmap_protect` cover a range exactly if it is empty,
    or ends before the last megabyte and finds nothing like a table behind that of the pmap. -/
theorem coversRange_iff (hm : m ≠ 0) (hle : sva ≤ eva) (hs : sva % 0x1000 = 0) (he : eva % 0x1000 = 0) :
    (Covers t m sva eva (removeParts t behind m sva eva) ↔
      sva = eva ∨ eva ≤ 0xfff00000 ∧ ClearBehind t behind m sva eva) ∧
    ∀ prot, Covers t m sva eva (protectParts t behind m sva eva prot) ↔
      sva = eva ∨ eva ≤ 0xfff00000 ∧ ClearBehind t behind m sva eva := by
  have hloop := @covers_rangeParts_iff t behind m _ _ hle hs he
  refine ⟨hloop, fun prot => ?_⟩
  have hprotect : protectParts t behind m sva eva prot =
      fun fuel => rangeParts (t.descriptor behind m) eva fuel sva := by
    funext fuel
    rw [protectParts, if_neg hm]
    split_ifs <;> rfl
  rw [hprotect]
  exact hloop

end

/-- A kernel with a table for each megabyte, at `1`. -/
def fullTables : Tables := ⟨fun _ _ => l1Descriptor 1, fun m => if m = 1 then 0x4000 else 0,
  fun _ _ => 0, [1]⟩

/-- Three megabytes, from the middle of one to the middle of another. -/
theorem covers_three_megabytes :
    Covers fullTables 1 0xc0080000 0xc0280000
      (removeParts fullTables (fun _ _ => 0) 1 0xc0080000 0xc0280000) :=
  (@coversRange_iff fullTables (fun _ _ => 0) 1 _ _ (by decide) (by decide) (by decide)
    (by decide)).1.2 (.inr ⟨by decide, fun _ _ _ => (by decide : ¬ IsPageTable 0)⟩)

/-- The first page of the last megabyte: the end of that megabyte is 0, and the range is found
    bogus. -/
theorem last_megabyte_bogus :
    removeParts fullTables (fun _ _ => 0) 1 0xfff00000 0xfff01000 1 = ([], .bogusRange) ∧
      ¬ Covers fullTables 1 0xfff00000 0xfff01000
        (removeParts fullTables (fun _ _ => 0) 1 0xfff00000 0xfff01000) := by
  refine ⟨by decide, ?_⟩
  rintro ⟨fuel, hdone, -⟩
  exact rangeParts_not_done (by decide) (by decide) fuel hdone

end PocketDarwin.Pmap
