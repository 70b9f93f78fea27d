/-
  How `pmap_enter_options` makes place for an entry.

  The loop asks `pmap_pte` for the entry and has the table expanded until there is one.  The
  first address of the commpage is taken for one that can be entered in every pmap, but
  `pmap_pte` returns nothing for it outside of the kernel's: there the loop has no end.

  * `expandLoop_spec`: elsewhere the table is expanded once at most, and all accesses are
    inside of it.
  * `entersOnce_cases`: when the lists of the pages allow the mapping.
  * `enters_iff`: when entering a mapping finishes as it should.
-/
import PocketDarwin.Pmap.Calls
import PocketDarwin.Pmap.Covering

namespace PocketDarwin.Pmap

/-- What a call ends in instead of returning, with the panics of `pmap_expand` and
    `pmap_expand_ttb`. -/
inductive EnterStop where
  | stop (e : Stop)
  /-- `panic("pmap_expand: this pmap has a really weird size: %d bytes")` -/
  | weirdSize
  /-- `panic("pmap_expand_ttb: attempting to expand past maximum address ...")` -/
  | pastMaximum
  /-- `panic("pmap_expand_ttb: attempting to expand an already-expanded pmap?")` -/
  | alreadyExpanded
  /-- `panic("pmap_expand_ttb: invalid expansion size %x")` -/
  | invalidSize
  /-- more rounds are to come -/
  | running

/-- An access to a table of the first level: the offset of the entry, and `pm_l1_size` then. -/
structure Access where
  offset : ℕ
  size : ℕ
deriving DecidableEq, Repr

/-- The entry is in the table. -/
def Access.Inside (a : Access) : Prop := a.offset + 4 ≤ a.size

/-- What has been done to the table of the first level. -/
structure Log where
  expansions : ℕ
  accesses : List Access

/-- `*pmap_tte(map, va)` is read or written. -/
def Log.access (log : Log) (t : Tables) (m va : ℕ) : Log :=
  { log with accesses := ⟨tteIndex va * 4, t.l1Size m⟩ :: log.accesses }

/-- `*tte = w` -/
def Tables.writeTte (t : Tables) (m va : ℕ) (w : Word) : Tables :=
  { t with l1 := Function.update t.l1 m (Function.update (t.l1 m) (tteIndex va) w) }

/-- `pmap_expand_ttb`.  The new table has the old entries, and is zero behind them. -/
def pmapExpandTtb (m expansionSize : ℕ) (t : Tables) : Except EnterStop Tables :=
  if expansionSize ≤ t.l1Size m then .ok t
  else if 0x4000 < expansionSize then .error .pastMaximum
  else if expansionSize = 0x1000 then .error .alreadyExpanded
  else if 0x2000 ≤ expansionSize ∧ expansionSize ≤ 0x3000 then
    .ok { t with
      l1 := Function.update t.l1 m fun i => if i * 4 < t.l1Size m then t.l1 m i else 0
      l1Size := Function.update t.l1Size m expansionSize }
  else .error .invalidSize

section
variable (c : Machine) (behind : ℕ → ℕ → Word) (m va : ℕ)

/-- The tests of `pmap_pte`, for the descriptor that it reads. -/
def pteOfTte (tte : Word) : Except Stop (Option (Block × ℕ)) :=
  if m ≠ c.kernelPmap ∧ commPageBase ≤ va then .ok none
  else if IsSection tte then .error .section
  else if l1PteAddr tte = 0 then .ok none
  else .ok (some (l1PteAddr tte, pteIndex va))

/-- `pmap_expand`, with the page that is grabbed. -/
def expandMap (grab : Ppn) (log : Log) (s : State) : Except EnterStop (Log × State) :=
  match physAttributeSet c grab typeNoencrypt { s with tables := pmapGrabPage grab s.tables } with
  | .error e => .error (.stop e)
  | .ok s =>
    let log := { log with expansions := log.expansions + 1 }
    if m = c.kernelPmap then
      .ok (log.access s.tables m va, { s with tables := s.tables.writeTte m va (l1Descriptor grab) })
    else if s.tables.l1Size m < 0x1000 then .error .weirdSize
    else
      match pmapExpandTtb m (tteIndex va * 4 / 0x1000 * 0x1000 + 0x1000) s.tables with
      | .error e => .error e
      | .ok t =>
        -- the descriptor is read again, since the table may be another one
        let log := log.access t m va
        if IsSection (t.descriptor behind m (tteIndex va)) then .error (.stop .section)
        else .ok (log.access t m va, { s with tables := t.writeTte m va (l1Descriptor grab) })

/-- `while ((pte = pmap_pte(pmap, va)) == 0)`; the pages that are grabbed come in the order of
    `grabs`. -/
def expandLoop (grabs : ℕ → Ppn) : (fuel : ℕ) → Log → State →
    Except EnterStop (Log × (Block × ℕ) × State)
  | 0, _, _ => .error .running
  | fuel + 1, log, s =>
    match pteOfTte c m va (s.tables.descriptor behind m (tteIndex va)) with
    | .error e => .error (.stop e)
    | .ok (some loc) => .ok (log.access s.tables m va, loc, s)
    | .ok none =>
      match expandMap c behind m va (grabs log.expansions) (log.access s.tables m va) s with
      | .error e => .error e
      | .ok (log, s) => expandLoop grabs fuel log s

/-- `pmap_enter_options` from `Retry` on. -/
def enterRounds (pa : Ppn) (prot : Prot) (wired : Bool) (grabs : ℕ → Ppn) (loops : ℕ) :
    (fuel : ℕ) → (pvhNew : Option Ref) → Log → State → Except EnterStop (Log × State)
  | 0, _, _, _ => .error .running
  | fuel + 1, pvhNew, log, s =>
    match expandLoop c behind m va grabs loops log s with
    | .error e => .error e
    | .ok (log, loc, s) =>
      match enterOnce c m va pa prot wired loc pvhNew s with
      | .error e => .error (.stop e)
      | .ok (true, s) => .ok (log, s)
      | .ok (false, s) =>
        enterRounds pa prot wired grabs loops fuel (some s.pv.zalloc.1)
          log { s with pv := s.pv.zalloc.2 }

/-- `pmap_enter_options`, for at most `fuel` rounds of each loop. -/
def enterOptions (pa : Ppn) (prot : Prot) (wired : Bool) (grabs : ℕ → Ppn) (fuel : ℕ) (s : State) :
    Except EnterStop (KernReturn × Log × State) :=
  if commPageBase < va ∧ m ≠ c.kernelPmap then .ok (.invalidArgument, ⟨0, []⟩, s)
  else
    match enterRounds c behind m va pa prot wired grabs fuel fuel none ⟨0, []⟩ s with
    | .error e => .error e
    | .ok (log, s) => .ok (.success, log, s)

end

/-- `pmap_pte` returns an entry for the address, for some tables. -/
def HasPte (c : Machine) (m va : ℕ) : Prop := ∃ t loc, pmapPte c t m va = .ok (some loc)

/-- What entering a mapping should do: it is refused and nothing is changed, or it succeeds, with
    the table expanded once at most and nothing accessed outside; and what is refused has no
    entry. -/
def Enters (c : Machine) (behind : ℕ → ℕ → Word) (m va : ℕ) (pa : Ppn) (prot : Prot) (wired : Bool)
    (grabs : ℕ → Ppn)
    (s : State) : Prop :=
  ∃ fuel r log s', enterOptions c behind m va pa prot wired grabs fuel s = .ok (r, log, s') ∧
    (r = .invalidArgument → s' = s) ∧ log.expansions ≤ 1 ∧ (∀ a ∈ log.accesses, a.Inside) ∧
    (m ≠ c.kernelPmap → (r = .success ↔ HasPte c m va))

section
variable {c : Machine} {behind : ℕ → ℕ → Word} {m va : ℕ} {grabs : ℕ → Ppn} {pa grab : Ppn}
  {prot : Prot} {wired : Bool}
  {loc : Block × ℕ} {log : Log} {s : State}

theorem hasPte_iff : HasPte c m va ↔ Lookup c m va := by
  constructor
  · rintro ⟨t, loc, hpte⟩
    by_contra hl
    rw [pmapPte_of_not_lookup hl] at hpte
    simp at hpte
  · intro hl
    let t : Tables := ⟨fun _ _ => l1Descriptor 1, fun _ => 0x4000, fun _ _ => 0, []⟩
    have hcov : tteIndex va * 4 < t.l1Size m := by
      have := @tteIndex_lt va
      show tteIndex va * 4 < 0x4000
      omega
    have hhigh : ¬ (m ≠ c.kernelPmap ∧ commPageBase ≤ va) := by
      rintro ⟨hk, hva⟩
      exact absurd (hl.resolve_left hk) (Nat.not_lt.2 hva)
    have hsec : ¬ IsSection (l1Descriptor 1) := (isPageTable_l1Descriptor 1).not_isSection
    have hzero : l1PteAddr (l1Descriptor 1) ≠ 0 := l1PteAddr_l1Descriptor_ne_zero (by decide)
    refine ⟨t, (l1PteAddr (l1Descriptor 1), pteIndex va), ?_⟩
    rw [pmapPte, if_neg hhigh, Tables.tte, if_pos hcov]
    simp only [Bind.bind, Except.bind, t, if_neg hsec, if_neg hzero]

/-! ## The loop -/

/-- **The commpage of a user pmap**: after any number of rounds there is no entry. -/
theorem expandLoop_commpage (hm : m ≠ c.kernelPmap) (hva : commPageBase ≤ va) (loops : ℕ)
    (log : Log) (s : State) :
    ∃ e, expandLoop c behind m va grabs loops log s = .error e := by
  induction loops generalizing log s with
  | zero => exact ⟨.running, rfl⟩
  | succ loops ih =>
    have hnone : pteOfTte c m va (s.tables.descriptor behind m (tteIndex va)) = .ok none := if_pos
      ⟨hm, hva⟩
    rw [expandLoop, hnone]
    dsimp only
    cases hexp : expandMap c behind m va (grabs log.expansions) (log.access s.tables m va) s with
    | error e => exact ⟨e, rfl⟩
    | ok x => exact ih x.1 x.2

/-- In the table, `pmap_pte` is its tests. -/
theorem pteOfTte_descriptor (hcov : tteIndex va * 4 < s.tables.l1Size m) :
    pteOfTte c m va (s.tables.descriptor behind m (tteIndex va)) = pmapPte c s.tables m va := by
  rw [pteOfTte, pmapPte, @Tables.tte_descriptor _ behind _ _ hcov]
  rfl

theorem inside_of_covers {t : Tables} (hsize : t.l1Size m % 4 = 0)
    (hcov : tteIndex va * 4 < t.l1Size m) :
    (⟨tteIndex va * 4, t.l1Size m⟩ : Access).Inside := by
  unfold Access.Inside
  dsimp only
  omega

theorem Tables.WF.size_mod {t : Tables} (h : t.WF c) (m : ℕ) : t.l1Size m % 4 = 0 := by
  by_cases hk : m = c.kernelPmap
  · rw [hk, h.kernel]
  · rcases h.user m hk with hzero | hone
    · rw [hzero]
    · rw [hone]

/-- The accesses to the table of a pmap are inside of it. -/
def Log.Inside (log : Log) : Prop := ∀ a ∈ log.accesses, a.Inside

theorem Log.Inside.access {t : Tables} (h : log.Inside)
    (ha : (⟨tteIndex va * 4, t.l1Size m⟩ : Access).Inside) :
    (log.access t m va).Inside := by
  intro a hin
  rcases List.mem_cons.1 hin with rfl | hin
  · exact ha
  · exact h a hin

/-- The entry is there. -/
theorem expandLoop_of_pte (hcov : tteIndex va * 4 < s.tables.l1Size m)
    (hpte : pmapPte c s.tables m va = .ok (some loc)) (loops : ℕ) (log : Log) :
    expandLoop c behind m va grabs (loops + 1) log s = .ok (log.access s.tables m va, loc, s) := by
  rw [expandLoop, pteOfTte_descriptor hcov, hpte]

section
variable (hwf : s.tables.WF c) (hm : s.tables.Live m) (hl : Lookup c m va)
include hwf hm hl

/-- **`pmap_expand`** of a pmap that covers the address: the table stays, and gets a descriptor. -/
theorem expandMap_spec {t' : Tables} (hg : s.tables.Grants c grab) (hin : log.Inside)
    (hexp : pmapExpand c m va grab s.tables = .ok t') :
    ∃ log', expandMap c behind m va grab log s = .ok (log', { s with
        tables := t', flags := Function.update s.flags grab (s.flags grab ||| typeNoencrypt) }) ∧
      log'.expansions = log.expansions + 1 ∧ log'.Inside := by
  have hcov := hwf.covers hm hl
  have hinside := inside_of_covers (hwf.size_mod m) hcov
  have hns := hwf.not_isSection m _ hcov
  have htte : (pmapGrabPage grab s.tables).tte m va = .ok (s.tables.l1 m (tteIndex va)) :=
    if_pos hcov
  simp only [pmapExpand, htte, Bind.bind, Except.bind, if_neg fun hand : _ ∧
    _ => hns hand.2] at hexp
  obtain rfl := Except.ok.inj hexp
  rw [expandMap, physAttributeSet_eq hg.paiToPvh]
  dsimp only
  by_cases hk : m = c.kernelPmap
  · rw [if_pos hk]
    exact ⟨_, rfl, rfl, hin.access hinside⟩
  · have hsize : s.tables.l1Size m = 0x1000 := (hwf.user m hk).resolve_left hm
    have hweird : ¬ (pmapGrabPage grab s.tables).l1Size m < 0x1000 := by
      show ¬ s.tables.l1Size m < 0x1000
      omega
    have hfits : tteIndex va * 4 / 0x1000 * 0x1000 + 0x1000 ≤ (pmapGrabPage grab s.tables).l1Size m := by
      show _ ≤ s.tables.l1Size m
      omega
    have hdesc : ¬ IsSection ((pmapGrabPage grab s.tables).descriptor behind m (tteIndex va)) := by
      rw [Tables.descriptor, if_pos (show _ < (pmapGrabPage grab s.tables).l1Size m from hcov)]
      exact hns
    rw [if_neg hk, if_neg hweird, pmapExpandTtb, if_pos hfits]
    dsimp only
    rw [if_neg hdesc]
    exact ⟨_, rfl, rfl, (hin.access hinside).access hinside⟩

end

/-- **The loop** does what `enterTables` says, with one expansion at most. -/
theorem expandLoop_spec (h : Inv c s) (hm : s.tables.Live m) (hl : Lookup c m va)
    (hg : s.tables.Grants c (grabs log.expansions)) (hin : log.Inside) :
    ∃ log' loc s', enterTables c m va (grabs log.expansions) s = .ok (loc, s') ∧
      (∀ loops, expandLoop c behind m va grabs (loops + 2) log s = .ok (log', loc, s')) ∧
      log'.expansions ≤ log.expansions + 1 ∧ log'.Inside := by
  have hcov := h.wf.covers hm hl
  have hin' := hin.access (inside_of_covers (h.wf.size_mod m) hcov)
  by_cases hpte : ∃ loc, pmapPte c s.tables m va = .ok (some loc)
  · obtain ⟨loc, hpte⟩ := hpte
    exact ⟨_, loc, s, enterTables_of_pte hpte, fun loops => expandLoop_of_pte hcov hpte _ _,
      Nat.le_succ _, hin'⟩
  · have hnone : pmapPte c s.tables m va = .ok none := by
      have hwalk := h.wf.pmapPte hm hl
      split_ifs at hwalk
      · exact hwalk
      · exact absurd ⟨_, hwalk⟩ hpte
    obtain ⟨t, hexpand, hwf, hsize, -, -, loc, hloc⟩ := h.wf.pmapExpand hm hl hnone hg.1 hg.2.2.2
    obtain ⟨log', hmap, hcount, hin''⟩ := @expandMap_spec _ behind _ _ _ _ _ h.wf hm hl _ hg
      hin' hexpand
    have hlow : ¬ (m ≠ c.kernelPmap ∧ commPageBase ≤ va) := by
      rintro ⟨hk, hva⟩
      exact absurd (hl.resolve_left hk) (Nat.not_lt.2 hva)
    have hm' : t.Live m := by
      rw [Tables.Live, hsize]
      exact hm
    let s' : State := { s with
      tables := t
      flags := Function.update s.flags (grabs log.expansions)
        (s.flags (grabs log.expansions) ||| typeNoencrypt) }
    refine ⟨log'.access t m va, loc, s', ?_, fun loops => ?_, hcount.le,
      hin''.access (inside_of_covers (hwf.size_mod m) (hwf.covers hm' hl))⟩
    · simp only [enterTables, hnone, Bind.bind, Except.bind, if_neg hlow, hexpand,
        physAttributeSet_eq hg.paiToPvh, hloc, s']
    · rw [expandLoop, pteOfTte_descriptor hcov, hnone]
      dsimp only
      rw [hmap]
      exact expandLoop_of_pte (s := s') (hwf.covers hm' hl) hloc loops log'

/-! ## The lists of the pages -/

/-- The kernel's pmap finds no entry to put a second mapping of the page on its list: both free
    lists are empty, and none is left of the mapping that is replaced. -/
def Exhausted (c : Machine) (s : State) (m va : ℕ) (pa : Ppn) : Prop :=
  m = c.kernelPmap ∧ (s.pv.free .user = none ∧ s.pv.free .kern = none) ∧
    (∃ m' va', (s.view c).Mapped c pa m' va') ∧
    (paIndex ((s.view c).entry m va) = 0 ∨
      ∀ m' va', (s.view c).Mapped c (paIndex ((s.view c).entry m va)) m' va' → (m', va') = (m, va))

/-- The lists of the pages allow the mapping.  A page that is mapped there already has to be in
    the table of pages if it is to be wired; if a managed page takes the place of another, that
    one is on a list. -/
def ListsAllow (c : Machine) (s : State) (m va : ℕ) (pa : Ppn) (wired : Bool) : Prop :=
  if paIndex ((s.view c).entry m va) = pa then wired = true → ∃ r, paiToPvh c pa = .ok r
  else c.Managed pa → (paIndex ((s.view c).entry m va) = 0 ∨
      (s.view c).Mapped c (paIndex ((s.view c).entry m va)) m va) ∧ ¬ Exhausted c s m va pa

/-- How `unmapOld` returns: the page is in the table, has a list, and the mapping is taken off
    it. -/
theorem unmapOld_eq_ok {old : Word} {pvhE : Option Ref} {s₁ : State} (hpa : c.Managed pa)
    (h : unmapOld c m va pa old s = .ok (pvhE, s₁)) :
    s.pv.pmap (.rooted (paIndex old)) ≠ 0 ∧ pmapPvRemove c m va (paIndex old) s.pv =
      .ok (pvhE, s₁.pv) := by
  have hpai := paiToPvh_of_managed hpa
  simp only [unmapOld, physAttributeTest_eq hpai, physAttributeClear_eq hpai, Bind.bind,
    Except.bind,
    State.count] at h
  cases hold : paiToPvh c (paIndex old) with
  | error e =>
    simp only [hold] at h
    split_ifs at h
  | ok r =>
    obtain rfl : .rooted (paIndex old) = r := by
      rw [paiToPvh] at hold
      split_ifs at hold
      exact Except.ok.inj hold
    simp only [hold] at h
    by_cases hroot : s.pv.pmap (.rooted (paIndex old)) = 0
    · simp [hroot] at h
    simp only [if_neg hroot] at h
    refine ⟨hroot, ?_⟩
    cases hrem : pmapPvRemove c m va (paIndex old) s.pv with
    | error e => simp [hrem, hroot] at h
    | ok x =>
      simp only [hrem] at h
      -- the counts and the attributes do not matter
      split_ifs at h
      all_goals
        simp only [Except.ok.injEq, Prod.mk.injEq] at h
        obtain ⟨rfl, rfl⟩ := h
        rfl

theorem pvHashAdd_error {e r : Ref} {pv : Pv} {x : Stop} (h : pvHashAdd c e r pv = .error x) :
    x = .fault := by
  simp only [pvHashAdd, Bind.bind, Except.bind] at h
  cases hins : pv.insque e r with
  | error y =>
    rw [hins] at h
    obtain rfl := Except.error.inj h
    rw [Pv.insque] at hins
    split at hins
    · simp at hins
    · exact (Except.error.inj hins).symm
  | ok pv' =>
    rw [hins] at h
    simp at h

/-- The kernel runs out of entries if both free lists are empty. -/
theorem takeEntry_kernel_iff {pv : Pv} (hk : m = c.kernelPmap) :
    (∃ x, takeEntry c m none none pv = some (none, x)) ↔ pv.free .user = none ∧
    pv.free .kern = none := by
  cases huser : pv.free .user with
  | some e => simp [takeEntry, Pv.alloc, huser]
  | none => cases hkern : pv.free .kern <;> simp [takeEntry, Pv.alloc, huser, hkern, hk]

theorem enterPv_exhaustion_iff (hk : m = c.kernelPmap) (hpa : c.Managed pa)
    (hroot : s.pv.pmap (.rooted pa) ≠ 0) :
    enterPv c m va pa wired none none s = .error .exhaustion ↔
      s.pv.free .user = none ∧ s.pv.free .kern = none := by
  rw [← takeEntry_kernel_iff hk]
  simp only [enterPv, paiToPvh_of_managed hpa, Bind.bind, Except.bind, if_neg hroot]
  constructor
  · intro h
    cases htake : takeEntry c m none none s.pv with
    | none => simp [htake] at h
    | some x =>
      obtain ⟨o, y⟩ := x
      cases o with
      | none => exact ⟨y, rfl⟩
      | some e =>
        simp only [htake] at h
        split at h
        · rename_i hadd
          obtain rfl := Except.error.inj h
          exact absurd (pvHashAdd_error hadd) (by decide)
        · simp at h
  · rintro ⟨x, htake⟩
    rw [htake]

/-- The kernel has run out of entries, for a page that has a mapping. -/
def Spent (c : Machine) (s : State) (m : ℕ) (pa : Ppn) (pvhE pvhNew : Option Ref) : Prop :=
  m = c.kernelPmap ∧ (pvhE = none ∧ pvhNew = none) ∧
  (s.pv.free .user = none ∧ s.pv.free .kern = none) ∧
    ∃ m' va', (s.view c).Mapped c pa m' va'

/-- **A new mapping** is put on its list, perhaps in a second round, unless the kernel has run out
    of entries. -/
theorem enterNew_cases {pvhE pvhNew : Option Ref} (h : Cleared c m va pvhE pvhNew s)
    (hpa : c.Managed pa) (hm : m ≠ 0) :
    (∃ s', enterNew c m va pa prot wired loc pvhE pvhNew s = .ok (true, s')) ∧
    ¬ Spent c s m pa pvhE pvhNew ∨
      (pvhE = none ∧ pvhNew = none) ∧ m ≠ c.kernelPmap ∧
        enterNew c m va pa prot wired loc pvhE pvhNew s = .ok (false, s) ∨
      Spent c s m pa pvhE pvhNew ∧ enterNew c m va pa prot wired loc pvhE pvhNew s =
        .error .exhaustion := by
  obtain ⟨hwf, ⟨names, hholds, hagree⟩, hres, hone, hclear⟩ := h
  have hmapped : (∃ m' va', (s.view c).Mapped c pa m' va') ↔ s.pv.pmap (.rooted pa) ≠ 0 := by
    rw [ne_eq, hholds.root_eq_zero_iff, List.eq_nil_iff_forall_not_mem]
    push Not
    simp only [Prod.exists, hagree.mem_iff]
  rcases enterPv_spec va wired hholds hone hpa hm with ⟨o', n', pv', l, hok, -⟩ | ⟨hnone, hne, hstop⟩
  · obtain ⟨s₁, hok⟩ : ∃ s₁, enterPv c m va pa wired pvhE pvhNew s = .ok (.entered o' n' s₁) :=
      ⟨_, hok⟩
    refine .inl ⟨⟨((enterPte c m va pa prot wired loc s₁).free .user o').free .kern n', ?_⟩, ?_⟩
    · simp only [enterNew, hok, Bind.bind, Except.bind]
    · rintro ⟨hk, ⟨rfl, rfl⟩, hfree, hmap⟩
      rw [(enterPv_exhaustion_iff hk hpa (hmapped.1 hmap)).2 hfree] at hok
      simp at hok
  · right
    rw [ne_eq, ← hholds.root_eq_zero_iff] at hne
    refine hstop.imp ?_ ?_
    · rintro ⟨hk, hretry⟩
      exact ⟨hnone, hk, by simp only [enterNew, hretry, Bind.bind, Except.bind]⟩
    · rintro ⟨hk, hstop⟩
      obtain ⟨rfl, rfl⟩ := hnone
      exact ⟨⟨hk, ⟨rfl, rfl⟩, (enterPv_exhaustion_iff hk hpa hne).1 hstop, hmapped.2 hne⟩,
        by simp only [enterNew, hstop, Bind.bind, Except.bind]⟩

/-- `unmapOld` returns for mappings on the list of their page only, and leaves the free lists. -/
theorem unmapOld_ok {pvhE : Option Ref} {s₁ : State} (h : Inv c s) (hpa : c.Managed pa)
    (hok : unmapOld c m va pa ((s.view c).entry m va) (s.set loc 0) = .ok (pvhE, s₁)) :
    (s.view c).Mapped c (paIndex ((s.view c).entry m va)) m va ∧ s₁.pv.free = s.pv.free ∧
      (pvhE = none ↔
        ∀ m' va', (s.view c).Mapped c (paIndex ((s.view c).entry m va)) m' va' →
        (m', va') = (m, va)) := by
  obtain ⟨names, hholds, hagree⟩ := h.lists
  obtain ⟨hroot, hrem⟩ := unmapOld_eq_ok hpa hok
  rw [show (s.set loc 0).pv = s.pv from rfl] at hroot hrem
  by_cases hp : c.Managed (paIndex ((s.view c).entry m va))
  case neg =>
    -- a page that is not managed has no list
    refine absurd (hholds.root_eq_zero_iff.2 ?_) hroot
    refine List.eq_nil_iff_forall_not_mem.2 fun x hx => hp ((hagree.mem_iff _ x.1 x.2).1 hx).1
  obtain ⟨hmem, hfree, hnone⟩ := hholds.pmapPvRemove_ok hp hrem
  refine ⟨(hagree.mem_iff _ _ _).1 hmem, hfree, hnone.trans ⟨fun heq m' va' hmapped => ?_,
    fun honly => ?_⟩⟩
  · have hin := (hagree.mem_iff _ m' va').2 hmapped
    rw [heq] at hin
    exact List.mem_singleton.1 hin
  · refine List.perm_singleton.1 ((List.perm_ext_iff_of_nodup (hagree.nodup _)
      (List.nodup_singleton _)).2 ?_)
    intro x
    rw [List.mem_singleton]
    constructor
    · exact fun hx => honly x.1 x.2 ((hagree.mem_iff _ x.1 x.2).1 hx)
    · rintro rfl
      exact hmem

/-- Two rounds from `Retry` on, at the place of the entry: the mapping is entered, or the second
    finds an entry in hand. -/
def EntersOnce (c : Machine) (m va : ℕ) (pa : Ppn) (prot : Prot) (wired : Bool) (loc : Block × ℕ)
    (s : State) : Prop :=
  (∃ s', enterOnce c m va pa prot wired loc none s = .ok (true, s')) ∨
    ∃ s' s'', enterOnce c m va pa prot wired loc none s = .ok (false, s') ∧
    s.tables.Same s'.tables ∧
      enterOnce c m va pa prot wired loc (some s'.pv.zalloc.1) { s' with pv := s'.pv.zalloc.2 } =
        .ok (true, s'')

section
variable (hpte : pmapPte c s.tables m va = .ok (some loc)) (hva : Aligned va)
include hpte hva

/-- A managed page, where the old mapping, if any, is off its list. -/
theorem entersOnce_of_cleared {pvhE : Option Ref} {s₁ : State} (hpa : c.Managed pa) (hm : m ≠ 0)
    (honce : enterOnce c m va pa prot wired loc none s =
      enterNew c m va pa prot wired loc pvhE none s₁)
    (hcleared : Cleared c m va pvhE none s₁) (hzero : paIndex ((s₁.view c).entry m va) = 0)
    (hsame : s.tables.Same s₁.tables) :
    EntersOnce c m va pa prot wired loc s ∧ ¬ Spent c s₁ m pa pvhE none ∨
      (∃ e, enterOnce c m va pa prot wired loc none s = .error e) ∧ Spent c s₁ m pa pvhE none := by
  rcases @enterNew_cases _ _ _ _ prot wired loc _ _ _ hcleared hpa hm with
    ⟨⟨s', hok⟩, hnot⟩ | ⟨⟨rfl, -⟩, hk, hretry⟩ | ⟨hspent, hstop⟩
  · exact .inl ⟨.inl ⟨s', honce.trans hok⟩, hnot⟩
  · -- with an entry from the zone, the second round succeeds
    have hpte₁ := hsame.pmapPte.trans hpte
    let s₂ : State := { s₁ with pv := s₁.pv.zalloc.2 }
    have honce₂ : enterOnce c m va pa prot wired loc (some s₁.pv.zalloc.1) s₂ =
        enterNew c m va pa prot wired loc none (some s₁.pv.zalloc.1) s₂ :=
      enterOnce_of_clear hpte₁ hva hpa hzero
    rcases @enterNew_cases _ _ _ _ prot wired loc _ _ _ (hcleared.zalloc rfl) hpa hm with
      ⟨⟨s', hok⟩, -⟩ | ⟨⟨-, hsome⟩, -⟩ | ⟨⟨-, ⟨-, hsome⟩, -⟩, -⟩
    · exact .inl ⟨.inr ⟨s₁, s', honce.trans hretry, hsame, honce₂.trans hok⟩,
        fun hspent => hk hspent.1⟩
    · simp at hsome
    · simp at hsome
  · exact .inr ⟨⟨_, honce.trans hstop⟩, hspent⟩

/-- The page is mapped there already. -/
theorem entersOnce_same_cases (prot : Prot) (wired : Bool) (h : Inv c s)
    (hsame : paIndex ((s.view c).entry m va) = pa) :
    EntersOnce c m va pa prot wired loc s ∧ ListsAllow c s m va pa wired ∨
      (∃ e, enterOnce c m va pa prot wired loc none s = .error e) ∧
      ¬ ListsAllow c s m va pa wired := by
  have hget := State.get_eq hpte hva
  rw [ListsAllow, if_pos hsame]
  by_cases hpai : wired = true → ∃ r, paiToPvh c pa = .ok r
  · have hpai' : wired = true → paiToPvh c pa = .ok (.rooted pa) := by
      intro hw
      obtain ⟨r, hr⟩ := hpai hw
      rw [paiToPvh] at hr ⊢
      split_ifs at hr ⊢ with htable
      · rfl
    obtain ⟨s', honce, -⟩ := enterOnce_same hpte hva prot h hsame hpai'
    exact .inl ⟨.inl ⟨s', honce⟩, hpai⟩
  · refine .inr ⟨?_, hpai⟩
    push Not at hpai
    obtain ⟨rfl, hnone⟩ := hpai
    have hmask : (s.view c).entry m va &&& l2AddrMask = ptoa pa := and_l2AddrMask_eq_ptoa.2 hsame
    cases hr : paiToPvh c pa with
    | ok r => exact absurd hr (hnone r)
    | error e =>
      refine ⟨e, ?_⟩
      simp only [enterOnce, hget, if_pos hmask, enterSame, physAttributeTest, hr, Bind.bind,
        Except.bind, if_true]

/-- A managed page takes the place of another one. -/
theorem entersOnce_replaced_cases (prot : Prot) (wired : Bool) (h : Inv c s) (hm : m ≠ 0)
    (hsame : paIndex ((s.view c).entry m va) ≠ pa) (hpa : c.Managed pa)
    (hzero : paIndex ((s.view c).entry m va) ≠ 0) :
    EntersOnce c m va pa prot wired loc s ∧ ListsAllow c s m va pa wired ∨
      (∃ e, enterOnce c m va pa prot wired loc none s = .error e) ∧
      ¬ ListsAllow c s m va pa wired := by
  rw [ListsAllow, if_neg hsame]
  have hmask : ¬ (s.view c).entry m va &&& l2AddrMask = ptoa pa := by rwa [and_l2AddrMask_eq_ptoa]
  have hmask₀ : (s.view c).entry m va &&& l2AddrMask ≠ 0 := by rwa [ne_eq, and_l2AddrMask_eq_zero]
  have honce : enterOnce c m va pa prot wired loc none s =
      unmapOld c m va pa ((s.view c).entry m va) (s.set loc 0) >>= fun x =>
        enterNew c m va pa prot wired loc x.1 none x.2 := by
    simp only [enterOnce, State.get_eq hpte hva, if_neg hmask, if_neg (not_not.2 hpa),
      if_pos hmask₀]
  by_cases hmapped : (s.view c).Mapped c (paIndex ((s.view c).entry m va)) m va
  case neg =>
    refine .inr ⟨?_, fun hallow => (hallow hpa).1.elim hzero hmapped⟩
    cases hunmap : unmapOld c m va pa ((s.view c).entry m va) (s.set loc 0) with
    | error e =>
      refine ⟨e, ?_⟩
      rw [honce, hunmap]
      rfl
    | ok x => exact absurd (unmapOld_ok h hpa hunmap).1 hmapped
  obtain ⟨pvhE, s₁, hunmap, hcleared, hview, htables⟩ :=
    unmapOld_spec h hpte hva hmapped.resident hpa
  obtain ⟨-, hfree, hnone⟩ := unmapOld_ok h hpa hunmap
  rw [hunmap] at honce
  have hview' : s₁.view c = (s.view c).beforeRetry m va pa := by
    rw [View.beforeRetry, if_pos hzero, hview]
  have hzero₁ : paIndex ((s₁.view c).entry m va) = 0 := by
    rw [hview']
    exact View.paIndex_beforeRetry
  have hspent : Spent c s₁ m pa pvhE none ↔ Exhausted c s m va pa := by
    have hmap : ∀ m' va', (s₁.view c).Mapped c pa m' va' ↔ (s.view c).Mapped c pa m' va' := by
      rw [hview']
      exact View.mapped_beforeRetry hsame
    simp only [Spent, Exhausted, hfree, hnone, hmap, hzero, false_or, and_true]
    refine and_congr_right fun _ => ?_
    constructor
    · rintro ⟨honly, hfree, hmapped⟩
      exact ⟨hfree, hmapped, honly⟩
    · rintro ⟨hfree, hmapped, honly⟩
      exact ⟨honly, hfree, hmapped⟩
  rcases entersOnce_of_cleared hpte hva hpa hm honce hcleared hzero₁ (htables ▸ .set loc 0) with
    ⟨henters, hnot⟩ | ⟨hstop, hs⟩
  · exact .inl ⟨henters, fun _ => ⟨.inr hmapped, fun hexh => hnot (hspent.2 hexh)⟩⟩
  · exact .inr ⟨hstop, fun hallow => (hallow hpa).2 (hspent.1 hs)⟩

/-- **Entering at the place of the entry** succeeds exactly if the lists of the pages allow the
    mapping. -/
theorem entersOnce_cases (prot : Prot) (wired : Bool) (h : Inv c s) (hm : m ≠ 0) :
    EntersOnce c m va pa prot wired loc s ∧ ListsAllow c s m va pa wired ∨
      (∃ e, enterOnce c m va pa prot wired loc none s = .error e) ∧
      ¬ ListsAllow c s m va pa wired := by
  by_cases hsame : paIndex ((s.view c).entry m va) = pa
  · exact entersOnce_same_cases hpte hva prot wired h hsame
  by_cases hpa : c.Managed pa
  case neg =>
    have hmask : ¬ (s.view c).entry m va &&& l2AddrMask = ptoa pa := by
      rwa [and_l2AddrMask_eq_ptoa]
    rw [ListsAllow, if_neg hsame]
    refine .inl ⟨.inl ?_, fun hp => absurd hp hpa⟩
    simp only [enterOnce, State.get_eq hpte hva, if_neg hmask, if_pos hpa]
    exact ⟨_, rfl⟩
  by_cases hzero : paIndex ((s.view c).entry m va) = 0
  · -- nothing is replaced
    rw [ListsAllow, if_neg hsame]
    have hclear : ¬ c.Managed (paIndex ((s.view c).entry m va)) := fun hp => hp.ne_zero hzero
    have hspent : Spent c s m pa none none ↔ Exhausted c s m va pa := by
      simp only [Spent, Exhausted, hzero, true_and, true_or, and_true]
    have honce : enterOnce c m va pa prot wired loc none s = enterNew c m va pa prot wired loc none
        none s :=
      enterOnce_of_clear hpte hva hpa hzero
    rcases entersOnce_of_cleared hpte hva hpa hm honce (h.cleared hclear) hzero (.refl _) with
      ⟨henters, hnot⟩ | ⟨hstop, hs⟩
    · exact .inl ⟨henters, fun _ => ⟨.inl hzero, fun hexh => hnot (hspent.2 hexh)⟩⟩
    · exact .inr ⟨hstop, fun hallow => (hallow hpa).2 (hspent.1 hs)⟩
  · exact entersOnce_replaced_cases hpte hva prot wired h hm hsame hpa hzero

end

/-! ## The whole call -/

/-- What the lists allow is told by the mappings and the free lists. -/
theorem listsAllow_congr {s' : State} (hentry : (s'.view c).entry = (s.view c).entry)
    (hpv : s'.pv = s.pv) :
    ListsAllow c s' m va pa wired ↔ ListsAllow c s m va pa wired := by
  have hmapped : ∀ p m' va', (s'.view c).Mapped c p m' va' ↔ (s.view c).Mapped c p m' va' := by
    intro p m' va'
    rw [View.Mapped, View.Mapped, hentry]
  simp only [ListsAllow, Exhausted, hentry, hpv, hmapped]

theorem pv_of_enterTables {s' : State} (h : enterTables c m va grab s = .ok (loc, s')) :
    s'.pv = s.pv := by
  simp only [enterTables, physAttributeSet, Bind.bind, Except.bind] at h
  cases hpte : pmapPte c s.tables m va with
  | error e => simp [hpte] at h
  | ok o =>
    cases o with
    | some loc' =>
      simp only [hpte, Except.ok.injEq, Prod.mk.injEq] at h
      rw [h.2]
    | none =>
      simp only [hpte] at h
      split_ifs at h
      cases hexp : pmapExpand c m va grab s.tables with
      | error e => simp [hexp] at h
      | ok t =>
        cases hpvh : paiToPvh c grab with
        | error e => simp [hexp, hpvh] at h
        | ok r =>
          simp only [hexp, hpvh] at h
          split at h
          · simp at h
          · rename_i o' hpte'
            cases o' with
            | none => simp at h
            | some loc' =>
              simp only [Except.ok.injEq, Prod.mk.injEq] at h
              rw [← h.2]

/-- More rounds change nothing when there is an entry. -/
theorem expandLoop_succ {loops : ℕ} {x : Log × (Block × ℕ) × State}
    (h : expandLoop c behind m va grabs loops log s = .ok x) :
    expandLoop c behind m va grabs (loops + 1) log s = .ok x := by
  induction loops generalizing log s with
  | zero => simp [expandLoop] at h
  | succ loops ih =>
    rw [expandLoop] at h ⊢
    cases hpte : pteOfTte c m va (s.tables.descriptor behind m (tteIndex va)) with
    | error e => simp [hpte] at h
    | ok o =>
      rw [hpte] at h
      cases o with
      | some loc => exact h
      | none =>
        dsimp only at h ⊢
        cases hexp : expandMap c behind m va
          (grabs log.expansions) (log.access s.tables m va) s with
        | error e => simp [hexp] at h
        | ok y =>
          rw [hexp] at h
          exact ih h

/-- The first page of the commpage is not refused in a user pmap, and never entered. -/
theorem not_enters_commpage (hm : m ≠ c.kernelPmap) :
    ¬ Enters c behind m commPageBase pa prot wired grabs s := by
  rintro ⟨fuel, r, log, s', hok, -⟩
  rw [enterOptions, if_neg fun hand => lt_irrefl _ hand.1] at hok
  cases fuel with
  | zero => simp [enterRounds] at hok
  | succ fuel =>
    obtain ⟨e, herr⟩ :=
      @expandLoop_commpage c behind _ _ grabs hm le_rfl (fuel + 1) ⟨0, []⟩ s
    simp [enterRounds, herr] at hok

/-- An address that is not refused is entered in rounds. -/
theorem enterOptions_eq_ok (hrefused : ¬ (commPageBase < va ∧ m ≠ c.kernelPmap)) {fuel : ℕ}
    {r : KernReturn} {log' : Log} {s' : State} :
    enterOptions c behind m va pa prot wired grabs fuel s = .ok (r, log', s') ↔
      r = .success ∧
        enterRounds c behind m va pa prot wired grabs fuel fuel none ⟨0, []⟩ s = .ok (log', s') := by
  rw [enterOptions, if_neg hrefused]
  cases enterRounds c behind m va pa prot wired grabs fuel fuel none ⟨0, []⟩ s with
  | error e => simp
  | ok x => simp [Prod.ext_iff, eq_comm]

/-- Two rounds enter a mapping whose place has been found; no table is expanded in the second. -/
theorem enterRounds_of_entersOnce {s₁ : State}
    (hloop : expandLoop c behind m va grabs 2 ⟨0, []⟩ s = .ok (log, loc, s₁))
    (hpte : pmapPte c s₁.tables m va = .ok (some loc)) (hcov : tteIndex va * 4 < s₁.tables.l1Size m)
    (hsize : s₁.tables.l1Size m % 4 = 0) (h : EntersOnce c m va pa prot wired loc s₁)
    (hin : log.Inside) :
    ∃ log' s', enterRounds c behind m va pa prot wired grabs 2 2 none ⟨0, []⟩ s = .ok (log', s') ∧
      log'.expansions = log.expansions ∧ log'.Inside := by
  rcases h with ⟨s', honce⟩ | ⟨s₂, s', honce, hsame, hagain⟩
  · exact ⟨log, s', by simp only [enterRounds, hloop, honce], rfl, hin⟩
  · -- the entry is still there
    have hcov₂ : tteIndex va * 4 < s₂.tables.l1Size m := by
      rw [hsame.2.1]
      exact hcov
    have hagain' := @expandLoop_of_pte c behind _ _ grabs _ { s₂ with pv := s₂.pv.zalloc.2 } hcov₂
      (hsame.pmapPte.trans hpte) 1 log
    refine ⟨log.access s₂.tables m va, s', ?_, rfl, hin.access (inside_of_covers ?_ hcov₂)⟩
    · simp only [enterRounds, hloop, honce, hagain', hagain]
    · rw [hsame.2.1]
      exact hsize

/-- **Entering a mapping** finishes as it should exactly if it is not one of the first page of the
    commpage in a user pmap, and the lists of the pages allow it. -/
theorem enters_iff (h : Inv c s) (hm : s.tables.Live m) (hva : Aligned va)
    (hg : s.tables.Grants c (grabs 0)) :
    Enters c behind m va pa prot wired grabs s ↔
      (m = c.kernelPmap ∨ va ≠ commPageBase) ∧ (Lookup c m va → ListsAllow c s m va pa wired) := by
  by_cases hrefused : commPageBase < va ∧ m ≠ c.kernelPmap
  · -- the address is refused
    have hl : ¬ Lookup c m va := fun hl => hl.elim hrefused.2 fun hlow =>
      absurd hlow (Nat.not_lt.2 hrefused.1.le)
    refine iff_of_true ?_ ⟨.inr (Nat.ne_of_gt hrefused.1), fun h => absurd h hl⟩
    refine ⟨0, .invalidArgument, ⟨0, []⟩, s, if_pos hrefused,
      fun _ => rfl, Nat.zero_le 1, by simp, fun _ => ?_⟩
    exact iff_of_false KernReturn.noConfusion fun hpte => hl (hasPte_iff.1 hpte)
  by_cases hl : Lookup c m va
  case neg =>
    -- the address is neither refused nor found
    rw [Lookup, not_or, Nat.not_lt] at hl
    obtain rfl : va = commPageBase :=
      Nat.le_antisymm (Nat.le_of_not_lt fun hlt => hrefused ⟨hlt, hl.1⟩) hl.2
    exact iff_of_false (not_enters_commpage hl.1) fun hcond => hcond.1.elim hl.1 fun hne => hne rfl
  have hbase : m = c.kernelPmap ∨ va ≠ commPageBase := hl.imp_right Nat.ne_of_lt
  obtain ⟨log, loc, s₁, htables, hloop, hcount, hin⟩ :=
    @expandLoop_spec _ behind _ _ _ ⟨0, []⟩ _ h hm hl hg (by simp [Log.Inside])
  obtain ⟨loc', s₁', grown, htables', h₁, hview, hpte, hsize⟩ := enterTables_spec h hm hl hg
  obtain ⟨rfl, rfl⟩ := Prod.mk.inj (Except.ok.inj (htables'.symm.trans htables))
  have hentry : (s₁'.view c).entry = (s.view c).entry := by
    rw [hview]
    split_ifs <;> rfl
  have hm₀ : m ≠ 0 := fun hzero => hm (hzero ▸ h.wf.null)
  have hcov : tteIndex va * 4 < s₁'.tables.l1Size m := by
    rw [hsize]
    exact h.wf.covers hm hl
  rw [← listsAllow_congr hentry (pv_of_enterTables htables)]
  rcases entersOnce_cases hpte hva prot wired h₁ hm₀ with ⟨henters, hallow⟩ | ⟨⟨e, hstop⟩, hnot⟩
  · refine iff_of_true ?_ ⟨hbase, fun _ => hallow⟩
    obtain ⟨log', s', hrounds, hcount', hin'⟩ :=
      enterRounds_of_entersOnce (hloop 0) hpte hcov (h₁.wf.size_mod m) henters hin
    rw [← hcount'] at hcount
    exact ⟨2, .success, log', s', (enterOptions_eq_ok hrefused).2 ⟨rfl, hrounds⟩,
      KernReturn.noConfusion, hcount, hin', fun _ => iff_of_true rfl (hasPte_iff.2 hl)⟩
  · refine iff_of_false ?_ fun hcond => hnot (hcond.2 hl)
    rintro ⟨fuel, r, log', s', hok, -⟩
    obtain ⟨-, hok⟩ := (enterOptions_eq_ok hrefused).1 hok
    cases fuel with
    | zero => simp [enterRounds] at hok
    | succ fuel =>
      rw [enterRounds] at hok
      cases hrun : expandLoop c behind m va grabs (fuel + 1) ⟨0, []⟩ s with
      | error e => simp [hrun] at hok
      | ok x =>
        obtain rfl : x = (log, loc', s₁') :=
          Except.ok.inj ((expandLoop_succ hrun).symm.trans (hloop fuel))
        simp [hrun, hstop] at hok

end

/-- A page in the kernel's pmap, where nothing has been mapped. -/
theorem enters_kernel : Enters flat (fun _ _ => 0) 1 0x3000 7 vmProtAll false (fun _ => 6)
    (boot flat) := by
  refine (enters_iff (inv_boot flat) (by decide) (by decide) (by decide)).2 ⟨.inl rfl, fun _ => ?_⟩
  have hzero : paIndex (((boot flat).view flat).entry 1 0x3000) = 0 := by decide
  rw [ListsAllow, hzero, if_neg (by decide)]
  refine fun _ => ⟨.inl rfl, ?_⟩
  rintro ⟨-, -, ⟨m', va', hmapped⟩, -⟩
  exact not_resident_boot hmapped.resident

/-- The first page of the commpage in a user pmap: there is a pmap, and the call does not return. -/
theorem commpage_never_entered : ∃ s, run flat [.create 2 5] = .ok s ∧ s.tables.Live 2 ∧
    ¬ Enters flat (fun _ _ => 0) 2 0x40000000 7 vmProtAll false (fun _ => 6) s :=
  ⟨_, rfl, by decide, not_enters_commpage (by decide)⟩

end PocketDarwin.Pmap
