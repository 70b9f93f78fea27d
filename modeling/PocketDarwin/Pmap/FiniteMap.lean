/-
  The page tables of user pmaps as a finite map.

  An address space maps addresses of pages to pages with permissions.  `Space.step` says
  what the calls of the module are for in these terms: entering, removing and protecting
  what a range of addresses maps, and what maps a page.

  * `Space.Shows.refines`: each call refines its counterpart, and leaves the entries that it
    is not about.
  * `space_run`: so does every run from `pmap_init` on.
-/
import PocketDarwin.Pmap.Listing

namespace PocketDarwin.Pmap

/-- A page, and what may be done with it. -/
structure Mapping where
  page : Ppn
  write : Bool
  execute : Bool
deriving DecidableEq, Repr

/-- The mapping that an entry stands for. -/
def Mapping.ofPte (w : Word) : Option Mapping :=
  if Valid w then some ⟨paIndex w, decide (Writable w), decide (Executable w)⟩ else none

/-- The access that a protection allows. -/
def Mapping.protect (prot : Prot) (x : Mapping) : Mapping :=
  ⟨x.page, decide (prot &&& vmProtWrite ≠ 0), decide (prot &&& vmProtExecute ≠ 0)⟩

/-- What `pmap_page_protect` leaves of a mapping. -/
def Mapping.pageProtect (prot : Prot) (x : Mapping) : Option Mapping :=
  if prot = vmProtAll then some x
  else if prot = vmProtRead ∨ prot = vmProtRead ||| vmProtExecute then some { x with write := false }
  else none

/-- Address spaces, by pmap: what the address of a page maps. -/
abbrev Space := ℕ → ℕ → Option Mapping

/-- What a call is for. -/
def Space.step (σ : Space) : Call → Space
  | .enter m va pa prot _ _ => fun m' va' =>
    if m' = m ∧ va' = va then some (Mapping.protect prot ⟨pa, false, false⟩) else σ m' va'
  | .remove m sva eva => fun m' va' => if m' = m ∧ sva ≤ va' ∧ va' < eva then none else σ m' va'
  | .protect m sva eva prot => fun m' va' =>
    if m' = m ∧ sva ≤ va' ∧ va' < eva then (if prot = 0 then none else (σ m' va').map (Mapping.protect prot))
    else σ m' va'
  | .pageProtect pn prot => fun m va =>
    match σ m va with
    | some x => if x.page = pn then x.pageProtect prot else some x
    | none => none
  | _ => σ

/-- The address is one that the call is about. -/
def Space.Covers (σ : Space) : Call → ℕ → ℕ → Prop
  | .enter m va _ _ _ _, m', va' => m' = m ∧ va' = va
  | .remove m sva eva, m', va' | .protect m sva eva _, m', va' => m' = m ∧ sva ≤ va' ∧ va' < eva
  | .pageProtect pn _, m, va => ∃ x, σ m va = some x ∧ x.page = pn
  | _, _, _ => False

/-- Calls for user pmaps: managed pages are mapped, not wired, below the commpage. -/
def UserCall (c : Machine) (s : State) : Call → Prop
  | .create m grab => m ≠ 0 ∧ ¬ s.tables.Live m ∧ s.tables.Grants c grab
  | .enter m va pa _ wired grab =>
    m ≠ c.kernelPmap ∧ s.tables.Live m ∧ va % 0x1000 = 0 ∧ va < commPageBase ∧ c.Managed pa ∧ wired = false ∧
      s.tables.Grants c grab
  | .remove m sva eva | .protect m sva eva _ =>
    m ≠ c.kernelPmap ∧ s.tables.Live m ∧ sva % 0x1000 = 0 ∧ eva % 0x1000 = 0 ∧ eva ≤ commPageBase
  | .pageProtect pn _ => c.Managed pn
  | .mappingAdjust | .mappingFreePrime => True
  | _ => False

section
variable {w : Word} {c : Machine} {v : View} {m m' va va' : ℕ} {pa p : Ppn} {prot : Prot}

theorem Mapping.ofPte_zero : Mapping.ofPte 0 = none := by decide

theorem Mapping.ofPte_template : Mapping.ofPte (v.template c m va pa prot) = some (Mapping.protect prot ⟨pa, false, false⟩) := by
  have hcache := v.isMemoryType_cacheAttributes c pa
  rw [ofPte, View.template, if_pos (valid_templatePte hcache), paIndex_templatePte hcache,
    Mapping.protect]
  simp only [writable_templatePte hcache, executable_templatePte hcache]

theorem Mapping.ofPte_protectPte : Mapping.ofPte (protectPte prot w) = (Mapping.ofPte w).map (Mapping.protect prot) := by
  rw [ofPte, ofPte]
  by_cases hvalid : Valid w
  · rw [if_pos (valid_protectPte.2 hvalid), if_pos hvalid, Option.map_some, Mapping.protect,
      paIndex_protectPte]
    simp only [writable_protectPte, executable_protectPte]
  · rw [if_neg fun h => hvalid (valid_protectPte.1 h), if_neg hvalid, Option.map_none]

theorem Mapping.ofPte_writeProtect : Mapping.ofPte (w ||| l2AccessApx) = (Mapping.ofPte w).map fun x => { x with write := false } := by
  rw [ofPte, ofPte]
  by_cases hvalid : Valid w
  · rw [if_pos (valid_writeProtect.2 hvalid), if_pos hvalid, Option.map_some, paIndex_writeProtect]
    simp only [not_writable_writeProtect, executable_writeProtect, decide_false]
  · rw [if_neg fun h => hvalid (valid_writeProtect.1 h), if_neg hvalid, Option.map_none]

theorem Mapping.pageProtect_eq {x : Mapping} (hprot : prot ≠ vmProtAll) :
    x.pageProtect prot = if View.removes prot = true then none else some { x with write := false } := by
  rw [pageProtect, if_neg hprot, View.removes]
  by_cases hread : prot = vmProtRead ∨ prot = vmProtRead ||| vmProtExecute
  · rcases hread with rfl | rfl <;> rfl
  · obtain ⟨h₁, h₂⟩ := not_or.1 hread
    simp [h₁, h₂]

/-- The address space of the kernel's tables is another matter. -/
theorem not_boot (hm : m ≠ c.kernelPmap) : ¬ c.Boot m va := by
  have hlive : ¬ (boot c).tables.Live m := by
    rw [Tables.Live, ne_eq, not_not]
    exact if_neg hm
  rw [Machine.Boot, ne_eq, not_not]
  simp only [State.view]
  split_ifs
  · exact entry_of_not_live hlive
  · rfl

end

/-- The address spaces that a view stands for; the entries of the kernel are as before `pmap_init`. -/
structure Space.Abstracts (c : Machine) (σ : Space) (v : View) : Prop where
  space : ∀ m va, m ≠ c.kernelPmap → Mapping.ofPte (v.entry m va) = σ m va
  kernel : ∀ va, v.entry c.kernelPmap va = ((boot c).view c).entry c.kernelPmap va
  kernel_eq_none : ∀ va, σ c.kernelPmap va = none
  aligned : ∀ m va, v.entry m va ≠ 0 → Aligned va
  plain : v.Plain c

/-- The address spaces of a state, whose mappings are counted. -/
structure Space.Shows (c : Machine) (σ : Space) (s : State) : Prop where
  inv : Inv c s
  abstracts : σ.Abstracts c (s.view c)
  counted : ∀ m, m ≠ c.kernelPmap → s.tables.Live m → (s.view c).excess c m = 0

/-- The call leaves an entry, or writes it as it is meant to. -/
def Space.Writes (c : Machine) (σ : Space) (v : View) (call : Call) (v' : View) (m va : ℕ) : Prop :=
  v'.entry m va = v.entry m va ∧ σ.step call m va = σ m va ∨
  σ.Covers call m va ∧ m ≠ c.kernelPmap ∧ Mapping.ofPte (v'.entry m va) = σ.step call m va

section
variable {c : Machine} {σ : Space} {s : State} {v v' : View} {m m' va va' sva eva : ℕ} {p : Ppn} {prot : Prot} {call : Call}

namespace Space.Abstracts

theorem eq_none (h : σ.Abstracts c v) (hm : m ≠ c.kernelPmap) (hzero : v.entry m va = 0) : σ m va = none := by
  rw [← h.space m va hm, hzero, Mapping.ofPte_zero]

theorem eq_some (h : σ.Abstracts c v) (hm : m ≠ c.kernelPmap) (hne : v.entry m va ≠ 0) :
    ∃ x, σ m va = some x ∧ x.page = paIndex (v.entry m va) := by
  refine ⟨_, (h.space m va hm).symm.trans (if_pos (h.plain.sound m va (not_boot hm) hne)), rfl⟩

/-- The mappings of a page are those of user pmaps. -/
theorem mapped_iff (h : σ.Abstracts c v) (hp : c.Managed p) (hm : m ≠ c.kernelPmap) :
    v.Mapped c p m va ↔ ∃ x, σ m va = some x ∧ x.page = p := by
  constructor
  · intro hmapped
    obtain ⟨x, hx, hpage⟩ := h.eq_some hm hmapped.entry_ne_zero
    exact ⟨x, hx, hpage.trans hmapped.2.2⟩
  · rintro ⟨x, hx, rfl⟩
    have hne : v.entry m va ≠ 0 := by
      intro hzero
      rw [h.eq_none hm hzero] at hx
      simp at hx
    obtain ⟨y, hy, hpage⟩ := h.eq_some hm hne
    obtain rfl := Option.some.inj (hx.symm.trans hy)
    exact ⟨hp, not_boot hm, hpage.symm⟩

theorem not_mapped_kernel (h : σ.Abstracts c v) : ¬ v.Mapped c p c.kernelPmap va := by
  intro hmapped
  have hne := hmapped.entry_ne_zero
  rw [h.kernel] at hne
  exact hmapped.2.1 hne

/-- What is written as it is meant to be, stands for what is meant. -/
theorem of_writes (h : σ.Abstracts c v) (hwrites : ∀ m va, σ.Writes c v call v' m va) (hplain : v'.Plain c)
    (haligned : ∀ m va, v'.entry m va ≠ 0 → Aligned va) : (σ.step call).Abstracts c v' where
  space := by
    intro m va hm
    rcases hwrites m va with ⟨hentry, hspace⟩ | ⟨-, -, hspace⟩
    · rw [hentry, hspace, h.space m va hm]
    · exact hspace
  kernel := by
    intro va
    rcases hwrites c.kernelPmap va with ⟨hentry, -⟩ | ⟨-, hne, -⟩
    · rw [hentry, h.kernel]
    · exact absurd rfl hne
  kernel_eq_none := by
    intro va
    rcases hwrites c.kernelPmap va with ⟨-, hspace⟩ | ⟨-, hne, -⟩
    · rw [hspace, h.kernel_eq_none]
    · exact absurd rfl hne
  aligned := haligned
  plain := hplain

/-- `pmap_enter` -/
theorem writes_enter {pa grab : Ppn} {grown first : Bool} (hm : m ≠ c.kernelPmap) :
    σ.Writes c v (.enter m va pa prot false grab) (v.enter c m va pa prot false grab grown first) m' va' := by
  simp only [Space.Writes, View.entry_enter, Space.step]
  by_cases hand : m' = m ∧ va' = va
  · obtain ⟨rfl, rfl⟩ := hand
    rw [if_pos ⟨rfl, rfl⟩, if_pos ⟨rfl, rfl⟩]
    exact .inr ⟨⟨rfl, rfl⟩, hm, Mapping.ofPte_template⟩
  · rw [if_neg hand, if_neg hand]
    exact .inl ⟨rfl, rfl⟩

/-- The addresses of a range that entries stand for. -/
theorem mem_pages_iff (h : σ.Abstracts c v) (hs : sva % 0x1000 = 0) (he : eva % 0x1000 = 0) (hne : v.entry m va ≠ 0) :
    va ∈ pages sva eva ↔ sva ≤ va ∧ va < eva := by
  rw [mem_pages hs he, and_iff_right (h.aligned m va hne).1]

/-- `pmap_remove` -/
theorem writes_remove (h : σ.Abstracts c v) (hm : m ≠ c.kernelPmap) (hs : sva % 0x1000 = 0) (he : eva % 0x1000 = 0)
    (hstep : ∀ m' va', σ.step call m' va' = if m' = m ∧ sva ≤ va' ∧ va' < eva then none else σ m' va')
    (hcovers : ∀ m' va', σ.Covers call m' va' ↔ m' = m ∧ sva ≤ va' ∧ va' < eva) :
    σ.Writes c v call (v.remove c m sva eva) m' va' := by
  rw [Space.Writes, View.entry_remove, hstep, hcovers]
  by_cases hin : m' = m ∧ sva ≤ va' ∧ va' < eva
  · obtain ⟨rfl, hrange⟩ := hin
    have hzero : (if (m' = m' ∧ va' ∈ pages sva eva) ∧ c.Managed (paIndex (v.entry m' va')) then 0
        else v.entry m' va') = 0 := by
      by_cases hne : v.entry m' va' = 0
      · simp [hne]
      · exact if_pos ⟨⟨rfl, (h.mem_pages_iff hs he hne).2 hrange⟩,
          h.plain.managed m' va' (not_boot hm) hne⟩
    rw [hzero, if_pos ⟨rfl, hrange⟩, Mapping.ofPte_zero]
    exact .inr ⟨⟨rfl, hrange⟩, hm, rfl⟩
  · have hout : ¬ ((m' = m ∧ va' ∈ pages sva eva) ∧ c.Managed (paIndex (v.entry m' va'))) := by
      rintro ⟨⟨rfl, hmem⟩, -⟩
      exact hin ⟨rfl, ((mem_pages hs he).1 hmem).2⟩
    rw [if_neg hin, if_neg hout]
    exact .inl ⟨rfl, rfl⟩

/-- `pmap_protect` -/
theorem writes_protect (h : σ.Abstracts c v) (hm : m ≠ c.kernelPmap) (hs : sva % 0x1000 = 0) (he : eva % 0x1000 = 0)
    (hprot : prot ≠ 0) : σ.Writes c v (.protect m sva eva prot) (v.protect m sva eva prot) m' va' := by
  rw [Space.Writes, View.entry_protect, Space.step]
  simp only [if_neg hprot]
  by_cases hin : m' = m ∧ sva ≤ va' ∧ va' < eva
  · obtain ⟨rfl, hrange⟩ := hin
    by_cases hne : v.entry m' va' = 0
    · rw [if_neg fun hand => not_valid_zero (hne ▸ hand.2), h.eq_none hm hne]
      exact .inl ⟨rfl, by simp⟩
    · have hvalid := h.plain.sound m' va' (not_boot hm) hne
      have hmem := (h.mem_pages_iff hs he hne).2 hrange
      rw [if_pos ⟨⟨rfl, hmem⟩, hvalid⟩, if_pos ⟨rfl, hrange⟩, Mapping.ofPte_protectPte,
        h.space m' va' hm]
      exact .inr ⟨⟨rfl, hrange⟩, hm, rfl⟩
  · have hout : ¬ ((m' = m ∧ va' ∈ pages sva eva) ∧ Valid (v.entry m' va')) := by
      rintro ⟨⟨rfl, hmem⟩, -⟩
      exact hin ⟨rfl, ((mem_pages hs he).1 hmem).2⟩
    rw [if_neg hin, if_neg hout]
    exact .inl ⟨rfl, rfl⟩

/-- `pmap_page_protect` -/
theorem writes_pageProtect {l : List (ℕ × ℕ)} (h : σ.Abstracts c v) (hp : c.Managed p) (hprot : prot ≠ vmProtAll)
    (hl : v.MappingsOf c p l) : σ.Writes c v (.pageProtect p prot) (v.pageProtect c p prot l) m va := by
  rw [Space.Writes, View.entry_pageProtect hl.1, Space.step]
  by_cases hmem : (m, va) ∈ l
  · have hmapped := (hl.2 m va).1 hmem
    have hm : m ≠ c.kernelPmap := by
      rintro rfl
      exact h.not_mapped_kernel hmapped
    obtain ⟨x, hx, hpage⟩ := (h.mapped_iff hp hm).1 hmapped
    have hpte : Mapping.ofPte (v.entry m va) = some x := (h.space m va hm).trans hx
    simp only [if_pos hmem, hx, if_pos hpage, or_iff_left hm]
    refine .inr ⟨⟨x, hx, hpage⟩, hm, ?_⟩
    rw [Mapping.pageProtect_eq hprot]
    by_cases hremove : View.removes prot = true
    · rw [if_pos hremove, if_pos hremove, Mapping.ofPte_zero]
    · rw [if_neg hremove, if_neg hremove, Mapping.ofPte_writeProtect, hpte, Option.map_some]
  · rw [if_neg hmem]
    refine .inl ⟨rfl, ?_⟩
    cases hx : σ m va with
    | none => simp only [hx]
    | some x =>
      have hm : m ≠ c.kernelPmap := by
        rintro rfl
        rw [h.kernel_eq_none] at hx
        simp at hx
      have hpage : x.page ≠ p := fun hpage =>
        hmem ((hl.2 m va).2 ((h.mapped_iff hp hm).2 ⟨x, hx, hpage⟩))
      simp only [hx, if_neg hpage]

/-- What a call does to the entries is what it is for. -/
theorem writes (h : σ.Abstracts c (s.view c)) (hu : UserCall c s call) (heffect : (s.view c).Effect c call v') (m va : ℕ) :
    σ.Writes c (s.view c) call v' m va := by
  cases call with
  | create m' grab =>
    obtain rfl := heffect
    exact .inl ⟨rfl, rfl⟩
  | enter m' va' pa prot wired grab =>
    obtain ⟨hm, -, -, hlow, -, rfl, -⟩ := hu
    rw [View.Effect, if_neg (Lookup.not_high (.inr hlow))] at heffect
    obtain ⟨grown, first, -, rfl⟩ := heffect
    exact writes_enter hm
  | remove m' sva eva =>
    obtain ⟨hm, -, hs, he, -⟩ := hu
    obtain rfl := heffect
    exact h.writes_remove hm hs he (fun _ _ => rfl) fun _ _ => Iff.rfl
  | protect m' sva eva prot =>
    obtain ⟨hm, -, hs, he, -⟩ := hu
    by_cases hprot : prot = 0
    · rw [View.Effect, if_pos hprot] at heffect
      obtain rfl := heffect
      refine h.writes_remove hm hs he (fun _ _ => ?_) fun _ _ => Iff.rfl
      simp only [Space.step, if_pos hprot]
    · rw [View.Effect, if_neg hprot] at heffect
      obtain rfl := heffect
      exact h.writes_protect hm hs he hprot
  | pageProtect pn prot =>
    by_cases hall : prot = vmProtAll
    · rw [View.Effect, if_neg fun hand => hand.2 hall] at heffect
      obtain rfl := heffect
      refine .inl ⟨rfl, ?_⟩
      rw [Space.step]
      cases hx : σ m va with
      | none => simp only [hx]
      | some x => simp only [hx, Mapping.pageProtect, if_pos hall, ite_self]
    · rw [View.Effect, if_pos ⟨hu, hall⟩] at heffect
      obtain ⟨l, hl, rfl⟩ := heffect
      exact h.writes_pageProtect hu hall hl
  | mappingAdjust =>
    obtain rfl := heffect
    exact .inl ⟨rfl, rfl⟩
  | mappingFreePrime =>
    obtain rfl := heffect
    exact .inl ⟨rfl, rfl⟩
  | _ => exact hu.elim

/-- Mappings are counted. -/
theorem excess (h : σ.Abstracts c (s.view c)) (hinv : Inv c s) (hu : UserCall c s call)
    (heffect : (s.view c).Effect c call v') (hm : ¬ call.Creates m) : v'.excess c m = (s.view c).excess c m := by
  have hremove : ∀ m' sva eva, m' ≠ c.kernelPmap ∧ s.tables.Live m' ∧ sva % 0x1000 = 0 ∧
      eva % 0x1000 = 0 ∧
      eva ≤ commPageBase → ((s.view c).remove c m' sva eva).excess c m = (s.view c).excess c m := by
    rintro m' sva eva ⟨hm', -, hs, he, hlow⟩
    refine View.excess_remove fun va hmem => ?_
    obtain ⟨hva, -, hlt⟩ := (mem_pages hs he).1 hmem
    exact ⟨⟨hva, (hlt.trans_le hlow).trans (by decide)⟩, not_boot hm'⟩
  cases call with
  | create m' grab =>
    obtain rfl := heffect
    exact View.excess_of_entry rfl (by simp only [Function.update_of_ne hm])
  | enter m' va pa prot wired grab =>
    obtain ⟨hm', -, hva, hlow, hpa, rfl, -⟩ := hu
    rw [View.Effect, if_neg (Lookup.not_high (.inr hlow))] at heffect
    obtain ⟨grown, first, -, rfl⟩ := heffect
    exact View.excess_enter ⟨hva, hlow.trans (by decide)⟩ (not_boot hm')
      hpa (h.plain.page_eq_zero_or_managed (not_boot hm'))
  | remove m' sva eva =>
    obtain rfl := heffect
    exact hremove m' sva eva hu
  | protect m' sva eva prot =>
    rw [View.Effect] at heffect
    obtain rfl := heffect
    split_ifs
    · exact hremove m' sva eva hu
    · exact View.excess_protect
  | pageProtect pn prot =>
    rw [View.Effect] at heffect
    split_ifs at heffect
    · obtain ⟨l, hl, rfl⟩ := heffect
      refine View.excess_pageProtect hl fun x hx => ?_
      exact (State.exists_pte hinv.wf ((hl.2 x.1 x.2).1 hx).entry_ne_zero).1
    · obtain rfl := heffect
      rfl
  | mappingAdjust =>
    obtain rfl := heffect
    rfl
  | mappingFreePrime =>
    obtain rfl := heffect
    rfl
  | _ => exact hu.elim

/-- A new pmap maps nothing. -/
theorem excess_of_created (hu : UserCall c s call) (heffect : (s.view c).Effect c call v') (hm : call.Creates m) :
    v'.excess c m = 0 := by
  cases call with
  | create m' grab =>
    obtain rfl : m = m' := hm
    have hentry : v'.entry = (s.view c).entry := by
      rw [heffect]
      rfl
    have hres : v'.residents c m = (s.view c).residents c m :=
      View.residents_congr fun va => by rw [View.Resident, View.Resident, hentry]
    rw [View.excess, hres, residents_of_not_live hu.2.1, heffect]
    simp
  | _ => exact hm.elim

end Space.Abstracts

/-- Calls for user pmaps are calls for managed pages. -/
theorem UserCall.managedCall (hu : UserCall c s call) : ManagedCall c s call := by
  have hrange : ∀ m sva eva, m ≠ c.kernelPmap ∧ s.tables.Live m ∧ sva % 0x1000 = 0 ∧
      eva % 0x1000 = 0 ∧ eva ≤ commPageBase →
      Range c s.tables m sva eva := by
    rintro m sva eva ⟨hm, hlive, hs, he, hlow⟩
    exact ⟨hlive, hs, he, hlow.trans (by decide), .inr hlow, fun _ _ => not_boot hm⟩
  cases call with
  | create m grab => exact hu
  | enter m va pa prot wired grab =>
    obtain ⟨hm, hlive, hva, hlow, hpa, hwired, hg⟩ := hu
    exact ⟨hlive, ⟨hva, hlow.trans (by decide)⟩, .inr hlow, not_boot hm, hpa, hwired, hg⟩
  | remove m sva eva => exact hrange m sva eva hu
  | protect m sva eva prot => exact hrange m sva eva hu
  | pageProtect pn prot => exact trivial
  | mappingAdjust => exact trivial
  | mappingFreePrime => exact trivial
  | _ => exact hu.elim

/-- **Refinement.**  A call for user pmaps ends, is what it is for, and leaves the entries that it is not about. -/
theorem Space.Shows.refines (h : σ.Shows c s) (hu : UserCall c s call) :
    ∃ s', s.call c call = .ok s' ∧ (σ.step call).Shows c s' ∧
      ∀ m va, ¬ σ.Covers call m va → (s'.view c).entry m va = (s.view c).entry m va := by
  rcases managed_call h.inv h.abstracts.plain hu.managedCall with ⟨s', hok, hinv, hplain, heffect,
    hlive⟩ | ⟨-, henter⟩
  · have hwrites := h.abstracts.writes hu heffect
    have haligned : ∀ m va, (s'.view c).entry m va ≠ 0 → Aligned va :=
      fun m va hne => (State.exists_pte hinv.wf hne).1
    refine ⟨s', hok, ⟨hinv, h.abstracts.of_writes hwrites hplain haligned, fun m hm hlive' => ?_⟩,
      fun m va hnot => ?_⟩
    · by_cases hcreates : call.Creates m
      · exact Abstracts.excess_of_created hu heffect hcreates
      · rw [h.abstracts.excess h.inv hu heffect hcreates]
        exact h.counted m hm (((hlive m).1 hlive').resolve_right hcreates)
    · rcases hwrites m va with ⟨hentry, -⟩ | ⟨hcovers, -⟩
      · exact hentry
      · exact absurd hcovers hnot
  · obtain ⟨va, pa, prot, wired, grab, rfl⟩ := henter
    exact absurd rfl hu.1

/-- The address spaces after a run. -/
def Space.after (log : List Call) : Space := log.foldl Space.step fun _ _ => none

/-- When `pmap_init` returns, there are none. -/
theorem Space.shows_boot (c : Machine) : Space.Shows c (fun _ _ => none) (boot c) := by
  have hlive : ∀ m, m ≠ c.kernelPmap → ¬ (boot c).tables.Live m := fun m hm hlive => hlive (if_neg hm)
  have hzero : ∀ m va, m ≠ c.kernelPmap → ((boot c).view c).entry m va = 0 :=
    fun m va hm => not_not.1 (not_boot hm)
  refine ⟨inv_boot c, ?_, fun m hm hl => absurd hl (hlive m hm)⟩
  exact
    { space := fun m va hm => by rw [hzero m va hm, Mapping.ofPte_zero]
      kernel := fun _ => rfl
      kernel_eq_none := fun _ => rfl
      aligned := fun m va hne => (State.exists_pte (wf_boot c) hne).1
      plain := plain_boot c }

/-- The calls of a run are for user pmaps. -/
def UserRun (c : Machine) (log : List Call) : Prop :=
  Meets (step c) (fun r call => ∀ s, r = .ok s → UserCall c s call) (.ok (boot c)) log

/-- **Runs** refine as single calls do. -/
theorem Space.shows_after {log : List Call} (hlog : UserRun c log) :
    ∃ s, run c log = .ok s ∧ (Space.after log).Shows c s := by
  have hrun : ∀ (log : List Call) (σ : Space) (s : State), σ.Shows c s →
      Meets (Pmap.step c) (fun r call => ∀ s, r = .ok s → UserCall c s call) (.ok s) log →
      ∃ s', log.foldl (Pmap.step c) (.ok s) = .ok s' ∧ (log.foldl Space.step σ).Shows c s' := by
    intro log
    induction log with
    | nil => exact fun σ s hs _ => ⟨s, rfl, hs⟩
    | cons call log ih =>
      rintro σ s hs ⟨hu, hlog⟩
      obtain ⟨s', hok, hs', -⟩ := hs.refines (hu s rfl)
      have hstep : Pmap.step c (.ok s) call = .ok s' := hok
      rw [List.foldl_cons, List.foldl_cons, hstep]
      exact ih _ s' hs' (hstep ▸ hlog)
  exact hrun log _ _ (Space.shows_boot c) hlog

/-- The number of valid entries of a pmap. -/
def View.validCount (v : View) (m : ℕ) : ℕ := ((Finset.range 0x100000).filter fun k => Valid (v.entry m (k * 0x1000))).card

theorem Space.Abstracts.residents_eq (h : σ.Abstracts c v) (hm : m ≠ c.kernelPmap) : v.residents c m = v.validCount m := by
  have hvalid : ∀ va, v.Resident c m va ↔ Valid (v.entry m va) := by
    intro va
    constructor
    · exact fun hres => h.plain.sound m va (not_boot hm) hres.mapped.entry_ne_zero
    · intro hvalid
      have hne : v.entry m va ≠ 0 := fun hzero => not_valid_zero (hzero ▸ hvalid)
      exact ⟨h.plain.managed m va (not_boot hm) hne, not_boot hm⟩
  rw [View.residents, View.validCount, Finset.filter_congr fun k _ => hvalid (k * 0x1000)]

/-- `pmap_find_phys` reads the entry of the page of an address. -/
theorem pmapFindPhys_eq (h : Inv c s) (hm : s.tables.Live m) (hl : va < commPageBase) : pmapFindPhys c m va s =
    .ok (if Valid ((s.view c).entry m (va / 0x1000 * 0x1000)) then paIndex ((s.view c).entry m (va / 0x1000 * 0x1000)) else 0) := by
  have hlow : va < 0x40000000 := hl
  have hpage : va / 0x1000 * 0x1000 < commPageBase := by
    rw [commPageBase]
    omega
  have hva : Aligned (va / 0x1000 * 0x1000) := by
    constructor <;> omega
  have htte : tteIndex (va / 0x1000 * 0x1000) = tteIndex va := by
    simp only [tteIndex]
    omega
  have hpte : pteIndex (va / 0x1000 * 0x1000) = pteIndex va := by
    simp only [pteIndex]
    omega
  rw [State.entry_view hva, h.wf.entry hm (.inr hpage), htte, hpte]
  simp only [pmapFindPhys, h.wf.pmapPte hm (.inr hl), Bind.bind, Except.bind]
  by_cases htable : l1PteAddr (s.tables.l1 m (tteIndex va)) = 0
  · simp only [if_pos htable]
    rfl
  · simp only [if_neg htable]
    rfl

/-- **Page tables are finite maps.**  After every run of calls for user pmaps, `pmap_find_phys` and the entries tell
    what was last entered and not removed, with the permissions that it was left with, every valid entry is
    counted, and the next call leaves the entries that it is not about. -/
theorem space_run {log : List Call} (hlog : UserRun c log) : ∃ s, run c log = .ok s ∧
    (∀ m va, m ≠ c.kernelPmap → s.tables.Live m → va < commPageBase →
      pmapFindPhys c m va s = .ok (((Space.after log) m (va / 0x1000 * 0x1000)).elim 0 Mapping.page)) ∧
    (∀ m va x, m ≠ c.kernelPmap → Space.after log m va = some x →
      (Writable ((s.view c).entry m va) ↔ x.write = true) ∧ (Executable ((s.view c).entry m va) ↔ x.execute = true)) ∧
    (∀ m, m ≠ c.kernelPmap → s.tables.Live m → (s.stats m).residentCount = (s.view c).validCount m) ∧
    ∀ call, UserCall c s call → ∃ s', s.call c call = .ok s' ∧
      ∀ m va, ¬ (Space.after log).Covers call m va → (s'.view c).entry m va = (s.view c).entry m va := by
  obtain ⟨s, hok, hs⟩ := Space.shows_after hlog
  refine ⟨s, hok, fun m va hm hlive hva => ?_, fun m va x hm hx => ?_, fun m hm hlive => ?_,
    fun call hu => ?_⟩
  · rw [pmapFindPhys_eq hs.inv hlive hva, ← hs.abstracts.space m _ hm, Mapping.ofPte]
    split_ifs <;> rfl
  · rw [← hs.abstracts.space m va hm, Mapping.ofPte] at hx
    split_ifs at hx
    obtain rfl := Option.some.inj hx
    simp
  · have hcount := hs.counted m hm hlive
    rw [View.excess, hs.abstracts.residents_eq hm] at hcount
    exact Int.sub_eq_zero.1 hcount
  · obtain ⟨s', hok', -, hframe⟩ := hs.refines hu
    exact ⟨s', hok', hframe⟩

end

instance (c : Machine) (s : State) : ∀ call, Decidable (UserCall c s call)
  | .create _ _ | .enter _ _ _ _ _ _ | .remove _ _ _ | .protect _ _ _ _ => inferInstanceAs (Decidable (_ ∧ _))
  | .pageProtect pn _ => inferInstanceAs (Decidable (c.Managed pn))
  | .mappingAdjust | .mappingFreePrime => isTrue trivial
  | .disconnect _ | .changeWiring _ _ _ _ | .setCacheAttributes _ _ | .setModify _ | .clearModify _ | .setReference _
  | .clearReference _ | .clearRefmod _ _ => isFalse id

instance (c : Machine) (log : List Call) : Decidable (UserRun c log) := Meets.decidable _ _ _ _

/-- A page that is entered is found at all addresses of the page. -/
theorem space_run_flat : UserRun flat [.create 2 5, .enter 2 0x3000 7 vmProtAll false 6] ∧
    ∃ s, run flat [.create 2 5, .enter 2 0x3000 7 vmProtAll false 6] = .ok s ∧ pmapFindPhys flat 2 0x3abc s = .ok 7 := by
  have hlog : UserRun flat [.create 2 5, .enter 2 0x3000 7 vmProtAll false 6] := by decide +kernel
  have hlive : ∀ s, run flat [.create 2 5, .enter 2 0x3000 7 vmProtAll false 6] = .ok s →
      s.tables.Live 2 := by
    decide +kernel
  obtain ⟨s, hok, hfind, -⟩ := space_run hlog
  exact ⟨hlog, s, hok, hfind 2 0x3abc (by decide) (hlive s hok) (by decide)⟩

/-- `pmap_page_protect` for `VM_PROT_READ` leaves the permission to execute. -/
theorem executable_after_pageProtect : ¬ ∀ (log : List Call) (p : Ppn) (prot : Prot) (s : State),
    UserRun flat (log ++ [.pageProtect p prot]) → run flat (log ++ [.pageProtect p prot]) = .ok s →
    ∀ m va, m ≠ flat.kernelPmap → pmapFindPhys flat m va s = .ok p →
      (Executable ((s.view flat).entry m va) ↔ prot &&& vmProtExecute ≠ 0) := by
  intro h
  have hlog : UserRun flat ([.create 2 5, .enter 2 0x3000 7 vmProtAll false 6] ++
      [.pageProtect 7 vmProtRead]) := by
    decide +kernel
  have hend : ∀ s, run flat ([.create 2 5, .enter 2 0x3000 7 vmProtAll false 6] ++
      [.pageProtect 7 vmProtRead]) = .ok s →
      pmapFindPhys flat 2 0x3000 s = .ok 7 ∧ Executable ((s.view flat).entry 2 0x3000) := by
        decide +kernel
  obtain ⟨s, hok, -⟩ := Space.shows_after hlog
  obtain ⟨hfind, hexec⟩ := hend s hok
  exact (h _ 7 vmProtRead s hlog hok 2 0x3000 (by decide) hfind).1 hexec (by decide)

end PocketDarwin.Pmap
