/-
  The effects of the calls of the pmap module, entry by entry and page by page.

  * `entry_enter`, `entry_remove`, `entry_protect`, `entry_pageProtect`,
    `entry_setCacheAttributes`: what becomes of an entry.
  * `Effect.excess`: mappings of managed pages are counted, one by one.
  * `Effect.flags`: the attributes of a page that no call changes but those for it.
-/
import Mathlib.Data.List.Nodup
import PocketDarwin.Pmap.Calls

namespace PocketDarwin.Pmap

namespace View

section
variable {c : Machine} {v v' : View} {m m' va va' sva eva : ℕ} {p pa grab : Ppn} {prot : Prot} {wired : Bool}
  {l : List (ℕ × ℕ)}

/-! ## Entries -/

/-- A call that goes through distinct addresses, with `g` at each of them. -/
theorem entry_foldl {α : Type} {f : View → α → View} {key : α → ℕ × ℕ} {g : ℕ → Word → Word}
    (hf : ∀ v x m va, (f v x).entry m va = if (m, va) = key x then g m (v.entry m va) else v.entry m va) {l : List α}
    (hl : (l.map key).Nodup) : (l.foldl f v).entry m va =
      if (m, va) ∈ l.map key then g m (v.entry m va) else v.entry m va := by
  induction l generalizing v with
  | nil => rfl
  | cons x l ih =>
    obtain ⟨hx, hl⟩ := List.nodup_cons.1 hl
    rw [List.foldl_cons, ih hl, hf, List.map_cons]
    by_cases hkey : (m, va) = key x
    · have hnot : (m, va) ∉ l.map key := fun hmem => hx (hkey ▸ hmem)
      rw [if_neg hnot, if_pos hkey, if_pos (hkey ▸ List.mem_cons_self)]
    · simp [hkey]

theorem nodup_pages : (pages sva eva).Nodup := by
  have : ∀ n va, (pagesFrom n va).Nodup := by
    intro n
    induction n with
    | zero => exact fun _ => .nil
    | succ n ih =>
      intro va
      refine List.nodup_cons.2 ⟨fun hmem => ?_, ih _⟩
      obtain ⟨j, -, hj⟩ := mem_pagesFrom.1 hmem
      omega
  exact this _ _

theorem map_pages_nodup (m : ℕ) : ((pages sva eva).map fun va => (m, va)).Nodup :=
  nodup_pages.map fun _ _ heq => (Prod.mk.inj heq).2

theorem mem_map_pages : (m', va) ∈ (pages sva eva).map (fun va => (m, va)) ↔ m' = m ∧ va ∈ pages sva eva := by
  simp [eq_comm, and_comm]

/-- `pmap_remove` -/
theorem entry_remove : (v.remove c m sva eva).entry m' va =
    if (m' = m ∧ va ∈ pages sva eva) ∧ c.Managed (paIndex (v.entry m' va)) then 0 else v.entry m' va := by
  have hone : ∀ v x m' va, (removeAt c m v x).entry m' va =
      if (m', va) = (m, x) then (if c.Managed (paIndex (v.entry m' va)) then 0 else v.entry m' va)
        else v.entry m' va := by
    intro v x m' va
    by_cases heq : (m', va) = (m, x)
    · obtain ⟨rfl, rfl⟩ := Prod.mk.inj heq
      by_cases hp : c.Managed (paIndex (v.entry m' va))
      · rw [entry_removeAt hp, entry_set, if_pos ⟨rfl, rfl⟩, if_pos rfl, if_pos hp]
      · rw [removeAt_of_not_managed hp, if_pos rfl, if_neg hp]
    · rw [if_neg heq]
      by_cases hp : c.Managed (paIndex (v.entry m x))
      · rw [entry_removeAt hp, entry_set, if_neg fun hand => heq (by rw [hand.1, hand.2])]
      · rw [removeAt_of_not_managed hp]
  rw [remove, entry_foldl (g := fun _ w => if c.Managed (paIndex w) then 0 else w) hone
    (map_pages_nodup m)]
  simp only [mem_map_pages, ite_and]

/-- `pmap_protect` -/
theorem entry_protect : (v.protect m sva eva prot).entry m' va =
    if (m' = m ∧ va ∈ pages sva eva) ∧ Valid (v.entry m' va) then protectPte prot (v.entry m' va) else v.entry m' va := by
  have hone : ∀ v x m' va, (protectAt m prot v x).entry m' va =
      if (m', va) = (m, x) then (if Valid (v.entry m' va) then protectPte prot (v.entry m' va)
        else v.entry m' va)
      else v.entry m' va := by
    intro v x m' va
    rw [protectAt]
    by_cases heq : (m', va) = (m, x)
    · obtain ⟨rfl, rfl⟩ := Prod.mk.inj heq
      rw [if_pos rfl]
      split_ifs
      · rw [entry_set, if_pos ⟨rfl, rfl⟩]
      · rfl
    · rw [if_neg heq]
      split_ifs
      · rw [entry_set, if_neg fun hand => heq (by rw [hand.1, hand.2])]
      · rfl
  rw [protect, entry_foldl (g := fun _ w => if Valid w then protectPte prot w else w) hone
    (map_pages_nodup m)]
  simp only [mem_map_pages, ite_and]

theorem entry_pageProtectAt_eq {remove : Bool} {x : ℕ × ℕ} : (pageProtectAt c p remove v x).entry m va =
    if (m, va) = x then (if remove ∨ m = c.kernelPmap then 0 else v.entry m va ||| l2AccessApx) else v.entry m va := by
  obtain ⟨m', va'⟩ := x
  simp only [pageProtectAt]
  by_cases heq : (m, va) = (m', va')
  · obtain ⟨rfl, rfl⟩ := Prod.mk.inj heq
    rw [if_pos rfl]
    split_ifs <;> simp
  · have hne : ¬ (m = m' ∧ va = va') := fun hand => heq (by rw [hand.1, hand.2])
    rw [if_neg heq]
    split_ifs <;> simp [hne]

/-- `pmap_page_protect` -/
theorem entry_pageProtect (hl : l.Nodup) : (v.pageProtect c p prot l).entry m va =
    if (m, va) ∈ l then (if removes prot ∨ m = c.kernelPmap then 0 else v.entry m va ||| l2AccessApx) else v.entry m va := by
  have hone : ∀ v x m va, (pageProtectAt c p (removes prot) v x).entry m va = _ :=
    fun _ _ _ _ => entry_pageProtectAt_eq
  have hid : (l.map fun x => x).Nodup := by simpa using hl
  rw [pageProtect, entry_foldl (g := fun m w => if removes prot ∨
    m = c.kernelPmap then 0 else w ||| l2AccessApx) hone hid,
    List.map_id']

/-- `pmap_set_cache_attributes` -/
theorem entry_setCacheAttributes {cacheattr : BitVec 32} (hl : l.Nodup) :
    (v.setCacheAttributes p cacheattr l).entry m va =
      if (m, va) ∈ l then setCacheability (cacheTemplate cacheattr) (v.entry m va) else v.entry m va := by
  have hone : ∀ v x m va, (cacheAt (cacheTemplate cacheattr) v x).entry m va =
      if (m, va) = x then setCacheability (cacheTemplate cacheattr) (v.entry m va)
        else v.entry m va := by
    rintro v ⟨m', va'⟩ m va
    rw [cacheAt, entry_set]
    by_cases heq : (m, va) = (m', va')
    · obtain ⟨rfl, rfl⟩ := Prod.mk.inj heq
      rw [if_pos ⟨rfl, rfl⟩, if_pos rfl]
    · rw [if_neg fun hand => heq (by rw [hand.1, hand.2]), if_neg heq]
  have hid : (l.map fun x => x).Nodup := by simpa using hl
  rw [setCacheAttributes, entry_mark,
    entry_foldl (g := fun _ w => setCacheability (cacheTemplate cacheattr) w) hone hid,
    List.map_id']

/-! ## Attributes -/

/-- The attributes in `mask` are the same. -/
def Keeps (mask : BitVec 32) (v v' : View) : Prop := ∀ p, v'.flags p &&& mask = v.flags p &&& mask

section
variable {mask bits : BitVec 32} {v₁ v₂ : View}

theorem Keeps.refl (v : View) : v.Keeps mask v := fun _ => rfl

theorem Keeps.trans (h : v.Keeps mask v₁) (h' : v₁.Keeps mask v₂) : v.Keeps mask v₂ := fun p => (h' p).trans (h p)

theorem Keeps.of_flags (h : v'.flags = v.flags) : v.Keeps mask v' := fun p => by rw [h]

theorem Keeps.mark {f : BitVec 32 → BitVec 32} (h : ∀ x, f x &&& mask = x &&& mask) : v.Keeps mask (v.mark p f) := by
  intro p'
  simp only [View.mark, Function.update_apply]
  split_ifs with heq
  · rw [h, heq]
  · rfl

theorem Keeps.mark_or (h : bits &&& mask = 0) : v.Keeps mask (v.mark p (· ||| bits)) :=
  .mark fun _ => or_and_of_disjoint h

theorem Keeps.mark_and (h : bits &&& mask = 0) : v.Keeps mask (v.mark p (· &&& ~~~bits)) := by
  have hnot : ~~~bits &&& mask = mask := by
    ext i hi
    have hbit : (bits &&& mask)[i] = false := by simp [h]
    rw [BitVec.getElem_and] at hbit
    rw [BitVec.getElem_and, BitVec.getElem_not]
    cases hb : bits[i] <;> simp_all
  exact .mark fun _ => by rw [BitVec.and_assoc, hnot]

end

/-- The memory type of new mappings of a page is told by one attribute. -/
theorem template_eq (h : v.Keeps typeNocache v') : v'.template c m va pa prot = v.template c m va pa prot := by
  rw [template, template, cacheAttributes, cacheAttributes, h pa]

theorem keeps_beforeRetry {mask : BitVec 32} (h : typeWired &&& mask = 0) : v.Keeps mask (v.beforeRetry m va pa) := by
  simp only [beforeRetry, unmapOld]
  split_ifs
  · exact .mark_and h
  · exact .refl _
  · exact .refl _

theorem entry_beforeRetry (h : ¬ (m' = m ∧ va' = va)) : (v.beforeRetry m va pa).entry m' va' = v.entry m' va' := by
  rw [beforeRetry]
  split_ifs
  · rw [entry_unmapOld, entry_set, if_neg h]
  · rfl

/-- The state in which the new mapping is counted and its entry written. -/
def beforeEnter (c : Machine) (m va : ℕ) (pa : Ppn) (wired first : Bool) (v : View) : View :=
  if c.Managed pa then
    if wired && first then (v.beforeRetry m va pa).mark pa (· ||| typeWired) else v.beforeRetry m va pa
  else if paIndex (v.entry m va) ≠ 0 then v.set m va 0 else v

theorem enterOther_eq (first : Bool) :
    v.enterOther c m va pa prot wired first = (v.beforeEnter c m va pa wired first).enterPte c m va pa prot wired := by
  by_cases hpa : c.Managed pa
  · rw [enterOther_of_managed first hpa, beforeEnter, if_pos hpa]
  · rw [enterOther, if_pos hpa, beforeEnter, if_neg hpa]

theorem keeps_beforeEnter {first : Bool} {mask : BitVec 32} (h : typeWired &&& mask = 0) :
    v.Keeps mask (v.beforeEnter c m va pa wired first) := by
  rw [beforeEnter]
  split_ifs
  · exact (keeps_beforeRetry h).trans (.mark_or h)
  · exact keeps_beforeRetry h
  · exact .refl _
  · exact .refl _

theorem entry_beforeEnter {first : Bool} (h : ¬ (m' = m ∧ va' = va)) :
    (v.beforeEnter c m va pa wired first).entry m' va' = v.entry m' va' := by
  rw [beforeEnter]
  split_ifs
  · exact entry_beforeRetry h
  · exact entry_beforeRetry h
  · rw [entry_set, if_neg h]
  · rfl

theorem keeps_enterSame {mask : BitVec 32} (h : typeWired &&& mask = 0) :
    v.Keeps mask (v.enterSame c m va pa prot wired) := by
  simp only [enterSame]
  split_ifs
  · exact .mark_or h
  · exact .refl _
  · exact .refl _

theorem flags_enterPte : (v.enterPte c m va pa prot wired).flags = v.flags := by cases wired <;> rfl

/-- With the page for the tables marked, `pmap_enter` writes one entry. -/
theorem exists_enter (v : View) (c : Machine) (m va : ℕ) (pa : Ppn) (prot : Prot) (wired : Bool) (grab : Ppn)
    (grown first : Bool) : ∃ v₁ : View, v₁.entry = v.entry ∧ v₁.stats = v.stats ∧
    (∀ mask, typeNoencrypt &&& mask = 0 → v.Keeps mask v₁) ∧ v.enter c m va pa prot wired grab grown first =
      if paIndex (v.entry m va) = pa then v₁.enterSame c m va pa prot wired
      else (v₁.beforeEnter c m va pa wired first).enterPte c m va pa prot wired := by
  cases grown with
  | false =>
    refine ⟨v, rfl, rfl, fun _ _ => .refl _, ?_⟩
    simp only [enter, enterOther_eq]
    rfl
  | true =>
    refine ⟨v.mark grab (· ||| typeNoencrypt), rfl, rfl, fun _ h => .mark_or h, ?_⟩
    simp only [enter, enterOther_eq]
    rfl

/-- `pmap_enter` leaves all attributes but two. -/
theorem keeps_enter {grown first : Bool} {mask : BitVec 32} (h : typeWired &&& mask = 0) (h' : typeNoencrypt &&& mask = 0) :
    v.Keeps mask (v.enter c m va pa prot wired grab grown first) := by
  obtain ⟨v₁, -, -, hkeeps, heq⟩ := v.exists_enter c m va pa prot wired grab grown first
  rw [heq]
  refine (hkeeps mask h').trans ?_
  split_ifs
  · exact keeps_enterSame h
  · exact (keeps_beforeEnter h).trans (.of_flags flags_enterPte)

theorem entry_enterSame : (v.enterSame c m va pa prot wired).entry m' va' =
    if m' = m ∧ va' = va then v.template c m va pa prot else v.entry m' va' := by
  simp only [enterSame]
  split_ifs <;> simp [*]

theorem entry_enterPte_eq : (v.enterPte c m va pa prot wired).entry m' va' =
    if m' = m ∧ va' = va then v.template c m va pa prot else v.entry m' va' := by
  cases wired <;> rfl

/-- `pmap_enter` -/
theorem entry_enter {grown first : Bool} : (v.enter c m va pa prot wired grab grown first).entry m' va' =
    if m' = m ∧ va' = va then v.template c m va pa prot else v.entry m' va' := by
  obtain ⟨v₁, hentry, -, hkeeps, heq⟩ := v.exists_enter c m va pa prot wired grab grown first
  have hnocache := hkeeps typeNocache (by decide)
  rw [heq]
  by_cases hsame : paIndex (v.entry m va) = pa
  · rw [if_pos hsame, entry_enterSame, template_eq hnocache, hentry]
  · rw [if_neg hsame, entry_enterPte_eq, template_eq (hnocache.trans (keeps_beforeEnter (by decide)))]
    split_ifs with hand
    · rfl
    · rw [entry_beforeEnter hand, hentry]

theorem entry_changeWiring : (v.changeWiring m va wired).entry = v.entry := by
  simp only [changeWiring]
  split_ifs <;> rfl

/-- An entry that a call changes without the mapping and the memory type. -/
def Touched (v v' : View) (m va : ℕ) : Prop :=
  v.entry m va ≠ 0 ∧ paIndex (v'.entry m va) = paIndex (v.entry m va) ∧ (Valid (v'.entry m va) ↔ Valid (v.entry m va)) ∧
    memoryType (v'.entry m va) = memoryType (v.entry m va)

/-- An entry that a call writes as it is told to. -/
def Written (c : Machine) (v : View) (call : Call) (v' : View) (m va : ℕ) : Prop :=
  (∃ pa prot wired grab, call = .enter m va pa prot wired grab ∧ v'.entry m va = v.template c m va pa prot) ∨
  ∃ p cacheattr, call = .setCacheAttributes p cacheattr ∧ v.Mapped c p m va ∧
    v'.entry m va = setCacheability (cacheTemplate cacheattr) (v.entry m va)

/-- **Entries.**  A call leaves an entry, clears it or changes permissions, unless it is for this entry. -/
theorem Effect.entry {call : Call} (h : v.Effect c call v') (m va : ℕ) :
    v'.entry m va = v.entry m va ∨ v'.entry m va = 0 ∨ v.Touched v' m va ∨ v.Written c call v' m va := by
  have hremove : ∀ m' sva eva, v' = v.remove c m' sva eva → v'.entry m va = v.entry m va ∨
      v'.entry m va = 0 := by
    rintro m' sva eva rfl
    rw [entry_remove]
    split_ifs
    · exact .inr rfl
    · exact .inl rfl
  have hprotect : ∀ p prot l, v.MappingsOf c p l → v' = v.pageProtect c p prot l →
      v'.entry m va = v.entry m va ∨ v'.entry m va = 0 ∨ v.Touched v' m va := by
    rintro p prot l hl rfl
    rw [Touched, entry_pageProtect hl.1]
    split_ifs with hmem
    · exact .inr (.inl rfl)
    · have hne := ((hl.2 m va).1 hmem).entry_ne_zero
      exact .inr (.inr ⟨hne, paIndex_writeProtect, valid_writeProtect, memoryType_writeProtect⟩)
    · exact .inl rfl
  cases call with
  | create m' grab =>
    obtain rfl := h
    exact .inl rfl
  | enter m' va' pa prot wired grab =>
    rw [Effect] at h
    split_ifs at h
    · exact .inl (h ▸ rfl)
    · obtain ⟨grown, first, -, rfl⟩ := h
      rw [Written, entry_enter]
      split_ifs with hand
      · obtain ⟨rfl, rfl⟩ := hand
        exact .inr (.inr (.inr (.inl ⟨pa, prot, wired, grab, rfl, rfl⟩)))
      · exact .inl rfl
  | remove m' sva eva => exact (hremove m' sva eva h).imp_right .inl
  | protect m' sva eva prot =>
    rw [Effect] at h
    split_ifs at h
    · exact (hremove m' sva eva h).imp_right .inl
    · obtain rfl := h
      rw [Touched, entry_protect]
      split_ifs with hin
      · have hne : v.entry m va ≠ 0 := fun hzero => absurd (hzero ▸ hin.2) (by decide)
        exact .inr (.inr (.inl ⟨hne, paIndex_protectPte, valid_protectPte, memoryType_protectPte⟩))
      · exact .inl rfl
  | pageProtect pn prot =>
    rw [Effect] at h
    split_ifs at h
    · obtain ⟨l, hl, hv⟩ := h
      exact (hprotect pn prot l hl hv).imp_right (Or.imp_right .inl)
    · exact .inl (h ▸ rfl)
  | disconnect pa =>
    obtain ⟨l, hl, hv⟩ := h
    exact (hprotect pa 0 l hl hv).imp_right (Or.imp_right .inl)
  | changeWiring current m' va' wired =>
    obtain rfl := h
    rw [entry_changeWiring]
    exact .inl rfl
  | setCacheAttributes pn cacheattr =>
    obtain ⟨l, hl, rfl⟩ := h
    rw [Written, entry_setCacheAttributes hl.1]
    split_ifs with hmem
    · exact .inr (.inr (.inr (.inr ⟨pn, cacheattr, rfl, (hl.2 m va).1 hmem, rfl⟩)))
    · exact .inl rfl
  | _ => exact .inl (h ▸ rfl)

/-- What has been entered is valid. -/
def Sound (c : Machine) (v : View) : Prop := ∀ m va, ¬ c.Boot m va → v.entry m va ≠ 0 → Valid (v.entry m va)

theorem valid_template : Valid (v.template c m va pa prot) := valid_templatePte (v.isMemoryType_cacheAttributes c pa)

theorem Sound.effect {call : Call} (h : v.Sound c) (heffect : v.Effect c call v') : v'.Sound c := by
  intro m va hboot hne
  rcases heffect.entry m va with heq | hzero | ⟨hold, -, hvalid, -⟩ | ⟨pa, prot, wired, grab, -,
    hwritten⟩ |
    ⟨p, cacheattr, -, hmapped, hwritten⟩
  · rw [heq] at hne ⊢
    exact h m va hboot hne
  · exact absurd hzero hne
  · exact hvalid.2 (h m va hboot hold)
  · rw [hwritten]
    exact valid_template
  · rw [hwritten, valid_setCacheability (isMemoryType_cacheTemplate cacheattr)]
    exact h m va hboot hmapped.entry_ne_zero

theorem sound_boot (c : Machine) : ((boot c).view c).Sound c := fun _ _ hboot hne => absurd hne hboot

/-! ## Counts -/

@[simp] theorem excess_mark (f : BitVec 32 → BitVec 32) : (v.mark p f).excess c m = v.excess c m := excess_of_entry rfl rfl

theorem excess_enterSame (heq : paIndex (v.entry m va) = pa) :
    (v.enterSame c m va pa prot wired).excess c m' = v.excess c m' := by
  refine excess_congr (residentCount_enterSame m') fun va' => ?_
  rw [Resident, Resident, entry_enterSame]
  split_ifs with hand
  · rw [paIndex_template, hand.1, hand.2, heq]
  · rfl

/-- A managed page is entered: one mapping more is counted. -/
theorem excess_enter {grown first : Bool} (hva : Aligned va) (hboot : ¬ c.Boot m va) (hpa : c.Managed pa)
    (hkind : paIndex (v.entry m va) = 0 ∨ c.Managed (paIndex (v.entry m va))) :
    (v.enter c m va pa prot wired grab grown first).excess c m' = v.excess c m' := by
  obtain ⟨v₁, hentry, hstats, -, heq⟩ := v.exists_enter c m va pa prot wired grab grown first
  have hstart : v₁.excess c m' = v.excess c m' := excess_of_entry hentry (by rw [hstats])
  rw [heq, ← hstart]
  by_cases hsame : paIndex (v.entry m va) = pa
  · rw [if_pos hsame]
    exact excess_enterSame (by rw [hentry, hsame])
  · -- the old mapping is not counted any more, the new one is
    have hbefore : (v₁.beforeEnter c m va pa wired first).excess c m' = v₁.excess c m' := by
      have hretry : (v₁.beforeRetry m va pa).excess c m' = v₁.excess c m' := by
        rw [beforeRetry, hentry]
        split_ifs with hold
        · refine excess_of_removed hva ?_ entry_unmapOld residentCount_unmapOld m'
          rw [Resident, hentry]
          exact ⟨hkind.resolve_left hold, hboot⟩
        · rfl
      rw [beforeEnter, if_pos hpa]
      split_ifs
      · rw [excess_mark, hretry]
      · exact hretry
    have hclear : ¬ (v₁.beforeEnter c m va pa wired first).Resident c m va := by
      have hzero : paIndex ((v₁.beforeEnter c m va pa wired first).entry m va) = 0 := by
        rw [beforeEnter, if_pos hpa]
        split_ifs
        · exact paIndex_beforeRetry
        · exact paIndex_beforeRetry
      rintro ⟨hp, -⟩
      exact hp.ne_zero hzero
    rw [if_neg hsame, excess_enterPte hva hclear hboot hpa, hbefore]

/-- Removing a range: what is removed is not counted any more. -/
theorem excess_remove (h : ∀ va ∈ pages sva eva, Aligned va ∧ ¬ c.Boot m va) :
    (v.remove c m sva eva).excess c m' = v.excess c m' := by
  rw [remove]
  generalize pages sva eva = l at h
  induction l generalizing v with
  | nil => rfl
  | cons va l ih =>
    obtain ⟨hva, hboot⟩ := h va List.mem_cons_self
    rw [List.foldl_cons, ih fun va' hmem => h va' (List.mem_cons_of_mem va hmem),
      excess_removeAt hva hboot]

theorem excess_protect : (v.protect m sva eva prot).excess c m' = v.excess c m' := by
  obtain ⟨-, hstats, hentry⟩ := v.foldl_protectAt m prot (pages sva eva)
  refine excess_congr ?_ fun va => ?_
  · rw [protect, hstats]
  · rw [Resident, Resident, protect, hentry]

/-- Protecting a page: what is removed is not counted any more. -/
theorem excess_pageProtect (hl : v.MappingsOf c p l) (hva : ∀ x ∈ l, Aligned x.2) :
    (v.pageProtect c p prot l).excess c m' = v.excess c m' := by
  obtain ⟨hnodup, hmem⟩ := hl
  have hmapped : ∀ x ∈ l, v.Mapped c p x.1 x.2 := fun x hx => (hmem x.1 x.2).1 hx
  rw [pageProtect]
  clear hmem
  induction l generalizing v with
  | nil => rfl
  | cons x l ih =>
    obtain ⟨hx, hnodup⟩ := List.nodup_cons.1 hnodup
    have hfirst := hmapped x List.mem_cons_self
    have hnext : ∀ y ∈ l, (v.pageProtectAt c p (removes prot) x).Mapped c p y.1 y.2 := by
      intro y hy
      have hne : (y.1, y.2) ≠ x := fun heq => hx (heq ▸ hy)
      rw [Mapped, entry_pageProtectAt_eq, if_neg hne]
      exact hmapped y (List.mem_cons_of_mem x hy)
    rw [List.foldl_cons, ih (fun y hy => hva y (List.mem_cons_of_mem x hy)) hnodup hnext]
    by_cases hremove : removes prot = true ∨ x.1 = c.kernelPmap
    · exact excess_pageProtectAt hremove (hva x List.mem_cons_self) hfirst.resident m'
    · refine excess_congr ?_ fun va => ?_
      · rw [pageProtectAt, if_neg hremove]
        rfl
      · rw [Resident, Resident, entry_pageProtectAt_eq]
        split_ifs with heq hrem
        · obtain rfl : m' = x.1 := congrArg Prod.fst heq
          exact absurd hrem hremove
        · rw [paIndex_writeProtect]
        · rfl

/-! ## Pages that are not wired -/

/-- No page is marked as wired. -/
def Unwired (v : View) : Prop := ∀ p, v.flags p &&& typeWired = 0

/-- No page gets wired, and no wired page is counted. -/
structure StaysUnwired (v v' : View) : Prop where
  unwired : v'.Unwired
  wiredCount : ∀ m, (v'.stats m).wiredCount = (v.stats m).wiredCount

theorem Unwired.of_keeps (h : v.Unwired) (hkeeps : v.Keeps typeWired v') : v'.Unwired := fun p => (hkeeps p).trans (h p)

theorem Unwired.stays (h : v.Unwired) (hkeeps : v.Keeps typeWired v')
    (hcount : ∀ m, (v'.stats m).wiredCount = (v.stats m).wiredCount) : v.StaysUnwired v' :=
  ⟨h.of_keeps hkeeps, hcount⟩

theorem StaysUnwired.trans {v₁ v₂ : View} (h : v.StaysUnwired v₁) (h' : v₁.StaysUnwired v₂) : v.StaysUnwired v₂ :=
  ⟨h'.unwired, fun m => (h'.wiredCount m).trans (h.wiredCount m)⟩

/-- The counts of wired pages are not changed. -/
theorem wiredCount_count {f : Stats → Stats} (hf : ∀ x, (f x).wiredCount = x.wiredCount) :
    ((v.count m f).stats m').wiredCount = (v.stats m').wiredCount := by
  simp only [count, Function.update_apply]
  split_ifs with heq
  · rw [hf, heq]
  · rfl

/-- A page is entered, not to be wired. -/
theorem Unwired.enter {grown first : Bool} (h : v.Unwired) :
    v.StaysUnwired (v.enter c m va pa prot false grab grown first) := by
  obtain ⟨v₁, -, hstats, hkeeps, heq⟩ := v.exists_enter c m va pa prot false grab grown first
  have h₁ : v.StaysUnwired v₁ := h.stays (hkeeps typeWired (by decide)) fun m => by rw [hstats]
  have hpte : ∀ v₂ : View, v₂.Unwired → v₂.StaysUnwired (v₂.enterPte c m va pa prot false) := by
    intro v₂ h₂
    refine h₂.stays (.of_flags flags_enterPte) fun m' => ?_
    simp only [enterPte, stats_set, Bool.false_eq_true, if_false]
    exact wiredCount_count fun _ => rfl
  have hretry : v₁.StaysUnwired (v₁.beforeRetry m va pa) := by
    rw [beforeRetry]
    split_ifs
    · have hnot : ¬ (v₁.flags pa &&& typeWired ≠ 0) := not_not.2 (h₁.unwired pa)
      have hunmap : (v₁.set m va 0).unmapOld m pa = _ := if_neg hnot
      rw [hunmap]
      exact h₁.unwired.stays (.refl _) fun m' => wiredCount_count fun _ => rfl
    · exact h₁.unwired.stays (.refl _) fun _ => rfl
  have hbefore : v₁.StaysUnwired (v₁.beforeEnter c m va pa false first) := by
    rw [beforeEnter]
    split_ifs with hpa hwired
    · simp at hwired
    · exact hretry
    · exact h₁.unwired.stays (.refl _) fun _ => rfl
    · exact h₁.unwired.stays (.refl _) fun _ => rfl
  rw [heq]
  refine h₁.trans ?_
  split_ifs
  · exact h₁.unwired.stays (.refl _) fun _ => rfl
  · exact hbefore.trans (hpte _ hbefore.unwired)

theorem Unwired.remove (h : v.Unwired) : v.StaysUnwired (v.remove c m sva eva) := by
  rw [View.remove]
  generalize pages sva eva = l
  induction l generalizing v with
  | nil => exact h.stays (.refl _) fun _ => rfl
  | cons va l ih =>
    have hone : v.StaysUnwired (v.removeAt c m va) := by
      simp only [removeAt]
      split_ifs with hp hwired
      · exact absurd (h _) hwired
      · exact h.stays (.refl _) fun m' => wiredCount_count fun x => by simp [charge]
      · exact h.stays (.refl _) fun _ => rfl
    exact hone.trans (ih hone.unwired)

theorem Unwired.protect (h : v.Unwired) : v.StaysUnwired (v.protect m sva eva prot) := by
  obtain ⟨hflags, hstats, -⟩ := v.foldl_protectAt m prot (pages sva eva)
  refine h.stays (.of_flags hflags) fun m' => ?_
  rw [View.protect, hstats]

/-- `pmap_page_protect` leaves all attributes but two. -/
theorem keeps_pageProtect {mask : BitVec 32} (h : (typeReferenced ||| typeModified) &&& mask = 0) :
    v.Keeps mask (v.pageProtect c p prot l) := by
  rw [pageProtect]
  induction l generalizing v with
  | nil => exact .refl _
  | cons x l ih =>
    refine .trans ?_ ih
    rw [pageProtectAt]
    split_ifs
    · exact (Keeps.refl _).trans (.mark_and h)
    · exact .refl _

/-- Only the page that is protected loses attributes, and only if a mapping is removed. -/
theorem flags_pageProtect : (v.pageProtect c p prot l).flags =
    if ∃ x ∈ l, removes prot ∨ x.1 = c.kernelPmap then
      Function.update v.flags p (v.flags p &&& ~~~(typeReferenced ||| typeModified)) else v.flags := by
  rw [pageProtect]
  induction l generalizing v with
  | nil => simp
  | cons x l ih =>
    rw [List.foldl_cons, ih, pageProtectAt]
    by_cases hx : removes prot = true ∨ x.1 = c.kernelPmap
    · rw [if_pos hx, if_pos (show ∃ y ∈ x :: l, removes prot = true ∨
        y.1 = c.kernelPmap from ⟨x, List.mem_cons_self, hx⟩)]
      split_ifs
      · simp [count, mark, set, BitVec.and_assoc]
      · rfl
    · rw [if_neg hx]
      simp only [List.exists_mem_cons_iff, hx, false_or, flags_set]

theorem keeps_remove {mask : BitVec 32} (h : typeWired &&& mask = 0) : v.Keeps mask (v.remove c m sva eva) := by
  rw [remove]
  generalize pages sva eva = l
  induction l generalizing v with
  | nil => exact .refl _
  | cons va l ih =>
    refine .trans ?_ ih
    simp only [removeAt]
    split_ifs
    · exact (Keeps.mark_and h).trans (.refl _)
    · exact .refl _
    · exact .refl _

theorem keeps_protect {mask : BitVec 32} : v.Keeps mask (v.protect m sva eva prot) :=
  .of_flags (v.foldl_protectAt m prot (pages sva eva)).1

theorem keeps_changeWiring {mask : BitVec 32} (h : typeWired &&& mask = 0) : v.Keeps mask (v.changeWiring m va wired) := by
  simp only [changeWiring]
  split_ifs
  · exact (Keeps.refl _).trans (.mark_or h)
  · exact (Keeps.refl _).trans (.mark_and h)

theorem keeps_setCacheAttributes {mask cacheattr : BitVec 32} (h : typeNocache &&& mask = 0) :
    v.Keeps mask (v.setCacheAttributes p cacheattr l) := by
  have hfold : v.Keeps mask (l.foldl (cacheAt (cacheTemplate cacheattr)) v) := by
    induction l generalizing v with
    | nil => exact .refl _
    | cons x l ih => exact (Keeps.refl _).trans ih
  rw [setCacheAttributes]
  refine hfold.trans ?_
  split_ifs
  · exact .mark_or h
  · exact .mark_and h

theorem wiredCount_pageProtect : ((v.pageProtect c p prot l).stats m).wiredCount = (v.stats m).wiredCount := by
  rw [pageProtect]
  induction l generalizing v with
  | nil => rfl
  | cons x l ih =>
    rw [List.foldl_cons, ih, pageProtectAt]
    split_ifs
    · exact wiredCount_count fun _ => rfl
    · rfl

theorem Unwired.pageProtect (h : v.Unwired) : v.StaysUnwired (v.pageProtect c p prot l) :=
  h.stays (keeps_pageProtect (by decide)) fun _ => wiredCount_pageProtect

end

end View

/-- The attributes that a call is about. -/
def Call.marks : Call → BitVec 32
  | .create _ _ => typeNoencrypt
  | .enter _ _ _ _ _ _ => typeWired ||| typeNoencrypt
  | .remove _ _ _ | .protect _ _ _ _ | .changeWiring _ _ _ _ => typeWired
  | .pageProtect _ _ | .disconnect _ => typeReferenced ||| typeModified
  | .setCacheAttributes _ _ => typeNocache
  | .setModify _ | .clearModify _ => typeModified
  | .setReference _ | .clearReference _ => typeReferenced
  | .clearRefmod _ mask => mask
  | .mappingAdjust | .mappingFreePrime => 0

/-- **Attributes.**  A call leaves those that it is not about. -/
theorem View.Effect.keeps {c : Machine} {v v' : View} {call : Call} {mask : BitVec 32} (h : v.Effect c call v')
    (hmask : call.marks &&& mask = 0) : v.Keeps mask v' := by
  cases call with
  | create m grab =>
    obtain rfl := h
    exact .mark_or hmask
  | enter m va pa prot wired grab =>
    rw [Effect] at h
    split_ifs at h
    · exact h ▸ .refl _
    · obtain ⟨grown, first, -, rfl⟩ := h
      have hmask' : (typeWired ||| typeNoencrypt) &&& mask = 0 := hmask
      exact keeps_enter (and_eq_zero_of_disjoint (by decide) hmask')
        (and_eq_zero_of_disjoint (by decide) hmask')
  | remove m sva eva =>
    obtain rfl := h
    exact keeps_remove hmask
  | protect m sva eva prot =>
    rw [Effect] at h
    obtain rfl := h
    split_ifs
    · exact keeps_remove hmask
    · exact keeps_protect
  | pageProtect pn prot =>
    rw [Effect] at h
    split_ifs at h
    · obtain ⟨l, -, rfl⟩ := h
      exact keeps_pageProtect hmask
    · exact h ▸ .refl _
  | disconnect pa =>
    obtain ⟨l, -, rfl⟩ := h
    exact keeps_pageProtect hmask
  | changeWiring current m va wired =>
    obtain rfl := h
    exact keeps_changeWiring hmask
  | setCacheAttributes pn cacheattr =>
    obtain ⟨l, -, rfl⟩ := h
    exact keeps_setCacheAttributes hmask
  | setModify pn =>
    obtain rfl := h
    exact .mark_or hmask
  | clearModify pn =>
    obtain rfl := h
    exact .mark_and hmask
  | setReference pn =>
    obtain rfl := h
    exact .mark_or hmask
  | clearReference pn =>
    obtain rfl := h
    exact .mark_and hmask
  | clearRefmod pn mask' =>
    obtain rfl := h
    exact .mark_and hmask
  | mappingAdjust => exact h ▸ .refl _
  | mappingFreePrime => exact h ▸ .refl _

end PocketDarwin.Pmap
