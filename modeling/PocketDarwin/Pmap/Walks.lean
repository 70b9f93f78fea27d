/-
  `pmap_page_protect` and `pmap_set_cache_attributes`, which go through all mappings of a
  page.

  The walk starts at the rooted entry and follows the queue.  `pmap_page_protect` takes
  entries off the queue behind itself, and the rooted mapping too: there is no rooted one
  then until the end, when a queued entry takes its place.

  * `forQueue_spec`: the walk.
  * `pmapPageProtect_spec`: every mapping of the page is removed or write-protected.
  * `pmapSetCacheAttributes_spec`: every mapping of the page gets the memory type.
-/
import PocketDarwin.Pmap.Ranges

namespace PocketDarwin.Pmap

/-! ## The walk -/

section
variable {α : Type} (links : α → Links Ref) {body : Ref → α → Except Stop α} {pvH : Ref}

/-- **The walk.**  `P rest a`: the entries `rest` are still to be done; the one that is done next leads to the
    one behind it, or back. -/
theorem forQueue_spec {P : List Ref → α → Prop} (hrest : ∀ e rest a, P (e :: rest) a → pvH ∉ rest)
    (hlink : ∀ e rest a, P (e :: rest) a → (links a).next e = some (rest.head?.getD pvH))
    (hbody : ∀ e rest a, P (e :: rest) a → ∃ a', body e a = .ok a' ∧ P rest a') {fuel : ℕ} {e : Ref} {rest : List Ref}
    {a : α} (h : P (e :: rest) a) (hfuel : rest.length < fuel) :
    ∃ a', forQueue links body pvH fuel e a = .ok a' ∧ P [] a' := by
  induction rest generalizing fuel e a with
  | nil =>
    obtain ⟨fuel, rfl⟩ : ∃ k, fuel = k + 1 := ⟨fuel - 1, by simp at hfuel; omega⟩
    obtain ⟨a', hok, h'⟩ := hbody _ _ _ h
    refine ⟨a', ?_, h'⟩
    simp [forQueue, hlink _ _ _ h, hok, Bind.bind, Except.bind]
  | cons r rest ih =>
    obtain ⟨fuel, rfl⟩ : ∃ k, fuel = k + 1 := ⟨fuel - 1, by simp at hfuel; omega⟩
    obtain ⟨a', hok, h'⟩ := hbody _ _ _ h
    have hne : r ≠ pvH := fun heq => hrest _ _ _ h (heq ▸ List.mem_cons_self)
    obtain ⟨a₁, hwalk, h₁⟩ := ih h' (by simpa using hfuel)
    refine ⟨a₁, ?_, h₁⟩
    simp [forQueue, hlink _ _ _ h, hok, hne, hwalk, Bind.bind, Except.bind]

end

/-- A queue has no more entries than the zone gave out. -/
theorem Pv.Rep.length_queue_le {c : Machine} {pv : Pv} {b : Bunch} {L : Lists} (h : pv.Rep c b L) {p : Ppn}
    (hp : L.ringed p) : (L.queue p).length ≤ pv.zone :=
  h.length_le_of_queued (List.nodup_cons.1 (h.ring p hp).nodup).2 fun r hr => ⟨p, (h.mem_queue p r).1 hr⟩

/-! ## The lists during the walk -/

/-- The lists hold the mappings `names` while the entries `rest` of the page `p` are to be done: from the rooted
    one on, or from a queued one on.  Then the root may be free with entries queued to it. -/
def Pv.Walking (c : Machine) (pv : Pv) (b : Bunch) (p : Ppn) (rest : List Ref) (names : Ppn → List (ℕ × ℕ)) : Prop :=
  ∃ L, pv.Rep c b L ∧ (∀ r, L.place r ≠ .held) ∧ L.ringed p ∧
    (∀ p', p' ≠ p → pv.pmap (.rooted p') = 0 → L.queue p' = []) ∧ pv.names L = names ∧
    (rest = .rooted p :: L.queue p ∧ pv.pmap (.rooted p) ≠ 0 ∨ ∃ K, L.queue p = K ++ rest)

namespace Pv

section
variable {c : Machine} {pv : Pv} {b : Bunch} {p : Ppn} {e : Ref} {rest : List Ref} {names : Ppn → List (ℕ × ℕ)}

/-- The walk starts where the page has a mapping. -/
theorem Holds.walking (h : pv.Holds c b names fun _ => False) (hroot : pv.pmap (.rooted p) ≠ 0) :
    ∃ rest, pv.Walking c b p (.rooted p :: rest) names ∧ names p = (Ref.rooted p :: rest).map pv.pair ∧
      rest.length ≤ pv.zone := by
  obtain ⟨L, hrep, hnames, hheld, hclosed⟩ := h
  have hringed := hrep.ringed_of_named hroot
  refine ⟨L.queue p, ⟨L, hrep, fun r hr => (hheld r).1 hr, hringed,
    fun p' _ => hclosed p', funext hnames,
    .inl ⟨rfl, hroot⟩⟩, ?_, hrep.length_queue_le hringed⟩
  rw [← hnames, names_of_ne hroot, List.map_cons]

namespace Walking

theorem notMem (h : pv.Walking c b p (e :: rest) names) : Ref.rooted p ∉ rest := by
  obtain ⟨L, hrep, -, hringed, -, -, ⟨heq, -⟩ | ⟨K, hK⟩⟩ := h
  · rw [(List.cons.inj heq).2]
    exact (hrep.ring p hringed).notMem
  · have := (hrep.ring p hringed).notMem
    rw [hK] at this
    exact fun hmem => this (by simp [hmem])

theorem next (h : pv.Walking c b p (e :: rest) names) : pv.qlink.next e = some (rest.head?.getD (.rooted p)) := by
  obtain ⟨L, hrep, -, hringed, -, -, ⟨heq, -⟩ | ⟨K, hK⟩⟩ := h
  · obtain ⟨rfl, rfl⟩ := List.cons.inj heq
    exact (hrep.ring p hringed).next_head
  · have hring := hrep.ring p hringed
    rw [hK] at hring
    exact hring.next_mem

theorem pair_mem (h : pv.Walking c b p (e :: rest) names) : pv.pair e ∈ names p := by
  obtain ⟨L, hrep, -, hringed, -, rfl, ⟨heq, hroot⟩ | ⟨K, hK⟩⟩ := h
  · obtain ⟨rfl, rfl⟩ := List.cons.inj heq
    rw [names_of_ne hroot]
    exact List.mem_cons_self
  · rw [Pv.names]
    refine List.mem_append_right _ (List.mem_map_of_mem ?_)
    simp [hK]

/-- The entry stays. -/
theorem keep (h : pv.Walking c b p (e :: rest) names) : pv.Walking c b p rest names := by
  obtain ⟨L, hrep, hheld, hringed, hclosed, hnames, ⟨heq, -⟩ | ⟨K, hK⟩⟩ := h
  · exact ⟨L, hrep, hheld, hringed, hclosed, hnames, .inr ⟨[], (List.cons.inj heq).2.symm⟩⟩
  · exact ⟨L, hrep, hheld, hringed, hclosed, hnames, .inr ⟨K ++ [e], by simp [hK]⟩⟩

/-- The rooted mapping goes: `pv_h->pmap = PMAP_NULL`. -/
theorem clearRoot (h : pv.Walking c b p (.rooted p :: rest) names) :
    Walking c { pv with pmap := Function.update pv.pmap (.rooted p) 0 } b p rest
      (Function.update names p ((names p).erase (pv.pair (.rooted p)))) := by
  obtain ⟨L, hrep, hheld, hringed, hclosed, rfl, hplace⟩ := h
  obtain ⟨rfl, hroot⟩ : rest = L.queue p ∧ pv.pmap (.rooted p) ≠ 0 := by
    rcases hplace with ⟨heq, hroot⟩ | ⟨K, hK⟩
    · exact ⟨(List.cons.inj heq).2, hroot⟩
    · have := (hrep.ring p hringed).notMem
      rw [hK] at this
      simp at this
  refine ⟨L, hrep.clearRoot hringed, hheld, hringed, fun p' hp' hnull => ?_, ?_, .inr ⟨[], rfl⟩⟩
  · have hne : Ref.rooted p' ≠ Ref.rooted p := by simpa using hp'
    simp only [Function.update_of_ne hne] at hnull
    exact hclosed p' hp' hnull
  · rw [names_clearRoot hrep, names_of_ne hroot, List.erase_cons_head]

/-- A queued mapping goes: `pv_hash_remove`, and the entry is collected. -/
theorem remove (h : pv.Walking c b p (e :: rest) names) (he : e ≠ .rooted p) (hnodup : (names p).Nodup) :
    ∃ pv', pvHashRemove c e pv = .ok pv' ∧ (pv'.collect e b).2.pair = pv.pair ∧
      (pv'.collect e b).2.Walking c (pv'.collect e b).1 p rest (Function.update names p ((names p).erase (pv.pair e))) := by
  obtain ⟨L, hrep, hheld, hringed, hclosed, rfl, ⟨heq, -⟩ | ⟨K, hK⟩⟩ := h
  · exact absurd (List.cons.inj heq).1 he
  have hmem : e ∈ L.queue p := by simp [hK]
  have hqueue : (L.queue p).erase e = K ++ rest := by
    have hnodup := (List.nodup_cons.1 (hrep.ring p hringed).nodup).2
    rw [hK, List.nodup_append] at hnodup
    have hnot : e ∉ K := fun hin => hnodup.2.2 e hin e List.mem_cons_self rfl
    rw [hK, List.erase_append_right _ hnot, List.erase_cons_head]
  obtain ⟨pv', hremove, hrep', hva, hpmap, -⟩ := hrep.pvHashRemove ((hrep.mem_queue p e).1 hmem) rfl
  have hpair : (pv'.collect e b).2.pair = pv.pair := by
    funext r
    show (pv'.pmap r, pv'.va r) = _
    rw [hva, hpmap, Pv.pair]
  have hin : (L.dequeue p (pvhashidx c (pv.pmap e) (pv.va e)) e).place e = .held := by
    simp [Lists.dequeue]
  refine ⟨pv', hremove, hpair, _, hrep'.collect hin, fun r => ?_, hringed,
    fun p' hp' hnull => ?_, ?_, .inr ⟨K, ?_⟩⟩
  · by_cases hr : r = e
    · simp [Lists.move, hr]
    · simpa [Lists.move, Lists.dequeue, hr] using hheld r
  · have hroot : pv.pmap (.rooted p') = 0 := by
      rw [← hpmap]
      exact hnull
    simpa [Lists.move, Lists.dequeue, hp'] using hclosed p' hp' hroot
  · rw [← names_dequeue (i := pvhashidx c (pv.pmap e) (pv.va e)) hnodup hmem hpair]
    exact names_of_pair rfl rfl
  · simpa [Lists.move, Lists.dequeue] using hqueue

end Walking

end

end Pv

/-- The end of `pmap_page_protect`: every list starts with its rooted entry again. -/
theorem fixHead_spec {c : Machine} {p : Ppn} {s : State} {b : Bunch} {names : Ppn → List (ℕ × ℕ)}
    (h : s.pv.Walking c b p [] names) :
    ∃ pv' b', fixHead c p (s, b) = .ok ({ s with pv := pv' }, b') ∧ pv'.Holds c b' names fun _ => False := by
  obtain ⟨L, hrep, hheld, hringed, hclosed, rfl, -⟩ := h
  have hheld' : ∀ r, L.place r = .held ↔ False := fun r => iff_false_intro (hheld r)
  by_cases hroot : s.pv.pmap (.rooted p) = 0
  case neg =>
    refine ⟨s.pv,
      b, by simp only [fixHead, if_neg hroot], L, hrep, fun _ => rfl, hheld', fun p' hnull => ?_⟩
    exact hclosed p' (fun heq => hroot (heq ▸ hnull)) hnull
  have hnext := (hrep.ring p hringed).next_head
  cases hq : L.queue p with
  | nil =>
    rw [hq] at hnext
    refine ⟨s.pv, b, ?_, L, hrep, fun _ => rfl, hheld', fun p' hnull => ?_⟩
    · simp [fixHead, hroot, hnext]
    · by_cases heq : p' = p
      · rw [heq, hq]
      · exact hclosed p' heq hnull
  | cons e l =>
    rw [hq] at hnext
    have he : L.place e = .queued p := (hrep.mem_queue p e).1 (by simp [hq])
    have hne : e ≠ .rooted p := by
      rintro rfl
      simp [hrep.place_rooted] at he
    obtain ⟨pv', hremove, hrep', hva, hpmap, -⟩ := hrep.pvHashRemove he rfl
    have hholds := Pv.Holds.promote hrep (fun _ => rfl) hheld' hclosed hringed hq hrep' hva hpmap
    have hnames : Function.update (s.pv.names L) p ((e :: l).map s.pv.pair) = s.pv.names L := by
      rw [← hq, ← Pv.names_of_null hroot, Function.update_eq_self]
    rw [hnames] at hholds
    refine ⟨_, _, ?_, hholds.collectSome⟩
    simp [fixHead, hroot, hnext, hne, hremove, hva, hpmap, Pv.collectSome, Bind.bind, Except.bind]

/-! ## Protecting a page -/

/-- The walk of `pmap_page_protect` through the mappings `all` of a page, with the entries `rest` still to be done. -/
structure Walk (c : Machine) (p : Ppn) (remove : Bool) (t : Tables) (v : View) (all : List (ℕ × ℕ)) (rest : List Ref)
    (s : State) (b : Bunch) : Prop where
  wf : s.tables.WF c
  same : t.Same s.tables
  lists : ∃ names, s.pv.Walking c b p rest names ∧ Agrees c (s.view c) names
  counted : ∀ m, 0 ≤ (s.view c).excess c m
  view : ∃ done, s.view c = done.foldl (View.pageProtectAt c p remove) v ∧ all = done ++ rest.map s.pv.pair

section
variable {c : Machine} {p : Ppn} {remove : Bool} {t : Tables} {v : View} {all : List (ℕ × ℕ)} {e : Ref} {rest : List Ref}
  {s : State} {b : Bunch}

section
variable {m va : ℕ} (hremove : remove = true ∨ m = c.kernelPmap)
include hremove

theorem View.pageProtectAt_of_remove : v.pageProtectAt c p remove (m, va) =
    ((v.set m va 0).mark p (· &&& ~~~(typeReferenced ||| typeModified))).count m fun y =>
      { y with residentCount := y.residentCount - 1, physMem := y.physMem - pageSize } :=
  if_pos hremove

theorem View.entry_pageProtectAt (v : View) (p : Ppn) (va : ℕ) :
    (v.pageProtectAt c p remove (m, va)).entry = (v.set m va 0).entry := by
  rw [View.pageProtectAt_of_remove hremove]
  rfl

theorem View.residentCount_pageProtectAt (m' : ℕ) : ((v.pageProtectAt c p remove (m, va)).stats m').residentCount =
    (v.stats m').residentCount - if m' = m then 1 else 0 := by
  rw [View.pageProtectAt_of_remove hremove]
  by_cases hm : m' = m
  · subst hm
    simp [View.count]
  · simp [View.count, hm]

/-- One mapping less, and one less counted. -/
theorem View.excess_pageProtectAt (hva : Aligned va) (hold : v.Resident c m va) (m' : ℕ) :
    (v.pageProtectAt c p remove (m, va)).excess c m' = v.excess c m' :=
  View.excess_of_removed hva hold (View.entry_pageProtectAt hremove v p va) (View.residentCount_pageProtectAt hremove) m'

end

/-- **A round of `pmap_page_protect`.** -/
theorem protectMapping_spec (hp : c.Managed p) (h : Walk c p remove t v all (e :: rest) s b) :
    ∃ s' b', protectMapping c p remove e (s, b) = .ok (s', b') ∧ Walk c p remove t v all rest s' b' := by
  obtain ⟨hwf, hsame, ⟨names, hwalk, hagree⟩, hres, done, hview, hall⟩ := h
  have hmapped := (hagree.mem_iff p _ _).1 hwalk.pair_mem
  obtain ⟨hva, loc, hpte⟩ := State.exists_pte hwf hmapped.entry_ne_zero
  have hset : ∀ w, (s.set loc w).view c = (s.view c).set (s.pv.pmap e) (s.pv.va e) w :=
    fun w => State.view_set hwf hpte hva
  have hdone : ∀ v', v' = (s.view c).pageProtectAt c p remove (s.pv.pmap e, s.pv.va e) →
      v' = (done ++ [s.pv.pair e]).foldl (View.pageProtectAt c p remove) v := by
    rintro v' rfl
    rw [List.foldl_append, ← hview]
    rfl
  have hall' : all = done ++ [s.pv.pair e] ++ rest.map s.pv.pair := by simp [hall]
  unfold protectMapping
  simp only [hpte, Bind.bind, Except.bind, physAttributeClear_eq (paiToPvh_of_managed hp)]
  by_cases hremove : remove = true ∨ s.pv.pmap e = c.kernelPmap
  · have hcount := View.excess_pageProtectAt (p := p) hremove hva hmapped.resident
    have hentry := View.entry_pageProtectAt hremove (s.view c) p (s.pv.va e)
    have hagree' := (hagree.remove hmapped View.not_managed_zero).of_entry hentry
    have hsome : ¬ (s.stats (s.pv.pmap e)).residentCount < 1 := by
      have := hres (s.pv.pmap e)
      have := View.residents_set_zero hva hmapped.resident
      simp only [View.excess, State.stats_view] at *
      omega
    -- what the callers see, whatever becomes of the lists
    let after : Pv → State := fun pv' =>
      { s with
        tables := s.tables.set loc 0
        pv := pv'
        flags := Function.update s.flags p (s.flags p &&& ~~~(typeReferenced ||| typeModified))
        stats := Function.update s.stats (s.pv.pmap e)
          { s.stats (s.pv.pmap e) with
            residentCount := (s.stats (s.pv.pmap e)).residentCount - 1
            physMem := (s.stats (s.pv.pmap e)).physMem - pageSize } }
    have hshows : ∀ pv', (after pv').view c = (s.view c).pageProtectAt c p remove
        (s.pv.pmap e, s.pv.va e) := by
      intro pv'
      rw [View.pageProtectAt_of_remove hremove, ← hset]
      rfl
    have hwalk' : ∀ pv' b', (∀ r ∈ rest, pv'.pair r = s.pv.pair r) →
        pv'.Walking c b' p rest (Function.update names p ((names p).erase (s.pv.pair e))) →
        Walk c p remove t v all rest (after pv') b' := by
      intro pv' b' hpair hwalking
      refine ⟨hwf.set, hsame.trans (.set loc 0), ⟨_, hwalking, hshows pv' ▸ hagree'⟩,
        fun m => ?_, _, hdone _ (hshows pv'), ?_⟩
      · rw [hshows pv', hcount]
        exact hres m
      · rw [hall', List.map_congr_left hpair]
    simp only [if_pos hremove, State.set, State.count, hsome, ↓reduceIte]
    by_cases he : e = .rooted p
    · subst he
      rw [if_pos rfl]
      refine ⟨_, _, rfl, hwalk' _ _ (fun r hr => ?_) hwalk.clearRoot⟩
      have hne : r ≠ .rooted p := fun heq => hwalk.notMem (heq ▸ hr)
      simp [Pv.pair, hne]
    · rw [if_neg he]
      obtain ⟨pv', hok, hpair, hwalking⟩ := hwalk.remove he (hagree.nodup p)
      simp only [hok]
      exact ⟨_, _, rfl, hwalk' _ _ (fun r _ => congrFun hpair r) hwalking⟩
  · rw [if_neg hremove]
    have hpages : ∀ m va, paIndex (((s.set loc (s.tables.get loc ||| l2AccessApx)).view c).entry m va) =
        paIndex ((s.view c).entry m va) := by
      intro m va
      rw [hset, View.entry_set, State.get_eq hpte hva]
      split_ifs with hand
      · rw [hand.1, hand.2, paIndex_writeProtect]
      · rfl
    refine ⟨_, _, rfl, hwf.set, hsame.trans (.set loc _),
      ⟨names, hwalk.keep, hagree.congr fun p' m va => ?_⟩, fun m => ?_, _,
      hdone _ ?_, hall'⟩
    · rw [View.Mapped, View.Mapped, hpages]
    · have hres' : ∀ va, ((s.set loc (s.tables.get loc ||| l2AccessApx)).view c).Resident c m va ↔
          (s.view c).Resident c m va := by
        intro va
        rw [View.Resident, View.Resident, hpages]
      have hstats : ((s.set loc (s.tables.get loc ||| l2AccessApx)).view c).stats =
          (s.view c).stats := rfl
      rw [View.excess_congr (by rw [hstats]) hres']
      exact hres m
    · rw [hset, State.get_eq hpte hva]
      exact (if_neg hremove).symm

/-- **`pmap_page_protect`** of a managed page: every mapping of it is removed, or write-protected, once. -/
theorem pmapPageProtect_spec (prot : Prot) (h : Inv c s) (hp : c.Managed p) (hprot : prot ≠ vmProtAll) :
    ∃ s', ∃ l : List (ℕ × ℕ), pmapPageProtect c p prot s = .ok s' ∧ Inv c s' ∧
      s'.view c = l.foldl (View.pageProtectAt c p (View.removes prot)) (s.view c) ∧ (s.view c).MappingsOf c p l ∧
      s.tables.Same s'.tables := by
  obtain ⟨names, hholds, hagree⟩ := h.lists
  unfold pmapPageProtect
  simp only [if_neg (not_not.2 hp), if_neg hprot, paiToPvh_of_managed hp, Bind.bind, Except.bind]
  by_cases hroot : s.pv.pmap (.rooted p) = 0
  · have hnil := hholds.root_eq_zero_iff.1 hroot
    rw [if_neg (not_not.2 hroot)]
    refine ⟨s, [], rfl, h, rfl, ⟨.nil, fun m va => ?_⟩, .refl _⟩
    rw [← hagree.mem_iff, hnil]
  obtain ⟨rest, hwalking, hall, hlen⟩ := hholds.walking hroot
  let P : List Ref → State × Bunch → Prop := fun rest a =>
    Walk c p (View.removes prot) s.tables (s.view c) (names p) rest a.1 a.2
  have hstart : P (.rooted p :: rest) (s, .empty) :=
    ⟨h.wf, .refl _, ⟨names, hwalking, hagree⟩, h.counted, [], rfl, hall⟩
  have hrest : ∀ e rest a, P (e :: rest) a → Ref.rooted p ∉ rest := by
    intro e rest a hP
    obtain ⟨_, hw, -⟩ := hP.lists
    exact hw.notMem
  have hlink : ∀ e rest a, P (e :: rest) a →
      a.1.pv.qlink.next e = some (rest.head?.getD (.rooted p)) := by
    intro e rest a hP
    obtain ⟨_, hw, -⟩ := hP.lists
    exact hw.next
  have hbody : ∀ e rest a, P (e :: rest) a → ∃ a', protectMapping c p (View.removes prot) e a =
      .ok a' ∧ P rest a' := by
    intro e rest a hP
    obtain ⟨s', b', hok, hP'⟩ := protectMapping_spec hp hP
    exact ⟨(s', b'), hok, hP'⟩
  obtain ⟨⟨s₁, b₁⟩, hloop, hend⟩ :=
    forQueue_spec (fun a : State × Bunch => a.1.pv.qlink) hrest hlink hbody hstart
      (Nat.lt_succ_of_le hlen)
  obtain ⟨hwf, hsame, ⟨names', hwalking', hagree'⟩, hres, done, hview, hdone⟩ := hend
  obtain ⟨pv', b', hfix, hholds'⟩ := fixHead_spec hwalking'
  rw [if_pos hroot]
  refine ⟨{ s₁ with pv := pv'.freeBunch .user b' }, done, ?_,
    ⟨hwf, ⟨names', hholds'.freeBunch .user, hagree'⟩, hres⟩, hview,
    ⟨?_, fun m va => ?_⟩, hsame⟩
  · have hloop' : forQueue (fun a : State × Bunch => a.1.pv.qlink)
      (protectMapping c p (!(prot == vmProtRead || prot == vmProtRead ||| vmProtExecute)))
        (.rooted p) (s.pv.zone + 1)
      (.rooted p) (s, .empty) = .ok (s₁, b₁) := hloop
    simp only [hloop', hfix]
  · rw [List.map_nil, List.append_nil] at hdone
    exact hdone ▸ hagree.nodup p
  · rw [List.map_nil, List.append_nil] at hdone
    rw [← hdone, hagree.mem_iff]

/-! ## Memory types -/

theorem isMemoryType_cacheTemplate (cacheattr : BitVec 32) : IsMemoryType (cacheTemplate cacheattr) := by
  unfold cacheTemplate
  split_ifs <;> decide

theorem View.foldl_cacheAt {attributes : Word} (h : IsMemoryType attributes) (v : View) (l : List (ℕ × ℕ)) :
    (l.foldl (View.cacheAt attributes) v).flags = v.flags ∧ (l.foldl (View.cacheAt attributes) v).stats = v.stats ∧
      ∀ m va, paIndex ((l.foldl (View.cacheAt attributes) v).entry m va) = paIndex (v.entry m va) := by
  induction l generalizing v with
  | nil => exact ⟨rfl, rfl, fun _ _ => rfl⟩
  | cons x l ih =>
    obtain ⟨hflags, hstats, hentry⟩ := ih (v.cacheAt attributes x)
    refine ⟨hflags, hstats, fun m va => (hentry m va).trans ?_⟩
    rw [View.cacheAt, View.entry_set]
    split_ifs with hand
    · rw [paIndex_setCacheability h, hand.1, hand.2]
    · rfl

/-- A round of `pmap_update_cache_attributes_locked`. -/
theorem updateMapping_spec {attributes : Word} (hwf : s.tables.WF c)
    (hmapped : (s.view c).Mapped c p (s.pv.pmap e) (s.pv.va e)) :
    ∃ s', updateMapping c attributes e s = .ok s' ∧ s'.view c = (s.view c).cacheAt attributes (s.pv.pair e) ∧
      s'.pv = s.pv ∧ s'.tables.WF c ∧ s.tables.Same s'.tables := by
  obtain ⟨hva, loc, hpte⟩ := State.exists_pte hwf hmapped.entry_ne_zero
  refine ⟨s.set loc (setCacheability attributes (s.tables.get loc)), ?_, ?_, rfl, hwf.set, .set loc _⟩
  · simp only [updateMapping, hpte, Bind.bind, Except.bind]
  · rw [State.view_set hwf hpte hva, State.get_eq hpte hva]
    rfl

/-- `pmap_update_cache_attributes_locked` -/
theorem pmapUpdateCacheAttributesLocked_spec {attributes : Word} (ha : IsMemoryType attributes) (h : Inv c s)
    (hp : c.Managed p) :
    ∃ s', ∃ l : List (ℕ × ℕ), pmapUpdateCacheAttributesLocked c p attributes s = .ok s' ∧ Inv c s' ∧
      s'.view c = l.foldl (View.cacheAt attributes) (s.view c) ∧ (s.view c).MappingsOf c p l ∧
      s.tables.Same s'.tables := by
  obtain ⟨names, hholds, hagree⟩ := h.lists
  unfold pmapUpdateCacheAttributesLocked
  simp only [paiToPvh_of_managed hp, Bind.bind, Except.bind]
  by_cases hroot : s.pv.pmap (.rooted p) = 0
  · have hnil := hholds.root_eq_zero_iff.1 hroot
    rw [if_neg (not_not.2 hroot)]
    refine ⟨s, [], rfl, h, rfl, ⟨.nil, fun m va => ?_⟩, .refl _⟩
    rw [← hagree.mem_iff, hnil]
  obtain ⟨rest, hwalking, hall, hlen⟩ := hholds.walking hroot
  let P : List Ref → State → Prop := fun rest s' => s'.tables.WF c ∧ s.tables.Same s'.tables ∧
    s'.pv = s.pv ∧
    s.pv.Walking c .empty p rest names ∧ ∃ done, s'.view c = done.foldl (View.cacheAt attributes)
      (s.view c) ∧
      names p = done ++ rest.map s.pv.pair
  have hstart : P (.rooted p :: rest) s := ⟨h.wf, .refl _, rfl, hwalking, [], rfl, hall⟩
  have hrest : ∀ e rest s', P (e :: rest) s' → Ref.rooted p ∉ rest := by
    rintro e rest s' ⟨-, -, -, hw, -⟩
    exact hw.notMem
  have hlink : ∀ e rest s', P (e :: rest) s' →
      s'.pv.qlink.next e = some (rest.head?.getD (.rooted p)) := by
    rintro e rest s' ⟨-, -, hpv, hw, -⟩
    rw [hpv]
    exact hw.next
  have hbody : ∀ e rest s', P (e :: rest) s' → ∃ s'', updateMapping c attributes e s' = .ok s'' ∧
      P rest s'' := by
    rintro e rest s' ⟨hwf, hsame, hpv, hw, done, hview, hdone⟩
    have hmapped : (s'.view c).Mapped c p (s'.pv.pmap e) (s'.pv.va e) := by
      have := (hagree.mem_iff p _ _).1 hw.pair_mem
      rw [View.Mapped, hview, (View.foldl_cacheAt ha _ done).2.2, hpv]
      exact this
    obtain ⟨s'', hok, hview', hpv', hwf', hsame'⟩ := updateMapping_spec hwf hmapped
    refine ⟨s'', hok, hwf', hsame.trans hsame', hpv'.trans hpv, hw.keep, done ++ [s.pv.pair e], ?_, ?_⟩
    · rw [hview', List.foldl_append, ← hview, hpv]
      rfl
    · rw [hdone]
      simp
  obtain ⟨s₁, hloop, hwf, hsame, hpv, -, done, hview, hdone⟩ :=
    forQueue_spec (fun s : State => s.pv.qlink) hrest hlink hbody hstart (Nat.lt_succ_of_le hlen)
  obtain ⟨hflags, hstats, hentry⟩ := View.foldl_cacheAt ha (s.view c) done
  rw [List.map_nil, List.append_nil] at hdone
  rw [if_pos hroot]
  refine ⟨s₁, done, hloop, h.of_same_pages hwf hpv (fun m => ?_) (fun m va => ?_), hview,
    ⟨?_, fun m va => ?_⟩, hsame⟩
  · rw [← State.stats_view (c := c) (s := s₁), hview, hstats]
    exact le_rfl
  · rw [hview, hentry]
  · exact hdone ▸ hagree.nodup p
  · rw [← hdone, hagree.mem_iff]

/-- **`pmap_set_cache_attributes`** of a managed page: every mapping of it gets the memory type, once. -/
theorem pmapSetCacheAttributes_spec (cacheattr : BitVec 32) (h : Inv c s) (hp : c.Managed p) :
    ∃ s', ∃ l : List (ℕ × ℕ), pmapSetCacheAttributes c p cacheattr s = .ok s' ∧ Inv c s' ∧
      s'.view c = (l.foldl (View.cacheAt (cacheTemplate cacheattr)) (s.view c)).mark p
        (fun bits => if cacheattr &&& vmMemNotCacheable ≠ 0 then bits ||| typeNocache else bits &&& ~~~typeNocache) ∧
      (s.view c).MappingsOf c p l ∧ s.tables.Same s'.tables := by
  have hpai := paiToPvh_of_managed hp
  obtain ⟨s₁, l, hok, hinv, hview, hl, hsame⟩ :=
    pmapUpdateCacheAttributesLocked_spec (isMemoryType_cacheTemplate cacheattr) h hp
  have hmark : ∀ f : BitVec 32 → BitVec 32,
      State.view c { s₁ with flags := Function.update s₁.flags p (f (s₁.flags p)) } =
      (l.foldl (View.cacheAt (cacheTemplate cacheattr)) (s.view c)).mark p f := by
    intro f
    rw [← hview]
    rfl
  have hinv' : ∀ flags, Inv c { s₁ with flags := flags } := fun flags =>
    hinv.of_same_pages hinv.wf rfl (fun _ => le_rfl) fun _ _ => rfl
  simp only [pmapSetCacheAttributes, hok, Bind.bind, Except.bind, physAttributeSet_eq hpai,
    physAttributeClear_eq hpai]
  by_cases hnocache : cacheattr &&& vmMemNotCacheable ≠ 0
  · simp only [if_pos hnocache]
    exact ⟨_, l, rfl, hinv' _, hmark (· ||| typeNocache), hl, hsame⟩
  · simp only [if_neg hnocache]
    exact ⟨_, l, rfl, hinv' _, hmark (· &&& ~~~typeNocache), hl, hsame⟩

end

end PocketDarwin.Pmap
