/-
  The mappings that the physical-to-virtual lists stand for.

  * `Pv.Holds`: the lists hold the mappings `names`, in this order, and some entries are in
    the hand of a function.
  * `Pv.Holds.pmapPvRemove`: `pmap_pv_remove` takes a mapping off the list of its page; it
    reaches none of its panics and corruption branches.
  * `Pv.Holds.enterRoot`, `Pv.Holds.enterQueued`: how `pmap_enter_options` adds one.
-/
import PocketDarwin.Pmap.PvLists

namespace PocketDarwin.Pmap

namespace Pv

/-- The mapping that an entry stands for. -/
def pair (pv : Pv) (r : Ref) : ℕ × ℕ := (pv.pmap r, pv.va r)

/-- The mappings on the list of a page, the rooted one first. -/
def names (pv : Pv) (L : Lists) (p : Ppn) : List (ℕ × ℕ) :=
  (if pv.pmap (.rooted p) = 0 then [] else [pv.pair (.rooted p)]) ++ (L.queue p).map pv.pair

/-- The lists hold the mappings `names`, some entries are in hand, and every list starts with its
    rooted entry. -/
def Holds (c : Machine) (pv : Pv) (b : Bunch) (names : Ppn → List (ℕ × ℕ)) (held : Ref → Prop) : Prop :=
  ∃ L, pv.Rep c b L ∧ (∀ p, pv.names L p = names p) ∧ (∀ r, L.place r = .held ↔ held r) ∧
    ∀ p, pv.pmap (.rooted p) = 0 → L.queue p = []

section
variable {c : Machine} {pv : Pv} {b : Bunch} {L : Lists} {p : Ppn} {e : Ref} {m va : ℕ}

theorem names_congr {pv' : Pv} {L' : Lists} (hroot : pv'.pair (.rooted p) = pv.pair (.rooted p))
    (hqueue : L'.queue p = L.queue p) (hpair : ∀ r ∈ L.queue p, pv'.pair r = pv.pair r) :
    pv'.names L' p = pv.names L p := by
  have hpmap : pv'.pmap (.rooted p) = pv.pmap (.rooted p) := congrArg Prod.fst hroot
  rw [names, names, hpmap, hroot, hqueue, List.map_congr_left hpair]

theorem names_of_null (hp : pv.pmap (.rooted p) = 0) : pv.names L p = (L.queue p).map pv.pair := by
  rw [names, if_pos hp, List.nil_append]

theorem names_of_ne (hp : pv.pmap (.rooted p) ≠ 0) :
    pv.names L p = pv.pair (.rooted p) :: (L.queue p).map pv.pair := by
  rw [names, if_neg hp, List.singleton_append]

/-- The queue without an entry, as mappings. -/
theorem map_erase_pair {l : List Ref} (he : e ∈ l) (hnodup : (l.map pv.pair).Nodup) :
    (l.erase e).map pv.pair = (l.map pv.pair).erase (pv.pair e) := by
  obtain ⟨l₁, l₂, rfl⟩ := List.append_of_mem he
  rw [List.map_append, List.map_cons] at hnodup ⊢
  rw [List.nodup_append] at hnodup
  have hnot : pv.pair e ∉ l₁.map pv.pair := fun hin => hnodup.2.2 _ hin _ List.mem_cons_self rfl
  have hnot' : e ∉ l₁ := fun hin => hnot (List.mem_map_of_mem hin)
  rw [List.erase_append_right _ hnot', List.erase_cons_head, List.map_append,
    List.erase_append_right _ hnot,
    List.erase_cons_head]

section
variable {names : Ppn → List (ℕ × ℕ)} {held : Ref → Prop}

/-- The names of one page are new, and those of the others are told by roots and queues that stay. -/
theorem names_eq_update {pv' : Pv} {L' : Lists} {l : List (ℕ × ℕ)} (hnames : ∀ p, pv.names L p = names p)
    (hp : pv'.names L' p = l) (hroot : ∀ p', p' ≠ p → pv'.pair (.rooted p') = pv.pair (.rooted p'))
    (hqueue : ∀ p', p' ≠ p → L'.queue p' = L.queue p')
    (hpair : ∀ p', p' ≠ p → ∀ r ∈ L.queue p', pv'.pair r = pv.pair r) (p' : Ppn) :
    pv'.names L' p' = Function.update names p l p' := by
  by_cases hp' : p' = p
  · rw [hp', Function.update_self, hp]
  · rw [Function.update_of_ne hp', names_congr (hroot p' hp') (hqueue p' hp') (hpair p' hp'), hnames]

theorem names_of_pair {pv' : Pv} {L' : Lists} (hpair : pv'.pair = pv.pair) (hqueue : L'.queue = L.queue) :
    pv'.names L' = pv.names L := by
  funext p
  exact names_congr (congrFun hpair _) (congrFun hqueue p) fun r _ => congrFun hpair r

/-- The rooted mapping is taken off, and nothing else. -/
theorem names_clearRoot (hrep : pv.Rep c b L) :
    Pv.names { pv with pmap := Function.update pv.pmap (.rooted p) 0 } L =
      Function.update (pv.names L) p ((L.queue p).map pv.pair) := by
  have hne : ∀ p' r, r ∈ L.queue p' → r ≠ .rooted p := by
    rintro p' r hr rfl
    simp [hrep.mem_queue, hrep.place_rooted] at hr
  funext p'
  refine names_eq_update (fun _ => rfl) ?_ ?_ (fun _ _ => rfl) ?_ p'
  · rw [names_of_null (by simp)]
    refine List.map_congr_left fun r hr => ?_
    simp [pair, hne p r hr]
  · intro p' hp'
    simp [pair, hp']
  · intro p' _ r hr
    simp [pair, hne p' r hr]

/-- A queued mapping is taken off. -/
theorem names_dequeue {pv' : Pv} {i : ℕ} (hnodup : (pv.names L p).Nodup) (he : e ∈ L.queue p)
    (hpair : pv'.pair = pv.pair) :
    pv'.names (L.dequeue p i e) = Function.update (pv.names L) p ((pv.names L p).erase (pv.pair e)) := by
  have hpmap : pv'.pmap (.rooted p) = pv.pmap (.rooted p) := congrArg Prod.fst (congrFun hpair _)
  have hqueue : (L.dequeue p i e).queue p = (L.queue p).erase e := by simp [Lists.dequeue]
  funext p'
  refine names_eq_update (fun _ => rfl) ?_ (fun p' _ => by rw [hpair])
    (fun p' hp' => by simp [Lists.dequeue, hp'])
    (fun p' _ r _ => by rw [hpair]) p'
  by_cases hroot : pv.pmap (.rooted p) = 0
  · rw [names_of_null hroot] at hnodup ⊢
    rw [names_of_null (hpmap.trans hroot), hqueue, hpair, map_erase_pair he hnodup]
  · rw [names_of_ne hroot, List.nodup_cons] at hnodup
    have hne : pv.pair (.rooted p) ≠ pv.pair e := fun heq => hnodup.1 (heq ▸ List.mem_map_of_mem he)
    rw [names_of_ne hroot, names_of_ne (hpmap ▸ hroot), hqueue, hpair,
      List.erase_cons_tail (by simpa using hne),
      map_erase_pair he hnodup.2]

/-- The rooted mapping was the only one. -/
theorem Holds.removeOnly (hrep : pv.Rep c b L) (hnames : ∀ p, pv.names L p = names p)
    (hheld : ∀ r, L.place r = .held ↔ held r) (hclosed : ∀ p, pv.pmap (.rooted p) = 0 → L.queue p = [])
    (hroot : pv.pmap (.rooted p) ≠ 0) (hq : L.queue p = []) :
    Holds c { pv with pmap := Function.update pv.pmap (.rooted p) 0 } b (Function.update names p []) held := by
  refine ⟨L, hrep.clearRoot (hrep.ringed_of_named hroot), fun p' => ?_, hheld, ?_⟩
  · rw [names_clearRoot hrep, funext hnames, hq, List.map_nil]
  · intro p' hp'
    by_cases heq : p' = p
    · rw [heq, hq]
    · simp only [Function.update_of_ne (show Ref.rooted p' ≠ Ref.rooted p by simpa using heq)] at hp'
      exact hclosed p' hp'

/-- The first queued mapping becomes the rooted one. -/
theorem Holds.promote {pv' : Pv} {l : List Ref} {i : ℕ} (hrep : pv.Rep c b L) (hnames : ∀ p, pv.names L p = names p)
    (hheld : ∀ r, L.place r = .held ↔ held r) (hclosed : ∀ p', p' ≠ p → pv.pmap (.rooted p') = 0 → L.queue p' = [])
    (hringed : L.ringed p) (hq : L.queue p = e :: l) (hrep' : pv'.Rep c b (L.dequeue p i e)) (hva : pv'.va = pv.va)
    (hpmap : pv'.pmap = pv.pmap) :
    (pv'.setPair (.rooted p) (pv.pmap e) (pv.va e)).Holds c b (Function.update names p ((e :: l).map pv.pair))
      fun r => held r ∨ some e = some r := by
  have he : L.place e = .queued p := (hrep.mem_queue p e).1 (by simp [hq])
  have hnot : ∀ p' r, r ∈ L.queue p' → r ≠ .rooted p := by
    rintro p' r hr rfl
    simp [hrep.mem_queue, hrep.place_rooted] at hr
  refine ⟨L.dequeue p i e, hrep'.setPair (by simp [hrep'.place_rooted])
    (fun p' hp' => Ref.rooted.inj hp' ▸ hringed) _ _,
    names_eq_update hnames ?_ ?_ ?_ ?_, ?_, ?_⟩
  · have hqueue : (L.dequeue p i e).queue p = l := by simp [Lists.dequeue, hq]
    have hl : l.map (pv'.setPair (.rooted p) (pv.pmap e) (pv.va e)).pair = l.map pv.pair := by
      refine List.map_congr_left fun r hr => ?_
      have := hnot p r (by simp [hq, hr])
      simp [pair, setPair, this, hva, hpmap]
    rw [names_of_ne (by simpa [setPair] using (hrep.queued p e he).2), hqueue, hl]
    simp [pair, setPair]
  · intro p' hp'
    simp [pair, setPair, hp', hva, hpmap]
  · intro p' hp'
    simp [Lists.dequeue, hp']
  · intro p' _ r hr
    simp [pair, setPair, hnot p' r hr, hva, hpmap]
  · exact fun r => (place_dequeue r).trans (or_congr_left (hheld r))
  · intro p' hp'
    by_cases heq : p' = p
    · subst heq
      simp only [setPair, Function.update_self] at hp'
      exact absurd hp' (hrep.queued p' e he).2
    · have hne : Ref.rooted p' ≠ Ref.rooted p := by simpa using heq
      simp only [setPair, Function.update_of_ne hne, hpmap] at hp'
      simp only [Lists.dequeue, Function.update_of_ne heq]
      exact hclosed p' heq hp'

theorem Holds.removeQueued {pv' : Pv} {i : ℕ} (hnames : ∀ p, pv.names L p = names p)
    (hheld : ∀ r, L.place r = .held ↔ held r) (hclosed : ∀ p, pv.pmap (.rooted p) = 0 → L.queue p = [])
    (hnodup : (names p).Nodup) (he : e ∈ L.queue p) (hrep' : pv'.Rep c b (L.dequeue p i e)) (hva : pv'.va = pv.va)
    (hpmap : pv'.pmap = pv.pmap) :
    pv'.Holds c b (Function.update names p ((names p).erase (pv.pair e))) fun r => held r ∨ some e = some r := by
  have hpair : pv'.pair = pv.pair := by
    funext r
    rw [pair, pair, hva, hpmap]
  refine ⟨L.dequeue p i e, hrep', fun p' => ?_, ?_, ?_⟩
  · rw [names_dequeue (by rwa [hnames]) he hpair, funext hnames]
  · exact fun r => (place_dequeue r).trans (or_congr_left (hheld r))
  · intro p' hp'
    rw [hpmap] at hp'
    have hq := hclosed p' hp'
    by_cases heq : p' = p
    · rw [← heq, hq] at he
      simp at he
    · simp only [Lists.dequeue, Function.update_of_ne heq]
      exact hq

/-- **`pmap_pv_remove`** of a mapping that is on the list takes it off, and stops nowhere. -/
theorem Holds.pmapPvRemove (h : pv.Holds c b names held) (hp : c.Managed p) (hmem : (m, va) ∈ names p)
    (hnodup : (names p).Nodup) : ∃ o pv', Pmap.pmapPvRemove c m va p pv = .ok (o, pv') ∧
      pv'.Holds c b (Function.update names p ((names p).erase (m, va))) fun r => held r ∨ o = some r := by
  obtain ⟨L, hrep, hnames, hheld, hclosed⟩ := h
  have hroot : pv.pmap (.rooted p) ≠ 0 := by
    intro hnull
    rw [← hnames, names_of_null hnull, hclosed p hnull] at hmem
    simp at hmem
  have hring := hrep.ring p (hrep.ringed_of_named hroot)
  have hlist := hnames p
  rw [names_of_ne hroot] at hlist
  simp only [Pmap.pmapPvRemove, paiToPvh_of_managed hp, Bind.bind, Except.bind, if_neg hroot,
    hring.next_head]
  by_cases hfirst : pv.va (.rooted p) = va ∧ pv.pmap (.rooted p) = m
  · rw [if_pos hfirst]
    obtain ⟨rfl, rfl⟩ := hfirst
    have herase : (names p).erase (pv.pmap (.rooted p), pv.va (.rooted p)) =
        (L.queue p).map pv.pair := by
      rw [← hlist, pair, List.erase_cons_head]
    cases hq : L.queue p with
    | nil =>
      rw [herase, hq]
      refine ⟨none, _, by simp; rfl, ?_⟩
      simpa using Holds.removeOnly hrep hnames hheld hclosed hroot hq
    | cons e l =>
      have he : L.place e = .queued p := (hrep.mem_queue p e).1 (by simp [hq])
      have hne : Ref.rooted p ≠ e := by
        rintro rfl
        simp [hrep.place_rooted] at he
      obtain ⟨q, k₁, k₂, hrem, hk, hrep'⟩ := hrep.dequeue he rfl
      have hscan := hrep.scan (fun r => r == e) hk (by simp) (by simp)
      have hsome : pv.hashTable (pvhashidx c (pv.pmap e) (pv.va e)) ≠ none := by
        intro hnone
        have := (hrep.chain (pvhashidx c (pv.pmap e) (pv.va e))).eq_none_iff.1 hnone
        simp [hk] at this
      rw [herase, hq]
      refine ⟨some e, _, ?_, Holds.promote hrep hnames hheld (fun p' _ => hclosed p')
        (hrep.ringed_of_named hroot) hq hrep'
        (by simp) (by simp)⟩
      simp [hne, Pv.remque, hrem, hsome, pmapPvhUnlink, hscan, setLink_qlink, Bind.bind, Except.bind]
  · rw [if_neg hfirst]
    have hne : (m, va) ≠ pv.pair (.rooted p) := by
      intro heq
      exact hfirst ⟨(congrArg Prod.snd heq).symm, (congrArg Prod.fst heq).symm⟩
    obtain ⟨e, hin, hpair⟩ : ∃ e ∈ L.queue p, pv.pair e = (m, va) := by
      rw [← hlist, List.mem_cons] at hmem
      exact List.mem_map.1 (hmem.resolve_left hne)
    have he : L.place e = .queued p := (hrep.mem_queue p e).1 hin
    obtain ⟨rfl, rfl⟩ : pv.pmap e = m ∧ pv.va e = va :=
      ⟨congrArg Prod.fst hpair, congrArg Prod.snd hpair⟩
    obtain ⟨q, k₁, k₂, hrem, hk, hrep'⟩ := hrep.dequeue he rfl
    -- on the chain, the page and the mapping tell the entry
    have hscan := hrep.scan (fun r => decide (pv.pmap r = pv.pmap e ∧ pv.va r = pv.va e ∧
      pv.ppn r = p)) hk
      (by simp [(hrep.queued p e he).1]) (by
        intro r hr hfound
        obtain ⟨hpm, hv, hpp⟩ := of_decide_eq_true hfound
        obtain ⟨⟨p', hp'⟩, -⟩ := (hrep.mem_chain _ r).1 hr
        obtain rfl : p = p' := hpp.symm.trans (hrep.queued p' r hp').1
        rw [← hlist] at hnodup
        refine List.inj_on_of_nodup_map (List.nodup_cons.1 hnodup).2 ((hrep.mem_queue p r).2 hp') hin ?_
        rw [pair, pair, hpm, hv])
    have hsome : pv.hashTable (pvhashidx c (pv.pmap e) (pv.va e)) ≠ none := by
      intro hnone
      have := (hrep.chain (pvhashidx c (pv.pmap e) (pv.va e))).eq_none_iff.1 hnone
      simp [hk] at this
    refine ⟨some e, _, ?_,
      Holds.removeQueued hnames hheld hclosed hnodup hin hrep' (by simp) (by simp)⟩
    simp only [if_neg hsome, hscan, Pv.remque, qlink_setLink, hrem]

theorem free_of_remque {pv' : Pv} (h : pv.remque e = .ok pv') : pv'.free = pv.free := by
  rw [Pv.remque] at h
  split at h
  · rw [← Except.ok.inj h]
  · simp at h

theorem free_of_pmapPvhUnlink {pv' : Pv} (h : pmapPvhUnlink c e pv = .ok pv') : pv'.free = pv.free := by
  simp only [pmapPvhUnlink, Bind.bind, Except.bind] at h
  split at h
  · simp at h
  split at h
  · simp at h
  rw [← Except.ok.inj h, free_setLink]

/-- How `pmap_pv_remove` returns: the mapping was the rooted one, and the entry is that of the next, if there
    is another; or it was found on the hash chain. -/
theorem pmapPvRemove_ok {o : Option Ref} {pv' : Pv} (hp : c.Managed p) (h : pmapPvRemove c m va p pv = .ok (o, pv')) :
    pv.pmap (.rooted p) ≠ 0 ∧ pv'.free = pv.free ∧
      (pv.pair (.rooted p) = (m, va) ∧
          (∃ e, pv.qlink.next (.rooted p) = some e ∧ (o = none ↔ Ref.rooted p = e)) ∨
        pv.pair (.rooted p) ≠ (m, va) ∧
          ∃ q e, scan pv.nexth (fun r => pv.pmap r = m ∧ pv.va r = va ∧ pv.ppn r = p) (pv.zone + 1) none
            (pv.hashTable (pvhashidx c m va)) = .ok (some (q, e)) ∧ o = some e) := by
  simp only [pmapPvRemove, paiToPvh_of_managed hp, Bind.bind, Except.bind] at h
  by_cases hroot : pv.pmap (.rooted p) = 0
  · simp [hroot] at h
  rw [if_neg hroot] at h
  refine ⟨hroot, ?_⟩
  by_cases hfirst : pv.va (.rooted p) = va ∧ pv.pmap (.rooted p) = m
  · rw [if_pos hfirst] at h
    have hpair : pv.pair (.rooted p) = (m, va) := by rw [pair, hfirst.1, hfirst.2]
    cases hnext : pv.qlink.next (.rooted p) with
    | none => simp [hnext] at h
    | some e =>
      simp only [hnext] at h
      by_cases hne : Ref.rooted p ≠ e
      · rw [if_pos hne] at h
        cases hrem : pv.remque e with
        | error e' => simp [hrem] at h
        | ok pv₁ =>
          simp only [hrem] at h
          split_ifs at h with hhash
          cases hunlink : pmapPvhUnlink c e pv₁ with
          | error e' => simp [hunlink] at h
          | ok pv₂ =>
            simp only [hunlink, Except.ok.injEq, Prod.mk.injEq] at h
            obtain ⟨rfl, rfl⟩ := h
            exact ⟨(free_of_pmapPvhUnlink hunlink).trans (free_of_remque hrem),
              .inl ⟨hpair, e, rfl, by simp [hne]⟩⟩
      · rw [if_neg hne] at h
        simp only [Except.ok.injEq, Prod.mk.injEq] at h
        obtain ⟨rfl, rfl⟩ := h
        exact ⟨rfl, .inl ⟨hpair, e, rfl, by simp [not_not.1 hne]⟩⟩
  · rw [if_neg hfirst] at h
    have hpair : pv.pair (.rooted p) ≠ (m, va) := fun heq =>
      hfirst ⟨congrArg Prod.snd heq, congrArg Prod.fst heq⟩
    split_ifs at h
    cases hscan : scan pv.nexth (fun r => pv.pmap r = m ∧ pv.va r = va ∧ pv.ppn r = p) (pv.zone + 1) none
        (pv.hashTable (pvhashidx c m va)) with
    | error e' =>
      rw [hscan] at h
      simp at h
    | ok found =>
      cases found with
      | none =>
        rw [hscan] at h
        simp at h
      | some x =>
        simp only [hscan] at h
        cases hrem : (pv.setLink (pvhashidx c m va) x.1 (pv.nexth x.2)).remque x.2 with
        | error e' => simp [hrem] at h
        | ok pv₁ =>
          simp only [hrem, Except.ok.injEq, Prod.mk.injEq] at h
          obtain ⟨rfl, rfl⟩ := h
          exact ⟨(free_of_remque hrem).trans free_setLink, .inr ⟨hpair, x.1, x.2, rfl, rfl⟩⟩

/-- `pmap_pv_remove` returns for mappings on the list only, and has no entry to free for the last of them. -/
theorem Holds.pmapPvRemove_ok {o : Option Ref} {pv' : Pv} (h : pv.Holds c b names held) (hp : c.Managed p)
    (hok : Pmap.pmapPvRemove c m va p pv = .ok (o, pv')) :
    (m, va) ∈ names p ∧ pv'.free = pv.free ∧ (o = none ↔ names p = [(m, va)]) := by
  obtain ⟨L, hrep, hnames, -, -⟩ := h
  obtain ⟨hroot, hfree, hcases⟩ := Pv.pmapPvRemove_ok hp hok
  have hlist := hnames p
  rw [names_of_ne hroot] at hlist
  rcases hcases with ⟨hpair, e, hnext, ho⟩ | ⟨hpair, q, e, hscan, rfl⟩
  · refine ⟨hlist ▸ List.mem_cons.2 (.inl hpair.symm), hfree, ho.trans ?_⟩
    rw [(hrep.ring p (hrep.ringed_of_named hroot)).next_head] at hnext
    obtain rfl := Option.some.inj hnext
    rw [← hlist, hpair]
    cases hq : L.queue p with
    | nil => simp
    | cons e l =>
      have he : L.place e = .queued p := (hrep.mem_queue p e).1 (by simp [hq])
      refine iff_of_false ?_ (by simp)
      rintro heq
      have heq : Ref.rooted p = e := heq
      rw [← heq, hrep.place_rooted] at he
      simp at he
  · obtain ⟨hchain, hfound⟩ := scan_mem (hrep.chain _) hscan
    obtain ⟨hm, hva, hppn⟩ := of_decide_eq_true hfound
    obtain ⟨⟨p', hp'⟩, -⟩ := (hrep.mem_chain _ e).1 hchain
    obtain rfl : p = p' := hppn.symm.trans (hrep.queued p' e hp').1
    have hmem : (m, va) ∈ (L.queue p).map pv.pair :=
      List.mem_map.2 ⟨e, (hrep.mem_queue p e).2 hp', by rw [pair, hm, hva]⟩
    refine ⟨hlist ▸ List.mem_cons_of_mem _ hmem, hfree, iff_of_false (by simp) fun heq => ?_⟩
    rw [heq] at hlist
    exact hpair (List.cons.inj hlist).1

/-! ### Taking and freeing entries -/

/-- A page has no mapping exactly if its root is free. -/
theorem Holds.root_eq_zero_iff (h : pv.Holds c b names held) : pv.pmap (.rooted p) = 0 ↔ names p = [] := by
  obtain ⟨L, -, hnames, -, hclosed⟩ := h
  constructor
  · intro hnull
    rw [← hnames, names_of_null hnull, hclosed p hnull, List.map_nil]
  · intro hnil
    by_contra hroot
    rw [← hnames, names_of_ne hroot] at hnil
    simp at hnil

/-- Nothing is named by the null pointer. -/
theorem Holds.ne_zero (h : pv.Holds c b names held) (hmem : (m, va) ∈ names p) : m ≠ 0 := by
  obtain ⟨L, hrep, hnames, -, hclosed⟩ := h
  have hroot : pv.pmap (.rooted p) ≠ 0 := by
    intro hnull
    rw [← hnames, names_of_null hnull, hclosed p hnull] at hmem
    simp at hmem
  rw [← hnames, names_of_ne hroot, List.mem_cons, List.mem_map] at hmem
  rcases hmem with heq | ⟨r, hr, heq⟩
  · obtain rfl : m = pv.pmap (.rooted p) := congrArg Prod.fst heq
    exact hroot
  · obtain rfl : pv.pmap r = m := congrArg Prod.fst heq
    exact (hrep.queued p r ((hrep.mem_queue p r).1 hr)).2

/-- Moves between idle places keep the names. -/
theorem Holds.of_rep {pv' : Pv} {b' : Bunch} {L' : Lists} {held' : Ref → Prop} (hnames : ∀ p, pv.names L p = names p)
    (hclosed : ∀ p, pv.pmap (.rooted p) = 0 → L.queue p = []) (hrep : pv'.Rep c b' L') (hva : pv'.va = pv.va)
    (hpmap : pv'.pmap = pv.pmap) (hqueue : L'.queue = L.queue) (hheld : ∀ r, L'.place r = .held ↔ held' r) :
    pv'.Holds c b' names held' := by
  have hpair : pv'.pair = pv.pair := by
    funext r
    rw [pair, pair, hva, hpmap]
  refine ⟨L', hrep, fun p => ?_, hheld, fun p => ?_⟩
  · rw [names_congr (congrFun hpair _) (congrFun hqueue p) fun r _ => congrFun hpair r, hnames]
  · rw [hpmap, hqueue]
    exact hclosed p

theorem Holds.alloc (h : pv.Holds c b names held) (k : FreeList) :
    ∃ pv', (pv.alloc k).2 = pv' ∧ pv'.Holds c b names fun r => held r ∨ (pv.alloc k).1 = some r := by
  obtain ⟨L, hrep, hnames, hheld, hclosed⟩ := h
  rcases hrep.alloc k with ⟨-, hnone⟩ | ⟨e, l, hl, hsome, hrep'⟩
  · rw [hnone]
    exact ⟨pv, rfl, .of_rep hnames hclosed hrep rfl rfl rfl (by simpa using hheld)⟩
  · refine ⟨_, rfl, ?_⟩
    have hfields : (pv.alloc k).2.va = pv.va ∧ (pv.alloc k).2.pmap = pv.pmap := by
      unfold Pv.alloc
      cases pv.free k <;> exact ⟨rfl, rfl⟩
    refine .of_rep hnames hclosed hrep' hfields.1 hfields.2 rfl fun r => ?_
    rw [hsome]
    exact update_place_eq_new.trans (by rw [hheld, Option.some_inj, or_comm, eq_comm (a := r)])

theorem Holds.zalloc (h : pv.Holds c b names held) :
    pv.zalloc.2.Holds c b names fun r => held r ∨ some pv.zalloc.1 = some r := by
  obtain ⟨L, hrep, hnames, hheld, hclosed⟩ := h
  refine .of_rep hnames hclosed hrep.zalloc rfl rfl rfl fun r => ?_
  exact update_place_eq_new.trans (by rw [hheld, Option.some_inj, or_comm, eq_comm (a := r)]; rfl)

theorem Holds.freeOne (h : pv.Holds c b names held) (he : held e) (k : FreeList) :
    (pv.freeList k (some e) e 1).Holds c b names fun r => r ≠ e ∧ held r := by
  obtain ⟨L, hrep, hnames, hheld, hclosed⟩ := h
  refine .of_rep hnames hclosed (hrep.freeOne ((hheld e).2 he) k) rfl rfl rfl fun r => ?_
  exact (update_place_eq_old (by simp)).trans (and_congr_right' (hheld r))

theorem Holds.collect (h : pv.Holds c b names held) (he : held e) :
    (pv.collect e b).2.Holds c (pv.collect e b).1 names fun r => r ≠ e ∧ held r := by
  obtain ⟨L, hrep, hnames, hheld, hclosed⟩ := h
  refine .of_rep hnames hclosed (hrep.collect ((hheld e).2 he)) rfl rfl rfl fun r => ?_
  exact (update_place_eq_old (by simp)).trans (and_congr_right' (hheld r))

theorem Holds.collectSome {o : Option Ref} (h : pv.Holds c b names fun r => False ∨ o = some r) :
    (pv.collectSome o b).2.Holds c (pv.collectSome o b).1 names fun _ => False := by
  cases o with
  | none => simpa [Pv.collectSome] using h
  | some e =>
    have := h.collect (e := e) (.inr rfl)
    simpa [Pv.collectSome, eq_comm] using this

theorem Holds.freeBunch (h : pv.Holds c b names held) (k : FreeList) :
    (pv.freeBunch k b).Holds c Bunch.empty names held := by
  obtain ⟨L, hrep, hnames, hheld, hclosed⟩ := h
  have hfields : (pv.freeBunch k b).va = pv.va ∧ (pv.freeBunch k b).pmap = pv.pmap := by
    unfold Pv.freeBunch
    split <;> exact ⟨rfl, rfl⟩
  refine .of_rep hnames hclosed (hrep.freeBunch k) hfields.1 hfields.2 rfl fun r => ?_
  rw [← hheld]
  by_cases hr : L.place r = .bunch <;> simp [Lists.release, hr]

theorem Holds.zallocBunch (h : pv.Holds c b names fun _ => False) (n : ℕ) :
    (zallocBunch n b pv).2.Holds c (zallocBunch n b pv).1 names fun _ => False := by
  induction n generalizing b pv with
  | zero => exact h
  | succ n ih =>
    have hz := h.zalloc.collect (e := pv.zalloc.1) (.inr rfl)
    have hheld : (fun r => r ≠ pv.zalloc.1 ∧ (False ∨ some pv.zalloc.1 = some r)) = fun _ => False := by
      funext r
      simp [eq_comm]
    rw [hheld] at hz
    exact ih hz

theorem Holds.refill (h : pv.Holds c Bunch.empty names fun _ => False) (k : FreeList) (n : ℕ) :
    (pv.refill k n).Holds c Bunch.empty names fun _ => False :=
  (h.zallocBunch n).freeBunch k

theorem Holds.mappingFreePrime (h : pv.Holds c Bunch.empty names fun _ => False) :
    (Pmap.mappingFreePrime pv).Holds c Bunch.empty names fun _ => False :=
  (h.refill .user _).refill .kern 50

theorem Holds.refillBelow (h : pv.Holds c Bunch.empty names fun _ => False) (k : FreeList) (mark : ℤ) (n : ℕ) :
    (pv.refillBelow k mark n).Holds c Bunch.empty names fun _ => False := by
  unfold Pv.refillBelow
  split_ifs
  · exact h.refill k n
  · exact h

theorem Holds.mappingAdjust (h : pv.Holds c Bunch.empty names fun _ => False) :
    (Pmap.mappingAdjust pv).Holds c Bunch.empty names fun _ => False :=
  (h.refillBelow .kern 100 50).refillBelow .user 5000 2000

/-! ### New mappings -/

/-- The first mapping of a page is the rooted one. -/
theorem Holds.enterRoot (h : pv.Holds c b names held) (hp : names p = []) (hm : m ≠ 0) :
    Holds c { pv.setPair (.rooted p) m va with qlink := pv.qlink.queueInit (.rooted p) } b
      (Function.update names p [(m, va)]) held := by
  have hnull := h.root_eq_zero_iff.2 hp
  obtain ⟨L, hrep, hnames, hheld, hclosed⟩ := h
  have hq := hclosed p hnull
  have hnot : ∀ p' r, r ∈ L.queue p' → r ≠ .rooted p := by
    rintro p' r hr rfl
    simp [hrep.mem_queue, hrep.place_rooted] at hr
  have hinit := hrep.queueInit hq
  have hset := hinit.setPair (e := .rooted p) (by simp [hrep.place_rooted])
    (fun p' hp' => .inl (Ref.rooted.inj hp').symm) m va
  refine ⟨_, hset, names_eq_update hnames ?_ ?_ (fun _ _ => rfl) ?_, hheld, ?_⟩
  · rw [names_of_ne (by simpa [setPair] using hm)]
    simp [pair, setPair, hq]
  · intro p' hp'
    simp [pair, setPair, hp']
  · intro p' _ r hr
    simp [pair, setPair, hnot p' r hr]
  · intro p' hp'
    by_cases heq : p' = p
    · rw [heq]
      exact hq
    · have hne : Ref.rooted p' ≠ Ref.rooted p := by simpa using heq
      simp only [setPair, Function.update_of_ne hne] at hp'
      exact hclosed p' hp'

/-- A further mapping of a page is queued behind the rooted one, with an entry from hand. -/
theorem Holds.enterQueued {x : ℕ × ℕ} {l : List (ℕ × ℕ)} (h : pv.Holds c b names held) (va : ℕ)
    (hp : names p = x :: l) (hm : m ≠ 0) (he : held e) :
    ∃ pv', pvHashAdd c e (.rooted p) { pv.setPair e m va with ppn := Function.update pv.ppn e p } = .ok pv' ∧
      pv'.Holds c b (Function.update names p (x :: (m, va) :: l)) fun r => r ≠ e ∧ held r := by
  have hroot : pv.pmap (.rooted p) ≠ 0 := by
    rw [ne_eq, h.root_eq_zero_iff, hp]
    simp
  obtain ⟨L, hrep, hnames, hheld, hclosed⟩ := h
  have hplace := (hheld e).2 he
  have hne : ∀ {r}, L.place r ≠ .held → r ≠ e := fun hr heq => hr (heq ▸ hplace)
  have hnot : ∀ p' r, r ∈ L.queue p' → r ≠ e := by
    intro p' r hr
    refine hne ?_
    rw [(hrep.mem_queue p' r).1 hr]
    simp
  have hnotRoot : ∀ p', Ref.rooted p' ≠ e := fun p' => hne (by simp [hrep.place_rooted])
  have hset := (hrep.setPair (e := e) (by simp [hplace])
    (fun p' hp' => absurd hp'.symm (hnotRoot p')) m va).setPpn hplace p
  obtain ⟨pv', hadd, hrep', hva, hpmap, -⟩ := hset.pvHashAdd hplace (hrep.ringed_of_named hroot)
    (by simpa [setPair] using hm) (by simp)
  refine ⟨pv', hadd, _, hrep', names_eq_update hnames ?_ ?_ ?_ ?_, ?_, ?_⟩
  · have hlist := hnames p
    rw [names_of_ne hroot, hp] at hlist
    obtain ⟨rfl, rfl⟩ := List.cons.inj hlist
    have hmap : (L.queue p).map pv'.pair = (L.queue p).map pv.pair :=
      List.map_congr_left fun r hr => by simp [pair, hva, hpmap, setPair, hnot p r hr]
    rw [names_of_ne (by simpa [hpmap, setPair, hnotRoot] using hroot)]
    simp [Lists.enqueue, hmap, pair, hva, hpmap, setPair, hnotRoot]
  · intro p' _
    simp [pair, hva, hpmap, setPair, hnotRoot]
  · intro p' hp'
    simp [Lists.enqueue, hp']
  · intro p' _ r hr
    simp [pair, hva, hpmap, setPair, hnot p' r hr]
  · exact fun r => (update_place_eq_old (by simp)).trans (and_congr_right' (hheld r))
  · intro p' hp'
    simp only [hpmap, setPair, Function.update_of_ne (hnotRoot p')] at hp'
    by_cases heq : p' = p
    · exact absurd (heq ▸ hp') hroot
    · simp only [Lists.enqueue, Function.update_of_ne heq]
      exact hclosed p' hp'

end

end

end Pv

end PocketDarwin.Pmap
