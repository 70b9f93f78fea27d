/-
  Physical-to-virtual lists of the ARM pmap (`pmap.c`).

  For each managed page there is a rooted entry with the first mapping of the page; the
  further ones are hashed entries, queued to the root and on the hash chain of their pmap
  and address.  Hashed entries that are not in use are on one of two free lists.

  * `Pv.Rep`: what the structure is made of, by the place of each entry.
  * `Pv.Rep.pvHashAdd`, `Pv.Rep.pvHashRemove`: queueing an entry, and taking it off.
  * `Pv.Rep.alloc`, `Pv.Rep.zalloc`, `Pv.Rep.collect`, `Pv.Rep.freeOne`, `Pv.Rep.freeBunch`:
    entries that stand for no mapping.
-/
import Mathlib.Data.List.Basic
import PocketDarwin.Ring
import PocketDarwin.Pmap.Tables

namespace PocketDarwin.Pmap

/-- A pointer to a rooted entry, which is in the table of all pages, or to a hashed one. -/
inductive Ref where
  | rooted (pai : Ppn)
  | hashed (e : ℕ)
deriving DecidableEq, Repr

/-- `pv_hashed_free_list` and `pv_hashed_kern_free_list` -/
inductive FreeList where
  | user
  | kern
deriving DecidableEq, Repr

/-- The entries and where their lists start.  Pointers to pmaps are numbers, `PMAP_NULL` is `0`;
    the zone has given out the hashed entries below `zone`. -/
structure Pv where
  qlink : Links Ref
  va : Ref → ℕ
  pmap : Ref → ℕ
  ppn : Ref → Ppn
  nexth : Ref → Option Ref
  hashTable : ℕ → Option Ref
  free : FreeList → Option Ref
  freeCount : FreeList → ℤ
  zone : ℕ

/-- `pvhashidx` -/
def pvhashidx (c : Machine) (pmap va : ℕ) : ℕ := (pmap ^^^ va / 0x1000) &&& c.npvhash

/-- `pai_to_pvh`, where it is followed. -/
def paiToPvh (c : Machine) (pai : Ppn) : Except Stop Ref :=
  if c.physBase ≤ pai.toNat * 0x1000 ∧ pai.toNat * 0x1000 < c.availEnd then .ok (.rooted pai) else .error .fault

theorem paiToPvh_of_managed {c : Machine} {p : Ppn} (h : c.Managed p) : paiToPvh c p = .ok (.rooted p) :=
  if_pos ⟨c.physBase_le.trans h.1.le, h.2⟩

/-- A list of entries that are to be freed: `pvh_eh`, `pvh_et` and `pvh_cnt`. -/
structure Bunch where
  head : Option Ref
  tail : Option Ref
  count : ℤ

def Bunch.empty : Bunch := ⟨none, none, 0⟩

namespace Pv

/-- `zalloc(pv_hashed_list_zone)` -/
def zalloc (pv : Pv) : Ref × Pv := (.hashed pv.zone, { pv with zone := pv.zone + 1 })

/-- `PV_HASHED_ALLOC` and `PV_HASHED_KERN_ALLOC` -/
def alloc (k : FreeList) (pv : Pv) : Option Ref × Pv :=
  match pv.free k with
  | none => (none, pv)
  | some e =>
    (some e, { pv with
      free := Function.update pv.free k (pv.qlink.next e)
      freeCount := Function.update pv.freeCount k (pv.freeCount k - 1) })

/-- `PV_HASHED_FREE_LIST` and `PV_HASHED_KERN_FREE_LIST`, for a list with the last entry `et`. -/
def freeList (k : FreeList) (eh : Option Ref) (et : Ref) (cnt : ℤ) (pv : Pv) : Pv :=
  { pv with
    qlink := { pv.qlink with next := Function.update pv.qlink.next et (pv.free k) }
    free := Function.update pv.free k eh
    freeCount := Function.update pv.freeCount k (pv.freeCount k + cnt) }

/-- Puts an entry in front of the bunch: `pvh_e->qlink.next = pvh_eh; pvh_eh = pvh_e; ...`. -/
def collect (e : Ref) (b : Bunch) (pv : Pv) : Bunch × Pv :=
  (⟨some e, if b.tail = none then some e else b.tail, b.count + 1⟩,
    { pv with qlink := { pv.qlink with next := Function.update pv.qlink.next e b.head } })

/-- `if (pvh_e != PV_HASHED_ENTRY_NULL) { ... }`, with the entry that `pmap_pv_remove` returns. -/
def collectSome (o : Option Ref) (b : Bunch) (pv : Pv) : Bunch × Pv :=
  match o with
  | none => (b, pv)
  | some e => pv.collect e b

/-- `if (pvh_eh != PV_HASHED_ENTRY_NULL) PV_HASHED_FREE_LIST(pvh_eh, pvh_et, pvh_cnt);` -/
def freeBunch (k : FreeList) (b : Bunch) (pv : Pv) : Pv :=
  match b.head, b.tail with
  | some eh, some et => pv.freeList k (some eh) et b.count
  | _, _ => pv

/-- The loops of `mapping_free_prime` and `mapping_adjust`, over `n` entries. -/
def zallocBunch : ℕ → Bunch → Pv → Bunch × Pv
  | 0, b, pv => (b, pv)
  | n + 1, b, pv =>
    let (e, pv) := pv.zalloc
    let (b, pv) := pv.collect e b
    zallocBunch n b pv

/-- `n` new entries are put on a free list. -/
def refill (k : FreeList) (n : ℕ) (pv : Pv) : Pv :=
  let (b, pv) := zallocBunch n .empty pv
  pv.freeBunch k b

/-- `e->va = va; e->pmap = pmap;` -/
def setPair (e : Ref) (m va : ℕ) (pv : Pv) : Pv :=
  { pv with va := Function.update pv.va e va, pmap := Function.update pv.pmap e m }

/-- `*pprevh = v`, for the anchor of a hash chain or the pointer of an entry. -/
def setLink (idx : ℕ) (pprevh v : Option Ref) (pv : Pv) : Pv :=
  match pprevh with
  | none => { pv with hashTable := Function.update pv.hashTable idx v }
  | some r => { pv with nexth := Function.update pv.nexth r v }

/-- A part of `mapping_adjust`: a free list with less than `mark` entries is refilled. -/
def refillBelow (k : FreeList) (mark : ℤ) (n : ℕ) (pv : Pv) : Pv := if pv.freeCount k < mark then pv.refill k n else pv

/-- `insque` -/
def insque (e pred : Ref) (pv : Pv) : Except Stop Pv :=
  match pv.qlink.insque e pred with
  | some q => .ok { pv with qlink := q }
  | none => .error .fault

/-- `remque` -/
def remque (e : Ref) (pv : Pv) : Except Stop Pv :=
  match pv.qlink.remque e with
  | some q => .ok { pv with qlink := q }
  | none => .error .fault

/-- The loops over a hash chain: the first entry that is looked for, with the pointer that leads to
    it.  There are no more rounds than entries. -/
def scan (nexth : Ref → Option Ref) (found : Ref → Bool) :
    (fuel : ℕ) → (pprevh cur : Option Ref) → Except Stop (Option (Option Ref × Ref))
  | _, _, none => .ok none
  | 0, _, some _ => .error .hang
  | fuel + 1, pprevh, some e => if found e then .ok (some (pprevh, e)) else scan nexth found fuel (some e) (nexth e)

end Pv

/-- `mapping_free_prime` -/
def mappingFreePrime (pv : Pv) : Pv := (pv.refill .user (5 * 2000)).refill .kern 50

/-- `mapping_adjust` -/
def mappingAdjust (pv : Pv) : Pv := (pv.refillBelow .kern 100 50).refillBelow .user 5000 2000

/-- `pv_hash_add` -/
def pvHashAdd (c : Machine) (e pvH : Ref) (pv : Pv) : Except Stop Pv := do
  let idx := pvhashidx c (pv.pmap e) (pv.va e)
  let pv ← pv.insque e pvH
  .ok { pv with
    nexth := Function.update pv.nexth e (pv.hashTable idx)
    hashTable := Function.update pv.hashTable idx (some e) }

/-- `pmap_pvh_unlink` -/
def pmapPvhUnlink (c : Machine) (e : Ref) (pv : Pv) : Except Stop Pv := do
  let idx := pvhashidx c (pv.pmap e) (pv.va e)
  match ← Pv.scan pv.nexth (fun r => r == e) (pv.zone + 1) none (pv.hashTable idx) with
  | none => .error .unlink
  | some (pprevh, _) => .ok (pv.setLink idx pprevh (pv.nexth e))

/-- `pv_hash_remove` -/
def pvHashRemove (c : Machine) (e : Ref) (pv : Pv) : Except Stop Pv := do
  let pv ← pv.remque e
  pmapPvhUnlink c e pv

/-- `pmap_pv_remove`: the entry that is to be freed.  Where the code goes on to classify a
    corruption of the tables, the model stops. -/
def pmapPvRemove (c : Machine) (m va : ℕ) (ppn : Ppn) (pv : Pv) : Except Stop (Option Ref × Pv) := do
  let pvH ← paiToPvh c ppn
  if pv.pmap pvH = 0 then .error .nullPvList
  else if pv.va pvH = va ∧ pv.pmap pvH = m then
    match pv.qlink.next pvH with
    | none => .error .fault
    | some e =>
      if pvH ≠ e then
        -- the first queued entry is installed as new root, and freed instead
        let idx := pvhashidx c (pv.pmap e) (pv.va e)
        let pv ← pv.remque e
        if pv.hashTable idx = none then .error .emptyHash
        else
          let pv ← pmapPvhUnlink c e pv
          .ok (some e, pv.setPair pvH (pv.pmap e) (pv.va e))
      else .ok (none, { pv with pmap := Function.update pv.pmap pvH 0 })
  else
    let idx := pvhashidx c m va
    if pv.hashTable idx = none then .error .emptyHash
    else
      let found : Ref → Bool := fun r => pv.pmap r = m ∧ pv.va r = va ∧ pv.ppn r = ppn
      match ← Pv.scan pv.nexth found (pv.zone + 1) none (pv.hashTable idx) with
      | none => .error .notOnHash
      | some (pprevh, e) =>
        let pv := pv.setLink idx pprevh (pv.nexth e)
        let pv ← pv.remque e
        .ok (some e, pv)

/-! ## Hash chains -/

namespace Pv

section
variable {pv : Pv} {idx : ℕ} {pprevh v : Option Ref}

@[simp] theorem qlink_setLink : (pv.setLink idx pprevh v).qlink = pv.qlink := by cases pprevh <;> rfl

@[simp] theorem va_setLink : (pv.setLink idx pprevh v).va = pv.va := by cases pprevh <;> rfl

@[simp] theorem pmap_setLink : (pv.setLink idx pprevh v).pmap = pv.pmap := by cases pprevh <;> rfl

@[simp] theorem ppn_setLink : (pv.setLink idx pprevh v).ppn = pv.ppn := by cases pprevh <;> rfl

@[simp] theorem free_setLink : (pv.setLink idx pprevh v).free = pv.free := by cases pprevh <;> rfl

@[simp] theorem freeCount_setLink : (pv.setLink idx pprevh v).freeCount = pv.freeCount := by cases pprevh <;> rfl

@[simp] theorem zone_setLink : (pv.setLink idx pprevh v).zone = pv.zone := by cases pprevh <;> rfl

theorem setLink_qlink (q : Links Ref) :
    { pv with qlink := q }.setLink idx pprevh v = { pv.setLink idx pprevh v with qlink := q } := by
  cases pprevh <;> rfl

end

section
variable {nexth : Ref → Option Ref} {found : Ref → Bool} {pprevh cur : Option Ref} {l l₁ l₂ : List Ref} {e : Ref}

theorem scan_eq {fuel : ℕ} (h : Seg nexth cur (l₁ ++ e :: l₂) none) (hfuel : l₁.length < fuel)
    (hno : ∀ r ∈ l₁, found r = false) (he : found e = true) :
    scan nexth found fuel pprevh cur = .ok (some (l₁.getLast?.or pprevh, e)) := by
  induction l₁ generalizing fuel pprevh cur with
  | nil =>
    obtain ⟨rfl, -⟩ := h
    obtain ⟨fuel, rfl⟩ : ∃ k, fuel = k + 1 := ⟨fuel - 1, by simp at hfuel; omega⟩
    simp [scan, he]
  | cons a l ih =>
    obtain ⟨rfl, h⟩ := h
    obtain ⟨fuel, rfl⟩ : ∃ k, fuel = k + 1 := ⟨fuel - 1, by simp at hfuel; omega⟩
    have ha := hno a List.mem_cons_self
    rw [scan, if_neg (by simp [ha]), ih h (by simpa using hfuel) fun r hr =>
      hno r (List.mem_cons_of_mem a hr)]
    cases l.eq_nil_or_concat with
    | inl hl => simp [hl]
    | inr hl =>
      obtain ⟨k, b, rfl⟩ := hl
      simp [List.getLast?_cons]

/-- What the loops over a hash chain find is on it. -/
theorem scan_mem {l : List Ref} {fuel : ℕ} {pprevh cur q : Option Ref} {e : Ref} (hseg : Seg nexth cur l none)
    (h : scan nexth found fuel pprevh cur = .ok (some (q, e))) : e ∈ l ∧ found e = true := by
  induction l generalizing fuel pprevh cur with
  | nil =>
    obtain rfl : cur = none := hseg
    cases fuel <;> simp [scan] at h
  | cons a l ih =>
    obtain ⟨rfl, hseg⟩ := hseg
    cases fuel with
    | zero => simp [scan] at h
    | succ fuel =>
      rw [scan] at h
      split_ifs at h with hfound
      · simp only [Except.ok.injEq, Option.some.injEq, Prod.mk.injEq] at h
        obtain ⟨-, rfl⟩ := h
        exact ⟨List.mem_cons_self, hfound⟩
      · obtain ⟨hmem, hf⟩ := ih hseg h
        exact ⟨List.mem_cons_of_mem a hmem, hf⟩

/-- The entry is taken out of its chain, and the other chains stay. -/
theorem seg_setLink {pv : Pv} {chain : ℕ → List Ref} {i : ℕ} (h : ∀ i, Seg pv.nexth (pv.hashTable i) (chain i) none)
    (hdisj : ∀ i j r, r ∈ chain i → r ∈ chain j → i = j) (hi : chain i = l₁ ++ e :: l₂) (j : ℕ) :
    Seg (pv.setLink i l₁.getLast? (pv.nexth e)).nexth ((pv.setLink i l₁.getLast? (pv.nexth e)).hashTable j)
      (Function.update chain i (l₁ ++ l₂) j) none := by
  have hseg := h i
  rw [hi] at hseg
  cases l₁.eq_nil_or_concat with
  | inl hl =>
    subst hl
    simp only [setLink, List.getLast?_nil, List.nil_append]
    by_cases hj : j = i
    · subst hj
      rw [Function.update_self, Function.update_self]
      exact hseg.2
    · rw [Function.update_of_ne hj, Function.update_of_ne hj]
      exact h j
  | inr hl =>
    obtain ⟨l, a, rfl⟩ := hl
    simp only [setLink, List.getLast?_concat, List.concat_eq_append]
    have ha : a ∈ chain i := by simp [hi]
    by_cases hj : j = i
    · subst hj
      rw [List.concat_eq_append, List.append_assoc, List.singleton_append] at hseg
      rw [Function.update_self, List.append_assoc, List.singleton_append]
      have hnodup := hseg.nodup
      have hal : a ∉ l₂ := by
        rw [List.nodup_append] at hnodup
        have := hnodup.2.1
        simp only [List.nodup_cons, List.mem_cons, not_or] at this
        exact this.1.2
      have htail : Seg pv.nexth (pv.nexth e) l₂ none := ((seg_append_cons.1 hseg).2).2
      exact hseg.redirect htail hal
    · rw [Function.update_of_ne hj]
      exact (h j).update_of_notMem (fun haj => hj (hdisj j i a haj ha)) _

end

end Pv

/-! ## What the structure stands for -/

/-- Where an entry is: in the table of all pages, queued to one of these, on a free list, in the
    bunch of a function, in its hand otherwise, or not given out by the zone. -/
inductive Place where
  | root
  | queued (p : Ppn)
  | free (k : FreeList)
  | bunch
  | held
  | outside
deriving DecidableEq

/-- The places of hashed entries that stand for no mapping. -/
def Place.Idle : Place → Prop
  | .free _ | .bunch | .held => True
  | _ => False

/-- The lists, and the pages that had a mapping once. -/
structure Lists where
  queue : Ppn → List Ref
  chain : ℕ → List Ref
  free : FreeList → List Ref
  bunch : List Ref
  place : Ref → Place
  ringed : Ppn → Prop

namespace Lists

/-- `e` is queued to `p`, and put on the hash chain `i`. -/
def enqueue (L : Lists) (p : Ppn) (i : ℕ) (e : Ref) : Lists :=
  { L with
    queue := Function.update L.queue p (e :: L.queue p)
    chain := Function.update L.chain i (e :: L.chain i)
    place := Function.update L.place e (.queued p) }

/-- `e` is taken from the queue of `p` and the hash chain `i`. -/
def dequeue (L : Lists) (p : Ppn) (i : ℕ) (e : Ref) : Lists :=
  { L with
    queue := Function.update L.queue p ((L.queue p).erase e)
    chain := Function.update L.chain i ((L.chain i).erase e)
    place := Function.update L.place e .held }

/-- `e` comes to the place `X`, from where it is on no queue. -/
def move (L : Lists) (e : Ref) (X : Place) : Lists := { L with place := Function.update L.place e X }

/-- The bunch is put on a free list. -/
def release (L : Lists) (k : FreeList) : Lists :=
  { L with
    free := Function.update L.free k (L.bunch ++ L.free k)
    bunch := []
    place := fun r => if L.place r = .bunch then .free k else L.place r }

end Lists

section
variable {place : Ref → Place} {e r : Ref} {X Y : Place}

/-! An entry changes its place from `place e` to `Y`: what is at `X` then. -/

theorem update_place_eq (hold : place e ≠ X) (hnew : Y ≠ X) : Function.update place e Y r = X ↔ place r = X := by
  by_cases hr : r = e
  · rw [hr, Function.update_self]
    exact iff_of_false hnew hold
  · rw [Function.update_of_ne hr]

theorem update_place_eq_new : Function.update place e X r = X ↔ r = e ∨ place r = X := by
  by_cases hr : r = e <;> simp [hr]

theorem update_place_eq_old (hnew : Y ≠ X) : Function.update place e Y r = X ↔ r ≠ e ∧ place r = X := by
  by_cases hr : r = e <;> simp [hr, hnew]

end

theorem place_dequeue {L : Lists} {p : Ppn} {i : ℕ} {e : Ref} (r : Ref) :
    (L.dequeue p i e).place r = .held ↔ L.place r = .held ∨ some e = some r := by
  rw [Lists.dequeue, update_place_eq_new, Option.some_inj, or_comm, eq_comm (a := r)]

/-- The structure `pv`, with the bunch `b`, is made of the lists `L`. -/
structure Pv.Rep (c : Machine) (pv : Pv) (b : Bunch) (L : Lists) : Prop where
  root : ∀ r, L.place r = .root ↔ ∃ p, r = .rooted p
  outside : ∀ r, L.place r = .outside ↔ ∃ e, r = .hashed e ∧ pv.zone ≤ e
  mem_queue : ∀ p r, r ∈ L.queue p ↔ L.place r = .queued p
  mem_free : ∀ k r, r ∈ L.free k ↔ L.place r = .free k
  mem_bunch : ∀ r, r ∈ L.bunch ↔ L.place r = .bunch
  ring : ∀ p, L.ringed p → Ring pv.qlink (.rooted p) (L.queue p)
  blank : ∀ p, ¬ L.ringed p → L.queue p = [] ∧ pv.pmap (.rooted p) = 0
  queued : ∀ p r, L.place r = .queued p → pv.ppn r = p ∧ pv.pmap r ≠ 0
  chain : ∀ i, Seg pv.nexth (pv.hashTable i) (L.chain i) none
  mem_chain : ∀ i r, r ∈ L.chain i ↔ (∃ p, L.place r = .queued p) ∧ pvhashidx c (pv.pmap r) (pv.va r) = i
  free : ∀ k, Seg pv.qlink.next (pv.free k) (L.free k) none
  freeCount : ∀ k, pv.freeCount k = (L.free k).length
  bunch : Seg pv.qlink.next b.head L.bunch none
  tail : b.tail = L.bunch.getLast?
  count : b.count = L.bunch.length

namespace Pv.Rep

section
variable {c : Machine} {pv : Pv} {b : Bunch} {L : Lists} {p p' : Ppn} {e r : Ref} {q : Links Ref}

theorem place_rooted (h : pv.Rep c b L) (p : Ppn) : L.place (.rooted p) = .root := (h.root _).2 ⟨p, rfl⟩

theorem ringed_of_queued (h : pv.Rep c b L) (he : L.place e = .queued p) : L.ringed p := by
  by_contra hr
  have := (h.mem_queue p e).2 he
  rw [(h.blank p hr).1] at this
  simp at this

theorem ringed_of_named (h : pv.Rep c b L) (hp : pv.pmap (.rooted p) ≠ 0) : L.ringed p := by
  by_contra hr
  exact hp (h.blank p hr).2

theorem chain_disjoint (h : pv.Rep c b L) (i j : ℕ) (r : Ref) (hi : r ∈ L.chain i) (hj : r ∈ L.chain j) : i = j :=
  ((h.mem_chain i r).1 hi).2.symm.trans ((h.mem_chain j r).1 hj).2

/-- The queues of other pages and the free lists do not notice changes to the links of one queue and
    the entries in hand. -/
theorem agree (h : pv.Rep c b L) (hq : ∀ k, (∀ a ∈ k, a ≠ .rooted p ∧ L.place a ≠ .queued p ∧ L.place a ≠ .held) →
    pv.qlink.Agree q k) :
    (∀ p', p' ≠ p → L.ringed p' → Ring q (.rooted p') (L.queue p')) ∧
      (∀ k, Seg q.next (pv.free k) (L.free k) none) ∧ Seg q.next b.head L.bunch none := by
  refine ⟨fun p' hp' hr => (h.ring p' hr).congr (hq _ ?_), fun k => (h.free k).congr fun a ha =>
    (hq (L.free k) ?_ a ha).1,
    h.bunch.congr fun a ha => (hq L.bunch ?_ a ha).1⟩
  · intro a ha
    rcases List.mem_cons.1 ha with rfl | ha
    · rw [h.place_rooted]
      exact ⟨fun heq => hp' (Ref.rooted.inj heq), by simp, by simp⟩
    · have hplace := (h.mem_queue p' a).1 ha
      refine ⟨?_, by simp [hplace, hp'], by simp [hplace]⟩
      rintro rfl
      simp [h.place_rooted] at hplace
  · intro a ha
    have hplace := (h.mem_free k a).1 ha
    refine ⟨?_, by simp [hplace], by simp [hplace]⟩
    rintro rfl
    simp [h.place_rooted] at hplace
  · intro a ha
    have hplace := (h.mem_bunch a).1 ha
    refine ⟨?_, by simp [hplace], by simp [hplace]⟩
    rintro rfl
    simp [h.place_rooted] at hplace

/-- **`pv_hash_add`** queues an entry from hand. -/
theorem pvHashAdd (h : pv.Rep c b L) (he : L.place e = .held) (hp : L.ringed p) (hpmap : pv.pmap e ≠ 0)
    (hppn : pv.ppn e = p) : ∃ pv', Pmap.pvHashAdd c e (.rooted p) pv = .ok pv' ∧
      pv'.Rep c b (L.enqueue p (pvhashidx c (pv.pmap e) (pv.va e)) e) ∧ pv'.va = pv.va ∧ pv'.pmap = pv.pmap ∧
      pv'.zone = pv.zone := by
  have hmem : ∀ a ∈ Ref.rooted p :: L.queue p, L.place a = .root ∨ L.place a = .queued p := by
    intro a ha
    rcases List.mem_cons.1 ha with rfl | ha
    · exact .inl (h.place_rooted p)
    · exact .inr ((h.mem_queue p a).1 ha)
  have hnot : e ∉ Ref.rooted p :: L.queue p := by
    intro hmem'
    have := hmem e hmem'
    rw [he] at this
    simp at this
  obtain ⟨q, hins, hring, hagree⟩ := (h.ring p hp).insque hnot
  obtain ⟨hrings, hfree, hbunch⟩ := h.agree (p := p) (q := q) fun k hk => hagree k
    (fun hek => (hk e hek).2.2 he) fun a ha hak => by
      rcases List.mem_cons.1 ha with rfl | ha
      · exact (hk _ hak).1 rfl
      · exact (hk a hak).2.1 ((h.mem_queue p a).1 ha)
  have hchain : ∀ i, e ∉ L.chain i := by
    intro i hi
    obtain ⟨⟨p', hp'⟩, -⟩ := (h.mem_chain i e).1 hi
    rw [he] at hp'
    simp at hp'
  generalize hidx : pvhashidx c (pv.pmap e) (pv.va e) = i
  let pv' : Pv := { pv with
    qlink := q
    nexth := Function.update pv.nexth e (pv.hashTable i)
    hashTable := Function.update pv.hashTable i (some e) }
  have hadd : Pmap.pvHashAdd c e (.rooted p) pv = .ok pv' := by
    simp only [Pmap.pvHashAdd, Pv.insque, hins, Bind.bind, Except.bind, hidx]
    rfl
  refine ⟨pv', hadd, ?_, rfl, rfl, rfl⟩
  exact
    { root := fun r => (update_place_eq (by simp [he]) (by simp)).trans (h.root r)
      outside := fun r => (update_place_eq (by simp [he]) (by simp)).trans (h.outside r)
      mem_queue := fun p' r => by
        simp only [Lists.enqueue]
        by_cases hp' : p' = p
        · rw [hp', Function.update_self, update_place_eq_new, List.mem_cons, h.mem_queue]
        · rw [Function.update_of_ne hp', h.mem_queue,
            update_place_eq (by simp [he]) (by simpa using Ne.symm hp')]
      mem_free := fun k r => (h.mem_free k r).trans (update_place_eq (by simp [he]) (by simp)).symm
      mem_bunch := fun r => (h.mem_bunch r).trans (update_place_eq (by simp [he]) (by simp)).symm
      ring := fun p' hp' => by
        simp only [Lists.enqueue, Function.update_apply]
        split_ifs with heq
        · exact heq ▸ hring
        · exact hrings p' heq hp'
      blank := fun p' hp' => by
        have hne : p' ≠ p := fun heq => hp' (heq ▸ hp)
        simp only [Lists.enqueue, Function.update_of_ne hne]
        exact h.blank p' hp'
      queued := fun p' r hr => by
        by_cases hre : r = e
        · subst hre
          obtain rfl : p = p' := by simpa [Lists.enqueue] using hr
          exact ⟨hppn, hpmap⟩
        · exact h.queued p' r (by simpa [Lists.enqueue, hre] using hr)
      chain := fun j => by
        simp only [Lists.enqueue, pv']
        by_cases hj : j = i
        · subst hj
          rw [Function.update_self, Function.update_self]
          refine ⟨rfl, ?_⟩
          rw [Function.update_self]
          exact (h.chain j).update_of_notMem (hchain j) _
        · rw [Function.update_of_ne hj, Function.update_of_ne hj]
          exact (h.chain j).update_of_notMem (hchain j) _
      mem_chain := fun j r => by
        simp only [Lists.enqueue, pv']
        by_cases hre : r = e
        · subst hre
          rw [hidx, Function.update_self]
          by_cases hj : j = i
          · simp [hj]
          · rw [Function.update_of_ne hj]
            exact iff_of_false (hchain j) fun hand => hj hand.2.symm
        · rw [Function.update_of_ne hre, ← h.mem_chain]
          by_cases hj : j = i
          · simp [hj, hre]
          · rw [Function.update_of_ne hj]
      free := hfree
      freeCount := h.freeCount
      bunch := hbunch
      tail := h.tail
      count := h.count }

/-- There are no more queued entries than the zone gave out. -/
theorem length_le_of_queued (h : pv.Rep c b L) {l : List Ref} (hnodup : l.Nodup)
    (hl : ∀ r ∈ l, ∃ p, L.place r = .queued p) : l.length ≤ pv.zone := by
  have hsub : l ⊆ (List.range pv.zone).map Ref.hashed := by
    intro r hr
    obtain ⟨p, hp⟩ := hl r hr
    cases r with
    | rooted p' => simp [h.place_rooted] at hp
    | hashed e =>
      have : ¬ pv.zone ≤ e := by
        intro hle
        rw [(h.outside _).2 ⟨e, rfl, hle⟩] at hp
        simp at hp
      simpa using this
  have := (List.subperm_of_subset hnodup hsub).length_le
  simpa using this

theorem length_chain_le (h : pv.Rep c b L) (i : ℕ) : (L.chain i).length ≤ pv.zone :=
  h.length_le_of_queued (h.chain i).nodup fun r hr => ((h.mem_chain i r).1 hr).1

/-- The loops over the chain of an entry find it, by what tells it from the others there. -/
theorem scan (h : pv.Rep c b L) (found : Ref → Bool) {i : ℕ} {l₁ l₂ : List Ref} (hi : L.chain i = l₁ ++ e :: l₂)
    (he : found e = true) (huniq : ∀ r ∈ L.chain i, found r = true → r = e) :
    Pv.scan pv.nexth found (pv.zone + 1) none (pv.hashTable i) = .ok (some (l₁.getLast?, e)) := by
  have hseg := h.chain i
  have hlen := h.length_chain_le i
  rw [hi] at hseg hlen
  have hnodup := hseg.nodup
  rw [scan_eq hseg ?_ ?_ he, Option.or_none]
  · simp only [List.length_append, List.length_cons] at hlen
    omega
  · intro r hr
    by_contra hfound
    obtain rfl := huniq r (by simp [hi, hr]) (by simpa using hfound)
    rw [List.nodup_append] at hnodup
    exact hnodup.2.2 r hr r List.mem_cons_self rfl

/-- An entry is taken out of its queue and its chain, into the hand. -/
theorem dequeue (h : pv.Rep c b L) (he : L.place e = .queued p) {i : ℕ}
    (hidx : pvhashidx c (pv.pmap e) (pv.va e) = i) : ∃ q k₁ k₂, pv.qlink.remque e = some q ∧
      L.chain i = k₁ ++ e :: k₂ ∧
      Rep c { pv.setLink i k₁.getLast? (pv.nexth e) with qlink := q } b (L.dequeue p i e) := by
  have hp := h.ringed_of_queued he
  have hring := h.ring p hp
  have hmem : e ∈ L.queue p := (h.mem_queue p e).2 he
  have hqueue : (L.queue p).Nodup := (List.nodup_cons.1 hring.nodup).2
  have hchain : e ∈ L.chain i := (h.mem_chain i e).2 ⟨⟨p, he⟩, hidx⟩
  have hchainNodup := (h.chain i).nodup
  obtain ⟨l₁, l₂, hl⟩ := List.append_of_mem hmem
  obtain ⟨k₁, k₂, hk⟩ := List.append_of_mem hchain
  have hle : (L.queue p).erase e = l₁ ++ l₂ := by
    have hnot : e ∉ l₁ := by
      rw [hl, List.nodup_append] at hqueue
      exact fun hin => hqueue.2.2 e hin e List.mem_cons_self rfl
    rw [hl, List.erase_append_right _ hnot, List.erase_cons_head]
  have hke : (L.chain i).erase e = k₁ ++ k₂ := by
    have hnot : e ∉ k₁ := by
      rw [hk, List.nodup_append] at hchainNodup
      exact fun hin => hchainNodup.2.2 e hin e List.mem_cons_self rfl
    rw [hk, List.erase_append_right _ hnot, List.erase_cons_head]
  have hring' := hring
  rw [hl] at hring'
  obtain ⟨q, hrem, hringq, hagree⟩ := hring'.remque
  obtain ⟨hrings, hfree, hbunch⟩ := h.agree (p := p) (q := q) fun k hk => hagree k fun a ha hak => by
    rw [← hl] at ha
    rcases List.mem_cons.1 ha with rfl | ha
    · exact (hk _ hak).1 rfl
    · exact (hk a hak).2.1 ((h.mem_queue p a).1 ha)
  have hseg := seg_setLink h.chain h.chain_disjoint hk
  refine ⟨q, k₁, k₂, hrem, hk, ?_⟩
  exact
    { root := fun r => (update_place_eq (by simp [he]) (by simp)).trans (h.root r)
      outside := fun r => by
        rw [zone_setLink]
        exact (update_place_eq (by simp [he]) (by simp)).trans (h.outside r)
      mem_queue := fun p' r => by
        simp only [Lists.dequeue]
        by_cases hp' : p' = p
        · rw [hp', Function.update_self, update_place_eq_old (by simp), hqueue.mem_erase_iff,
            h.mem_queue]
        · rw [Function.update_of_ne hp', h.mem_queue,
            update_place_eq (by simpa [he] using Ne.symm hp') (by simp)]
      mem_free := fun k r => (h.mem_free k r).trans (update_place_eq (by simp [he]) (by simp)).symm
      mem_bunch := fun r => (h.mem_bunch r).trans (update_place_eq (by simp [he]) (by simp)).symm
      ring := fun p' hp' => by
        simp only [Lists.dequeue, Function.update_apply]
        split_ifs with heq
        · rw [heq, hle]
          exact hringq
        · exact hrings p' heq hp'
      blank := fun p' hp' => by
        have hne : p' ≠ p := fun heq => hp' (heq ▸ hp)
        simp only [Lists.dequeue, Function.update_of_ne hne, pmap_setLink]
        exact h.blank p' hp'
      queued := fun p' r hr => by
        rw [ppn_setLink, pmap_setLink]
        exact h.queued p' r ((update_place_eq_old (by simp)).1 hr).2
      chain := fun j => by
        have := hseg j
        simp only [Lists.dequeue, hke]
        exact this
      mem_chain := fun j r => by
        simp only [Lists.dequeue, pmap_setLink, va_setLink]
        have hplace : (∃ p', Function.update L.place e .held r = .queued p') ↔ r ≠ e ∧
            ∃ p', L.place r = .queued p' := by
          by_cases hre : r = e <;> simp [hre]
        rw [hplace, and_assoc, ← h.mem_chain]
        by_cases hj : j = i
        · rw [hj, Function.update_self, hchainNodup.mem_erase_iff]
        · rw [Function.update_of_ne hj]
          refine (and_iff_right_of_imp fun hr => ?_).symm
          rintro rfl
          exact hj (h.chain_disjoint j i _ hr hchain)
      free := by
        rw [free_setLink]
        exact hfree
      freeCount := by
        rw [freeCount_setLink]
        exact h.freeCount
      bunch := hbunch
      tail := h.tail
      count := h.count }

/-- **`pv_hash_remove`** -/
theorem pvHashRemove (h : pv.Rep c b L) (he : L.place e = .queued p) {i : ℕ}
    (hidx : pvhashidx c (pv.pmap e) (pv.va e) = i) : ∃ pv', Pmap.pvHashRemove c e pv = .ok pv' ∧
      pv'.Rep c b (L.dequeue p i e) ∧ pv'.va = pv.va ∧ pv'.pmap = pv.pmap ∧ pv'.zone = pv.zone := by
  obtain ⟨q, k₁, k₂, hrem, hk, hrep⟩ := h.dequeue he hidx
  have hscan := h.scan (fun r => r == e) hk (by simp) (by simp)
  refine ⟨_, ?_, hrep, by simp, by simp, by simp⟩
  simp only [Pmap.pvHashRemove, Pv.remque, hrem, Bind.bind, Except.bind, pmapPvhUnlink, hidx, hscan,
    setLink_qlink]

/-! ### Entries in hand -/

/-- Where the link of an entry in hand leads does not matter. -/
theorem agree_of_held (h : pv.Rep c b L) (he : L.place e = .held) (v : Option Ref) :
    (∀ p', L.ringed p' → Ring { pv.qlink with next := Function.update pv.qlink.next e v } (.rooted p') (L.queue p')) ∧
      (∀ k, Seg (Function.update pv.qlink.next e v) (pv.free k) (L.free k) none) ∧
      Seg (Function.update pv.qlink.next e v) b.head L.bunch none := by
  refine ⟨fun p' hr => (h.ring p' hr).congr fun a ha => ?_, fun k => (h.free k).update_of_notMem ?_ v,
    h.bunch.update_of_notMem ?_ v⟩
  · have hae : a ≠ e := by
      rintro rfl
      rcases List.mem_cons.1 ha with rfl | ha
      · simp [h.place_rooted] at he
      · simp [(h.mem_queue p' a).1 ha] at he
    simp [hae]
  · rw [h.mem_free, he]
    simp
  · rw [h.mem_bunch, he]
    simp

/-- Changes to the free lists and the bunch alone. -/
theorem idle {pv' : Pv} {b' : Bunch} {L' : Lists} (h : pv.Rep c b L)
    (hpv : pv' = { pv with qlink := pv'.qlink, free := pv'.free, freeCount := pv'.freeCount })
    (hL : L' = { L with free := L'.free, bunch := L'.bunch, place := L'.place })
    (hplace : ∀ r, L'.place r = L.place r ∨ (L'.place r).Idle ∧ (L.place r).Idle)
    (hring : ∀ p, L.ringed p → Ring pv'.qlink (.rooted p) (L.queue p))
    (hmem_free : ∀ k r, r ∈ L'.free k ↔ L'.place r = .free k) (hmem_bunch : ∀ r, r ∈ L'.bunch ↔ L'.place r = .bunch)
    (hfree : ∀ k, Seg pv'.qlink.next (pv'.free k) (L'.free k) none)
    (hcount : ∀ k, pv'.freeCount k = (L'.free k).length)
    (hbunch : Seg pv'.qlink.next b'.head L'.bunch none) (htail : b'.tail = L'.bunch.getLast?)
    (hbcount : b'.count = L'.bunch.length) : pv'.Rep c b' L' := by
  have heq : ∀ r X, ¬ X.Idle → (L'.place r = X ↔ L.place r = X) := by
    intro r X hX
    rcases hplace r with hr | ⟨hr', hr⟩
    · rw [hr]
    · exact iff_of_false (fun h => hX (h ▸ hr')) fun h => hX (h ▸ hr)
  have hqueued : ∀ r, (∃ p, L'.place r = .queued p) ↔ ∃ p, L.place r = .queued p :=
    fun r => exists_congr fun p => heq r (.queued p) id
  rw [hpv, hL]
  exact
    { root := fun r => (heq r .root id).trans (h.root r)
      outside := fun r => (heq r .outside id).trans (h.outside r)
      mem_queue := fun p r => (h.mem_queue p r).trans (heq r (.queued p) id).symm
      mem_free := hmem_free
      mem_bunch := hmem_bunch
      ring := hring
      blank := h.blank
      queued := fun p r hr => h.queued p r ((heq r (.queued p) id).1 hr)
      chain := h.chain
      mem_chain := fun i r => (h.mem_chain i r).trans (and_congr_left' (hqueued r).symm)
      free := hfree
      freeCount := hcount
      bunch := hbunch
      tail := htail
      count := hbcount }

/-- What `collect` does. -/
theorem collect (h : pv.Rep c b L) (he : L.place e = .held) :
    (pv.collect e b).2.Rep c (pv.collect e b).1 { L.move e .bunch with bunch := e :: L.bunch } := by
  obtain ⟨hring, hfree, hbunch⟩ := h.agree_of_held he b.head
  refine h.idle rfl rfl (fun r => ?_) hring (fun k r => ?_) (fun r => ?_) hfree h.freeCount
    ⟨rfl, ?_⟩ ?_ ?_
  · by_cases hr : r = e
    · simp [Lists.move, hr, he, Place.Idle]
    · simp [Lists.move, hr]
  · exact (h.mem_free k r).trans (update_place_eq (by simp [he]) (by simp)).symm
  · rw [List.mem_cons, h.mem_bunch]
    exact update_place_eq_new.symm
  · simp only [Pv.collect, Function.update_self]
    exact hbunch
  · simp only [Pv.collect, h.tail]
    cases L.bunch.eq_nil_or_concat with
    | inl hl => simp [hl]
    | inr hl =>
      obtain ⟨k, a, hl⟩ := hl
      simp [hl, List.getLast?_cons]
  · simp [Pv.collect, h.count]

/-- `PV_HASHED_FREE_LIST` for one entry from hand. -/
theorem freeOne (h : pv.Rep c b L) (he : L.place e = .held) (k : FreeList) :
    (pv.freeList k (some e) e 1).Rep c b
      { L.move e (.free k) with free := Function.update L.free k (e :: L.free k) } := by
  obtain ⟨hring, hfree, hbunch⟩ := h.agree_of_held he (pv.free k)
  refine h.idle rfl rfl (fun r => ?_) hring (fun k' r => ?_) (fun r => ?_) (fun k' => ?_)
    (fun k' => ?_) hbunch h.tail
    h.count
  · by_cases hr : r = e
    · simp [Lists.move, hr, he, Place.Idle]
    · simp [Lists.move, hr]
  · by_cases hk : k' = k
    · simp only [hk, Function.update_self, Lists.move]
      rw [update_place_eq_new, List.mem_cons, h.mem_free]
    · simp only [Function.update_of_ne hk, Lists.move]
      rw [h.mem_free, update_place_eq (by simp [he]) (by simpa using Ne.symm hk)]
  · exact (h.mem_bunch r).trans (update_place_eq (by simp [he]) (by simp)).symm
  · by_cases hk : k' = k
    · subst hk
      simp only [freeList, Function.update_self]
      refine ⟨rfl, ?_⟩
      rw [Function.update_self]
      exact hfree k'
    · simp only [freeList, Function.update_of_ne hk]
      exact hfree k'
  · by_cases hk : k' = k
    · simp [freeList, hk, h.freeCount]
    · simp [freeList, hk, h.freeCount]

/-- The bunch is put on a free list, if there is any. -/
theorem freeBunch (h : pv.Rep c b L) (k : FreeList) : (pv.freeBunch k b).Rep c Bunch.empty (L.release k) := by
  have hplace : ∀ r, (L.release k).place r = L.place r ∨ ((L.release k).place r).Idle ∧
      (L.place r).Idle := by
    intro r
    by_cases hr : L.place r = .bunch <;> simp [Lists.release, hr, Place.Idle]
  have hmem_free : ∀ k' r, r ∈ (L.release k).free k' ↔ (L.release k).place r = .free k' := by
    intro k' r
    have hb := h.mem_bunch r
    have hk := h.mem_free k' r
    by_cases hkk : k' = k
    · subst hkk
      by_cases hr : L.place r = .bunch <;> simp_all [Lists.release]
    · by_cases hr : L.place r = .bunch <;> simp_all [Lists.release, Ne.symm hkk]
  have hmem_bunch : ∀ r, r ∈ (L.release k).bunch ↔ (L.release k).place r = .bunch := by
    intro r
    by_cases hr : L.place r = .bunch <;> simp [Lists.release, hr]
  cases L.bunch.eq_nil_or_concat with
  | inl hl =>
    have hhead : b.head = none := by
      have := h.bunch
      rw [hl] at this
      exact this
    have hfree : (L.release k).free = L.free := by
      funext k'
      by_cases hkk : k' = k <;> simp [Lists.release, hl, hkk]
    have hpv : pv.freeBunch k b = pv := by simp [Pv.freeBunch, hhead]
    rw [hpv]
    refine h.idle rfl rfl hplace h.ring hmem_free hmem_bunch (fun k' => ?_) (fun k' => ?_) rfl rfl rfl
    · rw [hfree]
      exact h.free k'
    · rw [hfree]
      exact h.freeCount k'
  | inr hl =>
    obtain ⟨l, et, hl⟩ := hl
    rw [List.concat_eq_append] at hl
    have het : L.place et = .bunch := (h.mem_bunch et).1 (by simp [hl])
    have htail : b.tail = some et := by simp [h.tail, hl]
    have hhead : ∃ eh, b.head = some eh := by
      have := h.bunch
      rw [hl] at this
      cases l with
      | nil => exact ⟨et, this.1⟩
      | cons a l => exact ⟨a, this.1⟩
    obtain ⟨eh, hhead⟩ := hhead
    have hpv : pv.freeBunch k b = pv.freeList k (some eh) et b.count := by
      simp [Pv.freeBunch, hhead, htail]
    have hnot : ∀ k, et ∉ L.free k := by
      intro k
      rw [h.mem_free, het]
      simp
    rw [hpv]
    refine h.idle rfl rfl hplace (fun p hp => (h.ring p hp).congr fun a ha => ?_)
      hmem_free hmem_bunch (fun k' => ?_)
      (fun k' => ?_) rfl rfl rfl
    · have hae : a ≠ et := by
        rintro rfl
        rcases List.mem_cons.1 ha with rfl | ha
        · simp [h.place_rooted] at het
        · simp [(h.mem_queue p a).1 ha] at het
      simp [freeList, hae]
    · by_cases hkk : k' = k
      · subst hkk
        have hseg := h.bunch
        rw [hl] at hseg
        have := hseg.redirect (h.free k') (hnot k')
        simp only [freeList, Lists.release, Function.update_self, hl, List.append_assoc,
          List.singleton_append, ← hhead]
        exact this
      · simp only [freeList, Lists.release, Function.update_of_ne hkk]
        exact (h.free k').update_of_notMem (hnot k') _
    · by_cases hkk : k' = k
      · subst hkk
        simp only [freeList, Lists.release, Function.update_self, h.freeCount, h.count,
          List.length_append]
        omega
      · simp only [freeList, Lists.release, Function.update_of_ne hkk]
        exact h.freeCount k'

/-- `PV_HASHED_ALLOC` and `PV_HASHED_KERN_ALLOC` -/
theorem alloc (h : pv.Rep c b L) (k : FreeList) :
    L.free k = [] ∧ pv.alloc k = (none, pv) ∨
      ∃ e l, L.free k = e :: l ∧ (pv.alloc k).1 = some e ∧
        (pv.alloc k).2.Rep c b { L.move e .held with free := Function.update L.free k l } := by
  have hseg := h.free k
  cases hl : L.free k with
  | nil =>
    rw [hl] at hseg
    have hnone : pv.free k = none := hseg
    exact .inl ⟨rfl, by simp [Pv.alloc, hnone]⟩
  | cons e l =>
    rw [hl] at hseg
    obtain ⟨hsome, hrest⟩ := hseg
    have he : L.place e = .free k := (h.mem_free k e).1 (by simp [hl])
    have hnot : e ∉ l := by
      have := (h.free k).nodup
      rw [hl] at this
      exact (List.nodup_cons.1 this).1
    have halloc : pv.alloc k = (some e, { pv with
        free := Function.update pv.free k (pv.qlink.next e)
        freeCount := Function.update pv.freeCount k (pv.freeCount k - 1) }) := by simp [Pv.alloc, hsome]
    refine .inr ⟨e, l, rfl, by rw [halloc], ?_⟩
    rw [halloc]
    refine h.idle rfl rfl (fun r => ?_) h.ring (fun k' r => ?_) (fun r => ?_) (fun k' => ?_)
      (fun k' => ?_) h.bunch
      h.tail h.count
    · by_cases hr : r = e
      · simp [Lists.move, hr, he, Place.Idle]
      · simp [Lists.move, hr]
    · by_cases hk : k' = k
      · simp only [hk, Function.update_self, Lists.move]
        rw [update_place_eq_old (by simp), ← h.mem_free, hl, List.mem_cons]
        by_cases hr : r = e <;> simp [hr, hnot]
      · simp only [Function.update_of_ne hk, Lists.move]
        rw [h.mem_free, update_place_eq (by simpa [he] using Ne.symm hk) (by simp)]
    · exact (h.mem_bunch r).trans (update_place_eq (by simp [he]) (by simp)).symm
    · by_cases hk : k' = k
      · simp only [hk, Function.update_self]
        exact hrest
      · simp only [Function.update_of_ne hk]
        exact h.free k'
    · by_cases hk : k' = k
      · simp [hk, h.freeCount, hl]
      · simp [hk, h.freeCount]

/-- `zalloc` gives an entry that was not in use. -/
theorem zalloc (h : pv.Rep c b L) : pv.zalloc.2.Rep c b (L.move (.hashed pv.zone) .held) := by
  have he : L.place (.hashed pv.zone) = .outside := (h.outside _).2 ⟨pv.zone, rfl, le_rfl⟩
  exact
    { root := fun r => (update_place_eq (by simp [he]) (by simp)).trans (h.root r)
      outside := fun r => by
        refine (update_place_eq_old (by simp)).trans ((and_congr_right' (h.outside r)).trans ?_)
        constructor
        · rintro ⟨hne, e, rfl, hle⟩
          have : e ≠ pv.zone := fun heq => hne (by rw [heq])
          exact ⟨e, rfl, by simp only [Pv.zalloc]; omega⟩
        · rintro ⟨e, rfl, hle⟩
          simp only [Pv.zalloc] at hle
          exact ⟨by simp; omega, e, rfl, by omega⟩
      mem_queue := fun p r => (h.mem_queue p r).trans (update_place_eq (by simp [he]) (by simp)).symm
      mem_free := fun k r => (h.mem_free k r).trans (update_place_eq (by simp [he]) (by simp)).symm
      mem_bunch := fun r => (h.mem_bunch r).trans (update_place_eq (by simp [he]) (by simp)).symm
      ring := h.ring
      blank := h.blank
      queued := fun p r hr => h.queued p r ((update_place_eq (by simp [he]) (by simp)).1 hr)
      chain := h.chain
      mem_chain := fun i r => (h.mem_chain i r).trans
        (and_congr_left' (exists_congr fun p => (update_place_eq (by simp [he]) (by simp)).symm))
      free := h.free
      freeCount := h.freeCount
      bunch := h.bunch
      tail := h.tail
      count := h.count }

/-- What is written to a root that is in use, or to an entry in hand, is on no list. -/
theorem setPair (h : pv.Rep c b L) (he : ∀ p, L.place e ≠ .queued p) (hroot : ∀ p, e = .rooted p → L.ringed p)
    (m va : ℕ) : (pv.setPair e m va).Rep c b L := by
  have hne : ∀ {r p}, L.place r = .queued p → r ≠ e := by
    rintro r p hr rfl
    exact he p hr
  exact
    { h with
      blank := fun p hp => by
        refine ⟨(h.blank p hp).1, ?_⟩
        have : Ref.rooted p ≠ e := fun heq => hp (hroot p heq.symm)
        simpa [Pv.setPair, this] using (h.blank p hp).2
      queued := fun p r hr => by
        simp only [Pv.setPair, Function.update_of_ne (hne hr)]
        exact h.queued p r hr
      mem_chain := fun i r => by
        rw [h.mem_chain]
        refine and_congr_right fun ⟨p, hr⟩ => ?_
        simp only [Pv.setPair, Function.update_of_ne (hne hr)] }

/-- `pv_h->pmap = PMAP_NULL` -/
theorem clearRoot (h : pv.Rep c b L) (hp : L.ringed p) :
    Rep c { pv with pmap := Function.update pv.pmap (.rooted p) 0 } b L := by
  have := h.setPair (e := .rooted p) (by simp [h.place_rooted])
    (fun p' hp' => Ref.rooted.inj hp' ▸ hp) 0 (pv.va (.rooted p))
  rwa [Pv.setPair, Function.update_eq_self] at this

theorem setPpn (h : pv.Rep c b L) (he : L.place e = .held) (p : Ppn) :
    Rep c { pv with ppn := Function.update pv.ppn e p } b L :=
  { h with
    queued := fun p' r hr => by
      have hne : r ≠ e := by
        rintro rfl
        rw [he] at hr
        simp at hr
      simp only [Function.update_of_ne hne]
      exact h.queued p' r hr }

/-- `queue_init` of a root that has nothing queued. -/
theorem queueInit (h : pv.Rep c b L) (hp : L.queue p = []) :
    Rep c { pv with qlink := pv.qlink.queueInit (.rooted p) } b { L with ringed := fun p' => p' = p ∨ L.ringed p' } := by
  have hagree : ∀ k, (∀ a ∈ k, a ≠ .rooted p ∧ L.place a ≠ .queued p ∧ L.place a ≠ .held) →
      pv.qlink.Agree (pv.qlink.queueInit (.rooted p)) k :=
    fun k hk => Links.agree_queueInit fun hmem => (hk _ hmem).1 rfl
  obtain ⟨hrings, hfree, hbunch⟩ := h.agree hagree
  exact
    { h with
      ring := fun p' hp' => by
        by_cases heq : p' = p
        · rw [heq]
          simp only [hp]
          exact Ring.queueInit _ _
        · exact hrings p' heq (hp'.resolve_left heq)
      blank := fun p' hp' => h.blank p' fun hr => hp' (.inr hr)
      free := hfree
      bunch := hbunch }

end

end Pv.Rep

end PocketDarwin.Pmap
