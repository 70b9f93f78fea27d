/-
  The operations of the ARM pmap (`pmap.c`) after `pmap_init`, on the page tables, the
  physical-to-virtual lists, the attributes of the pages and the counts of the pmaps.

  Locks and the flushing of TLBs are left out; counts and ledgers are integers.  What the
  environment gives is an argument: the page that `vm_page_grab` returns, the place that
  a new pmap is allocated at, the pmap that is active when an address is translated.

  A function ends in a new state or in a `Stop`; `step` is one call, and nothing follows
  on a stop.
-/
import PocketDarwin.Pmap.PvNames

namespace PocketDarwin.Pmap

/-- `pm_stats`, and the credits less the debits of two ledgers. -/
structure Stats where
  residentCount : ℤ
  wiredCount : ℤ
  physMem : ℤ
  wiredMem : ℤ
deriving DecidableEq

/-- The flags of the rooted entries are apart, as no list goes through them. -/
structure State where
  tables : Tables
  pv : Pv
  flags : Ppn → BitVec 32
  stats : ℕ → Stats

/-- `PMAP_OSPTE_TYPE_WIRED` -/
def typeWired : BitVec 32 := 0x1

/-- `PMAP_OSPTE_TYPE_REFERENCED` -/
def typeReferenced : BitVec 32 := 0x2

/-- `PMAP_OSPTE_TYPE_MODIFIED` -/
def typeModified : BitVec 32 := 0x4

/-- `PMAP_OSPTE_TYPE_NOENCRYPT` -/
def typeNoencrypt : BitVec 32 := 0x8

/-- `PMAP_OSPTE_TYPE_NOCACHE` -/
def typeNocache : BitVec 32 := 0x10

/-- `PAGE_SIZE` -/
def pageSize : ℤ := 0x1000

namespace State

/-- The counts of a pmap are changed. -/
def count (s : State) (m : ℕ) (f : Stats → Stats) : State :=
  { s with stats := Function.update s.stats m (f (s.stats m)) }

/-- `*pte = w` -/
def set (s : State) (loc : Block × ℕ) (w : Word) : State := { s with tables := s.tables.set loc w }

/-- `PV_HASHED_FREE_LIST(pvh_e, pvh_e, 1)`, if there is one. -/
def free (k : FreeList) (o : Option Ref) (s : State) : State :=
  match o with
  | none => s
  | some e => { s with pv := s.pv.freeList k (some e) e 1 }

end State

/-! ## Attributes of pages -/

section
variable (c : Machine)

/-- `phys_attribute_clear` -/
def physAttributeClear (pn : Ppn) (bits : BitVec 32) (s : State) : Except Stop State := do
  let _ ← paiToPvh c pn
  .ok { s with flags := Function.update s.flags pn (s.flags pn &&& ~~~bits) }

/-- `phys_attribute_test` -/
def physAttributeTest (pn : Ppn) (bits : BitVec 32) (s : State) : Except Stop (BitVec 32) := do
  let _ ← paiToPvh c pn
  .ok (s.flags pn &&& bits)

/-- `phys_attribute_set` -/
def physAttributeSet (pn : Ppn) (bits : BitVec 32) (s : State) : Except Stop State := do
  let _ ← paiToPvh c pn
  .ok { s with flags := Function.update s.flags pn (s.flags pn ||| bits) }

/-- `pmap_set_modify` -/
def pmapSetModify (pn : Ppn) (s : State) : Except Stop State := physAttributeSet c pn typeModified s

/-- `pmap_clear_modify` -/
def pmapClearModify (pn : Ppn) (s : State) : Except Stop State := physAttributeClear c pn typeModified s

/-- `pmap_set_reference` -/
def pmapSetReference (pn : Ppn) (s : State) : Except Stop State := physAttributeSet c pn typeReferenced s

/-- `pmap_clear_reference` -/
def pmapClearReference (pn : Ppn) (s : State) : Except Stop State := physAttributeClear c pn typeReferenced s

/-- `pmap_clear_refmod`, which takes the mask as it is. -/
def pmapClearRefmod (pn : Ppn) (mask : BitVec 32) (s : State) : Except Stop State := physAttributeClear c pn mask s

/-- `pmap_is_modified` -/
def pmapIsModified (pn : Ppn) (s : State) : Except Stop Bool := do
  let bits ← physAttributeTest c pn typeModified s
  .ok (bits != 0)

/-- `pmap_get_refmod`, in the bits `VM_MEM_MODIFIED` and `VM_MEM_REFERENCED`. -/
def pmapGetRefmod (pn : Ppn) (s : State) : Except Stop (BitVec 32) := do
  let refmod ← physAttributeTest c pn (typeModified ||| typeReferenced) s
  let retval := if refmod &&& typeModified ≠ 0 then 0x1 else 0
  .ok (if refmod &&& typeReferenced ≠ 0 then retval ||| 0x2 else retval)

/-- `pmap_get_cache_attributes` -/
def pmapGetCacheAttributes (pn : Ppn) (s : State) : Word :=
  if ¬ c.Managed pn then 0
  else if s.flags pn &&& typeNocache ≠ 0 then 0
  else writeThrough

/-- `VM_WIMG_IO` -/
def vmWimgIo : BitVec 32 := 0x7

/-- `VM_WIMG_COPYBACK` -/
def vmWimgCopyback : BitVec 32 := 0x2

/-- `VM_WIMG_WCOMB` -/
def vmWimgWcomb : BitVec 32 := 0x6

/-- `VM_WIMG_WTHRU` -/
def vmWimgWthru : BitVec 32 := 0xb

/-- `VM_MEM_NOT_CACHEABLE` -/
def vmMemNotCacheable : BitVec 32 := 0x4

/-- `pmap_cache_attributes`: the negation binds first, `!pmap_get_cache_attributes(pn) & ARM_L2_C_BIT`. -/
def pmapCacheAttributes (pn : Ppn) (s : State) : BitVec 32 :=
  if (if pmapGetCacheAttributes c pn s = 0 then 1 else 0 : Word) &&& 0x4 ≠ 0 then vmWimgIo else vmWimgCopyback

/-! ## Entering a mapping -/

/-- The loop of `pmap_enter_options` that makes place for the entry.  What `pmap_pte` finds none for after
    `pmap_expand`, it never will: the commpage of a user pmap. -/
def enterTables (m va : ℕ) (grab : Ppn) (s : State) : Except Stop ((Block × ℕ) × State) := do
  match ← pmapPte c s.tables m va with
  | some loc => .ok (loc, s)
  | none =>
    if m ≠ c.kernelPmap ∧ commPageBase ≤ va then .error .hang
    else do
      let t ← pmapExpand c m va grab s.tables
      let s ← physAttributeSet c grab typeNoencrypt { s with tables := t }
      match ← pmapPte c s.tables m va with
      | some loc => .ok (loc, s)
      | none => .error .hang

/-- The entry for a mapping. -/
def template (m va : ℕ) (pa : Ppn) (prot : Prot) (s : State) : Word :=
  templatePte (m == c.kernelPmap) (va == commPageBase) pa prot (pmapGetCacheAttributes c pa s)

/-- The page is mapped there already. -/
def enterSame (m va : ℕ) (pa : Ppn) (prot : Prot) (wired : Bool) (loc : Block × ℕ) (s : State) :
    Except Stop State := do
  let pte := template c m va pa prot s
  if wired then
    if (← physAttributeTest c pa typeWired s) = 0 then
      let s ← physAttributeSet c pa typeWired s
      let s := s.count m fun x =>
        { x with wiredCount := x.wiredCount + 1, wiredMem := x.wiredMem + pageSize }
      .ok (s.set loc pte)
    else
      let s := s.count m fun x =>
        { x with wiredCount := x.wiredCount - 1, wiredMem := x.wiredMem - pageSize }
      .ok (s.set loc pte)
  else .ok (s.set loc pte)

/-- Another page was mapped there, by the entry `old`. -/
def unmapOld (m va : ℕ) (pa : Ppn) (old : Word) (s : State) : Except Stop (Option Ref × State) := do
  let s := s.count m fun x =>
    { x with residentCount := x.residentCount - 1, physMem := x.physMem - pageSize }
  let s ←
    if (← physAttributeTest c pa typeWired s) ≠ 0 then
      physAttributeClear c pa typeWired (s.count m fun x => { x with wiredCount := x.wiredCount - 1 })
    else .ok s
  let pvH ← paiToPvh c (paIndex old)
  if s.pv.pmap pvH = 0 then .error .enterNullPvList
  else
    let (pvhE, pv) ← pmapPvRemove c m va (paIndex old) s.pv
    .ok (pvhE, { s with pv })

/-- The entry for a new mapping, and what is left of `pvh_new`; nothing, if one has to be allocated and
    the mapping entered again. -/
def takeEntry (m : ℕ) (pvhE pvhNew : Option Ref) (pv : Pv) : Option (Option Ref × Option Ref × Pv) :=
  match pvhE, pvhNew with
  | some e, pvhNew => some (some e, pvhNew, pv)
  | none, some e => some (some e, none, pv)
  | none, none =>
    match pv.alloc .user with
    | (some e, pv) => some (some e, none, pv)
    | (none, pv) => if m = c.kernelPmap then some ((pv.alloc .kern).1, none, (pv.alloc .kern).2) else none

/-- The mapping is put on the list of its page, or has to be entered again. -/
inductive PvResult where
  | entered (pvhE pvhNew : Option Ref) (s : State)
  | retry (s : State)

/-- Step 2: the mapping is entered in the list of its page. -/
def enterPv (m va : ℕ) (pa : Ppn) (wired : Bool) (pvhE pvhNew : Option Ref) (s : State) : Except Stop PvResult := do
  let pvH ← paiToPvh c pa
  if s.pv.pmap pvH = 0 then
    let s := { s with pv := { s.pv.setPair pvH m va with qlink := s.pv.qlink.queueInit pvH } }
    if wired then
      let s ← physAttributeSet c pa typeWired s
      .ok (.entered pvhE pvhNew s)
    else .ok (.entered pvhE pvhNew s)
  else
    match takeEntry c m pvhE pvhNew s.pv with
    | none => .ok (.retry s)
    | some (none, _, _) => .error .exhaustion
    | some (some e, pvhNew, pv) =>
      let pv ← pvHashAdd c e pvH { pv.setPair e m va with ppn := Function.update pv.ppn e pa }
      .ok (.entered none pvhNew { s with pv })

/-- `EnterPte`: the mapping is counted and its entry written. -/
def enterPte (m va : ℕ) (pa : Ppn) (prot : Prot) (wired : Bool) (loc : Block × ℕ) (s : State) : State :=
  let s := s.count m fun x =>
    { x with residentCount := x.residentCount + 1, physMem := x.physMem + pageSize }
  let s :=
    if wired then s.count m fun x => { x with wiredCount := x.wiredCount + 1, physMem := x.physMem + pageSize }
    else s
  s.set loc (template c m va pa prot s)

/-- A mapping of a managed page is entered, where there is none now. -/
def enterNew (m va : ℕ) (pa : Ppn) (prot : Prot) (wired : Bool) (loc : Block × ℕ) (pvhE pvhNew : Option Ref) (s : State) :
    Except Stop (Bool × State) := do
  match ← enterPv c m va pa wired pvhE pvhNew s with
  | .retry s => .ok (false, s)
  | .entered pvhE pvhNew s => .ok (true, ((enterPte c m va pa prot wired loc s).free .user pvhE).free .kern pvhNew)

/-- `pmap_enter_options` from `Retry` on, with the place of the entry: has it been entered? -/
def enterOnce (m va : ℕ) (pa : Ppn) (prot : Prot) (wired : Bool) (loc : Block × ℕ) (pvhNew : Option Ref) (s : State) :
    Except Stop (Bool × State) := do
  let old := s.tables.get loc
  if old &&& l2AddrMask = ptoa pa then
    let s ← enterSame c m va pa prot wired loc s
    .ok (true, s.free .kern pvhNew)
  else
    let s' := if old &&& l2AddrMask ≠ 0 then s.set loc 0 else s
    if ¬ c.Managed pa then .ok (true, (enterPte c m va pa prot wired loc s').free .kern pvhNew)
    else
      let (pvhE, s) ← if old &&& l2AddrMask ≠ 0 then unmapOld c m va pa old s' else .ok (none, s')
      enterNew c m va pa prot wired loc pvhE pvhNew s

/-- The retries of `pmap_enter_options`. -/
def enterRetry (m va : ℕ) (pa : Ppn) (prot : Prot) (wired : Bool) (grab : Ppn) :
    (fuel : ℕ) → (pvhNew : Option Ref) → State → Except Stop State
  | 0, _, _ => .error .hang
  | fuel + 1, pvhNew, s => do
    let (loc, s) ← enterTables c m va grab s
    match ← enterOnce c m va pa prot wired loc pvhNew s with
    | (true, s) => .ok s
    | (false, s) =>
      let (e, pv) := s.pv.zalloc
      enterRetry m va pa prot wired grab fuel (some e) { s with pv }

/-- `kern_return_t`, as far as it is used here. -/
inductive KernReturn where
  | success
  | invalidArgument
deriving DecidableEq, Repr

/-- `pmap_enter_options`.  With an entry in hand, there is no second retry. -/
def pmapEnterOptions (m va : ℕ) (pa : Ppn) (prot : Prot) (wired : Bool) (grab : Ppn) (s : State) :
    Except Stop (KernReturn × State) := do
  if commPageBase < va ∧ m ≠ c.kernelPmap then .ok (.invalidArgument, s)
  else
    let s ← enterRetry c m va pa prot wired grab 2 none s
    .ok (.success, s)

/-- `pmap_enter` -/
def pmapEnter (m va : ℕ) (pa : Ppn) (prot : Prot) (wired : Bool) (grab : Ppn) (s : State) : Except Stop State := do
  let (_, s) ← pmapEnterOptions c m va pa prot wired grab s
  .ok s

/-! ## Ranges of addresses -/

/-- `lva`, the end of the megabyte or of the range; addresses have 32 bits. -/
def chunkEnd (sva eva : ℕ) : ℕ :=
  let lva := (sva + 0x100000) % 0x100000000 / 0x100000 * 0x100000
  if eva < lva then eva else lva

/-- The loops of `pmap_remove` and `pmap_protect`: `body` is done for each part of the range that has a table,
    with the table, the index of the first entry, its address and the number of entries. -/
def forChunks (body : Block → ℕ → ℕ → ℕ → State → Except Stop State) (m eva : ℕ) :
    (fuel sva : ℕ) → State → Except Stop State
  | 0, sva, s => if sva < eva then .error .hang else .ok s
  | fuel + 1, sva, s =>
    if sva < eva then do
      let lva := chunkEnd sva eva
      let tte ← s.tables.tte m sva
      if IsPageTable tte then
        -- `epte` less `spte`, in entries
        let n : ℤ := pteIndex lva + 0x100 * ((lva / 0x100000 : ℕ) - (sva / 0x100000 : ℕ)) - pteIndex sva
        if n < 0 ∨ 0x400 < n * 4 then .error .bogusRange
        else
          let s ← body (l1PteAddr tte) (pteIndex sva) sva n.toNat s
          forChunks body m eva fuel lva s
      else forChunks body m eva fuel lva s
    else .ok s

/-- The variables of `pmap_remove_range`. -/
structure Removal where
  s : State
  bunch : Bunch
  numRemoved : ℤ
  numUnwired : ℤ

/-- A round of `pmap_remove_range`. -/
def removeOne (m va : ℕ) (loc : Block × ℕ) (a : Removal) : Except Stop Removal := do
  let pai := paIndex (a.s.tables.get loc)
  if pai = 0 then .ok a
  else if ¬ c.Managed pai then .ok a
  else
    let wired ← physAttributeTest c pai typeWired a.s
    let s ← if wired ≠ 0 then physAttributeClear c pai typeWired a.s else .ok a.s
    let s := s.set loc 0
    let (pvhE, pv) ← pmapPvRemove c m va pai s.pv
    let (bunch, pv) := pv.collectSome pvhE a.bunch
    .ok ⟨{ s with pv }, bunch, a.numRemoved + 1, if wired ≠ 0 then a.numUnwired + 1 else a.numUnwired⟩

/-- The loop of `pmap_remove_range`, over `n` entries. -/
def removeLoop (m : ℕ) (b : Block) : (n i va : ℕ) → Removal → Except Stop Removal
  | 0, _, _, a => .ok a
  | n + 1, i, va, a => do
    let a ← removeOne c m va (b, i) a
    removeLoop m b n (i + 1) (va + 0x1000) a

/-- `pmap_remove_range` -/
def pmapRemoveRange (m : ℕ) (b : Block) (i va n : ℕ) (s : State) : Except Stop State := do
  let a ← removeLoop c m b n i va ⟨s, .empty, 0, 0⟩
  let s := { a.s with pv := a.s.pv.freeBunch .user a.bunch }
  if (s.stats m).residentCount < a.numRemoved then .error .residentCount
  else
    let s := s.count m fun x =>
      { x with residentCount := x.residentCount - a.numRemoved, physMem := x.physMem - a.numRemoved * pageSize }
    if (s.stats m).wiredCount < a.numUnwired then .error .wiredCount
    else
      .ok (s.count m fun x =>
        { x with wiredCount := x.wiredCount - a.numUnwired, wiredMem := x.wiredMem - a.numUnwired * pageSize })

/-- `pmap_remove`.  There are 4096 megabytes. -/
def pmapRemove (m sva eva : ℕ) (s : State) : Except Stop State :=
  forChunks (pmapRemoveRange c m) m eva 0x1000 sva s

/-- The loop of `pmap_protect` over the entries of a table. -/
def protectLoop (prot : Prot) (b : Block) : (n i : ℕ) → State → State
  | 0, _, s => s
  | n + 1, i, s =>
    let pte := s.tables.get (b, i)
    protectLoop prot b n (i + 1) (if Valid pte then s.set (b, i) (protectPte prot pte) else s)

/-- `pmap_protect` -/
def pmapProtect (m sva eva : ℕ) (prot : Prot) (s : State) : Except Stop State :=
  if m = 0 then .ok s
  else if prot = 0 then pmapRemove c m sva eva s
  else forChunks (fun b i _ n s => .ok (protectLoop prot b n i s)) m eva 0x1000 sva s

/-! ## All mappings of a page -/

/-- The loops over the list of a page, from the root on and until they are back; the next entry is read
    before the body. -/
def forQueue {α : Type} (links : α → Links Ref) (body : Ref → α → Except Stop α) (pvH : Ref) :
    (fuel : ℕ) → Ref → α → Except Stop α
  | 0, _, _ => .error .hang
  | fuel + 1, pvE, a => do
    let nexth := (links a).next pvE
    let a ← body pvE a
    match nexth with
    | none => .error .fault
    | some n => if n = pvH then .ok a else forQueue links body pvH fuel n a

/-- A round of `pmap_page_protect`: the mapping is removed, or write-protected. -/
def protectMapping (pn : Ppn) (remove : Bool) (pvE : Ref) (a : State × Bunch) : Except Stop (State × Bunch) := do
  let (s, bunch) := a
  let m := s.pv.pmap pvE
  match ← pmapPte c s.tables m (s.pv.va pvE) with
  | none => .error .nullPte
  | some loc =>
    if remove ∨ m = c.kernelPmap then
      let s := s.set loc 0
      let s ← physAttributeClear c pn (typeReferenced ||| typeModified) s
      if (s.stats m).residentCount < 1 then .error .residentCount
      else
        let s := s.count m fun x =>
          { x with residentCount := x.residentCount - 1, physMem := x.physMem - pageSize }
        if pvE = .rooted pn then .ok ({ s with pv := { s.pv with pmap := Function.update s.pv.pmap pvE 0 } }, bunch)
        else
          let pv ← pvHashRemove c pvE s.pv
          let (bunch, pv) := pv.collect pvE bunch
          .ok ({ s with pv }, bunch)
    else .ok (s.set loc (s.tables.get loc ||| l2AccessApx), bunch)

/-- The end of `pmap_page_protect`: if the rooted mapping was removed, a queued one takes its place. -/
def fixHead (pn : Ppn) (a : State × Bunch) : Except Stop (State × Bunch) := do
  let (s, bunch) := a
  if s.pv.pmap (.rooted pn) = 0 then
    match s.pv.qlink.next (.rooted pn) with
    | none => .error .fault
    | some e =>
      if e ≠ .rooted pn then
        let pv ← pvHashRemove c e s.pv
        let pv := pv.setPair (.rooted pn) (pv.pmap e) (pv.va e)
        let (bunch, pv) := pv.collect e bunch
        .ok ({ s with pv }, bunch)
      else .ok (s, bunch)
  else .ok (s, bunch)

/-- `pmap_page_protect` -/
def pmapPageProtect (pn : Ppn) (prot : Prot) (s : State) : Except Stop State := do
  if ¬ c.Managed pn then .ok s
  else if prot = vmProtAll then .ok s
  else
    let remove := !(prot == vmProtRead || prot == vmProtRead ||| vmProtExecute)
    let pvH ← paiToPvh c pn
    if s.pv.pmap pvH ≠ 0 then
      let a ← forQueue (fun a : State × Bunch => a.1.pv.qlink) (protectMapping c pn remove) pvH (s.pv.zone + 1) pvH (s, .empty)
      let (s, bunch) ← fixHead c pn a
      .ok { s with pv := s.pv.freeBunch .user bunch }
    else .ok s

/-- `pmap_disconnect` -/
def pmapDisconnect (pa : Ppn) (s : State) : Except Stop (BitVec 32 × State) := do
  let s ← pmapPageProtect c pa 0 s
  let refmod ← pmapGetRefmod c pa s
  .ok (refmod, s)

/-- A round of `pmap_update_cache_attributes_locked`. -/
def updateMapping (attributes : Word) (pvE : Ref) (s : State) : Except Stop State := do
  match ← pmapPte c s.tables (s.pv.pmap pvE) (s.pv.va pvE) with
  | none => .error .nullPte
  | some loc => .ok (s.set loc (setCacheability attributes (s.tables.get loc)))

/-- `pmap_update_cache_attributes_locked` -/
def pmapUpdateCacheAttributesLocked (pn : Ppn) (attributes : Word) (s : State) : Except Stop State := do
  let pvH ← paiToPvh c pn
  if s.pv.pmap pvH ≠ 0 then forQueue (fun s : State => s.pv.qlink) (updateMapping c attributes) pvH (s.pv.zone + 1) pvH s
  else .ok s

/-- The memory type that `pmap_set_cache_attributes` derives from its argument. -/
def cacheTemplate (cacheattr : BitVec 32) : Word :=
  if cacheattr &&& vmMemNotCacheable ≠ 0 then 0 &&& cacheabilityMask
  else if cacheattr = vmWimgWthru then 0 ||| writeThrough
  else if cacheattr = vmWimgWcomb ∨ cacheattr = vmWimgCopyback then 0 ||| writeBack
  else 0

/-- `pmap_set_cache_attributes` -/
def pmapSetCacheAttributes (pn : Ppn) (cacheattr : BitVec 32) (s : State) : Except Stop State := do
  let s ← pmapUpdateCacheAttributesLocked c pn (cacheTemplate cacheattr) s
  if cacheattr &&& vmMemNotCacheable ≠ 0 then physAttributeSet c pn typeNocache s
  else physAttributeClear c pn typeNocache s

/-! ## Single addresses -/

/-- `pmap_find_phys` -/
def pmapFindPhys (m va : ℕ) (s : State) : Except Stop Ppn := do
  match ← pmapPte c s.tables m va with
  | none => .ok 0
  | some loc => .ok (if Valid (s.tables.get loc) then paIndex (s.tables.get loc) else 0)

/-- The page of `pmap_extract`, `0` if the translation fails.  The processor translates with the tables in use:
    the low addresses are those of the pmap `current`. -/
def pmapExtract (current m va : ℕ) (s : State) : Ppn :=
  let pte := s.tables.entry c (if va < commPageBase then current else c.kernelPmap) va
  let access := if m = c.kernelPmap then l2AccessPrw else l2AccessUser
  if Valid pte ∧ pte &&& access ≠ 0 then paIndex pte else 0

/-- `pmap_change_wiring` -/
def pmapChangeWiring (current m va : ℕ) (wired : Bool) (s : State) : Except Stop State := do
  match ← pmapPte c s.tables m va with
  | none => .error .nullPte
  | some _ =>
    let pa := pmapExtract c current m va s
    let bits ← physAttributeTest c pa typeWired s
    if wired ∧ bits ≠ 0 then
      physAttributeSet c pa typeWired (s.count m fun x =>
        { x with wiredCount := x.wiredCount + 1, wiredMem := x.wiredMem + pageSize })
    else
      physAttributeClear c pa typeWired (s.count m fun x =>
        { x with wiredCount := x.wiredCount - 1, wiredMem := x.wiredMem - pageSize })

/-- `pmap_create`, for a pmap that is allocated at `m`. -/
def pmapCreate (m : ℕ) (grab : Ppn) (s : State) : Except Stop State :=
  physAttributeSet c grab typeNoencrypt
    { s with tables := s.tables.create m grab, stats := Function.update s.stats m ⟨0, 0, 0, 0⟩ }

end

/-! ## Runs -/

/-- The calls of the module, and the refilling of the free lists. -/
inductive Call where
  | create (m : ℕ) (grab : Ppn)
  | enter (m va : ℕ) (pa : Ppn) (prot : Prot) (wired : Bool) (grab : Ppn)
  | remove (m sva eva : ℕ)
  | protect (m sva eva : ℕ) (prot : Prot)
  | pageProtect (pn : Ppn) (prot : Prot)
  | disconnect (pa : Ppn)
  | changeWiring (current m va : ℕ) (wired : Bool)
  | setCacheAttributes (pn : Ppn) (cacheattr : BitVec 32)
  | setModify (pn : Ppn)
  | clearModify (pn : Ppn)
  | setReference (pn : Ppn)
  | clearReference (pn : Ppn)
  | clearRefmod (pn : Ppn) (mask : BitVec 32)
  | mappingAdjust
  | mappingFreePrime

/-- What a call does. -/
def State.call (c : Machine) (s : State) : Call → Except Stop State
  | .create m grab => pmapCreate c m grab s
  | .enter m va pa prot wired grab => pmapEnter c m va pa prot wired grab s
  | .remove m sva eva => pmapRemove c m sva eva s
  | .protect m sva eva prot => pmapProtect c m sva eva prot s
  | .pageProtect pn prot => pmapPageProtect c pn prot s
  | .disconnect pa => (pmapDisconnect c pa s).map Prod.snd
  | .changeWiring current m va wired => pmapChangeWiring c current m va wired s
  | .setCacheAttributes pn cacheattr => pmapSetCacheAttributes c pn cacheattr s
  | .setModify pn => pmapSetModify c pn s
  | .clearModify pn => pmapClearModify c pn s
  | .setReference pn => pmapSetReference c pn s
  | .clearReference pn => pmapClearReference c pn s
  | .clearRefmod pn mask => pmapClearRefmod c pn mask s
  | .mappingAdjust => .ok { s with pv := mappingAdjust s.pv }
  | .mappingFreePrime => .ok { s with pv := mappingFreePrime s.pv }

/-- A call after others; a stop is the end. -/
def step (c : Machine) (r : Except Stop State) (call : Call) : Except Stop State := r.bind fun s => s.call c call

/-- The state in which `pmap_init` returns: the lists and the attributes are cleared.  The hash table is taken
    as cleared and apart from the other tables, which is how `pmap_init` means it and not how it lays it
    out (`laidOut_never`). -/
def boot (c : Machine) : State where
  tables :=
    { l1 := fun m => if m = c.kernelPmap then c.bootL1 else fun _ => 0
      l1Size := fun m => if m = c.kernelPmap then 0x4000 else 0
      l2 := c.bootL2
      grabbed := c.bootPages }
  pv :=
    { qlink := ⟨fun _ => none, fun _ => none⟩
      va := fun _ => 0
      pmap := fun _ => 0
      ppn := fun _ => 0
      nexth := fun _ => none
      hashTable := fun _ => none
      free := fun _ => none
      freeCount := fun _ => 0
      zone := 0 }
  flags := fun _ => 0
  stats := fun m =>
    if m = c.kernelPmap then ⟨c.bootResident, c.bootWired, c.bootResident * pageSize, c.bootWired * pageSize⟩
    else ⟨0, 0, 0, 0⟩

end PocketDarwin.Pmap
