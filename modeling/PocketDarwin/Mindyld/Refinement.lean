/-
  The loaders with the bytes of the files, and the loaders of `Mindyld.Loader`, which take what the
  system calls return as given.

  A run with the bytes gives the system calls certain results; with these the loaders do the same.

  * `elfMapSegments_refines`, `machoMapSegments_refines`: they return the same base address and leave
    the same mappings.
  * `elfMapSegments_refines_fault`, `machoMapSegments_refines_fault`: an access outside of the
    mapping is one in both.
-/
import PocketDarwin.Mindyld.ElfMapping
import PocketDarwin.Mindyld.MachoMapping
import PocketDarwin.Mindyld.Mappings

namespace PocketDarwin.Mindyld

/-! ## What the system calls return -/

/-- Where the table of headers or commands is in memory. -/
def tableBase : BitVec 64 := 16

/-- The results of the system calls of a run with bytes, whose table and segments are given. -/
def Requests.answers (sys : Requests) (file : File) (header : Memory 64)
    (table : Option (List Byte)) (es : List Entry) : Answers 64 where
  openMagic := 0
  readMagic := 4
  magic := fun i => file.bytes.getD i 0
  openFile := if sys.openFile then 0 else -1
  readHeader := returned (file.read 0 64 sys.readHeader)
  header := header
  table := if sys.malloc then tableBase else 0
  seekTable := if sys.seekTable then 0 else -1
  readTable := returned table
  mem := .ofBytes tableBase (table.getD [])
  mmap := sys.mmap
  seek := fun k => if sys.seek k then 0 else -1
  read := fun k => (es[k]?.map fun e => returned (sys.data file k e.seg)).getD 0
  protect := fun k => if (es[k]?.map fun e => sys.mprotect k e.seg.prot).getD true then 0 else -1
  handle := if sys.handle then some 0 else none

section
variable {sys : Requests} {file : File} {header : Memory 64} {table : Option (List Byte)}
  {es : List Entry}

/-- `-1` is what a system call returns that fails. -/
theorem not_neg_iff (granted : Bool) : ¬ (if granted then (0 : ℤ) else -1) < 0 ↔ granted := by
  cases granted with
  | false => exact iff_of_false (by decide) Bool.false_ne_true
  | true => exact iff_of_true (by decide) rfl

theorem answers_malloc : (sys.answers file header table es).table ≠ 0 ↔ sys.malloc := by
  show (if sys.malloc then tableBase else 0) ≠ 0 ↔ _
  split_ifs with h
  · exact iff_of_true (by decide) h
  · exact iff_of_false (fun h => h rfl) h

theorem answers_table (hmalloc : sys.malloc) :
    (sys.answers file header table es).table = tableBase :=
  if_pos hmalloc

theorem answers_seekTable :
    ¬ (sys.answers file header table es).seekTable < 0 ↔ sys.seekTable :=
  not_neg_iff _

theorem answers_seek (k : ℕ) : ¬ (sys.answers file header table es).seek k < 0 ↔ sys.seek k :=
  not_neg_iff _

/-- A segment is granted what it asks for in both. -/
theorem answers_grants_iff {k : ℕ} {e : Entry} (he : es[k]? = some e) :
    (sys.answers file header table es).Grants (e.seg.toSegment, k) ↔ sys.Grants file k e.seg := by
  have hread : (sys.answers file header table es).read k = returned (sys.data file k e.seg) := by
    show ((es[k]?.map _).getD 0) = _
    rw [he]
    rfl
  have hprotect : ¬ (sys.answers file header table es).protect k < 0 ↔
      sys.mprotect k e.seg.prot := by
    refine (not_neg_iff _).trans ?_
    rw [he]
    rfl
  rw [Answers.Grants, answers_seek, hprotect, hread, BitVec.setWidth_eq]
  exact ⟨fun h => ⟨h.1, h.2.1, h.2.2⟩, fun h => ⟨h.seek, h.read, h.mprotect⟩⟩

theorem answers_grantsTo_iff (n : ℕ) :
    (∀ k < n, ∀ seg, (segmentsIn es)[k]? = some seg →
      (sys.answers file header table es).Grants (seg, 0 + k)) ↔ sys.GrantsTo file 0 es n := by
  constructor
  · intro h k hk e he
    have hg := h k hk e.seg.toSegment (by rw [segmentsIn, List.getElem?_map, he]; rfl)
    rw [Nat.zero_add] at hg ⊢
    exact (answers_grants_iff he).1 hg
  · intro h k hk seg hseg
    rw [segmentsIn, List.getElem?_map] at hseg
    obtain ⟨e, he, rfl⟩ := Option.map_eq_some_iff.1 hseg
    have hg := h k hk e he
    rw [Nat.zero_add] at hg ⊢
    exact (answers_grants_iff he).2 hg

/-- All requests are granted in both. -/
theorem answers_grantsAll_iff :
    (∀ p ∈ (segmentsIn es).zipIdx, (sys.answers file header table es).Grants p) ↔
      sys.GrantsTo file 0 es es.length := by
  rw [← answers_grantsTo_iff]
  constructor
  · intro h k _ seg hseg
    rw [Nat.zero_add]
    exact h (seg, k) (List.mem_zipIdx_iff_getElem?.2 hseg)
  · rintro h ⟨seg, k⟩ hmem
    have hseg : (segmentsIn es)[k]? = some seg := List.mem_zipIdx_iff_getElem?.1 hmem
    have hlt : k < es.length := by
      have := (List.getElem?_eq_some_iff.1 hseg).1
      rwa [segmentsIn, List.length_map] at this
    have hg := h k hlt seg hseg
    rwa [Nat.zero_add] at hg

/-- What `read` put into memory. -/
theorem bytesRead_returned (offset n : BitVec 64) (most : Option ℕ) :
    bytesRead (returned (file.read offset n most)) = ((file.read offset n most).getD []).length := by
  rcases most with _ | most
  · have hmsb : (-1 : BitVec 64).msb = true := by decide
    exact if_pos hmsb
  · have hlen : (((file.bytes.drop offset.toNat).take n.toNat).take most).length < 2 ^ 63 := by
      rw [List.length_take, List.length_take, List.length_drop]
      have := file.length_lt
      omega
    show bytesRead (BitVec.ofNat 64 _) = _
    generalize hbytes : ((file.bytes.drop offset.toNat).take n.toNat).take most = bytes at hlen
    have hread : file.read offset n (some most) = some bytes := congrArg some hbytes
    rw [show ((fun most => ((file.bytes.drop offset.toNat).take n.toNat).take most) most) = bytes from hbytes]
    have hmsb : (BitVec.ofNat 64 bytes.length).msb = false := by
      rw [BitVec.msb_eq_false_iff_two_mul_lt, BitVec.toNat_ofNat]
      omega
    rw [hread, bytesRead, hmsb, if_neg Bool.false_ne_true, BitVec.toNat_ofNat]
    exact Nat.mod_eq_of_lt (by omega)

/-- What is in a mapping, told by the size of its region. -/
theorem inMapping_iff (base total : BitVec 64) (distance n : ℕ) :
    InMapping base total distance n ↔ (0 < n → distance + n ≤ (mapped base total).size) := by
  show _ ∨ _ ≤ (if base = mapFailed 64 then 0 else total.toNat) ↔
    (_ → _ ≤ (if base = mapFailed 64 then 0 else total.toNat))
  rw [or_iff_not_imp_left, Nat.pos_iff_ne_zero]

/-- The accesses to the mapping are the same in both; the other one has no table with fields. -/
theorem answers_stays_iff {k : ℕ} {e : Entry} (he : es[k]? = some e) (total min : BitVec 64) :
    (sys.answers file header table es).Stays total min (e.seg.toSegment, k) ↔
      sys.Stays file (fun v n => (v - min).toNat + n ≤ (mapped sys.mmap total).size) k ⟨e.seg, true, true, true⟩ := by
  have hread : (sys.answers file header table es).read k = returned (sys.data file k e.seg) := by
    show ((es[k]?.map _).getD 0) = _
    rw [he]
    rfl
  have hmmap : (sys.answers file header table es).mmap = sys.mmap := rfl
  have hplace : place 64 min e.seg.toSegment = (e.seg.vaddr - min).toNat := by
    rw [place, BitVec.setWidth_eq]
  have hzeroes : ZeroesIn sys.mmap total min e.seg.toSegment ↔ (e.seg.filesz < e.seg.memsz →
      (e.seg.vaddr - min).toNat + e.seg.memsz.toNat ≤ (mapped sys.mmap total).size) := by
    refine imp_congr_right fun hlt => ?_
    have hlt' := BitVec.lt_def.1 hlt
    rw [inMapping_iff, hplace, BitVec.setWidth_eq, BitVec.setWidth_eq, BitVec.toNat_sub_of_le (BitVec.le_of_lt hlt),
      Nat.add_assoc, Nat.add_sub_cancel' (Nat.le_of_lt hlt')]
    exact ⟨fun h => h (Nat.sub_pos_of_lt hlt'), fun h _ => h⟩
  have hdata : InMapping sys.mmap total (e.seg.vaddr - min).toNat (bytesRead (returned (sys.data file k e.seg))) ↔
      ((sys.data file k e.seg).getD [] ≠ [] →
        (e.seg.vaddr - min).toNat + ((sys.data file k e.seg).getD []).length ≤ (mapped sys.mmap total).size) := by
    rw [inMapping_iff, Requests.data, bytesRead_returned, List.length_pos_iff]
  rw [Answers.Stays, answers_seek, hmmap, hread, hplace, hzeroes, hdata, BitVec.setWidth_eq]
  constructor
  · intro h
    exact ⟨rfl, fun _ => rfl, fun hseek => (h hseek).1, fun hseek => (h hseek).2, fun _ _ => rfl⟩
  · exact fun h hseek => ⟨h.data hseek, h.zeros hseek⟩

/-- The fields of all segments are in the table. -/
def InTable (es : List Entry) : Prop := ∀ e ∈ es, e.offsetIn ∧ e.fileszIn ∧ e.protIn

theorem Requests.Stays.whole {Room : BitVec 64 → ℕ → Prop} {k : ℕ} {e : Entry} (h : sys.Stays file Room k e) :
    sys.Stays file Room k ⟨e.seg, true, true, true⟩ :=
  ⟨rfl, fun _ => rfl, h.data, h.zeros, fun _ _ => rfl⟩

/-- **The loop** has an access outside of the mapping in both, or in neither. -/
theorem answers_staysIn (hfill : (sys.fill file es).isSome) :
    (sys.answers file header table es).StaysIn (totalSize 64 (segmentsIn es)) (addresses (segmentsIn es)).1
      (segmentsIn es).zipIdx := by
  rw [Answers.staysIn_iff]
  intro k seg hseg hgrants
  rw [segmentsIn, List.getElem?_map] at hseg
  obtain ⟨e, he, rfl⟩ := Option.map_eq_some_iff.1 hseg
  have hstays := fillSegments_isSome_iff.1 hfill k e he ((answers_grantsTo_iff k).1 hgrants)
  rw [Nat.zero_add] at hstays ⊢
  rw [answers_stays_iff he, totalSize, BitVec.setWidth_eq]
  exact hstays.whole

theorem fill_isSome_of_staysIn (hin : InTable es)
    (h : (sys.answers file header table es).StaysIn (totalSize 64 (segmentsIn es)) (addresses (segmentsIn es)).1
      (segmentsIn es).zipIdx) : (sys.fill file es).isSome := by
  rw [Answers.staysIn_iff] at h
  refine fillSegments_isSome_iff.2 fun k e he hgrants => ?_
  have hstays := h k e.seg.toSegment (by rw [segmentsIn, List.getElem?_map, he]; rfl)
    ((answers_grantsTo_iff k).2 hgrants)
  rw [Nat.zero_add, answers_stays_iff he, totalSize, BitVec.setWidth_eq] at hstays
  obtain ⟨hoffset, hfilesz, hprot⟩ := hin e (List.mem_of_getElem? he)
  rw [Nat.zero_add]
  exact ⟨hoffset, fun _ => hfilesz, hstays.data, hstays.zeros, fun _ _ => hprot⟩

/-- The mappings behind a loader that asks for `total` bytes, by whether it returns its mapping: each early exit gives it
    back, but for one at `NULL`. -/
def Requests.mappings (sys : Requests) (total : BitVec 64) (returns : Bool) (maps : List (Mapping 64)) :
    List (Mapping 64) :=
  if sys.mmap = 0 ∨ returns then Mindyld.mmap sys.mmap total maps
  else Mindyld.munmap sys.mmap total (Mindyld.mmap sys.mmap total maps)

/-- From `mmap` on, both do the same. -/
theorem mapSegments_answers {region : Buffer Byte} {next : Bool} (hmmap : sys.mmap ≠ 0)
    (h : sys.fill file es = some (region, next)) (maps : List (Mapping 64)) :
    mapSegments (sys.answers file header table es) (segmentsIn es) maps =
      some (if next then sys.mmap else 0, sys.mappings (totalSize 64 (segmentsIn es)) next maps) := by
  have hnext : next ↔ sys.GrantsTo file 0 es es.length := (fillSegments_spec h).1
  rw [mapSegments]
  refine ((if_neg hmmap).trans (loadSegments_eq ..)).trans ?_
  rw [if_pos (answers_staysIn (Option.isSome_of_mem h)), Requests.mappings]
  by_cases hg : sys.GrantsTo file 0 es es.length
  · rw [if_pos (answers_grantsAll_iff.2 hg), if_pos (hnext.2 hg), if_pos (.inr (hnext.2 hg))]
    rfl
  · rw [if_neg fun h => hg (answers_grantsAll_iff.1 h), if_neg fun h => hg (hnext.1 h),
      if_neg (not_or.2 ⟨hmmap, fun h => hg (hnext.1 h)⟩)]
    rfl

theorem mapSegments_fault (hmmap : sys.mmap ≠ 0) (hin : InTable es) (h : sys.fill file es = none)
    (maps : List (Mapping 64)) :
    mapSegments (sys.answers file header table es) (segmentsIn es) maps = none := by
  rw [mapSegments]
  refine ((if_neg hmmap).trans (loadSegments_eq ..)).trans (if_neg fun hstays => ?_)
  have hfill := fill_isSome_of_staysIn hin hstays
  rw [h] at hfill
  cases hfill

theorem mapSegments_null (hmmap : sys.mmap = 0) (segs : List Segment) (maps : List (Mapping 64)) :
    mapSegments (sys.answers file header table es) segs maps =
      some (0, sys.mappings (totalSize 64 segs) false maps) := by
  rw [mapSegments, Requests.mappings, if_pos (Or.inl hmmap)]
  exact if_pos hmmap

/-! ## ELF -/

/-- The system calls of `elf_map_segments`. -/
def Requests.elfAnswers (sys : Requests) (file : File) (header : Memory 64) : Answers 64 :=
  sys.answers file header (sys.phdrs file header) (entriesOf file header)

/-- Words of the table, behind the entry at `pos`. -/
theorem answers_load32 {pos : ℕ} (k : ℕ) (h : pos + k + 4 ≤ 2 ^ 64) :
    (sys.answers file header table es).mem.load32
        (tableBase + BitVec.ofNat 64 pos + BitVec.ofNat 64 k) =
      leField 32 (table.getD []) (pos + k) 4 := by
  rw [add_assoc, ← BitVec.ofNat_add]
  exact load32_ofBytes h

theorem answers_load64 {pos : ℕ} (k : ℕ) (h : pos + k + 8 ≤ 2 ^ 64) :
    (sys.answers file header table es).mem.load64
        (tableBase + BitVec.ofNat 64 pos + BitVec.ofNat 64 k) =
      leField 64 (table.getD []) (pos + k) 8 := by
  rw [add_assoc, ← BitVec.ofNat_add]
  exact load64_ofBytes h

theorem readsHeaders_iff : sys.malloc ∧ sys.seekTable ∧ returned (sys.phdrs file header) = phdrsSize 64 header ↔
    sys.ReadsHeaders file header :=
  ⟨fun h => ⟨h.1, h.2.1, h.2.2⟩, fun h => ⟨h.malloc, h.seek, h.read⟩⟩

instance : Decidable (sys.ReadsHeaders file header) := decidable_of_iff _ readsHeaders_iff

theorem elfReadTable_iff :
    elfReadTable (sys.elfAnswers file header) ↔ sys.ReadsHeaders file header := by
  rw [elfReadTable, decide_eq_true_iff, Requests.elfAnswers, answers_malloc, answers_seekTable]
  exact readsHeaders_iff

theorem segmentsIn_loadEntries (phdrs : List Phdr) :
    segmentsIn (loadEntries phdrs) = phdrs.filterMap fun phdr =>
      if phdr.type = ptLoad then some ⟨phdr.vaddr, phdr.memsz, phdr.filesz⟩ else none := by
  induction phdrs with
  | nil => rfl
  | cons phdr phdrs ih =>
    rw [List.filterMap_cons, ← ih]
    by_cases htype : phdr.type = ptLoad
    · simp only [htype, if_true, segmentsIn, loadEntries, List.filter_cons, decide_true,
        List.map_cons]
      rfl
    · simp only [htype, if_false, segmentsIn, loadEntries, List.filter_cons, decide_false,
        Bool.false_eq_true]

theorem elfSegments_eq (h : sys.ReadsHeaders file header)
    (hsize : (ePhnum header).toNat = 0 ∨ 56 ≤ (ePhentsize header).toNat) :
    elfSegments (sys.elfAnswers file header) = segmentsIn (entriesOf file header) := by
  obtain ⟨bytes, hphdrs, hlen, htake⟩ := h.bytes
  rw [entriesOf, segmentsIn_loadEntries, headersOf, List.filterMap_map, elfSegments,
    List.range_eq_range']
  refine List.filterMap_congr fun i hi => ?_
  obtain ⟨-, hi⟩ := List.mem_range'_1.1 hi
  have hnum := (ePhnum header).isLt
  have hi' : i < (ePhnum header).toNat := hi.trans_eq (Nat.zero_add _)
  have hpos : 56 * i + 56 ≤ bytes.length := by
    have hle : 56 * (ePhnum header).toNat ≤ bytes.length := by
      rw [hlen]
      exact Nat.mul_le_mul_right _ (hsize.resolve_left (by omega))
    omega
  have hphdr : phdrAt (file.bytes.drop (ePhoff header).toNat) (56 * i) = phdrAt bytes (56 * i) := by
    conv_rhs => rw [htake]
    exact (phdrAt_take hpos _).symm
  have hbase : phdr (sys.elfAnswers file header) i = tableBase + BitVec.ofNat 64 (56 * i) :=
    congrArg (· + BitVec.ofNat 64 (56 * i)) (answers_table h.malloc)
  have htable : (sys.phdrs file header).getD [] = bytes := by
    rw [hphdrs]
    rfl
  have hload : ∀ k ≤ 48, (sys.elfAnswers file header).mem.load64
      (phdr (sys.elfAnswers file header) i + BitVec.ofNat 64 k) =
        leField 64 bytes (56 * i + k) 8 := by
    intro k hk
    rw [hbase, ← htable]
    exact answers_load64 k (by omega)
  have htype : (sys.elfAnswers file header).mem.load32 (phdr (sys.elfAnswers file header) i) =
      leField 32 bytes (56 * i) 4 := by
    rw [hbase, ← htable]
    exact load32_ofBytes (by omega)
  have hvaddr : (sys.elfAnswers file header).mem.load64
      (phdr (sys.elfAnswers file header) i + 16) =
        leField 64 bytes (56 * i + 16) 8 := hload 16 (by decide)
  have hmemsz : (sys.elfAnswers file header).mem.load64
      (phdr (sys.elfAnswers file header) i + 40) =
        leField 64 bytes (56 * i + 40) 8 := hload 40 (by decide)
  have hfilesz : (sys.elfAnswers file header).mem.load64
      (phdr (sys.elfAnswers file header) i + 32) =
        leField 64 bytes (56 * i + 32) 8 := hload 32 (by decide)
  rw [Function.comp, hphdr]
  dsimp only
  rw [htype, hvaddr, hmemsz, hfilesz]
  rfl

/-- All fields of a program header are in the table. -/
theorem inTable_entriesOf (file : File) (header : Memory 64) : InTable (entriesOf file header) := by
  intro e he
  obtain ⟨phdr, -, rfl⟩ := List.mem_map.1 he
  exact ⟨rfl, rfl, rfl⟩

/-- **The loader of ELF files** returns the base that the one returns that takes the results as
    given, and leaves the mappings that it leaves. -/
theorem elfMapSegments_refines {result : Option (BitVec 64 × Buffer Byte)}
    (h : sys.elfMapSegments file header = some result) (maps : List (Mapping 64)) :
    elfMapSegments (sys.elfAnswers file header) maps =
      some ((result.map Prod.fst).getD 0,
        if sys.ReadsHeaders file header then
          sys.mappings (totalSize 64 (segmentsIn (entriesOf file header))) result.isSome maps
        else maps) := by
  rw [elfMapSegments]
  by_cases hreads : sys.ReadsHeaders file header
  swap
  · rw [elfMapSegments_of_not_reads hreads] at h
    cases h
    rw [if_neg fun hr => hreads (elfReadTable_iff.1 hr), if_neg hreads]
    rfl
  rw [if_pos (elfReadTable_iff.2 hreads), if_pos hreads]
  rw [elfMapSegments_of_reads hreads] at h
  split_ifs at h with hsize hmmap
  · cases h
    rw [elfSegments_eq hreads hsize]
    exact mapSegments_null hmmap _ maps
  · obtain ⟨⟨region, next⟩, hfill, rfl⟩ := Option.map_eq_some_iff.1 h
    rw [elfSegments_eq hreads hsize, Requests.elfAnswers, mapSegments_answers hmmap hfill]
    cases next <;> rfl

/-- An access outside of the mapping is one in both, if the headers are not shorter than the array
    has them. -/
theorem elfMapSegments_refines_fault (hsize : (ePhnum header).toNat = 0 ∨ 56 ≤ (ePhentsize header).toNat)
    (h : sys.elfMapSegments file header = none) (maps : List (Mapping 64)) :
    elfMapSegments (sys.elfAnswers file header) maps = none := by
  rw [elfMapSegments]
  by_cases hreads : sys.ReadsHeaders file header
  swap
  · rw [elfMapSegments_of_not_reads hreads] at h
    cases h
  rw [elfMapSegments_of_reads hreads, if_pos hsize] at h
  split_ifs at h with hmmap
  rw [if_pos (elfReadTable_iff.2 hreads), elfSegments_eq hreads hsize]
  exact mapSegments_fault hmmap (inTable_entriesOf file header) (Option.map_eq_none_iff.1 h) maps

/-! ## Mach-O -/

/-- The system calls of `macho_map_segments`. -/
def Requests.machoAnswers (sys : Requests) (file : File) (header : Memory 64) : Answers 64 :=
  sys.answers file header (sys.loadCommands file header) (segmentsOfCommands file header)

theorem answers_loadCommands {cmds : List Byte} (k n : ℕ)
    (h : ∀ j < n, position cmds (k + j) + 8 ≤ 2 ^ 64) :
    loadCommands (sys.answers file header (some cmds) es).mem n
        (tableBase + BitVec.ofNat 64 (position cmds k)) =
      (List.range' k n).map fun j => tableBase + BitVec.ofNat 64 (position cmds j) := by
  induction n generalizing k with
  | zero => rfl
  | succ n ih =>
    have hsize : (sys.answers file header (some cmds) es).mem.load32
        (tableBase + BitVec.ofNat 64 (position cmds k) + 4) = cmdsize cmds (position cmds k) :=
      answers_load32 4 (h 0 n.succ_pos)
    have hnext : tableBase + BitVec.ofNat 64 (position cmds k) +
        (cmdsize cmds (position cmds k)).setWidth 64 =
          tableBase + BitVec.ofNat 64 (position cmds (k + 1)) := by
      rw [position, BitVec.ofNat_add, BitVec.ofNat_toNat, add_assoc]
    rw [loadCommands, hsize, hnext, List.range'_succ, List.map_cons, ih (k + 1) fun j hj => ?_]
    have := h (j + 1) (by omega)
    rwa [show k + (j + 1) = k + 1 + j by omega] at this

theorem segmentsIn_segmentEntries (cmds : List Byte) (ps : List ℕ) :
    segmentsIn (segmentEntries cmds ps) = ps.filterMap fun pos =>
      if leField 32 cmds pos 4 = lcSegment64 then some (entryAt cmds pos).seg.toSegment
      else none := by
  induction ps with
  | nil => rfl
  | cons pos ps ih =>
    rw [List.filterMap_cons, ← ih, segmentEntries_cons, isSegment]
    by_cases htype : leField 32 cmds pos 4 = lcSegment64
    · simp only [htype, if_true, decide_true, segmentsIn, List.map_cons]
    · simp only [htype, if_false, decide_false, Bool.false_eq_true]

theorem machoSegments_eq (h : sys.ReadsCommands file header)
    (hin : ∀ pos ∈ positionsOf file header, CommandIn (commandsOf file header) pos) :
    machoSegments (sys.machoAnswers file header) = segmentsIn (segmentsOfCommands file header) := by
  have hlen : (commandsOf file header).length < 2 ^ 32 := by
    rw [commandsOf, List.length_take]
    exact (Nat.min_le_left _ _).trans_lt (sizeofcmds header).isLt
  have hpos : ∀ pos ∈ positionsOf file header, pos + 8 ≤ 2 ^ 32 := by
    intro pos hmem
    have := (hin pos hmem).1
    omega
  have hwalk : loadCommands (sys.machoAnswers file header).mem (ncmds header).toNat
      (sys.machoAnswers file header).table =
        (positionsOf file header).map fun pos => tableBase + BitVec.ofNat 64 pos := by
    rw [Requests.machoAnswers, answers_table h.malloc, h.bytes, positionsOf, List.map_map]
    have hzero : tableBase = tableBase + BitVec.ofNat 64 (position (commandsOf file header) 0) :=
      (add_zero tableBase).symm
    conv_lhs => rw [hzero]
    refine answers_loadCommands 0 _ fun j hj => ?_
    have := hpos _ (List.mem_map_of_mem (List.mem_range'_1.2 ⟨Nat.zero_le j, by omega⟩))
    rw [Nat.zero_add]
    omega
  have hncmds : ncmds (sys.machoAnswers file header).header = ncmds header := rfl
  rw [machoSegments, hncmds, hwalk, segmentsOfCommands, segmentsIn_segmentEntries,
    List.filterMap_map]
  refine List.filterMap_congr fun pos hmem => ?_
  have hlt := hpos pos hmem
  have hload : ∀ k ≤ 48, (sys.machoAnswers file header).mem.load64
      (tableBase + BitVec.ofNat 64 pos + BitVec.ofNat 64 k) =
        leField 64 (commandsOf file header) (pos + k) 8 := by
    intro k hk
    rw [Requests.machoAnswers, h.bytes]
    exact answers_load64 k (by omega)
  have htype : (sys.machoAnswers file header).mem.load32 (tableBase + BitVec.ofNat 64 pos) =
      leField 32 (commandsOf file header) pos 4 := by
    rw [Requests.machoAnswers, h.bytes]
    exact load32_ofBytes (by omega)
  have hvmaddr : (sys.machoAnswers file header).mem.load64 (tableBase + BitVec.ofNat 64 pos + 24) =
      leField 64 (commandsOf file header) (pos + 24) 8 := hload 24 (by decide)
  have hvmsize : (sys.machoAnswers file header).mem.load64 (tableBase + BitVec.ofNat 64 pos + 32) =
      leField 64 (commandsOf file header) (pos + 32) 8 := hload 32 (by decide)
  have hfilesize : (sys.machoAnswers file header).mem.load64
      (tableBase + BitVec.ofNat 64 pos + 48) =
        leField 64 (commandsOf file header) (pos + 48) 8 := hload 48 (by decide)
  rw [Function.comp, htype, hvmaddr, hvmsize, hfilesize]
  rfl

theorem readsCommands_iff :
    sys.malloc ∧ sys.seekTable ∧ returned (sys.loadCommands file header) = (sizeofcmds header).setWidth 64 ↔
      sys.ReadsCommands file header :=
  ⟨fun h => ⟨h.1, h.2.1, h.2.2⟩, fun h => ⟨h.malloc, h.seek, h.read⟩⟩

instance : Decidable (sys.ReadsCommands file header) := decidable_of_iff _ readsCommands_iff

theorem machoReadTable_iff (segs : List Segment)
    (hsegs : machoSegments (sys.machoAnswers file header) = segs) :
    machoReadTable (sys.machoAnswers file header) ↔
      sys.ReadsCommands file header ∧ (addresses segs).1 ≠ BitVec.allOnes 64 := by
  rw [machoReadTable, decide_eq_true_iff, hsegs, Requests.machoAnswers, answers_malloc,
    answers_seekTable]
  exact ⟨fun h => ⟨⟨h.1, h.2.1, h.2.2.1⟩, h.2.2.2⟩,
    fun h => ⟨h.1.malloc, h.1.seek, h.1.read, h.2⟩⟩

/-- All that the loops read of the commands is in the table. -/
def CommandsIn (file : File) (header : Memory 64) : Prop :=
  ∀ pos ∈ positionsOf file header, pos + 8 ≤ (commandsOf file header).length ∧
    (isSegment (commandsOf file header) pos → pos + 64 ≤ (commandsOf file header).length)

/-- **The loader of Mach-O files** returns the base that the one returns that takes the results as
    given, and leaves the mappings that it leaves. -/
theorem machoMapSegments_refines {out : Passes} (h : sys.machoMapSegments file header = some out)
    (maps : List (Mapping 64)) :
    machoMapSegments (sys.machoAnswers file header) maps =
      some ((out.result.map Prod.fst).getD 0,
        if sys.ReadsCommands file header ∧
            (addresses (segmentsIn (segmentsOfCommands file header))).1 ≠ BitVec.allOnes 64 then
          sys.mappings (totalSize 64 (segmentsIn (segmentsOfCommands file header))) out.result.isSome maps
        else maps) := by
  rw [machoMapSegments]
  by_cases hreads : sys.ReadsCommands file header
  swap
  · rw [machoMapSegments_of_not_reads hreads] at h
    cases h
    rw [if_neg fun hr => hreads ((machoReadTable_iff _ rfl).1 hr).1, if_neg fun hr => hreads hr.1]
    rfl
  rw [machoMapSegments_of_reads hreads] at h
  obtain ⟨ps, hfirst, hmap⟩ := Option.bind_eq_some_iff.1 h
  obtain ⟨rfl, hin⟩ := (firstPass_eq_some_iff 0).1 hfirst
  have hsegs := machoSegments_eq hreads hin
  have hread := machoReadTable_iff _ hsegs
  rw [Requests.mapCommands] at hmap
  split_ifs at hmap with hmin hmmap
  · cases hmap
    rw [if_neg fun hr => (hread.1 hr).2 hmin, if_neg fun hr => hr.2 hmin]
    rfl
  · cases hmap
    rw [if_pos (hread.2 ⟨hreads, hmin⟩), if_pos ⟨hreads, hmin⟩, hsegs]
    exact mapSegments_null hmmap _ maps
  · obtain ⟨p, hp, rfl⟩ := Option.map_eq_some_iff.1 hmap
    have hfill : sys.fill file (segmentsOfCommands file header) = some p.2 :=
      (secondPass_spec sys file _ hfirst 0 _).1.symm.trans (congrArg (Option.map Prod.snd) hp)
    rw [if_pos (hread.2 ⟨hreads, hmin⟩), hsegs]
    refine (mapSegments_answers hmmap hfill maps).trans ?_
    cases p.2.2 with
    | false => exact congrArg (fun maps => some (0, maps)) (if_pos ⟨hreads, hmin⟩).symm
    | true => exact congrArg (fun maps => some (sys.mmap, maps)) (if_pos ⟨hreads, hmin⟩).symm

/-- An access outside of the mapping is one in both, if what the loops read of the commands is in
    the table. -/
theorem machoMapSegments_refines_fault (hin : CommandsIn file header)
    (h : sys.machoMapSegments file header = none) (maps : List (Mapping 64)) :
    machoMapSegments (sys.machoAnswers file header) maps = none := by
  rw [machoMapSegments]
  by_cases hreads : sys.ReadsCommands file header
  swap
  · rw [machoMapSegments_of_not_reads hreads] at h
    cases h
  have hcommands : ∀ pos ∈ positionsOf file header, CommandIn (commandsOf file header) pos := by
    intro pos hpos
    obtain ⟨hle, hseg⟩ := hin pos hpos
    exact ⟨hle, fun h => (Nat.add_le_add_left (by decide) pos).trans (hseg h)⟩
  have hfirst : firstPass (commandsOf file header) (ncmds header).toNat 0 = some (positionsOf file header) :=
    (firstPass_eq_some_iff 0).2 ⟨rfl, hcommands⟩
  have hsegs := machoSegments_eq hreads hcommands
  rw [machoMapSegments_of_reads hreads, hfirst, Option.bind_some, Requests.mapCommands] at h
  split_ifs at h with hmin hmmap
  have hfill : sys.fill file (segmentsOfCommands file header) = none :=
    (secondPass_spec sys file _ hfirst 0 _).1.symm.trans
      (congrArg (Option.map Prod.snd) (Option.map_eq_none_iff.1 h))
  have htable : InTable (segmentsOfCommands file header) := by
    intro e he
    obtain ⟨pos, hpos, rfl⟩ := List.mem_map.1 he
    obtain ⟨hmem, hseg⟩ := List.mem_filter.1 hpos
    have hle := (hin pos hmem).2 hseg
    exact ⟨decide_eq_true (by omega), decide_eq_true (by omega), decide_eq_true (by omega)⟩
  rw [if_pos ((machoReadTable_iff _ hsegs).2 ⟨hreads, hmin⟩), hsegs]
  exact mapSegments_fault hmmap htable hfill maps

end

end PocketDarwin.Mindyld
