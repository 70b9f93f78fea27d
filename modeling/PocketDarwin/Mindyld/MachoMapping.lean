/-
  `macho_map_segments`, with the bytes of the file.

  Two passes go over the load commands, from each to the next by its `cmdsize` and `ncmds` times;
  neither compares where it is with `sizeofcmds`.  The first one finds the extent of the mapping,
  with sums in 64 bits, and the second one has the loop that fills it.

  * `secondPass_eq`: the second pass over commands that the first one read.
  * `machoMapped_iff`: when all accesses are in the load commands and in the mapping.
-/
import PocketDarwin.Mindyld.Filling

namespace PocketDarwin.Mindyld

/-! ## Load commands -/

/-- `cmd->cmd == LC_SEGMENT_64` -/
def isSegment (cmds : List Byte) (pos : ℕ) : Bool := leField 32 cmds pos 4 = lcSegment64

def cmdsize (cmds : List Byte) (pos : ℕ) : BitVec 32 := leField 32 cmds (pos + 4) 4

/-- `if (seg->initprot & VM_PROT_READ)  prot |= PROT_READ;` and so on: the bits are the same. -/
def protOf (initprot : BitVec 32) : BitVec 32 :=
  (if initprot &&& 1 ≠ 0 then 1 else 0) ||| (if initprot &&& 2 ≠ 0 then 2 else 0) |||
    (if initprot &&& 4 ≠ 0 then 4 else 0)

/-- The segment of the command at `pos`, with which of its fields are in the buffer. -/
def entryAt (cmds : List Byte) (pos : ℕ) : Entry where
  seg := ⟨⟨leField 64 cmds (pos + 24) 8, leField 64 cmds (pos + 32) 8,
    leField 64 cmds (pos + 48) 8⟩,
    leField 64 cmds (pos + 40) 8, protOf (leField 32 cmds (pos + 60) 4)⟩
  offsetIn := pos + 48 ≤ cmds.length
  fileszIn := pos + 56 ≤ cmds.length
  protIn := pos + 64 ≤ cmds.length

/-- The segments among the commands. -/
def segmentEntries (cmds : List Byte) (positions : List ℕ) : List Entry :=
  (positions.filter (isSegment cmds)).map (entryAt cmds)

/-! ## The passes -/

/-- The first pass: the commands that it visits. -/
def firstPass (cmds : List Byte) : ℕ → ℕ → Option (List ℕ)
  | 0, _ => some []
  | n + 1, pos =>
    if ¬ pos + 4 ≤ cmds.length then none
    -- `seg->vmaddr` and `seg->vmsize`
    else if isSegment cmds pos ∧ ¬ pos + 40 ≤ cmds.length then none
    else if ¬ pos + 8 ≤ cmds.length then none
    else (firstPass cmds n (pos + (cmdsize cmds pos).toNat)).map (pos :: ·)

/-- The second pass: the commands that it visits, and what it leaves of the mapping. -/
def secondPass (sys : Requests) (file : File) (min : BitVec 64) (cmds : List Byte) :
    ℕ → ℕ → ℕ → Buffer Byte → Option (List ℕ × Buffer Byte × Bool)
  | 0, _, _, region => some ([], region, true)
  | n + 1, i, pos, region =>
    if ¬ pos + 4 ≤ cmds.length then none
    else if isSegment cmds pos then
      (fillSegment sys file min i (entryAt cmds pos) region).bind fun r =>
        if ¬ r.2 then some ([pos], r)
        else if ¬ pos + 8 ≤ cmds.length then none
        else
          (secondPass sys file min cmds n (i + 1) (pos + (cmdsize cmds pos).toNat) r.1).map fun p =>
            (pos :: p.1, p.2)
    else if ¬ pos + 8 ≤ cmds.length then none
    else
      (secondPass sys file min cmds n i (pos + (cmdsize cmds pos).toNat) region).map fun p =>
        (pos :: p.1, p.2)

/-! ## The mapping -/

/-- `header_size` -/
def headerSize (header : Memory 64) : BitVec 64 := if header.load32 0 = mhMagic64 then 32 else 28

/-- "Read all load commands" -/
def Requests.loadCommands (sys : Requests) (file : File) (header : Memory 64) :
    Option (List Byte) :=
  file.read (headerSize header) ((sizeofcmds header).setWidth 64) sys.readTable

/-- What `macho_map_segments` returns, with the commands that its passes visited. -/
structure Passes where
  first : List ℕ
  second : List ℕ
  result : Option (BitVec 64 × Buffer Byte)

/-- What follows on the first pass, whose commands are given. -/
def Requests.mapCommands (sys : Requests) (file : File) (cmds : List Byte) (n : ℕ)
    (first : List ℕ) : Option Passes :=
  let segs := segmentsIn (segmentEntries cmds first)
  -- "Handle case where no segments found"
  if (addresses segs).1 = BitVec.allOnes 64 then some ⟨first, [], none⟩
  else if sys.mmap = 0 then some ⟨first, [], none⟩
  else
    (secondPass sys file (addresses segs).1 cmds n 0 0
      (mapped sys.mmap ((addresses segs).2 - (addresses segs).1))).map fun p =>
        ⟨first, p.1, if p.2.2 then some (sys.mmap, p.2.1) else none⟩

/-- `macho_map_segments` -/
def Requests.machoMapSegments (sys : Requests) (file : File) (header : Memory 64) : Option Passes :=
  if ¬ sys.malloc then some ⟨[], [], none⟩
  else if ¬ sys.seekTable then some ⟨[], [], none⟩
  else if returned (sys.loadCommands file header) ≠ (sizeofcmds header).setWidth 64 then
    some ⟨[], [], none⟩
  else
    let cmds := (sys.loadCommands file header).getD []
    (firstPass cmds (ncmds header).toNat 0).bind (sys.mapCommands file cmds (ncmds header).toNat)

/-! ## What it should do -/

section
variable (sys : Requests) (file : File) (header : Memory 64)

/-- The load commands are read in full. -/
structure Requests.ReadsCommands : Prop where
  malloc : sys.malloc
  seek : sys.seekTable
  read : returned (sys.loadCommands file header) = (sizeofcmds header).setWidth 64

/-- The load commands of the file. -/
def commandsOf : List Byte := (file.bytes.drop (headerSize header).toNat).take
  (sizeofcmds header).toNat

/-- Where the command with a number is. -/
def position (cmds : List Byte) : ℕ → ℕ
  | 0 => 0
  | k + 1 => position cmds k + (cmdsize cmds (position cmds k)).toNat

def positionsOf : List ℕ := (List.range' 0 (ncmds header).toNat).map
  (position (commandsOf file header))

def segmentsOfCommands : List Entry :=
  segmentEntries (commandsOf file header) (positionsOf file header)

/-- All accesses are in the load commands and in the mapping, and the passes visit the same
    commands, up to where the second one returns. -/
def MachoMapped : Prop :=
  ∃ out, sys.machoMapSegments file header = some out ∧ out.second <+: out.first ∧
    (out.result.isSome → out.second = out.first)

/-- A command is in the buffer, as far as the first pass reads it. -/
def CommandIn (cmds : List Byte) (pos : ℕ) : Prop :=
  pos + 8 ≤ cmds.length ∧ (isSegment cmds pos → pos + 40 ≤ cmds.length)

/-- The commands are in the buffer, as far as the first pass reads them, and so is what the second
    one reads of those it reaches; their segments have room. -/
structure MachoFits : Prop where
  commands : ∀ pos ∈ positionsOf file header, CommandIn (commandsOf file header) pos
  room : sys.mmap ≠ 0 → (∃ e ∈ segmentsOfCommands file header, e.seg.vaddr ≠ BitVec.allOnes 64) →
    ∀ k e, (segmentsOfCommands file header)[k]? = some e →
      sys.GrantsTo file 0 (segmentsOfCommands file header) k →
      sys.Stays file (sys.Room (segmentsIn (segmentsOfCommands file header))) k e

end

/-! ## The passes -/

section
variable {sys : Requests} {file : File} {header : Memory 64} {min : BitVec 64} {cmds : List Byte}
  {n pos : ℕ} {ps : List ℕ}

theorem firstPass_succ (n pos : ℕ) (h : CommandIn cmds pos) :
    firstPass cmds (n + 1) pos =
      (firstPass cmds n (pos + (cmdsize cmds pos).toNat)).map (pos :: ·) := by
  have h₄ : pos + 4 ≤ cmds.length := (Nat.add_le_add_left (by decide) pos).trans h.1
  rw [firstPass, if_neg (not_not.2 h₄), if_neg fun hseg => hseg.2 (h.2 hseg.1),
    if_neg (not_not.2 h.1)]

theorem commandIn_of_firstPass (h : firstPass cmds (n + 1) pos = some ps) : CommandIn cmds pos := by
  rw [firstPass] at h
  split_ifs at h with h₄ h₄₀ h₈
  exact ⟨h₈, fun hseg => not_not.1 fun hlt => h₄₀ ⟨hseg, hlt⟩⟩

/-- **The first pass** visits all commands, or one of them is outside of the buffer. -/
theorem firstPass_eq_some_iff (k : ℕ) :
    firstPass cmds n (position cmds k) = some ps ↔
      ps = (List.range' k n).map (position cmds) ∧ ∀ pos ∈ ps, CommandIn cmds pos := by
  induction n generalizing k ps with
  | zero =>
    rw [firstPass, Option.some.injEq]
    refine ⟨?_, fun h => h.1.symm⟩
    rintro rfl
    exact ⟨rfl, fun _ h => absurd h List.not_mem_nil⟩
  | succ n ih =>
    rw [List.range'_succ, List.map_cons]
    constructor
    · intro h
      have hin := commandIn_of_firstPass h
      rw [firstPass_succ n _ hin] at h
      obtain ⟨ps, hps, rfl⟩ := Option.map_eq_some_iff.1 h
      obtain ⟨hps, hall⟩ := (ih (k + 1)).1 hps
      exact ⟨congrArg _ hps, List.forall_mem_cons.2 ⟨hin, hall⟩⟩
    · rintro ⟨rfl, hall⟩
      rw [List.forall_mem_cons] at hall
      rw [firstPass_succ n _ hall.1]
      exact Option.map_eq_some_iff.2 ⟨_, (ih (k + 1)).2 ⟨rfl, hall.2⟩, rfl⟩

theorem segmentEntries_cons (cmds : List Byte) (pos : ℕ) (ps : List ℕ) :
    segmentEntries cmds (pos :: ps) =
      if isSegment cmds pos then entryAt cmds pos :: segmentEntries cmds ps else segmentEntries cmds
        ps := by
  rw [segmentEntries, List.filter_cons]
  split_ifs <;> rfl

/-- **The second pass**, over commands that the first one has visited, is the loop that fills the
    mapping, and it visits the same commands up to where it returns. -/
theorem secondPass_spec (sys : Requests) (file : File) (min : BitVec 64)
    (h : firstPass cmds n pos = some ps) (i : ℕ) (region : Buffer Byte) :
    (secondPass sys file min cmds n i pos region).map Prod.snd =
        fillSegments sys file min i (segmentEntries cmds ps) region ∧
      ∀ vs r, secondPass sys file min cmds n i pos region = some (vs, r) →
        vs <+: ps ∧ (r.2 → vs = ps) := by
  induction n generalizing i pos region ps with
  | zero =>
    cases h
    refine ⟨rfl, ?_⟩
    rintro vs r ⟨⟩
    exact ⟨List.prefix_rfl, fun _ => rfl⟩
  | succ n ih =>
    have hin := commandIn_of_firstPass h
    rw [firstPass_succ n _ hin] at h
    obtain ⟨ps, hps, rfl⟩ := Option.map_eq_some_iff.1 h
    have h₄ : pos + 4 ≤ cmds.length := (Nat.add_le_add_left (by decide) pos).trans hin.1
    rw [secondPass, if_neg (not_not.2 h₄), segmentEntries_cons]
    by_cases hseg : isSegment cmds pos
    · rw [if_pos hseg, if_pos hseg, fillSegments]
      cases hfill : fillSegment sys file min i (entryAt cmds pos) region with
      | none => exact ⟨rfl, fun vs r hr => by cases hr⟩
      | some r =>
        rw [Option.bind_some, Option.bind_some]
        by_cases hnext : r.2
        · obtain ⟨heq, hvisit⟩ := ih hps (i + 1) r.1
          rw [if_neg (not_not.2 hnext), if_neg (not_not.2 hin.1), if_pos hnext, ← heq,
            Option.map_map]
          refine ⟨rfl, fun vs r' hr => ?_⟩
          obtain ⟨⟨vs', r''⟩, hvs, hr⟩ := Option.map_eq_some_iff.1 hr
          cases hr
          obtain ⟨hleft, hend⟩ := hvisit vs' r'' hvs
          exact ⟨List.cons_prefix_cons.2 ⟨rfl, hleft⟩, fun hr => congrArg _ (hend hr)⟩
        · rw [if_pos hnext, if_neg hnext]
          refine ⟨rfl, fun vs r' hr => ?_⟩
          cases hr
          exact ⟨List.cons_prefix_cons.2 ⟨rfl, List.nil_prefix⟩, fun hr => absurd hr hnext⟩
    · obtain ⟨heq, hvisit⟩ := ih hps i region
      rw [if_neg hseg, if_neg hseg, if_neg (not_not.2 hin.1), ← heq, Option.map_map]
      refine ⟨rfl, fun vs r' hr => ?_⟩
      obtain ⟨⟨vs', r''⟩, hvs, hr⟩ := Option.map_eq_some_iff.1 hr
      cases hr
      obtain ⟨hleft, hend⟩ := hvisit vs' r'' hvs
      exact ⟨List.cons_prefix_cons.2 ⟨rfl, hleft⟩, fun hr => congrArg _ (hend hr)⟩

/-! ## The mapping -/

/-- The buffer has the commands of the file. -/
theorem Requests.ReadsCommands.bytes (h : sys.ReadsCommands file header) :
    sys.loadCommands file header = some (commandsOf file header) := by
  have hread := congrArg BitVec.toNat h.read
  have hsize := (sizeofcmds header).isLt
  rw [BitVec.toNat_setWidth_of_le (by decide)] at hread
  cases hcmds : sys.loadCommands file header with
  | none =>
    rw [hcmds] at hread
    have hnone : (2 : ℕ) ^ 64 - 1 = _ := hread
    omega
  | some bytes =>
    obtain ⟨-, hlen, -⟩ := File.getElem_read hcmds
    rw [hcmds, returned, BitVec.toNat_ofNat, Nat.mod_eq_of_lt (by omega)] at hread
    obtain ⟨k, -, hbytes⟩ := Option.map_eq_some_iff.1 hcmds
    have hleft : bytes <+: file.bytes.drop (headerSize header).toNat := by
      rw [← hbytes]
      exact (List.take_prefix _ _).trans (List.take_prefix _ _)
    rw [commandsOf, ← hread, ← List.prefix_iff_eq_take.1 hleft]

theorem machoMapSegments_of_not_reads (h : ¬ sys.ReadsCommands file header) :
    sys.machoMapSegments file header = some ⟨[], [], none⟩ := by
  rw [Requests.machoMapSegments]
  by_cases hmalloc : sys.malloc
  · rw [if_neg (not_not.2 hmalloc)]
    by_cases hseek : sys.seekTable
    · rw [if_neg (not_not.2 hseek)]
      exact if_pos fun hread => h ⟨hmalloc, hseek, hread⟩
    · exact if_pos hseek
  · exact if_pos hmalloc

theorem machoMapSegments_of_reads (h : sys.ReadsCommands file header) :
    sys.machoMapSegments file header =
      (firstPass (commandsOf file header) (ncmds header).toNat 0).bind
        (sys.mapCommands file (commandsOf file header) (ncmds header).toNat) := by
  rw [Requests.machoMapSegments, if_neg (not_not.2 h.malloc), if_neg (not_not.2 h.seek),
    if_neg (not_not.2 h.read), h.bytes]
  rfl

/-- The lowest address is `-1` if there is no segment at another one. -/
theorem lowest_eq_allOnes_iff (es : List Entry) :
    (addresses (segmentsIn es)).1 = BitVec.allOnes 64 ↔ ¬ ∃ e ∈ es,
    e.seg.vaddr ≠ BitVec.allOnes 64 := by
  constructor
  · rintro h ⟨e, he, hne⟩
    have hle := addresses_bounds.1 _ (mem_segmentsIn he)
    rw [h] at hle
    exact hne (BitVec.allOnes_le_iff.1 hle)
  · intro h
    push Not at h
    rcases (addresses_attained (segmentsIn es)).1 with hmin | ⟨seg, hseg, hmin⟩
    · exact hmin
    · obtain ⟨e, he, rfl⟩ := List.mem_map.1 hseg
      rw [← hmin]
      exact h e he

/-- The second pass stays where it should, if there is one, exactly if the loop does that fills the
    mapping. -/
theorem mapCommands_iff (h : firstPass cmds n 0 = some ps) :
    (∃ out, sys.mapCommands file cmds n ps = some out ∧ out.second <+: out.first ∧
        (out.result.isSome → out.second = out.first)) ↔
      (sys.mmap ≠ 0 → (∃ e ∈ segmentEntries cmds ps, e.seg.vaddr ≠ BitVec.allOnes 64) →
        (sys.fill file (segmentEntries cmds ps)).isSome) := by
  by_cases hmin : (addresses (segmentsIn (segmentEntries cmds ps))).1 = BitVec.allOnes 64
  · refine ⟨fun _ _ hsome => absurd hsome ((lowest_eq_allOnes_iff _).1 hmin),
      fun _ => ⟨_, if_pos hmin, List.nil_prefix, fun h => by cases h⟩⟩
  by_cases hmmap : sys.mmap = 0
  · refine ⟨fun _ h => absurd hmmap h,
      fun _ => ⟨_, (if_neg hmin).trans (if_pos hmmap), List.nil_prefix, fun h => by cases h⟩⟩
  have hsome := not_not.1 fun h => hmin ((lowest_eq_allOnes_iff _).2 h)
  rw [imp_iff_right hmmap, imp_iff_right hsome]
  obtain ⟨hfill, hvisit⟩ := secondPass_spec sys file
    (addresses (segmentsIn (segmentEntries cmds ps))).1 h 0
    (mapped sys.mmap ((addresses (segmentsIn (segmentEntries cmds ps))).2 -
      (addresses (segmentsIn (segmentEntries cmds ps))).1))
  rw [Requests.fill, ← hfill, Option.isSome_map, Requests.mapCommands]
  rw [if_neg hmin, if_neg hmmap]
  constructor
  · rintro ⟨out, hout, -⟩
    obtain ⟨p, hp, -⟩ := Option.map_eq_some_iff.1 hout
    exact Option.isSome_of_mem hp
  · intro hisSome
    obtain ⟨p, hp⟩ := Option.isSome_iff_exists.1 hisSome
    obtain ⟨hleft, hend⟩ := hvisit p.1 p.2 hp
    refine ⟨_, Option.map_eq_some_iff.2 ⟨p, hp, rfl⟩, hleft, fun hres => hend ?_⟩
    by_contra hnext
    dsimp only at hres
    rw [if_neg hnext] at hres
    cases hres

/-- **The mapping of a Mach-O file** is as it should be exactly if the commands are in the buffer,
    and the segments have room in the mapping. -/
theorem machoMapped_iff (sys : Requests) (file : File) (header : Memory 64) :
    MachoMapped sys file header ↔ (sys.ReadsCommands file header → MachoFits sys file header) := by
  by_cases hreads : sys.ReadsCommands file header
  swap
  · refine ⟨fun _ h => absurd h hreads, fun _ => ⟨_, machoMapSegments_of_not_reads hreads, ?_⟩⟩
    exact ⟨List.prefix_rfl, fun h => by cases h⟩
  rw [imp_iff_right hreads, MachoMapped, machoMapSegments_of_reads hreads]
  have hpass : ∀ ps, firstPass (commandsOf file header) (ncmds header).toNat 0 = some ps ↔
      ps = positionsOf file header ∧ ∀ pos ∈ ps, CommandIn (commandsOf file header) pos :=
    fun ps => firstPass_eq_some_iff 0
  constructor
  · rintro ⟨out, hout, hvisit⟩
    obtain ⟨ps, hfirst, hmap⟩ := Option.bind_eq_some_iff.1 hout
    obtain ⟨rfl, hcommands⟩ := (hpass ps).1 hfirst
    exact ⟨hcommands, fun hmmap hsome => fill_isSome_iff.1
      ((mapCommands_iff hfirst).1 ⟨out, hmap, hvisit⟩ hmmap hsome)⟩
  · intro hfits
    have hfirst := (hpass _).2 ⟨rfl, hfits.commands⟩
    obtain ⟨out, hmap, hvisit⟩ := (mapCommands_iff hfirst).2 fun hmmap hsome =>
      fill_isSome_iff.2 (hfits.room hmmap hsome)
    exact ⟨out, Option.bind_eq_some_iff.2 ⟨_, hfirst, hmap⟩, hvisit⟩

end

/-! ## Runs -/

/-- A dynamic library with one segment, whose command is the only one. -/
def oneSegmentMacho (vmaddr vmsize fileoff filesize : ℕ) : File where
  bytes := leBytes 4 0xfeedfacf ++ leBytes 4 0x0100000c ++ leBytes 4 0 ++ leBytes 4 6 ++
    leBytes 4 1 ++ leBytes 4 72 ++ leBytes 4 0 ++ leBytes 4 0 ++
    leBytes 4 0x19 ++ leBytes 4 72 ++ leBytes 16 0 ++ leBytes 8 vmaddr ++ leBytes 8 vmsize ++
    leBytes 8 fileoff ++ leBytes 8 filesize ++ leBytes 4 3 ++ leBytes 4 3 ++ leBytes 4 0 ++
    leBytes 4 0
  length_lt := by
    simp only [List.length_append, length_leBytes]
    decide

/-- More bytes of the file than there is memory for the segment. -/
theorem segment_leaves_mapping :
    machoValidateHeader (oneSegmentMacho 0 1 0 104).header ∧
      granting.ReadsCommands (oneSegmentMacho 0 1 0 104) (oneSegmentMacho 0 1 0 104).header ∧
      ¬ MachoMapped granting (oneSegmentMacho 0 1 0 104) (oneSegmentMacho 0 1 0 104).header := by
  refine ⟨by decide +kernel, ⟨rfl, rfl, by decide +kernel⟩, ?_⟩
  rintro ⟨out, h, -⟩
  have hnone : (granting.machoMapSegments (oneSegmentMacho 0 1 0 104)
      (oneSegmentMacho 0 1 0 104).header).isNone := by
    decide +kernel
  rw [h] at hnone
  cases hnone

end PocketDarwin.Mindyld
