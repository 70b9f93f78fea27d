/-
  The bytes that the loaders of `mindyld` put into a mapping.

  Both loaders have the same loop over the segments of a file: `lseek`, `read` to where the
  segment goes, `memset` behind it, `mprotect`.  The system may refuse each of these, and a
  `read` may give less than it was asked for.  An access outside of the mapping or of the table
  with the segments is `none`.

  * `fillSegments_isSome_iff`: when the loop has no such access.
  * `fillSegments_spec`: when it gets to its end, and what is in the mapping then.
  * `room_iff`: what has its place in a mapping, told by the addresses in the file.
-/
import PocketDarwin.LittleEndian
import PocketDarwin.Segments
import PocketDarwin.Mindyld.Loader

namespace PocketDarwin.Mindyld

abbrev Byte := BitVec 8

/-! ## The system -/

/-- The bytes of a file; an `off_t` counts them. -/
structure File where
  bytes : List Byte
  length_lt : bytes.length < 2 ^ 63

/-- The bytes of a file in memory, as a header is read. -/
def File.header (file : File) : Memory 64 := fun a => file.bytes.getD a.toNat 0

/-- What the system answers while one file is mapped. -/
structure Requests where
  /-- `open`, `read` of the header, and `malloc` of the handle -/
  openFile : Bool
  readHeader : Option ℕ
  handle : Bool
  /-- `malloc`, `lseek` and `read` for the program headers or load commands -/
  malloc : Bool
  seekTable : Bool
  readTable : Option ℕ
  mmap : BitVec 64
  /-- `lseek`, `read` and `mprotect` for the segment with this number -/
  seek : ℕ → Bool
  read : ℕ → Option ℕ
  mprotect : ℕ → BitVec 32 → Bool

/-- A system that grants all requests. -/
def granting : Requests where
  openFile := true
  readHeader := some 4096
  handle := true
  malloc := true
  seekTable := true
  readTable := some 4096
  mmap := 0x10000
  seek := fun _ => true
  read := fun _ => some 4096
  mprotect := fun _ _ => true

/-- The bytes that `read` puts into its buffer: at most `most` of those that it was asked for and
    that the file has, and none in case of an error. -/
def File.read (file : File) (offset n : BitVec 64) (most : Option ℕ) : Option (List Byte) :=
  most.map fun most => ((file.bytes.drop offset.toNat).take n.toNat).take most

/-- The `ssize_t` that it returns. -/
def returned (answer : Option (List Byte)) : BitVec 64 :=
  match answer with
  | none => -1
  | some bytes => BitVec.ofNat 64 bytes.length

/-- The region of a mapping, which is full of zeros. -/
def mapped (base total : BitVec 64) : Buffer Byte :=
  .filled (if base = mapFailed 64 then 0 else total.toNat) 0

/-! ## The loop -/

/-- A segment, with where its bytes are in the file and the protections of its memory. -/
structure FileSegment extends Segment where
  offset : BitVec 64
  prot : BitVec 32

/-- What the loop reads for a segment, and whether the fields are in the table that was read:
    those that the loops before did not read. -/
structure Entry where
  seg : FileSegment
  offsetIn : Bool := true
  fileszIn : Bool := true
  protIn : Bool := true

section
variable (sys : Requests) (file : File) (min : BitVec 64)

/-- The `read` for a segment. -/
def Requests.data (i : ℕ) (seg : FileSegment) : Option (List Byte) :=
  file.read seg.offset seg.filesz (sys.read i)

/-- "Zero out BSS section" -/
def zeroBss (seg : FileSegment) (region : Buffer Byte) : Option (Buffer Byte) :=
  if seg.filesz < seg.memsz then
    region.sets ((seg.vaddr - min).toNat + seg.filesz.toNat)
      (List.replicate (seg.memsz - seg.filesz).toNat 0)
  else some region

/-- The body of the loop, with whether the next round follows. -/
def fillSegment (i : ℕ) (e : Entry) (region : Buffer Byte) : Option (Buffer Byte × Bool) :=
  if ¬ e.offsetIn then none
  else if ¬ sys.seek i then some (region, false)
  else if ¬ e.fileszIn then none
  else
    let answer := sys.data file i e.seg
    (region.sets (e.seg.vaddr - min).toNat (answer.getD [])).bind fun region =>
      if returned answer ≠ e.seg.filesz then some (region, false)
      else
        (zeroBss min e.seg region).bind fun region =>
          if ¬ e.protIn then none else some (region, sys.mprotect i e.seg.prot)

/-- The loop from the segment with the number `i` on. -/
def fillSegments : ℕ → List Entry → Buffer Byte → Option (Buffer Byte × Bool)
  | _, [], region => some (region, true)
  | i, e :: es, region =>
    (fillSegment sys file min i e region).bind fun r =>
      if r.2 then fillSegments (i + 1) es r.1 else some r

/-! ## What a round does -/

/-- `read` returned what it was asked for. -/
def Requests.Complete (i : ℕ) (seg : FileSegment) : Prop :=
  returned (sys.data file i seg) = seg.filesz

/-- All that was asked for a segment was granted. -/
structure Requests.Grants (i : ℕ) (seg : FileSegment) : Prop where
  seek : sys.seek i
  read : sys.Complete file i seg
  mprotect : sys.mprotect i seg.prot

/-- No access of a round is outside; `Room v n` tells that `n` bytes from the address `v` on have
    their place in the mapping. -/
structure Requests.Stays (Room : BitVec 64 → ℕ → Prop) (i : ℕ) (e : Entry) : Prop where
  offset : e.offsetIn
  filesz : sys.seek i → e.fileszIn
  data : sys.seek i → (sys.data file i e.seg).getD [] ≠ [] →
    Room e.seg.vaddr ((sys.data file i e.seg).getD []).length
  zeros : sys.seek i → sys.Complete file i e.seg → e.seg.filesz < e.seg.memsz →
    Room e.seg.vaddr e.seg.memsz.toNat
  prot : sys.seek i → sys.Complete file i e.seg → e.protIn

/-- The segment as it is put into the mapping. -/
def Requests.loadSegment (i : ℕ) (seg : FileSegment) : LoadSegment Byte where
  index := (seg.vaddr - min).toNat
  data := (sys.data file i seg).getD []
  filesz := seg.filesz.toNat
  memsz := seg.memsz.toNat

variable {sys file min} {i : ℕ} {e : Entry} {region region' : Buffer Byte} {next : Bool}

theorem zeroBss_eq (seg : FileSegment) (region : Buffer Byte) :
    zeroBss min seg region =
      region.sets ((seg.vaddr - min).toNat + seg.filesz.toNat)
        (List.replicate (seg.memsz.toNat - seg.filesz.toNat) 0) := by
  rw [zeroBss]
  split_ifs with hlt
  · rw [BitVec.toNat_sub_of_le (BitVec.le_of_lt hlt)]
  · rw [BitVec.lt_def] at hlt
    rw [Nat.sub_eq_zero_of_le (not_lt.1 hlt)]
    rfl

/-- A round whose `lseek` fails. -/
theorem fillSegment_of_not_seek (hoffset : e.offsetIn) (hseek : ¬ sys.seek i) :
    fillSegment sys file min i e region = some (region, false) := by
  rw [fillSegment, if_neg (not_not.2 hoffset), if_pos hseek]

/-- One whose `read` does not give all. -/
theorem fillSegment_of_not_complete (hoffset : e.offsetIn) (hseek : sys.seek i)
    (hfilesz : e.fileszIn)
    (hread : ¬ sys.Complete file i e.seg) :
    fillSegment sys file min i e region =
      (region.sets (e.seg.vaddr - min).toNat ((sys.data file i e.seg).getD [])).map (·, false) := by
  rw [fillSegment, if_neg (not_not.2 hoffset), if_neg (not_not.2 hseek), if_neg (not_not.2 hfilesz),
    Option.map_eq_bind]
  exact congrArg (Option.bind _) (funext fun region => if_pos hread)

/-- One that loads the segment. -/
theorem fillSegment_of_complete (hoffset : e.offsetIn) (hseek : sys.seek i) (hfilesz : e.fileszIn)
    (hread : sys.Complete file i e.seg) :
    fillSegment sys file min i e region =
      (region.load (sys.loadSegment file min i e.seg)).bind fun region =>
        if ¬ e.protIn then none else some (region, sys.mprotect i e.seg.prot) := by
  rw [fillSegment, if_neg (not_not.2 hoffset), if_neg (not_not.2 hseek), if_neg (not_not.2 hfilesz),
    Buffer.load, Option.bind_eq_bind, Option.bind_assoc]
  refine congrArg (Option.bind _) (funext fun region => ?_)
  refine (if_neg (not_not.2 hread)).trans ?_
  rw [zeroBss_eq]
  rfl

theorem fillSegment_isSome_iff :
    (fillSegment sys file min i e region).isSome ↔
      sys.Stays file (fun v n => (v - min).toNat + n ≤ region.size) i e := by
  by_cases hoffset : e.offsetIn
  swap
  · rw [fillSegment, if_pos hoffset]
    exact ⟨fun h => absurd h Bool.false_ne_true, fun h => absurd h.offset hoffset⟩
  by_cases hseek : sys.seek i
  swap
  · rw [fillSegment_of_not_seek hoffset hseek]
    exact ⟨fun _ => ⟨hoffset, fun h => absurd h hseek, fun h => absurd h hseek,
      fun h => absurd h hseek, fun h => absurd h hseek⟩, fun _ => rfl⟩
  by_cases hfilesz : e.fileszIn
  swap
  · rw [fillSegment, if_neg (not_not.2 hoffset), if_neg (not_not.2 hseek), if_pos hfilesz]
    exact ⟨fun h => absurd h Bool.false_ne_true, fun h => absurd (h.filesz hseek) hfilesz⟩
  by_cases hread : sys.Complete file i e.seg
  · rw [fillSegment_of_complete hoffset hseek hfilesz hread]
    have hload : (region.load (sys.loadSegment file min i e.seg)).isSome ↔
        (sys.loadSegment file min i e.seg).Fits region.size := Buffer.load_isSome_iff
    constructor
    · intro h
      obtain ⟨r, hr⟩ := Option.isSome_iff_exists.1 h
      obtain ⟨region₁, h₁, h₂⟩ := Option.bind_eq_some_iff.1 hr
      have hfits := hload.1 (Option.isSome_of_mem h₁)
      have hprot : e.protIn := by
        by_contra hprot
        rw [if_pos hprot] at h₂
        cases h₂
      exact ⟨hoffset, fun _ => hfilesz, fun _ => hfits.data,
        fun _ _ hlt => hfits.zeros (BitVec.lt_def.1 hlt), fun _ _ => hprot⟩
    · intro h
      have hfits : (sys.loadSegment file min i e.seg).Fits region.size :=
        ⟨h.data hseek, fun hlt => h.zeros hseek hread (BitVec.lt_def.2 hlt)⟩
      obtain ⟨region₁, h₁⟩ := Option.isSome_iff_exists.1 (hload.2 hfits)
      rw [h₁, Option.bind_some, if_neg (not_not.2 (h.prot hseek hread))]
      rfl
  · rw [fillSegment_of_not_complete hoffset hseek hfilesz hread, Option.isSome_map,
      Buffer.sets_isSome_iff]
    exact ⟨fun h => ⟨hoffset, fun _ => hfilesz, fun _ => h, fun _ h => absurd h hread,
      fun _ h => absurd h hread⟩, fun h => h.data hseek⟩

/-- What a round leaves behind, if it has no access outside. -/
theorem fillSegment_spec (h : fillSegment sys file min i e region = some (region', next)) :
    region'.size = region.size ∧ (next ↔ sys.Grants file i e.seg) ∧
      (next → region.load (sys.loadSegment file min i e.seg) = some region') := by
  have hstays := fillSegment_isSome_iff.1 (Option.isSome_of_mem h)
  by_cases hseek : sys.seek i
  swap
  · rw [fillSegment_of_not_seek hstays.offset hseek] at h
    cases h
    exact ⟨rfl, ⟨fun h => absurd h Bool.false_ne_true, fun h => absurd h.seek hseek⟩,
      fun h => absurd h Bool.false_ne_true⟩
  by_cases hread : sys.Complete file i e.seg
  · rw [fillSegment_of_complete hstays.offset hseek (hstays.filesz hseek) hread] at h
    obtain ⟨region₁, h₁, h₂⟩ := Option.bind_eq_some_iff.1 h
    rw [if_neg (not_not.2 (hstays.prot hseek hread))] at h₂
    cases h₂
    exact ⟨Buffer.size_load h₁, ⟨fun h => ⟨hseek, hread, h⟩, fun h => h.mprotect⟩, fun _ => h₁⟩
  · rw [fillSegment_of_not_complete hstays.offset hseek (hstays.filesz hseek) hread] at h
    obtain ⟨region₁, h₁, h₂⟩ := Option.map_eq_some_iff.1 h
    cases h₂
    refine ⟨?_, ⟨fun h => absurd h Bool.false_ne_true, fun h => absurd h.read hread⟩,
      fun h => absurd h Bool.false_ne_true⟩
    rw [Buffer.sets_eq h₁]
    rfl

/-! ## The loop -/

variable {es : List Entry}

/-- All that was asked for the first `n` segments was granted. -/
def Requests.GrantsTo (sys : Requests) (file : File) (i : ℕ) (es : List Entry) (n : ℕ) : Prop :=
  ∀ k < n, ∀ e, es[k]? = some e → sys.Grants file (i + k) e.seg

/-- **The loop** has no access outside exactly if the rounds that are reached have none. -/
theorem fillSegments_isSome_iff :
    (fillSegments sys file min i es region).isSome ↔
      ∀ k e, es[k]? = some e → sys.GrantsTo file i es k →
        sys.Stays file (fun v n => (v - min).toNat + n ≤ region.size) (i + k) e := by
  induction es generalizing i region with
  | nil => simp [fillSegments]
  | cons e es ih =>
    rw [fillSegments]
    constructor
    · intro h k
      obtain ⟨r, hr⟩ := Option.isSome_iff_exists.1 h
      obtain ⟨⟨region₁, next⟩, h₁, h₂⟩ := Option.bind_eq_some_iff.1 hr
      obtain ⟨hsize, hnext, -⟩ := fillSegment_spec h₁
      rcases k with _ | k
      · rintro e' ⟨⟩ -
        exact fillSegment_isSome_iff.1 (Option.isSome_of_mem h₁)
      · intro e' he' hgrants
        rw [if_pos (hnext.2 (hgrants 0 k.succ_pos e rfl))] at h₂
        rw [← hsize, show i + (k + 1) = i + 1 + k by omega]
        refine ih.1 (Option.isSome_of_mem h₂) k e' he' fun j hj f hf => ?_
        rw [show i + 1 + j = i + (j + 1) by omega]
        exact hgrants (j + 1) (by omega) f hf
    · intro h
      have hfirst : (fillSegment sys file min i e region).isSome :=
        fillSegment_isSome_iff.2 (h 0 e rfl fun k hk => absurd hk k.not_lt_zero)
      obtain ⟨⟨region₁, next⟩, h₁⟩ := Option.isSome_iff_exists.1 hfirst
      obtain ⟨hsize, hnext, -⟩ := fillSegment_spec h₁
      rw [h₁, Option.bind_some]
      split_ifs with hn
      · refine ih.2 fun k e' he' hgrants => ?_
        rw [hsize, show i + 1 + k = i + (k + 1) by omega]
        refine h (k + 1) e' he' fun j hj f hf => ?_
        rcases j with _ | j
        · cases hf
          exact hnext.1 hn
        · rw [show i + (j + 1) = i + 1 + j by omega]
          exact hgrants j (by omega) f hf
      · rfl

/-- The segments with their numbers, as they are put into the mapping. -/
def Requests.loadSegments (sys : Requests) (file : File) (min : BitVec 64) (i : ℕ)
    (es : List Entry) : List (LoadSegment Byte) :=
  (es.zipIdx i).map fun p => sys.loadSegment file min p.2 p.1.seg

/-- **What the loop leaves behind**: it gets to its end exactly if everything is granted, and then
    the mapping is filled with all segments. -/
theorem fillSegments_spec (h : fillSegments sys file min i es region = some (region', next)) :
    (next ↔ sys.GrantsTo file i es es.length) ∧
      (next → region.loadAll (sys.loadSegments file min i es) = some region') := by
  induction es generalizing i region with
  | nil =>
    cases h
    exact ⟨⟨fun _ k hk => absurd hk k.not_lt_zero, fun _ => rfl⟩, fun _ => rfl⟩
  | cons e es ih =>
    rw [fillSegments] at h
    obtain ⟨⟨region₁, next₁⟩, h₁, h₂⟩ := Option.bind_eq_some_iff.1 h
    obtain ⟨-, hnext, hload⟩ := fillSegment_spec h₁
    have hcons : sys.GrantsTo file i (e :: es) (es.length + 1) ↔
        sys.Grants file i e.seg ∧ sys.GrantsTo file (i + 1) es es.length := by
      constructor
      · intro hg
        refine ⟨hg 0 (Nat.succ_pos _) e rfl, fun k hk f hf => ?_⟩
        rw [show i + 1 + k = i + (k + 1) by omega]
        exact hg (k + 1) (by omega) f hf
      · rintro ⟨hfirst, hrest⟩ (_ | k) hk f hf
        · cases hf
          exact hfirst
        · rw [show i + (k + 1) = i + 1 + k by omega]
          exact hrest k (by omega) f hf
    rw [List.length_cons, hcons]
    dsimp only at h₂
    split_ifs at h₂ with hn
    · obtain ⟨hend, hall⟩ := ih h₂
      refine ⟨?_, fun hn' => ?_⟩
      · rw [hend, iff_and_self]
        exact fun _ => hnext.1 hn
      · rw [Requests.loadSegments, List.zipIdx_cons, List.map_cons, Buffer.loadAll, hload hn,
          Option.bind_some]
        exact hall hn'
    · cases h₂
      exact ⟨⟨fun h => absurd h hn, fun h => absurd (hnext.2 h.1) hn⟩, fun h => absurd h hn⟩

end

/-! ## The extent of a mapping -/

/-- Where the memory of a segment ends, in 64 bits. -/
def Segment.stop (seg : Segment) : BitVec 64 := seg.vaddr + seg.memsz

/-- Memory up to `stop` is in the mapping: it ends behind no segment, or all segments end at the
    other end of the address space. -/
def Reaches (segs : List Segment) (stop : ℕ) : Prop :=
  (∃ top ∈ segs, stop ≤ top.stop.toNat) ∨
    (∀ top ∈ segs, ∀ seg ∈ segs, top.stop < seg.vaddr) ∧ ∃ top ∈ segs,
    stop ≤ top.stop.toNat + 2 ^ 64

section
variable {segs : List Segment} {seg : Segment}

theorem addresses_concat (segs : List Segment) (seg : Segment) :
    addresses (segs ++ [seg]) =
      (if seg.vaddr < (addresses segs).1 then seg.vaddr else (addresses segs).1,
        if (addresses segs).2 < seg.stop then seg.stop else (addresses segs).2) := by
  rw [addresses, List.foldl_concat]
  rfl

theorem addresses_bounds :
    (∀ seg ∈ segs, (addresses segs).1 ≤ seg.vaddr) ∧
      ∀ seg ∈ segs, seg.stop ≤ (addresses segs).2 := by
  induction segs using List.reverseRecOn with
  | nil => exact ⟨fun _ h => absurd h List.not_mem_nil, fun _ h => absurd h List.not_mem_nil⟩
  | append_singleton segs seg ih =>
    rw [addresses_concat]
    refine ⟨fun s hs => ?_, fun s hs => ?_⟩
    · have hold : s ∈ segs → (addresses segs).1 ≤ s.vaddr := ih.1 s
      dsimp only
      rcases List.mem_append.1 hs with hs | hs
      · split_ifs with hlt
        · exact BitVec.le_trans (BitVec.le_of_lt hlt) (hold hs)
        · exact hold hs
      · rw [List.mem_singleton.1 hs]
        split_ifs with hlt
        · exact BitVec.le_refl _
        · exact BitVec.not_lt.1 hlt
    · have hold : s ∈ segs → s.stop ≤ (addresses segs).2 := ih.2 s
      dsimp only
      rcases List.mem_append.1 hs with hs | hs
      · split_ifs with hlt
        · exact BitVec.le_trans (hold hs) (BitVec.le_of_lt hlt)
        · exact hold hs
      · rw [List.mem_singleton.1 hs]
        split_ifs with hlt
        · exact BitVec.le_refl _
        · exact BitVec.not_lt.1 hlt

/-- The bounds are those of segments, but for the values that the loop starts with. -/
theorem addresses_attained (segs : List Segment) :
    ((addresses segs).1 = BitVec.allOnes 64 ∨ ∃ seg ∈ segs, seg.vaddr = (addresses segs).1) ∧
      ((addresses segs).2 = 0 ∨ ∃ seg ∈ segs, seg.stop = (addresses segs).2) := by
  induction segs using List.reverseRecOn with
  | nil => exact ⟨.inl rfl, .inl rfl⟩
  | append_singleton segs seg ih =>
    rw [addresses_concat]
    have hnew : seg ∈ segs ++ [seg] := List.mem_append_right _ (List.mem_singleton_self seg)
    constructor
    · dsimp only
      split_ifs
      · exact .inr ⟨seg, hnew, rfl⟩
      · rcases ih.1 with h | ⟨s, hs, h⟩
        · exact .inl h
        · exact .inr ⟨s, List.mem_append_left _ hs, h⟩
    · dsimp only
      split_ifs
      · exact .inr ⟨seg, hnew, rfl⟩
      · rcases ih.2 with h | ⟨s, hs, h⟩
        · exact .inl h
        · exact .inr ⟨s, List.mem_append_left _ hs, h⟩

theorem exists_lowest (hseg : seg ∈ segs) : ∃ low ∈ segs, low.vaddr = (addresses segs).1 := by
  rcases (addresses_attained segs).1 with h | h
  · have hle := addresses_bounds.1 seg hseg
    rw [h] at hle ⊢
    exact ⟨seg, hseg, BitVec.allOnes_le_iff.1 hle⟩
  · exact h

theorem exists_highest (hseg : seg ∈ segs) : ∃ top ∈ segs, top.stop = (addresses segs).2 := by
  rcases (addresses_attained segs).2 with h | h
  · have hle := addresses_bounds.2 seg hseg
    rw [h] at hle ⊢
    exact ⟨seg, hseg, BitVec.le_zero_iff.1 hle⟩
  · exact h

/-- **The extent** of a mapping, told by the addresses of the segments. -/
theorem room_iff (hseg : seg ∈ segs) (n : ℕ) :
    (seg.vaddr - (addresses segs).1).toNat + n ≤ ((addresses segs).2 - (addresses segs).1).toNat ↔
      Reaches segs (seg.vaddr.toNat + n) := by
  obtain ⟨low, hlow, hmin⟩ := exists_lowest hseg
  obtain ⟨top, htop, hmax⟩ := exists_highest hseg
  have hle := BitVec.le_def.1 (addresses_bounds.1 seg hseg)
  have hupper : ∀ top ∈ segs, top.stop.toNat ≤ (addresses segs).2.toNat :=
    fun t ht => BitVec.le_def.1 (addresses_bounds.2 t ht)
  have hreach : ∀ m, (∃ top ∈ segs, m ≤ top.stop.toNat) ↔ m ≤ (addresses segs).2.toNat :=
    fun m => ⟨fun ⟨t, ht, h⟩ => h.trans (hupper t ht), fun h => ⟨top, htop, hmax ▸ h⟩⟩
  have hreach' : (∃ top ∈ segs, seg.vaddr.toNat + n ≤ top.stop.toNat + 2 ^ 64) ↔
      seg.vaddr.toNat + n ≤ (addresses segs).2.toNat + 2 ^ 64 :=
    ⟨fun ⟨t, ht, h⟩ => h.trans (Nat.add_le_add_right (hupper t ht) _),
      fun h => ⟨top, htop, hmax ▸ h⟩⟩
  have hwrap : (∀ top ∈ segs, ∀ seg ∈ segs, top.stop < seg.vaddr) ↔
      (addresses segs).2.toNat < (addresses segs).1.toNat := by
    constructor
    · intro h
      rw [← hmax, ← hmin]
      exact BitVec.lt_def.1 (h top htop low hlow)
    · intro h t ht s hs
      have hs' := BitVec.le_def.1 (addresses_bounds.1 s hs)
      exact BitVec.lt_def.2 (by have := hupper t ht; omega)
  rw [Reaches, hreach, hreach', hwrap, BitVec.toNat_sub_of_le (addresses_bounds.1 seg hseg)]
  have hmin' := (addresses segs).1.isLt
  have hmax' := (addresses segs).2.isLt
  rcases Nat.lt_or_ge (addresses segs).2.toNat (addresses segs).1.toNat with hlt | hge
  · rw [BitVec.toNat_sub, Nat.mod_eq_of_lt (by omega)]
    omega
  · rw [BitVec.toNat_sub_of_le (BitVec.le_def.2 hge)]
    omega

end

/-! ## What is in the mapping -/

/-- `n` bytes from the address `v` on have their place in the mapping. -/
def Requests.Room (sys : Requests) (segs : List Segment) (v : BitVec 64) (n : ℕ) : Prop :=
  sys.mmap ≠ mapFailed 64 ∧ Reaches segs (v.toNat + n)

/-- The segment is in the mapping: its bytes of the file, and zeros behind them. -/
structure Held (file : File) (min : BitVec 64) (seg : FileSegment) (region : Buffer Byte) :
    Prop where
  data : ∀ j < seg.filesz.toNat, ∃ b, file.bytes[seg.offset.toNat + j]? = some b ∧
    region.get ((seg.vaddr - min).toNat + j) = some b
  zeros : ∀ j, seg.filesz.toNat ≤ j → j < seg.memsz.toNat →
    region.get ((seg.vaddr - min).toNat + j) = some 0

/-- The segments of the entries. -/
def segmentsIn (es : List Entry) : List Segment := es.map (·.seg.toSegment)

section
variable {sys : Requests} {file : File} {min : BitVec 64} {i : ℕ} {e : Entry} {es : List Entry}
  {seg : FileSegment} {region : Buffer Byte}

theorem mem_segmentsIn (h : e ∈ es) : e.seg.toSegment ∈ segmentsIn es := List.mem_map.2 ⟨e, h, rfl⟩

theorem stays_congr {R R' : BitVec 64 → ℕ → Prop}
    (h : ∀ n, 0 < n → (R e.seg.vaddr n ↔ R' e.seg.vaddr n)) :
    sys.Stays file R i e ↔ sys.Stays file R' i e := by
  have hone : ∀ {R R' : BitVec 64 → ℕ → Prop}, (∀ n, 0 < n → (R e.seg.vaddr n ↔ R' e.seg.vaddr n)) →
      sys.Stays file R i e → sys.Stays file R' i e := by
    intro R R' h hs
    refine ⟨hs.offset, hs.filesz, fun hseek hne => ?_, fun hseek hread hlt => ?_, hs.prot⟩
    · exact (h _ (List.length_pos_iff.2 hne)).1 (hs.data hseek hne)
    · exact (h _ (Nat.zero_lt_of_lt (BitVec.lt_def.1 hlt))).1 (hs.zeros hseek hread hlt)
  exact ⟨hone h, hone fun n hn => (h n hn).symm⟩

/-- The loop in a new mapping of all the segments. -/
def Requests.fill (sys : Requests) (file : File) (es : List Entry) : Option (Buffer Byte × Bool) :=
  fillSegments sys file (addresses (segmentsIn es)).1 0 es
    (mapped sys.mmap ((addresses (segmentsIn es)).2 - (addresses (segmentsIn es)).1))

/-- **The loop stays in the mapping** exactly if every segment that is reached has room there. -/
theorem fill_isSome_iff :
    (sys.fill file es).isSome ↔
      ∀ k e, es[k]? = some e → sys.GrantsTo file 0 es k →
        sys.Stays file (sys.Room (segmentsIn es)) k e := by
  rw [Requests.fill, fillSegments_isSome_iff]
  refine forall₂_congr fun k e => forall₂_congr fun he _ => ?_
  rw [Nat.zero_add]
  refine stays_congr fun n hn => ?_
  have hseg := mem_segmentsIn (List.mem_of_getElem? he)
  rw [Requests.Room, ← room_iff hseg]
  show _ + n ≤ (if sys.mmap = mapFailed 64 then 0 else _) ↔ _
  split_ifs with hfailed
  · refine ⟨fun h => ?_, fun h => absurd hfailed h.1⟩
    omega
  · exact ⟨fun h => ⟨hfailed, h⟩, fun h => h.2⟩

theorem File.getElem_read {offset n : BitVec 64} {most : Option ℕ} {bytes : List Byte}
    (h : file.read offset n most = some bytes) :
    bytes.length ≤ n.toNat ∧ bytes.length < 2 ^ 63 ∧
      ∀ j < bytes.length, file.bytes[offset.toNat + j]? = some (bytes.getD j 0) := by
  obtain ⟨k, -, rfl⟩ := Option.map_eq_some_iff.1 h
  have hfile := file.length_lt
  have hlen : (((file.bytes.drop offset.toNat).take n.toNat).take k).length ≤ k ∧
      (((file.bytes.drop offset.toNat).take n.toNat).take k).length ≤ n.toNat ∧
      (((file.bytes.drop offset.toNat).take n.toNat).take k).length ≤
        file.bytes.length - offset.toNat := by
    rw [List.length_take, List.length_take, List.length_drop]
    omega
  refine ⟨hlen.2.1, by omega, fun j hj => ?_⟩
  rw [List.getD_eq_getElem?_getD, List.getElem?_take_of_lt (hj.trans_le hlen.1),
    List.getElem?_take_of_lt (hj.trans_le hlen.2.1), List.getElem?_drop,
    List.getElem?_eq_getElem (by omega), Option.getD_some]

/-- A `read` that returned what it was asked for gave that many bytes, or failed for `-1`. -/
theorem Requests.Complete.cases (h : sys.Complete file i seg) :
    (∃ bytes, sys.data file i seg = some bytes ∧ bytes.length = seg.filesz.toNat) ∨
      (sys.read i = none ∧ seg.filesz = -1) := by
  rw [Requests.Complete] at h
  cases hdata : sys.data file i seg with
  | none =>
    rw [hdata] at h
    exact .inr ⟨Option.map_eq_none_iff.1 hdata, h.symm⟩
  | some bytes =>
    obtain ⟨-, hlt, -⟩ := File.getElem_read hdata
    rw [hdata] at h
    refine .inl ⟨bytes, rfl, ?_⟩
    rw [← h, returned, BitVec.toNat_ofNat, Nat.mod_eq_of_lt (by omega)]

theorem length_data_le (i : ℕ) (seg : FileSegment) :
    (sys.loadSegment file min i seg).data.length ≤ (sys.loadSegment file min i seg).filesz := by
  show ((sys.data file i seg).getD []).length ≤ seg.filesz.toNat
  cases hdata : sys.data file i seg with
  | none => exact Nat.zero_le _
  | some bytes => exact (File.getElem_read hdata).1

/-- No file is as long as the `-1` that a `read` returns for an error. -/
theorem Held.read (h : Held file min seg region) (hread : sys.Complete file i seg) :
    ∃ bytes, sys.data file i seg = some bytes ∧ bytes.length = seg.filesz.toNat := by
  rcases hread.cases with hbytes | ⟨-, hfilesz⟩
  · exact hbytes
  · obtain ⟨b, hb, -⟩ := h.data (2 ^ 63) (by rw [hfilesz]; decide)
    have hlt := (List.getElem?_eq_some_iff.1 hb).1
    have hfile := file.length_lt
    omega

theorem get_eq_some_iff {p : ℕ} {b : Byte} :
    region.get p = some b ↔ p < region.size ∧ region.elem p = b := by
  rw [Buffer.get, Option.ite_none_right_eq_some, Option.some.injEq]

/-- A segment is held if each byte that is written for it is. -/
theorem held_iff {bytes : List Byte} (hdata : sys.data file i seg = some bytes)
    (hlen : bytes.length = seg.filesz.toNat)
    (hfits : (sys.loadSegment file min i seg).Fits region.size) :
    Held file min seg region ↔
      ∀ p, (sys.loadSegment file min i seg).Covers p →
        region.elem p = (sys.loadSegment file min i seg).valueAt p := by
  obtain ⟨-, -, hbytes⟩ := File.getElem_read hdata
  have hload : sys.loadSegment file min i seg =
      ⟨(seg.vaddr - min).toNat, bytes, seg.filesz.toNat, seg.memsz.toNat⟩ := by
    rw [Requests.loadSegment, hdata]
    rfl
  rw [hload] at hfits ⊢
  have hvalue : ∀ j, LoadSegment.valueAt ⟨(seg.vaddr - min).toNat, bytes, seg.filesz.toNat,
      seg.memsz.toNat⟩ ((seg.vaddr - min).toNat + j) = bytes.getD j 0 := by
    intro j
    rw [LoadSegment.valueAt, Nat.add_sub_cancel_left]
  have hzero : ∀ j, bytes.length ≤ j → bytes.getD j 0 = 0 := by
    intro j hj
    rw [List.getD_eq_getElem?_getD, List.getElem?_eq_none hj, Option.getD_none]
  have hdataFits : bytes ≠ [] → (seg.vaddr - min).toNat + bytes.length ≤ region.size := hfits.data
  have hzerosFit : seg.filesz.toNat < seg.memsz.toNat →
      (seg.vaddr - min).toNat + seg.memsz.toNat ≤ region.size := hfits.zeros
  constructor
  · intro h p hp
    rw [LoadSegment.Covers] at hp
    dsimp only at hp
    have hplace : (seg.vaddr - min).toNat ≤ p := by
      rcases hp with ⟨hle, -⟩ | ⟨hle, -⟩
      · exact hle
      · exact (Nat.le_add_right _ _).trans hle
    obtain ⟨j, rfl⟩ := Nat.exists_eq_add_of_le hplace
    rw [hvalue]
    rcases hp with ⟨-, hlt⟩ | ⟨hle, hlt⟩
    · have hj : j < bytes.length := by omega
      obtain ⟨b, hb, hget⟩ := h.data j (hlen ▸ hj)
      rw [hbytes j hj] at hb
      rw [(get_eq_some_iff.1 hget).2, Option.some.inj hb]
    · have hj : seg.filesz.toNat ≤ j := by omega
      rw [hzero j (hlen.trans_le hj)]
      exact (get_eq_some_iff.1 (h.zeros j hj (by omega))).2
  · intro h
    constructor
    · intro j hj
      have hj' : j < bytes.length := hlen.symm ▸ hj
      have hend := hdataFits (List.ne_nil_of_length_pos (Nat.zero_lt_of_lt hj'))
      refine ⟨bytes.getD j 0, hbytes j hj', get_eq_some_iff.2 ⟨by omega, ?_⟩⟩
      rw [h _ (.inl ⟨Nat.le_add_right _ _, Nat.add_lt_add_left hj' _⟩), hvalue]
    · intro j hle hlt
      have hend := hzerosFit (Nat.lt_of_le_of_lt hle hlt)
      refine get_eq_some_iff.2 ⟨by omega, ?_⟩
      rw [h _ (.inr ⟨Nat.add_le_add_left hle _, Nat.add_lt_add_left hlt _⟩), hvalue]
      exact hzero j (hlen.trans_le hle)

/-- The segments as they would be put at their own addresses. -/
theorem loadSegments_shift (hmin : ∀ e ∈ es, min ≤ e.seg.vaddr) (i : ℕ) :
    sys.loadSegments file 0 i es = (sys.loadSegments file min i es).map (·.shift min.toNat) := by
  rw [Requests.loadSegments, Requests.loadSegments, List.map_map]
  refine List.map_congr_left fun p hp => ?_
  have hle := BitVec.le_def.1 (hmin p.1 (List.fst_mem_of_mem_zipIdx hp))
  rw [Function.comp, Requests.loadSegment, Requests.loadSegment, LoadSegment.shift]
  congr 1
  dsimp only
  rw [BitVec.toNat_sub_of_le (hmin p.1 (List.fst_mem_of_mem_zipIdx hp)), sub_zero]
  omega

/-- **What a filled mapping holds**: all segments, exactly if no `read` failed and any two segments
    agree where they overlap. -/
theorem fill_held_iff (h : sys.fill file es = some (region, true)) :
    (∀ e ∈ es, Held file (addresses (segmentsIn es)).1 e.seg region) ↔
      (∀ k < es.length, (sys.read k).isSome) ∧
        (sys.loadSegments file 0 0 es).Pairwise fun seg seg' => seg.Agrees seg' := by
  rw [Requests.fill] at h
  obtain ⟨hgrants, hload⟩ := fillSegments_spec h
  have hgrants := hgrants.1 rfl
  have hload := hload rfl
  have hfits : ∀ seg ∈ sys.loadSegments file (addresses (segmentsIn es)).1 0 es,
      seg.Fits region.size := by
    rw [Buffer.size_loadAll hload]
    exact Buffer.loadAll_isSome_iff.1 (Option.isSome_of_mem hload)
  have hentry : ∀ k e, es[k]? = some e →
      sys.loadSegment file (addresses (segmentsIn es)).1 k e.seg ∈
      sys.loadSegments file (addresses (segmentsIn es)).1 0 es := by
    intro k e he
    exact List.mem_map.2 ⟨(e, k), List.mem_zipIdx_iff_getElem?.2 he, rfl⟩
  have hcomplete : ∀ k e, es[k]? = some e → sys.Complete file k e.seg := by
    intro k e he
    have hk := (List.getElem?_eq_some_iff.1 he).1
    have := (hgrants k hk e he).read
    rwa [Nat.zero_add] at this
  have hmin : ∀ e ∈ es, (addresses (segmentsIn es)).1 ≤ e.seg.vaddr :=
    fun e he => addresses_bounds.1 _ (mem_segmentsIn he)
  rw [loadSegments_shift hmin, List.pairwise_map]
  simp only [LoadSegment.agrees_shift]
  rw [← Buffer.loadAll_holds_iff hload fun seg hseg => by
    obtain ⟨p, -, rfl⟩ := List.mem_map.1 hseg
    exact length_data_le p.2 p.1.seg]
  constructor
  · intro hheld
    have hread : ∀ k e, es[k]? = some e →
        ∃ bytes, sys.data file k e.seg = some bytes ∧ bytes.length = e.seg.filesz.toNat :=
      fun k e he => (hheld e (List.mem_of_getElem? he)).read (hcomplete k e he)
    refine ⟨fun k hk => ?_, fun seg hseg => ?_⟩
    · obtain ⟨bytes, hbytes, -⟩ := hread k es[k] (List.getElem?_eq_getElem hk)
      rw [Requests.data, File.read] at hbytes
      cases hk' : sys.read k with
      | none =>
        rw [hk'] at hbytes
        cases hbytes
      | some most => rfl
    · obtain ⟨⟨e, k⟩, hmem, rfl⟩ := List.mem_map.1 hseg
      have he := List.mem_zipIdx_iff_getElem?.1 hmem
      obtain ⟨bytes, hbytes, hlen⟩ := hread k e he
      exact (held_iff hbytes hlen (hfits _ hseg)).1 (hheld e (List.mem_of_getElem? he))
  · rintro ⟨hread, hholds⟩ e he
    obtain ⟨k, hk⟩ := List.getElem?_of_mem he
    rcases (hcomplete k e hk).cases with ⟨bytes, hbytes, hlen⟩ | ⟨hnone, -⟩
    · exact (held_iff hbytes hlen (hfits _ (hentry k e hk))).2 (hholds _ (hentry k e hk))
    · have hsome := hread k (List.getElem?_eq_some_iff.1 hk).1
      rw [hnone] at hsome
      cases hsome

end

end PocketDarwin.Mindyld
