/-
  `create_image` of image3maker: a root header, and behind it tags that each name their size.

  The image is one block of memory, which is reallocated for every tag; what is behind the bytes that
  were there has any values, `fresh`.  A write outside of the block, or of the tag or header that it
  belongs to, and what `int` does not define, is `none`.

  * `walk`: an image read tag by tag.
  * `createImage_iff`: the image is read as the tags that it was made of, exactly if the length of the
    version, modulo 16, is from 1 to 12, and no size is too large.
-/
import PocketDarwin.Buffer
import PocketDarwin.LittleEndian

namespace PocketDarwin.Image3

abbrev Byte := BitVec 8

abbrev Memory := Buffer Byte

/-! ## Memory -/

/-- A `uint32_t`. -/
abbrev word (n : ℕ) : List Byte := leBytes 4 n

def load (img : Memory) (off : ℕ) : Option ℕ := (img.gets off 4).map ofLeBytes

/-- A write that belongs to the `len` bytes from `start` on. -/
def store (start len off : ℕ) (l : List Byte) (img : Memory) : Option Memory :=
  if start ≤ off ∧ off + l.length ≤ start + len then img.sets off l else none

/-- `round_up(n, m)`, for a power of two: `n` is an `int`, and `n + m` must not overflow. -/
def roundUp (n m : ℕ) : Option ℕ :=
  if n % 2 ^ 32 < 2 ^ 31 ∧ 2 ^ 31 ≤ n % 2 ^ 32 + m then none
    else some ((n + (m - 1)) % 2 ^ 32 / m * m)

/-! ## Tags -/

def kImage3Magic : ℕ := 0x496d6733
def kImage3TagData : ℕ := 0x44415441
def kImage3TagType : ℕ := 0x54595045
def kImage3TagBoard : ℕ := 0x424f5244
def kImage3TagSecurityEpoch : ℕ := 0x5345504f
def kImage3TagVersion : ℕ := 0x56455253
def kImage3TagSecurityDomain : ℕ := 0x53444f4d
def kImage3TagProduct : ℕ := 0x50524f44
def kImage3TagChip : ℕ := 0x43484950
def kImage3TagChipEpoch : ℕ := 0x4345504f
def kImage3TagECID : ℕ := 0x45434944

section
variable (fresh : ℕ → Byte)

/-- `realloc`, which does not fail. -/
def realloc (size : ℕ) (img : Memory) : Memory :=
  ⟨size, fun i => if i < img.size then img.elem i else fresh i⟩

/-- What the functions that reserve a tag have in common: the block with the tag, and where in it the tag is. -/
def reserve (zeroed : Bool) (tag length len size : ℕ) (img : Memory) : Option (Memory × ℕ × ℕ) :=
  (load img 4).bind fun start =>
    (if zeroed then store start len start (List.replicate len 0) (realloc fresh size img)
      else some (realloc fresh size img)).bind fun img =>
    (store start len (start + 8) (word length) img).bind fun img =>
    (store start len (start + 4) (word len) img).bind fun img =>
    (store start len start (word tag) img).bind fun img =>
    (store 0 20 4 (word size) img).bind fun img =>
    (load img 8).bind fun dataSize => (store 0 20 8 (word (dataSize + len)) img).map fun img =>
      (img, start, len)

/-- The length of a tag that is padded to 16 bytes, and the size of the block. -/
def padded (length : ℕ) (img : Memory) : Option (ℕ × ℕ) :=
  (load img 4).bind fun rootSize => (roundUp (length + 12) 2).bind fun len =>
    (roundUp ((rootSize + len) % 2 ^ 32) 16).bind fun size =>
      (roundUp ((rootSize + len) % 2 ^ 32) 2).map fun even =>
      ((len + size + (2 ^ 32 - even)) % 2 ^ 32, size)

def reserveVersion (tag length : ℕ) (img : Memory) : Option (Memory × ℕ × ℕ) :=
  (padded length img).bind fun (len, size) =>
    reserve fresh true tag length ((len + (2 ^ 32 - 4)) % 2 ^ 32) ((size + (2 ^ 32 - 4)) % 2 ^ 32) img

def reserveData (tag length : ℕ) (img : Memory) : Option (Memory × ℕ × ℕ) :=
  (padded length img).bind fun (len, size) => reserve fresh true tag length len size img

def reserveTag (tag length : ℕ) (img : Memory) : Option (Memory × ℕ × ℕ) :=
  (load img 4).bind fun rootSize => reserve fresh true tag length (length + 24)
    ((rootSize + (length + 24)) % 2 ^ 32) img

def reserveEcid (tag length : ℕ) (img : Memory) : Option (Memory × ℕ × ℕ) :=
  (load img 4).bind fun rootSize => reserve fresh true tag length (length + 20)
    ((rootSize + (length + 20)) % 2 ^ 32) img

/-- The bytes behind the value are not set. -/
def reserveType (tag length : ℕ) (img : Memory) : Option (Memory × ℕ × ℕ) :=
  (load img 4).bind fun rootSize => reserve fresh false tag length (length + 28)
    ((rootSize + (length + 28)) % 2 ^ 32) img

/-! ## The image -/

/-- What the image is made of; the optional tags are those that were given. -/
structure Input where
  imageType : UInt32
  data : List Byte
  version : Option (List Byte)
  securityEpoch : Option UInt32
  hardwareEpoch : Option UInt32
  domain : Option UInt32
  production : Option UInt32
  chipType : Option UInt32
  boardType : Option UInt32
  uniqueIdentifier : Option UInt64

variable (input : Input)

/-- The root header alone. -/
def rootHeader : Option Memory :=
  (store 0 20 0 (word kImage3Magic) ⟨20, fresh⟩).bind fun img =>
    (store 0 20 16 (word input.imageType.toNat) img).bind fun img =>
      (store 0 20 12 (word 0) img).bind fun img =>
      (store 0 20 4 (word 0) img).bind fun img => (store 0 20 8 (word 0) img).bind fun img =>
        store 0 20 4 (word 20) img

def addType (img : Memory) : Option Memory :=
  (reserveType fresh kImage3TagType 4 img).bind fun (img, start, len) =>
    store start len (start + 12) (word input.imageType.toNat) img

/-- The size of the data is an `int`, which is negative from `2 ^ 31` on. -/
def addData (img : Memory) : Option Memory :=
  let backingDataSize := input.data.length % 2 ^ 32
  (reserveData fresh kImage3TagData backingDataSize img).bind fun (img, start, len) =>
    if backingDataSize < 2 ^ 31 then store start len (start + 12) (input.data.take backingDataSize)
      img else none

def addVersion (img : Memory) : Option Memory :=
  match input.version with
  | none => some img
  | some version =>
    (reserveVersion fresh kImage3TagVersion ((version.length + 4) % 2 ^ 32) img).bind
      fun (img, start, len) =>
      (store start len (start + 12) (word version.length) img).bind
        (store start len (start + 16) version)

/-- A tag with a value of 32 bits, if there is one. -/
def addTag (tag : ℕ) (value : Option UInt32) (img : Memory) : Option Memory :=
  match value with
  | none => some img
  | some value =>
    (reserveTag fresh tag 4 img).bind fun (img, start, len) => store start len (start + 12)
      (word value.toNat) img

def addEcid (img : Memory) : Option Memory :=
  match input.uniqueIdentifier with
  | none => some img
  | some value =>
    (reserveEcid fresh kImage3TagECID 8 img).bind fun (img, start, len) =>
      store start len (start + 12) (leBytes 8 value.toNat) img

def createImage : Option Memory :=
  (rootHeader fresh input).bind fun img => (addType fresh input img).bind fun img =>
    (addData fresh input img).bind fun img =>
    (addVersion fresh input img).bind fun img =>
    (addTag fresh kImage3TagSecurityEpoch input.securityEpoch img).bind fun img =>
    (addTag fresh kImage3TagChipEpoch input.hardwareEpoch img).bind fun img =>
    (addTag fresh kImage3TagSecurityDomain input.domain img).bind fun img =>
    (addTag fresh kImage3TagProduct input.production img).bind fun img =>
    (addTag fresh kImage3TagChip input.chipType img).bind fun img =>
    (addTag fresh kImage3TagBoard input.boardType img).bind fun img => addEcid fresh input img

end

/-! ## Reading -/

structure Tag where
  magic : ℕ
  size : ℕ
  payload : List Byte
  deriving DecidableEq

/-- The tags from `off` on, each as far away as the one before it says; they end at `stop`. -/
def walk (img : Memory) (stop : ℕ) : ℕ → ℕ → Option (List Tag)
  | 0, _ => none
  | fuel + 1, off =>
    if off = stop then some []
    else
      (load img off).bind fun magic => (load img (off + 4)).bind fun size =>
        (load img (off + 8)).bind fun dataSize =>
        (img.gets (off + 12) dataSize).bind fun payload =>
          (walk img stop fuel (off + size)).map (⟨magic, size, payload⟩ :: ·)

/-- The tags that were asked for, with what is in them. -/
def Input.tags (input : Input) : List (ℕ × List Byte) :=
  let word32 (tag : ℕ) (value : Option UInt32) := value.toList.map fun v => (tag, word v.toNat)
  [(kImage3TagType, word input.imageType.toNat), (kImage3TagData, input.data)] ++
    (input.version.toList.map fun v => (kImage3TagVersion, word v.length ++ v)) ++
    word32 kImage3TagSecurityEpoch input.securityEpoch ++ word32 kImage3TagChipEpoch
      input.hardwareEpoch ++
    word32 kImage3TagSecurityDomain input.domain ++ word32 kImage3TagProduct input.production ++
    word32 kImage3TagChip input.chipType ++ word32 kImage3TagBoard input.boardType ++
    input.uniqueIdentifier.toList.map fun v => (kImage3TagECID, leBytes 8 v.toNat)

/-- The image is of the size that its header says, and its tags are those that were asked for. -/
def WellFormed (img : Memory) (input : Input) : Prop :=
  load img 4 = some img.size ∧ ∃ tags, walk img img.size (img.size + 1) 20 = some tags ∧
    tags.map (fun t => (t.magic, t.payload)) = input.tags ∧
    (∀ t ∈ tags, t.payload.length + 12 ≤ t.size) ∧
    load img 8 = some (tags.map Tag.size).sum

/-! ## Loads and stores -/

section
variable {fresh : ℕ → Byte} {img img' : Memory} {start len off size i n : ℕ} {l : List Byte}

theorem load_puts_self (h : off + 4 ≤ img.size) :
    load (img.puts off (word n)) off = some (n % 2 ^ 32) := by
  have hgets : (img.puts off (word n)).gets off 4 = some (word n) := by
    have := Buffer.gets_puts_self (b := img) (i := off) (l := word n) (by rwa [length_leBytes])
    rwa [length_leBytes] at this
  rw [load, hgets, Option.map_some, ofLeBytes_leBytes]
  rfl

theorem load_puts_of_disjoint (h : i + 4 ≤ off ∨ off + l.length ≤ i) :
    load (img.puts off l) i = load img i := by
  rw [load, Buffer.gets_puts_of_disjoint h, load]

theorem gets_realloc (h : i + n ≤ img.size) (hsize : img.size ≤ size) :
    (realloc fresh size img).gets i n = img.gets i n := by
  have hle : i + n ≤ (realloc fresh size img).size := Nat.le_trans h hsize
  rw [Buffer.gets_eq_some h, Buffer.gets_eq_some hle]
  refine congrArg some (List.map_congr_left fun j hj => ?_)
  obtain ⟨-, hj⟩ := List.mem_range'_1.1 hj
  exact if_pos (by omega)

theorem store_eq (hstart : start ≤ off) (hlen : off + l.length ≤ start + len)
    (hsize : off + l.length ≤ img.size) :
    store start len off l img = some (img.puts off l) := by
  rw [store, if_pos ⟨hstart, hlen⟩, Buffer.sets_eq_some hsize]

theorem le_of_store (h : store start len off l img = some img') : off + l.length ≤ start + len := by
  rw [store] at h
  split at h
  · next hle => exact hle.2
  · cases h

end

/-! ## Images -/

/-- The tags are in the image from `off` on, and end at `stop`. -/
def Holds (img : Memory) (stop : ℕ) : ℕ → List Tag → Prop
  | off, [] => off = stop
  | off, t :: ts =>
    load img off = some t.magic ∧ load img (off + 4) = some t.size ∧
    load img (off + 8) = some t.payload.length ∧
      img.gets (off + 12) t.payload.length = some t.payload ∧ t.payload.length + 12 ≤ t.size ∧
      Holds img stop (off + t.size) ts

/-- An image that is complete. -/
structure Built (img : Memory) (ts : List Tag) : Prop where
  lt : img.size < 2 ^ 32
  size : load img 4 = some img.size
  dataSize : load img 8 = some (ts.map Tag.size).sum
  holds : Holds img img.size 20 ts

/-- An image with a tag behind the others, of which only the payload is not known. -/
structure Reserved (img : Memory) (ts : List Tag) (tag length len start : ℕ) : Prop where
  lt : img.size < 2 ^ 32
  size : load img 4 = some img.size
  total : img.size = start + len
  dataSize : load img 8 = some ((ts.map Tag.size).sum + len)
  holds : Holds img start 20 ts
  magic : load img start = some tag
  tagSize : load img (start + 4) = some len
  tagDataSize : load img (start + 8) = some length

section
variable {fresh : ℕ → Byte} {img img' : Memory} {ts : List Tag} {t : Tag}
  {tag length len start stop off size fuel : ℕ}
variable {l payload : List Byte}

theorem Holds.stop_eq (h : Holds img stop off ts) : stop = off + (ts.map Tag.size).sum := by
  induction ts generalizing off with
  | nil => exact h.symm
  | cons t ts ih =>
    obtain ⟨-, -, -, -, -, h⟩ := h
    rw [ih h, List.map_cons, List.sum_cons, Nat.add_assoc]

theorem Holds.length_le (h : Holds img stop off ts) : off + ts.length ≤ stop := by
  induction ts generalizing off with
  | nil => exact Nat.le_of_eq h
  | cons t ts ih =>
    obtain ⟨-, -, -, -, hsize, h⟩ := h
    have hle := ih h
    rw [List.length_cons]
    omega

theorem Holds.mem (h : Holds img stop off ts) (ht : t ∈ ts) : t.payload.length + 12 ≤ t.size := by
  induction ts generalizing off with
  | nil => exact absurd ht List.not_mem_nil
  | cons t' ts ih =>
    obtain ⟨-, -, -, -, hsize, h⟩ := h
    rcases List.mem_cons.1 ht with rfl | ht
    · exact hsize
    · exact ih h ht

/-- The tags are what is read. -/
theorem Holds.walk (h : Holds img stop off ts) (hfuel : ts.length < fuel) :
    walk img stop fuel off = some ts := by
  induction ts generalizing off fuel with
  | nil =>
    obtain ⟨fuel, rfl⟩ := Nat.exists_eq_succ_of_ne_zero (Nat.ne_of_gt hfuel)
    exact if_pos h
  | cons t ts ih =>
    obtain ⟨fuel, rfl⟩ := Nat.exists_eq_succ_of_ne_zero (Nat.ne_of_gt (Nat.zero_lt_of_lt hfuel))
    have hle := h.length_le
    obtain ⟨hmagic, htsize, hdata, hpayload, hsize, h⟩ := h
    rw [List.length_cons] at hle hfuel
    rw [Image3.walk, if_neg (by omega), hmagic, Option.bind_some, htsize, Option.bind_some, hdata,
      Option.bind_some, hpayload,
      Option.bind_some, ih h (by omega)]
    rfl

/-- Only what is between the first tag and the end matters. -/
theorem Holds.frame (h : Holds img stop off ts)
    (hframe : ∀ i n, off ≤ i → i + n ≤ stop → img'.gets i n = img.gets i n) :
    Holds img' stop off ts := by
  induction ts generalizing off with
  | nil => exact h
  | cons t ts ih =>
    obtain ⟨hmagic, htsize, hdata, hpayload, hsize, h⟩ := h
    have hle := h.length_le
    refine ⟨?_, ?_, ?_, ?_, hsize, ih h fun i n hi hn => hframe i n (by omega) hn⟩
    · rw [load, hframe _ _ (by omega) (by omega)]
      exact hmagic
    · rw [load, hframe _ _ (by omega) (by omega)]
      exact htsize
    · rw [load, hframe _ _ (by omega) (by omega)]
      exact hdata
    · rw [hframe _ _ (by omega) (by omega)]
      exact hpayload

theorem Holds.append {ts' : List Tag} {mid : ℕ} (h : Holds img mid off ts)
    (h' : Holds img stop mid ts') :
    Holds img stop off (ts ++ ts') := by
  induction ts generalizing off with
  | nil =>
    obtain rfl : off = mid := h
    exact h'
  | cons t ts ih =>
    obtain ⟨hmagic, htsize, hdata, hpayload, hsize, h⟩ := h
    exact ⟨hmagic, htsize, hdata, hpayload, hsize, ih h⟩

/-- The payload completes the tag. -/
theorem Reserved.built (h : Reserved img ts tag payload.length len start)
    (hlen : payload.length + 12 ≤ len)
    (hpayload : img.gets (start + 12) payload.length = some payload) :
    Built img (ts ++ [⟨tag, len, payload⟩]) := by
  refine ⟨h.lt, h.size, ?_, h.holds.append ⟨h.magic, h.tagSize, h.tagDataSize, hpayload, hlen,
    h.total.symm⟩⟩
  rw [List.map_append, List.sum_append, h.dataSize]
  rfl

/-- Writes to the payload. -/
theorem Reserved.puts (h : Reserved img ts tag length len start) (hoff : start + 12 ≤ off) :
    Reserved (img.puts off l) ts tag length len start := by
  have hstart := h.holds.length_le
  refine ⟨h.lt, ?_, h.total, ?_, h.holds.frame fun i n hi hn =>
    Buffer.gets_puts_of_disjoint (Or.inl (by omega)), ?_, ?_, ?_⟩
  · rw [load_puts_of_disjoint (Or.inl (by omega))]
    exact h.size
  · rw [load_puts_of_disjoint (Or.inl (by omega))]
    exact h.dataSize
  · rw [load_puts_of_disjoint (Or.inl (by omega))]
    exact h.magic
  · rw [load_puts_of_disjoint (Or.inl (by omega))]
    exact h.tagSize
  · rw [load_puts_of_disjoint (Or.inl (by omega))]
    exact h.tagDataSize

theorem Reserved.store_eq (h : Reserved img ts tag length len start) (hoff : start + 12 ≤ off)
    (hle : off + l.length ≤ start + len) : store start len off l img = some (img.puts off l) := by
  have htotal := h.total
  exact Image3.store_eq (by omega) hle (by omega)

/-- The block is enlarged by the tag, and the tag is cleared. -/
theorem realloc_eq (fresh : ℕ → Byte) (zeroed : Bool) (h : img.size + len = size) :
    ∃ img', (if zeroed then store img.size len img.size (List.replicate len 0)
      (realloc fresh size img)
        else some (realloc fresh size img)) = some img' ∧ img'.size = size ∧
      ∀ i n, i + n ≤ img.size → img'.gets i n = img.gets i n := by
  cases zeroed with
  | false =>
    refine ⟨realloc fresh size img, rfl, rfl, fun i n hi => gets_realloc hi (by omega)⟩
  | true =>
    refine ⟨(realloc fresh size img).puts img.size (List.replicate len 0), ?_, rfl,
      fun i n hi => ?_⟩
    · exact store_eq (Nat.le_refl _) (by rw [List.length_replicate])
        (by rw [List.length_replicate]; exact Nat.le_of_eq h)
    · rw [Buffer.gets_puts_of_disjoint (Or.inl hi), gets_realloc hi (by omega)]

/-- A tag is reserved that is behind the others. -/
theorem reserve_eq (zeroed : Bool) (h : Built img ts) (hlen : 12 ≤ len)
    (hsize : img.size + len = size) (hlt : size < 2 ^ 32)
    (htag : tag < 2 ^ 32) (hlength : length < 2 ^ 32) :
    ∃ img', reserve fresh zeroed tag length len size img = some (img', img.size, len) ∧
      Reserved img' ts tag length len img.size := by
  have hstart := h.holds.length_le
  have hsum := h.holds.stop_eq
  obtain ⟨img₁, hclear, hsize₁, hgets₁⟩ := realloc_eq fresh zeroed hsize
  have hword : ∀ n, (word n).length = 4 := length_leBytes 4
  have hload₁ : ∀ i, i + 4 ≤ img.size → load img₁ i = load img i :=
    fun i hi => congrArg _ (hgets₁ i 4 hi)
  have hdata :
      load ((((img₁.puts (img.size + 8) (word length)).puts (img.size + 4) (word len)).puts img.size
        (word tag)).puts 4
      (word size)) 8 = some (ts.map Tag.size).sum := by
    rw [load_puts_of_disjoint (Or.inr (by rw [hword])), load_puts_of_disjoint (Or.inl (by omega)),
      load_puts_of_disjoint (Or.inl (by omega)), load_puts_of_disjoint (Or.inl (by omega)),
      hload₁ 8 (by omega), h.dataSize]
  refine ⟨((((img₁.puts (img.size + 8) (word length)).puts (img.size + 4) (word len)).puts img.size
    (word tag)).puts 4
      (word size)).puts 8 (word ((ts.map Tag.size).sum + len)), ?_, ?_⟩
  · rw [reserve, h.size, Option.bind_some, hclear, Option.bind_some,
      store_eq (by omega) (by rw [hword]; omega) (by rw [hword]; omega), Option.bind_some,
      store_eq (by omega) (by rw [hword]; omega) (by rw [hword, Buffer.size_puts]; omega),
      Option.bind_some,
      store_eq (by omega) (by rw [hword]; omega) (by simp only [hword, Buffer.size_puts]; omega),
      Option.bind_some,
      store_eq (by omega) (by rw [hword]; omega) (by simp only [hword, Buffer.size_puts]; omega),
      Option.bind_some,
      hdata, Option.bind_some,
      store_eq (by omega) (by rw [hword]; omega) (by simp only [hword, Buffer.size_puts]; omega)]
    rfl
  · have hle : 20 ≤ img.size := by omega
    refine ⟨by simpa [hsize₁] using hlt, ?_, by simpa [hsize₁] using hsize.symm, ?_, ?_, ?_, ?_, ?_⟩
    · rw [load_puts_of_disjoint (Or.inl (by omega)),
        load_puts_self (by simp only [Buffer.size_puts]; omega),
        Nat.mod_eq_of_lt hlt]
      simp only [Buffer.size_puts, hsize₁]
    · rw [load_puts_self (by simp only [Buffer.size_puts]; omega), Nat.mod_eq_of_lt (by omega)]
    · refine h.holds.frame fun i n hi hn => ?_
      rw [Buffer.gets_puts_of_disjoint (Or.inr (by rw [hword]; omega)),
        Buffer.gets_puts_of_disjoint (Or.inr (by rw [hword]; omega)),
        Buffer.gets_puts_of_disjoint (Or.inl hn), Buffer.gets_puts_of_disjoint (Or.inl (by omega)),
        Buffer.gets_puts_of_disjoint (Or.inl (by omega)), hgets₁ i n hn]
    · rw [load_puts_of_disjoint (Or.inr (by rw [hword]; omega)),
        load_puts_of_disjoint (Or.inr (by rw [hword]; omega)),
        load_puts_self (by simp only [Buffer.size_puts]; omega), Nat.mod_eq_of_lt htag]
    · rw [load_puts_of_disjoint (Or.inr (by rw [hword]; omega)),
        load_puts_of_disjoint (Or.inr (by rw [hword]; omega)),
        load_puts_of_disjoint (Or.inr (by rw [hword])),
        load_puts_self (by simp only [Buffer.size_puts]; omega),
        Nat.mod_eq_of_lt (by omega)]
    · rw [load_puts_of_disjoint (Or.inr (by rw [hword]; omega)),
        load_puts_of_disjoint (Or.inr (by rw [hword]; omega)),
        load_puts_of_disjoint (Or.inr (by rw [hword]; omega)),
        load_puts_of_disjoint (Or.inr (by rw [hword])),
        load_puts_self (by omega), Nat.mod_eq_of_lt hlength]

/-- What a tag that was reserved needs. -/
theorem le_of_reserve {r : Memory × ℕ × ℕ} (h : Built img ts)
    (hr : reserve fresh true tag length len size img = some r) :
    12 ≤ len ∧ img.size + len ≤ size ∧ r.2 = (img.size, len) := by
  rw [reserve, h.size, Option.bind_some, if_pos rfl] at hr
  obtain ⟨img₁, hclear, hr⟩ := Option.bind_eq_some_iff.1 hr
  obtain ⟨img₂, hstore, hr⟩ := Option.bind_eq_some_iff.1 hr
  obtain ⟨img₃, -, hr⟩ := Option.bind_eq_some_iff.1 hr
  obtain ⟨img₄, -, hr⟩ := Option.bind_eq_some_iff.1 hr
  obtain ⟨img₅, -, hr⟩ := Option.bind_eq_some_iff.1 hr
  obtain ⟨dataSize, -, hr⟩ := Option.bind_eq_some_iff.1 hr
  obtain ⟨img₆, -, rfl⟩ := Option.map_eq_some_iff.1 hr
  have hlen := le_of_store hstore
  rw [length_leBytes] at hlen
  have hle : 12 ≤ len := by omega
  rw [store, if_pos ⟨Nat.le_refl _, by rw [List.length_replicate]⟩] at hclear
  have hsize := Buffer.le_of_sets hclear
    (List.ne_nil_of_length_pos (by rw [List.length_replicate]; omega))
  rw [List.length_replicate] at hsize
  exact ⟨hle, hsize, rfl⟩

theorem Built.total (h : Built img ts) : img.size = 20 + (ts.map Tag.size).sum := h.holds.stop_eq

/-- A tag is completed by one write. -/
theorem Reserved.store_built (h : Reserved img ts tag payload.length len start)
    (hlen : payload.length + 12 ≤ len) :
    ∃ img', store start len (start + 12) payload img = some img' ∧
    Built img' (ts ++ [⟨tag, len, payload⟩]) := by
  have htotal := h.total
  refine ⟨img.puts (start + 12) payload, h.store_eq (Nat.le_refl _) (by omega),
    (h.puts (Nat.le_refl _)).built hlen ?_⟩
  exact Buffer.gets_puts_self (by omega)

/-! ## Tags of a fixed size -/

/-- The tags are added if there is room for them. -/
def Adds (f : Memory → Option Memory) (ts' : List Tag) : Prop :=
  ∀ img ts, Built img ts →
    (img.size + (ts'.map Tag.size).sum < 2 ^ 32 ∧ ∃ img', f img = some img' ∧
      Built img' (ts ++ ts')) ∨
      (2 ^ 32 ≤ img.size + (ts'.map Tag.size).sum ∧ f img = none)

theorem Adds.comp {f g : Memory → Option Memory} {ts₁ ts₂ : List Tag} (hf : Adds f ts₁)
    (hg : Adds g ts₂) :
    Adds (fun img => (f img).bind g) (ts₁ ++ ts₂) := by
  intro img ts h
  rw [List.map_append, List.sum_append]
  dsimp only
  rcases hf img ts h with ⟨hlt, img₁, hf, h₁⟩ | ⟨hle, hf⟩
  · have htotal := h.total
    have htotal₁ := h₁.total
    rw [List.map_append, List.sum_append] at htotal₁
    rcases hg img₁ _ h₁ with ⟨hlt, img₂, hg, h₂⟩ | ⟨hle, hg⟩
    · refine Or.inl ⟨by omega, img₂, ?_, by rwa [← List.append_assoc]⟩
      rw [hf, Option.bind_some, hg]
    · refine Or.inr ⟨by omega, ?_⟩
      rw [hf, Option.bind_some, hg]
  · refine Or.inr ⟨by omega, ?_⟩
    rw [hf]
    rfl

theorem adds_nil : Adds some [] := by
  intro img ts h
  refine Or.inl ⟨h.lt, img, rfl, ?_⟩
  rwa [List.append_nil]

/-- A tag of a fixed size, with what is written to it. -/
theorem adds_fixed (payload : List Byte) {k : ℕ} (htag : tag < 2 ^ 32) (hk : 12 ≤ k) :
    Adds (fun img => ((load img 4).bind fun rootSize =>
        reserve fresh true tag payload.length (payload.length + k)
          ((rootSize + (payload.length + k)) % 2 ^ 32) img).bind
      fun (img, start, len) => store start len (start + 12) payload img)
        [⟨tag, payload.length + k, payload⟩] := by
  intro img ts h
  dsimp only
  rw [h.size, Option.bind_some, List.map_singleton, List.sum_singleton]
  dsimp only
  by_cases hlt : img.size + (payload.length + k) < 2 ^ 32
  · obtain ⟨img₁, hreserve, h₁⟩ :
        ∃ img₁, reserve fresh true tag payload.length (payload.length + k)
          (img.size + (payload.length + k)) img =
          some (img₁, img.size, payload.length + k) ∧
          Reserved img₁ ts tag payload.length (payload.length + k) img.size :=
      reserve_eq true h (by omega) rfl hlt htag (by omega)
    obtain ⟨img₂, hstore, h₂⟩ := h₁.store_built
      (show payload.length + 12 ≤ payload.length + k by omega)
    refine Or.inl ⟨hlt, img₂, ?_, h₂⟩
    rw [Nat.mod_eq_of_lt hlt, hreserve, Option.bind_some, hstore]
  · refine Or.inr ⟨Nat.not_lt.1 hlt, ?_⟩
    cases hreserve : reserve fresh true tag payload.length (payload.length + k)
      ((img.size + (payload.length + k)) % 2 ^ 32) img with
    | none => rfl
    | some r =>
      obtain ⟨-, hle, -⟩ := le_of_reserve h hreserve
      have := Nat.mod_lt (img.size + (payload.length + k)) (Nat.two_pow_pos 32)
      omega

theorem adds_addTag (htag : tag < 2 ^ 32) (value : Option UInt32) :
    Adds (addTag fresh tag value) (value.toList.map fun v => ⟨tag, 28, word v.toNat⟩) := by
  cases value with
  | none => exact adds_nil
  | some v => exact adds_fixed (word v.toNat) (k := 24) htag (by omega)

theorem adds_addEcid (input : Input) :
    Adds (addEcid fresh input) (input.uniqueIdentifier.toList.map fun v =>
      ⟨kImage3TagECID, 28, leBytes 8 v.toNat⟩) := by
  rcases hvalue : input.uniqueIdentifier with _ | v
  · intro img ts h
    rw [addEcid, hvalue]
    exact adds_nil img ts h
  · intro img ts h
    rw [addEcid, hvalue]
    exact adds_fixed (leBytes 8 v.toNat) (k := 20) (by decide) (by omega) img ts h

/-! ## Tags that are padded -/

/-- `round_up(n, m)` does not overflow. -/
def NoOverflow (n m : ℕ) : Prop := n % 2 ^ 32 < 2 ^ 31 → n % 2 ^ 32 + m < 2 ^ 31

instance (n m : ℕ) : Decidable (NoOverflow n m) := inferInstanceAs (Decidable (_ → _))

theorem NoOverflow.mono {n m k : ℕ} (h : NoOverflow n m) (hk : k ≤ m) : NoOverflow n k := fun hlt =>
  Nat.lt_of_le_of_lt (Nat.add_le_add_left hk _) (h hlt)

theorem roundUp_eq_some_iff {n m r : ℕ} :
    roundUp n m = some r ↔ NoOverflow n m ∧ (n + (m - 1)) % 2 ^ 32 / m * m = r := by
  rw [roundUp]
  split
  · next h => exact iff_of_false nofun fun hno => absurd (hno.1 h.1) (Nat.not_lt.2 h.2)
  · next h => exact ⟨fun hr => ⟨fun hlt => Nat.not_le.1 fun hle => h ⟨hlt, hle⟩,
      Option.some.inj hr⟩, fun hr => congrArg some hr.2⟩

/-- The size with a tag that is padded, for a size that is even. -/
def paddedSize (rootSize length : ℕ) : ℕ := (rootSize + (length + 13) / 2 * 2 + 15) / 16 * 16

/-- The padding does not overflow. -/
def PaddingFits (rootSize length : ℕ) : Prop :=
  NoOverflow (length + 12) 2 ∧ NoOverflow (rootSize + (length + 13) / 2 * 2) 16

instance (rootSize length : ℕ) : Decidable (PaddingFits rootSize length) :=
  inferInstanceAs (Decidable (_ ∧ _))

theorem padded_eq_some_iff (length : ℕ) {r : ℕ × ℕ} (h : Built img ts) (heven : img.size % 2 = 0)
    (hlt : img.size + (length + 13) / 2 * 2 < 2 ^ 32) :
    padded length img = some r ↔ PaddingFits img.size length ∧
      r = ((paddedSize img.size length + (2 ^ 32 - img.size)) % 2 ^ 32,
        paddedSize img.size length % 2 ^ 32) := by
  have hlen : (length + 12 + (2 - 1)) % 2 ^ 32 / 2 * 2 = (length + 13) / 2 * 2 := by omega
  have hroot : (img.size + (length + 13) / 2 * 2) % 2 ^ 32 = img.size + (length + 13) / 2 * 2 :=
    Nat.mod_eq_of_lt hlt
  have hsizes :
      (((length + 13) / 2 * 2 + (img.size + (length + 13) / 2 * 2 + (16 - 1)) % 2 ^ 32 / 16 * 16 +
        (2 ^ 32 - (img.size + (length + 13) / 2 * 2 + (2 - 1)) % 2 ^ 32 / 2 * 2)) % 2 ^ 32,
      (img.size + (length + 13) / 2 * 2 + (16 - 1)) % 2 ^ 32 / 16 * 16) =
      ((paddedSize img.size length + (2 ^ 32 - img.size)) % 2 ^ 32,
        paddedSize img.size length % 2 ^ 32) := by
    rw [paddedSize]
    generalize hlen' : (length + 13) / 2 * 2 = len at hlt
    have hmod : len % 2 = 0 := by omega
    refine Prod.ext ?_ ?_
    · dsimp only
      omega
    · dsimp only
      omega
  rw [padded, h.size, Option.bind_some]
  constructor
  · intro hr
    obtain ⟨len, hlen', hr⟩ := Option.bind_eq_some_iff.1 hr
    obtain ⟨hno, rfl⟩ := roundUp_eq_some_iff.1 hlen'
    rw [hlen, hroot] at hr
    obtain ⟨size, hsize', hr⟩ := Option.bind_eq_some_iff.1 hr
    obtain ⟨hno', rfl⟩ := roundUp_eq_some_iff.1 hsize'
    obtain ⟨even, heven', rfl⟩ := Option.map_eq_some_iff.1 hr
    obtain ⟨-, rfl⟩ := roundUp_eq_some_iff.1 heven'
    exact ⟨⟨hno, hno'⟩, hsizes⟩
  · rintro ⟨⟨hno, hno'⟩, rfl⟩
    rw [roundUp_eq_some_iff.2 ⟨hno, hlen⟩, Option.bind_some, hroot,
      roundUp_eq_some_iff.2 ⟨hno', rfl⟩, Option.bind_some,
      roundUp_eq_some_iff.2 ⟨hno'.mono (by decide), rfl⟩, Option.map_some, hsizes]

/-- The data is padded, and the size is a multiple of 16. -/
theorem addData_cases (fresh : ℕ → Byte) (input : Input) (h : Built img ts) (hsize : img.size = 52) :
    let n := input.data.length % 2 ^ 32
    ((n < 2 ^ 31 ∧ PaddingFits 52 n) ∧ ∃ img', addData fresh input img = some img' ∧
        Built img' (ts ++ [⟨kImage3TagData, paddedSize 52 n - 52, input.data.take n⟩]) ∧
        img'.size = paddedSize 52 n) ∨
      ¬ (n < 2 ^ 31 ∧ PaddingFits 52 n) ∧ addData fresh input img = none := by
  intro n
  have hlength : (input.data.take n).length = n := by
    rw [List.length_take]
    exact Nat.min_eq_left (Nat.mod_le _ _)
  by_cases hn : n < 2 ^ 31
  · have hpadded (r : ℕ × ℕ) := padded_eq_some_iff n (r := r) h (by omega) (by omega)
    rw [hsize] at hpadded
    by_cases hfits : PaddingFits 52 n
    · have hle : 64 + n ≤ paddedSize 52 n ∧ paddedSize 52 n < 2 ^ 32 := by
        rw [paddedSize]
        omega
      have hsizes := (hpadded _).2 ⟨hfits, rfl⟩
      rw [Nat.mod_eq_of_lt hle.2, show (paddedSize 52 n + (2 ^ 32 - 52)) % 2 ^ 32 =
        paddedSize 52 n - 52 by omega] at hsizes
      obtain ⟨img₁, hreserve, h₁⟩ :
          ∃ img₁, reserve fresh true kImage3TagData n (paddedSize 52 n - 52) (paddedSize 52 n) img =
            some (img₁, img.size, paddedSize 52 n - 52) ∧
              Reserved img₁ ts kImage3TagData (input.data.take n).length (paddedSize 52 n - 52)
                img.size := by
        rw [hlength]
        exact reserve_eq true h (by omega) (by omega) hle.2 (by decide) (by omega)
      obtain ⟨img₂, hstore, h₂⟩ := h₁.store_built (by omega)
      refine Or.inl ⟨⟨hn, hfits⟩, img₂, ?_, h₂, ?_⟩
      · rw [addData, reserveData, hsizes, Option.bind_some]
        dsimp only
        rw [hreserve, Option.bind_some]
        dsimp only
        rw [if_pos hn, hstore]
      · have htotal := h.total
        have htotal₂ := h₂.total
        rw [List.map_append, List.sum_append, List.map_singleton, List.sum_singleton] at htotal₂
        dsimp only at htotal₂
        omega
    · refine Or.inr ⟨fun hf => hfits hf.2, ?_⟩
      have hnone : padded n img = none := Option.eq_none_iff_forall_ne_some.2 fun r hr =>
        hfits ((hpadded r).1 hr).1
      rw [addData, reserveData, hnone]
      rfl
  · refine Or.inr ⟨fun hf => hn hf.1, ?_⟩
    rw [addData]
    cases reserveData fresh kImage3TagData (input.data.length % 2 ^ 32) img with
    | none => rfl
    | some r => exact if_neg hn

/-- What a version needs: four bytes of padding, behind which the size is not too large. -/
def VersionFits (rootSize n : ℕ) : Prop :=
  PaddingFits rootSize (n + 4) ∧ (1 ≤ n % 16 ∧ n % 16 ≤ 12) ∧ paddedSize rootSize (n + 4) - 4 < 2 ^ 32

instance (rootSize n : ℕ) : Decidable (VersionFits rootSize n) :=
  inferInstanceAs (Decidable (_ ∧ _))

theorem addVersion_of_fits (fresh : ℕ → Byte) (input : Input) {version : List Byte}
    (h : Built img ts) (hsize : img.size % 16 = 0)
    (hversion : input.version = some version) (hfits : VersionFits img.size version.length) :
    ∃ img', addVersion fresh input img = some img' ∧ Built img' (ts ++ [⟨kImage3TagVersion,
      paddedSize img.size (version.length + 4) - 4 - img.size, word version.length ++ version⟩]) := by
  obtain ⟨hpad, hmod, hlt⟩ := hfits
  generalize hlen : paddedSize img.size (version.length + 4) - 4 - img.size = len
  have hroom : version.length + 16 ≤ len ∧ img.size + len = paddedSize img.size (version.length + 4)
      - 4 := by
    rw [paddedSize] at hlen ⊢
    omega
  have hlt' : img.size + (version.length + 4 + 13) / 2 * 2 < 2 ^ 32 := by
    rw [paddedSize] at hlt
    omega
  have hsizes := (padded_eq_some_iff (version.length + 4) h (by omega) hlt').2 ⟨hpad, rfl⟩
  obtain ⟨img₁, hreserve, h₁⟩ :
      ∃ img₁, reserve fresh true kImage3TagVersion (version.length + 4)
        len (paddedSize img.size (version.length + 4) - 4) img =
        some (img₁, img.size, len) ∧
          Reserved img₁ ts kImage3TagVersion (word version.length ++ version).length len img.size := by
    rw [List.length_append, length_leBytes, Nat.add_comm 4]
    exact reserve_eq true h (by omega) (by omega) hlt (by decide) (by omega)
  have htotal := h₁.total
  have hword : (word version.length).length = 4 := length_leBytes 4 _
  have hwords : ((img₁.puts (img.size + 12) (word version.length)).puts (img.size + 16) version) =
      img₁.puts (img.size + 12) (word version.length ++ version) := by
    rw [Buffer.puts_append, hword]
  refine ⟨img₁.puts (img.size + 12) (word version.length ++ version), ?_,
    (h₁.puts (Nat.le_refl _)).built ?_ ?_⟩
  · have hmod₁ : (version.length + 4) % 2 ^ 32 = version.length + 4 := Nat.mod_eq_of_lt (by omega)
    have hmod₂ : ((paddedSize img.size (version.length + 4) + (2 ^ 32 - img.size)) % 2 ^ 32 +
        (2 ^ 32 - 4)) % 2 ^ 32 = len := by
      omega
    have hmod₃ : (paddedSize img.size (version.length + 4) % 2 ^ 32 + (2 ^ 32 - 4)) % 2 ^ 32 =
        paddedSize img.size (version.length + 4) - 4 := by
      omega
    have hstore₁ : store img.size len (img.size + 12) (word version.length) img₁ = some _ :=
      h₁.store_eq (Nat.le_refl _) (by omega)
    have hstore₂ : store img.size len (img.size + 16)
        version (img₁.puts (img.size + 12) (word version.length)) = some _ :=
      (h₁.puts (Nat.le_refl _)).store_eq (by omega) (by omega)
    rw [addVersion, hversion]
    dsimp only
    rw [reserveVersion, hmod₁, hsizes, Option.bind_some]
    dsimp only
    rw [hmod₂, hmod₃, hreserve, Option.bind_some]
    dsimp only
    rw [hstore₁, Option.bind_some, hstore₂, hwords]
  · rw [List.length_append, hword]
    omega
  · refine Buffer.gets_puts_self ?_
    rw [List.length_append, hword]
    omega

theorem fits_of_addVersion (input : Input) {version : List Byte} (h : Built img ts)
    (hsize : img.size % 16 = 0)
    (hversion : input.version = some version) (hcall : addVersion fresh input img = some img') :
    VersionFits img.size version.length := by
  rw [addVersion, hversion] at hcall
  obtain ⟨⟨img₁, start, len⟩, hreserve, hcall⟩ := Option.bind_eq_some_iff.1 hcall
  obtain ⟨⟨len₀, size₀⟩, hpadded, hreserve⟩ := Option.bind_eq_some_iff.1 hreserve
  obtain ⟨img₂, -, hstore⟩ := Option.bind_eq_some_iff.1 hcall
  have hroom := le_of_store hstore
  obtain ⟨-, hle, hr⟩ := le_of_reserve h hreserve
  have hstart : start = img.size := congrArg Prod.fst hr
  have hlen : len = (len₀ + (2 ^ 32 - 4)) % 2 ^ 32 := congrArg Prod.snd hr
  have hsize₀ := Nat.mod_lt (size₀ + (2 ^ 32 - 4)) (Nat.two_pow_pos 32)
  have hmod : (version.length + 4) % 2 ^ 32 = version.length + 4 := Nat.mod_eq_of_lt (by omega)
  rw [hmod] at hpadded
  have hlt : img.size + (version.length + 4 + 13) / 2 * 2 < 2 ^ 32 := by
    -- otherwise the size is 0, before the 4 bytes are taken away
    by_contra hge
    have htotal := h.total
    have heq : img.size + (version.length + 4 + 13) / 2 * 2 = 2 ^ 32 := by omega
    rw [padded, h.size, Option.bind_some] at hpadded
    obtain ⟨len₁, hlen₁, hpadded⟩ := Option.bind_eq_some_iff.1 hpadded
    obtain ⟨-, rfl⟩ := roundUp_eq_some_iff.1 hlen₁
    rw [show (version.length + 4 + 12 + (2 - 1)) % 2 ^ 32 / 2 * 2 =
      (version.length + 4 + 13) / 2 * 2 by omega, heq,
      Nat.mod_self] at hpadded
    obtain ⟨size₁, hsize₁, hpadded⟩ := Option.bind_eq_some_iff.1 hpadded
    obtain ⟨-, rfl⟩ := roundUp_eq_some_iff.1 hsize₁
    obtain ⟨even, -, hpair⟩ := Option.map_eq_some_iff.1 hpadded
    have hzero : size₀ = 0 := (congrArg Prod.snd hpair).symm
    rw [hzero] at hle
    omega
  obtain ⟨hpad, hpair⟩ := (padded_eq_some_iff (version.length + 4) h (by omega) hlt).1 hpadded
  have hlen₀ : len₀ = _ := congrArg Prod.fst hpair
  have hsize₀' : size₀ = _ := congrArg Prod.snd hpair
  dsimp only at hlen₀ hsize₀'
  have hpadded' : paddedSize img.size (version.length + 4) = img.size + (version.length + 31)
      / 16 * 16 := by
    rw [paddedSize]
    omega
  rw [hpadded'] at hlen₀ hsize₀'
  refine ⟨hpad, ?_, ?_⟩
  · omega
  · rw [hpadded']
    omega

/-! ## The whole image -/

theorem rootHeader_eq (fresh : ℕ → Byte) (input : Input) :
    ∃ img, rootHeader fresh input = some img ∧ Built img [] := by
  have hword : ∀ n, (word n).length = 4 := length_leBytes 4
  have hstore : ∀ (img : Memory) (off n : ℕ), img.size = 20 → off + 4 ≤ 20 →
      store 0 20 off (word n) img = some (img.puts off (word n)) := fun img off n hsize hoff =>
    store_eq (Nat.zero_le _) (by rw [hword]; omega) (by rw [hword]; omega)
  refine ⟨((((((⟨20, fresh⟩ : Memory).puts 0 (word kImage3Magic)).puts 16
    (word input.imageType.toNat)).puts 12 (word 0)).puts 4
    (word 0)).puts 8 (word 0)).puts 4 (word 20), ?_, ?_, ?_, ?_, rfl⟩
  · rw [rootHeader, hstore _ _ _ rfl (by decide), Option.bind_some, hstore _ _ _ rfl (by decide),
      Option.bind_some,
      hstore _ _ _ rfl (by decide), Option.bind_some, hstore _ _ _ rfl (by decide),
      Option.bind_some,
      hstore _ _ _ rfl (by decide), Option.bind_some, hstore _ _ _ rfl (by decide)]
  · show 20 < 2 ^ 32
    decide
  · rw [load_puts_self (by simp only [Buffer.size_puts]; omega)]
    rfl
  · rw [load_puts_of_disjoint (Or.inr (by rw [hword])),
      load_puts_self (by simp only [Buffer.size_puts]; omega)]
    rfl

theorem addType_eq (fresh : ℕ → Byte) (input : Input) (h : Built img []) :
    ∃ img', addType fresh input img = some img' ∧
    Built img' [⟨kImage3TagType, 32, word input.imageType.toNat⟩] := by
  have hsize : img.size = 20 := h.total
  obtain ⟨img₁, hreserve, h₁⟩ : ∃ img₁, reserve fresh false kImage3TagType 4 32 52 img =
      some (img₁, img.size, 32) ∧
      Reserved img₁ [] kImage3TagType (word input.imageType.toNat).length 32 img.size := by
    rw [length_leBytes]
    exact reserve_eq false h (by decide) (by omega) (by decide) (by decide) (by decide)
  obtain ⟨img₂, hstore, h₂⟩ := h₁.store_built (by rw [length_leBytes]; decide)
  refine ⟨img₂, ?_, h₂⟩
  have hroot : (img.size + (4 + 28)) % 2 ^ 32 = 52 := by omega
  rw [addType, reserveType, h.size, Option.bind_some, hroot, hreserve, Option.bind_some]
  exact hstore

/-- The tags behind the version. -/
def Input.others (input : Input) : List Tag :=
  let word32 (tag : ℕ) (value : Option UInt32) :
    List Tag := value.toList.map fun v => ⟨tag, 28, word v.toNat⟩
  word32 kImage3TagSecurityEpoch input.securityEpoch ++
    (word32 kImage3TagChipEpoch input.hardwareEpoch ++
    (word32 kImage3TagSecurityDomain input.domain ++ (word32 kImage3TagProduct input.production ++
      (word32 kImage3TagChip input.chipType ++ (word32 kImage3TagBoard input.boardType ++
        input.uniqueIdentifier.toList.map fun v => ⟨kImage3TagECID, 28, leBytes 8 v.toNat⟩)))))

theorem adds_others (fresh : ℕ → Byte) (input : Input) :
    Adds (fun img => (addTag fresh kImage3TagSecurityEpoch input.securityEpoch img).bind fun img =>
      (addTag fresh kImage3TagChipEpoch input.hardwareEpoch img).bind fun img =>
      (addTag fresh kImage3TagSecurityDomain input.domain img).bind fun img =>
      (addTag fresh kImage3TagProduct input.production img).bind fun img =>
      (addTag fresh kImage3TagChip input.chipType img).bind fun img =>
      (addTag fresh kImage3TagBoard input.boardType img).bind fun img => addEcid fresh input img)
        input.others :=
  (adds_addTag (by decide) _).comp
    ((adds_addTag (by decide) _).comp ((adds_addTag (by decide) _).comp
    ((adds_addTag (by decide) _).comp
      ((adds_addTag (by decide) _).comp ((adds_addTag (by decide) _).comp
      (adds_addEcid input))))))

/-- No size is too large, for `n` bytes of data, and the version has the padding that it needs. -/
def FitsAt (n : ℕ) (input : Input) : Prop :=
  (n < 2 ^ 31 ∧ PaddingFits 52 n) ∧
  (∀ v, input.version = some v → VersionFits (paddedSize 52 n) v.length) ∧
    (input.version.elim (paddedSize 52 n) fun v => paddedSize (paddedSize 52 n) (v.length + 4) - 4) +
      (input.others.map Tag.size).sum < 2 ^ 32

def Fits (input : Input) : Prop := FitsAt input.data.length input

/-- The version, if there is one. -/
theorem addVersion_cases (fresh : ℕ → Byte) (input : Input) (h : Built img ts)
    (hsize : img.size % 16 = 0) :
    ((∀ v, input.version = some v → VersionFits img.size v.length) ∧ ∃ img' ts',
      addVersion fresh input img = some img' ∧
        Built img' (ts ++ ts') ∧ img'.size = input.version.elim img.size
          (fun v => paddedSize img.size (v.length + 4) - 4) ∧
        ts'.map (fun t => (t.magic, t.payload)) = input.version.toList.map fun v =>
          (kImage3TagVersion, word v.length ++ v)) ∨
      ¬ (∀ v, input.version = some v → VersionFits img.size v.length) ∧ addVersion fresh input img =
        none := by
  cases hversion : input.version with
  | none =>
    refine Or.inl ⟨nofun, img, [], ?_, by rwa [List.append_nil], rfl, rfl⟩
    rw [addVersion, hversion]
  | some v =>
    by_cases hfits : VersionFits img.size v.length
    · obtain ⟨img', hcall, h'⟩ := addVersion_of_fits fresh input h hsize hversion hfits
      refine Or.inl ⟨fun w hw => Option.some.inj hw ▸ hfits, img', _, hcall, h', ?_, rfl⟩
      have htotal := h.total
      have htotal' := h'.total
      rw [List.map_append, List.sum_append, List.map_singleton, List.sum_singleton] at htotal'
      dsimp only [Option.elim] at htotal' ⊢
      have hle : img.size + 4 ≤ paddedSize img.size (v.length + 4) := by
        rw [paddedSize]
        omega
      omega
    · refine Or.inr ⟨fun hall => hfits (hall v rfl), ?_⟩
      refine Option.eq_none_iff_forall_ne_some.2 fun img' hcall => hfits ?_
      exact fits_of_addVersion input h hsize hversion hcall

/-- The image has the tags that were asked for, with as much of the data as an `int` can say. -/
theorem createImage_cases (fresh : ℕ → Byte) (input : Input) :
    let n := input.data.length % 2 ^ 32
    (FitsAt n input ∧ ∃ img ts, createImage fresh input = some img ∧ Built img ts ∧
        ts.map (fun t => (t.magic, t.payload)) =
          Input.tags { input with data := input.data.take n }) ∨
      ¬ FitsAt n input ∧ createImage fresh input = none := by
  intro n
  obtain ⟨img₀, hroot, h₀⟩ := rootHeader_eq fresh input
  obtain ⟨img₁, htype, h₁⟩ := addType_eq fresh input h₀
  rcases addData_cases fresh input h₁ h₁.total with ⟨hdata, img₂, hcall₂, h₂, hsize₂⟩ | ⟨hdata, hcall₂⟩
  · have hmod : img₂.size % 16 = 0 := by
      rw [hsize₂, paddedSize, Nat.mul_mod_left]
    rcases addVersion_cases fresh input h₂ hmod with
      ⟨hversion, img₃, ts₃, hcall₃, h₃, hsize₃, hts₃⟩ | ⟨hversion, hcall₃⟩
    · rw [hsize₂] at hversion hsize₃
      rcases adds_others fresh input img₃ _ h₃ with ⟨hlt, img₄, hcall₄, h₄⟩ | ⟨hle, hcall₄⟩
      · refine Or.inl ⟨⟨hdata, hversion, hsize₃ ▸ hlt⟩, img₄, _, ?_, h₄, ?_⟩
        · rw [createImage, hroot, Option.bind_some, htype, Option.bind_some, hcall₂,
            Option.bind_some, hcall₃, Option.bind_some]
          exact hcall₄
        · simp only [List.map_append, hts₃, Input.tags, Input.others, List.map_map,
            List.append_assoc]
          rfl
      · refine Or.inr ⟨fun hfits => absurd (hsize₃ ▸ hfits.2.2) (Nat.not_lt.2 hle), ?_⟩
        rw [createImage, hroot, Option.bind_some, htype, Option.bind_some, hcall₂, Option.bind_some,
          hcall₃, Option.bind_some]
        exact hcall₄
    · rw [hsize₂] at hversion
      refine Or.inr ⟨fun hfits => hversion hfits.2.1, ?_⟩
      rw [createImage, hroot, Option.bind_some, htype, Option.bind_some, hcall₂, Option.bind_some, hcall₃]
      rfl
  · refine Or.inr ⟨fun hfits => hdata hfits.1, ?_⟩
    rw [createImage, hroot, Option.bind_some, htype, Option.bind_some, hcall₂]
    rfl

theorem Built.wellFormed_iff {input : Input} (h : Built img ts) :
    WellFormed img input ↔ ts.map (fun t => (t.magic, t.payload)) = input.tags := by
  have hle := h.holds.length_le
  have hwalk : walk img img.size (img.size + 1) 20 = some ts := h.holds.walk (by omega)
  constructor
  · rintro ⟨-, tags, htags, hrequested, -⟩
    rwa [← Option.some.inj (hwalk.symm.trans htags)] at hrequested
  · intro hrequested
    exact ⟨h.size, ts, hwalk, hrequested, fun t ht => h.holds.mem ht, h.dataSize⟩

/-- **The image** is read as the tags that it was made of, exactly if the version has the padding that it needs and no size is
    too large. -/
theorem createImage_iff (fresh : ℕ → Byte) (input : Input) :
    (∃ img, createImage fresh input = some img ∧ WellFormed img input) ↔ Fits input := by
  have hcases := createImage_cases fresh input
  dsimp only at hcases
  constructor
  · rintro ⟨img, hcall, hwell⟩
    rcases hcases with ⟨hfits, img', ts, hcall', h, hts⟩ | ⟨-, hcall'⟩
    · obtain rfl := Option.some.inj (hcall'.symm.trans hcall)
      rw [h.wellFormed_iff, hts] at hwell
      -- the second tag
      have hdata : input.data.take (input.data.length % 2 ^ 32) = input.data :=
        congrArg (fun l => (l.getD 1 default).2) hwell
      have hlength : input.data.length % 2 ^ 32 = input.data.length := by
        have hlen := congrArg List.length hdata
        rw [List.length_take] at hlen
        have := Nat.mod_le input.data.length (2 ^ 32)
        omega
      rwa [hlength] at hfits
    · rw [hcall] at hcall'
      cases hcall'
  · intro hfits
    have hlength : input.data.length % 2 ^ 32 = input.data.length := by
      have := hfits.1.1
      exact Nat.mod_eq_of_lt (by omega)
    rw [hlength, List.take_length] at hcases
    obtain ⟨-, img, ts, hcall, h, hts⟩ := hcases.resolve_right fun hno => hno.1 hfits
    exact ⟨img, hcall, h.wellFormed_iff.2 hts⟩

/-- The length of a version of no bytes is written outside of the image. -/
theorem version_outside :
    createImage (fun _ => 0) ⟨0x6b726e6c, [1], some [], none, none, none, none, none, none, none⟩ =
      none := by
  decide

end

end PocketDarwin.Image3
