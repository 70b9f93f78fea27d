/-
  The registers of a device on an I2C bus, and a shadow copy of them.

  `APRegisterMap` has a byte of its shadow for each register.  `read` and `readBlock` copy
  registers into the shadow, `write` and `writeBlock` copy the shadow to the device; the others
  work on the shadow.  Registers are numbered by 16 bits, but addressed by one byte on the bus.

  * `Within`: no register that the bus cannot address is accessed, and no shadow that could not
    be allocated.
  * `coherent_call`: a call within this copies exactly the registers it names.
  * `registers_run`: in a run of such calls, all of them do, and no access is outside of the shadow.
-/
import PocketDarwin.Buffer
import PocketDarwin.Runs
import Mathlib.Tactic.SplitIfs

namespace PocketDarwin.Drivers

inductive IOReturn where
  | success | badArgument | noMemory | ioError
deriving DecidableEq

abbrev Byte := BitVec 8

/-! ## The bus -/

/-- The registers of a slave. -/
abbrev Slave := ℕ → Byte

/-- The registers that are read one after the other.  The register address is a byte. -/
def Slave.load (slave : Slave) : Byte → ℕ → List Byte
  | _, 0 => []
  | a, n + 1 => slave a.toNat :: slave.load (a + 1) n

/-- Registers are written one after the other. -/
def Slave.store (slave : Slave) : Byte → List Byte → Slave
  | _, [] => slave
  | a, b :: l => Slave.store (Function.update slave a.toNat b) (a + 1) l

/-- A transfer to the slave: the register address and what is written, then what is read.  It fails if the slave does not
    answer; a transfer that fails is taken to leave the slave unchanged. -/
def i2cTransfer (slave : Slave) (ack : Bool) (txBuf : List Byte) (rxLen : ℕ) :
    IOReturn × List Byte × Slave :=
  if ack then
    match txBuf with
    | [] => (.success, [], slave)
    | a :: l =>
      (.success, (slave.store a l).load (a + BitVec.ofNat 8 l.length) rxLen, slave.store a l)
  else (.ioError, [], slave)

def i2cReadReg8 (slave : Slave) (ack : Bool) (regAddr : Byte) : IOReturn × List Byte × Slave :=
  i2cTransfer slave ack [regAddr] 1

def i2cWriteReg8 (slave : Slave) (ack : Bool) (regAddr val : Byte) : IOReturn × List Byte × Slave :=
  i2cTransfer slave ack [regAddr, val] 0

def i2cReadBlock (slave : Slave) (ack : Bool) (regAddr : Byte) (len : ℕ) :
    IOReturn × List Byte × Slave :=
  i2cTransfer slave ack [regAddr] len

/-- `none` if `buf` is read outside of its array; `mem` is whether there is memory for the transfer. -/
def i2cWriteBlock (slave : Slave) (ack mem : Bool) (regAddr : Byte) (buf : Buffer Byte)
    (start len : ℕ) :
    Option (IOReturn × List Byte × Slave) :=
  if !mem then some (.noMemory, [], slave)
  else (buf.gets start len).map fun l => i2cTransfer slave ack (regAddr :: l) 0

/-! ## The register map -/

/-- A register map, with the slave that it is one of.  There may be no shadow. -/
structure APRegisterMap where
  fNumRegs : BitVec 16
  fShadow : Option (Buffer Byte)
  slave : Slave

namespace APRegisterMap

/-- The constructor; `mem` is whether there is memory for the shadow. -/
def new (numRegs : BitVec 16) (slave : Slave) (mem : Bool) : APRegisterMap :=
  ⟨numRegs, if mem then some (Buffer.filled numRegs.toNat 0) else none, slave⟩

section
variable (x : APRegisterMap)

-- `none` is an access outside of the shadow, or to one that does not exist

def read (reg : BitVec 16) (ack : Bool) : Option (IOReturn × APRegisterMap) :=
  if reg ≥ x.fNumRegs ∨ x.fShadow.isNone then some (.badArgument, x)
  else x.fShadow.bind fun shadow =>
    let (ret, rx, slave) := i2cReadReg8 x.slave ack (reg.setWidth 8)
    (shadow.sets reg.toNat rx).map fun shadow => (ret, { x with fShadow := some shadow, slave })

def readBlock (startReg count : BitVec 16) (ack : Bool) : Option (IOReturn × APRegisterMap) :=
  if startReg.toNat + count.toNat > x.fNumRegs.toNat ∨ x.fShadow.isNone then some (.badArgument, x)
  else x.fShadow.bind fun shadow =>
    let (ret, rx, slave) := i2cReadBlock x.slave ack (startReg.setWidth 8) count.toNat
    (shadow.sets startReg.toNat rx).map fun shadow =>
      (ret, { x with fShadow := some shadow, slave })

def write (reg : BitVec 16) (ack : Bool) : Option (IOReturn × APRegisterMap) :=
  if reg ≥ x.fNumRegs ∨ x.fShadow.isNone then some (.badArgument, x)
  else x.fShadow.bind fun shadow => (shadow.get reg.toNat).map fun val =>
    let (ret, _, slave) := i2cWriteReg8 x.slave ack (reg.setWidth 8) val
    (ret, { x with slave })

def writeBlock (startReg count : BitVec 16) (ack mem : Bool) : Option (IOReturn × APRegisterMap) :=
  if startReg.toNat + count.toNat > x.fNumRegs.toNat ∨ x.fShadow.isNone then some (.badArgument, x)
  else x.fShadow.bind fun shadow =>
    (i2cWriteBlock x.slave ack mem (startReg.setWidth 8) shadow startReg.toNat count.toNat).map
      fun (ret, _, slave) =>
      (ret, { x with slave })

def get8 (reg : BitVec 16) : Option Byte :=
  if reg ≥ x.fNumRegs then some 0 else x.fShadow.bind fun shadow => shadow.get reg.toNat

def get16 (reg : BitVec 16) : Option (BitVec 16) :=
  if reg.toNat + 1 ≥ x.fNumRegs.toNat then some 0
  else x.fShadow.bind fun shadow => (shadow.get reg.toNat).bind fun lo =>
    (shadow.get (reg.toNat + 1)).map fun hi =>
    lo.setWidth 16 ||| BitVec.shiftLeft (hi.setWidth 16) 8

def set8 (reg : BitVec 16) (val : Byte) : Option APRegisterMap :=
  if reg < x.fNumRegs then x.fShadow.bind fun shadow => (shadow.set reg.toNat val).map fun shadow =>
    { x with fShadow := some shadow }
  else some x

def set16 (reg val : BitVec 16) : Option APRegisterMap :=
  if reg.toNat + 1 < x.fNumRegs.toNat then
    x.fShadow.bind fun shadow => (shadow.set reg.toNat ((val &&& 0xFF).setWidth 8)).bind
      fun shadow =>
      (shadow.set (reg.toNat + 1) ((val >>> 8).setWidth 8)).map fun shadow =>
        { x with fShadow := some shadow }
  else some x

def modify (reg : BitVec 16) (clr set : Byte) : Option APRegisterMap :=
  if reg < x.fNumRegs then
    x.fShadow.bind fun shadow => (shadow.get reg.toNat).bind fun old =>
      (shadow.set reg.toNat ((old &&& ~~~clr) ||| set)).map fun shadow =>
        { x with fShadow := some shadow }
  else some x

end

/-- The calls; what is not decided by the driver is whether the slave answers and whether there is memory. -/
inductive Call where
  | read (reg : BitVec 16) (ack : Bool)
  | readBlock (startReg count : BitVec 16) (ack : Bool)
  | write (reg : BitVec 16) (ack : Bool)
  | writeBlock (startReg count : BitVec 16) (ack mem : Bool)
  | get8 (reg : BitVec 16)
  | get16 (reg : BitVec 16)
  | set8 (reg : BitVec 16) (val : Byte)
  | set16 (reg val : BitVec 16)
  | modify (reg : BitVec 16) (clr set : Byte)

def call (x : APRegisterMap) : Call → Option (IOReturn × APRegisterMap)
  | .read reg ack => x.read reg ack
  | .readBlock startReg count ack => x.readBlock startReg count ack
  | .write reg ack => x.write reg ack
  | .writeBlock startReg count ack mem => x.writeBlock startReg count ack mem
  | .get8 reg => (x.get8 reg).map fun _ => (.success, x)
  | .get16 reg => (x.get16 reg).map fun _ => (.success, x)
  | .set8 reg val => (x.set8 reg val).map (.success, ·)
  | .set16 reg val => (x.set16 reg val).map (.success, ·)
  | .modify reg clr set => (x.modify reg clr set).map (.success, ·)

/-- The map after a call, unless it has made an access that it must not. -/
def step (r : Option APRegisterMap) (c : Call) : Option APRegisterMap :=
  r.bind fun x => (x.call c).map Prod.snd

/-! ## What calls do -/

/-- The register is one of the block. -/
abbrev InBlock (start count : ℕ) (r : BitVec 16) : Prop := start ≤ r.toNat ∧ r.toNat < start + count

/-- The registers of the block are copied into the shadow, and nothing else is changed. -/
def Loaded (x x' : APRegisterMap) (start count : ℕ) : Prop :=
  x'.slave = x.slave ∧ ∀ r, x'.get8 r = if InBlock start count r then some (x.slave r.toNat)
    else x.get8 r

/-- The shadow of the block is copied to the slave, and nothing else is changed. -/
def Stored (x x' : APRegisterMap) (start count : ℕ) : Prop :=
  (∀ r, x'.get8 r = x.get8 r) ∧
  ∀ r : BitVec 16, some (x'.slave r.toNat) = if InBlock start count r then x.get8 r
    else some (x.slave r.toNat)

/-- The shadow is changed as `f` says. -/
def Changed (x x' : APRegisterMap) (f : BitVec 16 → Option Byte) : Prop :=
  x'.slave = x.slave ∧ ∀ r, x'.get8 r = f r

/-- What a call does that succeeds. -/
def Effect (x x' : APRegisterMap) : Call → Prop
  | .read reg _ => x.Loaded x' reg.toNat 1
  | .readBlock startReg count _ => x.Loaded x' startReg.toNat count.toNat
  | .write reg _ => x.Stored x' reg.toNat 1
  | .writeBlock startReg count _ _ => x.Stored x' startReg.toNat count.toNat
  | .get8 _ | .get16 _ => x' = x
  | .set8 reg val => x.Changed x' fun r => if r = reg ∧ reg < x.fNumRegs then some val else x.get8 r
  | .set16 reg val => x.Changed x' fun r =>
    if ¬ reg.toNat + 1 < x.fNumRegs.toNat then x.get8 r
    else if r = reg then some (val.setWidth 8) else if r = reg + 1
      then some ((val >>> 8).setWidth 8) else x.get8 r
  | .modify reg clr set => x.Changed x' fun r =>
    if r = reg ∧ reg < x.fNumRegs then (x.get8 r).map fun old => (old &&& ~~~clr) ||| set
      else x.get8 r

/-- A call stays in the shadow, and does what it should if it succeeds. -/
def Coherent (x : APRegisterMap) (c : Call) : Prop :=
  ∃ ret x', x.call c = some (ret, x') ∧ (ret = .success → x.Effect x' c)

/-- The call has no register behind what the bus can address, and accesses no shadow that does not exist. -/
def Within (x : APRegisterMap) : Call → Prop
  | .read reg _ | .write reg _ => reg < x.fNumRegs → reg.toNat < 256
  | .readBlock startReg count _ | .writeBlock startReg count _ _ =>
    startReg.toNat + count.toNat ≤ x.fNumRegs.toNat → count = 0 ∨ startReg.toNat + count.toNat ≤ 256
  | .get8 reg | .set8 reg _ | .modify reg _ _ => reg < x.fNumRegs → x.fShadow.isSome
  | .get16 reg | .set16 reg _ => reg.toNat + 1 < x.fNumRegs.toNat → x.fShadow.isSome

section
variable {x : APRegisterMap} {shadow : Buffer Byte} {slave : Slave} {a : Byte} {l : List Byte} {n : ℕ}

/-! ## The bus, where addresses do not wrap around -/

theorem toNat_next (h : a.toNat + 1 < 256) : (a + 1).toNat = a.toNat + 1 := by
  rw [BitVec.toNat_add]
  exact Nat.mod_eq_of_lt h

theorem load_eq (h : n = 0 ∨ a.toNat + n ≤ 256) :
    slave.load a n = (List.range' a.toNat n).map slave := by
  induction n generalizing a with
  | zero => rfl
  | succ n ih =>
    rw [Slave.load, List.range'_succ, List.map_cons]
    rcases Nat.eq_zero_or_pos n with rfl | hn
    · rfl
    · rw [ih (by rw [toNat_next (by omega)]; omega), toNat_next (by omega)]

/-- What is written is that of an array that ends behind the last address. -/
theorem store_eq (h : l = [] ∨ a.toNat + l.length ≤ 256) :
    slave.store a l = ((⟨256, slave⟩ : Buffer Byte).puts a.toNat l).elem := by
  induction l generalizing a slave with
  | nil => rw [Buffer.puts_nil]; rfl
  | cons b l ih =>
    rw [Slave.store, Buffer.puts_cons]
    rcases l.eq_nil_or_concat with rfl | ⟨_, _, hl⟩
    · rw [Buffer.puts_nil]; rfl
    · have hpos : 0 < l.length := by simp [hl]
      have hle : a.toNat + (l.length + 1) ≤ 256 := by simpa using h
      rw [ih (by rw [toNat_next (by omega)]; omega), toNat_next (by omega)]
      rfl

theorem toNat_setWidth (reg : BitVec 16) (h : reg.toNat < 256) :
    (reg.setWidth 8).toNat = reg.toNat := by
  rw [BitVec.toNat_setWidth]
  exact Nat.mod_eq_of_lt h

end

/-! ## One call -/

/-- The shadow has a byte for each register. -/
def WF (x : APRegisterMap) : Prop :=
  ∀ shadow, x.fShadow = some shadow → shadow.size = x.fNumRegs.toNat

section
variable {x : APRegisterMap} {shadow : Buffer Byte} {slave : Slave} {reg startReg count : BitVec 16}
  {ack mem : Bool}

theorem get8_eq (hx : x.WF) (hshadow : x.fShadow = some shadow) (r : BitVec 16) :
    x.get8 r = some (if r < x.fNumRegs then shadow.elem r.toNat else 0) := by
  rw [get8]
  by_cases hr : r < x.fNumRegs
  · have hlt : r.toNat < shadow.size := by rw [hx shadow hshadow]; exact hr
    rw [if_neg (BitVec.not_le.2 hr), if_pos hr, hshadow, Option.bind_some, Buffer.get_eq_some hlt]
  · rw [if_pos (BitVec.not_lt.1 hr), if_neg hr]

/-- A single register is a block. -/
theorem read_eq (x : APRegisterMap) (reg : BitVec 16) (ack : Bool) :
    x.read reg ack = x.readBlock reg 1 ack := by
  have hge : reg ≥ x.fNumRegs ↔ reg.toNat + (1 : BitVec 16).toNat > x.fNumRegs.toNat :=
    Nat.lt_succ_iff.symm
  rw [read, readBlock, if_congr (or_congr_left hge) rfl rfl]
  rfl

theorem write_eq (x : APRegisterMap) (reg : BitVec 16) (ack : Bool) :
    x.write reg ack = x.writeBlock reg 1 ack true := by
  have hge : reg ≥ x.fNumRegs ↔ reg.toNat + (1 : BitVec 16).toNat > x.fNumRegs.toNat :=
    Nat.lt_succ_iff.symm
  rw [write, writeBlock, if_congr (or_congr_left hge) rfl rfl]
  congr 1
  refine congrArg x.fShadow.bind (funext fun shadow => ?_)
  have hgets : shadow.gets reg.toNat (1 : BitVec 16).toNat = (shadow.get reg.toNat).map ([·]) := by
    show (shadow.get reg.toNat).bind _ = _
    cases shadow.get reg.toNat <;> rfl
  rw [i2cWriteBlock, hgets]
  cases shadow.get reg.toNat <;> rfl

theorem loaded_puts (hx : x.WF) (hshadow : x.fShadow = some shadow)
    (hle : startReg.toNat + count.toNat ≤ x.fNumRegs.toNat) :
    x.Loaded { x with fShadow := some (shadow.puts startReg.toNat
      ((List.range' startReg.toNat count.toNat).map x.slave)) }
      startReg.toNat count.toNat := by
  refine ⟨rfl, fun r => ?_⟩
  have hx' : WF { x with fShadow := some (shadow.puts startReg.toNat
      ((List.range' startReg.toNat count.toNat).map x.slave)) } := by
    rintro _ ⟨rfl⟩
    exact hx shadow hshadow
  rw [get8_eq hx' rfl, get8_eq hx hshadow, Buffer.elem_puts_range]
  by_cases hr : startReg.toNat ≤ r.toNat ∧ r.toNat < startReg.toNat + count.toNat
  · have hreg : r < x.fNumRegs := Nat.lt_of_lt_of_le hr.2 hle
    rw [if_pos hreg, if_pos hr, if_pos hr]
  · rw [if_neg hr, if_neg hr]

theorem stored_puts (hx : x.WF) (hshadow : x.fShadow = some shadow)
    (hle : startReg.toNat + count.toNat ≤ x.fNumRegs.toNat)
    (hslave : slave = ((⟨256, x.slave⟩ : Buffer Byte).puts startReg.toNat
      ((List.range' startReg.toNat count.toNat).map shadow.elem)).elem) :
    x.Stored { x with slave } startReg.toNat count.toNat := by
  refine ⟨fun r => rfl, fun r => ?_⟩
  show some (slave r.toNat) = _
  rw [get8_eq hx hshadow, hslave, Buffer.elem_puts_range]
  by_cases hr : startReg.toNat ≤ r.toNat ∧ r.toNat < startReg.toNat + count.toNat
  · have hreg : r < x.fNumRegs := Nat.lt_of_lt_of_le hr.2 hle
    rw [if_pos hr, if_pos hr, if_pos hreg]
  · rw [if_neg hr, if_neg hr]

/-- What a call has to do, and to keep. -/
def Sound (x : APRegisterMap) (c : Call) : Prop :=
  ∃ ret x', x.call c = some (ret, x') ∧ x'.WF ∧ (ret = .success → x.Effect x' c)

theorem sound_readBlock (hx : x.WF) (hin : x.Within (.readBlock startReg count ack)) :
    x.Sound (.readBlock startReg count ack) := by
  by_cases hbad : startReg.toNat + count.toNat > x.fNumRegs.toNat ∨ x.fShadow.isNone
  · exact ⟨.badArgument, x, if_pos hbad, hx, fun h => by simp at h⟩
  obtain ⟨hle, hsome⟩ := not_or.1 hbad
  obtain ⟨shadow, hshadow⟩ : ∃ shadow, x.fShadow = some shadow :=
    Option.ne_none_iff_exists'.1 (by simpa using hsome)
  have hsize := hx shadow hshadow
  have hcall : x.call (.readBlock startReg count ack) = _ := if_neg hbad
  rw [hshadow, Option.bind_some] at hcall
  cases ack with
  | false => exact ⟨.ioError, _, hcall, fun s hs => hx s (hshadow.trans hs), fun h => by simp at h⟩
  | true =>
    have hload : x.slave.load (startReg.setWidth 8) count.toNat =
        (List.range' startReg.toNat count.toNat).map x.slave := by
      rcases hin (Nat.not_lt.1 hle) with rfl | h256
      · rfl
      · by_cases hzero : count.toNat = 0
        · rw [hzero]
          rfl
        · have hstart := toNat_setWidth startReg (by omega)
          rw [load_eq (.inr (by omega)), hstart]
    have hadd : startReg.setWidth 8 + BitVec.ofNat 8 ([] : List Byte).length =
        startReg.setWidth 8 := BitVec.add_zero _
    have hrx : i2cReadBlock x.slave true (startReg.setWidth 8) count.toNat =
        (.success, (List.range' startReg.toNat count.toNat).map x.slave, x.slave) := by
      show (IOReturn.success, x.slave.load
        (startReg.setWidth 8 + BitVec.ofNat 8 ([] : List Byte).length) count.toNat, x.slave) = _
      rw [hadd, hload]
    simp only [hrx] at hcall
    have hsets : shadow.sets startReg.toNat ((List.range' startReg.toNat count.toNat).map x.slave) = _ :=
      Buffer.sets_eq_some (by rw [List.length_map, List.length_range', hsize]; omega)
    rw [hsets] at hcall
    refine ⟨.success, _, hcall, ?_, fun _ => loaded_puts hx hshadow (Nat.not_lt.1 hle)⟩
    rintro _ ⟨rfl⟩
    exact hsize

theorem sound_writeBlock (hx : x.WF) (hin : x.Within (.writeBlock startReg count ack mem)) :
    x.Sound (.writeBlock startReg count ack mem) := by
  by_cases hbad : startReg.toNat + count.toNat > x.fNumRegs.toNat ∨ x.fShadow.isNone
  · exact ⟨.badArgument, x, if_pos hbad, hx, fun h => by simp at h⟩
  obtain ⟨hle, hsome⟩ := not_or.1 hbad
  obtain ⟨shadow, hshadow⟩ : ∃ shadow, x.fShadow = some shadow :=
    Option.ne_none_iff_exists'.1 (by simpa using hsome)
  have hsize := hx shadow hshadow
  have hbind : ∀ f : Buffer Byte → Option (IOReturn × APRegisterMap), x.fShadow.bind f = f shadow := by
    intro f
    rw [hshadow, Option.bind_some]
  have hcall : x.call (.writeBlock startReg count ack mem) = _ := if_neg hbad
  rw [hbind, i2cWriteBlock, Buffer.gets_eq_some (by omega)] at hcall
  cases mem with
  | false => exact ⟨.noMemory, _, hcall, hx, fun h => by simp at h⟩
  | true =>
    cases ack with
    | false => exact ⟨.ioError, _, hcall, hx, fun h => by simp at h⟩
    | true =>
      refine ⟨.success, _, hcall, hx, fun _ => stored_puts hx hshadow (Nat.not_lt.1 hle) ?_⟩
      show x.slave.store (startReg.setWidth 8)
        ((List.range' startReg.toNat count.toNat).map shadow.elem) = _
      by_cases hzero : count.toNat = 0
      · rw [hzero, List.range'_zero, List.map_nil, Buffer.puts_nil]
        rfl
      · have h256 : startReg.toNat + count.toNat ≤ 256 :=
          (hin (Nat.not_lt.1 hle)).resolve_left fun h => hzero (by simp [h])
        have hstart := toNat_setWidth startReg (by omega)
        rw [store_eq (.inr (by rw [List.length_map, List.length_range']; omega)), hstart]

/-- The shadow of one register is changed. -/
theorem changed_put (val : Byte) (hx : x.WF) (hshadow : x.fShadow = some shadow)
    (hreg : reg < x.fNumRegs) :
    WF { x with fShadow := some (shadow.put reg.toNat val) } ∧
    x.Changed { x with fShadow := some (shadow.put reg.toNat val) } fun r => if r = reg
      then some val else x.get8 r := by
  have hx' : WF { x with fShadow := some (shadow.put reg.toNat val) } := by
    rintro _ ⟨rfl⟩
    exact hx shadow hshadow
  refine ⟨hx', rfl, fun r => ?_⟩
  dsimp only
  rw [get8_eq hx' rfl, get8_eq hx hshadow]
  by_cases hr : r = reg
  · subst hr
    rw [if_pos rfl, if_pos hreg, Buffer.elem_put_self]
  · rw [if_neg hr, Buffer.elem_put_of_ne fun h => hr (BitVec.eq_of_toNat_eq h)]

theorem sound_set8 {val : Byte} (hx : x.WF) (hin : x.Within (.set8 reg val)) :
    x.Sound (.set8 reg val) := by
  by_cases hreg : reg < x.fNumRegs
  · obtain ⟨shadow, hshadow⟩ := Option.isSome_iff_exists.1 (hin hreg)
    have hlt : reg.toNat < shadow.size := by rw [hx shadow hshadow]; exact hreg
    obtain ⟨hx', hslave, hget⟩ := changed_put val hx hshadow hreg
    refine ⟨.success, { x with fShadow := some (shadow.put reg.toNat val) }, ?_, hx',
      fun _ => ⟨hslave, fun r => ?_⟩⟩
    · simp only [call, set8, if_pos hreg, hshadow, Option.bind_some, Buffer.set_eq_some hlt,
        Option.map_some]
    · rw [hget]
      simp only [hreg, and_true]
  · refine ⟨.success, x, ?_, hx, fun _ => ⟨rfl, fun r => ?_⟩⟩
    · simp only [call, set8, if_neg hreg, Option.map_some]
    · dsimp only
      rw [if_neg fun h => hreg h.2]

theorem sound_modify {clr set : Byte} (hx : x.WF) (hin : x.Within (.modify reg clr set)) :
    x.Sound (.modify reg clr set) := by
  by_cases hreg : reg < x.fNumRegs
  · obtain ⟨shadow, hshadow⟩ := Option.isSome_iff_exists.1 (hin hreg)
    have hlt : reg.toNat < shadow.size := by rw [hx shadow hshadow]; exact hreg
    obtain ⟨hx', hslave, hget⟩ := changed_put ((shadow.elem reg.toNat &&& ~~~clr) ||| set)
      hx hshadow hreg
    refine ⟨.success, _, ?_, hx', fun _ => ⟨hslave, fun r => ?_⟩⟩
    · simp only [call, modify, if_pos hreg, hshadow, Option.bind_some, Buffer.get_eq_some hlt,
        Buffer.set_eq_some hlt,
        Option.map_some]
    · rw [hget]
      dsimp only
      by_cases hr : r = reg
      · subst hr
        rw [if_pos rfl, if_pos ⟨rfl, hreg⟩, get8_eq hx hshadow, if_pos hreg, Option.map_some]
      · rw [if_neg hr, if_neg fun h => hr h.1]
  · refine ⟨.success, x, ?_, hx, fun _ => ⟨rfl, fun r => ?_⟩⟩
    · simp only [call, modify, if_neg hreg, Option.map_some]
    · dsimp only
      rw [if_neg fun h => hreg h.2]

theorem sound_set16 {val : BitVec 16} (hx : x.WF) (hin : x.Within (.set16 reg val)) :
    x.Sound (.set16 reg val) := by
  by_cases hreg : reg.toNat + 1 < x.fNumRegs.toNat
  · obtain ⟨shadow, hshadow⟩ := Option.isSome_iff_exists.1 (hin hreg)
    have hsize := hx shadow hshadow
    have hnext : (reg + 1).toNat = reg.toNat + 1 := by
      rw [BitVec.toNat_add]
      exact Nat.mod_eq_of_lt (by have := x.fNumRegs.isLt; simp; omega)
    have hlow : (val &&& 0xFF).setWidth 8 = val.setWidth 8 := by
      apply BitVec.eq_of_toNat_eq
      rw [BitVec.toNat_setWidth, BitVec.toNat_setWidth, BitVec.toNat_and]
      exact (Nat.and_two_pow_sub_one_eq_mod val.toNat 8).symm ▸ Nat.mod_mod _ _
    -- the low byte first, and the high byte in the map that this leaves
    have hfirst : reg < x.fNumRegs := by rw [BitVec.lt_def]; omega
    have hsecond : reg + 1 < x.fNumRegs := by rw [BitVec.lt_def, hnext]; exact hreg
    obtain ⟨hx₁, hslave₁, hget₁⟩ := changed_put ((val &&& 0xFF).setWidth 8) hx hshadow hfirst
    obtain ⟨hx₂, hslave₂, hget₂⟩ := changed_put ((val >>> 8).setWidth 8) hx₁ rfl hsecond
    rw [hnext] at hx₂ hslave₂ hget₂
    refine ⟨.success, _, ?_, hx₂, fun _ => ⟨hslave₂.trans hslave₁, fun r => ?_⟩⟩
    · simp only [call, set16, if_pos hreg, hshadow, Option.bind_some]
      rw [Buffer.set_eq_some (by omega), Option.bind_some,
        Buffer.set_eq_some (by simp only [Buffer.put]; omega)]
      rfl
    · rw [hget₂]
      dsimp only
      rw [hget₁, if_neg (not_not.2 hreg), hlow]
      dsimp only
      have hne : reg + 1 ≠ reg := fun h => by have := congrArg BitVec.toNat h; omega
      by_cases hr : r = reg
      · subst hr
        rw [if_neg hne.symm, if_pos rfl, if_pos rfl]
      · rw [if_neg hr, if_neg hr]
  · refine ⟨.success, x, ?_, hx, fun _ => ⟨rfl, fun r => ?_⟩⟩
    · simp only [call, set16, if_neg hreg, Option.map_some]
    · dsimp only
      rw [if_pos hreg]

/-- **One call** stays in the shadow and copies exactly what it should. -/
theorem sound_call {c : Call} (hx : x.WF) (hin : x.Within c) : x.Sound c := by
  cases c with
  | read reg ack =>
    have hblock : x.Within (.readBlock reg 1 ack) := fun hle => .inr (hin hle)
    obtain ⟨ret, x', hcall, hx', heffect⟩ := sound_readBlock hx hblock
    exact ⟨ret, x', (read_eq x reg ack).trans hcall, hx', heffect⟩
  | readBlock startReg count ack => exact sound_readBlock hx hin
  | write reg ack =>
    have hblock : x.Within (.writeBlock reg 1 ack true) := fun hle => .inr (hin hle)
    obtain ⟨ret, x', hcall, hx', heffect⟩ := sound_writeBlock hx hblock
    exact ⟨ret, x', (write_eq x reg ack).trans hcall, hx', heffect⟩
  | writeBlock startReg count ack mem => exact sound_writeBlock hx hin
  | get8 reg =>
    obtain ⟨val, hval⟩ : ∃ val, x.get8 reg = some val := by
      by_cases hreg : reg < x.fNumRegs
      · obtain ⟨shadow, hshadow⟩ := Option.isSome_iff_exists.1 (hin hreg)
        exact ⟨_, get8_eq hx hshadow reg⟩
      · exact ⟨0, if_pos (BitVec.not_lt.1 hreg)⟩
    exact ⟨.success, x, by rw [call, hval]; rfl, hx, fun _ => rfl⟩
  | get16 reg =>
    obtain ⟨val, hval⟩ : ∃ val, x.get16 reg = some val := by
      by_cases hreg : reg.toNat + 1 < x.fNumRegs.toNat
      · obtain ⟨shadow, hshadow⟩ := Option.isSome_iff_exists.1 (hin hreg)
        have hsize := hx shadow hshadow
        rw [get16, if_neg (Nat.not_le.2 hreg), hshadow, Option.bind_some,
          Buffer.get_eq_some (by omega), Option.bind_some,
          Buffer.get_eq_some (by omega)]
        exact ⟨_, rfl⟩
      · exact ⟨0, if_pos (Nat.not_lt.1 hreg)⟩
    exact ⟨.success, x, by rw [call, hval]; rfl, hx, fun _ => rfl⟩
  | set8 reg val => exact sound_set8 hx hin
  | set16 reg val => exact sound_set16 hx hin
  | modify reg clr set => exact sound_modify hx hin

end

/-! ## Runs -/

/-- **Shadow and slave agree.**  In a run of calls that stay within what the bus can address and what could be allocated, no
    access is outside of the shadow, and every call that succeeds has copied the registers that it names and no others. -/
theorem registers_run {numRegs : BitVec 16} {slave : Slave} {mem : Bool} {log : List Call}
    (hlog : Meets step (fun r c => ∀ x, r = some x → x.Within c) (some (new numRegs slave mem)) log) :
    Meets step (fun r c => ∃ x, r = some x ∧ x.Coherent c) (some (new numRegs slave mem)) log := by
  refine Meets.of_invariant (I := fun r => ∃ x, r = some x ∧ x.WF) ?_ ?_ ?_ hlog
  · rintro r c ⟨x, rfl, hx⟩ hin
    obtain ⟨ret, x', hcall, hx', -⟩ := sound_call hx (hin x rfl)
    exact ⟨x', by rw [step, Option.bind_some, hcall]; rfl, hx'⟩
  · rintro r c ⟨x, rfl, hx⟩ hin
    obtain ⟨ret, x', hcall, -, heffect⟩ := sound_call hx (hin x rfl)
    exact ⟨x, rfl, ret, x', hcall, heffect⟩
  · refine ⟨_, rfl, fun shadow hshadow => ?_⟩
    cases mem with
    | false => simp [new] at hshadow
    | true =>
      obtain rfl : Buffer.filled numRegs.toNat 0 = shadow := by simpa [new] using hshadow
      rfl

instance (x : APRegisterMap) : ∀ c, Decidable (x.Within c)
  | .read reg _ | .write reg _ => inferInstanceAs (Decidable (reg < x.fNumRegs → reg.toNat < 256))
  | .readBlock startReg count _ | .writeBlock startReg count _ _ => inferInstanceAs (Decidable
    (startReg.toNat + count.toNat ≤ x.fNumRegs.toNat → count = 0 ∨ startReg.toNat + count.toNat ≤ 256))
  | .get8 reg | .set8 reg _ | .modify reg _ _ =>
    inferInstanceAs (Decidable (reg < x.fNumRegs → x.fShadow.isSome = true))
  | .get16 reg | .set16 reg _ =>
    inferInstanceAs (Decidable (reg.toNat + 1 < x.fNumRegs.toNat → x.fShadow.isSome = true))

/-- What is said of a map that a run leads to can be tested. -/
instance decidableSome {α : Type} (P : α → Prop) [∀ a, Decidable (P a)] :
    ∀ r : Option α, Decidable (∀ a, r = some a → P a)
  | some a => decidable_of_iff (P a) ⟨fun h _ heq => Option.some.inj heq ▸ h, fun h => h a rfl⟩
  | none => isTrue fun _ heq => by simp at heq

/-- Four registers, of which two are read as a block, changed and written back. -/
theorem registers_run_four :
    Meets step (fun r c => ∃ x, r = some x ∧ x.Coherent c)
      (some (new 4 (fun r => BitVec.ofNat 8 r) true))
      [.readBlock 1 2 true, .modify 2 1 0x80, .write 2 true, .set16 0 0x1234,
        .writeBlock 0 2 true true] := by
  refine registers_run ?_
  decide +kernel

/-- A register that the bus cannot address: `read` finds another one.  And if there is no shadow, `set8` writes to it all
    the same. -/
theorem register_behind_bus :
    (∃ x, (new 257 (fun r => if r = 256 then 1 else 0) true).call (.read 256 true) =
      some (.success, x) ∧
      x.get8 256 = some 0 ∧ x.slave 256 = 1) ∧
    (new 4 (fun _ => 0) false).call (.set8 0 1) = none := by
  refine ⟨⟨_, rfl, ?_, ?_⟩, ?_⟩
  · decide +kernel
  · decide +kernel
  · rfl

end APRegisterMap

end PocketDarwin.Drivers
