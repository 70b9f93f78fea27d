/-
  The GPIO controller of the MSM8916.

  Each pin has a configuration register with four fields and a register for its level.  A call
  reads one of them, changes a field and writes it back.  `read32` and `write32` are those of the
  platform device: accesses outside of what is mapped do nothing.

  * `Field`: which bits of which register are what of a pin.
  * `call_eq_assign`: every call assigns a value to one field of one pin.
  * `gpio_run`: after any calls, every field has the value that was last set, and nothing else is
    changed; calls for different pins or fields can be swapped.
-/
import PocketDarwin.BitField
import Mathlib.Logic.Function.Basic
import Mathlib.Tactic.SplitIfs

namespace PocketDarwin.Drivers.Tlmm

open BitField

/-! ## The device -/

abbrev UInt32 := BitVec 32

/-- The registers of a device, and what of them is mapped. -/
structure AndroidPlatformDevice where
  fRegBase : ℕ
  fRegSize : ℕ
  reg : ℕ → UInt32

namespace AndroidPlatformDevice

/-- The register can be accessed. -/
def Mapped (d : AndroidPlatformDevice) (offset : ℕ) : Prop :=
  ¬ (d.fRegBase = 0 ∨ offset + 4 > d.fRegSize)

instance (d : AndroidPlatformDevice) (offset : ℕ) : Decidable (d.Mapped offset) :=
  inferInstanceAs (Decidable (¬ _))

def read32 (d : AndroidPlatformDevice) (offset : ℕ) : UInt32 :=
  if d.fRegBase = 0 ∨ offset + 4 > d.fRegSize then 0xFFFFFFFF else d.reg offset

def write32 (d : AndroidPlatformDevice) (offset : ℕ) (value : UInt32) : AndroidPlatformDevice :=
  if d.fRegBase = 0 ∨ offset + 4 > d.fRegSize then d
    else { d with reg := Function.update d.reg offset value }

end AndroidPlatformDevice

def tlmmSize : ℕ := 0x00300000

def tlmmGpioCfg (n : UInt32) : ℕ := (0x1004 + n * 0x1000).toNat
def tlmmGpioInOut (n : UInt32) : ℕ := (0x1008 + n * 0x1000).toNat

def tlmmGpioMax : UInt32 := 122

def gpioCfgFuncMask : UInt32 := 0x7
def gpioCfgFuncShift : ℕ := 2
def gpioCfgDrvStrMask : UInt32 := 0x7
def gpioCfgDrvStrShift : ℕ := 6
def gpioCfgPullMask : UInt32 := 0x3
def gpioCfgPullShift : ℕ := 10
def gpioCfgOe : UInt32 := 1#32 <<< 9
def gpioDrvStr16ma : UInt32 := 7

section
variable (d : AndroidPlatformDevice)

def gpioSetFunction (pin funcSel : UInt32) : AndroidPlatformDevice :=
  if pin ≥ tlmmGpioMax then d
  else
    let cfg := d.read32 (tlmmGpioCfg pin)
    let cfg := cfg &&& ~~~(gpioCfgFuncMask <<< gpioCfgFuncShift)
    let cfg := cfg ||| ((funcSel &&& gpioCfgFuncMask) <<< gpioCfgFuncShift)
    d.write32 (tlmmGpioCfg pin) cfg

def gpioSetOutput (pin : UInt32) (output : Bool) : AndroidPlatformDevice :=
  if pin ≥ tlmmGpioMax then d
  else
    let cfg := d.read32 (tlmmGpioCfg pin)
    let cfg := if output then cfg ||| gpioCfgOe else cfg &&& ~~~gpioCfgOe
    d.write32 (tlmmGpioCfg pin) cfg

def gpioSet (pin : UInt32) (high : Bool) : AndroidPlatformDevice :=
  if pin ≥ tlmmGpioMax then d
  else
    let io := d.read32 (tlmmGpioInOut pin)
    let io := if high then io ||| 1 else io &&& ~~~1
    d.write32 (tlmmGpioInOut pin) io

def gpioSetPull (pin pullMode : UInt32) : AndroidPlatformDevice :=
  if pin ≥ tlmmGpioMax then d
  else
    let cfg := d.read32 (tlmmGpioCfg pin)
    let cfg := cfg &&& ~~~(gpioCfgPullMask <<< gpioCfgPullShift)
    let cfg := cfg ||| ((pullMode &&& gpioCfgPullMask) <<< gpioCfgPullShift)
    d.write32 (tlmmGpioCfg pin) cfg

def gpioSetDriveStrength (pin mA : UInt32) : AndroidPlatformDevice :=
  if pin ≥ tlmmGpioMax then d
  else
    let drvStr := if mA > gpioDrvStr16ma then gpioDrvStr16ma else mA
    let cfg := d.read32 (tlmmGpioCfg pin)
    let cfg := cfg &&& ~~~(gpioCfgDrvStrMask <<< gpioCfgDrvStrShift)
    let cfg := cfg ||| ((drvStr &&& gpioCfgDrvStrMask) <<< gpioCfgDrvStrShift)
    d.write32 (tlmmGpioCfg pin) cfg

end

/-- The calls of the clients of the controller. -/
inductive Call where
  | setFunction (pin funcSel : UInt32)
  | setOutput (pin : UInt32) (output : Bool)
  | set (pin : UInt32) (high : Bool)
  | setPull (pin pullMode : UInt32)
  | setDriveStrength (pin mA : UInt32)

def call (d : AndroidPlatformDevice) : Call → AndroidPlatformDevice
  | .setFunction pin funcSel => gpioSetFunction d pin funcSel
  | .setOutput pin output => gpioSetOutput d pin output
  | .set pin high => gpioSet d pin high
  | .setPull pin pullMode => gpioSetPull d pin pullMode
  | .setDriveStrength pin mA => gpioSetDriveStrength d pin mA

/-! ## Fields -/

/-- What can be set of a pin. -/
inductive Field where
  | function | pull | driveStrength | outputEnable | level
deriving DecidableEq

namespace Field

def mask : Field → UInt32
  | function | driveStrength => 7
  | pull => 3
  | outputEnable | level => 1

def shift : Field → ℕ
  | function => 2
  | driveStrength => 6
  | outputEnable => 9
  | pull => 10
  | level => 0

/-- The register that the field of a pin is in. -/
def register (f : Field) (pin : UInt32) : ℕ :=
  match f with
  | level => tlmmGpioInOut pin
  | _ => tlmmGpioCfg pin

end Field

/-- The field of a pin. -/
def AndroidPlatformDevice.field (d : AndroidPlatformDevice) (pin : UInt32) (f : Field) : UInt32 :=
  extract f.mask f.shift (d.reg (f.register pin))

namespace Call

def pin : Call → UInt32
  | setFunction pin _ | setOutput pin _ | set pin _ | setPull pin _ | setDriveStrength pin _ => pin

def field : Call → Field
  | setFunction _ _ => .function
  | setOutput _ _ => .outputEnable
  | set _ _ => .level
  | setPull _ _ => .pull
  | setDriveStrength _ _ => .driveStrength

/-- The value that is set: a strength that is too high is the highest one. -/
def value : Call → UInt32
  | setFunction _ x | setPull _ x => x
  | setOutput _ b | set _ b => if b then 1 else 0
  | setDriveStrength _ mA => if mA > gpioDrvStr16ma then gpioDrvStr16ma else mA

end Call

/-- The value that a field of a pin was last set to. -/
def lastSet (pin : UInt32) (f : Field) : List Call → Option UInt32
  | [] => none
  | c :: log =>
    (lastSet pin f log).or (if c.pin = pin ∧ c.field = f then some (c.value &&& f.mask) else none)

/-- A field of a pin is set to a value. -/
def assign (d : AndroidPlatformDevice) (pin : UInt32) (f : Field) (v : UInt32) :
    AndroidPlatformDevice :=
  if pin ≥ tlmmGpioMax then d
  else d.write32 (f.register pin) (deposit f.mask f.shift (d.read32 (f.register pin)) v)

/-- **Every call** assigns a value to one field of one pin. -/
theorem call_eq_assign (d : AndroidPlatformDevice) (c : Call) :
    call d c = assign d c.pin c.field c.value := by
  have hbit : ∀ (x : UInt32) (s : ℕ) (b : Bool),
      deposit 1 s x (if b then 1 else 0) = if b then x ||| (1#32 <<< s) else x &&& ~~~(1#32 <<< s) := by
    intro x s b
    cases b with
    | false => exact deposit_zero
    | true => exact deposit_mask
  cases c with
  | setFunction pin funcSel => rfl
  | setOutput pin output =>
    simp only [call, gpioSetOutput, assign, Call.pin, Call.field, Call.value, Field.mask,
      Field.shift, Field.register,
      hbit, gpioCfgOe]
  | set pin high =>
    simp only [call, gpioSet, assign, Call.pin, Call.field, Call.value, Field.mask, Field.shift,
      Field.register,
      hbit, BitVec.shiftLeft_zero]
    rfl
  | setPull pin pullMode => rfl
  | setDriveStrength pin mA => rfl

/-! ## One call -/

section
variable {d : AndroidPlatformDevice} {pin pin' v v' : UInt32} {f f' : Field}

theorem register_toNat (hpin : pin < tlmmGpioMax) :
    f.register pin = (if f = .level then 0x1008 else 0x1004) + pin.toNat * 0x1000 := by
  have hlt : pin.toNat < 122 := hpin
  cases f <;> simp [Field.register, tlmmGpioCfg, tlmmGpioInOut] <;> omega

/-- Different pins have different registers. -/
theorem pin_eq_of_register (hpin : pin < tlmmGpioMax) (hpin' : pin' < tlmmGpioMax)
    (h : f.register pin = f'.register pin') : pin = pin' := by
  rw [register_toNat hpin, register_toNat hpin'] at h
  apply BitVec.eq_of_toNat_eq
  split_ifs at h <;> omega

theorem fits (f : Field) : Fits f.mask f.shift := by
  cases f <;> exact rfl

/-- Different fields in a register have different bits. -/
theorem disjoint_of_ne (hne : f ≠ f') (hpin : pin < tlmmGpioMax)
    (h : f.register pin = f'.register pin) :
    (f.mask <<< f.shift) &&& (f'.mask <<< f'.shift) = 0 := by
  rw [register_toNat hpin, register_toNat hpin] at h
  revert h
  cases f <;> cases f' <;> simp [Field.mask, Field.shift] at hne ⊢

@[simp] theorem mapped_assign {offset : ℕ} : (assign d pin f v).Mapped offset ↔ d.Mapped offset := by
  rw [assign, AndroidPlatformDevice.write32]
  split_ifs <;> rfl

/-- The registers after an assignment. -/
theorem reg_assign {offset : ℕ} : (assign d pin f v).reg offset =
    if pin < tlmmGpioMax ∧ d.Mapped offset ∧ offset = f.register pin then deposit f.mask f.shift
      (d.reg offset) v
    else d.reg offset := by
  rw [assign, AndroidPlatformDevice.write32, AndroidPlatformDevice.read32]
  by_cases hpin : pin ≥ tlmmGpioMax
  · rw [if_pos hpin, if_neg]
    rintro ⟨hlt, -⟩
    exact absurd hlt (BitVec.not_lt.2 hpin)
  rw [if_neg hpin]
  by_cases hmapped : d.Mapped (f.register pin)
  · rw [if_neg hmapped, if_neg hmapped]
    by_cases hoffset : offset = f.register pin
    · subst hoffset
      rw [if_pos ⟨BitVec.not_le.1 hpin, hmapped, rfl⟩]
      exact Function.update_self _ _ _
    · rw [if_neg fun h => hoffset h.2.2]
      exact Function.update_of_ne hoffset _ _
  · rw [if_pos (not_not.1 hmapped), if_neg]
    rintro ⟨-, hoffset, rfl⟩
    exact hmapped hoffset

/-- A field is set, if its register is mapped. -/
theorem field_assign (hpin : pin < tlmmGpioMax) (hmapped : d.Mapped (f.register pin)) :
    (assign d pin' f' v).field pin f = if pin' = pin ∧ f' = f then v &&& f.mask
      else d.field pin f := by
  rw [AndroidPlatformDevice.field, AndroidPlatformDevice.field, reg_assign]
  by_cases hreg : pin' < tlmmGpioMax ∧ d.Mapped (f.register pin) ∧ f.register pin = f'.register pin'
  · rw [if_pos hreg]
    obtain rfl := pin_eq_of_register hpin hreg.1 hreg.2.2
    by_cases hf : f' = f
    · subst hf
      rw [if_pos ⟨rfl, rfl⟩]
      exact extract_deposit_self (fits f')
    · rw [if_neg fun h => hf h.2]
      exact extract_deposit_of_disjoint (fits f) (disjoint_of_ne (Ne.symm hf) hpin hreg.2.2)
  · rw [if_neg hreg, if_neg]
    rintro ⟨rfl, rfl⟩
    exact hreg ⟨hpin, hmapped, rfl⟩

/-- The bits that are in no field are not changed. -/
theorem getLsbD_assign {offset i : ℕ}
    (h : pin < tlmmGpioMax → offset = f.register pin → (f.mask <<< f.shift).getLsbD i = false) :
    ((assign d pin f v).reg offset).getLsbD i = (d.reg offset).getLsbD i := by
  rw [reg_assign]
  split_ifs with hreg
  · by_cases hi : i < 32
    · rw [getLsbD_deposit hi, if_neg (by simp [h hreg.1 hreg.2.2])]
    · rw [BitVec.getLsbD_of_ge _ _ (Nat.not_lt.1 hi), BitVec.getLsbD_of_ge _ _ (Nat.not_lt.1 hi)]
  · rfl

theorem assign_of_ge (h : pin ≥ tlmmGpioMax) : assign d pin f v = d := if_pos h

/-- What the registers of two devices are, and what of them is mapped. -/
theorem ext_of_reg {d' : AndroidPlatformDevice} (hbase : d.fRegBase = d'.fRegBase)
    (hsize : d.fRegSize = d'.fRegSize)
    (h : ∀ offset, d.reg offset = d'.reg offset) : d = d' := by
  cases d
  cases d'
  obtain rfl : _ = _ := hbase
  obtain rfl : _ = _ := hsize
  congr 1
  exact funext h

/-- Assignments to different pins or fields can be swapped. -/
theorem assign_comm (hne : pin ≠ pin' ∨ f ≠ f') :
    assign (assign d pin f v) pin' f' v' = assign (assign d pin' f' v') pin f v := by
  have hwindow : ∀ (d : AndroidPlatformDevice) pin f v, (assign d pin f v).fRegBase = d.fRegBase ∧
      (assign d pin f v).fRegSize = d.fRegSize := by
    intro d pin f v
    rw [assign, AndroidPlatformDevice.write32]
    split_ifs <;> exact ⟨rfl, rfl⟩
  apply ext_of_reg
  · rw [(hwindow _ _ _ _).1, (hwindow _ _ _ _).1, (hwindow _ _ _ _).1, (hwindow _ _ _ _).1]
  · rw [(hwindow _ _ _ _).2, (hwindow _ _ _ _).2, (hwindow _ _ _ _).2, (hwindow _ _ _ _).2]
  intro offset
  simp only [reg_assign, mapped_assign]
  by_cases hreg : pin < tlmmGpioMax ∧ d.Mapped offset ∧ offset = f.register pin
  · by_cases hreg' : pin' < tlmmGpioMax ∧ d.Mapped offset ∧ offset = f'.register pin'
    · rw [if_pos hreg, if_pos hreg, if_pos hreg', if_pos hreg']
      obtain rfl := pin_eq_of_register hreg.1 hreg'.1 (hreg.2.2.symm.trans hreg'.2.2)
      have hf : f' ≠ f := (hne.resolve_left fun h => h rfl).symm
      exact deposit_comm (disjoint_of_ne hf hreg.1 (hreg'.2.2.symm.trans hreg.2.2))
    · rw [if_pos hreg, if_pos hreg, if_neg hreg', if_neg hreg']
  · rw [if_neg hreg, if_neg hreg]

end

/-! ## Runs -/

/-- **Pins and fields are independent.**  After any calls, a field of a pin has the value that it was last set to, or the
    one that it had; no bit outside of the fields is changed; calls for pins that do not exist do nothing; and calls for
    different pins or fields can be swapped. -/
theorem gpio_run (d : AndroidPlatformDevice) (log : List Call) :
    (∀ pin f, pin < tlmmGpioMax → d.Mapped (f.register pin) →
      (log.foldl call d).field pin f = (lastSet pin f log).getD (d.field pin f)) ∧
    (∀ offset i, (∀ pin (f : Field), pin < tlmmGpioMax → offset = f.register pin →
      (f.mask <<< f.shift).getLsbD i = false) →
      ((log.foldl call d).reg offset).getLsbD i = (d.reg offset).getLsbD i) ∧
    (∀ offset, ¬ d.Mapped offset → (log.foldl call d).reg offset = d.reg offset) ∧
    (∀ c, c.pin ≥ tlmmGpioMax → call d c = d) ∧
    ∀ c c', c.pin ≠ c'.pin ∨ c.field ≠ c'.field → call (call d c) c' = call (call d c') c := by
  refine ⟨?_, ?_, ?_, ?_, ?_⟩
  · intro pin f hpin
    induction log generalizing d with
    | nil => exact fun _ => rfl
    | cons c log ih =>
      intro hmapped
      rw [List.foldl_cons, call_eq_assign, ih _ (mapped_assign.2 hmapped),
        field_assign hpin hmapped, lastSet]
      rcases lastSet pin f log with - | x
      · split_ifs <;> rfl
      · rfl
  · intro offset i h
    induction log generalizing d with
    | nil => rfl
    | cons c log ih => rw [List.foldl_cons, ih, call_eq_assign, getLsbD_assign (h c.pin c.field)]
  · intro offset h
    induction log generalizing d with
    | nil => rfl
    | cons c log ih =>
      rw [List.foldl_cons, call_eq_assign, ih _ (by rwa [mapped_assign]), reg_assign,
        if_neg fun hreg => h hreg.2.1]
  · intro c hpin
    rw [call_eq_assign, assign_of_ge hpin]
  · intro c c' hne
    simp only [call_eq_assign]
    exact assign_comm hne

/-- What the driver knows the controller's size as is enough for all of its pins. -/
theorem mapped_of_size {d : AndroidPlatformDevice} {pin : UInt32} {f : Field}
    (hbase : d.fRegBase ≠ 0)
    (hsize : tlmmSize ≤ d.fRegSize) (hpin : pin < tlmmGpioMax) : d.Mapped (f.register pin) := by
  rw [AndroidPlatformDevice.Mapped, register_toNat hpin]
  rw [tlmmSize] at hsize
  have hlt : pin.toNat < 122 := hpin
  split_ifs <;> omega

end PocketDarwin.Drivers.Tlmm
