/-
  The SPMI controller of the MSM8916, which the power management chip is behind.

  A transfer waits until the controller is idle, writes the command and its data to registers,
  and polls the status until it is done or has failed.  `status` is what the controller is going
  to answer; `reg` is what was last written to a register.

  * `delivered_iff`: the data of a write are in their registers when polling starts exactly if
    there is one byte, or the second byte happens to be the length.
  * `reports_iff`: a read and a write report what the controller answers exactly if it is not
    done at the last poll only.
-/
import Mathlib.Data.Int.Notation
import Mathlib.Data.Nat.Notation
import Mathlib.Logic.Function.Basic
import Mathlib.Tactic.Common

namespace PocketDarwin.Drivers.Spmi

abbrev UInt8 := BitVec 8
abbrev UInt16 := BitVec 16
abbrev UInt32 := BitVec 32

/-! ## The device -/

def spmiSize : ℕ := 0x1000

def spmiStatusReg : ℕ := 0x004
def spmiCmdReg : ℕ := 0x020
def spmiAddrReg : ℕ := 0x024
def spmiDataReg : ℕ := 0x028
def spmiRdDataReg : ℕ := 0x02C

def spmiStatusBusy : UInt32 := 1 <<< 0
def spmiStatusArbBusy : UInt32 := 1 <<< 1
def spmiStatusError : UInt32 := 1 <<< 2
def spmiStatusDone : UInt32 := 1 <<< 3

def spmiCmdExtRead : UInt32 := 0x04
def spmiCmdExtWrite : UInt32 := 0x05
def spmiCmdExtReadLong : UInt32 := 0x06
def spmiCmdExtWriteLong : UInt32 := 0x07

def spmiPmicSid : UInt8 := 0
def spmiPmicPeriphBase : UInt16 := 0x1000

inductive IOReturn where
  | success | badArgument | ioError | timeout
deriving DecidableEq

/-- The controller, with all of its registers in the window that is mapped, if one is. -/
structure MSM8916SPMI where
  fRegBase : ℕ
  fRegSize : ℕ
  size : spmiSize ≤ fRegSize
  reg : ℕ → UInt32
  status : ℕ → UInt32
  answer : ℕ → UInt32

namespace MSM8916SPMI

/-- Reading the status takes the next word of it. -/
def read32 (d : MSM8916SPMI) (offset : ℕ) : UInt32 × MSM8916SPMI :=
  if d.fRegBase = 0 ∨ offset + 4 > d.fRegSize then (0xFFFFFFFF, d)
  else if offset = spmiStatusReg then (d.status 0, { d with status := fun i => d.status (i + 1) })
  else (d.answer offset, d)

def write32 (d : MSM8916SPMI) (offset : ℕ) (value : UInt32) : MSM8916SPMI :=
  if d.fRegBase = 0 ∨ offset + 4 > d.fRegSize then d
  else { d with reg := Function.update d.reg offset value }

/-! ## Transfers -/

/-- The loop of `waitForIdle`, with the value that `timeout` is tested with. -/
def waitForIdleFrom : ℕ → MSM8916SPMI → IOReturn × MSM8916SPMI
  | 0, d => (.timeout, d)
  | timeout + 1, d =>
    let (status, d) := d.read32 spmiStatusReg
    if status &&& (spmiStatusBusy ||| spmiStatusArbBusy) = 0 then (.success, d)
    else waitForIdleFrom timeout d

def waitForIdle (d : MSM8916SPMI) : IOReturn × MSM8916SPMI := d.waitForIdleFrom 10000

/-- The loop of `pmicRead`: it returns, or leaves a value in `timeout`. -/
def pollRead : ℕ → MSM8916SPMI → Except IOReturn ℤ × MSM8916SPMI
  | 0, d => (.ok (-1), d)
  | timeout + 1, d =>
    let (status, d) := d.read32 spmiStatusReg
    if status &&& spmiStatusDone ≠ 0 then (.ok timeout, d.write32 spmiStatusReg spmiStatusDone)
    else if status &&& spmiStatusError ≠ 0 then
      (.error .ioError, d.write32 spmiStatusReg spmiStatusError)
    else pollRead timeout d

/-- `buf[i] = (UInt8)read32(SPMI_RD_DATA_REG + (i * 4))`, for so many `i` from one on. -/
def readData : ℕ → UInt32 → MSM8916SPMI → List UInt8 × MSM8916SPMI
  | 0, _, d => ([], d)
  | n + 1, i, d =>
    let (word, d) := d.read32 (BitVec.ofNat 32 spmiRdDataReg + i * 4).toNat
    let (rest, d) := readData n (i + 1) d
    (word.setWidth 8 :: rest, d)

/-- What `pmicRead` returns, and the bytes that it has put into the buffer. -/
def pmicRead (d : MSM8916SPMI) (slaveId : UInt8) (addr : UInt16) (len : UInt32) :
    IOReturn × List UInt8 × MSM8916SPMI :=
  match d.waitForIdle with
  | (.success, d) =>
    if spmiPmicSid ≠ 0 then (.badArgument, [], d)
    else
      let cmd := if len = 1 then spmiCmdExtRead else spmiCmdExtReadLong
      let d := d.write32 spmiCmdReg cmd
      let d := d.write32 spmiAddrReg (slaveId.setWidth 32 <<< 16 ||| addr.setWidth 32)
      let d := d.write32 spmiDataReg len
      match d.pollRead 10000 with
      | (.error ret, d) => (ret, [], d)
      | (.ok timeout, d) =>
        if timeout ≤ 0 then (.timeout, [], d)
        else
          let (buf, d) := d.readData len.toNat 0
          (.success, buf, d)
  | (ret, d) => (ret, [], d)

/-- `write32(SPMI_DATA_REG + (i * 4), buf[i])`, for so many `i` from one on. -/
def writeData (buf : ℕ → UInt8) : ℕ → UInt32 → MSM8916SPMI → MSM8916SPMI
  | 0, _, d => d
  | n + 1, i, d =>
    writeData buf n (i + 1)
      (d.write32 (BitVec.ofNat 32 spmiDataReg + i * 4).toNat ((buf i.toNat).setWidth 32))

/-- What `pmicWrite` writes before it polls. -/
def writeCommand (d : MSM8916SPMI) (slaveId : UInt8) (addr : UInt16) (buf : ℕ → UInt8)
    (len : UInt32) : MSM8916SPMI :=
  let cmd := if len = 1 then spmiCmdExtWrite else spmiCmdExtWriteLong
  let d := d.write32 spmiCmdReg cmd
  let d := d.write32 spmiAddrReg (slaveId.setWidth 32 <<< 16 ||| addr.setWidth 32)
  let d := d.writeData buf len.toNat 0
  d.write32 (spmiDataReg + 4) len

/-- The loop of `pmicWrite`. -/
def pollWrite : ℕ → MSM8916SPMI → IOReturn × MSM8916SPMI
  | 0, d => (.timeout, d)
  | timeout + 1, d =>
    let (status, d) := d.read32 spmiStatusReg
    if status &&& spmiStatusDone ≠ 0 then (.success, d.write32 spmiStatusReg spmiStatusDone)
    else if status &&& spmiStatusError ≠ 0 then
      (.ioError, d.write32 spmiStatusReg spmiStatusError)
    else pollWrite timeout d

def pmicWrite (d : MSM8916SPMI) (slaveId : UInt8) (addr : UInt16) (buf : ℕ → UInt8)
    (len : UInt32) : IOReturn × MSM8916SPMI :=
  match d.waitForIdle with
  | (.success, d) => (d.writeCommand slaveId addr buf len).pollWrite 10000
  | (ret, d) => (ret, d)

/-! ## Regulators -/

/-- The address of a register of a peripheral. -/
def periphAddr (periphId : UInt8) (register : UInt16) : UInt16 :=
  spmiPmicPeriphBase ||| (periphId.setWidth 16 <<< 8) ||| register

def pmicRegulatorSetEnabled (d : MSM8916SPMI) (periphId : UInt8) (enable : Bool) :
    IOReturn × MSM8916SPMI :=
  d.pmicWrite spmiPmicSid (periphAddr periphId 0x46) (fun _ => if enable then 0x80 else 0x00) 1

/-- `vStep`, from what is computed in `int`. -/
def voltageStep (mV : UInt16) : UInt16 :=
  let mV : ℤ := mV.toNat
  let vStep := BitVec.ofInt 16 <|
    if mV ≥ 2300 then (mV - 2300 + 7).tdiv 8
    else if mV ≥ 1500 then (mV - 1500 + 4).tdiv 5
    else (mV - 375 + 2).tdiv 3
  if vStep > 255 then 255 else vStep

/-- The two bytes of a voltage. -/
def voltageBytes (mV : UInt16) : ℕ → UInt8
  | 0 => (voltageStep mV >>> 4).setWidth 8
  | _ => ((voltageStep mV &&& 0xF) <<< 4).setWidth 8

def pmicRegulatorSetVoltage (d : MSM8916SPMI) (periphId : UInt8) (mV : UInt16) :
    IOReturn × MSM8916SPMI :=
  d.pmicWrite spmiPmicSid (periphAddr periphId 0x40) (voltageBytes mV) 2

/-! ## Registers -/

variable {d : MSM8916SPMI} {offset r n : ℕ} {v : UInt32}

@[simp] theorem fRegBase_write32 : (d.write32 offset v).fRegBase = d.fRegBase := by
  rw [write32]
  split_ifs <;> rfl

@[simp] theorem status_write32 : (d.write32 offset v).status = d.status := by
  rw [write32]
  split_ifs <;> rfl

/-- A register of a controller that is mapped can be accessed. -/
theorem accessible (h : d.fRegBase ≠ 0) (hoffset : offset + 4 ≤ spmiSize) :
    ¬ (d.fRegBase = 0 ∨ offset + 4 > d.fRegSize) := by
  rintro (hzero | hlt)
  · exact h hzero
  · exact absurd (Nat.le_trans hoffset d.size) (Nat.not_le.2 hlt)

theorem reg_write32 (h : d.fRegBase ≠ 0) (hoffset : offset + 4 ≤ spmiSize) :
    (d.write32 offset v).reg r = if r = offset then v else d.reg r := by
  rw [write32, if_neg (accessible h hoffset)]
  exact Function.update_apply _ _ _ _

/-- The next word of the status. -/
theorem read32_status (h : d.fRegBase ≠ 0) : d.read32 spmiStatusReg =
    (d.status 0, { d with status := fun i => d.status (i + 1) }) := by
  rw [read32, if_neg (accessible h (by decide)), if_pos rfl]

/-- A controller that is not mapped never gets idle. -/
theorem fRegBase_of_idle (h : (d.waitForIdleFrom n).1 = .success) :
    (d.waitForIdleFrom n).2.fRegBase ≠ 0 := by
  induction n generalizing d with
  | zero => simp [waitForIdleFrom] at h
  | succ timeout ih =>
    by_cases hbase : d.fRegBase = 0
    · have hread : d.read32 spmiStatusReg = (0xFFFFFFFF, d) := by rw [read32, if_pos (.inl hbase)]
      have hbusy : ¬ (0xFFFFFFFF : UInt32) &&& (spmiStatusBusy ||| spmiStatusArbBusy) = 0 := by decide
      rw [waitForIdleFrom, hread] at h ⊢
      dsimp only at h ⊢
      rw [if_neg hbusy] at h ⊢
      exact ih h
    · rw [waitForIdleFrom, read32_status hbase] at h ⊢
      dsimp only at h ⊢
      split_ifs at h ⊢ with hidle
      · exact hbase
      · exact ih h

/-! ## The data of a write -/

/-- Each byte is in the register for it. -/
def Delivered (d : MSM8916SPMI) (buf : ℕ → UInt8) (len : UInt32) : Prop :=
  ∀ i < len.toNat, d.reg (spmiDataReg + 4 * i) = (buf i).setWidth 32

@[simp] theorem fRegBase_writeData (buf : ℕ → UInt8) (i : UInt32) :
    (d.writeData buf n i).fRegBase = d.fRegBase := by
  induction n generalizing i d with
  | zero => rfl
  | succ n ih => rw [writeData, ih, fRegBase_write32]

/-- The bytes from `i` on are written, each to its register. -/
theorem reg_writeData (h : d.fRegBase ≠ 0) (buf : ℕ → UInt8) {i : UInt32} (hn : i.toNat + n ≤ 8)
    {k : ℕ} (hk : k < 8) : (d.writeData buf n i).reg (spmiDataReg + 4 * k) =
      if i.toNat ≤ k ∧ k < i.toNat + n then (buf k).setWidth 32 else d.reg (spmiDataReg + 4 * k) := by
  induction n generalizing i d with
  | zero => rw [writeData, if_neg (by omega)]
  | succ n ih =>
    have hi : (i + 1).toNat = i.toNat + 1 := by
      have hone : (1 : UInt32).toNat = 1 := rfl
      rw [BitVec.toNat_add, hone]
      omega
    have hoffset : (BitVec.ofNat 32 spmiDataReg + i * 4).toNat = spmiDataReg + 4 * i.toNat := by
      have hfour : (4 : UInt32).toNat = 4 := rfl
      rw [BitVec.toNat_add, BitVec.toNat_mul, BitVec.toNat_ofNat, hfour, spmiDataReg]
      omega
    rw [writeData, ih (by rwa [fRegBase_write32]) (by omega), hi, hoffset,
      reg_write32 h (by rw [spmiDataReg, spmiSize]; omega)]
    by_cases heq : k = i.toNat
    · subst heq
      rw [if_neg (by omega), if_pos rfl, if_pos (by omega)]
    · have hiff : (i.toNat + 1 ≤ k ∧ k < i.toNat + 1 + n) ↔ i.toNat ≤ k ∧ k < i.toNat + (n + 1) := by
        omega
      have hne : ¬ spmiDataReg + 4 * k = spmiDataReg + 4 * i.toNat := by omega
      rw [if_neg hne, if_congr hiff rfl rfl]

/-- **The registers when polling starts**: the length is written over the second byte. -/
theorem reg_writeCommand (h : d.fRegBase ≠ 0) (slaveId : UInt8) (addr : UInt16) (buf : ℕ → UInt8)
    {len : UInt32} (hlen : len.toNat ≤ 8) {k : ℕ} (hk : k < len.toNat) :
    (d.writeCommand slaveId addr buf len).reg (spmiDataReg + 4 * k) =
      if k = 1 then len else (buf k).setWidth 32 := by
  have hzero : (0 : UInt32).toNat = 0 := rfl
  rw [writeCommand, reg_write32 (by simpa using h) (by decide)]
  by_cases hone : k = 1
  · subst hone
    rw [if_pos rfl, if_pos rfl]
  · have hne : ¬ spmiDataReg + 4 * k = spmiDataReg + 4 := by omega
    rw [if_neg hne, if_neg hone, reg_writeData (by simpa using h) buf (by omega) (by omega),
      if_pos (by omega)]

/-- The second byte of a voltage is a multiple of 16. -/
theorem voltageBytes_one_ne (mV : UInt16) : (voltageBytes mV 1).setWidth 32 ≠ (2 : UInt32) := by
  intro h
  have hbit := congrArg (fun x => x.getLsbD 1) h
  simp [voltageBytes] at hbit

/-- **The data of a write** are in their registers when polling starts exactly if there is one byte
    of them, or the second byte is the length; a voltage never is. -/
theorem delivered_iff (d : MSM8916SPMI) (slaveId : UInt8) (addr : UInt16) (buf : ℕ → UInt8)
    (len : UInt32) (hlen : 1 ≤ len.toNat ∧ len.toNat ≤ 8) (hidle : d.waitForIdle.1 = .success) :
    (Delivered (d.waitForIdle.2.writeCommand slaveId addr buf len) buf len ↔
      len = 1 ∨ (buf 1).setWidth 32 = len) ∧
    ∀ periphId mV, ¬ Delivered (d.waitForIdle.2.writeCommand spmiPmicSid (periphAddr periphId 0x40)
      (voltageBytes mV) 2) (voltageBytes mV) 2 := by
  have hbase : d.waitForIdle.2.fRegBase ≠ 0 := fRegBase_of_idle hidle
  constructor
  · constructor
    · intro h
      by_cases hone : len = 1
      · exact .inl hone
      have hlt : 1 < len.toNat := by
        refine Nat.lt_of_le_of_ne hlen.1 fun heq => hone ?_
        exact BitVec.eq_of_toNat_eq heq.symm
      have hreg := h 1 hlt
      rw [reg_writeCommand hbase slaveId addr buf hlen.2 hlt, if_pos rfl] at hreg
      exact .inr hreg.symm
    · intro h i hi
      rw [reg_writeCommand hbase slaveId addr buf hlen.2 hi]
      split_ifs with hone
      · subst hone
        rcases h with rfl | h
        · exact absurd hi (by decide)
        · exact h.symm
      · rfl
  · intro periphId mV h
    have hreg := h 1 (by decide)
    rw [reg_writeCommand hbase _ _ _ (by decide) (by decide), if_pos rfl] at hreg
    exact voltageBytes_one_ne mV hreg.symm

/-- A controller that is idle at once. -/
theorem waitForIdle_of_idle (h : d.fRegBase ≠ 0)
    (hstatus : d.status 0 &&& (spmiStatusBusy ||| spmiStatusArbBusy) = 0) :
    d.waitForIdle = (.success, { d with status := fun i => d.status (i + 1) }) := by
  rw [waitForIdle, waitForIdleFrom, read32_status h]
  exact if_pos hstatus

/-- A controller that answers with these status words. -/
def answering (status : ℕ → UInt32) : MSM8916SPMI :=
  ⟨1, spmiSize, Nat.le_refl _, fun _ => 0, status, fun _ => 0⟩

theorem waitForIdle_answering {status : ℕ → UInt32} (h : status 0 = 0) :
    (answering status).waitForIdle = (.success, answering fun i => status (i + 1)) :=
  waitForIdle_of_idle Nat.one_ne_zero (by simp only [answering, h]; rfl)

/-- Two bytes, of which the second is the length. -/
theorem delivered_length : Delivered ((answering fun _ => 0).waitForIdle.2.writeCommand 0 0
    (fun i => BitVec.ofNat 8 (i + 1)) 2) (fun i => BitVec.ofNat 8 (i + 1)) 2 := by
  have hidle : (answering fun _ => 0).waitForIdle.1 = .success := by
    rw [waitForIdle_answering rfl]
  exact (delivered_iff _ 0 0 _ 2 (by decide) hidle).1.2 (.inr rfl)

/-- Two other bytes: the second is lost. -/
theorem second_byte_lost : ¬ Delivered ((answering fun _ => 0).waitForIdle.2.writeCommand 0 0
    (fun _ => 0x34) 2) (fun _ => 0x34) 2 := by
  rw [waitForIdle_answering rfl]
  intro h
  have hreg := h 1 (by decide)
  rw [reg_writeCommand Nat.one_ne_zero _ _ _ (by decide) (by decide), if_pos rfl] at hreg
  exact absurd hreg (by decide)

/-! ## What is reported -/

/-- The status word says that the transfer is done. -/
def Done (status : UInt32) : Prop := status &&& spmiStatusDone ≠ 0

/-- The status word says that the transfer has failed. -/
def Failed (status : UInt32) : Prop := status &&& spmiStatusError ≠ 0

instance (status : UInt32) : Decidable (Done status) := inferInstanceAs (Decidable (_ ≠ _))

instance (status : UInt32) : Decidable (Failed status) := inferInstanceAs (Decidable (_ ≠ _))

/-- What the controller answers to so many polls: a result, and no other one before it. -/
structure Reports (ret : IOReturn) (status : ℕ → UInt32) (polls : ℕ) : Prop where
  success : ret = .success ↔ ∃ i < polls, Done (status i) ∧ ∀ j < i, ¬ Failed (status j)
  ioError : ret = .ioError ↔ ∃ i < polls, Failed (status i) ∧ ∀ j ≤ i, ¬ Done (status j)
  timeout : ret = .timeout ↔ (¬ ∃ i < polls, Done (status i) ∧ ∀ j < i, ¬ Failed (status j)) ∧
    ¬ ∃ i < polls, Failed (status i) ∧ ∀ j ≤ i, ¬ Done (status j)

/-- No result in the first `n` words. -/
def Quiet (status : ℕ → UInt32) (n : ℕ) : Prop := ∀ j < n, ¬ Done (status j) ∧ ¬ Failed (status j)

/-- The first words that are no result, and the one that is, if there is one. -/
theorem quiet_or (status : ℕ → UInt32) (n : ℕ) : Quiet status n ∨
    ∃ i < n, Quiet status i ∧ (Done (status i) ∨ ¬ Done (status i) ∧ Failed (status i)) := by
  induction n with
  | zero => exact .inl fun j hj => absurd hj (Nat.not_lt_zero j)
  | succ n ih =>
    rcases ih with hquiet | ⟨i, hi, h⟩
    · by_cases hdone : Done (status n)
      · exact .inr ⟨n, Nat.lt_succ_self n, hquiet, .inl hdone⟩
      by_cases hfailed : Failed (status n)
      · exact .inr ⟨n, Nat.lt_succ_self n, hquiet, .inr ⟨hdone, hfailed⟩⟩
      refine .inl fun j hj => ?_
      rcases Nat.lt_succ_iff_lt_or_eq.1 hj with hlt | rfl
      · exact hquiet j hlt
      · exact ⟨hdone, hfailed⟩
    · exact .inr ⟨i, Nat.lt_succ_of_lt hi, h⟩

section
variable {status : ℕ → UInt32} {ret : IOReturn} {polls i : ℕ}

theorem reports_of_done (hi : i < polls) (hquiet : Quiet status i) (hdone : Done (status i)) :
    Reports ret status polls ↔ ret = .success := by
  have hsuccess : ∃ i < polls, Done (status i) ∧ ∀ j < i, ¬ Failed (status j) :=
    ⟨i, hi, hdone, fun j hj => (hquiet j hj).2⟩
  have hfailed : ¬ ∃ i < polls, Failed (status i) ∧ ∀ j ≤ i, ¬ Done (status j) := by
    rintro ⟨k, -, hk, hnone⟩
    rcases Nat.lt_or_ge k i with hlt | hge
    · exact (hquiet k hlt).2 hk
    · exact hnone i hge hdone
  constructor
  · exact fun h => h.success.2 hsuccess
  · rintro rfl
    exact ⟨iff_of_true rfl hsuccess, iff_of_false (by decide) hfailed,
      iff_of_false (by decide) fun h => h.1 hsuccess⟩

theorem reports_of_failed (hi : i < polls) (hquiet : Quiet status i)
    (h : ¬ Done (status i) ∧ Failed (status i)) : Reports ret status polls ↔ ret = .ioError := by
  have hsuccess : ¬ ∃ i < polls, Done (status i) ∧ ∀ j < i, ¬ Failed (status j) := by
    rintro ⟨k, -, hk, hnone⟩
    rcases Nat.lt_trichotomy k i with hlt | rfl | hgt
    · exact (hquiet k hlt).1 hk
    · exact h.1 hk
    · exact hnone i hgt h.2
  have hfailed : ∃ i < polls, Failed (status i) ∧ ∀ j ≤ i, ¬ Done (status j) := by
    refine ⟨i, hi, h.2, fun j hj => ?_⟩
    rcases Nat.lt_or_eq_of_le hj with hlt | rfl
    · exact (hquiet j hlt).1
    · exact h.1
  constructor
  · exact fun h => h.ioError.2 hfailed
  · rintro rfl
    exact ⟨iff_of_false (by decide) hsuccess, iff_of_true rfl hfailed,
      iff_of_false (by decide) fun h => h.2 hfailed⟩

theorem reports_of_quiet (hquiet : Quiet status polls) :
    Reports ret status polls ↔ ret = .timeout := by
  have hsuccess : ¬ ∃ i < polls, Done (status i) ∧ ∀ j < i, ¬ Failed (status j) := by
    rintro ⟨k, hlt, hk, -⟩
    exact (hquiet k hlt).1 hk
  have hfailed : ¬ ∃ i < polls, Failed (status i) ∧ ∀ j ≤ i, ¬ Done (status j) := by
    rintro ⟨k, hlt, hk, -⟩
    exact (hquiet k hlt).2 hk
  constructor
  · exact fun h => h.timeout.2 ⟨hsuccess, hfailed⟩
  · rintro rfl
    exact ⟨iff_of_false (by decide) hsuccess, iff_of_false (by decide) hfailed,
      iff_of_true rfl ⟨hsuccess, hfailed⟩⟩

/-- There is one result to report. -/
theorem Reports.unique {ret' : IOReturn} (h : Reports ret status polls)
    (h' : Reports ret' status polls) : ret = ret' := by
  rcases quiet_or status polls with hquiet | ⟨i, hi, hquiet, hdone | hfailed⟩
  · exact ((reports_of_quiet hquiet).1 h).trans ((reports_of_quiet hquiet).1 h').symm
  · exact ((reports_of_done hi hquiet hdone).1 h).trans
      ((reports_of_done hi hquiet hdone).1 h').symm
  · exact ((reports_of_failed hi hquiet hfailed).1 h).trans
      ((reports_of_failed hi hquiet hfailed).1 h').symm

end

/-! ## Polling -/

/-- The controller after so many polls. -/
def polled (d : MSM8916SPMI) (i : ℕ) : MSM8916SPMI := { d with status := fun j => d.status (i + j) }

theorem polled_zero (d : MSM8916SPMI) : d.polled 0 = d := by simp [polled]

theorem polled_one_polled (d : MSM8916SPMI) (i : ℕ) : (d.polled 1).polled i = d.polled (i + 1) := by
  have hstatus : (fun j => d.status (1 + (i + j))) = fun j => d.status (i + 1 + j) := by
    funext j
    congr 1
    omega
  simp only [polled, hstatus]

/-- One poll of a write. -/
theorem pollWrite_succ (h : d.fRegBase ≠ 0) (n : ℕ) : d.pollWrite (n + 1) =
    if Done (d.status 0) then (.success, (d.polled 1).write32 spmiStatusReg spmiStatusDone)
    else if Failed (d.status 0) then
      (.ioError, (d.polled 1).write32 spmiStatusReg spmiStatusError)
    else (d.polled 1).pollWrite n := by
  rw [polled]
  simp only [Nat.add_comm 1]
  rw [pollWrite, read32_status h]
  rfl

/-- One poll of a read. -/
theorem pollRead_succ (h : d.fRegBase ≠ 0) (n : ℕ) : d.pollRead (n + 1) =
    if Done (d.status 0) then (.ok n, (d.polled 1).write32 spmiStatusReg spmiStatusDone)
    else if Failed (d.status 0) then
      (.error .ioError, (d.polled 1).write32 spmiStatusReg spmiStatusError)
    else (d.polled 1).pollRead n := by
  rw [polled]
  simp only [Nat.add_comm 1]
  rw [pollRead, read32_status h]
  rfl

theorem Quiet.tail {status : ℕ → UInt32} {i : ℕ} (h : Quiet status (i + 1)) :
    Quiet (fun j => status (1 + j)) i := fun j hj => h (1 + j) (by omega)

/-- Words that are no result are passed over. -/
theorem pollWrite_polled (h : d.fRegBase ≠ 0) {i : ℕ} (hquiet : Quiet d.status i) (n : ℕ) :
    d.pollWrite (i + n) = (d.polled i).pollWrite n := by
  induction i generalizing d with
  | zero => rw [Nat.zero_add, polled_zero]
  | succ i ih =>
    obtain ⟨hdone, hfailed⟩ := hquiet 0 (Nat.succ_pos i)
    rw [Nat.succ_add, pollWrite_succ h, if_neg hdone, if_neg hfailed, ih (d := d.polled 1) h
      hquiet.tail, polled_one_polled]

theorem pollRead_polled (h : d.fRegBase ≠ 0) {i : ℕ} (hquiet : Quiet d.status i) (n : ℕ) :
    d.pollRead (i + n) = (d.polled i).pollRead n := by
  induction i generalizing d with
  | zero => rw [Nat.zero_add, polled_zero]
  | succ i ih =>
    obtain ⟨hdone, hfailed⟩ := hquiet 0 (Nat.succ_pos i)
    rw [Nat.succ_add, pollRead_succ h, if_neg hdone, if_neg hfailed, ih (d := d.polled 1) h
      hquiet.tail, polled_one_polled]

/-- **What the polls of a write return.** -/
theorem reports_pollWrite (h : d.fRegBase ≠ 0) (n : ℕ) : Reports (d.pollWrite n).1 d.status n := by
  rcases quiet_or d.status n with hquiet | ⟨i, hi, hquiet, hresult⟩
  · have hpoll := pollWrite_polled h hquiet 0
    rw [Nat.add_zero] at hpoll
    rw [reports_of_quiet hquiet, hpoll]
    rfl
  · obtain ⟨k, rfl⟩ : ∃ k, n = i + (k + 1) := ⟨n - i - 1, by omega⟩
    have hbase : (d.polled i).fRegBase ≠ 0 := h
    have hstatus : (d.polled i).status 0 = d.status i := rfl
    rw [pollWrite_polled h hquiet, pollWrite_succ hbase, hstatus]
    rcases hresult with hdone | hfailed
    · rw [reports_of_done hi hquiet hdone, if_pos hdone]
    · rw [reports_of_failed hi hquiet hfailed, if_neg hfailed.1, if_pos hfailed.2]

/-- **What the polls of a read leave**: a value that is not positive if there was no result, and
    also if the last poll was the one with it. -/
theorem pollRead_cases (h : d.fRegBase ≠ 0) (n : ℕ) :
    Quiet d.status n ∧ (d.pollRead n).1 = .ok (-1) ∨
    ∃ i < n, Quiet d.status i ∧ (Done (d.status i) ∧ (d.pollRead n).1 = .ok ((n - 1 - i : ℕ) : ℤ) ∨
      (¬ Done (d.status i) ∧ Failed (d.status i)) ∧ (d.pollRead n).1 = .error .ioError) := by
  rcases quiet_or d.status n with hquiet | ⟨i, hi, hquiet, hresult⟩
  · have hpoll := pollRead_polled h hquiet 0
    rw [Nat.add_zero] at hpoll
    rw [hpoll]
    exact .inl ⟨hquiet, rfl⟩
  · refine .inr ⟨i, hi, hquiet, ?_⟩
    obtain ⟨k, rfl⟩ : ∃ k, n = i + (k + 1) := ⟨n - i - 1, by omega⟩
    have hbase : (d.polled i).fRegBase ≠ 0 := h
    have hstatus : (d.polled i).status 0 = d.status i := rfl
    rw [pollRead_polled h hquiet, pollRead_succ hbase, hstatus]
    rcases hresult with hdone | hfailed
    · have hleft : i + (k + 1) - 1 - i = k := by omega
      rw [if_pos hdone, hleft]
      exact .inl ⟨hdone, rfl⟩
    · rw [if_neg hfailed.1, if_pos hfailed.2]
      exact .inr ⟨hfailed, rfl⟩

@[simp] theorem status_writeData (buf : ℕ → UInt8) (i : UInt32) :
    (d.writeData buf n i).status = d.status := by
  induction n generalizing i d with
  | zero => rfl
  | succ n ih => rw [writeData, ih, status_write32]

/-- What `pmicWrite` returns, after the idle wait. -/
theorem reports_pmicWrite (hidle : d.waitForIdle.1 = .success) (slaveId : UInt8) (addr : UInt16)
    (buf : ℕ → UInt8) (len : UInt32) :
    Reports (d.pmicWrite slaveId addr buf len).1 d.waitForIdle.2.status 10000 := by
  have hbase : d.waitForIdle.2.fRegBase ≠ 0 := fRegBase_of_idle hidle
  have hstatus : (d.waitForIdle.2.writeCommand slaveId addr buf len).status =
      d.waitForIdle.2.status := by
    simp only [writeCommand, status_write32, status_writeData]
  have hbase' : (d.waitForIdle.2.writeCommand slaveId addr buf len).fRegBase ≠ 0 := by
    simpa only [writeCommand, fRegBase_write32, fRegBase_writeData] using hbase
  have hpoll := reports_pollWrite hbase' 10000
  rw [hstatus] at hpoll
  rw [pmicWrite]
  generalize d.waitForIdle = x at hidle hpoll ⊢
  obtain ⟨ret, d'⟩ := x
  obtain rfl : ret = .success := hidle
  exact hpoll

/-- What `pmicRead` returns, after the idle wait, by what its polls leave. -/
theorem pmicRead_of_idle (hidle : d.waitForIdle.1 = .success) (slaveId : UInt8) (addr : UInt16)
    (len : UInt32) : ∃ d' : MSM8916SPMI, d'.fRegBase ≠ 0 ∧ d'.status = d.waitForIdle.2.status ∧
      (d.pmicRead slaveId addr len).1 = match (d'.pollRead 10000).1 with
        | .error ret => ret
        | .ok timeout => if timeout ≤ 0 then .timeout else .success := by
  have hbase : d.waitForIdle.2.fRegBase ≠ 0 := fRegBase_of_idle hidle
  rw [pmicRead]
  generalize d.waitForIdle = x at hidle hbase ⊢
  obtain ⟨ret, d'⟩ := x
  obtain rfl : ret = .success := hidle
  refine ⟨((d'.write32 spmiCmdReg (if len = 1 then spmiCmdExtRead else spmiCmdExtReadLong)).write32
    spmiAddrReg (slaveId.setWidth 32 <<< 16 ||| addr.setWidth 32)).write32 spmiDataReg len,
    by simpa using hbase, by simp, ?_⟩
  dsimp only
  rw [if_neg (by decide)]
  generalize MSM8916SPMI.pollRead 10000 _ = y
  obtain ⟨result, d''⟩ := y
  cases result with
  | error ret => rfl
  | ok timeout =>
    dsimp only
    split_ifs <;> rfl

/-- A read reports the answer, unless it is done at the last poll. -/
theorem reports_pmicRead_iff (hidle : d.waitForIdle.1 = .success) (slaveId : UInt8) (addr : UInt16)
    (len : UInt32) : Reports (d.pmicRead slaveId addr len).1 d.waitForIdle.2.status 10000 ↔
      ¬ (Quiet d.waitForIdle.2.status 9999 ∧ Done (d.waitForIdle.2.status 9999)) := by
  obtain ⟨d', hbase, hstatus, hret⟩ := pmicRead_of_idle hidle slaveId addr len
  rw [hret, ← hstatus]
  rcases pollRead_cases hbase 10000 with
    ⟨hquiet, hpoll⟩ | ⟨i, hi, hquiet, ⟨hdone, hpoll⟩ | ⟨hfailed, hpoll⟩⟩
  · rw [hpoll, reports_of_quiet hquiet]
    exact iff_of_true rfl fun h => (hquiet 9999 (by decide)).1 h.2
  · rw [hpoll, reports_of_done hi hquiet hdone]
    dsimp only
    by_cases hlast : i = 9999
    · subst hlast
      exact iff_of_false (by decide) fun h => h ⟨hquiet, hdone⟩
    · rw [if_neg (by omega)]
      refine iff_of_true rfl fun h => (h.1 i (by omega)).1 hdone
  · rw [hpoll, reports_of_failed hi hquiet hfailed]
    refine iff_of_true rfl fun h => ?_
    rcases Nat.lt_or_ge i 9999 with hlt | hge
    · exact (h.1 i hlt).2 hfailed.2
    · obtain rfl : i = 9999 := by omega
      exact hfailed.1 h.2

/-- **A read and a write report what the controller answers**, and the same, exactly if it is not
    the last poll that is done, with no result before it. -/
theorem reports_iff (d : MSM8916SPMI) (slaveId : UInt8) (addr : UInt16) (buf : ℕ → UInt8)
    (len : UInt32) (hidle : d.waitForIdle.1 = .success) :
    (Reports (d.pmicRead slaveId addr len).1 d.waitForIdle.2.status 10000 ∧
      Reports (d.pmicWrite slaveId addr buf len).1 d.waitForIdle.2.status 10000 ∧
      (d.pmicRead slaveId addr len).1 = (d.pmicWrite slaveId addr buf len).1) ↔
      ¬ (Done (d.waitForIdle.2.status 9999) ∧
        ∀ j < 9999, ¬ Done (d.waitForIdle.2.status j) ∧ ¬ Failed (d.waitForIdle.2.status j)) := by
  have hread := reports_pmicRead_iff hidle slaveId addr len
  have hwrite := reports_pmicWrite hidle slaveId addr buf len
  constructor
  · rintro ⟨h, -, -⟩ ⟨hdone, hquiet⟩
    exact hread.1 h ⟨hquiet, hdone⟩
  · intro h
    have hreports := hread.2 (by rintro ⟨hquiet, hdone⟩; exact h ⟨hdone, hquiet⟩)
    exact ⟨hreports, hwrite, hreports.unique hwrite⟩

/-- Words of which only one is a result. -/
def doneAt (n i : ℕ) : UInt32 := if i = n then spmiStatusDone else 0

theorem not_done_of_ne {n i : ℕ} (h : i ≠ n) : ¬ Done (doneAt n i) ∧ ¬ Failed (doneAt n i) := by
  rw [doneAt, if_neg h]
  decide

/-- Done at the second poll. -/
theorem reports_second : Reports ((answering (doneAt 2)).pmicRead 0 0 1).1
    (answering (doneAt 2)).waitForIdle.2.status 10000 := by
  have hidle : (answering (doneAt 2)).waitForIdle.1 = .success := by
    rw [waitForIdle_answering rfl]
  refine ((reports_iff _ 0 0 (fun _ => 0) 1 hidle).2 ?_).1
  rw [waitForIdle_answering rfl]
  rintro ⟨hdone, -⟩
  exact (not_done_of_ne (by decide)).1 hdone

/-- **Done at the last poll**: a read reports that it has waited too long. -/
theorem last_poll_unreported : ¬ Reports ((answering (doneAt 10000)).pmicRead 0 0 1).1
    (answering (doneAt 10000)).waitForIdle.2.status 10000 := by
  have hidle : (answering (doneAt 10000)).waitForIdle.1 = .success := by
    rw [waitForIdle_answering rfl]
  rw [reports_pmicRead_iff hidle, waitForIdle_answering rfl, not_not]
  refine ⟨fun j hj => not_done_of_ne (by omega), ?_⟩
  show Done (doneAt 10000 10000)
  rw [doneAt, if_pos rfl]
  decide

end MSM8916SPMI

end PocketDarwin.Drivers.Spmi
