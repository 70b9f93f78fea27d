/-
  Multiplication, against the architecture.

  * `MUL` and `MLA` are right (`multiply_computed`).
  * Bit 22 of a long multiplication says that it is signed; the simulator takes it for unsigned.
    So `UMULL` and `UMLAL` multiply signed numbers, and `SMULL` and `SMLAL` unsigned ones
    (`longProduct_eq`), which makes a difference unless the operands are `SignFree`.
  * The flags of the 64 bits are those of the upper word: Z is right unless only that is 0.
-/
import Mathlib.Data.Int.Notation
import PocketDarwin.Simu.Board
import PocketDarwin.Simu.Decode

namespace PocketDarwin.Simu

namespace Arm

/-- The number that a word stands for. -/
def value (signed : Bool) (x : Word) : ℤ := if signed then x.toInt else x.toNat

/-- What `UMULL`, `UMLAL`, `SMULL` and `SMLAL` compute. -/
def longResult (cpu : Cpu) (insn : Word) : BitVec 64 :=
  let rdHi := cpu.regs (bits insn 16 4)
  let rdLo := cpu.regs (bits insn 12 4)
  let product := value (bit insn 22) (cpu.regs (bits insn 0 4)) *
    value (bit insn 22) (cpu.regs (bits insn 8 4))
  BitVec.ofInt 64 (if bit insn 21 then product + (rdHi.toNat * 2 ^ 32 + rdLo.toNat : ℕ)
    else product)

/-- What `MUL` and `MLA` compute. -/
def mulResult (cpu : Cpu) (insn : Word) : Word :=
  let product := (cpu.regs (bits insn 0 4)).toNat * (cpu.regs (bits insn 8 4)).toNat
  BitVec.ofNat 32 (if bit insn 21 then product + (cpu.regs (bits insn 12 4)).toNat else product)

end Arm

/-- `MUL` or `MLA`, without `r15`. -/
structure IsMultiplication (insn : Word) : Prop where
  encoded : insn &&& 0x0FC000F0 = 0x00000090
  rd : bits insn 16 4 ≠ 15
  rm : bits insn 0 4 ≠ 15
  rs : bits insn 8 4 ≠ 15
  rn : bit insn 21 → bits insn 12 4 ≠ 15

/-- `UMULL`, `UMLAL`, `SMULL` or `SMLAL`, without `r15`. -/
structure IsLongMultiplication (insn : Word) : Prop where
  encoded : insn &&& 0x0F8000F0 = 0x00800090
  rdHi : bits insn 16 4 ≠ 15
  rdLo : bits insn 12 4 ≠ 15
  rm : bits insn 0 4 ≠ 15
  rs : bits insn 8 4 ≠ 15
  distinct : bits insn 16 4 ≠ bits insn 12 4

/-- A CPU with the result of `MUL` or `MLA`. -/
structure Multiplied (insn result : Word) (after : Cpu) : Prop where
  rd : after.regs (bits insn 16 4) = result
  n : bit insn 20 → bit after.cpsr 31 = result.msb
  z : bit insn 20 → bit after.cpsr 30 = decide (result = 0)

/-- A CPU with the result of a long multiplication. -/
structure LongMultiplied (insn : Word) (result : BitVec 64) (after : Cpu) : Prop where
  rdHi : after.regs (bits insn 16 4) = result.extractLsb' 32 32
  rdLo : after.regs (bits insn 12 4) = result.extractLsb' 0 32
  n : bit insn 20 → bit after.cpsr 31 = result.msb
  z : bit insn 20 → bit after.cpsr 30 = decide (result = 0)

/-- The product does not depend on whether the operands are signed. -/
def SignFree (a b : Word) : Prop :=
  a.msb = false ∧ b.msb = false ∨ a = 0 ∨ b = 0 ∨ a = 0x80000000 ∧ b = 0x80000000

/-! ## Encodings -/

/-- A test whose mask is a part of another. -/
theorem and_of_mask {insn mask val sub : Word} (h : insn &&& mask = val)
    (hsub : mask &&& sub = sub) :
    insn &&& sub = val &&& sub := by
  rw [← h, BitVec.and_assoc, hsub]

section
variable {insn : Word}

theorem isMultiply_of_encoded (h : insn &&& 0x0FC000F0 = 0x00000090) :
    bits insn 25 3 = 0 ∧ isMultiply insn := by
  have hop : bits insn 25 3 = 0 := bits_of_mask h (by decide)
  have hlow : bits7to4 insn = 9 := bits_of_mask h (by decide)
  have hmask : insn &&& 0x0FC00000 = 0 := (and_of_mask h (by decide)).trans (by decide)
  simp only [isMultiply, hop, hlow, hmask, decide_true, Bool.and_self, and_self]

theorem isLongMultiply_of_encoded (h : insn &&& 0x0F8000F0 = 0x00800090) :
    bits insn 25 3 = 0 ∧ ¬ isMultiply insn ∧ isLongMultiply insn := by
  have hop : bits insn 25 3 = 0 := bits_of_mask h (by decide)
  have hlow : bits7to4 insn = 9 := bits_of_mask h (by decide)
  have hmask : insn &&& 0x0F800000 = 0x00800000 := (and_of_mask h (by decide)).trans (by decide)
  refine ⟨hop, ?_, ?_⟩
  · intro hmul
    simp only [isMultiply, Bool.and_eq_true, decide_eq_true_eq] at hmul
    have hset : bit insn 23 = true := bit_of_mask h (by decide)
    have hclear : bit insn 23 = false := bit_of_mask hmul.2 (by decide)
    rw [hset] at hclear
    cases hclear
  · simp only [isLongMultiply, hop, hlow, hmask, decide_true, Bool.and_self]

end

/-! ## Products -/

theorem setWidth_eq_ofInt (x : Word) : x.setWidth 64 = BitVec.ofInt 64 x.toNat := by
  rw [BitVec.ofInt_natCast, BitVec.ofNat_toNat]

/-- The product of numbers is the one of the extended words. -/
theorem ofInt_value_mul (signed : Bool) (a b : Word) :
    BitVec.ofInt 64 (Arm.value signed a * Arm.value signed b) =
      if signed then a.signExtend 64 * b.signExtend 64 else a.setWidth 64 * b.setWidth 64 := by
  cases signed
  · rw [BitVec.ofInt_mul, if_neg Bool.false_ne_true, setWidth_eq_ofInt, setWidth_eq_ofInt]
    rfl
  · rw [BitVec.ofInt_mul, if_pos rfl]
    rfl

/-- The words of an accumulator as one number. -/
theorem accumulator_eq (hi lo : Word) :
    hi.setWidth 64 <<< 32 ||| lo.setWidth 64 =
      BitVec.ofInt 64 (hi.toNat * 2 ^ 32 + lo.toNat : ℕ) := by
  have hhi := hi.isLt
  have hlo := lo.isLt
  rw [BitVec.ofInt_natCast]
  apply BitVec.eq_of_toNat_eq
  rw [BitVec.toNat_or, BitVec.toNat_shiftLeft, BitVec.toNat_setWidth_of_le (by decide),
    BitVec.toNat_setWidth_of_le (by decide), BitVec.toNat_ofNat, Nat.shiftLeft_eq,
    Nat.mod_eq_of_lt (by omega), Nat.mod_eq_of_lt (by omega), Nat.mul_comm]
  exact (Nat.two_pow_add_eq_or_of_lt hlo _).symm

/-- What the sign bits add to a product vanishes in 64 bits only as a multiple of `2^32`. -/
theorem add_signs_eq_iff (p t : ℕ) :
    p % 2 ^ 64 = (p + (2 ^ 64 - 2 ^ 32) * t) % 2 ^ 64 ↔ 2 ^ 32 ∣ t := by
  have hfactor : (2 ^ 64 - 2 ^ 32) * t = 2 ^ 32 * ((2 ^ 32 - 1) * t) := by omega
  have hsquare : 2 ^ 64 = 2 ^ 32 * 2 ^ 32 := rfl
  refine (Nat.left_modEq_add_iff (n := 2 ^ 64)).trans ?_
  rw [hfactor, hsquare, Nat.mul_dvd_mul_iff_left (by decide)]
  exact Nat.Coprime.dvd_mul_left (by decide)

/-- **The signedness of a product**: it makes no difference to some operands only. -/
theorem products_eq_iff (a b : Word) :
    a.setWidth 64 * b.setWidth 64 = a.signExtend 64 * b.signExtend 64 ↔ SignFree a b := by
  have ha := a.isLt
  have hb := b.isLt
  have hzero : ∀ x : Word, x = 0 ↔ x.toNat = 0 := fun _ => BitVec.toNat_eq
  have hmin : ∀ x : Word, x = 0x80000000 ↔ x.toNat = 0x80000000 := fun _ => BitVec.toNat_eq
  rw [SignFree, hzero, hzero, hmin, hmin, BitVec.msb_eq_decide, BitVec.msb_eq_decide,
    decide_eq_false_iff_not, decide_eq_false_iff_not, BitVec.toNat_eq, BitVec.toNat_mul,
    BitVec.toNat_mul, BitVec.toNat_signExtend, BitVec.toNat_signExtend,
    BitVec.toNat_setWidth_of_le (by decide), BitVec.toNat_setWidth_of_le (by decide),
    BitVec.msb_eq_decide, BitVec.msb_eq_decide]
  simp only [decide_eq_true_eq]
  generalize a.toNat = x at ha
  generalize b.toNat = y at hb
  clear hzero hmin
  split_ifs with h₁ h₂ h₂
  · have hsum : (x + (2 ^ 64 - 2 ^ 32)) * (y + (2 ^ 64 - 2 ^ 32)) =
        x * y + (2 ^ 64 - 2 ^ 32) * (x + y + (2 ^ 64 - 2 ^ 32)) := by
      rw [Nat.add_mul, Nat.mul_add, Nat.mul_add, Nat.mul_add, Nat.mul_comm x (2 ^ 64 - 2 ^ 32)]
      omega
    rw [hsum, add_signs_eq_iff]
    omega
  · rw [Nat.add_mul, Nat.add_zero, add_signs_eq_iff]
    omega
  · rw [Nat.mul_add, Nat.add_zero, Nat.mul_comm x (2 ^ 64 - 2 ^ 32), add_signs_eq_iff]
    omega
  · exact iff_of_true rfl (.inl ⟨h₁, h₂⟩)

theorem product_eq (cpu : Cpu) (insn : Word) : product insn cpu = Arm.mulResult cpu insn := by
  rw [product, Arm.mulResult]
  split_ifs
  · rw [BitVec.ofNat_add, BitVec.ofNat_mul, BitVec.ofNat_toNat, BitVec.ofNat_toNat,
      BitVec.ofNat_toNat]
    simp only [BitVec.setWidth_eq]
  · rw [BitVec.ofNat_mul, BitVec.ofNat_toNat, BitVec.ofNat_toNat]
    simp only [BitVec.setWidth_eq]

/-- What is computed is the product of the other signedness. -/
theorem longProduct_eq_iff (cpu : Cpu) (insn : Word) :
    longProduct insn cpu = Arm.longResult cpu insn ↔
      SignFree (cpu.regs (bits insn 0 4)) (cpu.regs (bits insn 8 4)) := by
  rw [← products_eq_iff]
  simp only [longProduct, Arm.longResult, accumulator_eq]
  generalize cpu.regs (bits insn 0 4) = a
  generalize cpu.regs (bits insn 8 4) = b
  generalize (cpu.regs (bits insn 16 4)).toNat * 2 ^ 32 + (cpu.regs (bits insn 12 4)).toNat = acc
  have hswap : (if bit insn 22 then a.setWidth 64 * b.setWidth 64
        else a.signExtend 64 * b.signExtend 64) =
      BitVec.ofInt 64 (Arm.value (bit insn 22) a * Arm.value (bit insn 22) b) ↔
        a.setWidth 64 * b.setWidth 64 = a.signExtend 64 * b.signExtend 64 := by
    rw [ofInt_value_mul]
    split_ifs
    · exact Iff.rfl
    · exact eq_comm
  by_cases h21 : bit insn 21
  · rw [if_pos h21, if_pos h21, BitVec.ofInt_add, BitVec.add_left_inj, hswap]
  · rw [if_neg h21, if_neg h21, hswap]

/-! ## Steps -/

section
variable {σ : Type} (bus : Bus σ) {m : Machine σ} {insn : Word}

/-- **`MUL` and `MLA`**: they are right. -/
theorem multiply_computed (h : IsMultiplication insn) (hexec : Executes bus m insn) :
    Multiplied insn (Arm.mulResult m.cpu insn) (cpuStep bus m).2.cpu := by
  obtain ⟨hop, hmul⟩ := isMultiply_of_encoded h.encoded
  have hresult : Arm.mulResult (m.advanced bus).cpu insn = Arm.mulResult m.cpu insn := by
    rw [Arm.mulResult, Arm.mulResult, advanced_regs_of_ne bus h.rm, advanced_regs_of_ne bus h.rs]
    by_cases h21 : bit insn 21
    · rw [if_pos h21, if_pos h21, advanced_regs_of_ne bus (h.rn h21)]
    · rw [if_neg h21, if_neg h21]
  have hstep : (cpuStep bus m).2.cpu = multiply insn (m.advanced bus).cpu := by
    rw [hexec.step, execute_data bus _ _ (.inl hop)]
    show executeData m.fetchAddress insn (m.advanced bus).cpu = multiply insn (m.advanced bus).cpu
    rw [executeData_eq, if_pos hmul]
  rw [hstep, multiply, product_eq, hresult]
  generalize Arm.mulResult m.cpu insn = result
  generalize (m.advanced bus).cpu = cpu
  refine ⟨?_, fun hs => ?_, fun hs => ?_⟩
  · split_ifs
    · exact cpu.setReg_regs_self _ _
    · exact cpu.setReg_regs_self _ _
  · rw [if_pos hs]
    exact bit_updateFlagsNz _ _ (by decide)
  · rw [if_pos hs]
    exact bit_updateFlagsNz _ _ (by decide)

/-- What a long multiplication leaves: the 64 bits, and the flags of the upper word. -/
theorem longMultiply_computed (h : IsLongMultiplication insn) (hexec : Executes bus m insn) :
    (cpuStep bus m).2.cpu.regs (bits insn 16 4) = (longProduct insn m.cpu).extractLsb' 32 32 ∧
    (cpuStep bus m).2.cpu.regs (bits insn 12 4) = (longProduct insn m.cpu).extractLsb' 0 32 ∧
    (bit insn 20 →
      bit (cpuStep bus m).2.cpu.cpsr 31 = (longProduct insn m.cpu).msb ∧
      bit (cpuStep bus m).2.cpu.cpsr 30 = decide ((longProduct insn m.cpu).extractLsb' 32 32 = 0)) := by
  obtain ⟨hop, hmul, hlong⟩ := isLongMultiply_of_encoded h.encoded
  have hresult : longProduct insn (m.advanced bus).cpu = longProduct insn m.cpu := by
    rw [longProduct, longProduct, advanced_regs_of_ne bus h.rdHi, advanced_regs_of_ne bus h.rdLo,
      advanced_regs_of_ne bus h.rm, advanced_regs_of_ne bus h.rs]
  have hstep : (cpuStep bus m).2.cpu = longMultiply insn (m.advanced bus).cpu := by
    rw [hexec.step, execute_data bus _ _ (.inl hop)]
    show executeData m.fetchAddress insn (m.advanced bus).cpu =
      longMultiply insn (m.advanced bus).cpu
    rw [executeData_eq, if_neg hmul, if_pos hlong]
  have hhi : ((longProduct insn m.cpu) >>> 32).setWidth 32 =
      (longProduct insn m.cpu).extractLsb' 32 32 := rfl
  have hlo : (longProduct insn m.cpu).setWidth 32 = (longProduct insn m.cpu).extractLsb' 0 32 := by
    rw [BitVec.setWidth_eq_extractLsb' (by decide)]
  rw [hstep]
  simp only [longMultiply, hresult, hhi, hlo, Cpu.setReg_regs_self]
  generalize longProduct insn m.cpu = result
  generalize (m.advanced bus).cpu = cpu
  have hmsb : (result.extractLsb' 32 32).msb = result.msb := by
    rw [BitVec.msb_eq_getLsbD_last, BitVec.msb_eq_getLsbD_last, BitVec.getLsbD_extractLsb']
    rfl
  refine ⟨?_, ?_, fun hs => ?_⟩
  · split_ifs
    · exact Cpu.setReg_regs_self _ _ _
    · exact Cpu.setReg_regs_self _ _ _
  · split_ifs
    · exact (Cpu.setReg_regs_of_ne h.distinct.symm _).trans (Cpu.setReg_regs_self _ _ _)
    · exact (Cpu.setReg_regs_of_ne h.distinct.symm _).trans (Cpu.setReg_regs_self _ _ _)
  · rw [if_pos hs, ← hmsb]
    exact ⟨bit_updateFlagsNz _ _ (by decide), bit_updateFlagsNz _ _ (by decide)⟩

/-- The words of a 64-bit result are those of another only if the results are the same. -/
theorem halves_eq_iff (x y : BitVec 64) :
    x.extractLsb' 32 32 = y.extractLsb' 32 32 ∧ x.extractLsb' 0 32 = y.extractLsb' 0 32 ↔ x = y := by
  constructor
  · rintro ⟨hhi, hlo⟩
    apply BitVec.eq_of_getLsbD_eq
    intro i hi
    have hupper := congrArg (BitVec.getLsbD · (i - 32)) hhi
    have hlower := congrArg (BitVec.getLsbD · i) hlo
    simp only [BitVec.getLsbD_extractLsb', Nat.zero_add] at hupper hlower
    by_cases h : i < 32
    · simpa only [h, decide_true, Bool.true_and] using hlower
    · rw [Nat.add_sub_of_le (not_lt.1 h), decide_eq_true (by omega), Bool.true_and,
        Bool.true_and] at hupper
      exact hupper
  · rintro rfl
    exact ⟨rfl, rfl⟩

theorem upper_eq_zero_iff (x : BitVec 64) : x.extractLsb' 32 32 = 0 ↔ x.toNat < 2 ^ 32 := by
  have hx := x.isLt
  have hzero : (0 : Word).toNat = 0 := rfl
  rw [BitVec.toNat_eq, BitVec.extractLsb'_toNat, Nat.shiftRight_eq_div_pow, hzero]
  omega

/-- **The multiplications**: the short ones are right, and the long ones where neither the
    signedness nor the lower word of the result matters. -/
theorem multiplications_iff (hexec : Executes bus m insn) :
    (IsMultiplication insn →
      Multiplied insn (Arm.mulResult m.cpu insn) (cpuStep bus m).2.cpu) ∧
    (IsLongMultiplication insn →
      (LongMultiplied insn (Arm.longResult m.cpu insn) (cpuStep bus m).2.cpu ↔
        SignFree (m.cpu.regs (bits insn 0 4)) (m.cpu.regs (bits insn 8 4)) ∧
          (bit insn 20 → Arm.longResult m.cpu insn = 0 ∨
            2 ^ 32 ≤ (Arm.longResult m.cpu insn).toNat))) := by
  refine ⟨fun h => multiply_computed bus h hexec, fun h => ?_⟩
  obtain ⟨hhi, hlo, hflags⟩ := longMultiply_computed bus h hexec
  rw [← longProduct_eq_iff]
  have hzero : ∀ x : BitVec 64, x = 0 ↔ x.toNat = 0 := fun _ => BitVec.toNat_eq
  constructor
  · intro hright
    have hresult : longProduct insn m.cpu = Arm.longResult m.cpu insn :=
      (halves_eq_iff _ _).1 ⟨hhi.symm.trans hright.rdHi, hlo.symm.trans hright.rdLo⟩
    refine ⟨hresult, fun hs => ?_⟩
    have hz := (hflags hs).2.symm.trans (hright.z hs)
    rw [hresult, decide_eq_decide, upper_eq_zero_iff] at hz
    by_cases hlt : (Arm.longResult m.cpu insn).toNat < 2 ^ 32
    · exact .inl (hz.1 hlt)
    · exact .inr (not_lt.1 hlt)
  · rintro ⟨hresult, hz⟩
    rw [hresult] at hhi hlo hflags
    refine ⟨hhi, hlo, fun hs => (hflags hs).1, fun hs => ?_⟩
    rw [(hflags hs).2, decide_eq_decide, upper_eq_zero_iff]
    have hz' := hz hs
    rw [hzero] at hz' ⊢
    omega

end

/-! ## Runs -/

/-- A machine about to run an instruction with `r1` and `r2` for its operands. -/
def multiplyMachine (insn a b : Word) : Machine Board :=
  startMachine [insn] fun r => if r = 1 then a else if r = 2 then b else 0

/-- `umull r0, r3, r1, r2` of 5 and 7 -/
theorem multiplications_umull :
    Executes Board.bus (multiplyMachine 0xE0803291 5 7) 0xE0803291 ∧
    LongMultiplied 0xE0803291 (Arm.longResult (multiplyMachine 0xE0803291 5 7).cpu 0xE0803291)
      (cpuStep Board.bus (multiplyMachine 0xE0803291 5 7)).2.cpu := by
  have hexec : Executes Board.bus (multiplyMachine 0xE0803291 5 7) 0xE0803291 :=
    ⟨rfl, by decide +kernel, by decide⟩
  refine ⟨hexec, ((multiplications_iff Board.bus hexec).2 ?_).2 ⟨.inl ?_, fun h => ?_⟩⟩
  · exact ⟨by decide, by decide, by decide, by decide, by decide, by decide⟩
  · exact ⟨by decide, by decide⟩
  · exact absurd h (by decide)

/-- `umull r0, r3, r1, r2` of `2^32 - 1` and 2 is the product of -1 and 2. -/
theorem umull_not_computed :
    IsLongMultiplication 0xE0803291 ∧
    Executes Board.bus (multiplyMachine 0xE0803291 0xFFFFFFFF 2) 0xE0803291 ∧
    ¬ LongMultiplied 0xE0803291
      (Arm.longResult (multiplyMachine 0xE0803291 0xFFFFFFFF 2).cpu 0xE0803291)
      (cpuStep Board.bus (multiplyMachine 0xE0803291 0xFFFFFFFF 2)).2.cpu := by
  refine ⟨⟨?_, ?_, ?_, ?_, ?_, ?_⟩, ⟨rfl, ?_, ?_⟩, fun h => absurd h.rdHi ?_⟩
  all_goals decide +kernel

end PocketDarwin.Simu
