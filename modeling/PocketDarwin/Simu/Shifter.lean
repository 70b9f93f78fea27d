/-
  The second operand of data processing as the architecture has it, and where
  the simulator reads it otherwise.

  * `Arm.operand` is the shifter operand with its carry: an immediate that is
    rotated, or a register that is shifted by an immediate or by a register.
  * `misread`: the shifts that the simulator takes for others.  `LSR #32` and
    `ASR #32`, which are encoded with the amount 0, are not done at all, `ROR` by
    a register that holds 32 is taken for `RRX`, and by a register that holds
    more than 32 the result is 0 whatever the shift.
  * `operand2_eq`: all others are as they should be.
  * `shifts_right_iff`: which operands come out right all the same.
-/
import PocketDarwin.Simu.Board
import PocketDarwin.Simu.Decode

namespace PocketDarwin.Simu

namespace Arm

/-- The immediate of an instruction: eight bits, rotated right by twice the other four. -/
def immediate (insn : Word) : Word :=
  ((bits insn 0 8).setWidth 32).rotateRight (2 * (bits insn 8 4).toNat)

/-- A shift by `n`, and the last bit that is shifted out; without a shift, the carry
    stays as it is. -/
def shift (x : Word) (type : BitVec 2) (n : ℕ) (c : Bool) : Word × Bool :=
  if n = 0 then (x, c)
  else if type = 0 then (x <<< n, decide (n ≤ 32) && bit x (32 - n))
  else if type = 1 then (x >>> n, bit x (n - 1))
  else if type = 2 then (x.sshiftRight n, if n ≤ 32 then bit x (n - 1) else x.msb)
  else (x.rotateRight n, (x.rotateRight n).msb)

/-- Rotation by one bit through the carry. -/
def rrx (x : Word) (c : Bool) : Word × Bool := ((if c then 0x80000000 else 0) ||| x >>> 1, bit x 0)

/-- A shift by an immediate: with the amount 0, `LSR` and `ASR` are shifts by 32, and
    `ROR` is `RRX`. -/
def immediateShift (x : Word) (type : BitVec 2) (imm5 : ℕ) (c : Bool) : Word × Bool :=
  if imm5 = 0 then
    if type = 0 then (x, c) else if type = 3 then rrx x c else shift x type 32 c
  else shift x type imm5 c

/-- The shifter operand. -/
def operand (cpu : Cpu) (insn : Word) : Word × Bool :=
  if bit insn 25 then
    (immediate insn, if bits insn 8 4 = 0 then cpu.carry else (immediate insn).msb)
  else if bit insn 4 then
    shift (cpu.regs (bits insn 0 4)) (bits insn 5 2) (bits (cpu.regs (bits insn 8 4)) 0 8).toNat
      cpu.carry
  else immediateShift (cpu.regs (bits insn 0 4)) (bits insn 5 2) (bits insn 7 5).toNat cpu.carry

end Arm

/-- The operand that is read for a shift by a register. -/
def misreadRegister (x : Word) (type : BitVec 2) (n : ℕ) (c : Bool) : Option (Word × Bool) :=
  if type = 3 ∧ n = 32 then some (Arm.rrx x c)
  else if (type = 2 ∨ type = 3) ∧ 32 < n then some (0, false)
  else none

/-- The operand that is read instead of the one that is meant, where it is. -/
def misread (cpu : Cpu) (insn : Word) : Option (Word × Bool) :=
  if bit insn 25 then none
  else if bit insn 4 then
    misreadRegister (cpu.regs (bits insn 0 4)) (bits insn 5 2)
      (bits (cpu.regs (bits insn 8 4)) 0 8).toNat cpu.carry
  else if (bits insn 5 2 = 1 ∨ bits insn 5 2 = 2) ∧ bits insn 7 5 = 0 then
    some (cpu.regs (bits insn 0 4), cpu.carry)
  else none

/-! ## Immediates -/

theorem and_255_eq (x : Word) : x &&& 0xFF = (bits x 0 8).setWidth 32 := by
  ext i hi
  rw [BitVec.getElem_and, BitVec.getElem_setWidth, bits, BitVec.getLsbD_extractLsb', Nat.zero_add,
    ← BitVec.getLsbD_eq_getElem, ← BitVec.getLsbD_eq_getElem]
  have hmask : (0xFF : Word).getLsbD i = decide (i < 8) := by
    revert i
    decide
  rw [hmask, Bool.and_comm]

theorem rotateRight_eq (x : Word) {n : ℕ} (h : n < 32) :
    x.rotateRight n = x >>> n ||| x <<< (32 - n) := by
  rw [BitVec.rotateRight_def, Nat.mod_eq_of_lt h]

theorem rotateRight_zero (x : Word) : x.rotateRight 0 = x := by
  rw [rotateRight_eq x (by decide), BitVec.ushiftRight_zero]
  simp

/-- `decode_imm` is right. -/
theorem decodeImm_eq (insn : Word) (c : Bool) :
    decodeImm insn c = (Arm.immediate insn, if bits insn 8 4 = 0 then c
      else (Arm.immediate insn).msb) := by
  have hlt : 2 * (bits insn 8 4).toNat < 32 := by
    have := (bits insn 8 4).isLt
    omega
  rw [decodeImm, and_255_eq, Arm.immediate, Nat.mul_comm 2]
  by_cases h : bits insn 8 4 = 0
  · rw [h]
    exact congrArg (·, c) (rotateRight_zero _).symm
  · have hne : (bits insn 8 4).toNat * 2 ≠ 0 := by
      intro h0
      exact h (BitVec.eq_of_toNat_eq (show (bits insn 8 4).toNat = 0 by omega))
    rw [if_neg hne, if_neg h, rotateRight_eq _ (by omega), msb_eq_bit]

/-! ## Shifts -/

theorem sshiftRight_of_le (x : Word) {n : ℕ} (h : 31 ≤ n) : x.sshiftRight n = x.sshiftRight 31 := by
  ext i hi
  rw [BitVec.getElem_sshiftRight, BitVec.getElem_sshiftRight]
  by_cases hn : n + i < 32
  · obtain rfl : n = 31 := by omega
    rfl
  · rw [dif_neg hn]
    split_ifs with hi'
    · obtain rfl : i = 0 := by omega
      exact BitVec.msb_eq_getLsbD_last x
    · rfl

theorem shiftTypes : ∀ type : BitVec 2, type = 0 ∨ type = 1 ∨ type = 2 ∨ type = 3 := by decide

/-- Shifts by less than a word are done right. -/
theorem barrelShift_eq (cpu : Cpu) (x : Word) (type : BitVec 2) {n : ℕ} (h0 : 0 < n) (h : n < 32) :
    barrelShift cpu x type n = Arm.shift x type n cpu.carry := by
  have hne : ¬ n = 0 := by omega
  rw [Arm.shift, if_neg hne, barrelShift, if_neg (fun hn => hne hn.1)]
  by_cases h₀ : type = 0
  · rw [if_pos h₀, if_pos h₀, if_pos h, decide_eq_true (by omega : n ≤ 32), Bool.true_and]
  by_cases h₁ : type = 1
  · rw [if_neg h₀, if_neg h₀, if_pos h₁, if_pos h₁, if_pos h]
  by_cases h₂ : type = 2
  · rw [if_neg h₀, if_neg h₀, if_neg h₁, if_neg h₁, if_pos h₂, if_pos h₂, if_pos h,
      if_pos (by omega : n ≤ 32)]
  · rw [if_neg h₀, if_neg h₀, if_neg h₁, if_neg h₁, if_neg h₂, if_neg h₂, if_neg hne]
    simp only [Nat.mod_eq_of_lt h, if_neg hne]
    rw [rotateRight_eq x h, msb_eq_bit]

theorem barrelShift_rrx (cpu : Cpu) (x : Word) : barrelShift cpu x 3 0 = Arm.rrx x cpu.carry := rfl

/-- `decode_reg_shift`, but for the shifts that are misread. -/
theorem decodeRegShift_eq (cpu : Cpu) (insn : Word) :
    decodeRegShift cpu insn =
      (misreadRegister (cpu.regs (bits insn 0 4)) (bits insn 5 2)
        (bits (cpu.regs (bits insn 8 4)) 0 8).toNat
        cpu.carry).getD
      (Arm.shift (cpu.regs (bits insn 0 4)) (bits insn 5 2)
        (bits (cpu.regs (bits insn 8 4)) 0 8).toNat cpu.carry) := by
  have hamount : (cpu.regs (bits insn 8 4) &&& 0xFF).toNat =
      (bits (cpu.regs (bits insn 8 4)) 0 8).toNat := by
    rw [and_255_eq, BitVec.toNat_setWidth_of_le (by decide)]
  simp only [decodeRegShift, hamount]
  generalize (bits (cpu.regs (bits insn 8 4)) 0 8).toNat = n
  generalize cpu.regs (bits insn 0 4) = x
  generalize bits insn 5 2 = type
  by_cases hzero : n = 0
  · subst hzero
    simp [misreadRegister, Arm.shift]
  by_cases hlt : n < 32
  · have hread : misreadRegister x type n cpu.carry = none := by
      rw [misreadRegister, if_neg (by omega), if_neg (by omega)]
    rw [if_neg hzero, if_pos hlt, hread, barrelShift_eq cpu x type (by omega) hlt]
    rfl
  have hleft : x <<< n = 0 := BitVec.shiftLeft_eq_zero (by omega)
  have hright : x >>> n = 0 := BitVec.ushiftRight_eq_zero (by omega)
  rw [if_neg hzero, if_neg hlt, misreadRegister, Arm.shift, if_neg hzero]
  by_cases h32 : n = 32
  · subst h32
    rcases shiftTypes type with rfl | rfl | rfl | rfl
    · exact congrArg (·, bit x 0) hleft.symm
    · exact congrArg (·, bit x 31) hright.symm
    · exact congrArg (·, bit x 31) (sshiftRight_of_le x (by decide)).symm
    · exact barrelShift_rrx cpu x
  · have hgt : 32 < n := by omega
    rw [if_neg h32, if_neg fun h => h32 h.2]
    rcases shiftTypes type with rfl | rfl | rfl | rfl
    · rw [if_neg (by simp), if_pos rfl, hleft, decide_eq_false (by omega)]
      rfl
    · rw [if_neg (by simp), if_neg (by decide), if_pos rfl, hright, bit,
        BitVec.getLsbD_of_ge _ _ (by omega)]
      rfl
    · rw [if_pos ⟨.inl rfl, hgt⟩]
      rfl
    · rw [if_pos ⟨.inr rfl, hgt⟩]
      rfl

/-- `decode_imm_shift`, but for the shifts that are misread. -/
theorem decodeImmShift_eq (cpu : Cpu) (insn : Word) :
    decodeImmShift cpu insn =
      if (bits insn 5 2 = 1 ∨ bits insn 5 2 = 2) ∧
        bits insn 7 5 = 0 then (cpu.regs (bits insn 0 4), cpu.carry)
      else Arm.immediateShift (cpu.regs (bits insn 0 4)) (bits insn 5 2) (bits insn 7 5).toNat
        cpu.carry := by
  have hamount : (bits insn 7 5).toNat = 0 ↔ bits insn 7 5 = 0 := (BitVec.toNat_eq (y := 0)).symm
  have hlt : (bits insn 7 5).toNat < 32 := (bits insn 7 5).isLt
  simp only [decodeImmShift, Arm.immediateShift, ← hamount]
  generalize (bits insn 7 5).toNat = n at hlt
  generalize cpu.regs (bits insn 0 4) = x
  generalize bits insn 5 2 = type
  by_cases hzero : n = 0
  · subst hzero
    rcases shiftTypes type with rfl | rfl | rfl | rfl <;> rfl
  · rw [if_neg fun h => hzero h.1, if_neg fun h => hzero h.2, if_neg hzero,
      barrelShift_eq cpu x type (by omega) hlt]

/-- **The second operand**: what the simulator reads is what is meant, but for the shifts that
    are misread. -/
theorem operand2_eq (cpu : Cpu) (insn : Word) :
    operand2 cpu insn = (misread cpu insn).getD (Arm.operand cpu insn) := by
  rw [operand2, misread, Arm.operand]
  by_cases h25 : bit insn 25
  · rw [if_pos h25, if_pos h25, if_pos h25, decodeImm_eq]
    rfl
  by_cases h4 : bit insn 4
  · rw [if_neg h25, if_neg h25, if_neg h25, if_pos h4, if_pos h4, if_pos h4, decodeRegShift_eq]
  · rw [if_neg h25, if_neg h25, if_neg h25, if_neg h4, if_neg h4, if_neg h4, decodeImmShift_eq]
    split_ifs <;> rfl

/-! ## Shifts that come out right -/

/-- A word all of whose bits are `c`. -/
def filled (c : Bool) : Word := if c then BitVec.allOnes 32 else 0

/-- The shift by an immediate comes out right. -/
def ImmediateRight (x : Word) (type : BitVec 2) (imm5 : ℕ) (c : Bool) : Prop :=
  imm5 = 0 → (type = 1 → x = 0 ∧ c = false) ∧ (type = 2 → x = filled c)

/-- The shift by a register comes out right. -/
def RegisterRight (x : Word) (type : BitVec 2) (n : ℕ) (c : Bool) : Prop :=
  (type = 3 → n = 32 → x = filled c) ∧ (type = 2 → 32 < n → x.msb = false) ∧
    (type = 3 → 32 < n → x = 0)

@[simp] theorem msb_filled (c : Bool) : (filled c).msb = c := by cases c <;> rfl

theorem getElem_filled (c : Bool) {i : ℕ} (hi : i < 32) : (filled c)[i] = c := by
  cases c
  · exact BitVec.getElem_zero hi
  · exact BitVec.getElem_allOnes i hi

/-- A shift by a word or more leaves the sign. -/
theorem sshiftRight_eq_filled (x : Word) {n : ℕ} (h : 31 ≤ n) : x.sshiftRight n = filled x.msb := by
  rw [sshiftRight_of_le x h]
  ext i hi
  rw [BitVec.getElem_sshiftRight, getElem_filled]
  split_ifs with hi'
  · obtain rfl : i = 0 := by omega
    exact (BitVec.msb_eq_getLsbD_last x).symm
  · rfl

/-- A rotation through the carry leaves only what is all carry. -/
theorem rrx_eq_iff (x : Word) (c : Bool) : Arm.rrx x c = (x, x.msb) ↔ x = filled c := by
  constructor
  · intro h
    have hx : (if c then 0x80000000 else 0) ||| x >>> 1 = x := congrArg Prod.fst h
    have htop : ∀ i < 32, ((if c then 0x80000000 else 0 : ℕ) : Word).getLsbD i =
        (c && decide (i = 31)) := by
      cases c <;> decide
    have hbit : ∀ i < 32, x.getLsbD i = if i = 31 then c else x.getLsbD (1 + i) := by
      intro i hi
      have hi' := congrArg (BitVec.getLsbD · i) hx
      simp only [BitVec.getLsbD_or, BitVec.getLsbD_ushiftRight, htop i hi] at hi'
      rw [← hi']
      split_ifs with h31
      · rw [BitVec.getLsbD_of_ge x _ (by omega), Bool.or_false, decide_eq_true h31, Bool.and_true]
      · rw [decide_eq_false h31, Bool.and_false, Bool.false_or]
    -- from the top down, every bit is the one above it
    have hall : ∀ k ≤ 31, x.getLsbD (31 - k) = c := by
      intro k hk
      induction k with
      | zero => exact (hbit 31 (by decide)).trans (if_pos rfl)
      | succ k ih =>
        rw [hbit _ (by omega), if_neg (by omega), show 1 + (31 - (k + 1)) = 31 - k by omega]
        exact ih (by omega)
    ext i hi
    rw [getElem_filled, ← BitVec.getLsbD_eq_getElem, show i = 31 - (31 - i) by omega]
    exact hall (31 - i) (by omega)
  · rintro rfl
    cases c <;> rfl

theorem rotateRight_eq_zero_iff (x : Word) (n : ℕ) : x.rotateRight n = 0 ↔ x = 0 := by
  constructor
  · intro h
    have hr : n % 32 < 32 := Nat.mod_lt _ (by decide)
    rw [← BitVec.rotateRight_mod_eq_rotateRight] at h
    generalize n % 32 = r at h hr
    ext j hj
    show x[j] = (0#32)[j]
    rw [BitVec.getElem_zero, ← BitVec.getLsbD_eq_getElem]
    -- the bit is where the rotation takes it
    have hbit : ∀ i < 32, (x.rotateRight r).getLsbD i = false := by
      intro i hi
      rw [h]
      exact BitVec.getLsbD_zero
    by_cases hjr : j < r
    · have hj' := hbit (32 - r + j) (by omega)
      rw [BitVec.getLsbD_rotateRight_of_lt hr, decide_eq_false (by omega), cond_false,
        decide_eq_true (by omega), Bool.true_and, Nat.add_sub_cancel_left] at hj'
      exact hj'
    · have hj' := hbit (j - r) (by omega)
      rw [BitVec.getLsbD_rotateRight_of_lt hr, decide_eq_true (by omega), cond_true,
        Nat.add_sub_of_le (not_lt.1 hjr)] at hj'
      exact hj'
  · rintro rfl
    show (0#32).rotateRight n = 0#32
    rw [BitVec.rotateRight_def, BitVec.zero_ushiftRight, BitVec.zero_shiftLeft]
    rfl

theorem immediate_right_iff (x : Word) (type : BitVec 2) (imm5 : ℕ) (c : Bool) :
    (if (type = 1 ∨ type = 2) ∧ imm5 = 0 then (x, c) else Arm.immediateShift x type imm5 c) =
      Arm.immediateShift x type imm5 c ↔ ImmediateRight x type imm5 c := by
  by_cases hzero : imm5 = 0
  · subst hzero
    rcases shiftTypes type with rfl | rfl | rfl | rfl
    · simp [ImmediateRight]
    · have hshift : Arm.immediateShift x 1 0 c = (0, x.msb) := by
        rw [msb_eq_bit]
        exact congrArg (·, bit x 31) (BitVec.ushiftRight_eq_zero (by decide))
      rw [if_pos ⟨.inl rfl, rfl⟩, hshift, Prod.mk.injEq]
      constructor
      · rintro ⟨rfl, rfl⟩
        exact fun _ => ⟨fun _ => ⟨rfl, rfl⟩, fun h => absurd h (by decide)⟩
      · intro h
        obtain ⟨rfl, rfl⟩ := (h rfl).1 rfl
        exact ⟨rfl, rfl⟩
    · have hshift : Arm.immediateShift x 2 0 c = (filled x.msb, x.msb) := by
        rw [← sshiftRight_eq_filled x (by decide : 31 ≤ 32), msb_eq_bit]
        rfl
      rw [if_pos ⟨.inr rfl, rfl⟩, hshift, Prod.mk.injEq]
      constructor
      · rintro ⟨hx, rfl⟩
        exact fun _ => ⟨fun h => absurd h (by decide), fun _ => hx⟩
      · intro h
        obtain rfl := (h rfl).2 rfl
        rw [msb_filled]
        exact ⟨rfl, rfl⟩
    · simp [ImmediateRight]
  · rw [if_neg fun h => hzero h.2]
    exact iff_of_true rfl fun h => absurd h hzero

theorem register_right_iff (x : Word) (type : BitVec 2) (n : ℕ) (c : Bool) :
    (misreadRegister x type n c).getD (Arm.shift x type n c) = Arm.shift x type n c ↔
      RegisterRight x type n c := by
  rw [misreadRegister, RegisterRight]
  by_cases h32 : type = 3 ∧ n = 32
  · obtain ⟨rfl, rfl⟩ := h32
    have hshift : Arm.shift x 3 32 c = (x, x.msb) := by
      have hrotate : x.rotateRight 32 = x := by
        rw [← BitVec.rotateRight_mod_eq_rotateRight]
        exact rotateRight_zero x
      exact congrArg (fun y : Word => (y, y.msb)) hrotate
    rw [if_pos ⟨rfl, rfl⟩, Option.getD_some, hshift, rrx_eq_iff]
    simp
  rw [if_neg h32]
  by_cases hgt : (type = 2 ∨ type = 3) ∧ 32 < n
  · obtain ⟨rfl | rfl, hn⟩ := hgt
    · have hshift : Arm.shift x 2 n c = (filled x.msb, x.msb) := by
        rw [← sshiftRight_eq_filled x (by omega : 31 ≤ n), Arm.shift, if_neg (by omega),
          if_neg (by decide),
          if_neg (by decide), if_pos rfl, if_neg (by omega)]
      rw [if_pos ⟨.inl rfl, hn⟩, Option.getD_some, hshift, Prod.mk.injEq]
      constructor
      · rintro ⟨_, hmsb⟩
        exact ⟨fun h => absurd h (by decide), fun _ _ => hmsb.symm, fun h => absurd h (by decide)⟩
      · intro h
        rw [h.2.1 rfl hn]
        exact ⟨rfl, rfl⟩
    · have hshift : Arm.shift x 3 n c = (x.rotateRight n, (x.rotateRight n).msb) := by
        rw [Arm.shift, if_neg (by omega), if_neg (by decide), if_neg (by decide),
          if_neg (by decide)]
      rw [if_pos ⟨.inr rfl, hn⟩, Option.getD_some, hshift, Prod.mk.injEq]
      constructor
      · rintro ⟨hzero, _⟩
        have hx := (rotateRight_eq_zero_iff x n).1 hzero.symm
        exact ⟨fun _ h => absurd h (by omega), fun h => absurd h (by decide), fun _ _ => hx⟩
      · intro h
        rw [(rotateRight_eq_zero_iff x n).2 (h.2.2 rfl hn)]
        exact ⟨rfl, rfl⟩
  · rw [if_neg hgt]
    refine iff_of_true rfl ⟨fun h₁ h₂ => absurd ⟨h₁, h₂⟩ h32, fun h₁ h₂ => ?_, fun h₁ h₂ => ?_⟩
    · exact absurd ⟨.inl h₁, h₂⟩ hgt
    · exact absurd ⟨.inr h₁, h₂⟩ hgt

/-- **The shifts that come out right.** -/
theorem shifts_right_iff (cpu : Cpu) (insn : Word) :
    (decodeImmShift cpu insn =
        Arm.immediateShift (cpu.regs (bits insn 0 4)) (bits insn 5 2) (bits insn 7 5).toNat
          cpu.carry ↔
      ImmediateRight (cpu.regs (bits insn 0 4)) (bits insn 5 2) (bits insn 7 5).toNat cpu.carry) ∧
    (decodeRegShift cpu insn =
        Arm.shift (cpu.regs (bits insn 0 4)) (bits insn 5 2)
          (bits (cpu.regs (bits insn 8 4)) 0 8).toNat cpu.carry ↔
      RegisterRight (cpu.regs (bits insn 0 4)) (bits insn 5 2)
        (bits (cpu.regs (bits insn 8 4)) 0 8).toNat cpu.carry) := by
  rw [decodeImmShift_eq, decodeRegShift_eq]
  have hamount : (bits insn 7 5).toNat = 0 ↔ bits insn 7 5 = 0 := (BitVec.toNat_eq (y := 0)).symm
  simp only [← hamount]
  generalize (bits (cpu.regs (bits insn 8 4)) 0 8).toNat = n
  generalize cpu.regs (bits insn 0 4) = x
  generalize cpu.carry = c
  generalize (bits insn 7 5).toNat = imm5
  generalize bits insn 5 2 = type
  exact ⟨immediate_right_iff x type imm5 c, register_right_iff x type n c⟩

/-- `LSR #32` of 1, with the carry clear, gives 1. -/
theorem lsr32_not_shifted : ¬∀ (cpu : Cpu) (insn : Word),
    decodeImmShift cpu insn =
        Arm.immediateShift (cpu.regs (bits insn 0 4)) (bits insn 5 2) (bits insn 7 5).toNat
          cpu.carry ∧
      decodeRegShift cpu insn =
        Arm.shift (cpu.regs (bits insn 0 4)) (bits insn 5 2)
          (bits (cpu.regs (bits insn 8 4)) 0 8).toNat cpu.carry := by
  intro h
  have hlsr := congrArg Prod.fst (h (startCpu fun _ => 1) 0xE1A00021).1
  exact absurd hlsr (by decide)

end PocketDarwin.Simu
