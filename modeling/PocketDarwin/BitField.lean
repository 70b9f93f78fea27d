/-
  Fields of a register.

  A field is a mask and a shift; it is written by reading the register, clearing the field and
  setting its bits (`deposit`), and read by `extract`.

  * `extract_deposit_self`, `extract_deposit_of_disjoint`: a write is read back, and other fields
    are not changed by it.
  * `deposit_comm`: writes to different fields can be swapped.
  * `low`: the mask of a field of consecutive bits.
-/
import Mathlib.Algebra.Ring.Nat
import Mathlib.Data.Nat.Notation

namespace PocketDarwin.BitField

variable {w : ℕ} {m m' x v v' : BitVec w} {s s' i : ℕ}

/-- The field of `m` and `s` in `x` is replaced by `v`. -/
def deposit (m : BitVec w) (s : ℕ) (x v : BitVec w) : BitVec w :=
  (x &&& ~~~(m <<< s)) ||| ((v &&& m) <<< s)

/-- The field of `m` and `s` in `x`. -/
def extract (m : BitVec w) (s : ℕ) (x : BitVec w) : BitVec w := (x >>> s) &&& m

/-- No bit of the mask is shifted out. -/
def Fits (m : BitVec w) (s : ℕ) : Prop := (m <<< s) >>> s = m

theorem Fits.lt (h : Fits m s) (hi : m.getLsbD i = true) : s + i < w := by
  rw [← h, BitVec.getLsbD_ushiftRight] at hi
  exact BitVec.lt_of_getLsbD hi

/-- **The bits of a write**: those of the value in the field, and the old ones elsewhere. -/
theorem getLsbD_deposit (hi : i < w) : (deposit m s x v).getLsbD i =
    if (m <<< s).getLsbD i = true then v.getLsbD (i - s) else x.getLsbD i := by
  simp only [deposit, BitVec.getLsbD_or, BitVec.getLsbD_and, BitVec.getLsbD_not,
    BitVec.getLsbD_shiftLeft, hi, decide_true,
    Bool.true_and]
  by_cases hs : i < s
  · simp [hs]
  · cases m.getLsbD (i - s) <;> simp [hs]

/-- A write is read back. -/
theorem extract_deposit_self (h : Fits m s) : extract m s (deposit m s x v) = v &&& m := by
  apply BitVec.eq_of_getLsbD_eq
  intro i hi
  rw [extract, BitVec.getLsbD_and, BitVec.getLsbD_and, BitVec.getLsbD_ushiftRight]
  cases hm : m.getLsbD i with
  | false => simp
  | true =>
    have hlt := h.lt hm
    rw [getLsbD_deposit hlt, if_pos (by simp [hlt, hm]), Nat.add_sub_cancel_left]

/-- Other fields are not changed. -/
theorem extract_deposit_of_disjoint (h : Fits m s) (hd : (m <<< s) &&& (m' <<< s') = 0) :
    extract m s (deposit m' s' x v) = extract m s x := by
  apply BitVec.eq_of_getLsbD_eq
  intro i hi
  rw [extract, extract, BitVec.getLsbD_and, BitVec.getLsbD_and, BitVec.getLsbD_ushiftRight,
    BitVec.getLsbD_ushiftRight]
  cases hm : m.getLsbD i with
  | false => simp
  | true =>
    have hlt := h.lt hm
    have hbit : (m <<< s).getLsbD (s + i) = true := by simp [hlt, hm]
    have hbit' : (m' <<< s').getLsbD (s + i) = false := by
      have hand := congrArg (fun y => y.getLsbD (s + i)) hd
      simpa only [BitVec.getLsbD_and, hbit, Bool.true_and, BitVec.ofNat_eq_ofNat,
        BitVec.getLsbD_zero] using hand
    rw [getLsbD_deposit hlt, hbit', if_neg (by simp)]

/-- Writes to different fields can be swapped. -/
theorem deposit_comm (hd : (m <<< s) &&& (m' <<< s') = 0) :
    deposit m s (deposit m' s' x v') v = deposit m' s' (deposit m s x v) v' := by
  apply BitVec.eq_of_getLsbD_eq
  intro i hi
  have hand : (m <<< s).getLsbD i = true → (m' <<< s').getLsbD i = false := by
    intro hbit
    have := congrArg (fun y => y.getLsbD i) hd
    simpa only [BitVec.getLsbD_and, hbit, Bool.true_and, BitVec.ofNat_eq_ofNat, BitVec.getLsbD_zero]
      using this
  rw [getLsbD_deposit hi, getLsbD_deposit hi, getLsbD_deposit hi, getLsbD_deposit hi]
  by_cases hbit : (m <<< s).getLsbD i = true
  · rw [if_pos hbit, if_pos hbit, hand hbit, if_neg (by simp)]
  · rw [if_neg hbit, if_neg hbit]

/-- All bits of a field are set. -/
theorem deposit_mask : deposit m s x m = x ||| (m <<< s) := by
  rw [deposit, BitVec.and_self]
  ext i hi
  simp only [BitVec.getElem_or, BitVec.getElem_and, BitVec.getElem_not]
  cases x[i] <;> cases (m <<< s)[i] <;> rfl

/-- All bits of a field are cleared. -/
theorem deposit_zero : deposit m s x 0 = x &&& ~~~(m <<< s) := by simp [deposit]

/-! ## Consecutive bits -/

section
variable {n n' : ℕ}

/-- The lowest `n` bits. -/
def low (w n : ℕ) : BitVec w := (1#w <<< n) - 1#w

theorem toNat_low (h : n < w) : (low w n).toNat = 2 ^ n - 1 := by
  have hlt : 2 ^ n < 2 ^ w := Nat.pow_lt_pow_right (by decide) h
  have hone : (1 : ℕ) < 2 ^ w := Nat.one_lt_two_pow (by omega)
  have hpos : 0 < 2 ^ n := Nat.two_pow_pos n
  rw [low, BitVec.toNat_sub, BitVec.toNat_shiftLeft, BitVec.toNat_ofNat, Nat.mod_eq_of_lt hone,
    Nat.shiftLeft_eq, Nat.one_mul, Nat.mod_eq_of_lt hlt]
  have hsum : 2 ^ w - 1 + 2 ^ n = 2 ^ n - 1 + 2 ^ w := by omega
  rw [hsum, Nat.add_mod_right, Nat.mod_eq_of_lt (by omega)]

theorem getLsbD_low (h : n < w) (i : ℕ) : (low w n).getLsbD i = decide (i < n) := by
  rw [BitVec.getLsbD, toNat_low h, Nat.testBit_two_pow_sub_one]

theorem toNat_and_low (h : n < w) : (v &&& low w n).toNat = v.toNat % 2 ^ n := by
  rw [BitVec.toNat_and, toNat_low h, Nat.and_two_pow_sub_one_eq_mod]

theorem getLsbD_low_shiftLeft (h : n < w) (hs : s + n ≤ w) (i : ℕ) :
    (low w n <<< s).getLsbD i = decide (s ≤ i ∧ i < s + n) := by
  rw [BitVec.getLsbD_shiftLeft, getLsbD_low h, Bool.eq_iff_iff]
  simp only [Bool.and_eq_true, Bool.not_eq_true', decide_eq_true_eq, decide_eq_false_iff_not]
  omega

theorem fits_low (h : n < w) (hs : s + n ≤ w) : Fits (low w n) s := by
  apply BitVec.eq_of_getLsbD_eq
  intro i hi
  rw [BitVec.getLsbD_ushiftRight, getLsbD_low_shiftLeft h hs, getLsbD_low h, Bool.eq_iff_iff]
  simp only [decide_eq_true_eq]
  omega

end

end PocketDarwin.BitField
