/-
  The bit fields of the platform framework (`APBitfield.h`).

  A field has a mask that is in place already, and the shift to it; `ap_bf_set` works on a value
  of a register, and `put` of an `APRegisterSet` on its shadow.

  * `apBfSet_eq_deposit`, `apBfGet_eq_extract`: what they are of the fields of `AP_FLDS`.
  * `bitfield_run`: after any puts into disjoint fields, each has the value that was last put into
    it, and nothing else is changed; puts into different fields can be swapped.
-/
import PocketDarwin.BitField
import Mathlib.Data.Set.Pairwise.Basic

namespace PocketDarwin.Drivers.ApBitfield

open BitField

abbrev UInt32 := BitVec 32

/-! ## The code -/

structure APBitfield where
  mask : UInt32
  shift : BitVec 8
  width : BitVec 8

/-- `AP_FLDS(hi, lo)` -/
def apFlds (hi lo : ℕ) : APBitfield where
  mask := ((1#32 <<< (hi - lo + 1)) - 1#32) <<< lo
  shift := BitVec.ofNat 8 lo
  width := BitVec.ofNat 8 (hi - lo + 1)

def apBfGet (regVal : UInt32) (bf : APBitfield) : UInt32 :=
  (regVal >>> bf.shift.toNat) &&& (bf.mask >>> bf.shift.toNat)

def apBfSet (regVal : UInt32) (bf : APBitfield) (val : UInt32) : UInt32 :=
  (regVal &&& ~~~bf.mask) ||| ((val <<< bf.shift.toNat) &&& bf.mask)

/-- The address of a register, and the shadow of it. -/
structure APRegisterSet where
  reg : ℕ
  shadow : UInt32

namespace APRegisterSet

def get (rs : APRegisterSet) (bf : APBitfield) : UInt32 :=
  (rs.shadow >>> bf.shift.toNat) &&& (bf.mask >>> bf.shift.toNat)

def put (rs : APRegisterSet) (bf : APBitfield) (val : UInt32) : APRegisterSet :=
  { rs with shadow := (rs.shadow &&& ~~~bf.mask) ||| ((val <<< bf.shift.toNat) &&& bf.mask) }

end APRegisterSet

/-! ## Fields -/

/-- The bits from `lo` to `hi` of a register. -/
structure Field where
  hi : ℕ
  lo : ℕ
  le : lo ≤ hi
  lt : hi < 32
  narrow : hi - lo < 31
deriving DecidableEq

namespace Field
variable (f : Field)

def bits : APBitfield := apFlds f.hi f.lo

def width : ℕ := f.hi - f.lo + 1

/-- The bit is in the field. -/
def Has (i : ℕ) : Prop := f.lo ≤ i ∧ i ≤ f.hi

/-- No bit is in both. -/
def Disjoint (g : Field) : Prop := ∀ i, f.Has i → ¬ g.Has i

theorem width_lt : f.width < 32 := by
  have := f.narrow
  rw [width]
  omega

theorem lo_add_width_le : f.lo + f.width ≤ 32 := by
  have := f.le
  have := f.lt
  rw [width]
  omega

theorem toNat_shift : f.bits.shift.toNat = f.lo := by
  have := f.le
  have := f.lt
  rw [bits, apFlds, BitVec.toNat_ofNat]
  omega

theorem mask_eq : f.bits.mask = low 32 f.width <<< f.lo := rfl

theorem fits : Fits (low 32 f.width) f.lo := fits_low f.width_lt f.lo_add_width_le

theorem getLsbD_mask (i : ℕ) : f.bits.mask.getLsbD i = true ↔ f.Has i := by
  have := f.le
  rw [mask_eq, getLsbD_low_shiftLeft f.width_lt f.lo_add_width_le, decide_eq_true_eq, Has, width]
  omega

/-- Disjoint fields have disjoint masks. -/
theorem Disjoint.mask {f g : Field} (h : f.Disjoint g) :
    (low 32 f.width <<< f.lo) &&& (low 32 g.width <<< g.lo) = 0 := by
  apply BitVec.eq_of_getLsbD_eq
  intro i hi
  rw [BitVec.getLsbD_and, ← mask_eq, ← mask_eq, Bool.eq_iff_iff, Bool.and_eq_true, getLsbD_mask,
    getLsbD_mask]
  simpa using h i

end Field

/-- Setting a field of `AP_FLDS`. -/
theorem apBfSet_eq_deposit (x v : UInt32) (f : Field) :
    apBfSet x f.bits v = deposit (low 32 f.width) f.lo x v := by
  rw [apBfSet, deposit, f.toNat_shift, f.mask_eq, BitVec.shiftLeft_and_distrib]

theorem apBfGet_eq_extract (x : UInt32) (f : Field) :
    apBfGet x f.bits = extract (low 32 f.width) f.lo x := by
  rw [apBfGet, extract, f.toNat_shift, f.mask_eq, f.fits]

/-! ## Runs -/

/-- A value that is put into a field, by one of the two functions for it. -/
inductive Put where
  | apBfSet (f : Field) (val : UInt32)
  | put (f : Field) (val : UInt32)

namespace Put

def field : Put → Field
  | apBfSet f _ | put f _ => f

def val : Put → UInt32
  | apBfSet _ val | put _ val => val

/-- What it makes of a register that has been read. -/
def run (rs : APRegisterSet) : Put → APRegisterSet
  | apBfSet f val => { rs with shadow := ApBitfield.apBfSet rs.shadow f.bits val }
  | put f val => rs.put f.bits val

end Put

/-- What was last put into a field. -/
def lastPut (f : Field) : List Put → Option UInt32
  | [] => none
  | c :: log => (lastPut f log).or (if c.field = f then some c.val else none)

theorem shadow_run (rs : APRegisterSet) (c : Put) :
    (c.run rs).shadow = deposit (low 32 c.field.width) c.field.lo rs.shadow c.val := by
  cases c with
  | apBfSet f val => exact apBfSet_eq_deposit rs.shadow val f
  | put f val => exact apBfSet_eq_deposit rs.shadow val f

/-- A field after a put into one of the family. -/
theorem apBfGet_run {f : Field} {c : Put} (h : c.field ≠ f → f.Disjoint c.field)
    (rs : APRegisterSet) : apBfGet (c.run rs).shadow f.bits =
      if c.field = f then c.val &&& low 32 f.width else apBfGet rs.shadow f.bits := by
  rw [apBfGet_eq_extract, apBfGet_eq_extract, shadow_run]
  split_ifs with hf
  · rw [hf]
    exact extract_deposit_self f.fits
  · exact extract_deposit_of_disjoint f.fits (h hf).mask

theorem getLsbD_run {c : Put} {i : ℕ} (hi : i < 32) (h : ¬ c.field.Has i) (rs : APRegisterSet) :
    (c.run rs).shadow.getLsbD i = rs.shadow.getLsbD i := by
  rw [shadow_run, getLsbD_deposit hi, ← Field.mask_eq, if_neg (by rwa [Field.getLsbD_mask])]

/-- **Fields are independent.**  After any puts into fields of a disjoint family, each has the
    value that was last put into it, cut to its width, or what it had before; no bit outside of
    them is changed; puts into different ones can be swapped; and it does not matter which of the
    two functions puts or gets. -/
theorem bitfield_run (family : Set Field) (hfamily : family.Pairwise Field.Disjoint)
    (rs : APRegisterSet) (log : List Put) (hlog : ∀ c ∈ log, c.field ∈ family) :
    (∀ f ∈ family, apBfGet (log.foldl Put.run rs).shadow f.bits = match lastPut f log with
      | some val => BitVec.ofNat 32 (val.toNat % 2 ^ f.width)
      | none => apBfGet rs.shadow f.bits) ∧
    (∀ i < 32, (∀ f ∈ family, ¬ f.Has i) →
      (log.foldl Put.run rs).shadow.getLsbD i = rs.shadow.getLsbD i) ∧
    (∀ f ∈ family, ∀ g ∈ family, f ≠ g → ∀ x v u,
      apBfSet (apBfSet x f.bits v) g.bits u = apBfSet (apBfSet x g.bits u) f.bits v) ∧
    (∀ rs' bf val, (APRegisterSet.put rs' bf val).shadow = apBfSet rs'.shadow bf val ∧
      rs'.get bf = apBfGet rs'.shadow bf) := by
  refine ⟨?_, ?_, ?_, fun _ _ _ => ⟨rfl, rfl⟩⟩
  · intro f hf
    have hval : ∀ val : UInt32,
        BitVec.ofNat 32 (val.toNat % 2 ^ f.width) = val &&& low 32 f.width := by
      intro val
      rw [← toNat_and_low f.width_lt, BitVec.ofNat_toNat, BitVec.setWidth_eq]
    induction log generalizing rs with
    | nil => rfl
    | cons c log ih =>
      rw [List.forall_mem_cons] at hlog
      rw [List.foldl_cons, ih _ hlog.2, lastPut]
      cases lastPut f log with
      | some val => rfl
      | none =>
        rw [Option.none_or, apBfGet_run fun hne => hfamily hf hlog.1 (Ne.symm hne)]
        split_ifs with hc
        · exact (hval c.val).symm
        · rfl
  · intro i hi hout
    induction log generalizing rs with
    | nil => rfl
    | cons c log ih =>
      rw [List.forall_mem_cons] at hlog
      rw [List.foldl_cons, ih _ hlog.2, getLsbD_run hi (hout _ hlog.1)]
  · intro f hf g hg hne x v u
    simp only [apBfSet_eq_deposit]
    exact deposit_comm (hfamily hg hf (Ne.symm hne)).mask

/-- Two fields side by side: a value that is too wide stays in its own. -/
theorem bitfield_two : apBfGet (apBfSet (apBfSet 0xFFFFFFFF (apFlds 3 0) 5) (apFlds 7 4) 0x123)
    (apFlds 3 0) = 5 := by
  let f : Field := ⟨3, 0, by decide, by decide, by decide⟩
  let g : Field := ⟨7, 4, by decide, by decide, by decide⟩
  have hfamily : ({f, g} : Set Field).Pairwise Field.Disjoint := by
    refine Set.pairwise_pair.2 fun _ => ⟨?_, ?_⟩
    · rintro i ⟨-, hi⟩ ⟨hi', -⟩
      exact absurd (hi'.trans hi) (by decide)
    · rintro i ⟨hi, -⟩ ⟨-, hi'⟩
      exact absurd (hi.trans hi') (by decide)
  have hrun := bitfield_run {f, g} hfamily ⟨0, 0xFFFFFFFF⟩ [.apBfSet f 5, .put g 0x123]
    (by simp [Put.field])
  exact hrun.1 f (by simp)

end PocketDarwin.Drivers.ApBitfield
