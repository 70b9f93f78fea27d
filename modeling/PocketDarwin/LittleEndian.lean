/-
  Numbers as bytes, the lowest byte first.

  * `ofLeBytes_leBytes`: the number that the bytes of a number are.
  * `load32_ofBytes`, `load64_ofBytes`: words of a memory with given bytes, as fields of these.
-/
import Mathlib.Data.BitVec
import PocketDarwin.Span

namespace PocketDarwin

/-- `k` bytes of a number. -/
def leBytes : ℕ → ℕ → List (BitVec 8)
  | 0, _ => []
  | k + 1, n => BitVec.ofNat 8 n :: leBytes k (n / 256)

/-- The number that the bytes are. -/
def ofLeBytes : List (BitVec 8) → ℕ
  | [] => 0
  | b :: l => b.toNat + 256 * ofLeBytes l

/-- The field of `k` bytes at `pos`, as a number of `w` bits. -/
def leField (w : ℕ) (bytes : List (BitVec 8)) (pos k : ℕ) : BitVec w :=
  BitVec.ofNat w (ofLeBytes ((bytes.drop pos).take k))

@[simp] theorem length_leBytes (k n : ℕ) : (leBytes k n).length = k := by
  induction k generalizing n with
  | zero => rfl
  | succ k ih => rw [leBytes, List.length_cons, ih]

theorem ofLeBytes_leBytes (k n : ℕ) : ofLeBytes (leBytes k n) = n % 256 ^ k := by
  induction k generalizing n with
  | zero => rw [leBytes, ofLeBytes, Nat.pow_zero, Nat.mod_one]
  | succ k ih =>
    have hpow : 256 ^ (k + 1) = 256 * 256 ^ k := Nat.pow_succ'
    rw [leBytes, ofLeBytes, ih, BitVec.toNat_ofNat, hpow, Nat.mod_mul]

/-! ## Words in memory -/

/-- A memory with the bytes of a list at `p`, and zeros elsewhere. -/
def Memory.ofBytes {w : ℕ} (p : BitVec w) (bytes : List (BitVec 8)) : Memory w :=
  fun a => bytes.getD (a - p).toNat 0

theorem ofLeBytes_take_lt (k : ℕ) (l : List (BitVec 8)) : ofLeBytes (l.take k) < 256 ^ k := by
  induction k generalizing l with
  | zero => exact Nat.one_pos
  | succ k ih =>
    cases l with
    | nil => exact Nat.pow_pos (by decide)
    | cons b l =>
      have hb := b.isLt
      have htail := ih l
      rw [List.take_succ_cons, ofLeBytes, Nat.pow_succ']
      omega

section
variable {w : ℕ} {p : BitVec w} {bytes : List (BitVec 8)}

theorem toNat_append_eq {m n : ℕ} (x : BitVec m) (y : BitVec n) : (x ++ y).toNat = x.toNat * 2 ^ n + y.toNat := by
  rw [BitVec.toNat_append, ← Nat.shiftLeft_add_eq_or_of_lt y.isLt, Nat.shiftLeft_eq]

theorem ofLeBytes_field (bytes : List (BitVec 8)) (pos k : ℕ) :
    ofLeBytes ((bytes.drop pos).take (k + 1)) =
      (bytes.getD pos 0).toNat + 256 * ofLeBytes ((bytes.drop (pos + 1)).take k) := by
  rcases Nat.lt_or_ge pos bytes.length with hlt | hge
  · rw [List.drop_eq_getElem_cons hlt, List.take_succ_cons, ofLeBytes, List.getD_eq_getElem?_getD,
      List.getElem?_eq_getElem hlt, Option.getD_some]
  · rw [List.drop_eq_nil_of_le hge, List.drop_eq_nil_of_le (hge.trans (Nat.le_succ pos)), List.getD_eq_getElem?_getD,
      List.getElem?_eq_none hge]
    simp [ofLeBytes]

theorem ofBytes_apply {pos : ℕ} (h : pos < 2 ^ w) : Memory.ofBytes p bytes (p + BitVec.ofNat w pos) = bytes.getD pos 0 := by
  rw [Memory.ofBytes, add_sub_cancel_left, BitVec.toNat_ofNat, Nat.mod_eq_of_lt h]

theorem load32_ofBytes {pos : ℕ} (h : pos + 4 ≤ 2 ^ w) :
    (Memory.ofBytes p bytes).load32 (p + BitVec.ofNat w pos) = leField 32 bytes pos 4 := by
  have hbyte : ∀ i < 4, Memory.ofBytes p bytes (p + BitVec.ofNat w pos + BitVec.ofNat w i) = bytes.getD (pos + i) 0 := by
    intro i hi
    rw [add_assoc, ← BitVec.ofNat_add]
    exact ofBytes_apply (by omega)
  have h₀ : Memory.ofBytes p bytes (p + BitVec.ofNat w pos) = bytes.getD pos 0 := ofBytes_apply (by omega)
  have hword : (Memory.ofBytes p bytes).load32 (p + BitVec.ofNat w pos) =
      bytes.getD (pos + 3) 0 ++ bytes.getD (pos + 2) 0 ++ bytes.getD (pos + 1) 0 ++ bytes.getD pos 0 := by
    rw [← hbyte 3 (by decide), ← hbyte 2 (by decide), ← hbyte 1 (by decide), ← h₀]
    rfl
  apply BitVec.eq_of_toNat_eq
  rw [hword, leField, BitVec.toNat_ofNat, toNat_append_eq, toNat_append_eq, toNat_append_eq]
  simp only [ofLeBytes_field, List.take_zero, ofLeBytes, Nat.add_assoc, Nat.reduceAdd]
  have h₀ := (bytes.getD pos 0).isLt
  have h₁ := (bytes.getD (pos + 1) 0).isLt
  have h₂ := (bytes.getD (pos + 2) 0).isLt
  have h₃ := (bytes.getD (pos + 3) 0).isLt
  omega

theorem load64_ofBytes {pos : ℕ} (h : pos + 8 ≤ 2 ^ w) :
    (Memory.ofBytes p bytes).load64 (p + BitVec.ofNat w pos) = leField 64 bytes pos 8 := by
  have hhigh : (Memory.ofBytes p bytes).load32 (p + BitVec.ofNat w pos + 4) = leField 32 bytes (pos + 4) 4 := by
    rw [← load32_ofBytes (by omega), BitVec.ofNat_add, ← add_assoc]
    rfl
  apply BitVec.eq_of_toNat_eq
  rw [Memory.load64, hhigh, load32_ofBytes (by omega), toNat_append_eq, leField, leField, leField, BitVec.toNat_ofNat,
    BitVec.toNat_ofNat, BitVec.toNat_ofNat]
  have hlow : ofLeBytes ((bytes.drop pos).take 4) < 2 ^ 32 := ofLeBytes_take_lt 4 _
  have hupper : ofLeBytes ((bytes.drop (pos + 4)).take 4) < 2 ^ 32 := ofLeBytes_take_lt 4 _
  have hsplit : ofLeBytes ((bytes.drop pos).take 8) = ofLeBytes ((bytes.drop pos).take 4) +
      2 ^ 32 * ofLeBytes ((bytes.drop (pos + 4)).take 4) := by
    simp only [ofLeBytes_field, List.take_zero, ofLeBytes, Nat.add_assoc, Nat.reduceAdd]
    omega
  rw [hsplit]
  omega

end

end PocketDarwin
