/-
  Memories of bytes with `w`-bit addresses, and spans of addresses.

  Addresses wrap around, so a span is a start and a length, and an address is in it
  if it is less than the length away from the start.
-/
import Mathlib.Data.BitVec
import Mathlib.Logic.Function.Basic
import Mathlib.Tactic.SplitIfs

namespace PocketDarwin

variable {w : ℕ}

/-! ## Spans -/

/-- `[start, start + length)` -/
structure Span (w : ℕ) where
  start : BitVec w
  length : ℕ
  deriving DecidableEq

namespace Span

instance : Membership (BitVec w) (Span w) := ⟨fun s a => (a - s.start).toNat < s.length⟩

theorem mem_def {s : Span w} {a : BitVec w} : a ∈ s ↔ (a - s.start).toNat < s.length := Iff.rfl

instance (s : Span w) (a : BitVec w) : Decidable (a ∈ s) := inferInstanceAs (Decidable (_ < _))

instance : HasSubset (Span w) := ⟨fun s t => ∀ a ∈ s, a ∈ t⟩

/-- No address is in both. -/
def Disjoint (s t : Span w) : Prop := ∀ a ∈ s, a ∉ t

theorem Disjoint.symm {s t : Span w} (h : s.Disjoint t) : t.Disjoint s := fun a ht hs => h a hs ht

theorem Disjoint.mono {s s' t : Span w} (hs : s' ⊆ s) (h : s.Disjoint t) : s'.Disjoint t :=
  fun a ha => h a (hs a ha)

/-- The addresses of a span that does not wrap around. -/
theorem mem_iff_of_le {s : Span w} {a : BitVec w} (h : s.start.toNat + s.length ≤ 2 ^ w) :
    a ∈ s ↔ s.start.toNat ≤ a.toNat ∧ a.toNat < s.start.toNat + s.length := by
  have ha := a.isLt
  rw [mem_def, BitVec.toNat_sub]
  rcases Nat.lt_or_ge a.toNat s.start.toNat with hlt | hge
  · rw [Nat.mod_eq_of_lt (by omega)]
    omega
  · have heq : 2 ^ w - s.start.toNat + a.toNat = a.toNat - s.start.toNat + 2 ^ w := by omega
    rw [heq, Nat.add_mod_right, Nat.mod_eq_of_lt (by omega)]
    omega

theorem toNat_sub_add (a b c : BitVec w) :
    (a - c).toNat = ((a - b).toNat + (b - c).toNat) % 2 ^ w := by
  rw [← BitVec.toNat_add]
  congr 1
  exact (sub_add_sub_cancel a b c).symm

theorem mem_start_add {s : Span w} {i : ℕ} (hi : i < s.length) :
    s.start + BitVec.ofNat w i ∈ s := by
  rw [mem_def, add_sub_cancel_left, BitVec.toNat_ofNat]
  exact (Nat.mod_le _ _).trans_lt hi

/-- Every address of a span is at an index. -/
theorem exists_index {s : Span w} {a : BitVec w} (h : a ∈ s) :
    ∃ i < s.length, a = s.start + BitVec.ofNat w i := by
  refine ⟨(a - s.start).toNat, h, ?_⟩
  rw [BitVec.ofNat_toNat, BitVec.setWidth_eq, BitVec.add_comm, BitVec.sub_add_cancel]

/-- A span that starts in another and does not end behind it. -/
theorem subset_of_le {s t : Span w} (h : (s.start - t.start).toNat + s.length ≤ t.length) :
    s ⊆ t := by
  intro a ha
  rw [mem_def] at ha ⊢
  rw [toNat_sub_add a s.start]
  exact (Nat.mod_le _ _).trans_lt (by omega)

/-- The end of a span is in a span that is apart from it only if that one follows on it. -/
theorem start_eq_of_end_mem {s t : Span w} (hpos : 0 < s.length) (hdisjoint : s.Disjoint t)
    (hmem : s.start + BitVec.ofNat w s.length ∈ t) :
    t.start = s.start + BitVec.ofNat w s.length := by
  by_contra hne
  -- the last address of `s` is in `t`, too
  have hlast : s.start + BitVec.ofNat w (s.length - 1) ∈ s := mem_start_add (by omega)
  refine hdisjoint _ hlast ?_
  rw [mem_def] at hmem ⊢
  have hprev : s.start + BitVec.ofNat w (s.length - 1) - t.start =
      s.start + BitVec.ofNat w s.length - t.start - 1 := by
    obtain ⟨n, hn⟩ : ∃ n, s.length = n + 1 := ⟨s.length - 1, by omega⟩
    rw [hn, Nat.add_sub_cancel, BitVec.ofNat_add, ← add_assoc,
      add_sub_right_comm (s.start + BitVec.ofNat w n)]
    exact (add_sub_cancel_right _ _).symm
  have hdiff : (s.start + BitVec.ofNat w s.length - t.start).toNat ≠ 0 := fun h =>
    hne (sub_eq_zero.1 (BitVec.eq_of_toNat_eq h)).symm
  have hone : (1 : BitVec w) ≤ s.start + BitVec.ofNat w s.length - t.start := by
    rw [BitVec.le_def]
    exact (Nat.mod_le _ _).trans (Nat.pos_of_ne_zero hdiff)
  rw [hprev, BitVec.toNat_sub_of_le hone]
  exact (Nat.sub_le _ _).trans_lt hmem

/-- Two spans of which neither starts in the other. -/
theorem disjoint_of_start {s t : Span w} (hs : s.start ∉ t) (ht : t.start ∉ s) : s.Disjoint t := by
  intro a has hat
  rw [mem_def] at has hat hs ht
  rcases Nat.le_total (a - s.start).toNat (a - t.start).toNat with h | h
  · refine hs (lt_of_le_of_lt ?_ hat)
    have heq : s.start - t.start = (a - t.start) - (a - s.start) :=
      (sub_sub_sub_cancel_left _ _ _).symm
    rw [heq, BitVec.toNat_sub_of_le (BitVec.le_def.2 h)]
    omega
  · refine ht (lt_of_le_of_lt ?_ has)
    have heq : t.start - s.start = (a - s.start) - (a - t.start) :=
      (sub_sub_sub_cancel_left _ _ _).symm
    rw [heq, BitVec.toNat_sub_of_le (BitVec.le_def.2 h)]
    omega

theorem disjoint_iff {s t : Span w} :
    s.Disjoint t ↔ s.length = 0 ∨ t.length = 0 ∨ s.start ∉ t ∧ t.start ∉ s := by
  have hstart : ∀ {r : Span w}, r.length ≠ 0 → r.start ∈ r := by
    intro r hr
    rw [mem_def, sub_self]
    exact Nat.pos_of_ne_zero hr
  constructor
  · intro h
    by_cases hs : s.length = 0
    · exact Or.inl hs
    by_cases ht : t.length = 0
    · exact Or.inr (Or.inl ht)
    exact Or.inr (Or.inr ⟨h _ (hstart hs), h.symm _ (hstart ht)⟩)
  · rintro (hs | ht | ⟨hs, ht⟩)
    · intro a ha
      rw [mem_def, hs] at ha
      exact absurd ha (Nat.not_lt_zero _)
    · intro a _ ha
      rw [mem_def, ht] at ha
      exact absurd ha (Nat.not_lt_zero _)
    · exact disjoint_of_start hs ht

instance (s t : Span w) : Decidable (s.Disjoint t) := decidable_of_iff _ disjoint_iff.symm

end Span

/-! ## Memories -/

/-- A memory of bytes. -/
abbrev Memory (w : ℕ) := BitVec w → BitVec 8

namespace Memory

/-- The little-endian word at `p`. -/
def load16 (mem : Memory w) (p : BitVec w) : BitVec 16 := mem (p + 1) ++ mem p

def load32 (mem : Memory w) (p : BitVec w) : BitVec 32 :=
  mem (p + 3) ++ mem (p + 2) ++ mem (p + 1) ++ mem p

def load64 (mem : Memory w) (p : BitVec w) : BitVec 64 := mem.load32 (p + 4) ++ mem.load32 p

/-- A copy, byte by byte from the lowest address on. -/
def copy (dest src : BitVec w) : ℕ → Memory w → Memory w
  | 0, mem => mem
  | n + 1, mem =>
    let mem := copy dest src n mem
    Function.update mem (dest + BitVec.ofNat w n) (mem (src + BitVec.ofNat w n))

/-- A copy of what was there before it, whether the spans overlap or not. -/
def move (dest src : BitVec w) (n : ℕ) (mem : Memory w) : Memory w := fun a =>
  if a ∈ (⟨dest, n⟩ : Span w) then mem (src + (a - dest)) else mem a

/-- A fill, byte by byte from the lowest address on. -/
def fill (dest : BitVec w) (val : BitVec 8) : ℕ → Memory w → Memory w
  | 0, mem => mem
  | n + 1, mem => Function.update (fill dest val n mem) (dest + BitVec.ofNat w n) val

/-! ## What a copy and a fill do -/

theorem notMem_succ {dest a : BitVec w} {n : ℕ} (h : a ∉ (⟨dest, n + 1⟩ : Span w)) :
    a ∉ (⟨dest, n⟩ : Span w) ∧ a ≠ dest + BitVec.ofNat w n := by
  constructor
  · intro ha
    exact h (Nat.lt_succ_of_lt ha)
  · rintro rfl
    exact h (Span.mem_start_add (s := ⟨dest, n + 1⟩) n.lt_succ_self)

theorem copy_of_notMem {dest a : BitVec w} {n : ℕ} (h : a ∉ (⟨dest, n⟩ : Span w)) (src : BitVec w)
    (mem : Memory w) : copy dest src n mem a = mem a := by
  induction n with
  | zero => rfl
  | succ n ih =>
    obtain ⟨hn, hne⟩ := notMem_succ h
    rw [copy, Function.update_of_ne hne, ih hn]

/-- A copy onto itself does nothing. -/
theorem copy_self (p : BitVec w) (n : ℕ) (mem : Memory w) : copy p p n mem = mem := by
  induction n with
  | zero => rfl
  | succ n ih => rw [copy, ih, Function.update_eq_self]

theorem move_of_notMem {dest a : BitVec w} {n : ℕ} (h : a ∉ (⟨dest, n⟩ : Span w)) (src : BitVec w)
    (mem : Memory w) : move dest src n mem a = mem a :=
  if_neg h

theorem move_apply {dest src : BitVec w} {n i : ℕ} (hi : i < n) (mem : Memory w) :
    move dest src n mem (dest + BitVec.ofNat w i) = mem (src + BitVec.ofNat w i) := by
  rw [move, if_pos (Span.mem_start_add (s := ⟨dest, n⟩) hi), add_sub_cancel_left]

theorem fill_of_notMem {dest a : BitVec w} {n : ℕ} (h : a ∉ (⟨dest, n⟩ : Span w)) (val : BitVec 8)
    (mem : Memory w) : fill dest val n mem a = mem a := by
  induction n with
  | zero => rfl
  | succ n ih =>
    obtain ⟨hn, hne⟩ := notMem_succ h
    rw [fill, Function.update_of_ne hne, ih hn]

/-- Different indices are different addresses. -/
theorem index_ne {dest : BitVec w} {n i : ℕ} (hn : n < 2 ^ w) (hi : i < n) :
    dest + BitVec.ofNat w i ≠ dest + BitVec.ofNat w n := by
  intro h
  have h' := congrArg BitVec.toNat (add_left_cancel h)
  rw [BitVec.toNat_ofNat, BitVec.toNat_ofNat, Nat.mod_eq_of_lt hn, Nat.mod_eq_of_lt (hi.trans hn)] at h'
  omega

/-- A copy from outside of its destination. -/
theorem copy_apply {dest src : BitVec w} {n : ℕ} (hn : n ≤ 2 ^ w)
    (hsrc : (⟨src, n⟩ : Span w).Disjoint ⟨dest, n⟩) (mem : Memory w) {i : ℕ} (hi : i < n) :
    copy dest src n mem (dest + BitVec.ofNat w i) = mem (src + BitVec.ofNat w i) := by
  induction n with
  | zero => exact absurd hi i.not_lt_zero
  | succ n ih =>
    have hn' : src + BitVec.ofNat w n ∉ (⟨dest, n⟩ : Span w) := fun h =>
      hsrc _ (Span.mem_start_add (s := ⟨src, n + 1⟩) n.lt_succ_self) (Nat.lt_succ_of_lt h)
    rcases Nat.lt_succ_iff_lt_or_eq.1 hi with hlt | rfl
    · rw [copy, Function.update_of_ne (index_ne hn hlt)]
      refine ih (by omega) (fun a ha had => hsrc a (Nat.lt_succ_of_lt ha) (Nat.lt_succ_of_lt had)) hlt
    · rw [copy, Function.update_self, copy_of_notMem hn']

theorem fill_apply {dest : BitVec w} {n : ℕ} (hn : n ≤ 2 ^ w) (val : BitVec 8) (mem : Memory w)
    {i : ℕ} (hi : i < n) :
    fill dest val n mem (dest + BitVec.ofNat w i) = val := by
  induction n with
  | zero => exact absurd hi i.not_lt_zero
  | succ n ih =>
    rcases Nat.lt_succ_iff_lt_or_eq.1 hi with hlt | rfl
    · rw [fill, Function.update_of_ne (index_ne hn hlt), ih (by omega) hlt]
    · rw [fill, Function.update_self]

/-! ## Memories that agree -/

/-- Two memories with the same bytes in a span. -/
def AgreeOn (s : Span w) (mem mem' : Memory w) : Prop := ∀ a ∈ s, mem a = mem' a

theorem AgreeOn.load32 {s : Span w} {mem mem' : Memory w} (h : AgreeOn s mem mem') {p : BitVec w}
    (hp : (⟨p, 4⟩ : Span w) ⊆ s) : mem.load32 p = mem'.load32 p := by
  have hmem : ∀ i < 4, mem (p + BitVec.ofNat w i) = mem' (p + BitVec.ofNat w i) :=
    fun i hi => h _ (hp _ (Span.mem_start_add hi))
  have h₀ : mem p = mem' p := by simpa using hmem 0 (by omega)
  simp only [Memory.load32]
  rw [h₀]
  congr 1
  congr 1
  · congr 1
    · exact hmem 3 (by omega)
    · exact hmem 2 (by omega)
  · exact hmem 1 (by omega)

theorem AgreeOn.symm {s : Span w} {mem mem' : Memory w} (h : AgreeOn s mem mem') :
    AgreeOn s mem' mem :=
  fun a ha => (h a ha).symm

theorem AgreeOn.load64 {s : Span w} {mem mem' : Memory w} (h : AgreeOn s mem mem') {p : BitVec w}
    (hp : (⟨p, 8⟩ : Span w) ⊆ s) : mem.load64 p = mem'.load64 p := by
  have hlo : (⟨p, 4⟩ : Span w) ⊆ s := fun a ha => hp a (Nat.lt_of_lt_of_le ha (by omega : 4 ≤ 8))
  have hhi : (⟨p + 4, 4⟩ : Span w) ⊆ s := by
    intro a ha
    obtain ⟨i, hi, rfl⟩ := Span.exists_index ha
    have hlt : 4 + i < 8 := by
      have : i < 4 := hi
      omega
    have hmem := hp _ (Span.mem_start_add (s := ⟨p, 8⟩) hlt)
    rwa [BitVec.ofNat_add, ← add_assoc] at hmem
  rw [Memory.load64, Memory.load64, h.load32 hlo, h.load32 hhi]

/-! ## What a store does -/

/-- The word is written at `p`, its lowest byte first. -/
def store64 (p : BitVec w) (v : BitVec 64) (mem : Memory w) : Memory w :=
  fun a => if (a - p).toNat < 8 then v.extractLsb' (8 * (a - p).toNat) 8 else mem a

theorem store64_of_notMem {p a : BitVec w} (h : a ∉ (⟨p, 8⟩ : Span w)) (v : BitVec 64)
    (mem : Memory w) : store64 p v mem a = mem a :=
  if_neg h

theorem store64_apply (hw : 8 ≤ 2 ^ w) (p : BitVec w) (v : BitVec 64) (mem : Memory w) {i : ℕ}
    (hi : i < 8) : store64 p v mem (p + BitVec.ofNat w i) = v.extractLsb' (8 * i) 8 := by
  have hsub : (p + BitVec.ofNat w i - p).toNat = i := by
    rw [add_sub_cancel_left, BitVec.toNat_ofNat, Nat.mod_eq_of_lt (by omega)]
  rw [store64, hsub, if_pos hi]

theorem load64_store64 (hw : 8 ≤ 2 ^ w) (p : BitVec w) (v : BitVec 64) (mem : Memory w) :
    (store64 p v mem).load64 p = v := by
  have hbyte : ∀ i < 8, store64 p v mem (p + BitVec.ofNat w i) = v.extractLsb' (8 * i) 8 :=
    fun i hi => store64_apply hw p v mem hi
  have hupper : ∀ i, p + BitVec.ofNat w 4 + BitVec.ofNat w i = p + BitVec.ofNat w (4 + i) := by
    intro i
    rw [BitVec.ofNat_add, add_assoc]
  have hzero : ∀ q : BitVec w, q + BitVec.ofNat w 0 = q := fun q => add_zero q
  have hword : ∀ q : BitVec w, (store64 p v mem).load32 q =
      store64 p v mem (q + BitVec.ofNat w 3) ++ store64 p v mem (q + BitVec.ofNat w 2) ++
        store64 p v mem (q + BitVec.ofNat w 1) ++ store64 p v mem (q + BitVec.ofNat w 0) := by
    intro q
    rw [hzero]
    rfl
  have hload : (store64 p v mem).load64 p =
      (store64 p v mem).load32 (p + BitVec.ofNat w 4) ++ (store64 p v mem).load32 p := rfl
  rw [hload, hword, hword, hupper, hupper, hupper, hupper, hbyte 0 (by decide), hbyte 1 (by decide),
    hbyte 2 (by decide), hbyte 3 (by decide), hbyte (4 + 0) (by decide), hbyte (4 + 1) (by decide),
    hbyte (4 + 2) (by decide), hbyte (4 + 3) (by decide)]
  ext i hi
  simp only [BitVec.getElem_append, BitVec.getElem_extractLsb']
  grind

theorem load64_store64_of_disjoint {p q : BitVec w} (h : (⟨p, 8⟩ : Span w).Disjoint ⟨q, 8⟩)
    (v : BitVec 64) (mem : Memory w) : (store64 q v mem).load64 p = mem.load64 p :=
  AgreeOn.load64 (fun _ ha => store64_of_notMem (h _ ha) v mem) fun _ ha => ha

end Memory

end PocketDarwin
