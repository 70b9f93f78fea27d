/-
  The pages of physical memory (`pmap.c`): how they are handed out before there is a VM
  system, which of them are managed, and how they are copied.

  The functions that say where the managed pages begin and end do not agree: the first page that
  is handed out is not valid, and the page behind the last one may be cleared.

  * `nextPages_spec`: what any number of calls of `pmap_next_page` hands out.
  * `handsOut_never`: pages that are handed out are not told apart from the others.
  * `copies_iff`: a part of a page is copied to where it was in the other page.
-/
import PocketDarwin.Span

namespace PocketDarwin.Pmap

/-- `ppnum_t`, and addresses of 32 bits. -/
abbrev PageNum := BitVec 32

/-- `PAGE_SIZE` -/
def pageBytes : ℕ := 0x1000

/-- `p << PAGE_SHIFT` -/
def pageAddr (p : PageNum) : BitVec 32 := p <<< 12

/-! ## Handing out -/

/-- The variables of the region of pages. -/
structure Region where
  firstAvail : BitVec 32
  availStart : BitVec 32
  availEnd : BitVec 32
  availRemaining : BitVec 32

/-- `pmap_bootstrap`, for the pages from `firstAvail` on. -/
def pmapBootstrap (firstAvail availEnd : BitVec 32) : Region where
  firstAvail := firstAvail
  availStart := firstAvail
  availEnd := availEnd
  availRemaining := (availEnd - firstAvail) >>> 12

/-- `pmap_next_page`: the page, or `none` for `FALSE`. -/
def pmapNextPage (r : Region) : Option PageNum × Region :=
  if r.availEnd ≤ r.firstAvail then (none, r)
  else
    (some (r.firstAvail >>> 12),
      { r with firstAvail := r.firstAvail + 0x1000, availRemaining := r.availRemaining - 1 })

def pmapFreePages (r : Region) : BitVec 32 := r.availRemaining

def pmapValidPage (r : Region) (p : PageNum) : Prop :=
  r.availStart < pageAddr p ∧ pageAddr p < r.availEnd

/-- `pmap_zero_page` does not panic. -/
def pmapZeroPageAccepts (r : Region) (p : PageNum) : Prop :=
  ¬ (pageAddr p < r.availStart ∨ r.availEnd < pageAddr p)

instance (r : Region) (p : PageNum) : Decidable (pmapValidPage r p) :=
  inferInstanceAs (Decidable (_ ∧ _))

instance (r : Region) (p : PageNum) : Decidable (pmapZeroPageAccepts r p) :=
  inferInstanceAs (Decidable (¬ _))

/-- The pages that `n` calls return, and the region behind them. -/
def nextPages : ℕ → Region → List PageNum × Region
  | 0, r => ([], r)
  | n + 1, r =>
    let next := pmapNextPage r
    let rest := nextPages n next.2
    (next.1.toList ++ rest.1, rest.2)

/-- A region from `firstAvail` to `availEnd`. -/
structure Bounds (firstAvail availEnd : BitVec 32) : Prop where
  first_aligned : firstAvail.toNat % pageBytes = 0
  end_aligned : availEnd.toNat % pageBytes = 0
  lt : firstAvail < availEnd

/-- The number of pages of a region. -/
def pageCount (firstAvail availEnd : BitVec 32) : ℕ :=
  (availEnd.toNat - firstAvail.toNat) / pageBytes

/-- What `pmap_next_page` hands out, and what is known of it. -/
structure HandsOut (firstAvail availEnd : BitVec 32) : Prop where
  nodup : ∀ n, (nextPages n (pmapBootstrap firstAvail availEnd)).1.Nodup
  inside : ∀ n, ∀ p ∈ (nextPages n (pmapBootstrap firstAvail availEnd)).1,
    firstAvail ≤ pageAddr p ∧ pageAddr p < availEnd
  count : ∀ n, (nextPages n (pmapBootstrap firstAvail availEnd)).1.length =
    min n (pmapBootstrap firstAvail availEnd).availRemaining.toNat
  free : ∀ n, (pmapFreePages (nextPages n (pmapBootstrap firstAvail availEnd)).2).toNat =
    (pmapBootstrap firstAvail availEnd).availRemaining.toNat -
      (nextPages n (pmapBootstrap firstAvail availEnd)).1.length
  valid : ∀ n, ∀ p ∈ (nextPages n (pmapBootstrap firstAvail availEnd)).1,
    pmapValidPage (nextPages n (pmapBootstrap firstAvail availEnd)).2 p ∧
      pmapZeroPageAccepts (nextPages n (pmapBootstrap firstAvail availEnd)).2 p
  outside : ∀ n p, availEnd.toNat ≤ p.toNat * pageBytes → p.toNat * pageBytes < 2 ^ 32 →
    ¬ pmapValidPage (nextPages n (pmapBootstrap firstAvail availEnd)).2 p ∧
      ¬ pmapZeroPageAccepts (nextPages n (pmapBootstrap firstAvail availEnd)).2 p

/-- The variables fit together: what is left is counted. -/
structure Region.Counted (r : Region) : Prop where
  first_aligned : r.firstAvail.toNat % pageBytes = 0
  end_aligned : r.availEnd.toNat % pageBytes = 0
  le : r.firstAvail.toNat ≤ r.availEnd.toNat
  remaining : r.availRemaining.toNat = pageCount r.firstAvail r.availEnd

section
variable {firstAvail availEnd : BitVec 32} {r : Region} {p : PageNum}

theorem toNat_pageAddr (h : p.toNat * pageBytes < 2 ^ 32) :
    (pageAddr p).toNat = p.toNat * pageBytes := by
  rw [pageBytes] at h ⊢
  rw [pageAddr, BitVec.toNat_shiftLeft, Nat.shiftLeft_eq, Nat.mod_eq_of_lt h]

theorem Bounds.counted (h : Bounds firstAvail availEnd) :
    (pmapBootstrap firstAvail availEnd).Counted where
  first_aligned := h.first_aligned
  end_aligned := h.end_aligned
  le := Nat.le_of_lt h.lt
  remaining := by
    have hle : firstAvail.toNat ≤ availEnd.toNat := Nat.le_of_lt h.lt
    show ((availEnd - firstAvail) >>> 12).toNat = (availEnd.toNat - firstAvail.toNat) / pageBytes
    rw [BitVec.toNat_ushiftRight, Nat.shiftRight_eq_div_pow, BitVec.toNat_sub_of_le hle]
    rfl

/-- **`pmap_next_page`** takes the first of the pages that are left. -/
theorem pmapNextPage_spec (h : r.Counted) :
    (pmapNextPage r = (none, r) ∧ pageCount r.firstAvail r.availEnd = 0) ∨
      ∃ p r', pmapNextPage r = (some p, r') ∧ r'.Counted ∧ r'.availStart = r.availStart ∧
        r'.availEnd = r.availEnd ∧ p.toNat * pageBytes = r.firstAvail.toNat ∧
        pageCount r.firstAvail r.availEnd = pageCount r'.firstAvail r'.availEnd + 1 ∧
        r'.firstAvail.toNat = r.firstAvail.toNat + pageBytes := by
  obtain ⟨hfirst, hend, hle, hremaining⟩ := h
  rw [pageCount] at hremaining
  rw [pageBytes] at hfirst hend hremaining
  have hlt := r.availEnd.isLt
  rw [pmapNextPage, pageCount, pageBytes]
  by_cases hdone : r.availEnd ≤ r.firstAvail
  · refine .inl ⟨if_pos hdone, ?_⟩
    have hdone' : r.availEnd.toNat ≤ r.firstAvail.toNat := hdone
    omega
  · have hroom : r.firstAvail.toNat < r.availEnd.toNat := not_le.1 hdone
    have hnext : (r.firstAvail + 0x1000).toNat = r.firstAvail.toNat + 0x1000 := by
      rw [BitVec.toNat_add_of_lt]
      · rfl
      · show r.firstAvail.toNat + 0x1000 < 2 ^ 32
        omega
    have hpage : (r.firstAvail >>> 12).toNat = r.firstAvail.toNat / 0x1000 := by
      rw [BitVec.toNat_ushiftRight, Nat.shiftRight_eq_div_pow]
    have hleft : (r.availRemaining - 1).toNat = r.availRemaining.toNat - 1 := by
      rw [BitVec.toNat_sub_of_le]
      · rfl
      · show 1 ≤ r.availRemaining.toNat
        omega
    refine .inr ⟨_, _, if_neg hdone, ⟨?_, hend, ?_, ?_⟩, rfl, rfl, ?_, ?_, hnext⟩
    · show (r.firstAvail + 0x1000).toNat % 0x1000 = 0
      omega
    · show (r.firstAvail + 0x1000).toNat ≤ r.availEnd.toNat
      omega
    · show (r.availRemaining - 1).toNat =
        (r.availEnd.toNat - (r.firstAvail + 0x1000).toNat) / 0x1000
      omega
    · rw [hpage]
      omega
    · show _ = (r.availEnd.toNat - (r.firstAvail + 0x1000).toNat) / 0x1000 + 1
      omega

/-- **The pages that are handed out** are those from the first one on, as many as there are. -/
theorem nextPages_spec (h : r.Counted) (n : ℕ) :
    (nextPages n r).1.map BitVec.toNat =
        List.range' (r.firstAvail.toNat / pageBytes) (min n (pageCount r.firstAvail r.availEnd)) ∧
      (nextPages n r).2.availStart = r.availStart ∧ (nextPages n r).2.availEnd = r.availEnd ∧
      (pmapFreePages (nextPages n r).2).toNat =
        r.availRemaining.toNat - min n (pageCount r.firstAvail r.availEnd) := by
  induction n generalizing r with
  | zero =>
    rw [Nat.zero_min]
    exact ⟨rfl, rfl, rfl, rfl⟩
  | succ n ih =>
    rw [nextPages]
    dsimp only
    rcases pmapNextPage_spec h with
      ⟨hnext, hcount⟩ | ⟨p, r', hnext, hcounted, hstart, hend, hp, hcount, hfirst⟩
    · rw [hnext, hcount]
      have hrest := ih h
      rw [hcount, Nat.min_zero] at hrest
      exact hrest
    · rw [hnext, hcount, Nat.succ_min_succ]
      obtain ⟨hpages, hstart', hend', hfree⟩ := ih hcounted
      have hp' : p.toNat = r.firstAvail.toNat / pageBytes := by
        rw [pageBytes] at hp ⊢
        omega
      have hfirst' : r'.firstAvail.toNat / pageBytes = r.firstAvail.toNat / pageBytes + 1 := by
        rw [pageBytes] at hfirst ⊢
        omega
      refine ⟨?_, hstart'.trans hstart, hend'.trans hend, ?_⟩
      · show p.toNat :: (nextPages n r').1.map BitVec.toNat = _
        rw [hpages, List.range'_succ, hp', hfirst']
      · rw [hfree, hcounted.remaining, h.remaining, hcount]
        omega

/-- Which pages are valid is told by the bounds of the region. -/
theorem mem_nextPages (h : Bounds firstAvail availEnd) {n : ℕ}
    (hp : p ∈ (nextPages n (pmapBootstrap firstAvail availEnd)).1) :
    firstAvail.toNat ≤ p.toNat * pageBytes ∧ p.toNat * pageBytes < availEnd.toNat := by
  have hmem := List.mem_map_of_mem (f := BitVec.toNat) hp
  rw [(nextPages_spec h.counted n).1, List.mem_range'_1] at hmem
  have hfirst : (pmapBootstrap firstAvail availEnd).firstAvail = firstAvail := rfl
  have hend : (pmapBootstrap firstAvail availEnd).availEnd = availEnd := rfl
  obtain ⟨hfirst', hend', -⟩ := h
  rw [hfirst, hend, pageCount] at hmem
  rw [pageBytes] at hmem hfirst' hend' ⊢
  omega

/-- **What is right** about the pages that are handed out. -/
theorem handsOut_parts (h : Bounds firstAvail availEnd) (n : ℕ) :
    let handed := nextPages n (pmapBootstrap firstAvail availEnd)
    handed.1.Nodup ∧ handed.1.length = min n (pageCount firstAvail availEnd) ∧
      (pmapFreePages handed.2).toNat = pageCount firstAvail availEnd - handed.1.length ∧
      ∀ p ∈ handed.1, pmapZeroPageAccepts handed.2 p ∧
        (pmapValidPage handed.2 p ↔ pageAddr p ≠ firstAvail) := by
  obtain ⟨hpages, hstart, hend, hfree⟩ := nextPages_spec h.counted n
  have hlen : (nextPages n (pmapBootstrap firstAvail availEnd)).1.length =
      min n (pageCount firstAvail availEnd) := by
    rw [← List.length_map BitVec.toNat, hpages, List.length_range']
    rfl
  refine ⟨?_, hlen, ?_, fun p hp => ?_⟩
  · refine List.Nodup.of_map BitVec.toNat ?_
    rw [hpages]
    exact List.nodup_range'
  · rw [hfree, h.counted.remaining, hlen]
    rfl
  · obtain ⟨hle, hlt⟩ := mem_nextPages h hp
    have haddr := toNat_pageAddr (hlt.trans availEnd.isLt)
    rw [pmapZeroPageAccepts, pmapValidPage, hstart, hend, BitVec.lt_def, BitVec.lt_def,
      BitVec.lt_def, BitVec.lt_def, haddr, ne_eq, ← BitVec.toNat_inj, haddr]
    show ¬ (p.toNat * pageBytes < firstAvail.toNat ∨ availEnd.toNat < p.toNat * pageBytes) ∧
      (firstAvail.toNat < p.toNat * pageBytes ∧ p.toNat * pageBytes < availEnd.toNat ↔ _)
    omega

/-- **No region** is told apart from what is outside: the page behind the last one may be
    cleared. -/
theorem handsOut_never (h : Bounds firstAvail availEnd) : ¬ HandsOut firstAvail availEnd := by
  intro hands
  have hroom : firstAvail.toNat < availEnd.toNat := h.lt
  obtain ⟨hlt, hend⟩ : (availEnd >>> 12).toNat * pageBytes < 2 ^ 32 ∧
      (availEnd >>> 12).toNat * pageBytes = availEnd.toNat := by
    have haligned := h.end_aligned
    have hisLt := availEnd.isLt
    rw [BitVec.toNat_ushiftRight, Nat.shiftRight_eq_div_pow]
    rw [pageBytes] at haligned ⊢
    omega
  refine (hands.outside 0 (availEnd >>> 12) hend.ge hlt).2 ?_
  rw [pmapZeroPageAccepts, BitVec.lt_def, BitVec.lt_def, toNat_pageAddr hlt, hend]
  show ¬ (availEnd.toNat < firstAvail.toNat ∨ availEnd.toNat < availEnd.toNat)
  omega

end

/-- One page. -/
theorem handsOut_one : Bounds 0x1000 0x2000 ∧ ¬ HandsOut 0x1000 0x2000 := by
  have h : Bounds 0x1000 0x2000 := ⟨by decide, by decide, by decide⟩
  exact ⟨h, handsOut_never h⟩

/-- The only page of a region is not valid, and the next one may be cleared. -/
theorem first_page_not_valid :
    (nextPages 1 (pmapBootstrap 0x1000 0x2000)).1 = [1] ∧
      ¬ pmapValidPage (nextPages 1 (pmapBootstrap 0x1000 0x2000)).2 1 ∧
      pmapZeroPageAccepts (nextPages 1 (pmapBootstrap 0x1000 0x2000)).2 2 ∧
      ¬ HandsOut 0x1000 0x2000 := by
  refine ⟨by decide, by decide, by decide, fun hands => ?_⟩
  exact absurd (hands.valid 1 1 (by decide)).1 (by decide)

/-! ## Copying -/

/-- Where physical memory is mapped. -/
structure Mapped where
  gPhysBase : BitVec 32
  gVirtBase : BitVec 32

def physToVirt (k : Mapped) (p : BitVec 32) : BitVec 32 := p - k.gPhysBase + k.gVirtBase

section
variable (k : Mapped)

def pmapCopyPage (src dst : PageNum) (mem : Memory 32) : Memory 32 :=
  mem.move (physToVirt k (pageAddr dst)) (physToVirt k (pageAddr src)) pageBytes

/-- `pmap_copy_part_page`: the offset in the destination is that in the source. -/
def pmapCopyPartPage (src : PageNum) (srcOffset : BitVec 32) (dst : PageNum)
    (_dstOffset len : BitVec 32) (mem : Memory 32) : Memory 32 :=
  mem.move (physToVirt k (pageAddr dst) + srcOffset) (physToVirt k (pageAddr src) + srcOffset)
    len.toNat

/-- The bytes get to where they should, whatever is in memory, and no other one changes. -/
def Copies (src : PageNum) (srcOffset : BitVec 32) (dst : PageNum) (dstOffset len : BitVec 32) :
    Prop :=
  ∀ mem : Memory 32,
    (∀ i < len.toNat, pmapCopyPartPage k src srcOffset dst dstOffset len mem
        (physToVirt k (pageAddr dst) + dstOffset + BitVec.ofNat 32 i) =
      mem (physToVirt k (pageAddr src) + srcOffset + BitVec.ofNat 32 i)) ∧
    ∀ a, a ∉ (⟨physToVirt k (pageAddr dst) + dstOffset, len.toNat⟩ : Span 32) →
      pmapCopyPartPage k src srcOffset dst dstOffset len mem a = mem a

end

section
variable {k : Mapped} {src dst : PageNum} {srcOffset dstOffset len : BitVec 32}

theorem pageAddr_mod (p : PageNum) : (pageAddr p).toNat % pageBytes = 0 := by
  rw [pageAddr, BitVec.toNat_shiftLeft, Nat.shiftLeft_eq, pageBytes]
  omega

/-- Bytes at different offsets are different, in whatever pages they are. -/
theorem byte_ne (hsrc : srcOffset.toNat + len.toNat ≤ pageBytes)
    (hdst : dstOffset.toNat + len.toNat ≤ pageBytes) (hne : srcOffset ≠ dstOffset) {i : ℕ}
    (hi : i < len.toNat) :
    physToVirt k (pageAddr dst) + dstOffset + BitVec.ofNat 32 i ≠
      physToVirt k (pageAddr src) + srcOffset + BitVec.ofNat 32 i := by
  intro h
  have hoffsets : pageAddr dst + dstOffset = pageAddr src + srcOffset := by
    have hshift : ∀ p offset : BitVec 32,
        physToVirt k p + offset = p + offset + (k.gVirtBase - k.gPhysBase) := by
      intro p offset
      rw [physToVirt, sub_add_eq_add_sub, add_sub_assoc, add_assoc, add_assoc,
        add_comm offset]
    have h := add_right_cancel h
    rw [hshift, hshift] at h
    exact add_right_cancel h
  have hdst₀ := pageAddr_mod dst
  have hsrc₀ := pageAddr_mod src
  refine hne (BitVec.eq_of_toNat_eq ?_)
  have h' := congrArg BitVec.toNat hoffsets
  rw [BitVec.toNat_add, BitVec.toNat_add] at h'
  rw [pageBytes] at hsrc hdst hdst₀ hsrc₀
  omega

/-- A byte that should be written, and is not, if the offsets are different. -/
theorem exists_left_out (hsrc : srcOffset.toNat + len.toNat ≤ pageBytes)
    (hdst : dstOffset.toNat + len.toNat ≤ pageBytes) (hne : srcOffset ≠ dstOffset)
    (hlen : 0 < len.toNat) (p : BitVec 32) :
    ∃ i < len.toNat, p + dstOffset + BitVec.ofNat 32 i ∉
      (⟨p + srcOffset, len.toNat⟩ : Span 32) := by
  have hdiff : ∀ i < len.toNat, (p + dstOffset + BitVec.ofNat 32 i - (p + srcOffset)).toNat =
      (dstOffset.toNat + i + (2 ^ 32 - srcOffset.toNat)) % 2 ^ 32 := by
    intro i hi
    have hsum : p + dstOffset + BitVec.ofNat 32 i - (p + srcOffset) =
        dstOffset + BitVec.ofNat 32 i - srcOffset := by
      rw [add_assoc, add_sub_add_left_eq_sub]
    rw [hsum]
    rw [pageBytes] at hdst hsrc
    rw [BitVec.toNat_sub, BitVec.toNat_add, BitVec.toNat_ofNat]
    omega
  have hne' : srcOffset.toNat ≠ dstOffset.toNat := fun h => hne (BitVec.eq_of_toNat_eq h)
  rw [pageBytes] at hsrc hdst
  rcases Nat.lt_or_gt_of_ne hne' with hlt | hlt
  · refine ⟨len.toNat - 1, by omega, ?_⟩
    rw [Span.mem_def, hdiff _ (by omega)]
    dsimp only
    omega
  · refine ⟨0, hlen, ?_⟩
    rw [Span.mem_def, hdiff _ hlen]
    dsimp only
    omega

/-- **A part of a page** is copied as it should be exactly if it is at the same offset in both, or
    if there is nothing to copy; a whole page always is. -/
theorem copies_iff (hsrc : srcOffset.toNat + len.toNat ≤ pageBytes)
    (hdst : dstOffset.toNat + len.toNat ≤ pageBytes) :
    (Copies k src srcOffset dst dstOffset len ↔ srcOffset = dstOffset ∨ len = 0) ∧
      pmapCopyPage k src dst = pmapCopyPartPage k src 0 dst 0 0x1000 := by
  constructor
  · constructor
    · intro hcopies
      by_contra hnot
      obtain ⟨hne, hlen⟩ := not_or.1 hnot
      have hpos : 0 < len.toNat := Nat.pos_of_ne_zero fun h => hlen (BitVec.eq_of_toNat_eq h)
      obtain ⟨i, hi, hout⟩ := exists_left_out hsrc hdst hne hpos (physToVirt k (pageAddr dst))
      -- a memory with a mark on the byte that should be copied
      let mem : Memory 32 := fun a =>
        if a = physToVirt k (pageAddr src) + srcOffset + BitVec.ofNat 32 i then 1 else 0
      have hmark := (hcopies mem).1 i hi
      rw [pmapCopyPartPage, Memory.move_of_notMem hout] at hmark
      simp only [mem, if_neg (byte_ne hsrc hdst hne hi), if_true] at hmark
      exact absurd hmark (by decide)
    · intro h mem
      rcases h with rfl | rfl
      · exact ⟨fun i hi => Memory.move_apply hi mem, fun a ha => Memory.move_of_notMem ha _ mem⟩
      · refine ⟨fun i hi => absurd hi (Nat.not_lt_zero i), fun a _ => ?_⟩
        exact Memory.move_of_notMem (fun ha => absurd ha (Nat.not_lt_zero _)) _ mem
  · funext mem
    rw [pmapCopyPage, pmapCopyPartPage, add_zero, add_zero]
    rfl

end

/-- At the same offset. -/
theorem copies_same_offset :
    Copies ⟨0, 0⟩ 1 0x10 2 0x10 4 ∧ pmapCopyPage ⟨0, 0⟩ 1 2 = pmapCopyPartPage ⟨0, 0⟩ 1 0 2 0
      0x1000 := by
  have h := @copies_iff ⟨0, 0⟩ 1 2 0x10 0x10 4 (by decide) (by decide)
  exact ⟨h.1.2 (.inl rfl), h.2⟩

/-- A byte that is to be moved by one is written to where it was in the other page. -/
theorem copied_elsewhere :
    let mem : Memory 32 := fun a => if a = 0x1000 then 1 else 0
    pmapCopyPartPage ⟨0, 0⟩ 1 0 2 1 1 mem 0x2000 = 1 ∧
      pmapCopyPartPage ⟨0, 0⟩ 1 0 2 1 1 mem 0x2001 = 0 ∧ ¬ Copies ⟨0, 0⟩ 1 0 2 1 1 := by
  refine ⟨by decide, by decide, fun hcopies => ?_⟩
  exact absurd ((hcopies fun a => if a = 0x1000 then 1 else 0).1 0 (by decide)) (by decide)

end PocketDarwin.Pmap
