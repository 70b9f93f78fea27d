/-
  The heap of minlibc (`libc.c`): one pointer, which starts behind the program and only grows.

  `malloc` returns the pointer and advances it; `calloc` and `strdup` write into what it returned;
  `free` does nothing, and `realloc` is `malloc`.  Nothing is checked, so that sizes and addresses
  wrap around.

  * `heap_run`: as long as what is asked for fits behind the program, blocks are disjoint, and no
    call changes one that was returned before.
  * `contract_run`: a history keeps to the contract of the C library exactly if no call finds the
    pointer unaligned or too near to the end of the address space, and each `realloc` finds the
    bytes that it should copy at the pointer already.
-/
import PocketDarwin.Runs
import PocketDarwin.Span

namespace PocketDarwin.Minlibc

variable {w : ℕ}

/-! ## Strings -/

/-- The loop of `strlen`, of at most so many rounds. -/
def strlenFrom (mem : Memory w) (s : BitVec w) : ℕ → ℕ → Option ℕ
  | 0, _ => none
  | fuel + 1, len =>
    if mem (s + BitVec.ofNat w len) = 0 then some len else strlenFrom mem s fuel (len + 1)

/-- `none` if no byte of the memory is zero. -/
def strlen (mem : Memory w) (s : BitVec w) : Option ℕ := strlenFrom mem s (2 ^ w) 0

/-- The loop of `strcpy`, of at most so many rounds. -/
def strcpyFrom (dest src : BitVec w) : ℕ → ℕ → Memory w → Option (Memory w)
  | 0, _, _ => none
  | fuel + 1, i, mem =>
    let b := mem (src + BitVec.ofNat w i)
    let mem := Function.update mem (dest + BitVec.ofNat w i) b
    if b = 0 then some mem else strcpyFrom dest src fuel (i + 1) mem

/-- `none` if there is no end: once the loop has been through all addresses, no byte is zero any more. -/
def strcpy (dest src : BitVec w) (mem : Memory w) : Option (Memory w) :=
  strcpyFrom dest src (2 ^ w) 0 mem

/-! ## The heap -/

/-- The pointer of `malloc`, and the memory. -/
structure Heap (w : ℕ) where
  heapPtr : BitVec w
  mem : Memory w

namespace Heap
variable (h : Heap w)

def malloc (size : BitVec w) : BitVec w × Heap w :=
  (h.heapPtr, { h with heapPtr := h.heapPtr + size })

def calloc (nmemb size : BitVec w) : BitVec w × Heap w :=
  let total := nmemb * size
  let (ptr, h) := h.malloc total
  if ptr ≠ 0 then (ptr, { h with mem := h.mem.fill ptr 0 total.toNat }) else (ptr, h)

def realloc (_ptr size : BitVec w) : BitVec w × Heap w := h.malloc size

/-- `none` if it does not return. -/
def strdup (s : BitVec w) : Option (BitVec w × Heap w) :=
  (strlen h.mem s).bind fun n =>
    let len := BitVec.ofNat w n + 1
    let (dup, h) := h.malloc len
    if dup ≠ 0 then (strcpy dup s h.mem).map fun mem => (dup, { h with mem }) else some (dup, h)

end Heap

/-- The calls of a program, and the bytes that it stores itself.  `realloc` is of a block that was returned before. -/
inductive Call (w : ℕ) where
  | malloc (size : BitVec w)
  | calloc (nmemb size : BitVec w)
  | realloc (block : Span w) (size : BitVec w)
  | strdup (s : BitVec w)
  | free (ptr : BitVec w)
  | store (a : BitVec w) (b : BitVec 8)

/-- The pointer that is returned, and the heap after the call. -/
def Heap.call (h : Heap w) : Call w → Option (BitVec w × Heap w)
  | .malloc size => some (h.malloc size)
  | .calloc nmemb size => some (h.calloc nmemb size)
  | .realloc block size => some (h.realloc block.start size)
  | .strdup s => h.strdup s
  | .free _ => some (0, h)
  | .store a b => some (0, { h with mem := Function.update h.mem a b })

/-- The number of bytes that is asked for. -/
def Heap.size (h : Heap w) : Call w → ℕ
  | .malloc size | .realloc _ size => size.toNat
  | .calloc nmemb size => nmemb.toNat * size.toNat
  | .strdup s => ((strlen h.mem s).map (· + 1)).getD 0
  | .free _ | .store _ _ => 0

/-- The call returns a block. -/
def Call.allocates : Call w → Bool
  | .free _ | .store _ _ => false
  | _ => true

/-- The call is one of the library. -/
def Call.isCall : Call w → Bool
  | .store _ _ => false
  | _ => true

/-- A heap, and the blocks that were returned. -/
abbrev History (w : ℕ) := Heap w × List (Span w)

/-- A call, unless one has not returned. -/
def step (x : Option (History w)) (c : Call w) : Option (History w) :=
  x.bind fun x => (x.1.call c).map fun r =>
    (r.2, if c.allocates then ⟨r.1, x.1.size c⟩ :: x.2 else x.2)

/-- What the calls of a program ask for, in all. -/
def requested (h : Heap w) : List (Call w) → ℕ
  | [] => 0
  | c :: log => h.size c + ((h.call c).map fun r => requested r.2 log).getD 0

/-- A string: it ends, and if it begins in memory that was given out it ends there. -/
def Heap.Terminated (h : Heap w) (s : BitVec w) : Prop :=
  ∃ n, strlen h.mem s = some n ∧
    (s.toNat + n < h.heapPtr.toNat ∨ h.heapPtr.toNat ≤ s.toNat ∧ s.toNat + n < 2 ^ w)

/-- What is asked for is not nothing; strings are strings. -/
def Heap.Proper (h : Heap w) : Call w → Prop
  | .malloc size | .realloc _ size => 0 < size.toNat
  | .calloc nmemb size => 0 < nmemb.toNat * size.toNat
  | .strdup s => h.Terminated s
  | .free _ | .store _ _ => True

/-! ## What strings do -/

section
variable {mem : Memory w} {s dest src : BitVec w} {n : ℕ}

theorem strlenFrom_eq_some {fuel len : ℕ} (h : strlenFrom mem s fuel len = some n) :
    len ≤ n ∧ n < len + fuel ∧ mem (s + BitVec.ofNat w n) = 0 ∧
      ∀ j, len ≤ j → j < n → mem (s + BitVec.ofNat w j) ≠ 0 := by
  induction fuel generalizing len with
  | zero => simp [strlenFrom] at h
  | succ fuel ih =>
    rw [strlenFrom] at h
    split_ifs at h with hzero
    · obtain rfl := Option.some.inj h
      exact ⟨le_rfl, by omega, hzero, fun j hle hlt => absurd hlt (by omega)⟩
    · obtain ⟨hle, hlt, hend, hrest⟩ := ih h
      refine ⟨by omega, by omega, hend, fun j hj hjn => ?_⟩
      rcases Nat.eq_or_lt_of_le hj with rfl | hj
      · exact hzero
      · exact hrest j hj hjn

theorem strlen_eq_some (h : strlen mem s = some n) :
    n < 2 ^ w ∧ mem (s + BitVec.ofNat w n) = 0 ∧ ∀ j < n, mem (s + BitVec.ofNat w j) ≠ 0 := by
  obtain ⟨-, hlt, hend, hrest⟩ := strlenFrom_eq_some h
  exact ⟨by omega, hend, fun j hj => hrest j (Nat.zero_le j) hj⟩

/-- **`strcpy`** is a copy, if no byte is overwritten before it is read. -/
theorem strcpy_eq (h : strlen mem src = some n)
    (hsrc : ∀ j ≤ n, src + BitVec.ofNat w j ∉ (⟨dest, j⟩ : Span w)) :
    strcpy dest src mem = some (mem.copy dest src (n + 1)) := by
  obtain ⟨hn, hend, hrest⟩ := strlen_eq_some h
  -- the loop has `i` rounds behind it
  have hloop : ∀ fuel i, i ≤ n → n < i + fuel →
      strcpyFrom dest src fuel i (mem.copy dest src i) = some (mem.copy dest src (n + 1)) := by
    intro fuel
    induction fuel with
    | zero => intro i hi hlt; omega
    | succ fuel ih =>
      intro i hi hlt
      have hread : mem.copy dest src i (src + BitVec.ofNat w i) = mem (src + BitVec.ofNat w i) :=
        Memory.copy_of_notMem (hsrc i hi) src mem
      have hnext : Function.update (mem.copy dest src i) (dest + BitVec.ofNat w i)
          (mem.copy dest src i (src + BitVec.ofNat w i)) = mem.copy dest src (i + 1) := rfl
      rw [strcpyFrom, hnext, hread]
      rcases Nat.eq_or_lt_of_le hi with rfl | hi
      · rw [if_pos hend]
      · rw [if_neg (hrest i hi)]
        exact ih (i + 1) hi (by omega)
  exact hloop (2 ^ w) 0 (Nat.zero_le n) (by omega)

end

/-! ## One call -/

section
variable {h : Heap w} {c : Call w} {start : BitVec w}

theorem strdup_spec {s : BitVec w} (hs : h.Terminated s)
    (hfits : h.heapPtr.toNat + h.size (.strdup s) ≤ 2 ^ w) :
    ∃ mem, h.strdup s = some (h.heapPtr, ⟨h.heapPtr + BitVec.ofNat w (h.size (.strdup s)), mem⟩) ∧
      ∀ a, a ∉ (⟨h.heapPtr, h.size (.strdup s)⟩ : Span w) → mem a = h.mem a := by
  obtain ⟨n, hn, hwithin⟩ := hs
  have hsize : h.size (.strdup s) = n + 1 := by rw [Heap.size, hn]; rfl
  have hnext : h.heapPtr + (BitVec.ofNat w n + 1) = h.heapPtr + BitVec.ofNat w (n + 1) := by
    rw [BitVec.ofNat_add]; rfl
  rw [hsize] at hfits ⊢
  rw [Heap.strdup, hn, Option.bind_some]
  simp only [Heap.malloc, hnext]
  by_cases hnull : h.heapPtr ≠ 0
  · have hcopy : strcpy h.heapPtr s h.mem = some (h.mem.copy h.heapPtr s (n + 1)) := by
      refine strcpy_eq hn fun j hj => ?_
      rw [Span.mem_iff_of_le (by dsimp only; omega)]
      have hadd : (s + BitVec.ofNat w j).toNat = s.toNat + j := by
        have := h.heapPtr.isLt
        rw [BitVec.toNat_add, BitVec.toNat_ofNat, Nat.mod_eq_of_lt (a := j) (by omega),
          Nat.mod_eq_of_lt (by omega)]
      rw [hadd]
      dsimp only
      omega
    rw [if_pos hnull, hcopy]
    exact ⟨_, rfl, fun a ha => Memory.copy_of_notMem ha s h.mem⟩
  · rw [if_neg hnull]
    exact ⟨h.mem, rfl, fun _ _ => rfl⟩

/-- **One call** returns the pointer, advances it by what is asked for, and writes to the new block only. -/
theorem call_spec (hproper : h.Proper c) (hfits : h.heapPtr.toNat + h.size c ≤ 2 ^ w) :
    ∃ p mem, h.call c = some (p, ⟨h.heapPtr + BitVec.ofNat w (h.size c), mem⟩) ∧
      (c.allocates = true → p = h.heapPtr) ∧
      (c.isCall = true → ∀ a, a ∉ (⟨h.heapPtr, h.size c⟩ : Span w) → mem a = h.mem a) := by
  cases c with
  | malloc size =>
    refine ⟨h.heapPtr, h.mem, ?_, fun _ => rfl, fun _ _ _ => rfl⟩
    simp [Heap.call, Heap.malloc, Heap.size]
  | realloc block size =>
    refine ⟨h.heapPtr, h.mem, ?_, fun _ => rfl, fun _ _ _ => rfl⟩
    simp [Heap.call, Heap.realloc, Heap.malloc, Heap.size]
  | calloc nmemb size =>
    have htotal : nmemb * size = BitVec.ofNat w (nmemb.toNat * size.toNat) := by
      apply BitVec.eq_of_toNat_eq
      rw [BitVec.toNat_mul, BitVec.toNat_ofNat]
    have hle : (nmemb * size).toNat ≤ nmemb.toNat * size.toNat := by
      rw [BitVec.toNat_mul]
      exact Nat.mod_le _ _
    rw [Heap.call, Heap.calloc, Heap.malloc, Heap.size]
    dsimp only
    by_cases hnull : h.heapPtr ≠ 0
    · rw [if_pos hnull, ← htotal]
      refine ⟨h.heapPtr, _, rfl, fun _ => rfl,
        fun _ a ha => Memory.fill_of_notMem (fun hin => ha ?_) 0 h.mem⟩
      exact Nat.lt_of_lt_of_le hin hle
    · rw [if_neg hnull, ← htotal]
      exact ⟨h.heapPtr, h.mem, rfl, fun _ => rfl, fun _ _ _ => rfl⟩
  | strdup s =>
    obtain ⟨mem, hcall, hmem⟩ := strdup_spec hproper hfits
    exact ⟨h.heapPtr, mem, hcall, fun _ => rfl, fun _ => hmem⟩
  | free ptr =>
    refine ⟨0, h.mem, ?_, fun hblock => ?_, fun _ _ _ => rfl⟩
    · simp [Heap.call, Heap.size]
    · simp [Call.allocates] at hblock
  | store a b =>
    refine ⟨0, Function.update h.mem a b, ?_, fun hblock => ?_, fun hcall => ?_⟩
    · simp [Heap.call, Heap.size]
    · simp [Call.allocates] at hblock
    · simp [Call.isCall] at hcall

theorem size_pos (hproper : h.Proper c) (hblock : c.allocates = true) : 0 < h.size c := by
  cases c with
  | strdup s =>
    obtain ⟨n, hn, -⟩ := hproper
    rw [Heap.size, hn]
    exact Nat.succ_pos n
  | free ptr => simp [Call.allocates] at hblock
  | store a b => simp [Call.allocates] at hblock
  | _ => exact hproper

end

/-! ## Disjoint blocks -/

/-- The blocks lie between the start of the heap and `top`, which the pointer is at, and are disjoint. -/
structure Stacked (start : BitVec w) (top : ℕ) (x : History w) : Prop where
  heapPtr : x.1.heapPtr.toNat = top % 2 ^ w
  start_le : start.toNat ≤ top
  block : ∀ b ∈ x.2, start.toNat ≤ b.start.toNat ∧ b.start.toNat + b.length ≤ top
  disjoint : x.2.Pairwise Span.Disjoint

/-- A call pushes its block. -/
theorem Stacked.step {start : BitVec w} {top : ℕ} {x : History w} {c : Call w}
    (hx : Stacked start top x)
    (hproper : x.1.Proper c) (hfits : top + x.1.size c ≤ 2 ^ w) :
    ∃ x', Minlibc.step (some x) c = some x' ∧ (x.1.call c).map Prod.snd = some x'.1 ∧
    Stacked start (top + x.1.size c) x' ∧
      (c.isCall = true → ∀ b ∈ x.2, Memory.AgreeOn b x.1.mem x'.1.mem) := by
  obtain ⟨h, bs⟩ := x
  obtain ⟨hptr, hstart, hblock, hdisjoint⟩ := hx
  dsimp only at *
  cases hnew : c.allocates with
  | false =>
    cases c with
    | free ptr => exact ⟨(h, bs), rfl, rfl, ⟨hptr, hstart, hblock, hdisjoint⟩, fun _ _ _ _ _ => rfl⟩
    | store a b =>
      exact ⟨(_, bs), rfl, rfl, ⟨hptr, hstart, hblock, hdisjoint⟩,
        fun hcall => by simp [Call.isCall] at hcall⟩
    | _ => simp [Call.allocates] at hnew
  | true =>
    have hpos := size_pos hproper hnew
    have htop : h.heapPtr.toNat = top := by rw [hptr, Nat.mod_eq_of_lt (by omega)]
    obtain ⟨p, mem, hcall, hp, hmem⟩ := call_spec hproper (by rw [htop]; exact hfits)
    obtain rfl := hp hnew
    -- what was returned before lies below the new block
    have hbelow : ∀ b ∈ bs, ∀ a ∈ b, a ∉ (⟨h.heapPtr, h.size c⟩ : Span w) := by
      intro b hb a ha hin
      have hle := (hblock b hb).2
      rw [Span.mem_iff_of_le (by omega)] at ha
      rw [Span.mem_iff_of_le (by dsimp only; omega)] at hin
      dsimp only at hin
      omega
    refine ⟨(⟨h.heapPtr + BitVec.ofNat w (h.size c), mem⟩, ⟨h.heapPtr, h.size c⟩ :: bs), ?_, ?_,
      ⟨?_, ?_, ?_, ?_⟩, ?_⟩
    · rw [Minlibc.step, Option.bind_some, hcall, hnew]
      rfl
    · rw [hcall]
      rfl
    · dsimp only
      rw [BitVec.toNat_add, BitVec.toNat_ofNat, htop, Nat.add_mod_mod]
    · omega
    · intro b hb
      rcases List.mem_cons.1 hb with rfl | hb
      · dsimp only
        omega
      · have := hblock b hb
        omega
    · exact List.pairwise_cons.2 ⟨fun b hb => Span.Disjoint.symm fun a ha => hbelow b hb a ha,
        hdisjoint⟩
    · intro hlib b hb a ha
      exact (hmem hlib a (hbelow b hb a ha)).symm

/-- The blocks lie behind the program and in the address space, and no two of them have an address in common. -/
def Separate (start : BitVec w) (x : Option (History w)) : Prop :=
  ∃ y, x = some y ∧ y.2.Pairwise Span.Disjoint ∧
    ∀ b ∈ y.2, start.toNat ≤ b.start.toNat ∧ b.start.toNat + b.length ≤ 2 ^ w

/-- The call returns, and leaves the blocks that were returned before as they are. -/
def Leaves (x : Option (History w)) (c : Call w) : Prop :=
  ∃ y y', x = some y ∧ step x c = some y' ∧
  (c.isCall = true → ∀ b ∈ y.2, Memory.AgreeOn b y.1.mem y'.1.mem)

/-- **The heap**: if all that a program asks for fits behind it, then the blocks it gets are disjoint and lie there, and no
    call changes a block that was returned before. -/
theorem heap_run {start : BitVec w} {mem : Memory w} {log : List (Call w)}
    (hlog : Meets step (fun x c => ∀ y, x = some y → y.1.Proper c) (some (⟨start, mem⟩, [])) log)
    (hfits : start.toNat + requested ⟨start, mem⟩ log ≤ 2 ^ w) :
    Always step (Separate start) (some (⟨start, mem⟩, [])) log ∧
    Meets step Leaves (some (⟨start, mem⟩, [])) log := by
  -- the same from any history, with `top` bytes used
  have hrun : ∀ (log : List (Call w)) (x : History w) (top : ℕ), Stacked start top x →
      Meets step (fun x c => ∀ y, x = some y → y.1.Proper c) (some x) log →
      top + requested x.1 log ≤ 2 ^ w →
      Always step (Separate start) (some x) log ∧ Meets step Leaves (some x) log := by
    intro log
    induction log with
    | nil =>
      intro x top hx _ hfits
      rw [requested] at hfits
      exact ⟨⟨x, rfl, hx.disjoint, fun b hb => ⟨(hx.block b hb).1, (hx.block b hb).2.trans hfits⟩⟩,
        trivial⟩
    | cons c log ih =>
      intro x top hx hlog hfits
      rw [requested] at hfits
      obtain ⟨x', hstep, hcall, hx', hleaves⟩ := hx.step (hlog.1 x rfl) (by omega)
      have hrest : (x.1.call c).map (fun r => requested r.2 log) = some (requested x'.1 log) := by
        obtain ⟨r, hr, hr'⟩ := Option.map_eq_some_iff.1 hcall
        rw [hr, Option.map_some, hr']
      rw [hrest, Option.getD_some] at hfits
      have hlog' := hlog.2
      rw [hstep] at hlog'
      obtain ⟨halways, hmeets⟩ := ih x' _ hx' hlog' (by omega)
      refine ⟨⟨⟨x, rfl, hx.disjoint, fun b hb => ⟨(hx.block b hb).1, ?_⟩⟩, ?_⟩,
        ⟨x, x', rfl, hstep, hleaves⟩, ?_⟩
      · have := (hx.block b hb).2
        omega
      · rwa [hstep]
      · rwa [hstep]
  refine hrun log _ start.toNat ⟨?_, le_rfl, ?_, .nil⟩ hlog hfits
  · exact (Nat.mod_eq_of_lt start.isLt).symm
  · exact fun b hb => absurd hb List.not_mem_nil

/-- A program that copies a string of its own, on a machine with 32-bit addresses. -/
theorem heap_run_string :
    let log : List (Call 32) := [.malloc 3, .store 0x1000 0x61, .calloc 2 2, .strdup 0x1000,
      .free 0x1000]
    Always step (Separate 0x1000) (some (⟨0x1000, fun _ => 0⟩, [])) log ∧
      Meets step Leaves (some (⟨0x1000, fun _ => 0⟩, [])) log := by
  refine heap_run ⟨?_, ?_, ?_, ?_, ?_, trivial⟩ ?_
  · rintro _ ⟨rfl⟩
    show 0 < (3 : BitVec 32).toNat
    decide
  · exact fun _ _ => trivial
  · rintro _ ⟨rfl⟩
    show 0 < (2 : BitVec 32).toNat * (2 : BitVec 32).toNat
    decide
  · rintro _ ⟨rfl⟩
    exact ⟨1, by decide +kernel, .inl (by decide)⟩
  · exact fun _ _ => trivial
  · decide +kernel

/-! ## The contract of the C library -/

/-- The block lies in the address space and is aligned. -/
def Fit (align : ℕ) (p : BitVec w) (n : ℕ) : Prop := p.toNat + n ≤ 2 ^ w ∧ align ∣ p.toNat

/-- What a call has to return.  The block of `calloc` is what lies between the pointer before and after it. -/
def Heap.Returns (h : Heap w) (align : ℕ) (p : BitVec w) (h' : Heap w) : Call w → Prop
  | .malloc size => Fit align p size.toNat
  | .calloc nmemb size => p = 0 ∨ Fit align p (nmemb.toNat * size.toNat) ∧
    nmemb.toNat * size.toNat ≤ (h'.heapPtr - p).toNat ∧
    ∀ i < nmemb.toNat * size.toNat, h'.mem (p + BitVec.ofNat w i) = 0
  | .realloc block size => Fit align p size.toNat ∧
    ∀ i < min block.length size.toNat, h'.mem (p + BitVec.ofNat w i) =
      h.mem (block.start + BitVec.ofNat w i)
  | .strdup s => Fit align p (h.size (.strdup s))
  | .free _ | .store _ _ => True

/-- The call returns, and returns what it has to. -/
def Contract (align : ℕ) (x : Option (History w)) (c : Call w) : Prop :=
  ∃ y p h', x = some y ∧ y.1.call c = some (p, h') ∧ y.1.Returns align p h' c

/-- What a call has to find: a pointer that is aligned and far enough from the end, and for `realloc` the bytes that are
    to be kept, behind the heap. -/
def Heap.Ready (h : Heap w) (align : ℕ) : Call w → Prop
  | .malloc size => Fit align h.heapPtr size.toNat
  | .calloc nmemb size => h.heapPtr = 0 ∨ Fit align h.heapPtr (nmemb.toNat * size.toNat)
  | .realloc block size => Fit align h.heapPtr size.toNat ∧
    ∀ i < min block.length size.toNat, h.mem (h.heapPtr + BitVec.ofNat w i) =
      h.mem (block.start + BitVec.ofNat w i)
  | .strdup s => Fit align h.heapPtr (h.size (.strdup s))
  | .free _ | .store _ _ => True

/-- Strings are strings, and what is passed to `realloc` is a block. -/
def Called (x : Option (History w)) : Call w → Prop
  | .realloc block _ => ∀ y, x = some y → block ∈ y.2
  | .strdup s => ∀ y, x = some y → y.1.Terminated s
  | _ => True

section
variable {h : Heap w} {align : ℕ}

theorem heapPtr_strdup {s p : BitVec w} {h' : Heap w} (hcall : h.strdup s = some (p, h')) :
    p = h.heapPtr := by
  obtain ⟨n, -, hcall⟩ := Option.bind_eq_some_iff.1 hcall
  by_cases hnull : h.heapPtr ≠ 0
  · obtain ⟨mem, -, heq⟩ := Option.map_eq_some_iff.1 ((if_pos hnull).symm.trans hcall)
    exact (congrArg Prod.fst heq).symm
  · exact (congrArg Prod.fst (Option.some.inj ((if_neg hnull).symm.trans hcall))).symm

/-- **`calloc`** returns what it has to exactly if the product is a size that fits. -/
theorem returns_calloc_iff {nmemb size : BitVec w} :
    h.Returns align (h.calloc nmemb size).1 (h.calloc nmemb size).2 (.calloc nmemb size) ↔
      h.Ready align (.calloc nmemb size) := by
  by_cases hnull : h.heapPtr ≠ 0
  · have hcalloc : h.calloc nmemb size =
        (h.heapPtr, ⟨h.heapPtr + nmemb * size, h.mem.fill h.heapPtr 0 (nmemb * size).toNat⟩) :=
          if_pos hnull
    rw [hcalloc, Heap.Returns, Heap.Ready]
    refine or_congr_right (and_iff_left_of_imp fun hfit => ?_)
    have hpos : 0 < h.heapPtr.toNat := Nat.pos_of_ne_zero fun hzero =>
      hnull (BitVec.eq_of_toNat_eq hzero)
    have htotal : (nmemb * size).toNat = nmemb.toNat * size.toNat := by
      rw [BitVec.toNat_mul, Nat.mod_eq_of_lt]
      have hle : h.heapPtr.toNat + nmemb.toNat * size.toNat ≤ 2 ^ w := hfit.1
      omega
    refine ⟨?_, fun i hi => ?_⟩
    · show _ ≤ (h.heapPtr + nmemb * size - h.heapPtr).toNat
      rw [add_sub_cancel_left, htotal]
    · exact Memory.fill_apply (BitVec.isLt _).le 0 h.mem (by rwa [htotal])
  · have hcalloc : h.calloc nmemb size = (h.heapPtr, ⟨h.heapPtr + nmemb * size, h.mem⟩) :=
      if_neg hnull
    rw [hcalloc]
    exact iff_of_true (.inl (not_not.1 hnull)) (.inl (not_not.1 hnull))

/-- **One call** keeps to the contract exactly if it finds what it has to. -/
theorem contract_iff {y : History w} {c : Call w} (hcalled : Called (some y) c) :
    Contract align (some y) c ↔ y.1.Ready align c := by
  have hsome : ∀ {p h'}, y.1.call c = some (p, h') →
      (Contract align (some y) c ↔ y.1.Returns align p h' c) := by
    intro p h' hcall
    constructor
    · rintro ⟨_, p', h'', ⟨rfl⟩, hcall', hreturns⟩
      obtain ⟨rfl, rfl⟩ := Prod.mk.inj (Option.some.inj (hcall.symm.trans hcall'))
      exact hreturns
    · exact fun hreturns => ⟨y, p, h', rfl, hcall, hreturns⟩
  cases c with
  | malloc size => exact hsome rfl
  | calloc nmemb size => exact (hsome rfl).trans returns_calloc_iff
  | realloc block size =>
    have hcall : y.1.call (.realloc block size) = some (y.1.heapPtr, ⟨y.1.heapPtr + size, y.1.mem⟩) := rfl
    exact (hsome hcall).trans Iff.rfl
  | strdup s =>
    constructor
    · rintro ⟨_, p, h', ⟨rfl⟩, hcall, hreturns⟩
      obtain rfl := heapPtr_strdup hcall
      exact hreturns
    · intro hready
      obtain ⟨mem, hcall, -⟩ := strdup_spec (hcalled y rfl) hready.1
      exact ⟨y, _, _, rfl, hcall, hready⟩
  | free ptr => exact hsome rfl
  | store a b => exact hsome rfl

end

/-- **The contract** is kept throughout a history exactly if each call finds an aligned pointer that is far enough from the
    end of the address space, and `realloc` finds the old bytes behind the heap. -/
theorem contract_run {align : ℕ} {start : BitVec w} {mem : Memory w} {log : List (Call w)}
    (hlog : Meets step Called (some (⟨start, mem⟩, [])) log) :
    Meets step (Contract align) (some (⟨start, mem⟩, [])) log ↔
      Meets step (fun x c => ∀ y, x = some y → y.1.Ready align c) (some (⟨start, mem⟩, [])) log := by
  refine meets_iff_meets (I := fun x => ∃ y, x = some y) ?_ ?_ ⟨_, rfl⟩ hlog
  · rintro x c ⟨y, rfl⟩ hcalled
    rw [contract_iff hcalled]
    exact ⟨fun hready y' hy => Option.some.inj hy ▸ hready, fun hready => hready y rfl⟩
  · rintro x c ⟨y, rfl⟩ - ⟨_, p, h', ⟨rfl⟩, hcall, -⟩
    rw [step, Option.bind_some, hcall, Option.map_some]
    exact ⟨_, rfl⟩

/-- A block that nothing was written to is made smaller. -/
theorem contract_run_aligned :
    Meets step (Contract 8) (some ((⟨0x1000, fun _ => 0⟩ : Heap 32), []))
      [.malloc 8, .realloc ⟨0x1000, 8⟩ 4] := by
  have hlog : Meets step Called (some ((⟨0x1000, fun _ => 0⟩ : Heap 32), []))
      [.malloc 8, .realloc ⟨0x1000, 8⟩ 4] := by
    refine ⟨trivial, ?_, trivial⟩
    rintro _ ⟨rfl⟩
    exact List.mem_cons_self
  refine (contract_run hlog).2 ⟨?_, ?_, trivial⟩
  · rintro _ ⟨rfl⟩
    exact ⟨by decide, by decide⟩
  · rintro _ ⟨rfl⟩
    have hle : (0x1008 : BitVec 32).toNat + (4 : BitVec 32).toNat ≤ 2 ^ 32 := by decide
    have hdvd : 8 ∣ (0x1008 : BitVec 32).toNat := by decide
    exact ⟨⟨hle, hdvd⟩, fun _ _ => rfl⟩

/-- On a machine with 32-bit addresses, from `0x1000` on: a byte is not copied by `realloc`; `calloc` returns a block of no
    bytes, `malloc` one that wraps around, and after a block of one byte another at an odd address. -/
theorem contract_broken :
    (([.malloc 1, .store 0x1000 7].foldl step (some ((⟨0x1000, fun _ => 0⟩ : Heap 32), []))).bind
      fun y =>
      (y.1.call (.realloc ⟨0x1000, 1⟩ 1)).map fun r => (y.1.mem 0x1000, r.2.mem r.1)) = some (7, 0) ∧
    ((⟨0x1000, fun _ => 0⟩ : Heap 32).call (.calloc 0x10000 0x10000)).map
      (fun r => (r.1, r.2.heapPtr)) = some (0x1000, 0x1000) ∧
    ¬ Fit 8 ((⟨0x1000, fun _ => 0⟩ : Heap 32).malloc 0xFFFFFFFF).1 0xFFFFFFFF ∧
    ¬ Fit 8 (((⟨0x1000, fun _ => 0⟩ : Heap 32).malloc 1).2.malloc 4).1 4 := by
  refine ⟨by decide, by decide, ?_, ?_⟩
  · rintro ⟨hle, -⟩
    exact absurd hle (by decide)
  · rintro ⟨-, hdvd⟩
    exact absurd hdvd (by decide)

end PocketDarwin.Minlibc
