/-
  `strtok` of minlibc (`libc.c`): it cuts a string at its delimiters, one token a call, and keeps
  where it has stopped in a static variable.

  Only bytes that are there can be read: reading another one is an access that fails.

  * `HasString`: there is a string at an address.
  * `cut_of_ne`: one call returns the first run of the string without delimiters, and what is
    left of the string is behind it.
  * `strtok_tokens`: the calls return the maximal runs, each as a string that stays as it is, and
    read nothing besides the two strings.
-/
import Mathlib.Data.List.GetD
import PocketDarwin.MaximalRuns
import PocketDarwin.Span

namespace PocketDarwin.Minlibc

open MaximalRuns

variable {w : ℕ}

/-- The bytes that can be accessed. -/
abbrev Bytes (w : ℕ) := BitVec w → Option (BitVec 8)

/-! ## The code -/

/-- `strchr`, of at most so many rounds: `none` is an access that fails, or a loop that has no
    end. -/
def strchr (mem : Bytes w) (c : BitVec 8) : ℕ → BitVec w → Option (BitVec w)
  | 0, _ => none
  | fuel + 1, s =>
    (mem s).bind fun b =>
      if b ≠ 0 then if b = c then some s else strchr mem c fuel (s + 1)
      else if c = 0 then some s else some 0

/-- A loop of `strtok`: on to the end, or to the first character that is not a delimiter, or one
    that is. -/
def scan (mem : Bytes w) (delim : BitVec w) (skip : Bool) : ℕ → BitVec w → Option (BitVec w)
  | 0, _ => none
  | fuel + 1, str =>
    (mem str).bind fun b =>
      if b = 0 then some str
      else
        (strchr mem b (2 ^ w) delim).bind fun p =>
          if decide (p ≠ 0) = skip then scan mem delim skip fuel (str + 1) else some str

/-- The memory, and the static variable. -/
structure Strtok (w : ℕ) where
  mem : Bytes w
  last : BitVec w

/-- `strtok`, from the first loop on. -/
def cut (m : Strtok w) (str delim : BitVec w) : Option (BitVec w × Strtok w) :=
  (scan m.mem delim true (2 ^ w) str).bind fun start =>
    (m.mem start).bind fun b =>
      if b = 0 then some (0, { m with last := 0 })
      else
        (scan m.mem delim false (2 ^ w) start).bind fun str =>
          (m.mem str).bind fun b =>
            if b ≠ 0 then
              some (start, { mem := Function.update m.mem str (some 0), last := str + 1 })
            else some (start, { m with last := 0 })

def strtok (m : Strtok w) (str delim : BitVec w) : Option (BitVec w × Strtok w) :=
  if str = 0 then if m.last = 0 then some (0, m) else cut m m.last delim else cut m str delim

/-- Some calls of `strtok(NULL, delim)`: what they return. -/
def more (delim : BitVec w) : ℕ → Strtok w → Option (List (BitVec w) × Strtok w)
  | 0, m => some ([], m)
  | n + 1, m =>
    (strtok m 0 delim).bind fun x => (more delim n x.2).map fun y => (x.1 :: y.1, y.2)

/-- A call of `strtok(s, delim)`, and some of `strtok(NULL, delim)`. -/
def calls (s delim : BitVec w) (n : ℕ) (m : Strtok w) : Option (List (BitVec w) × Strtok w) :=
  (strtok m s delim).bind fun x => (more delim n x.2).map fun y => (x.1 :: y.1, y.2)

/-! ## Strings -/

/-- There is a string at the address, with its terminator. -/
structure HasString (mem : Bytes w) (a : BitVec w) (l : List (BitVec 8)) : Prop where
  pos : 0 < a.toNat
  room : a.toNat + l.length < 2 ^ w
  nonzero : 0 ∉ l
  byte : ∀ i ≤ l.length, mem (a + BitVec.ofNat w i) = some (l.getD i 0)

theorem add_ofNat_add (a : BitVec w) (i j : ℕ) :
    a + BitVec.ofNat w i + BitVec.ofNat w j = a + BitVec.ofNat w (i + j) := by
  rw [BitVec.ofNat_add, BitVec.add_assoc]

theorem add_ofNat_one (a : BitVec w) (i : ℕ) :
    a + BitVec.ofNat w i + 1 = a + BitVec.ofNat w (i + 1) := add_ofNat_add a i 1

section
variable {mem mem' : Bytes w} {a d : BitVec w} {c : BitVec 8} {l ds : List (BitVec 8)} {n : ℕ}

theorem HasString.toNat_add (h : HasString mem a l) (hn : n ≤ l.length) :
    (a + BitVec.ofNat w n).toNat = a.toNat + n := by
  have := h.room
  rw [BitVec.toNat_add, BitVec.toNat_ofNat, Nat.mod_eq_of_lt (a := n) (by omega),
    Nat.mod_eq_of_lt (by omega)]

theorem HasString.ne_zero (h : HasString mem a l) (hn : n ≤ l.length) : a + BitVec.ofNat w n ≠ 0 := by
  intro heq
  have hnat := h.toNat_add hn
  have := h.pos
  rw [heq] at hnat
  simp at hnat
  omega

/-- The rest of a string is one. -/
theorem HasString.drop (h : HasString mem a l) (hn : n ≤ l.length) :
    HasString mem (a + BitVec.ofNat w n) (l.drop n) := by
  have hnat := h.toNat_add hn
  have hroom := h.room
  have hpos := h.pos
  refine ⟨by omega, by rw [List.length_drop]; omega,
    fun h0 => h.nonzero (List.mem_of_mem_drop h0), ?_⟩
  intro i hi
  rw [List.length_drop] at hi
  rw [add_ofNat_add, h.byte (n + i) (by omega), List.getD_eq_getElem?_getD,
    List.getD_eq_getElem?_getD, List.getElem?_drop]

theorem HasString.head (h : HasString mem a l) : mem a = some (l.getD 0 0) := by
  have := h.byte 0 (Nat.zero_le _)
  simpa using this

theorem HasString.tail (h : HasString mem a (c :: l)) : HasString mem (a + 1) l := by
  have := h.drop (n := 1) (by simp)
  simpa using this

theorem HasString.head_ne_zero (h : HasString mem a (c :: l)) : c ≠ 0 := by
  rintro rfl
  exact h.nonzero List.mem_cons_self

/-- A string is not changed outside of its bytes. -/
theorem HasString.congr (h : HasString mem a l)
    (hsame : ∀ i ≤ l.length, mem' (a + BitVec.ofNat w i) = mem (a + BitVec.ofNat w i)) :
    HasString mem' a l :=
  ⟨h.pos, h.room, h.nonzero, fun i hi => (hsame i hi).trans (h.byte i hi)⟩

/-- **Looking for a character** in a string. -/
theorem strchr_spec (h : HasString mem d ds) (hc : c ≠ 0) {fuel : ℕ} (hfuel : ds.length < fuel) :
    ∃ p, strchr mem c fuel d = some p ∧ (p ≠ 0 ↔ c ∈ ds) := by
  induction ds generalizing d fuel with
  | nil =>
    cases fuel with
    | zero => omega
    | succ fuel =>
      refine ⟨0, ?_, by simp⟩
      rw [strchr, h.head, List.getD_nil, Option.bind_some, if_neg (not_not.2 rfl), if_neg hc]
  | cons b ds ih =>
    cases fuel with
    | zero => omega
    | succ fuel =>
      have hb := h.head_ne_zero
      rw [strchr, h.head, List.getD_cons_zero, Option.bind_some, if_pos hb]
      by_cases hbc : b = c
      · have hd : d ≠ 0 := by simpa using h.ne_zero (Nat.zero_le _)
        exact ⟨d, if_pos hbc, iff_of_true hd (hbc ▸ List.mem_cons_self)⟩
      · obtain ⟨p, hp, hiff⟩ := ih h.tail (by simpa using hfuel)
        refine ⟨p, (if_neg hbc).trans hp, ?_⟩
        rw [hiff, List.mem_cons, or_iff_right (Ne.symm hbc)]

/-- **A loop of `strtok`** stops at the end, or at the first character that is not, or that is, a
    delimiter. -/
theorem scan_spec (h : HasString mem a l) (hd : HasString mem d ds) (skip : Bool) {fuel : ℕ}
    (hfuel : l.length < fuel) : scan mem d skip fuel a =
      some (a + BitVec.ofNat w (l.takeWhile fun c => ds.contains c == skip).length) := by
  induction l generalizing a fuel with
  | nil =>
    cases fuel with
    | zero => omega
    | succ fuel =>
      rw [scan, h.head, List.getD_nil, Option.bind_some, if_pos rfl]
      simp
  | cons c l ih =>
    cases fuel with
    | zero => omega
    | succ fuel =>
      have hc := h.head_ne_zero
      have hroom := hd.room
      obtain ⟨p, hp, hiff⟩ := strchr_spec hd hc (show ds.length < 2 ^ w by omega)
      have htest : decide (p ≠ 0) = ds.contains c := by
        rw [Bool.eq_iff_iff, decide_eq_true_eq, List.contains_iff_mem]
        exact hiff
      rw [scan, h.head, List.getD_cons_zero, Option.bind_some, if_neg hc, hp, Option.bind_some, htest,
        List.takeWhile_cons]
      by_cases hskip : ds.contains c = skip
      · have hnext : a + 1 = a + BitVec.ofNat w 1 := rfl
        rw [if_pos hskip, if_pos (beq_iff_eq.2 hskip), ih h.tail (by simpa using hfuel), hnext,
          List.length_cons, add_ofNat_add, Nat.add_comm 1]
      · rw [if_neg hskip, if_neg (by simpa using hskip)]
        simp

/-- Different places of a string have different addresses. -/
theorem HasString.add_ne (h : HasString mem a l) {i j : ℕ} (hi : i ≤ l.length) (hj : j ≤ l.length)
    (hne : i ≠ j) : a + BitVec.ofNat w i ≠ a + BitVec.ofNat w j := by
  intro heq
  have := congrArg BitVec.toNat heq
  rw [h.toNat_add hi, h.toNat_add hj] at this
  omega

/-- A terminator in a string makes two of it. -/
theorem HasString.split {b : List (BitVec 8)} (h : HasString mem a (l ++ c :: b)) :
    HasString (Function.update mem (a + BitVec.ofNat w l.length) (some 0)) a l ∧
    HasString (Function.update mem (a + BitVec.ofNat w l.length) (some 0))
      (a + BitVec.ofNat w (l.length + 1)) b := by
  have hlen : (l ++ c :: b).length = l.length + 1 + b.length := by
    rw [List.length_append, List.length_cons]
    omega
  have hroom := h.room
  constructor
  · refine ⟨h.pos, by omega, fun h0 => h.nonzero (List.mem_append_left _ h0), fun i hi => ?_⟩
    rcases Nat.lt_or_eq_of_le hi with hlt | rfl
    · rw [Function.update_of_ne (h.add_ne (by omega) (by omega) hlt.ne), h.byte i (by omega),
        List.getD_append _ _ _ _ hlt]
    · rw [Function.update_self, List.getD_eq_default _ _ le_rfl]
  · have hdrop := h.drop (n := l.length + 1) (by omega)
    rw [List.drop_length_add_append, List.drop_one, List.tail_cons] at hdrop
    refine hdrop.congr fun i hi => Function.update_of_ne ?_ _ _
    rw [add_ofNat_add]
    exact h.add_ne (by omega) (by omega) (by omega)

/-- What stands at different places of two strings, if their characters do not overlap. -/
theorem HasString.apart (h : HasString mem a l) (hd : HasString mem d ds)
    (hapart : ∀ i < l.length, ∀ j < ds.length, a + BitVec.ofNat w i ≠ d + BitVec.ofNat w j) {i j : ℕ}
    (hi : i < l.length) (hj : j ≤ ds.length) : a + BitVec.ofNat w i ≠ d + BitVec.ofNat w j := by
  rcases Nat.lt_or_eq_of_le hj with hlt | rfl
  · exact hapart i hi j hlt
  · -- a character of the one is not the terminator of the other
    intro heq
    have hbyte := h.byte i hi.le
    rw [heq, hd.byte _ le_rfl, List.getD_eq_default _ _ le_rfl, List.getD_eq_getElem _ _ hi] at hbyte
    exact h.nonzero (Option.some.inj hbyte ▸ List.getElem_mem hi)

end

/-! ## One call -/

section
variable {m : Strtok w} {a d : BitVec w} {l ds : List (BitVec 8)}

/-- **One call** at a string without a token. -/
theorem cut_of_nil (h : HasString m.mem a l) (hd : HasString m.mem d ds)
    (hnil : l.dropWhile ds.contains = []) : cut m a d = some (0, { m with last := 0 }) := by
  have hroom := h.room
  have hall : (l.takeWhile fun c => ds.contains c == true) = l := by
    simpa using hnil
  have hend := h.byte l.length le_rfl
  rw [List.getD_eq_default _ _ le_rfl] at hend
  rw [cut, scan_spec h hd true (by omega), hall, Option.bind_some, hend, Option.bind_some]
  exact if_pos rfl

/-- What a call leaves of a string that has a token: nothing, or what is behind the token. -/
inductive Left (m : Strtok w) (a : BitVec w) (l ds : List (BitVec 8)) (m' : Strtok w) : Prop where
  | nothing (hbehind : behind ds.contains l = []) (hlast : m'.last = 0) (hmem : m'.mem = m.mem)
  | rest (k : ℕ) (hk : k = (lead ds.contains l).length + (first ds.contains l).length)
      (hlen : k + 1 + (behind ds.contains l).length = l.length)
      (hmem : m'.mem = Function.update m.mem (a + BitVec.ofNat w k) (some 0))
      (hlast : m'.last = a + BitVec.ofNat w (k + 1))
      (hrest : HasString m'.mem m'.last (behind ds.contains l))

/-- **One call** at a string with a token: what it finds at its end decides what is left. -/
theorem cut_at_token (h : HasString m.mem a l) (hd : HasString m.mem d ds)
    (hne : l.dropWhile ds.contains ≠ []) {k : ℕ}
    (hk : k = (lead ds.contains l).length + (first ds.contains l).length) :
    cut m a d = (m.mem (a + BitVec.ofNat w k)).bind fun b =>
      if b ≠ 0 then
        some (a + BitVec.ofNat w (lead ds.contains l).length,
          ⟨Function.update m.mem (a + BitVec.ofNat w k) (some 0), a + BitVec.ofNat w (k + 1)⟩)
      else some (a + BitVec.ofNat w (lead ds.contains l).length, ⟨m.mem, 0⟩) := by
  have hroom := h.room
  have hlead : (l.takeWhile fun c => ds.contains c == true) = lead ds.contains l :=
    congrArg (fun q => l.takeWhile q) (funext fun c => beq_true _)
  have hfirst : ((l.dropWhile ds.contains).takeWhile fun c => ds.contains c == false) =
      first ds.contains l :=
    congrArg (fun q => (l.dropWhile ds.contains).takeWhile q) (funext fun c => beq_false _)
  have hrest := h.drop (length_lead_le (p := ds.contains))
  rw [drop_lead] at hrest
  have hscan := scan_spec hrest hd false (show _ < 2 ^ w from Nat.lt_of_le_of_lt
    (List.dropWhile_suffix _).length_le (by omega))
  rw [hfirst, add_ofNat_add, ← hk] at hscan
  obtain ⟨c, l', hc⟩ := List.exists_cons_of_ne_nil hne
  rw [hc] at hrest
  rw [cut, scan_spec h hd true (by omega), hlead, Option.bind_some, hrest.head, Option.bind_some,
    List.getD_cons_zero, if_neg hrest.head_ne_zero, hscan, Option.bind_some, add_ofNat_one]

/-- The token is returned, and what is behind it is left. -/
theorem cut_of_ne (h : HasString m.mem a l) (hd : HasString m.mem d ds)
    (hne : l.dropWhile ds.contains ≠ []) :
    ∃ m', cut m a d = some (a + BitVec.ofNat w (lead ds.contains l).length, m') ∧
      HasString m'.mem (a + BitVec.ofNat w (lead ds.contains l).length) (first ds.contains l) ∧
      Left m a l ds m' := by
  have hrest := h.drop (length_lead_le (p := ds.contains))
  have hend := hrest.byte (first ds.contains l).length
  have hlen := congrArg List.length (lead_append ds.contains l)
  rw [drop_lead] at hrest hend
  rw [add_ofNat_add] at hend
  rw [List.length_append] at hlen
  rw [cut_at_token h hd hne rfl]
  obtain ⟨-, ⟨hbehind, hl⟩ | ⟨c, -, hl⟩⟩ := dropWhile_cases hne
  · -- the token ends where the string ends
    rw [hl] at hrest hend
    rw [hend le_rfl, List.getD_eq_default _ _ le_rfl, Option.bind_some, if_neg (not_not.2 rfl)]
    exact ⟨_, rfl, hrest, .nothing hbehind rfl rfl⟩
  · rw [hl] at hrest hend hlen
    rw [List.length_append, List.length_cons] at hlen
    have hc : c ≠ 0 := by
      rintro rfl
      exact hrest.nonzero (by simp)
    rw [hend (by simp), List.getD_append_right _ _ _ _ le_rfl, Nat.sub_self, List.getD_cons_zero,
      Option.bind_some, if_pos hc]
    obtain ⟨htoken, hleft⟩ := hrest.split
    rw [add_ofNat_add] at htoken hleft
    rw [add_ofNat_add, ← Nat.add_assoc] at hleft
    exact ⟨_, rfl, htoken, .rest _ rfl (by omega) rfl rfl hleft⟩

end

/-! ## The calls -/

section
variable {m : Strtok w} {s d : BitVec w} {l ds : List (BitVec 8)} {pos n : ℕ}

theorem more_of_zero (h : m.last = 0) : more d n m = some (List.replicate n 0, m) := by
  induction n with
  | zero => rfl
  | succ n ih =>
    rw [more, strtok, if_pos rfl, if_pos h, Option.bind_some, ih]
    rfl

theorem more_of_ne (h : m.last ≠ 0) : more d (n + 1) m = calls m.last d n m := by
  rw [more, calls, strtok, strtok, if_pos rfl, if_neg h, if_neg h]

/-- The pointer to a token of the string at `s`. -/
def pointer (s : BitVec w) (x : ℕ × List (BitVec 8)) : BitVec w := s + BitVec.ofNat w x.1

/-- What the `k`-th call returns. -/
def returned (s : BitVec w) (tokens : List (ℕ × List (BitVec 8))) (k : ℕ) : BitVec w :=
  (tokens.map (pointer s)).getD k 0

theorem map_returned_nil : (List.range n).map (returned s []) = List.replicate n 0 := by
  refine List.ext_getElem (by simp) fun k hk hk' => ?_
  rw [List.getElem_map, List.getElem_replicate]
  rfl

theorem map_returned_cons (x : ℕ × List (BitVec 8)) (tokens : List (ℕ × List (BitVec 8))) :
    (List.range (n + 1)).map (returned s (x :: tokens)) =
      pointer s x :: (List.range n).map (returned s tokens) := by
  rw [List.range_succ_eq_map, List.map_cons, List.map_map]
  rfl

/-- What holds of the first of some tokens, and of those that are returned behind it. -/
theorem forall_returned_cons {P : ℕ × List (BitVec 8) → Prop} {x₀ : ℕ × List (BitVec 8)}
    {tokens : List (ℕ × List (BitVec 8))} (hfirst : P x₀)
    (hrest : ∀ k < n, ∀ x ∈ tokens[k]?, P x) : ∀ k ≤ n, ∀ x ∈ (x₀ :: tokens)[k]?, P x := by
  intro k hk x hx
  cases k with
  | zero => exact Option.some.inj hx ▸ hfirst
  | succ k => exact hrest k hk x hx

theorem calls_eq (hs : s ≠ 0) : calls s d n m =
    (cut m s d).bind fun x => (more d n x.2).map fun y => (x.1 :: y.1, y.2) := by
  rw [calls, strtok, if_neg hs]

/-- **Some calls** at a string, or at what is left of it: they return the runs, each of them is a
    string after all calls, and nothing else is changed. -/
theorem calls_spec (h : HasString m.mem (s + BitVec.ofNat w pos) l) (hd : HasString m.mem d ds)
    (hapart : ∀ i < l.length, ∀ j < ds.length,
      s + BitVec.ofNat w pos + BitVec.ofNat w i ≠ d + BitVec.ofNat w j) :
    ∃ m', calls (s + BitVec.ofNat w pos) d n m =
        some ((List.range (n + 1)).map (returned s (runs ds.contains pos l)), m') ∧
      (∀ k ≤ n, ∀ x ∈ (runs ds.contains pos l)[k]?, HasString m'.mem (pointer s x) x.2) ∧
      ∀ b, (∀ i < l.length, b ≠ s + BitVec.ofNat w pos + BitVec.ofNat w i) → m'.mem b = m.mem b := by
  induction pos, l using runs.induct ds.contains generalizing m n with
  | case1 pos l hnil =>
    have hs : s + BitVec.ofNat w pos ≠ 0 := by simpa using h.ne_zero (Nat.zero_le _)
    rw [calls_eq hs, cut_of_nil h hd hnil, Option.bind_some, more_of_zero rfl, runs_of_nil hnil,
      map_returned_nil]
    refine ⟨_, rfl, ?_, fun b _ => rfl⟩
    intro k _ x hx
    exact absurd hx (by simp)
  | case2 pos l hne ih =>
    have hs : s + BitVec.ofNat w pos ≠ 0 := by simpa using h.ne_zero (Nat.zero_le _)
    obtain ⟨m₁, hcut, htoken, hleft⟩ := cut_of_ne h hd hne
    have hplace : s + BitVec.ofNat w pos + BitVec.ofNat w (lead ds.contains l).length =
        pointer s (pos + (lead ds.contains l).length, first ds.contains l) := by
      rw [pointer, add_ofNat_add]
    rw [hplace] at hcut htoken
    rw [calls_eq hs, hcut, Option.bind_some, runs_of_ne hne, map_returned_cons]
    cases hleft with
    | nothing hbehind hlast hmem =>
      rw [more_of_zero hlast, hbehind, runs_of_nil rfl, map_returned_nil]
      refine ⟨_, rfl, forall_returned_cons htoken ?_, fun b _ => congrFun hmem b⟩
      intro k _ x hx
      exact absurd hx (by simp)
    | rest k hk hlen hmem hlast hrest =>
      have hend : m₁.last = s + BitVec.ofNat w
          (pos + (lead ds.contains l).length + (first ds.contains l).length + 1) := by
        rw [hlast, add_ofNat_add, hk, Nat.add_assoc pos, Nat.add_assoc pos]
      have hmem_of_ne : ∀ b, b ≠ s + BitVec.ofNat w pos + BitVec.ofNat w k → m₁.mem b = m.mem b := by
        intro b hb
        rw [hmem, Function.update_of_ne hb]
      cases n with
      | zero =>
        refine ⟨_, rfl, forall_returned_cons htoken ?_, fun b hb => hmem_of_ne b (hb k (by omega))⟩
        intro j hj
        exact absurd hj (Nat.not_lt_zero j)
      | succ n =>
        have hd₁ : HasString m₁.mem d ds := hd.congr fun j hj =>
          hmem_of_ne _ (Ne.symm (h.apart hd hapart (by omega) hj))
        have hshift : ∀ i, m₁.last + BitVec.ofNat w i =
            s + BitVec.ofNat w pos + BitVec.ofNat w (k + 1 + i) := by
          intro i
          rw [hlast, add_ofNat_add _ (k + 1)]
        have hlast_ne : m₁.last ≠ 0 := by simpa using hrest.ne_zero (Nat.zero_le _)
        rw [← hend] at ih
        obtain ⟨m₂, hcalls, htokens, hframe⟩ := ih (n := n) hrest hd₁ fun i hi j hj =>
          hshift i ▸ hapart _ (by omega) j hj
        rw [more_of_ne hlast_ne, hcalls, Option.map_some]
        refine ⟨_, rfl, forall_returned_cons ?_ fun j hj => htokens j (by omega), fun b hb => ?_⟩
        · -- the later calls write behind the token only
          refine htoken.congr fun i hi => hframe _ fun i' hi' => ?_
          have hi : i ≤ (first ds.contains l).length := hi
          rw [hshift, ← hplace, add_ofNat_add _ _ i]
          exact h.add_ne (by omega) (by omega) (by omega)
        · rw [hframe b fun i hi => hshift i ▸ hb _ (by omega)]
          exact hmem_of_ne b (hb k (by omega))

/-- The memory with some addresses only. -/
def masked (mem : Bytes w) (s t : Span w) : Bytes w := fun a => if a ∈ s ∨ a ∈ t then mem a else none

theorem HasString.masked {mem : Bytes w} {a : BitVec w} (h : HasString mem a l) {t u : Span w}
    (hsub : ∀ b ∈ (⟨a, l.length + 1⟩ : Span w), b ∈ t ∨ b ∈ u) : HasString (masked mem t u) a l :=
  h.congr fun _ hi => if_pos (hsub _ (Span.mem_start_add (Nat.lt_succ_of_le hi)))

/-- **`strtok`.**  A string `s` and a string `d` of delimiters, whose characters do not overlap: the
    calls `strtok(s, d)`, `strtok(NULL, d)`, … return the maximal runs of `s` without delimiters,
    one after the other, and `NULL` from then on.  Each run that was returned is a string after all
    calls.  They return the same if only the two strings can be read. -/
theorem strtok_tokens (mem : Bytes w) (last : BitVec w) (h : HasString mem s l)
    (hd : HasString mem d ds) (hapart : Span.Disjoint ⟨s, l.length⟩ ⟨d, ds.length⟩) :
    ∃ tokens : List (ℕ × List (BitVec 8)),
      (∀ i r, (i, r) ∈ tokens ↔ MaximalRun ds.contains l i r) ∧
      tokens.Pairwise (fun x y => x.1 < y.1) ∧
      ∀ n, ∃ m', calls s d n ⟨mem, last⟩ = some ((List.range (n + 1)).map (returned s tokens), m') ∧
        (∀ k ≤ n, ∀ x ∈ tokens[k]?, HasString m'.mem (pointer s x) x.2) ∧
        ∃ m'', calls s d n ⟨masked mem ⟨s, l.length + 1⟩ ⟨d, ds.length + 1⟩, last⟩ =
          some ((List.range (n + 1)).map (returned s tokens), m'') := by
  have hs : s + BitVec.ofNat w 0 = s := by simp
  have hchars : ∀ i < l.length, ∀ j < ds.length,
      s + BitVec.ofNat w 0 + BitVec.ofNat w i ≠ d + BitVec.ofNat w j := by
    intro i hi j hj heq
    rw [hs] at heq
    exact hapart _ (Span.mem_start_add (s := ⟨s, l.length⟩) hi)
      (heq ▸ Span.mem_start_add (s := ⟨d, ds.length⟩) hj)
  refine ⟨runs ds.contains 0 l, fun i r => ?_, pairwise_runs, fun n => ?_⟩
  · rw [mem_runs_iff]
    simp
  · rw [← hs] at h
    obtain ⟨m', hcalls, htokens, -⟩ := calls_spec (m := ⟨mem, last⟩) (n := n) h hd hchars
    obtain ⟨m'', hcalls', -⟩ := calls_spec (n := n)
      (m := ⟨masked mem ⟨s + BitVec.ofNat w 0, l.length + 1⟩ ⟨d, ds.length + 1⟩, last⟩)
      (h.masked fun _ => .inl) (hd.masked fun _ => .inr) hchars
    rw [hs] at hcalls hcalls'
    exact ⟨m', hcalls, htokens, m'', hcalls'⟩

end

/-- `",a,,b"` at 1, and `","` at 7. -/
def exampleText : Bytes 32 := fun a => [0, 44, 97, 44, 44, 98, 0, 44, 0][a.toNat]?

theorem strtok_example : ∃ tokens : List (ℕ × List (BitVec 8)),
    (∀ i r, (i, r) ∈ tokens ↔ MaximalRun (List.contains [44]) [44, 97, 44, 44, 98] i r) ∧
    ∃ m', calls 1 7 3 ⟨exampleText, 0⟩ = some ((List.range 4).map (returned 1 tokens), m') := by
  have hs : HasString exampleText 1 [44, 97, 44, 44, 98] :=
    ⟨by decide, by decide, by decide, by decide⟩
  have hd : HasString exampleText 7 [44] := ⟨by decide, by decide, by decide, by decide⟩
  have hapart : Span.Disjoint (⟨1, 5⟩ : Span 32) ⟨7, 1⟩ := by
    intro a ha ha'
    rw [Span.mem_iff_of_le (by decide)] at ha ha'
    have hend : a.toNat < 6 := ha.2
    have hstart : 7 ≤ a.toNat := ha'.1
    omega
  obtain ⟨tokens, htokens, -, hcalls⟩ := strtok_tokens exampleText 0 hs hd hapart
  obtain ⟨m', hcalls, -⟩ := hcalls 3
  exact ⟨tokens, htokens, m', hcalls⟩

end PocketDarwin.Minlibc
