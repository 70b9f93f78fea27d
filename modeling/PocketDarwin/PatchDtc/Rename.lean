/-
  `_truncate_name` as a renaming of the names met in one pass.

  What is truncated is the key of a name: the part of a node name before its
  `@`, a whole property name.  With the default limit of 31 a longer key keeps
  its first 28 characters, and the keys of a kind that agree in these get the
  suffixes `~1`, `~2`, ... in the order in which they are first met
  (`truncateAll_eq`).  The table behind this is keyed by the original name
  alone, short names never enter it, and there are only 99 numbers; a run that
  stays clear of these three (`Separated`) renames consistently
  (`truncate_consistent_of_separated`).
-/
import Mathlib.Data.List.Induction
import PocketDarwin.PatchDtc.Patcher

namespace PocketDarwin.PatchDtc

namespace Patcher

/-! ## Keys -/

/-- The part of a name that is truncated. -/
def keyOf : Kind → Text → Text
  | .node, name => name.takeWhile (· != '@')
  | .property, name => name

/-- The `@unit` part of a node name. -/
def tailOf : Kind → Text → Text
  | .node, name => name.dropWhile (· != '@')
  | .property, _ => []

theorem keyOf_append_tailOf (kind : Kind) (name : Text) : keyOf kind name ++ tailOf kind name = name := by
  cases kind
  · exact List.takeWhile_append_dropWhile
  · exact List.append_nil name

section
variable (opts : Options)

/-- The truncation of a key. -/
def truncateKey (key : Text) (kind : Kind) (p : Patcher) : Text × Patcher :=
  if (key.length : ℤ) ≤ opts.maxNameLen then (key, p)
  else truncateWithCollisions opts key kind p

theorem truncateKey_short {key : Text} (h : (key.length : ℤ) ≤ opts.maxNameLen) (kind : Kind)
    (p : Patcher) : truncateKey opts key kind p = (key, p) := if_pos h

theorem truncateKey_long {key : Text} (h : ¬ (key.length : ℤ) ≤ opts.maxNameLen) (kind : Kind)
    (p : Patcher) : truncateKey opts key kind p = truncateWithCollisions opts key kind p := if_neg h

/-- `_truncate_name` truncates the key and keeps the rest. -/
theorem truncateName_eq (name : Text) (kind : Kind) (p : Patcher) :
    truncateName opts name kind p =
      ((truncateKey opts (keyOf kind name) kind p).1 ++ tailOf kind name,
        (truncateKey opts (keyOf kind name) kind p).2) := by
  cases kind with
  | property =>
    simp only [truncateName, keyOf, tailOf, truncateKey, List.append_nil]
    rfl
  | node =>
    have hsplit := keyOf_append_tailOf .node name
    by_cases hat : '@' ∈ name
    · have htail : tailOf .node name = '@' :: (name.dropWhile (· != '@')).drop 1 := by
        have hhead := List.head?_dropWhile_not (· != '@') name
        rcases hd : name.dropWhile (· != '@') with _ | ⟨c, r⟩
        · have hall := List.dropWhile_eq_nil_iff.1 hd '@' hat
          simp at hall
        · rw [hd] at hhead
          simp only [tailOf, hd]
          simp_all
      simp only [truncateName, if_pos hat]
      by_cases hle : ((keyOf .node name).length : ℤ) ≤ opts.maxNameLen
      · rw [truncateKey_short opts hle, if_pos (by exact hle), hsplit]
      · rw [truncateKey_long opts hle, if_neg (by exact hle), htail]
        rfl
    · have hkey : keyOf .node name = name := by
        refine List.takeWhile_eq_self_iff.2 fun c hc => ?_
        simp only [bne_iff_ne, ne_eq]
        rintro rfl
        exact hat hc
      have htail : tailOf .node name = [] := by
        rw [hkey] at hsplit
        simpa using hsplit
      simp only [truncateName, if_neg hat, hkey, htail, truncateKey, List.append_nil]

end

theorem taken_iff (p : Patcher) (kind : Kind) (name candidate : Text) :
    p.taken kind name candidate ↔
      ∃ y, y ≠ name ∧ p.truncateSeen.lookup y = some (candidate, kind) := by
  simp only [taken, List.any_eq_true, Bool.and_eq_true, beq_iff_eq, bne_iff_ne]
  constructor
  · rintro ⟨⟨y, tr, k⟩, he, rfl, hy, rfl⟩
    exact ⟨y, hy, AList.mem_lookup_iff.2 he⟩
  · rintro ⟨y, hy, hl⟩
    exact ⟨⟨y, candidate, kind⟩, AList.mem_lookup_iff.1 hl, rfl, hy, rfl⟩

/-- The probe stops at the first free candidate. -/
theorem probe_eq {opts : Options} {isTaken : Text → Bool} {base name : Text} {c : ℕ → Text} {m : ℕ}
    (hm : m ≤ 99) (hc : ∀ j, j < 99 → numbered opts base (j + 1) = c (j + 1))
    (htaken : ∀ j < m, isTaken (c j)) (hfree : ¬ isTaken (c m)) :
    ∀ fuel s, s ≤ m → m - s < fuel → probe opts isTaken base name fuel s (c s) = c m := by
  intro fuel
  induction fuel with
  | zero => intro s _ h; omega
  | succ fuel ih =>
    intro s hs hf
    rcases Nat.lt_or_eq_of_le hs with hlt | rfl
    · rw [probe, if_pos (htaken s hlt), if_neg (by omega), hc s (by omega)]
      exact ih (s + 1) hlt (by omega)
    · rw [probe, if_neg hfree]

end Patcher

open Patcher

/-! ## Numbers -/

/-- The suffix of the `i`-th key with the same first characters. -/
def number (i : ℕ) : Text := if i = 0 then [] else suffixText i

/-- The number written in a suffix. -/
def numberValue (t : Text) : ℕ := (t.drop 1).foldl (fun v c => 10 * v + (c.toNat - '0'.toNat)) 0

theorem number_facts : ∀ i < 100, (number i).length ≤ 3 ∧ '@' ∉ number i ∧
    numberValue (number i) = i := by
  decide +kernel

theorem number_inj {i j : ℕ} (hi : i < 100) (hj : j < 100) (h : number i = number j) : i = j := by
  rw [← (number_facts i hi).2.2, h, (number_facts j hj).2.2]

/-- The truncation of a key, in closed form. -/
def numberedKey (key : Text) (i : ℕ) : Text := key.take 28 ++ number i

theorem numberedKey_inj {x y : Text} {i j : ℕ} (hx : 31 < x.length) (hy : 31 < y.length)
    (hi : i < 100) (hj : j < 100) (h : numberedKey x i = numberedKey y j) :
    x.take 28 = y.take 28 ∧ i = j := by
  obtain ⟨h1, h2⟩ := List.append_inj h (by simp; omega)
  exact ⟨h1, number_inj hi hj h2⟩

theorem length_le_default {key : Text} :
    (key.length : ℤ) ≤ ({} : Options).maxNameLen ↔ key.length ≤ 31 := by
  show (key.length : ℤ) ≤ 31 ↔ _
  omega

theorem baseOf_default {key : Text} (h : 31 < key.length) : baseOf {} key = key.take 28 := by
  have h30 : (key.length : ℤ) > ({} : Options).maxNameLen - 1 := by
    show (key.length : ℤ) > 31 - 1; omega
  simp only [baseOf, takeTo, h30, if_true]
  rfl

theorem numbered_default {key : Text} (h : 31 < key.length) {j : ℕ} (hj : j < 99) :
    numbered {} (baseOf {} key) (j + 1) = numberedKey key (j + 1) := by
  have hl := (number_facts (j + 1) (by omega)).1
  have hn : number (j + 1) = suffixText (j + 1) := by simp [number]
  rw [hn] at hl
  rw [baseOf_default h, numbered, numberedKey, hn, takeTo]
  have h0 : (0 : ℤ) ≤ ({} : Options).maxNameLen - (suffixText (j + 1)).length := by
    show (0 : ℤ) ≤ 31 - _; omega
  rw [if_pos h0, List.take_of_length_le]
  have : ((({} : Options).maxNameLen - (suffixText (j + 1)).length).toNat) ≥ 28 := by
    show Int.toNat (31 - _) ≥ 28; omega
  simp only [List.length_take]; omega

/-! ## The keys met -/

/-- The calls of `_truncate_name` in one pass. -/
abbrev NameCalls := List (Kind × Text)

/-- `key` is too long, and is met in a name of the kind `k`. -/
def LongKey (cs : NameCalls) (k : Kind) (key : Text) : Prop :=
  31 < key.length ∧ ∃ x, (k, x) ∈ cs ∧ keyOf k x = key

/-- One more call: its key, if it is of the kind `k`, too long, begins with
    `base` and is new. -/
def meet (k : Kind) (base : Text) (keys : List Text) (c : Kind × Text) : List Text :=
  if c.1 = k ∧ 31 < (keyOf k c.2).length ∧ (keyOf k c.2).take 28 = base ∧
      keys.contains (keyOf k c.2) = false then
    keys ++ [keyOf k c.2]
  else keys

/-- The different keys of the kind `k` that are too long and begin with `base`,
    in the order in which they are met. -/
def met (k : Kind) (base : Text) (cs : NameCalls) : List Text := cs.foldl (meet k base) []

theorem met_concat (k : Kind) (base : Text) (cs : NameCalls) (c : Kind × Text) :
    met k base (cs ++ [c]) = meet k base (met k base cs) c := by
  simp [met]

theorem meet_eq (k : Kind) (base : Text) (keys : List Text) (c : Kind × Text) :
    meet k base keys c = if c.1 = k ∧ 31 < (keyOf k c.2).length ∧ (keyOf k c.2).take 28 = base ∧
      keyOf k c.2 ∉ keys then keys ++ [keyOf k c.2] else keys := by
  simp [meet]

theorem meet_mono (k : Kind) (base : Text) (keys : List Text) (c : Kind × Text) :
    keys <+: meet k base keys c := by
  unfold meet; split_ifs
  · exact List.prefix_append _ _
  · exact List.prefix_rfl

theorem met_mono (k : Kind) (base : Text) (cs ds : NameCalls) :
    met k base cs <+: met k base (cs ++ ds) := by
  induction ds using List.reverseRecOn with
  | nil => simp
  | append_singleton ds c ih =>
    rw [← List.append_assoc, met_concat]
    exact ih.trans (meet_mono _ _ _ _)

theorem mem_met {k : Kind} {base key : Text} {cs : NameCalls} :
    key ∈ met k base cs ↔ LongKey cs k key ∧ key.take 28 = base := by
  induction cs using List.reverseRecOn with
  | nil => simp [met, LongKey]
  | append_singleton cs c ih =>
    obtain ⟨k', x⟩ := c
    rw [met_concat, meet_eq]
    constructor
    · intro h
      split_ifs at h with hc
      · rcases List.mem_append.1 h with h | h
        · obtain ⟨⟨hl, y, hy, hk⟩, hb⟩ := ih.1 h
          exact ⟨⟨hl, y, by simp [hy], hk⟩, hb⟩
        · obtain ⟨rfl, hl, hb, -⟩ := hc
          obtain rfl : key = keyOf k' x := by simpa using h
          exact ⟨⟨hl, x, by simp, rfl⟩, hb⟩
      · obtain ⟨⟨hl, y, hy, hk⟩, hb⟩ := ih.1 h
        exact ⟨⟨hl, y, by simp [hy], hk⟩, hb⟩
    · rintro ⟨⟨hl, y, hy, rfl⟩, rfl⟩
      by_cases hin : keyOf k y ∈ met k ((keyOf k y).take 28) cs
      · rw [← meet_eq]
        exact (meet_mono k _ _ (k', x)).subset hin
      · have hnew : (k, y) ∉ cs := fun h => hin (ih.2 ⟨⟨hl, y, h, rfl⟩, rfl⟩)
        obtain ⟨rfl, rfl⟩ : k = k' ∧ y = x := by simpa [hnew] using hy
        rw [if_pos ⟨rfl, hl, rfl, hin⟩]
        simp

theorem met_nodup (k : Kind) (base : Text) (cs : NameCalls) : (met k base cs).Nodup := by
  induction cs using List.reverseRecOn with
  | nil => simp [met]
  | append_singleton cs c ih =>
    rw [met_concat, meet_eq]
    split_ifs with h
    · exact List.nodup_append.2
        ⟨ih, by simp, by simpa using fun a ha => ne_of_mem_of_not_mem ha h.2.2.2⟩
    · exact ih

/-- How many keys with the same first characters are met before `key`. -/
def rank (cs : NameCalls) (k : Kind) (key : Text) : ℕ := (met k (key.take 28) cs).idxOf key

theorem rank_append {cs : NameCalls} {k : Kind} {key : Text} (h : LongKey cs k key) (ds : NameCalls) :
    rank (cs ++ ds) k key = rank cs k key := by
  obtain ⟨ks, hks⟩ := met_mono k (key.take 28) cs ds
  rw [rank, ← hks, List.idxOf_append_of_mem (mem_met.2 ⟨h, rfl⟩)]
  rfl

/-- The truncation of a name in closed form: the first 28 characters of its key,
    numbered by rank. -/
def renamed (cs : NameCalls) (k : Kind) (name : Text) : Text :=
  if (keyOf k name).length ≤ 31 then name
  else numberedKey (keyOf k name) (rank cs k (keyOf k name)) ++ tailOf k name

/-- The calls that keep clear of the table's gaps. -/
structure Separated (cs : NameCalls) : Prop where
  /-- a long key used for nodes and for properties is the only one with its
      first 28 characters -/
  kinds : ∀ key, LongKey cs .node key → LongKey cs .property key →
    ∀ k key', LongKey cs k key' → key'.take 28 = key.take 28 → key' = key
  /-- there are numbers for all long keys that share their first 28 characters -/
  few : ∀ k base, (met k base cs).length ≤ 100
  /-- no short name is spelled like a truncation of its kind -/
  short : ∀ k x y, (k, x) ∈ cs → (k, y) ∈ cs → 31 < (keyOf k x).length →
    (keyOf k y).length ≤ 31 → y ≠ renamed cs k x

/-! ## The table -/

/-- The table after the calls `cs`: the long keys met, each with its truncation
    for the kind it was last met as. -/
structure TableOf (cs : NameCalls) (p : Patcher) : Prop where
  sound : ∀ key tr k, p.truncateSeen.lookup key = some (tr, k) →
    LongKey cs k key ∧ tr = numberedKey key (rank cs k key)
  complete : ∀ k key, LongKey cs k key → ∃ tr k', p.truncateSeen.lookup key = some (tr, k')

theorem LongKey.append {cs : NameCalls} {k : Kind} {key : Text} (h : LongKey cs k key)
    (ds : NameCalls) : LongKey (cs ++ ds) k key := by
  obtain ⟨hl, x, hx, hk⟩ := h
  exact ⟨hl, x, by simp [hx], hk⟩

theorem rank_lt {cs : NameCalls} {k : Kind} {key : Text} (h : LongKey cs k key) :
    rank cs k key < (met k (key.take 28) cs).length :=
  List.idxOf_lt_length_iff.2 (mem_met.2 ⟨h, rfl⟩)

/-- The rank of the key of a call, whether it was met before or not. -/
theorem rank_concat (cs : NameCalls) (k : Kind) (x : Text) :
    rank (cs ++ [(k, x)]) k (keyOf k x) = (met k ((keyOf k x).take 28) cs).idxOf (keyOf k x) := by
  rw [rank, met_concat, meet_eq]
  split_ifs with h
  · rw [List.idxOf_append_of_notMem h.2.2.2, List.idxOf_eq_length_iff.2 h.2.2.2]
    simp
  · rfl

section
variable {cs ds : NameCalls} {k : Kind} {x : Text} (hs : Separated (cs ++ (k, x) :: ds))
include hs

theorem few_before (k' : Kind) (base : Text) : (met k' base cs).length ≤ 100 :=
  (met_mono k' base cs _).length_le.trans (hs.few k' base)

/-- The other keys with the same first characters are in the table under their
    own kind. -/
theorem lookup_rival {p : Patcher} (ht : TableOf cs p) (hlong : 31 < (keyOf k x).length) {y : Text}
    (hy : LongKey cs k y) (hne : y ≠ keyOf k x) (hb : y.take 28 = (keyOf k x).take 28) :
    p.truncateSeen.lookup y = some (numberedKey y (rank cs k y), k) := by
  obtain ⟨tr, k', hl⟩ := ht.complete k y hy
  obtain ⟨hy', rfl⟩ := ht.sound y tr k' hl
  have hx : LongKey (cs ++ (k, x) :: ds) k (keyOf k x) := ⟨hlong, x, by simp, rfl⟩
  -- under two kinds `y` would have to be the only key with its first characters
  have hk : k' = k := by
    by_contra hkk
    have both : LongKey (cs ++ (k, x) :: ds) .node y ∧ LongKey (cs ++ (k, x) :: ds) .property y := by
      cases k <;> cases k' <;> first
        | exact absurd rfl hkk
        | exact ⟨hy.append _, hy'.append _⟩
        | exact ⟨hy'.append _, hy.append _⟩
    exact hne (hs.kinds y both.1 both.2 k _ hx hb.symm).symm
  rw [hl, hk]

/-- A candidate is taken when it belongs to another key. -/
theorem taken_numberedKey {p : Patcher} (ht : TableOf cs p) (hlong : 31 < (keyOf k x).length)
    {j : ℕ} (hj : j < 100) :
    p.taken k (keyOf k x) (numberedKey (keyOf k x) j) ↔
      ∃ y, y ≠ keyOf k x ∧ (met k ((keyOf k x).take 28) cs)[j]? = some y := by
  rw [taken_iff]
  constructor
  · rintro ⟨y, hne, hl⟩
    obtain ⟨hy, he⟩ := ht.sound y _ k hl
    have hr := Nat.lt_of_lt_of_le (rank_lt hy) (few_before hs k _)
    obtain ⟨hb, rfl⟩ := numberedKey_inj hlong hy.1 hj hr he
    refine ⟨y, hne, ?_⟩
    rw [hb]
    exact List.getElem?_idxOf (mem_met.2 ⟨hy, rfl⟩)
  · rintro ⟨y, hne, hy⟩
    obtain ⟨hyl, hb⟩ := mem_met.1 (List.mem_of_getElem? hy)
    refine ⟨y, hne, ?_⟩
    rw [lookup_rival hs ht hlong hyl hne hb]
    have hr : rank cs k y = j := by
      rw [rank, hb]
      obtain ⟨hjl, rfl⟩ := List.getElem?_eq_some_iff.1 hy
      exact (met_nodup _ _ _).idxOf_getElem j hjl
    rw [hr, numberedKey, numberedKey, hb]

/-- A call numbers its key by rank. -/
theorem truncateWithCollisions_eq {p : Patcher} (ht : TableOf cs p)
    (hlong : 31 < (keyOf k x).length) :
    (truncateWithCollisions {} (keyOf k x) k p).1 =
      numberedKey (keyOf k x) (rank (cs ++ [(k, x)]) k (keyOf k x)) := by
  rw [rank_concat]
  set M := met k ((keyOf k x).take 28) cs with hM
  set m := M.idxOf (keyOf k x) with hm
  have hlast : LongKey (cs ++ [(k, x)]) k (keyOf k x) := ⟨hlong, x, by simp, rfl⟩
  have hm99 : m ≤ 99 := by
    have h1 := rank_lt hlast
    have h2 := (met_mono k ((keyOf k x).take 28) (cs ++ [(k, x)]) ds).length_le
    have h3 := hs.few k ((keyOf k x).take 28)
    rw [List.append_assoc] at h2
    rw [rank_concat] at h1
    exact Nat.le_of_lt_succ (Nat.lt_of_lt_of_le (Nat.lt_of_lt_of_le h1 h2) h3)
  have hbase : numberedKey (keyOf k x) 0 = baseOf {} (keyOf k x) := by
    rw [baseOf_default hlong, numberedKey]; simp [number]
  simp only [truncateWithCollisions]
  rw [← hbase]
  refine probe_eq (c := numberedKey (keyOf k x)) hm99 (fun j hj => ?_) (fun j hj => ?_) ?_ 101 0
    (Nat.zero_le _) (by omega)
  · rw [hbase]; exact numbered_default hlong hj
  · rw [taken_numberedKey hs ht hlong (by omega)]
    have hjl : j < M.length := Nat.lt_of_lt_of_le hj List.idxOf_le_length
    refine ⟨M[j], fun he => ?_, List.getElem?_eq_getElem hjl⟩
    have hnd : M.Nodup := met_nodup k ((keyOf k x).take 28) cs
    have hidx := hnd.idxOf_getElem j hjl
    rw [he] at hidx
    omega
  · rw [taken_numberedKey hs ht hlong (by omega)]
    rintro ⟨y, hne, hy⟩
    obtain ⟨hml, rfl⟩ := List.getElem?_eq_some_iff.1 hy
    exact hne (List.getElem_idxOf hml)

/-- One call keeps the table. -/
theorem TableOf.step {p : Patcher} (ht : TableOf cs p) :
    TableOf (cs ++ [(k, x)]) (truncateName {} x k p).2 := by
  have hold : ∀ {k' key}, LongKey cs k' key → LongKey (cs ++ [(k, x)]) k' key := fun h => h.append _
  rw [truncateName_eq]
  by_cases hle : ((keyOf k x).length : ℤ) ≤ ({} : Options).maxNameLen
  · have hshort := length_le_default.1 hle
    rw [truncateKey_short _ hle]
    refine ⟨fun key tr k' hl => ?_, fun k' key hk => ?_⟩
    · obtain ⟨h1, h2⟩ := ht.sound key tr k' hl
      exact ⟨hold h1, by rw [rank_append h1, h2]⟩
    · obtain ⟨hl, y, hy, hky⟩ := hk
      rcases List.mem_append.1 hy with hy | hy
      · exact ht.complete k' key ⟨hl, y, hy, hky⟩
      · obtain ⟨rfl, rfl⟩ : k' = k ∧ y = x := by simpa using hy
        rw [hky] at hshort; omega
  · have hlong := Nat.lt_of_not_le fun h => hle (length_le_default.2 h)
    have hkey : LongKey (cs ++ [(k, x)]) k (keyOf k x) := ⟨hlong, x, by simp, rfl⟩
    have hval := truncateWithCollisions_eq hs ht hlong
    rw [truncateKey_long _ hle]
    have hseen : (truncateWithCollisions {} (keyOf k x) k p).2.truncateSeen =
        p.truncateSeen.insert (keyOf k x) ((truncateWithCollisions {} (keyOf k x) k p).1, k) := rfl
    rw [hval] at hseen
    refine ⟨fun key tr k' hl => ?_, fun k' key hk => ?_⟩
    · rw [hseen] at hl
      by_cases he : key = keyOf k x
      · subst he
        rw [AList.lookup_insert] at hl
        obtain ⟨rfl, rfl⟩ := Prod.mk.inj (Option.some.inj hl)
        exact ⟨hkey, rfl⟩
      · rw [AList.lookup_insert_ne he] at hl
        obtain ⟨h1, h2⟩ := ht.sound key tr k' hl
        exact ⟨hold h1, by rw [rank_append h1, h2]⟩
    · rw [hseen]
      by_cases he : key = keyOf k x
      · exact ⟨_, _, by rw [he, AList.lookup_insert]⟩
      · rw [AList.lookup_insert_ne he]
        obtain ⟨hl, y, hy, hky⟩ := hk
        rcases List.mem_append.1 hy with hy | hy
        · exact ht.complete k' key ⟨hl, y, hy, hky⟩
        · obtain ⟨rfl, rfl⟩ : k' = k ∧ y = x := by simpa using hy
          exact absurd hky.symm he

/-- One call returns the closed form. -/
theorem truncateName_renamed {p : Patcher} (ht : TableOf cs p) :
    (truncateName {} x k p).1 = renamed (cs ++ (k, x) :: ds) k x := by
  rw [truncateName_eq, renamed]
  by_cases hle : ((keyOf k x).length : ℤ) ≤ ({} : Options).maxNameLen
  · have hshort := length_le_default.1 hle
    rw [truncateKey_short _ hle, if_pos hshort, keyOf_append_tailOf]
  · have hlong := Nat.lt_of_not_le fun h => hle (length_le_default.2 h)
    have hkey : LongKey (cs ++ [(k, x)]) k (keyOf k x) := ⟨hlong, x, by simp, rfl⟩
    have hrank := rank_append hkey ds
    rw [List.append_assoc] at hrank
    rw [truncateKey_long _ hle, if_neg (by omega), truncateWithCollisions_eq hs ht hlong]
    exact congrArg (fun i => numberedKey (keyOf k x) i ++ tailOf k x) hrank.symm

end

/-! ## Runs -/

/-- The results of the calls of one pass. -/
def truncateAll : NameCalls → Patcher → List Text
  | [], _ => []
  | (k, x) :: cs, p => (truncateName {} x k p).1 :: truncateAll cs (truncateName {} x k p).2

/-- From a table for the calls so far, every call returns its closed form. -/
theorem truncateAll_renamed {cs ds : NameCalls} {p : Patcher} (hs : Separated (cs ++ ds))
    (ht : TableOf cs p) : truncateAll ds p = ds.map fun c => renamed (cs ++ ds) c.1 c.2 := by
  induction ds generalizing cs p with
  | nil => rfl
  | cons c ds ih =>
    obtain ⟨k, x⟩ := c
    have hs' : Separated ((cs ++ [(k, x)]) ++ ds) := by simpa using hs
    rw [truncateAll, truncateName_renamed hs ht, ih hs' (ht.step hs), List.map_cons]
    simp

theorem truncateAll_eq {cs : NameCalls} (hs : Separated cs) :
    truncateAll cs {} = cs.map fun c => renamed cs c.1 c.2 := by
  have hs' : Separated ([] ++ cs) := hs
  refine truncateAll_renamed hs' ⟨fun key tr k h => ?_, fun k key h => ?_⟩
  · cases h
  · obtain ⟨-, x, hx, -⟩ := h
    cases hx

theorem notMem_numberedKey {key : Text} {i : ℕ} (hi : i < 100) (h : '@' ∉ key) :
    '@' ∉ numberedKey key i := by
  rw [numberedKey, List.mem_append]
  rintro (h' | h')
  · exact h (List.mem_of_mem_take h')
  · exact (number_facts i hi).2.1 h'

/-- Two texts without `@` in front of `@unit` parts. -/
theorem append_inj_at {a b u v : Text} (ha : '@' ∉ a) (hb : '@' ∉ b)
    (hu : u.head?.all (· == '@')) (hv : v.head?.all (· == '@')) (h : a ++ u = b ++ v) :
    a = b ∧ u = v := by
  have hrun : ∀ {a u : Text}, '@' ∉ a → u.head?.all (· == '@') →
      (a ++ u).takeWhile (· != '@') = a := by
    intro a u ha hu
    refine takeWhile_run (fun c hc => ?_) fun c hc => ?_
    · simp only [bne_iff_ne, ne_eq]; rintro rfl; exact ha hc
    · rw [Option.mem_def] at hc; rw [hc] at hu; simpa using hu
  have hab : a = b := by rw [← hrun ha hu, h, hrun hb hv]
  exact ⟨hab, by rw [hab] at h; exact List.append_cancel_left h⟩

theorem renamed_inj {cs : NameCalls} (hs : Separated cs) {k : Kind} {x y : Text} (hx : (k, x) ∈ cs)
    (hy : (k, y) ∈ cs) (h : renamed cs k x = renamed cs k y) : x = y := by
  by_cases hlx : (keyOf k x).length ≤ 31 <;> by_cases hly : (keyOf k y).length ≤ 31
  · simpa [renamed, hlx, hly] using h
  · have := hs.short k y x hy hx (by omega) hlx
    rw [renamed, if_pos hlx] at h
    exact absurd h this
  · have := hs.short k x y hx hy (by omega) hly
    rw [renamed.eq_def cs k y, if_pos hly] at h
    exact absurd h.symm this
  · have kx : LongKey cs k (keyOf k x) := ⟨by omega, x, hx, rfl⟩
    have ky : LongKey cs k (keyOf k y) := ⟨by omega, y, hy, rfl⟩
    have rx := Nat.lt_of_lt_of_le (rank_lt kx) (hs.few k _)
    have ry := Nat.lt_of_lt_of_le (rank_lt ky) (hs.few k _)
    rw [renamed, if_neg hlx, renamed, if_neg hly] at h
    obtain ⟨hkey, htail⟩ : numberedKey (keyOf k x) (rank cs k (keyOf k x)) =
        numberedKey (keyOf k y) (rank cs k (keyOf k y)) ∧ tailOf k x = tailOf k y := by
      cases k with
      | property => simpa [tailOf] using h
      | node =>
        have hat : ∀ z, '@' ∉ keyOf .node z := fun z hz => by
          simpa using List.mem_takeWhile_imp hz
        have htl : ∀ z, (tailOf .node z).head?.all (· == '@') := fun z => by
          have := List.head?_dropWhile_not (· != '@') z
          simp only [tailOf]
          cases hd : (z.dropWhile (· != '@')).head? <;> simp_all
        exact append_inj_at (notMem_numberedKey rx (hat x)) (notMem_numberedKey ry (hat y)) (htl x)
          (htl y) h
    obtain ⟨hb, hr⟩ := numberedKey_inj kx.1 ky.1 rx ry hkey
    have hkk : keyOf k x = keyOf k y := by
      have hmem := mem_met.2 ⟨kx, hb⟩
      rw [rank, rank, hb] at hr
      exact (List.idxOf_inj hmem).1 hr
    rw [← keyOf_append_tailOf k x, hkk, htail, keyOf_append_tailOf]

/-- The results `rs` of the calls `cs` are a consistent renaming: calls of a kind
    have the same result exactly when they have the same name. -/
def ConsistentRenaming (cs : NameCalls) (rs : List Text) : Prop :=
  ∀ (i j : ℕ) (k : Kind) (x y r s : Text), cs[i]? = some (k, x) → cs[j]? = some (k, y) → rs[i]? = some r →
    rs[j]? = some s → (r = s ↔ x = y)

/-- **Truncation renames consistently** on calls that keep clear of the table's
    gaps. -/
theorem truncate_consistent_of_separated (cs : NameCalls) (hs : Separated cs) :
    ConsistentRenaming cs (truncateAll cs {}) := by
  rw [truncateAll_eq hs]
  intro i j k x y r s hi hj hr hrs
  rw [List.getElem?_map, hi, Option.map_some, Option.some.injEq] at hr
  rw [List.getElem?_map, hj, Option.map_some, Option.some.injEq] at hrs
  subst hr hrs
  exact ⟨renamed_inj hs (List.mem_of_getElem? hi) (List.mem_of_getElem? hj),
    fun h => by rw [h]⟩

theorem met_length_le (k : Kind) (base : Text) (cs : NameCalls) : (met k base cs).length ≤ cs.length := by
  induction cs using List.reverseRecOn with
  | nil => simp [met]
  | append_singleton cs c ih =>
    rw [met_concat, meet_eq]
    split_ifs <;> simp <;> omega

/-- Two long property names with the same first characters, met twice, next to
    short ones. -/
def collidingCalls : NameCalls :=
  [(.property, List.replicate 32 'a'), (.property, List.replicate 31 'a' ++ ['b']),
   (.property, "reg".toList), (.node, List.replicate 28 'a'), (.property, List.replicate 32 'a')]

theorem collidingCalls_separated : Separated collidingCalls := by
  refine ⟨fun key hn => ?_, fun k base => ?_, fun k x y hx hy hlx hly => ?_⟩
  · obtain ⟨hl, x, hx, rfl⟩ := hn
    have hshort : ∀ c ∈ collidingCalls, c.1 = .node → (keyOf .node c.2).length ≤ 31 := by decide +kernel
    exact absurd (hshort _ hx rfl) (Nat.not_le.2 hl)
  · exact (met_length_le k base collidingCalls).trans (by decide)
  · have hall : ∀ c ∈ collidingCalls, ∀ d ∈ collidingCalls, c.1 = d.1 →
        31 < (keyOf c.1 c.2).length → (keyOf d.1 d.2).length ≤ 31 →
          d.2 ≠ renamed collidingCalls c.1 c.2 := by decide +kernel
    exact hall (k, x) hx (k, y) hy rfl hlx hly

theorem truncate_consistent_collidingCalls : Separated collidingCalls ∧
    ConsistentRenaming collidingCalls (truncateAll collidingCalls {}) :=
  ⟨collidingCalls_separated, truncate_consistent_of_separated _ collidingCalls_separated⟩

/-- A short property name that is spelled like the truncation of a long one. -/
theorem truncate_merges_short_and_long :
    ¬ ConsistentRenaming [(.property, List.replicate 28 'a'), (.property, List.replicate 32 'a')]
      (truncateAll [(.property, List.replicate 28 'a'), (.property, List.replicate 32 'a')] {}) := by
  intro h
  have hrun : truncateAll [(.property, List.replicate 28 'a'), (.property, List.replicate 32 'a')] {} =
      [List.replicate 28 'a', List.replicate 28 'a'] := by decide +kernel
  rw [hrun] at h
  have := (h 0 1 .property _ _ _ _ rfl rfl rfl rfl).1 rfl
  exact absurd this (by decide)

end PocketDarwin.PatchDtc
