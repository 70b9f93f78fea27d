/-
  What the loop of `parseDTS` finds in a text, and where.

  A match of the regular expression reaches from a key in front of a quote to what is behind
  the next one.  It depends on the text between the quotes before it and on these two alone.

  * `found_quotes`: the first match, told by the first two quotes.
  * `keyOf_append`, `keyOf_append_none`: the key of a match is the word that it ends with.
-/
import Mathlib.Data.List.TakeWhile
import PocketDarwin.DeviceBundle.DeviceTree

namespace PocketDarwin.DeviceBundle

/-! ## What is read, and where -/

/-- `readProperties`, with where each match ends. -/
def foundFrom : ℕ → ℕ → Text → List (ℕ × Text × Text)
  | 0, _, _ => []
  | n + 1, pos, s =>
    match regexSearch s with
    | none => []
    | some (key, value, suffix) =>
      (pos + (s.length - suffix.length), key, value) ::
        foundFrom n (pos + (s.length - suffix.length)) suffix

theorem map_foundFrom (n pos : ℕ) (s : Text) :
    (foundFrom n pos s).map Prod.snd = readProperties n s := by
  induction n generalizing pos s with
  | zero => rfl
  | succ n ih =>
    rw [foundFrom, readProperties]
    cases regexSearch s with
    | none => rfl
    | some m => rw [List.map_cons, ih]

/-- The matches in a text that starts after `pos` characters. -/
def found (pos : ℕ) (s : Text) : List (ℕ × Text × Text) := foundFrom s.length pos s

/-- A match takes two quotes and what is between them. -/
theorem matchHere_spec {s key value suffix : Text} (h : matchHere s = some (key, value, suffix)) :
    ∃ x, s = x ++ '"' :: (value ++ '"' :: ';' :: suffix) := by
  unfold matchHere at h
  split at h
  · rename_i c l s₁ hword heq
    split at h
    · rename_i s₂ hquote
      split at h
      · rename_i t hend
        obtain ⟨-, rfl, rfl⟩ : c :: l = key ∧
            s₂.takeWhile (· != '"') = value ∧ t = suffix := by simpa using h
        refine ⟨s.takeWhile isWord ++ ((s.dropWhile isWord).takeWhile isBlank ++ '=' :: s₁.takeWhile
          isBlank), ?_⟩
        calc s = s.takeWhile isWord ++ s.dropWhile isWord := (List.takeWhile_append_dropWhile).symm
          _ = s.takeWhile isWord ++ ((s.dropWhile isWord).takeWhile isBlank ++ '=' :: s₁) := by
            rw [← heq, List.takeWhile_append_dropWhile (l := s.dropWhile isWord)]
          _ = s.takeWhile isWord ++ ((s.dropWhile isWord).takeWhile isBlank ++
                '=' :: (s₁.takeWhile isBlank ++ '"' :: s₂)) := by
            rw [← hquote, List.takeWhile_append_dropWhile]
          _ = s.takeWhile isWord ++ ((s.dropWhile isWord).takeWhile isBlank ++
                '=' :: (s₁.takeWhile isBlank ++ '"' :: (s₂.takeWhile (· != '"')
                  ++ '"' :: ';' :: t))) := by
            rw [← hend, List.takeWhile_append_dropWhile]
          _ = _ := by simp
      · cases h
    · cases h
  · cases h

theorem regexSearch_spec {s key value suffix : Text} (h : regexSearch s = some (key, value, suffix)) :
    ∃ x, s = x ++ '"' :: (value ++ '"' :: ';' :: suffix) := by
  induction s with
  | nil => cases h
  | cons c s ih =>
    rw [regexSearch] at h
    cases hc : matchHere (c :: s) with
    | none =>
      rw [hc, Option.none_or] at h
      obtain ⟨x, rfl⟩ := ih h
      exact ⟨c :: x, rfl⟩
    | some m =>
      rw [hc, Option.some_or] at h
      exact matchHere_spec (hc.trans h)

theorem length_of_regexSearch {s key value suffix : Text}
    (h : regexSearch s = some (key, value, suffix)) :
    suffix.length < s.length := by
  obtain ⟨x, rfl⟩ := regexSearch_spec h
  simp only [List.length_append, List.length_cons]
  omega

theorem foundFrom_congr {n m : ℕ} {s : Text} (hn : s.length ≤ n) (hm : s.length ≤ m) (pos : ℕ) :
    foundFrom n pos s = foundFrom m pos s := by
  induction n generalizing m pos s with
  | zero =>
    obtain rfl := List.length_eq_zero_iff.1 (Nat.le_zero.1 hn)
    cases m <;> rfl
  | succ n ih =>
    cases m with
    | zero =>
      obtain rfl := List.length_eq_zero_iff.1 (Nat.le_zero.1 hm)
      rfl
    | succ m =>
      rw [foundFrom, foundFrom]
      cases hs : regexSearch s with
      | none => rfl
      | some r =>
        have hlen := length_of_regexSearch hs
        exact congrArg _ (ih (by omega) (by omega) _)

theorem found_eq (pos : ℕ) (s : Text) :
    found pos s =
      match regexSearch s with
      | none => []
      | some (key, value, suffix) =>
        (pos + (s.length - suffix.length), key, value) :: found (pos + (s.length - suffix.length))
          suffix := by
  cases s with
  | nil => rfl
  | cons c s =>
    rw [found, List.length_cons, foundFrom]
    cases hs : regexSearch (c :: s) with
    | none => rfl
    | some r =>
      have hlen := length_of_regexSearch hs
      rw [List.length_cons] at hlen
      exact congrArg _ (foundFrom_congr (by omega) le_rfl _)

/-! ## Matches and quotes -/

/-- A text without quotes that is the start of a match. -/
def leadsIn (o : Text) : Option Text :=
  match o.takeWhile isWord, (o.dropWhile isWord).dropWhile isBlank with
  | key@(_ :: _), '=' :: s => if s.all isBlank then some key else none
  | _, _ => none

/-- The key of the match that starts in a text without quotes and goes on behind it. -/
def keyOf : Text → Option Text
  | [] => none
  | c :: o => (leadsIn (c :: o)).or (keyOf o)

/-- What is behind the end of a declaration. -/
def afterEnd : Text → Option Text
  | ';' :: t => some t
  | _ => none

theorem afterEnd_isSome_iff {t : Text} : (afterEnd t).isSome ↔ t.head? = some ';' := by
  unfold afterEnd
  split
  · simp
  · rename_i h
    cases t with
    | nil => simp
    | cons c t =>
      simp only [Option.isSome_none, Bool.false_eq_true, List.head?_cons, Option.some.injEq,
        false_iff]
      rintro rfl
      exact h t rfl

theorem takeWhile_quote {f : Char → Bool} (hf : f '"' = false) (o t : Text) :
    (o ++ '"' :: t).takeWhile f = o.takeWhile f := by
  induction o with
  | nil => rw [List.nil_append, List.takeWhile_cons_of_neg (by simp [hf]), List.takeWhile_nil]
  | cons c o ih => rw [List.cons_append, List.takeWhile_cons, List.takeWhile_cons, ih]

theorem dropWhile_quote {f : Char → Bool} (hf : f '"' = false) (o t : Text) :
    (o ++ '"' :: t).dropWhile f = o.dropWhile f ++ '"' :: t := by
  induction o with
  | nil =>
    rw [List.nil_append, List.dropWhile_cons_of_neg (by simp [hf]), List.dropWhile_nil,
      List.nil_append]
  | cons c o ih =>
    rw [List.cons_append, List.dropWhile_cons, List.dropWhile_cons, ih]
    split <;> rfl

/-- What is matched up to two quotes. -/
theorem matchHere_quotes {o v : Text} (ho : '"' ∉ o) (hv : '"' ∉ v) (t : Text) :
    matchHere (o ++ '"' :: (v ++ '"' :: t)) = (leadsIn o).bind fun key => (afterEnd t).map fun t =>
      (key, v, t) := by
  have hrest : ∀ e ∈ (o.dropWhile isWord).dropWhile isBlank, e ≠ '"' := by
    rintro e he rfl
    exact ho ((List.dropWhile_sublist _).subset ((List.dropWhile_sublist _).subset he))
  have hvalue : (v ++ '"' :: t).takeWhile (· != '"') = v ∧ (v ++ '"' :: t).dropWhile (· != '"') =
      '"' :: t := by
    rw [takeWhile_quote (by decide), dropWhile_quote (by decide), List.takeWhile_eq_self_iff.2,
      List.dropWhile_eq_nil_iff.2]
    · exact ⟨rfl, rfl⟩
    · intro e he
      simpa using fun h : e = '"' => hv (h ▸ he)
    · intro e he
      simpa using fun h : e = '"' => hv (h ▸ he)
  unfold matchHere leadsIn
  rw [takeWhile_quote (by decide), dropWhile_quote (by decide), dropWhile_quote (by decide)]
  generalize (o.dropWhile isWord).dropWhile isBlank = b at hrest
  cases o.takeWhile isWord with
  | nil => rfl
  | cons c l =>
    cases b with
    | nil => rfl
    | cons d b =>
      by_cases hd : d = '='
      · subst hd
        simp only [List.cons_append, dropWhile_quote (f := isBlank) (by decide)]
        cases hb : b.dropWhile isBlank with
        | nil =>
          have hall : b.all isBlank = true := List.all_eq_true.2 (List.dropWhile_eq_nil_iff.1 hb)
          simp only [List.nil_append, hvalue, hall, if_true]
          rw [Option.bind_some, afterEnd.eq_def]
          split <;> simp_all
        | cons e b' =>
          have hmem : e ∈ b := (List.dropWhile_sublist _).subset (hb ▸ List.mem_cons_self)
          have he : e ≠ '"' := hrest e (List.mem_cons_of_mem _ hmem)
          have hall : b.all isBlank = false := by
            by_contra hall
            rw [List.dropWhile_eq_nil_iff.2 (List.all_eq_true.1 (Bool.not_eq_false _ ▸ hall))] at hb
            cases hb
          simp [he, hall]
      · simp [hd]

/-- **The next match** ends behind the next two quotes, or is one without the first of them. -/
theorem regexSearch_quotes {o v : Text} (ho : '"' ∉ o) (hv : '"' ∉ v) (t : Text) :
    regexSearch (o ++ '"' :: (v ++ '"' :: t)) =
      ((keyOf o).bind fun key => (afterEnd t).map fun t => (key, v, t)).or
        (regexSearch (v ++ '"' :: t)) := by
  induction o with
  | nil =>
    have hnone := matchHere_quotes ho hv t
    rw [List.nil_append] at hnone
    rw [List.nil_append, regexSearch, hnone]
    rfl
  | cons c o ih =>
    have hhere := matchHere_quotes ho hv t
    rw [List.cons_append] at hhere
    rw [List.cons_append, regexSearch, hhere, ih fun h => ho (List.mem_cons_of_mem c h), keyOf]
    cases leadsIn (c :: o) with
    | none => rfl
    | some key => cases afterEnd t <;> simp

/-- **The first match** ends behind the second quote, at the earliest. -/
theorem found_spec {pos e : ℕ} {s key value : Text} {l : List (ℕ × Text × Text)}
    (h : found pos s = (e, key, value) :: l) :
    ∃ x t, s = x ++ '"' :: (value ++ '"' :: ';' :: t) ∧ e = pos + x.length + value.length + 3 := by
  rw [found_eq] at h
  cases hs : regexSearch s with
  | none =>
    rw [hs] at h
    cases h
  | some m =>
    obtain ⟨key', value', suffix⟩ := m
    rw [hs] at h
    simp only [List.cons.injEq, Prod.mk.injEq] at h
    obtain ⟨⟨he, rfl, rfl⟩, -⟩ := h
    obtain ⟨x, rfl⟩ := regexSearch_spec hs
    refine ⟨x, suffix, rfl, ?_⟩
    rw [← he]
    simp only [List.length_append, List.length_cons]
    omega

/-- One quote is not enough for a match. -/
theorem found_of_count {s : Text} (h : s.count '"' ≤ 1) (pos : ℕ) : found pos s = [] := by
  cases hs : found pos s with
  | nil => rfl
  | cons m l =>
    obtain ⟨x, t, rfl, -⟩ := found_spec hs
    simp only [List.count_append, List.count_cons_self] at h
    omega

/-- A match ends behind a text that has one quote. -/
theorem lt_of_found {pos e : ℕ} {a s key value : Text} {l : List (ℕ × Text × Text)}
    (ha : a.count '"' ≤ 1)
    (h : found pos (a ++ s) = (e, key, value) :: l) : pos + a.length < e := by
  obtain ⟨x, t, heq, rfl⟩ := found_spec h
  have hsplit : a ++ s = (x ++ '"' :: (value ++ ['"'])) ++ ';' :: t := by simp [heq]
  rcases List.append_eq_append_iff.1 hsplit with ⟨c, hc, -⟩ | ⟨c, hc, -⟩
  · have hlen := congrArg List.length hc
    simp only [List.length_append, List.length_cons, List.length_nil] at hlen
    omega
  · rw [hc] at ha
    simp only [List.count_append, List.count_cons_self, List.count_nil] at ha
    omega

/-- **What is found** up to the next two quotes. -/
theorem found_quotes {o v : Text} (ho : '"' ∉ o) (hv : '"' ∉ v) (pos : ℕ) (t : Text) :
    found pos (o ++ '"' :: (v ++ '"' :: t)) =
      match keyOf o, afterEnd t with
      | some key, some t =>
        (pos + o.length + v.length + 3, key, v) :: found (pos + o.length + v.length + 3) t
      | _, _ => found (pos + o.length + 1) (v ++ '"' :: t) := by
  have hsearch := regexSearch_quotes ho hv t
  have hskip : regexSearch (o ++ '"' :: (v ++ '"' :: t)) = regexSearch (v ++ '"' :: t) →
      found pos (o ++ '"' :: (v ++ '"' :: t)) = found (pos + o.length + 1) (v ++ '"' :: t) := by
    intro heq
    rw [found_eq, found_eq (pos + o.length + 1), heq]
    cases hs : regexSearch (v ++ '"' :: t) with
    | none => rfl
    | some m =>
      have hlen : m.2.2.length < (v ++ '"' :: t).length := length_of_regexSearch hs
      have hpos : pos + ((o ++ '"' :: (v ++ '"' :: t)).length - m.2.2.length) =
          pos + o.length + 1 + ((v ++ '"' :: t).length - m.2.2.length) := by
        rw [List.length_append, List.length_cons]
        omega
      simp only [hpos]
  cases hkey : keyOf o with
  | none =>
    rw [hkey, Option.bind_none, Option.none_or] at hsearch
    exact hskip hsearch
  | some key =>
    cases hend : afterEnd t with
    | none =>
      rw [hkey, hend] at hsearch
      exact hskip hsearch
    | some t' =>
      obtain rfl : t = ';' :: t' := by
        unfold afterEnd at hend
        split at hend
        · exact congrArg _ (Option.some.inj hend)
        · cases hend
      rw [hkey, hend] at hsearch
      have hpos : pos + ((o ++ '"' :: (v ++ '"' :: ';' :: t')).length - t'.length) =
          pos + o.length + v.length + 3 := by
        simp only [List.length_append, List.length_cons]
        omega
      rw [found_eq, hsearch]
      simp only [Option.bind_some, Option.map_some, Option.some_or, hpos]

theorem found_of_not_mem {s : Text} (hs : '"' ∉ s) (pos : ℕ) : found pos s = [] :=
  found_of_count ((List.count_eq_zero_of_not_mem hs).le.trans (Nat.zero_le 1)) pos

theorem found_of_one {v s : Text} (hv : '"' ∉ v) (hs : '"' ∉ s) (pos : ℕ) :
    found pos (v ++ '"' :: s) = [] := by
  refine found_of_count (le_of_eq ?_) pos
  rw [List.count_append, List.count_cons_self, List.count_eq_zero_of_not_mem hv,
    List.count_eq_zero_of_not_mem hs]

/-! ## Keys -/

/-- A property of characters that no blank has. -/
theorem not_isBlank_of {f : Char → Bool} (hf : [' ', '\t', '\n', '\x0b', '\x0c', '\r'].any f = false)
    {c : Char} (h : f c = true) : isBlank c = false := by
  cases hc : isBlank c with
  | false => rfl
  | true =>
    have hmem : c ∈ [' ', '\t', '\n', '\x0b', '\x0c', '\r'] := by
      simpa [isBlank, or_assoc] using hc
    rw [List.any_eq_false] at hf
    exact absurd h (hf c hmem)

theorem not_isBlank_of_isWord {c : Char} (h : isWord c = true) : isBlank c = false :=
  not_isBlank_of (by decide) h

theorem leadsIn_eq_some_iff {o key : Text} :
    leadsIn o = some key ↔ ∃ b b' : Text, o = key ++ (b ++ '=' :: b') ∧ key ≠ [] ∧
    key.all isWord = true ∧
      b.all isBlank = true ∧ b'.all isBlank = true := by
  constructor
  · intro h
    unfold leadsIn at h
    split at h
    · rename_i c l s hword heq
      split_ifs at h with hall
      rw [Option.some.injEq] at h
      subst h
      refine ⟨(o.dropWhile isWord).takeWhile isBlank, s, ?_, List.cons_ne_nil _ _, ?_,
        List.all_takeWhile, hall⟩
      · rw [← heq, ← hword, List.takeWhile_append_dropWhile, List.takeWhile_append_dropWhile]
      · rw [← hword]
        exact List.all_takeWhile
    · cases h
  · rintro ⟨b, b', rfl, hne, hkey, hb, hb'⟩
    have hstop : (b ++ '=' :: b').takeWhile isWord = [] ∧ (b ++ '=' :: b').dropWhile isWord =
        b ++ '=' :: b' := by
      cases b with
      | nil => exact ⟨rfl, rfl⟩
      | cons d b =>
        rw [List.all_cons, Bool.and_eq_true] at hb
        have hd : isWord d = false := by
          by_contra hd
          rw [not_isBlank_of_isWord (Bool.not_eq_false _ ▸ hd)] at hb
          cases hb.1
        exact ⟨List.takeWhile_cons_of_neg (by simp [hd]), List.dropWhile_cons_of_neg (by simp [hd])⟩
    have heq : (b ++ '=' :: b').dropWhile isBlank = '=' :: b' := by
      rw [List.dropWhile_append_of_pos (List.all_eq_true.1 hb)]
      rfl
    obtain ⟨c, l, rfl⟩ := List.exists_cons_of_ne_nil hne
    unfold leadsIn
    rw [List.takeWhile_append_of_pos (List.all_eq_true.1 hkey),
      List.dropWhile_append_of_pos (List.all_eq_true.1 hkey),
      hstop.1, hstop.2, heq, List.append_nil]
    simp only [hb', if_true]

/-- The last `=` of a text that has only blanks behind it. -/
theorem eq_of_last_eq {x y b b' : Text} (hb : b.all isBlank = true) (hb' : b'.all isBlank = true)
    (h : x ++ '=' :: b = y ++ '=' :: b') : x = y := by
  have hmem : ∀ {l : Text}, l.all isBlank = true → '=' ∉ l :=
    fun h hmem => absurd (List.all_eq_true.1 h _ hmem) (by decide)
  rcases List.append_eq_append_iff.1 h with ⟨c, rfl, hc⟩ | ⟨c, rfl, hc⟩
  · cases c with
    | nil => rw [List.append_nil]
    | cons d c => exact absurd (by rw [(List.cons.inj hc).2]; simp) (hmem hb)
  · cases c with
    | nil => rw [List.append_nil]
    | cons d c => exact absurd (by rw [(List.cons.inj hc).2]; simp) (hmem hb')

/-- A key does not reach over a character that is not of a word. -/
theorem keyOf_append {x key b b' : Text} (hx : ∀ c ∈ x.getLast?, isWord c = false) (hne : key ≠ [])
    (hkey : key.all isWord = true) (hb : b.all isBlank = true) (hb' : b'.all isBlank = true) :
    keyOf (x ++ (key ++ (b ++ '=' :: b'))) = some key := by
  induction x with
  | nil =>
    have hlead : leadsIn (key ++ (b ++ '=' :: b')) = some key :=
      leadsIn_eq_some_iff.2 ⟨b, b', rfl, hne, hkey, hb, hb'⟩
    obtain ⟨c, l, rfl⟩ := List.exists_cons_of_ne_nil hne
    rw [List.nil_append, List.cons_append, keyOf]
    rw [List.cons_append] at hlead
    rw [hlead, Option.some_or]
  | cons c x ih =>
    have hnone : leadsIn (c :: x ++ (key ++ (b ++ '=' :: b'))) = none := by
      by_contra hsome
      obtain ⟨key', hkey'⟩ := Option.ne_none_iff_exists'.1 hsome
      obtain ⟨d, d', heq, -, hword, hd, hd'⟩ := leadsIn_eq_some_iff.1 hkey'
      have heq' : c :: x ++ (key ++ b) = key' ++ d := by
        refine eq_of_last_eq hb' hd' ?_
        simpa using heq
      have hlast : (c :: x).getLast (List.cons_ne_nil c x) ∈ c :: x := List.getLast_mem _
      have hlast' := hx _ (List.getLast?_eq_some_getLast (List.cons_ne_nil c x))
      rcases List.append_eq_append_iff.1 heq' with ⟨a, ha, -⟩ | ⟨a, ha, ha'⟩
      · -- the whole of it would be a word
        have hmem : (c :: x).getLast (List.cons_ne_nil c x) ∈ key' := by
          rw [ha]
          exact List.mem_append_left _ hlast
        rw [List.all_eq_true.1 hword _ hmem] at hlast'
        cases hlast'
      · -- the key would be blank
        obtain ⟨e, l, rfl⟩ := List.exists_cons_of_ne_nil hne
        have he : isBlank e = true := List.all_eq_true.1 hd _ (by rw [ha']; simp)
        rw [not_isBlank_of_isWord (List.all_eq_true.1 hkey _ List.mem_cons_self)] at he
        cases he
    rw [List.cons_append] at hnone
    rw [List.cons_append, keyOf, hnone, Option.none_or]
    refine ih fun d hd => hx d ?_
    cases x with
    | nil => cases hd
    | cons e x => rwa [List.getLast?_cons_cons]

/-- The text ends like the start of a property: with a key and `=`. -/
def EndsWithKey (o : Text) : Prop :=
  ∃ x key b b' : Text, o = x ++ (key ++ (b ++ '=' :: b')) ∧ key ≠ [] ∧ key.all isWord = true ∧
    b.all isBlank = true ∧ b'.all isBlank = true

theorem keyOf_isSome_iff {o : Text} : (keyOf o).isSome ↔ EndsWithKey o := by
  induction o with
  | nil => simp [keyOf, EndsWithKey]
  | cons c o ih =>
    rw [keyOf, Option.isSome_or, Bool.or_eq_true, ih]
    constructor
    · rintro (h | ⟨x, key, b, b', rfl, hkey⟩)
      · obtain ⟨key, hkey⟩ := Option.isSome_iff_exists.1 h
        obtain ⟨b, b', heq, hwf⟩ := leadsIn_eq_some_iff.1 hkey
        exact ⟨[], key, b, b', heq, hwf⟩
      · exact ⟨c :: x, key, b, b', rfl, hkey⟩
    · rintro ⟨x, key, b, b', heq, hkey⟩
      cases x with
      | nil =>
        exact .inl (Option.isSome_iff_exists.2 ⟨key, leadsIn_eq_some_iff.2 ⟨b, b', heq, hkey⟩⟩)
      | cons d x => exact .inr ⟨x, key, b, b', (List.cons.inj heq).2, hkey⟩

/-- Without a word at the end there is no key. -/
theorem keyOf_append_none {x b b' : Text}
    (hx : ∀ c ∈ x.getLast?, isWord c = false ∧ isBlank c = false)
    (hb : b.all isBlank = true) (hb' : b'.all isBlank = true) :
    keyOf (x ++ (b ++ '=' :: b')) = none := by
  cases hkey : keyOf (x ++ (b ++ '=' :: b')) with
  | none => rfl
  | some key =>
    exfalso
    obtain ⟨x', key', d, d', heq, hne, hword, hd, hd'⟩ :=
      keyOf_isSome_iff.1 (Option.isSome_iff_exists.2 ⟨key, hkey⟩)
    have heq' : x ++ b = x' ++ (key' ++ d) := by
      refine eq_of_last_eq hb' hd' ?_
      simpa using heq
    -- there is a word among the blanks, or the last character of `x` is in a word or blank
    have hblank : ∀ {a : Text}, ¬ b = a ++ (key' ++ d) := by
      rintro a rfl
      obtain ⟨e, l, rfl⟩ := List.exists_cons_of_ne_nil hne
      have he : isBlank e = true := List.all_eq_true.1 hb _ (by simp)
      rw [not_isBlank_of_isWord (List.all_eq_true.1 hword _ List.mem_cons_self)] at he
      cases he
    rcases List.append_eq_append_iff.1 heq' with ⟨a, -, ha⟩ | ⟨a, rfl, ha⟩
    · exact hblank ha
    · rcases List.eq_nil_or_concat a with rfl | ⟨a, c, rfl⟩
      · exact hblank (a := []) ha.symm
      · obtain ⟨hnotword, hnotblank⟩ := hx c (by simp)
        have hmem : c ∈ key' ++ d := by
          rw [ha]
          simp
        rcases List.mem_append.1 hmem with hc | hc
        · rw [List.all_eq_true.1 hword c hc] at hnotword
          cases hnotword
        · rw [List.all_eq_true.1 hd c hc] at hnotblank
          cases hnotblank

/-- A text that a name can follow: it does not end in the middle of a word. -/
def Fresh (o : Text) : Prop := ∀ c ∈ o.getLast?, isWord c = false

theorem Fresh.append {a b : Text} (ha : Fresh a) (hb : Fresh b) : Fresh (a ++ b) := by
  intro c hc
  rw [List.getLast?_append, Option.mem_def, Option.or_eq_some_iff] at hc
  rcases hc with hc | ⟨-, hc⟩
  · exact hb c hc
  · exact ha c hc

theorem Fresh.concat {a : Text} {d : Char} (hd : isWord d = false) : Fresh (a ++ [d]) := by
  intro c hc
  rw [List.getLast?_concat, Option.mem_some_iff] at hc
  rw [← hc, hd]

theorem Fresh.of_blank {b : Text} (hb : b.all isBlank = true) : Fresh b := by
  intro c hc
  cases hword : isWord c with
  | false => rfl
  | true =>
    have hblank := List.all_eq_true.1 hb c (List.mem_of_getLast? hc)
    rw [not_isBlank_of_isWord hword] at hblank
    cases hblank

end PocketDarwin.DeviceBundle
