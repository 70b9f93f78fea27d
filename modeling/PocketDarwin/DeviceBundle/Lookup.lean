/-
  Looking up the files of a bundle by their names (`getDriverPath`, `getResourcePath`).

  The code takes the first path that has the name in it, anywhere: in the name of another
  file, or of a directory.

  * `isInfix_of_named`: the path of a file has its name in it.
  * `lookup_iff`: the file of a name is found exactly if no path before it has the name in it,
    and no file is found exactly if no path at all has.
-/
import Mathlib.Data.List.DropRight
import PocketDarwin.DeviceBundle.Bundle

namespace PocketDarwin.DeviceBundle

/-! ## The code -/

/-- The loops of `getResourcePath` and `getDriverPath`. -/
def findPath (paths : List Text) (name : Text) : Text :=
  (paths.find? fun path => decide (name <:+: path)).getD []

/-- `getResourcePath` -/
def Bundle.getResourcePath (b : Bundle) (resourceName : Text) : Text :=
  findPath b.contents.resources resourceName

/-- `getDriverPath` -/
def Bundle.getDriverPath (b : Bundle) (driverName : Text) : Text :=
  findPath b.contents.drivers driverName

/-! ## Names of files -/

/-- `std::filesystem::path::filename` -/
def fileName (path : Text) : Text := path.rtakeWhile (· != '/')

/-- `std::filesystem::path::stem`: a dot in front is not that of an extension. -/
def stem (path : Text) : Text :=
  let name := fileName path
  let base := (name.rdropWhile (· != '.')).dropLast
  if base = [] ∨ name = "..".toList then name else base

/-- The name is that of the file, with or without its extension. -/
def Named (name path : Text) : Prop := name = fileName path ∨ name = stem path

instance (name path : Text) : Decidable (Named name path) := inferInstanceAs (Decidable (_ ∨ _))

/-- A result of a lookup is as it should be: the path of the only file of the name, or nothing, if
    there is none. -/
def LooksUp (paths : List Text) (name result : Text) : Prop :=
  (∀ path, paths.filter (Named name) = [path] → result = path) ∧
  (paths.filter (Named name) = [] → result = [])

/-- No path before the one that is looked for has the name in it. -/
def Unshadowed (paths : List Text) (name : Text) : Prop :=
  (∀ path, paths.filter (Named name) = [path] → ∀ other ∈ paths.takeWhile (· ≠ path),
    ¬ name <:+: other) ∧
    (paths.filter (Named name) = [] → ∀ other ∈ paths, ¬ name <:+: other)

/-! ## The first path -/

section
variable {paths : List Text} {name path : Text}

theorem isInfix_of_named (h : Named name path) : name <:+: path := by
  have hfile : fileName path <:+: path := (List.rtakeWhile_suffix _ _).isInfix
  rcases h with rfl | rfl
  · exact hfile
  · refine List.IsInfix.trans ?_ hfile
    unfold stem
    dsimp only
    split_ifs
    · exact List.infix_refl _
    · exact ((List.dropLast_prefix _).trans (List.rdropWhile_prefix _ _)).isInfix

/-- The first path that has the name in it. -/
theorem findPath_eq_iff (hpath : name <:+: path) (hmem : path ∈ paths) :
    findPath paths name = path ↔ ∀ other ∈ paths.takeWhile (· ≠ path), ¬ name <:+: other := by
  induction paths with
  | nil => simp at hmem
  | cons d paths ih =>
    by_cases hd : d = path
    · subst hd
      simp [findPath, hpath]
    have hmem' : path ∈ paths := (List.mem_cons.1 hmem).resolve_left (Ne.symm hd)
    rw [List.takeWhile_cons_of_pos (by simpa using hd), List.forall_mem_cons, ← ih hmem']
    by_cases hin : name <:+: d
    · -- the other path is found
      refine iff_of_false ?_ fun h => h.1 hin
      simpa [findPath, hin] using hd
    · simp [findPath, hin]

theorem findPath_eq_nil_iff (hne : ∀ path ∈ paths, name <:+: path → path ≠ []) :
    findPath paths name = [] ↔ ∀ path ∈ paths, ¬ name <:+: path := by
  rw [findPath]
  cases hfind : paths.find? fun path => decide (name <:+: path) with
  | none =>
    rw [List.find?_eq_none] at hfind
    exact iff_of_true rfl fun path hpath hin => hfind path hpath (by simpa using hin)
  | some path =>
    have hmem := List.mem_of_find?_eq_some hfind
    have hin : name <:+: path := by simpa using List.find?_some hfind
    exact iff_of_false (hne path hmem hin) fun h => h path hmem hin

/-- Only the empty text has nothing but the empty text in it, and it is its own name. -/
theorem ne_nil_of_not_named (hin : name <:+: path) (h : ¬ Named name path) : path ≠ [] := by
  rintro rfl
  obtain rfl := List.infix_nil.1 hin
  exact h (.inl rfl)

theorem looksUp_findPath_iff (paths : List Text) (name : Text) :
    LooksUp paths name (findPath paths name) ↔ Unshadowed paths name := by
  have hnone : paths.filter (Named name) = [] → ∀ path ∈ paths, name <:+: path → path ≠ [] := by
    intro hfilter path hpath hin
    have hnot := List.filter_eq_nil_iff.1 hfilter path hpath
    exact ne_nil_of_not_named hin (by simpa using hnot)
  refine and_congr (forall_congr' fun path => imp_congr_right fun hone => ?_)
    (imp_congr_right fun hfilter => findPath_eq_nil_iff (hnone hfilter))
  have hmem : path ∈ paths.filter (Named name) := by
    rw [hone]
    exact List.mem_singleton_self path
  obtain ⟨hpath, hnamed⟩ := List.mem_filter.1 hmem
  exact findPath_eq_iff (isInfix_of_named (by simpa using hnamed)) hpath

end

/-! ## Bundles -/

/-- **Files of a bundle.**  Drivers and resources are found by their names, and nothing by other
    names, exactly if no path before that of the file, or no path at all, has the name in it. -/
theorem lookup_iff (b : Bundle) (name : Text) :
    (LooksUp b.contents.drivers name (b.getDriverPath name) ↔ Unshadowed b.contents.drivers name) ∧
      (LooksUp b.contents.resources name (b.getResourcePath name) ↔
        Unshadowed b.contents.resources name) :=
  ⟨looksUp_findPath_iff _ _, looksUp_findPath_iff _ _⟩

/-- A directory with the driver of the audio device, and the one of the wireless device behind
    it. -/
def twoDrivers : Files where
  fileExists := fun _ => some true
  isDirectory := fun _ => some true
  list := fun _ => ([⟨true, "audio.so".toList, "b/wifi/audio.so".toList⟩,
    ⟨true, "wifi.so".toList, "b/wifi.so".toList⟩],
    true)
  read := fun _ => none

/-- The driver of the wireless device is looked for, and the other one is found, since the name is
    that of its directory; and for a name that no driver has, there is one. -/
theorem driver_of_directory :
    let b := (({} : Bundle).scanBundleContents twoDrivers).2
    b.contents.drivers.filter (Named "wifi".toList) = ["b/wifi.so".toList] ∧
      b.getDriverPath "wifi".toList = "b/wifi/audio.so".toList ∧
      ¬ LooksUp b.contents.drivers "wifi".toList (b.getDriverPath "wifi".toList) ∧
      b.contents.drivers.filter (Named "wi".toList) = [] ∧
      b.getDriverPath "wi".toList = "b/wifi/audio.so".toList := by
  refine ⟨by decide, by decide, fun h => ?_, by decide, by decide⟩
  exact absurd (h.1 _ (by decide : _ = ["b/wifi.so".toList])) (by decide)

end PocketDarwin.DeviceBundle
