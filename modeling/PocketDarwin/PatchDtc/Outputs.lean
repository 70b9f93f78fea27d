/-
  Where the patcher of `Tools/PatchDtc4Adt/main.py` reads and writes: `collect_inputs`,
  the choice of an output path in `main`, and the files that `process_one` writes.

  The file system is a parameter.  A path that an error of `pathlib` leaves out is `none`;
  the error ends the run, and what was written before stays.  The texts of the messages,
  the contents of the files, and the binary that `dtc` makes of them are left out.
-/
import Mathlib.Data.Char
import Mathlib.Data.List.Lex
import Mathlib.Data.List.Sort
import PocketDarwin.Pathlib

namespace PocketDarwin.PatchDtc.Outputs

/-! ## The file system -/

/-- What the patcher asks the file system.  An entry that is no directory has a name and
    lies in a directory. -/
structure FileSystem where
  isDir : Path → Bool
  isFile : Path → Bool
  resolve : Path → Path
  /-- `os.listdir` -/
  listdir : Path → List Text
  /-- `os.walk`, with the directories in order: each with the names of its files -/
  walk : Path → List (Path × List Text)
  isFile_entry : ∀ p, isFile p → p.name ≠ [] ∧ isDir p = false ∧ isDir p.parent = true
  walk_entry : ∀ p, ∀ d ∈ walk p, isDir d.1 = true ∧ ∀ n ∈ d.2, n ≠ [] ∧ isDir (d.1.child n) = false

/-- The arguments that decide about paths. -/
structure Args where
  inputs : List Path
  output : Option Path
  outputDir : Option Path
  mirror : Bool
  recurse : Bool
  dtsOnly : Bool
  noHeaders : Bool
  noCpp : Bool
  dryRun : Bool

/-- `text.lower()`, as far as it matters for the extensions below -/
def lower (text : Text) : Text := text.map Char.toLower

def dtsSourceExts : List Text := [".dts".toList, ".dtsi".toList]

def headerExts : List Text := [".h".toList, ".hpp".toList, ".dtsi.h".toList]

/-- `suffix.lower() == ".dts"` -/
def isDts (inp : Path) : Bool := lower inp.suffix = ".dts".toList

/-- `sorted`, for names -/
def sortedNames (names : List Text) : List Text := names.insertionSort (· ≤ ·)

/-! ## Inputs -/

/-- `walk_dts_tree` -/
def walkDtsTree (fs : FileSystem) (root : Path) (recurse includeHeaders dtsOnly : Bool) : List Path :=
  if fs.isDir root then
    let exts :=
      if dtsOnly then [".dts".toList] else if includeHeaders then dtsSourceExts ++ headerExts else dtsSourceExts
    if recurse then
      (fs.walk root).flatMap fun d => ((sortedNames d.2).map d.1.child).filter fun p => exts.contains (lower p.suffix)
    else
      ((sortedNames (fs.listdir root)).map root.child).filter fun p => fs.isFile p && exts.contains (lower p.suffix)
  else [root]

/-- The loop that adds the directories from `parent` up to the input. -/
def addAncestors (inp : Path) : ℕ → Path → List Path → List Path
  | 0, _, dirs => dirs
  | fuel + 1, parent, dirs =>
    if parent.isRelativeTo inp ∨ parent = inp then
      let dirs := if parent ∈ dirs then dirs else dirs ++ [parent]
      if parent = inp then dirs else addAncestors inp fuel parent.parent dirs
    else dirs

/-- The processing list of a directory. -/
def isWanted (args : Args) (f : Path) : Bool :=
  (args.dtsOnly && isDts f) ||
    (!args.dtsOnly &&
      (dtsSourceExts.contains (lower f.suffix) || (!args.noHeaders && headerExts.contains (lower f.suffix))))

/-- A round of the loop over the inputs, with the files and the include directories. -/
def collectInput (fs : FileSystem) (args : Args) (found : List Path × List Path) (inp : Path) :
    List Path × List Path :=
  if fs.isDir inp then
    let fullWalk := walkDtsTree fs inp args.recurse true false
    (found.1 ++ fullWalk.filter (isWanted args),
      fullWalk.foldl (fun dirs f => addAncestors inp (f.parts.length + 1) f.parent dirs) (found.2 ++ [inp]))
  else if fs.isFile inp then (found.1 ++ [inp], found.2 ++ [inp.parent])
  else found

/-- The loops that keep the first of all paths that resolve to the same. -/
def unique (fs : FileSystem) : List Path → List Path → List Path
  | _, [] => []
  | seen, f :: files =>
    if fs.resolve f ∈ seen then unique fs seen files else f :: unique fs (fs.resolve f :: seen) files

/-- `collect_inputs` -/
def collectInputs (fs : FileSystem) (args : Args) : List Path × List Path :=
  let found := args.inputs.foldl (collectInput fs args) ([], [])
  ((unique fs [] found.1).insertionSort fun a b => a.sortKey ≤ b.sortKey, unique fs [] found.2)

/-! ## Outputs -/

/-- `_mirror_output_path` -/
def mirrorOutputPath (inputPath inputRoot outputDir : Path) (newSuffix : Option Text) : Option Path := do
  let rel ← inputPath.relativeTo inputRoot
  let out := outputDir.join rel
  match newSuffix with
  | some suffix => out.withSuffix suffix
  | none => out.withSuffix (".patched".toList ++ inputPath.suffix)

/-- The first directory of the inputs, or the parent of the first file for `--mirror`. -/
def inputRoot (fs : FileSystem) (args : Args) (files : List Path) : Option Path :=
  match args.inputs.find? fs.isDir with
  | some dir => some dir
  | none => if args.mirror then files.head?.map Path.parent else none

/-- The output path that `main` hands to `process_one`: an error, or a path if there is
    one. -/
def chooseOutput (args : Args) (root : Option Path) (inp : Path) : Option (Option Path) :=
  match args.output, args.mirror, root, args.outputDir with
  | some out, _, _, _ => some (some out)
  | none, true, some root, some dir =>
    (mirrorOutputPath inp root dir (if isDts inp then some ".patched.dts".toList else none)).map some
  | none, _, _, some dir =>
    some (some (dir.child (inp.stem ++ if isDts inp then ".patched.dts".toList else ".patched".toList ++ inp.suffix)))
  | none, _, _, none => some none

/-- An input that was processed, with the paths that were written for it. -/
structure Processed where
  input : Path
  output : Path
  written : List Path

/-- The path of the preprocessed file, which is written on a dry run, too. -/
def prePaths (args : Args) (inp : Path) (out : Option Path) : Option (List Path) :=
  if args.noCpp then some []
  else do
    let prePath ← (out.getD inp).withSuffix ".preprocessed.dts".toList
    some [if args.dryRun then ⟨['/'], ["tmp".toList, inp.stem ++ ".preprocessed.dts".toList]⟩ else prePath]

/-- The output path of an input that is given none. -/
def defaultOutput (inp : Path) : Option Path :=
  if isDts inp then inp.withSuffix ".patched.dts".toList else inp.withSuffix (".patched".toList ++ inp.suffix)

/-- `process_one` -/
def processOne (args : Args) (inp : Path) (out : Option Path) : Option Processed := do
  let pre ← prePaths args inp out
  let output ← out.elim (defaultOutput inp) some
  some ⟨inp, output, pre ++ if args.dryRun then [] else [output]⟩

/-- The loop over the files, which an error ends. -/
def processAll (args : Args) (root : Option Path) : List Path → List Processed
  | [] => []
  | inp :: files =>
    match (chooseOutput args root inp).bind (processOne args inp) with
    | some done => done :: processAll args root files
    | none => []

/-- `main`, with its exit code where it returns early. -/
def main (fs : FileSystem) (args : Args) : Except ℕ (List Processed) :=
  if args.output.isSome ∧ (1 < args.inputs.length ∨ args.outputDir.isSome ∨ args.mirror) then .error 2
  else if args.mirror ∧ args.outputDir = none then .error 2
  else
    let files := (collectInputs fs args).1
    if files = [] then .error 1 else .ok (processAll args (inputRoot fs args files) files)

/-! ## Names of outputs -/

/-- The extension of a patched file: all spellings of `.dts` become one. -/
def ext (inp : Path) : Text := if isDts inp then ".dts".toList else inp.suffix

/-- The name of a patched file. -/
def patchedName (inp : Path) : Text := inp.stem ++ ".patched".toList ++ ext inp

theorem patchedName_eq (inp : Path) :
    inp.stem ++ (if isDts inp then ".patched.dts".toList else ".patched".toList ++ inp.suffix) = patchedName inp := by
  rw [patchedName, ext, List.append_assoc]
  split_ifs <;> rfl

/-- What may stand behind the last dot of a name. -/
structure IsExt (e : Text) : Prop where
  ne : e ≠ []
  noDot : '.' ∉ e

/-- An extension is none, or a dot with something behind it that has no dot. -/
theorem ext_cases (inp : Path) :
    (ext inp = [] ∧ inp.stem = inp.name ∧ inp.suffix = []) ∨
      ∃ e, ext inp = '.' :: e ∧ IsExt e ∧ inp.stem ≠ [] ∧ inp.suffix ≠ [] := by
  rw [ext, Path.stem, nameStem, Path.suffix, nameSuffix]
  rcases splitSuffix_cases inp.name with h | ⟨s, e, -, hs, he, hdot, h⟩
  · have hdts : isDts inp = false := by
      rw [isDts, Path.suffix, nameSuffix, h]
      rfl
    rw [hdts, h]
    exact .inl ⟨rfl, rfl, rfl⟩
  · rw [h]
    refine .inr ?_
    by_cases hdts : isDts inp
    · rw [if_pos hdts]
      exact ⟨"dts".toList, rfl, ⟨by decide, by decide⟩, hs, List.cons_ne_nil _ _⟩
    · rw [if_neg hdts]
      exact ⟨e, rfl, ⟨he, hdot⟩, hs, List.cons_ne_nil _ _⟩

theorem isExt_patched : IsExt "patched".toList := ⟨by decide, by decide⟩

/-- Names are equal if what is in front of their last dots is, and what is behind. -/
theorem append_dot_inj {s s' e e' : Text} (he : IsExt e) (he' : IsExt e') :
    s ++ '.' :: e = s' ++ '.' :: e' ↔ s = s' ∧ e = e' := by
  constructor
  · intro h
    have hfind := congrArg rfindDot h
    rw [rfindDot_append _ he.noDot, rfindDot_append _ he'.noDot, Option.some.injEq] at hfind
    obtain ⟨hs, htail⟩ := List.append_inj h hfind
    exact ⟨hs, (List.cons.inj htail).2⟩
  · rintro ⟨rfl, rfl⟩
    rfl

/-- A file without extension is patched to one with the extension `patched`, which is
    the patched name of no other file. -/
theorem patchedName_ne {a b : Path} {e : Text} (ha : ext a = []) (hstem : a.stem = a.name) (hsuffix : a.suffix = [])
    (hb : ext b = '.' :: e) (he : IsExt e) (hs : b.stem ≠ []) : patchedName a ≠ patchedName b := by
  intro h
  rw [patchedName, patchedName, ha, hb, List.append_nil] at h
  have hname := ((append_dot_inj isExt_patched he).1 h).1
  rw [hstem] at hname
  have hsplit : splitSuffix a.name = (b.stem, ".patched".toList) := by
    rw [hname]
    exact splitSuffix_append hs isExt_patched.ne isExt_patched.noDot
  rw [Path.suffix, nameSuffix, hsplit] at hsuffix
  cases hsuffix

/-- The name of a patched file tells the stem and the extension. -/
theorem patchedName_inj {a b : Path} : patchedName a = patchedName b ↔ a.stem = b.stem ∧ ext a = ext b := by
  constructor
  · intro h
    rcases ext_cases a with ⟨ha, hsa, hsufa⟩ | ⟨e, ha, he, hs, -⟩
    · rcases ext_cases b with ⟨hb, hsb, hsufb⟩ | ⟨e', hb, he', hs', -⟩
      · rw [patchedName, patchedName, ha, hb] at h
        exact ⟨List.append_cancel_right (List.append_cancel_right h), ha.trans hb.symm⟩
      · exact absurd h (patchedName_ne ha hsa hsufa hb he' hs')
    · rcases ext_cases b with ⟨hb, hsb, hsufb⟩ | ⟨e', hb, he', hs', -⟩
      · exact absurd h.symm (patchedName_ne hb hsb hsufb ha he hs)
      · rw [patchedName, patchedName, ha, hb] at h
        obtain ⟨hstem, rfl⟩ := (append_dot_inj he he').1 h
        exact ⟨List.append_cancel_right hstem, ha.trans hb.symm⟩
  · rintro ⟨hs, he⟩
    rw [patchedName, patchedName, hs, he]

/-- The stem of a patched file. -/
theorem nameStem_patchedName {inp : Path} (h : inp.name ≠ []) :
    nameStem (patchedName inp) = if inp.suffix = [] then inp.name else inp.stem ++ ".patched".toList := by
  rw [patchedName, nameStem]
  rcases ext_cases inp with ⟨he, hstem, hsuffix⟩ | ⟨e, he, hext, hs, hsuffix⟩
  · rw [if_pos hsuffix, he, hstem, List.append_nil]
    exact congrArg Prod.fst (splitSuffix_append h isExt_patched.ne isExt_patched.noDot)
  · rw [if_neg hsuffix, he]
    refine congrArg Prod.fst (splitSuffix_append (fun hnil => hs ?_) hext.ne hext.noDot)
    exact (List.append_eq_nil_iff.1 hnil).1

/-! ## Directories of outputs -/

/-- The directory that the patched file of an input goes to, unless there is an error. -/
def outDir (args : Args) (root : Option Path) (inp : Path) : Option Path :=
  match args.mirror, root, args.outputDir with
  | true, some root, some dir => (inp.relativeTo root).map fun rel => dir.join rel.parent
  | _, _, some dir => some dir
  | _, _, none => some inp.parent

def tmpDir : Path := ⟨['/'], ["tmp".toList]⟩

/-- The directory that the preprocessed file goes to. -/
def preDir (args : Args) (root : Option Path) (inp : Path) : Option Path :=
  if args.dryRun then some tmpDir else outDir args root inp

/-- Its name, which is made of the name of the patched file where there is a directory for
    the outputs. -/
def preName (args : Args) (inp : Path) : Text :=
  (if args.dryRun = false ∧ args.outputDir.isSome then
    if inp.suffix = [] then inp.name else inp.stem ++ ".patched".toList
  else inp.stem) ++ ".preprocessed.dts".toList

/-- The inputs in front of the first error. -/
def handled (args : Args) (root : Option Path) (files : List Path) : List Path :=
  files.takeWhile fun inp => (outDir args root inp).isSome

/-- No output is overwritten by another, and no input by anything. -/
structure NoOverwrite (files : List Path) (done : List Processed) : Prop where
  outputs : done.Pairwise fun a b => a.output ≠ b.output
  inputs : ∀ d ∈ done, ∀ p ∈ d.written, p ∉ files

/-- The names of the inputs keep the outputs apart from each other and from the inputs. -/
structure Separate (args : Args) (root : Option Path) (files : List Path) : Prop where
  outputs : (handled args root files).Pairwise fun a b =>
    outDir args root a = outDir args root b → a.stem = b.stem → ext a ≠ ext b
  patched : args.dryRun = false → ∀ a ∈ handled args root files, ∀ b ∈ files,
    outDir args root a = some b.parent → b.name ≠ a.stem ++ ".patched".toList ++ ext a
  preprocessed : args.noCpp = false → ∀ a ∈ handled args root files, ∀ b ∈ files,
    preDir args root a = some b.parent → b.name ≠ preName args a

/-! ## What is written for an input -/

/-- An input that is processed, with its output in `dir`. -/
def processed (args : Args) (root : Option Path) (inp dir : Path) : Processed where
  input := inp
  output := dir.child (patchedName inp)
  written :=
    (if args.noCpp then [] else [((preDir args root inp).getD dir).child (preName args inp)]) ++
      if args.dryRun then [] else [dir.child (patchedName inp)]

section
variable {args : Args} {root : Option Path} {inp : Path}

/-- The path of a mirrored output. -/
theorem mirrorOutputPath_eq {r dir : Path} (hname : inp.name ≠ []) (hroot : inp ≠ r) (newSuffix : Option Text) :
    mirrorOutputPath inp r dir newSuffix = (inp.relativeTo r).map fun rel =>
      (dir.join rel.parent).child (inp.stem ++ newSuffix.getD (".patched".toList ++ inp.suffix)) := by
  unfold mirrorOutputPath
  cases hrel : inp.relativeTo r with
  | none => rfl
  | some rel =>
    unfold Path.relativeTo at hrel
    split_ifs at hrel with hprefix
    obtain ⟨tail, htail⟩ := hprefix.2
    obtain rfl := Option.some.inj hrel
    rw [← htail, List.drop_left]
    -- what is left of the input is not empty, and has its name
    have htail' : tail ≠ [] := by
      rintro rfl
      refine hroot ?_
      obtain ⟨iroot, iparts⟩ := inp
      obtain ⟨rroot, rparts⟩ := r
      simp_all
    have hparent : (dir.join ⟨[], tail⟩).parent = dir.join (Path.parent ⟨[], tail⟩) := by
      simp [Path.join, Path.parent, List.dropLast_append_of_ne_nil htail']
    have hname' : (dir.join ⟨[], tail⟩).name = inp.name := by
      obtain ⟨init, last, rfl⟩ := (List.eq_nil_or_concat tail).resolve_left htail'
      simp [Path.join, Path.name, ← htail]
    have hne : (dir.join ⟨[], tail⟩).name ≠ [] := by rwa [hname']
    cases newSuffix with
    | none => simp [Path.withSuffix_eq hne, hparent, Path.stem, hname']
    | some suffix => simp [Path.withSuffix_eq hne, hparent, Path.stem, hname']

/-- What `process_one` writes for an input, with an output path in a directory. -/
theorem processOne_some {dir : Path} (hdir : outDir args root inp = some dir) (hod : args.outputDir.isSome)
    (hname : inp.name ≠ []) :
    processOne args inp (some (dir.child (patchedName inp))) = some (processed args root inp dir) := by
  have hne : (dir.child (patchedName inp)).name ≠ [] := by
    rw [Path.child_name, patchedName]
    simp [Path.stem_ne_nil hname]
  have hpre : (dir.child (patchedName inp)).withSuffix ".preprocessed.dts".toList =
      some (dir.child ((if inp.suffix = [] then inp.name else inp.stem ++ ".patched".toList) ++
        ".preprocessed.dts".toList)) := by
    rw [Path.withSuffix_eq hne, Path.child_parent, Path.stem, Path.child_name,
      nameStem_patchedName hname]
  unfold processOne prePaths processed preDir preName
  simp only [Option.getD_some, hpre, hdir, hod, and_true]
  cases args.noCpp <;> cases args.dryRun <;> rfl

/-- With none, it goes beside the input. -/
theorem processOne_none (hdir : outDir args root inp = some inp.parent) (hod : args.outputDir = none)
    (hname : inp.name ≠ []) : processOne args inp none = some (processed args root inp inp.parent) := by
  have hout : defaultOutput inp = some (inp.parent.child (patchedName inp)) := by
    rw [← patchedName_eq, defaultOutput]
    split_ifs <;> rw [Path.withSuffix_eq hname]
  unfold processOne prePaths processed preDir preName
  simp only [Option.getD_none, Path.withSuffix_eq hname, hdir, hod, Option.elim_none, hout]
  cases args.noCpp <;> cases args.dryRun <;> rfl

/-- With an output directory, flat or mirrored, the output path is in the directory of
    the output. -/
theorem chooseOutput_eq {dir : Path} (hout : args.output = none) (hod : args.outputDir = some dir)
    (hname : inp.name ≠ []) (hroot : root ≠ some inp) :
    chooseOutput args root inp = (outDir args root inp).map fun d => some (d.child (patchedName inp)) := by
  cases hm : args.mirror with
  | false => simp only [chooseOutput, outDir, hout, hod, hm, patchedName_eq, Option.map_some]
  | true =>
    cases root with
    | none => simp only [chooseOutput, outDir, hout, hod, hm, patchedName_eq, Option.map_some]
    | some r =>
      have hne : inp ≠ r := by
        intro heq
        rw [heq] at hroot
        exact hroot rfl
      simp only [chooseOutput, outDir, hout, hod, hm, mirrorOutputPath_eq hname hne, Option.map_map,
        ← patchedName_eq]
      congr 1
      funext rel
      cases isDts inp <;> rfl

variable (root inp) in
/-- Without one, it is left to `process_one`. -/
theorem chooseOutput_none (hout : args.output = none) (hod : args.outputDir = none) :
    chooseOutput args root inp = some none ∧ outDir args root inp = some inp.parent := by
  unfold chooseOutput outDir
  rw [hout, hod]
  constructor
  · split <;> simp_all
  · split <;> simp_all

/-- What the loop does with an input: it is processed where it has an output directory. -/
theorem process_eq (hout : args.output = none) (hname : inp.name ≠ []) (hroot : root ≠ some inp) :
    (chooseOutput args root inp).bind (processOne args inp) =
      (outDir args root inp).map (processed args root inp) := by
  cases hod : args.outputDir with
  | none =>
    obtain ⟨hchoose, hdir⟩ := chooseOutput_none root inp hout hod
    rw [hchoose, hdir]
    exact processOne_none hdir hod hname
  | some dir =>
    rw [chooseOutput_eq hout hod hname hroot]
    cases hdir : outDir args root inp with
    | none => rfl
    | some d => exact processOne_some hdir (by simp [hod]) hname

end

/-! ## The files of a run -/

section
variable (fs : FileSystem)

/-- An entry of a directory that is none itself. -/
structure FileSystem.IsEntry (p : Path) : Prop where
  name : p.name ≠ []
  notDir : fs.isDir p = false
  parent : fs.isDir p.parent = true

theorem mem_sortedNames {names : List Text} {n : Text} : n ∈ sortedNames names ↔ n ∈ names :=
  List.mem_insertionSort _

theorem walkDtsTree_entry {root : Path} (hroot : fs.isDir root) (recurse includeHeaders dtsOnly : Bool) :
    ∀ f ∈ walkDtsTree fs root recurse includeHeaders dtsOnly, fs.IsEntry f := by
  intro f hf
  rw [walkDtsTree, if_pos hroot] at hf
  cases recurse with
  | true =>
    simp only [if_true, List.mem_flatMap, List.mem_filter, List.mem_map, mem_sortedNames] at hf
    obtain ⟨d, hd, ⟨n, hn, rfl⟩, -⟩ := hf
    obtain ⟨hdir, hall⟩ := fs.walk_entry root d hd
    exact ⟨by rw [Path.child_name]; exact (hall n hn).1, (hall n hn).2, by rwa [Path.child_parent]⟩
  | false =>
    simp only [Bool.false_eq_true, if_false, List.mem_filter, Bool.and_eq_true] at hf
    obtain ⟨hname, hdir, hparent⟩ := fs.isFile_entry f hf.2.1
    exact ⟨hname, hdir, hparent⟩

theorem collectInput_entry (args : Args) {found : List Path × List Path} (h : ∀ f ∈ found.1, fs.IsEntry f)
    (inp : Path) : ∀ f ∈ (collectInput fs args found inp).1, fs.IsEntry f := by
  intro f hf
  unfold collectInput at hf
  split_ifs at hf with hdir hfile
  · rcases List.mem_append.1 hf with hf | hf
    · exact h f hf
    · exact walkDtsTree_entry fs hdir _ _ _ f (List.mem_filter.1 hf).1
  · rcases List.mem_append.1 hf with hf | hf
    · exact h f hf
    · rw [List.mem_singleton.1 hf]
      obtain ⟨hname, hnot, hparent⟩ := fs.isFile_entry inp hfile
      exact ⟨hname, hnot, hparent⟩
  · exact h f hf

theorem unique_subset (seen files : List Path) : unique fs seen files ⊆ files := by
  induction files generalizing seen with
  | nil => exact List.Subset.refl _
  | cons f files ih =>
    rw [unique]
    split_ifs
    · exact List.subset_cons_of_subset _ (ih seen)
    · exact List.cons_subset_cons _ (ih _)

theorem collectInputs_entry (args : Args) : ∀ f ∈ (collectInputs fs args).1, fs.IsEntry f := by
  have hfold : ∀ (inputs : List Path) (found : List Path × List Path), (∀ f ∈ found.1, fs.IsEntry f) →
      ∀ f ∈ (inputs.foldl (collectInput fs args) found).1, fs.IsEntry f := by
    intro inputs found h
    induction inputs generalizing found with
    | nil => exact h
    | cons inp inputs ih => exact ih _ (collectInput_entry fs args h inp)
  intro f hf
  rw [collectInputs, List.mem_insertionSort] at hf
  exact hfold args.inputs ([], []) (by simp) f (unique_subset fs [] _ hf)

/-- The root of a mirrored run is a directory. -/
theorem inputRoot_isDir (args : Args) {root : Path}
    (h : inputRoot fs args (collectInputs fs args).1 = some root) : fs.isDir root = true := by
  unfold inputRoot at h
  split at h
  · rename_i dir hdir
    cases h
    exact List.find?_some hdir
  · split_ifs at h
    obtain ⟨f, hf, rfl⟩ := Option.map_eq_some_iff.1 h
    exact (collectInputs_entry fs args f (List.mem_of_mem_head? hf)).parent

end

/-! ## The theorem -/

section
variable {args : Args} {root : Option Path} {files : List Path}

/-- A run processes the inputs in front of the first error. -/
theorem processAll_eq (hout : args.output = none) (h : ∀ f ∈ files, f.name ≠ [] ∧ root ≠ some f) :
    processAll args root files = (handled args root files).map fun inp =>
      processed args root inp ((outDir args root inp).getD inp.parent) := by
  induction files with
  | nil => rfl
  | cons inp files ih =>
    obtain ⟨hname, hroot⟩ := h inp (List.mem_cons_self ..)
    rw [processAll, process_eq hout hname hroot, handled, List.takeWhile_cons]
    cases hdir : outDir args root inp with
    | none => rfl
    | some dir =>
      simp only [Option.map_some, Option.isSome_some, if_true, List.map_cons, hdir, Option.getD_some]
      rw [ih fun f hf => h f (List.mem_cons_of_mem _ hf), handled]

theorem outDir_of_handled {inp : Path} (h : inp ∈ handled args root files) :
    outDir args root inp = some ((outDir args root inp).getD inp.parent) := by
  have hsome := List.mem_takeWhile_imp h
  obtain ⟨dir, hdir⟩ := Option.isSome_iff_exists.1 hsome
  rw [hdir]
  rfl

/-- A path is one of the inputs if an input has its name in its directory. -/
theorem child_notMem_iff (h : ∀ f ∈ files, f.name ≠ []) (dir : Path) (name : Text) :
    dir.child name ∉ files ↔ ∀ b ∈ files, some dir = some b.parent → b.name ≠ name := by
  constructor
  · intro hno b hb hdir hname
    apply hno
    rw [Option.some.inj hdir, ← hname, Path.parent_child_name (h b hb)]
    exact hb
  · intro hall hmem
    exact hall _ hmem (by rw [Path.child_parent]) (Path.child_name _ _)

/-- What a run leaves alone, by the names of its inputs. -/
theorem noOverwrite_iff_separate (hout : args.output = none) (h : ∀ f ∈ files, f.name ≠ [] ∧ root ≠ some f) :
    NoOverwrite files (processAll args root files) ↔ Separate args root files := by
  have hname : ∀ f ∈ files, f.name ≠ [] := fun f hf => (h f hf).1
  have houtputs : (processAll args root files).Pairwise (fun a b => a.output ≠ b.output) ↔
      (handled args root files).Pairwise fun a b =>
        outDir args root a = outDir args root b → a.stem = b.stem → ext a ≠ ext b := by
    rw [processAll_eq hout h, List.pairwise_map]
    refine List.Pairwise.iff_of_mem fun {a b} ha hb => ?_
    simp only [processed, ne_eq, Path.child_inj, patchedName_inj]
    rw [outDir_of_handled ha, outDir_of_handled hb, Option.getD_some, Option.getD_some,
      Option.some.injEq]
    simp only [not_and]
  have hinputs : (∀ d ∈ processAll args root files, ∀ p ∈ d.written, p ∉ files) ↔
      ∀ a ∈ handled args root files,
        (args.noCpp = false → ∀ b ∈ files, preDir args root a = some b.parent →
          b.name ≠ preName args a) ∧
        (args.dryRun = false → ∀ b ∈ files, outDir args root a = some b.parent →
          b.name ≠ patchedName a) := by
    rw [processAll_eq hout h, List.forall_mem_map]
    refine forall₂_congr fun a ha => ?_
    have hdir := outDir_of_handled ha
    have hpre : preDir args root a =
        some ((preDir args root a).getD ((outDir args root a).getD a.parent)) := by
      unfold preDir
      split_ifs
      · rfl
      · exact hdir.trans (by rw [hdir]; rfl)
    rw [hpre, hdir]
    simp only [Option.getD_some, ← child_notMem_iff hname, processed]
    cases args.noCpp <;> cases args.dryRun <;> simp
  constructor
  · rintro ⟨h₁, h₂⟩
    have h₂ := hinputs.1 h₂
    exact ⟨houtputs.1 h₁, fun hdry a ha => (h₂ a ha).2 hdry, fun hcpp a ha => (h₂ a ha).1 hcpp⟩
  · rintro ⟨h₁, h₂, h₃⟩
    exact ⟨houtputs.2 h₁, hinputs.2 fun a ha => ⟨fun hcpp => h₃ hcpp a ha, fun hdry => h₂ hdry a ha⟩⟩

/-- **No file is overwritten** in a run without `--output` exactly if no two inputs whose
    patched files go to one directory have the same stem and extension (all spellings of
    `.dts` counting as one), and no input has the name of the patched or of the
    preprocessed file of an input in the directory where that goes. -/
theorem no_overwrite_iff {fs : FileSystem} {args : Args} {done : List Processed} (hout : args.output = none)
    (hrun : main fs args = .ok done) :
    NoOverwrite (collectInputs fs args).1 done ↔
      Separate args (inputRoot fs args (collectInputs fs args).1) (collectInputs fs args).1 := by
  simp only [main] at hrun
  split_ifs at hrun
  obtain rfl := Except.ok.inj hrun
  refine noOverwrite_iff_separate hout fun f hf => ?_
  have hentry := collectInputs_entry fs args f hf
  refine ⟨hentry.name, fun hroot => ?_⟩
  have hdir := inputRoot_isDir fs args hroot
  rw [hentry.notDir] at hdir
  cases hdir

end

/-- Two boards of one name in different directories. -/
def boardA : Path := ⟨[], ["a".toList, "board.dts".toList]⟩

def boardB : Path := ⟨[], ["b".toList, "board.dts".toList]⟩

def boards : FileSystem where
  isDir p := p ∈ [boardA.parent, boardB.parent]
  isFile p := p ∈ [boardA, boardB]
  resolve p := p
  listdir _ := []
  walk _ := []
  isFile_entry p hp := by
    simp only [List.mem_cons, List.not_mem_nil, or_false, decide_eq_true_eq] at hp
    rcases hp with rfl | rfl
    · decide
    · decide
  walk_entry p d hd := by cases hd

/-- The boards, with the outputs beside the inputs or in one directory. -/
def boardArgs (outputDir : Option Path) : Args where
  inputs := [boardA, boardB]
  output := none
  outputDir := outputDir
  mirror := false
  recurse := true
  dtsOnly := false
  noHeaders := false
  noCpp := false
  dryRun := false

theorem boards_beside :
    ∃ done, main boards (boardArgs none) = .ok done ∧ NoOverwrite (collectInputs boards (boardArgs none)).1 done := by
  refine ⟨_, rfl, (no_overwrite_iff rfl rfl).2 ⟨?_, ?_, ?_⟩⟩
  · decide +kernel
  · decide +kernel
  · decide +kernel

/-- In one directory, the second board is written over the first. -/
theorem boards_flat :
    ¬ ∀ done, main boards (boardArgs (some ⟨[], ["out".toList]⟩)) = .ok done →
      NoOverwrite (collectInputs boards (boardArgs (some ⟨[], ["out".toList]⟩))).1 done := by
  intro h
  have houtputs := (h _ rfl).outputs
  revert houtputs
  decide +kernel

end PocketDarwin.PatchDtc.Outputs
