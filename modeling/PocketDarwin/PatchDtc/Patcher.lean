/-
  `AndroidToADTPatcher` of `Tools/PatchDtc4Adt/main.py`: the callbacks that
  rewrite an Android device tree for the old `dtc`.

  The patcher's dictionaries are `AList`s (their order is only read by the
  printed summary), its sets of names are duplicate-free lists, and its two
  stacks have their top at the head.  `verbose` only writes to the error
  stream and is left out.
-/
import Mathlib.Data.List.AList
import PocketDarwin.Md5
import PocketDarwin.PatchDtc.Scanner

namespace PocketDarwin.PatchDtc

/-- `text[:k]` -/
def takeTo (text : Text) (k : ℤ) : Text :=
  if 0 ≤ k then text.take k.toNat else text.take (text.length - k.natAbs)

/-- `text.replace(old, new, 1)` -/
def replaceFirst (old new : Text) : Text → Text
  | [] => if old = [] then new else []
  | c :: cs =>
    if old.isPrefixOf (c :: cs) then new ++ (c :: cs).drop old.length
    else c :: replaceFirst old new cs

theorem replaceFirst_append {old : Text} (h : old ≠ []) (new r : Text) :
    replaceFirst old new (old ++ r) = new ++ r := by
  cases old with
  | nil => exact absurd rfl h
  | cons c cs => simp [replaceFirst]

/-- The kinds of names. -/
inductive Kind where
  | node
  | property
deriving DecidableEq, Repr

/-- `STRIPPED_DIRECTIVES` -/
def strippedDirectives : List Text :=
  ["plugin".toList, "delete-node".toList, "delete-property".toList, "iommu-strict".toList]

def phandle : Text := "phandle".toList

def linuxPhandle : Text := "linux,phandle".toList

/-- The options of the patcher, with their defaults. -/
structure Options where
  maxNameLen : ℤ := 31
  stripDirectives : Bool := true
  stripFixups : Bool := true
  dropPhandleDuplicates : Bool := true
  extraDropProps : List Text := []

/-- `PatchStats` -/
structure PatchStats where
  directivesStripped : ℕ := 0
  nodesDeleted : ℕ := 0
  propsDeleted : ℕ := 0
  nodeNamesTruncated : ℕ := 0
  propNamesTruncated : ℕ := 0
  renameMap : AList (fun _ : Text => Text) := ∅

/-- The state of a patcher. -/
structure Patcher where
  stats : PatchStats := {}
  /-- original name to truncated name and kind -/
  truncateSeen : AList (fun _ : Text => Text × Kind) := ∅
  nodePropStack : List (List Text) := []
  nodeDroppedStack : List (List Text) := []

namespace Patcher

/-- `any(orig != name and tr == candidate for ... if k == kind)` -/
def taken (p : Patcher) (kind : Kind) (name candidate : Text) : Bool :=
  p.truncateSeen.entries.any fun e => e.2.2 == kind && (e.1 != name && e.2.1 == candidate)

/-- `~suffix` -/
def suffixText (suffix : ℕ) : Text := '~' :: (toString suffix).toList

section
variable (opts : Options)

/-- The candidate with a number behind it. -/
def numbered (base : Text) (suffix : ℕ) : Text :=
  takeTo base (opts.maxNameLen - (suffixText suffix).length) ++ suffixText suffix

/-- The candidate with a digest behind it. -/
def hashed (base name : Text) : Text :=
  takeTo base (opts.maxNameLen - 5) ++ '~' :: (Md5.hexdigest name).take 4

/-- The `while` loop of `_truncate_with_collisions`, with `fuel` iterations left:
    the loop breaks at suffix 100, so 101 are enough. -/
def probe (isTaken : Text → Bool) (base name : Text) : (fuel suffix : ℕ) → Text → Text
  | 0, _, candidate => candidate
  | fuel + 1, suffix, candidate =>
    if isTaken candidate then
      if suffix + 1 > 99 then hashed opts base name
      else probe isTaken base name fuel (suffix + 1) (numbered opts base (suffix + 1))
    else candidate

/-- The first candidate for a name: its first characters, with room for a
    suffix. -/
def baseOf (name : Text) : Text :=
  let reserve : ℤ := if (name.length : ℤ) > opts.maxNameLen - 1 then 3 else 0
  takeTo name (max 1 (opts.maxNameLen - reserve))

/-- `_truncate_with_collisions` -/
def truncateWithCollisions (name : Text) (kind : Kind) (p : Patcher) : Text × Patcher :=
  let base := baseOf opts name
  let candidate := probe opts (p.taken kind name) base name 101 0 base
  let stats := match kind with
    | .node => { p.stats with nodeNamesTruncated := p.stats.nodeNamesTruncated + 1 }
    | .property => { p.stats with propNamesTruncated := p.stats.propNamesTruncated + 1 }
  (candidate, { p with
    truncateSeen := p.truncateSeen.insert name (candidate, kind)
    stats := { stats with renameMap := stats.renameMap.insert name candidate } })

/-- `_truncate_name` -/
def truncateName (name : Text) (kind : Kind) (p : Patcher) : Text × Patcher :=
  match kind with
  | .node =>
    if '@' ∈ name then
      let base := name.takeWhile (· != '@')
      let unit := (name.dropWhile (· != '@')).drop 1
      if (base.length : ℤ) ≤ opts.maxNameLen then (name, p)
      else
        let (truncatedBase, p) := truncateWithCollisions opts base kind p
        (truncatedBase ++ '@' :: unit, p)
    else if (name.length : ℤ) ≤ opts.maxNameLen then (name, p)
    else truncateWithCollisions opts name kind p
  | .property =>
    if (name.length : ℤ) ≤ opts.maxNameLen then (name, p)
    else truncateWithCollisions opts name kind p

/-! ## The callbacks -/

def onDirective (name _fullText : Text) (_atRoot : Bool) (p : Patcher) : Option Text × Patcher :=
  if opts.stripDirectives && strippedDirectives.contains name then
    (some [], { p with stats := { p.stats with
      directivesStripped := p.stats.directivesStripped + 1 } })
  else (none, p)

def onFixupSubtree (name _fullText : Text) (p : Patcher) : Option Text × Patcher :=
  if opts.stripFixups && fixupNodeNames.contains name then
    (some [], { p with stats := { p.stats with nodesDeleted := p.stats.nodesDeleted + 1 } })
  else (none, p)

def onNodeOpen (name fullText : Text) (p : Patcher) : Option Text × Patcher :=
  let p := { p with
    nodePropStack := [] :: p.nodePropStack
    nodeDroppedStack := [] :: p.nodeDroppedStack }
  let (truncated, p) := truncateName opts name .node p
  (if truncated ≠ name then some (replaceFirst name truncated fullText) else none, p)

/-- `on_node_exit`: the second stack is popped when the first has a frame. -/
def onNodeExit (p : Patcher) : Patcher :=
  match p.nodePropStack with
  | [] => p
  | _ :: frames => { p with nodePropStack := frames, nodeDroppedStack := p.nodeDroppedStack.tail }

/-- `self._node_prop_stack[-1].add(name)`, if there is a frame. -/
def track (name : Text) (p : Patcher) : Patcher :=
  match p.nodePropStack with
  | [] => p
  | frame :: frames => { p with nodePropStack := frame.insert name :: frames }

/-- The phandle rule for a property `name` whose twin is `twin`: the second of
    the two on a node is dropped, once. -/
def dropsTwin (name twin : Text) (p : Patcher) : Bool :=
  match p.nodePropStack, p.nodeDroppedStack with
  | seen :: _, dropped :: _ => seen.contains twin && !dropped.contains name
  | _, _ => false

/-- `dropped.add(name)`, and the property is deleted. -/
def dropProperty (name : Text) (p : Patcher) : Patcher :=
  { p with
    stats := { p.stats with propsDeleted := p.stats.propsDeleted + 1 }
    nodeDroppedStack := match p.nodeDroppedStack with
      | [] => []
      | dropped :: frames => dropped.insert name :: frames }

def onProperty (name fullDecl : Text) (p : Patcher) : Option Text × Patcher :=
  let p := track name p
  if opts.extraDropProps.contains name then
    (some [], { p with stats := { p.stats with propsDeleted := p.stats.propsDeleted + 1 } })
  else if opts.dropPhandleDuplicates && (name == phandle && dropsTwin phandle linuxPhandle p) then
    (some [], dropProperty phandle p)
  else if opts.dropPhandleDuplicates && (name == linuxPhandle && dropsTwin linuxPhandle phandle p) then
    (some [], dropProperty linuxPhandle p)
  else
    let (truncated, p) := truncateName opts name .property p
    (if truncated ≠ name then some (replaceFirst name truncated fullDecl) else none, p)

/-- `AndroidToADTPatcher` as a callbacks object. -/
def callbacks : ScanCallbacks Patcher where
  onDirective := onDirective opts
  onNodeOpen := onNodeOpen opts
  onNodeExit := onNodeExit
  onProperty := onProperty opts
  onFixupSubtree := onFixupSubtree opts

end

end Patcher

/-- `scan_dts(text, AndroidToADTPatcher(...))`: the patched text. -/
def patch (opts : Options) (text : Text) : Text :=
  (scanDts (Patcher.callbacks opts) text {}).1

end PocketDarwin.PatchDtc
