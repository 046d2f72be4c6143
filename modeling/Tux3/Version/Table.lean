/-
  Version/Table.lean --- the version table: the tree, its child index and its caches.

  The children of all versions lie packed in one array, and an index of pointers into it gives
  where those of a version begin; a pointer is an offset here.  Each version caches the bits of the
  versions on its path and those of its near versions, behind a flag that says whether they hold.

  `assert` and `error` both end the program.  A recursion over the tree is not bounded in the
  source; here it goes as deep as the table has versions.
-/
import Mathlib.Logic.Function.Basic
import Tux3.Lib.Area
import Tux3.Volume

set_option autoImplicit false

namespace Tux3.Versions

/-! ## Data -/

/-- `MAXVERSIONS`, and `MAXCHUNKS`. -/
def maxVersions : Nat := 256

/-- `struct element`. -/
structure Element where
  label : Nat
  chunk : Nat
  deriving DecidableEq, Repr

/-- `struct version`. -/
structure Version where
  tag : Nat
  parent : Nat
  used : Bool
  ghost : Bool
  present : Bool
  pathmap : Bool
  nearmap : Bool
  deriving DecidableEq, Repr

/-- A version of zeroes. -/
def zeroVersion : Version := ⟨0, 0, false, false, false, false, false⟩

/-- `struct sb` with the elements, the chunks and the data of the origin, which are globals. -/
structure VersionSb where
  table : Nat → Version
  childIndex : Nat → Nat
  childCount : Nat → Nat
  children : Nat → Nat
  ordmap : Nat → Nat
  versionCount : Nat
  activeCount : Nat
  pathmap : Nat → Nat → Bool
  nearmap : Nat → Nat → Bool
  brood : Nat → Nat
  elements : List Element
  snapdata : Nat → Nat
  orgdata : Nat
  allocmap : Nat → Bool
  nextchunk : Nat

/-- A version of the table is changed. -/
def VersionSb.modify (sb : VersionSb) (version : Nat) (f : Version → Version) : VersionSb :=
  { sb with table := Function.update sb.table version (f (sb.table version)) }

@[simp] theorem modify_self (sb : VersionSb) (version : Nat) (f : Version → Version) :
    (sb.modify version f).table version = f (sb.table version) := Function.update_self _ _ _

theorem modify_of_ne (sb : VersionSb) {v version : Nat} (f : Version → Version)
    (h : v ≠ version) : (sb.modify version f).table v = sb.table v := Function.update_of_ne h _ _

/-- `get_child`. -/
def getChild (sb : VersionSb) (parent i : Nat) : Nat := sb.children (sb.childIndex parent + i)

/-- `get_parent`. -/
def getParent (sb : VersionSb) (child : Nat) : Nat := (sb.table child).parent

/-- `get_root`. -/
def getRoot (sb : VersionSb) : Except TuxError Nat := do
  tuxAssert (sb.childCount 0 ≠ 0)
  return sb.children 0

/-- `is_ghost`. -/
def isGhost (sb : VersionSb) (version : Nat) : Bool := (sb.table version).ghost

/-- `is_present`. -/
def isPresent (sb : VersionSb) (version : Nat) : Bool := (sb.table version).present

/-- `order_tree`. -/
def orderTree (sb : VersionSb) : Nat → Nat → Nat → (Nat → Nat) → Except TuxError (Nat → Nat)
  | 0, _, _, _ => .error .fuel
  | n + 1, version, order, ordmap =>
      (List.range (sb.childCount version)).foldlM
        (fun ordmap i => orderTree sb n (getChild sb version i) (order + 1) ordmap)
        (Function.update ordmap version order)

/-- `order_tree(sb, get_root(sb), 1)`. -/
def orderRoot (sb : VersionSb) : Except TuxError VersionSb := do
  let root ← getRoot sb
  let ordmap ← orderTree sb maxVersions root 1 sb.ordmap
  return { sb with ordmap }

/-! ## Versions -/

/-- The first unused version. -/
def unusedVersion (sb : VersionSb) : Option Nat :=
  (List.range' 1 (sb.versionCount - 1)).find? fun version => !(sb.table version).used

/-- The child index gets another entry, behind the last one.  The source does not check that the
table has room for it. -/
def growTable (sb : VersionSb) : Except TuxError VersionSb :=
  if sb.versionCount < maxVersions then
    let last := sb.versionCount - 1
    let index := if sb.versionCount = 0 then 0 else sb.childIndex last + sb.childCount last
    return { sb with
      childIndex := Function.update sb.childIndex sb.versionCount index
      versionCount := sb.versionCount + 1 }
  else .error .bounds

/-- `new_version` recycles a version, or takes the next one. -/
def pickVersion (sb : VersionSb) : Except TuxError (Nat × VersionSb) :=
  match unusedVersion sb with
  | some version => return (version, sb)
  | none => do
      let sb' ← growTable sb
      return (sb.versionCount, sb')

/-- `new_version`. -/
def newVersion (sb : VersionSb) (parent tag : Nat) : Except TuxError (Nat × VersionSb) := do
  let (version, sb) ← pickVersion sb
  let sb := sb.modify version fun _ => { zeroVersion with parent, tag, used := true }
  tuxAssert (sb.childCount version = 0)
  return (version, { sb with activeCount := sb.activeCount + 1 })

/-- `free_version`. -/
def freeVersion (sb : VersionSb) (version : Nat) : Except TuxError VersionSb := do
  tuxAssert (sb.table version).used
  let sb := sb.modify version fun v => { v with parent := 0, used := false }
  return { sb with activeCount := sb.activeCount - 1 }

/-! ## Caches -/

/-- The loop of `need_path` up to the root. -/
def pathLoop (sb : VersionSb) : Nat → Nat → (Nat → Bool) → Except TuxError (Nat → Bool)
  | 0, _, _ => .error .fuel
  | n + 1, v, bits =>
      if v = 0 then return bits
      else pathLoop sb n (getParent sb v) (Function.update bits v true)

/-- `need_path`. -/
def needPath (sb : VersionSb) (target : Nat) : Except TuxError VersionSb :=
  if (sb.table target).pathmap then return sb
  else do
    let bits ← pathLoop sb maxVersions target fun _ => false
    let sb := { sb with pathmap := Function.update sb.pathmap target bits }
    return sb.modify target fun v => { v with pathmap := true }

/-- `invalidate_path`. -/
def invalidatePath (sb : VersionSb) :
    Nat → Nat → (Nat → Version) → Except TuxError (Nat → Version)
  | 0, _, _ => .error .fuel
  | n + 1, version, table => do
      tuxAssert (version < maxVersions)
      tuxAssert (table version).used
      (List.range (sb.childCount version)).foldlM
        (fun table i => invalidatePath sb n (getChild sb version i) table)
        (Function.update table version { table version with pathmap := false })

/-- `invalidate_path(sb, version)`. -/
def invalidateBelow (sb : VersionSb) (version : Nat) : Except TuxError VersionSb := do
  let table ← invalidatePath sb maxVersions version sb.table
  return { sb with table }

/-- The loop of `lookup_element`: the element found so far and its depth. -/
def lookupLoop (path : Nat → Bool) (ordmap : Nat → Nat) :
    List Element → Nat → Nat → Option Nat → Option Nat
  | [], _, _, found => found
  | e :: elements, i, high, found =>
      if path e.label ∧ high < ordmap e.label then
        lookupLoop path ordmap elements (i + 1) (ordmap e.label) (some i)
      else lookupLoop path ordmap elements (i + 1) high found

/-- `lookup_element`.  The pointer to an element is its number. -/
def lookupElement (sb : VersionSb) (target : Nat) : Except TuxError (Option Nat × VersionSb) := do
  let sb ← needPath sb target
  return (lookupLoop (sb.pathmap target) sb.ordmap sb.elements 0 0 none, sb)

/-- The loop of `same_chunk`. -/
def sameLoop (path1 path2 : Nat → Bool) (ordmap : Nat → Nat) :
    List Element → Nat → Nat → Nat → Option Nat → Option Nat → Option Nat × Option Nat
  | [], _, _, _, e1, e2 => (e1, e2)
  | e :: elements, i, high1, high2, e1, e2 =>
      let (high1, e1) :=
        if path1 e.label ∧ high1 < ordmap e.label then (ordmap e.label, some i) else (high1, e1)
      let (high2, e2) :=
        if path2 e.label ∧ high2 < ordmap e.label then (ordmap e.label, some i) else (high2, e2)
      sameLoop path1 path2 ordmap elements (i + 1) high1 high2 e1 e2

/-- `same_chunk`. -/
def sameChunk (sb : VersionSb) (version1 version2 : Nat) : Except TuxError (Bool × VersionSb) := do
  let sb ← needPath sb version1
  let sb ← needPath sb version2
  let (e1, e2) := sameLoop (sb.pathmap version1) (sb.pathmap version2) sb.ordmap sb.elements 0 0 0
    none none
  return (e1 = e2, sb)

/-- The bits of the children and of the version itself. -/
def nearBits (sb : VersionSb) (target : Nat) : Nat → Bool :=
  Function.update
    ((List.range (sb.childCount target)).foldl
      (fun bits i => Function.update bits (getChild sb target i) true) fun _ => false)
    target true

/-- `count_near` loads the bits. -/
def needNear (sb : VersionSb) (target : Nat) : VersionSb :=
  if (sb.table target).nearmap then sb
  else
    let sb := { sb with nearmap := Function.update sb.nearmap target (nearBits sb target) }
    sb.modify target fun v => { v with nearmap := true }

/-- `count_near`. -/
def countNear (sb : VersionSb) (target : Nat) : Except TuxError (Nat × VersionSb) := do
  let sb := needNear sb target
  let present := sb.elements.countP fun e => sb.nearmap target e.label
  tuxAssert (present ≤ sb.childCount target + 1)
  return (present, sb)

/-! ## The child index -/

/-- The loop of `find_child_pos`. -/
def childPosLoop (children : Nat → Nat) (child : Nat) : Nat → Nat → Nat
  | 0, p => p
  | n + 1, p => if child < children p then p else childPosLoop children child n (p + 1)

/-- `find_child_pos`. -/
def findChildPos (sb : VersionSb) (parent child count : Nat) : Nat :=
  childPosLoop sb.children child count (sb.childIndex parent)

/-- `find_child`. -/
def findChild (sb : VersionSb) (parent child : Nat) : Except TuxError Nat :=
  match (List.range (sb.childCount parent)).find? fun i => getChild sb parent i = child with
  | some i => return sb.childIndex parent + i
  | none => .error .assertion

/-- `insert_child` up to the numbering of the tree. -/
def linkChild (sb : VersionSb) (parent child : Nat) : VersionSb :=
  let p := findChildPos sb parent child (sb.childCount parent)
  let moved := Area.copy sb.children (p + 1) sb.children p (sb.versionCount - p - 1)
  let sb := { sb with
    children := Function.update moved p child
    childIndex := fun i =>
      if parent < i ∧ i < sb.versionCount then sb.childIndex i + 1 else sb.childIndex i
    childCount := Function.update sb.childCount parent (sb.childCount parent + 1) }
  let sb := sb.modify child fun v => { v with parent }
  sb.modify parent fun v => { v with nearmap := false }

/-- `insert_child`. -/
def insertChild (sb : VersionSb) (parent child : Nat) : Except TuxError VersionSb :=
  orderRoot (linkChild sb parent child)

/-- `remove_child` takes the child at `p` from its parent. -/
def unlinkChild (sb : VersionSb) (parent p : Nat) : VersionSb :=
  let sb := { sb with
    children := Area.copy sb.children p sb.children (p + 1) (sb.versionCount - p - 1)
    childIndex := fun i =>
      if parent < i ∧ i < sb.versionCount then sb.childIndex i - 1 else sb.childIndex i
    childCount := Function.update sb.childCount parent (sb.childCount parent - 1) }
  sb.modify parent fun v => { v with nearmap := false }

/-- `remove_child`. -/
def removeChild (sb : VersionSb) (child : Nat) : Except TuxError VersionSb := do
  let parent := getParent sb child
  let p ← findChild sb parent child
  return unlinkChild sb parent p

/-- `replace_child` puts `new` into the children of `parent`, for the one at `p`. -/
def exchangeChild (sb : VersionSb) (parent p new : Nat) : VersionSb :=
  let last := sb.childIndex parent + sb.childCount parent
  let sb := { sb with children := Area.copy sb.children p sb.children (p + 1) (last - p - 1) }
  let p := findChildPos sb parent new (sb.childCount parent - 1)
  let moved := Area.copy sb.children (p + 1) sb.children p (last - p - 1)
  { sb with children := Function.update moved p new }

/-- `replace_child`. -/
def replaceChild (sb : VersionSb) (old new : Nat) : Except TuxError VersionSb := do
  let parent := getParent sb old
  let p ← findChild sb parent old
  let sb := (exchangeChild sb parent p new).modify new fun v => { v with parent }
  let sb ← freeVersion sb old
  return sb.modify parent fun v => { v with nearmap := false }

/-- `promote_child`. -/
def promoteChild (sb : VersionSb) (child : Nat) : Except TuxError VersionSb := do
  let parent := getParent sb child
  tuxAssert (sb.childCount parent = 1)
  let sb ← removeChild sb child
  let sb ← replaceChild sb parent child
  let sb ← invalidateBelow sb child
  orderRoot sb

end Tux3.Versions
