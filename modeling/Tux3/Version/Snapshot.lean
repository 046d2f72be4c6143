/-
  Version/Snapshot.lean --- the element list, and the operations on snapshots.

  An element gives a chunk to a version, which the versions below inherit from it as far as no
  nearer one has an element of its own.  A version without one on its path reads the origin.
-/
import Tux3.Version.Table

set_option autoImplicit false

namespace Tux3.Versions

/-! ## Chunks and elements -/

/-- The loop of `new_chunk`. -/
def newChunkLoop (allocmap : Nat → Bool) : Nat → Nat → Option Nat
  | 0, _ => none
  | n + 1, nextchunk =>
      let nextchunk := if nextchunk = maxVersions then 0 else nextchunk
      if allocmap nextchunk then newChunkLoop allocmap n (nextchunk + 1) else some nextchunk

/-- `new_chunk`. -/
def newChunk (sb : VersionSb) (data : Nat) : Except TuxError (Nat × VersionSb) :=
  match newChunkLoop sb.allocmap maxVersions sb.nextchunk with
  | none => .error .enospc
  | some chunk =>
      return (chunk, { sb with
        allocmap := Function.update sb.allocmap chunk true
        snapdata := Function.update sb.snapdata chunk data
        nextchunk := chunk + 1 })

/-- `free_chunk`. -/
def freeChunk (sb : VersionSb) (chunk : Nat) : Except TuxError VersionSb := do
  tuxAssert (sb.allocmap chunk)
  return { sb with allocmap := Function.update sb.allocmap chunk false }

/-- `add_element`. -/
def addElement (sb : VersionSb) (label chunk : Nat) : Except TuxError VersionSb := do
  tuxAssert (sb.elements.length < maxVersions)
  return { sb with elements := sb.elements ++ [⟨label, chunk⟩] }

/-- `find_element`. -/
def findElement (sb : VersionSb) (target : Nat) : Option Nat :=
  sb.elements.findIdx? fun e => e.label = target

/-- `set_present`. -/
def setPresent (sb : VersionSb) (flag : Bool) : VersionSb :=
  { sb with
    table := sb.elements.foldl
      (fun table e => Function.update table e.label { table e.label with present := flag })
      sb.table }

/-- `count_heirs`. -/
def countHeirs (sb : VersionSb) : Nat → Nat → Except TuxError Nat
  | 0, _ => .error .fuel
  | n + 1, parent =>
      (List.range (sb.childCount parent)).foldlM
        (fun heirs i =>
          let child := getChild sb parent i
          if isPresent sb child then return heirs
          else do
            let below ← countHeirs sb n child
            return heirs + (below + if isGhost sb child then 0 else 1)) 0

/-- `inherited`. -/
def inherited (sb : VersionSb) (version : Nat) : Except TuxError (Nat × VersionSb) := do
  let sb := setPresent sb true
  let heirs ← countHeirs sb maxVersions version
  return (heirs, setPresent sb false)

/-! ## Deleting elements -/

/-- `delete_elements` looks for the nearest ancestor with an element. -/
def presentAncestor (sb : VersionSb) : Nat → Nat → Except TuxError Nat
  | 0, _ => .error .fuel
  | n + 1, ancestor =>
      if !isPresent sb ancestor ∧ ancestor ≠ 0 then presentAncestor sb n (getParent sb ancestor)
      else return ancestor

/-- `delete_elements` finds the orphan element that it kills. -/
def orphanElement (sb : VersionSb) (target parent : Nat) : Except TuxError (Option Nat) :=
  if isPresent sb target then return none
  else do
    let ancestor ← presentAncestor sb maxVersions parent
    if ancestor ≠ 0 ∧ isGhost sb ancestor ∧ isPresent sb ancestor then do
      let heirs ← countHeirs sb maxVersions ancestor
      return if heirs = 0 then findElement sb ancestor else none
    else return none

/-- `delete_elements` frees an element. -/
def freeElement (sb : VersionSb) (e : Element) :
    Except TuxError (Option Element × VersionSb) := do
  let sb := sb.modify e.label fun v => { v with present := false }
  let sb ← freeChunk sb e.chunk
  return (none, sb)

/-- A round of the second loop of `delete_elements`: the element is kept, relabelled or freed. -/
def deleteElement (sb : VersionSb) (kill : Option Nat) (target parent i : Nat) (e : Element) :
    Except TuxError (Option Element × VersionSb) :=
  let label := e.label
  if kill = some i then freeElement sb e
  else if label = target ∨ label = parent then
    if sb.childCount label = sb.brood label then freeElement sb e
    else if sb.childCount label = 1 then do
      let heirs ← countHeirs sb maxVersions label
      if heirs = 0 then freeElement sb e
      else
        let child := getChild sb label 0
        let sb := sb.modify label fun v => { v with present := false }
        let sb := sb.modify child fun v => { v with present := true }
        return (some { e with label := child }, sb)
    else if 1 < sb.childCount label then do
      let heirs ← countHeirs sb maxVersions label
      if heirs = 0 then freeElement sb e else return (some e, sb)
    else return (some e, sb)
  else return (some e, sb)

/-- The second loop of `delete_elements`, with the elements that it keeps. -/
def deleteLoop (kill : Option Nat) (target parent : Nat) :
    List Element → Nat → VersionSb → Except TuxError (List Element × VersionSb)
  | [], _, sb => return ([], sb)
  | e :: elements, i, sb => do
      let (save, sb) ← deleteElement sb kill target parent i e
      let (saves, sb) ← deleteLoop kill target parent elements (i + 1) sb
      return (save.toList ++ saves, sb)

/-- The first loop of `delete_elements`. -/
def countBrood (sb : VersionSb) : VersionSb :=
  { sb with
    brood := sb.elements.foldl
      (fun brood e => Function.update brood (getParent sb e.label)
        (brood (getParent sb e.label) + 1)) sb.brood }

/-- The last loop of `delete_elements`. -/
def clearBrood (sb : VersionSb) : VersionSb :=
  { sb with
    brood := sb.elements.foldl
      (fun brood e => Function.update brood (getParent sb e.label) 0) sb.brood }

/-- `delete_elements`. -/
def deleteElements (sb : VersionSb) (target parent : Nat) :
    Except TuxError (Bool × VersionSb) := do
  let sb := setPresent (countBrood sb) true
  let kill ← orphanElement sb target parent
  let parent := if isGhost sb parent then parent else 0
  let (elements, sb) ← deleteLoop kill target parent sb.elements 0 sb
  let sb := clearBrood (setPresent { sb with elements } false)
  return (parent ≠ 0 ∧ sb.childCount parent = 1, sb)

/-! ## Operations -/

/-- `find_tag`. -/
def findTag (sb : VersionSb) (tag : Nat) : Except TuxError Nat :=
  match (List.range' 1 (sb.versionCount - 1)).find? fun version =>
      !isGhost sb version ∧ (sb.table version).tag = tag with
  | some version => return version
  | none => .error .assertion

/-- `snapshot_delete` promotes the only child that a ghost is left with. -/
def promoteAlone (sb : VersionSb) (alone : Bool) (parent : Nat) : Except TuxError VersionSb :=
  if alone then promoteChild sb (getChild sb parent 0) else return sb

/-- `snapshot_delete` makes the target a ghost. -/
def ghostVersion (sb : VersionSb) (target : Nat) : VersionSb :=
  { sb with brood := fun _ => 0 }.modify target fun v => { v with tag := 0, ghost := true }

/-- `snapshot_delete` of a target without children. -/
def deleteLeaf (sb : VersionSb) (target parent : Nat) : Except TuxError VersionSb := do
  let sb ← removeChild sb target
  let sb := sb.modify target fun v => { v with parent := 0 }
  let (alone, sb) ← deleteElements sb target parent
  let sb ← promoteAlone sb alone parent
  freeVersion sb target

/-- `snapshot_delete` of a target that is a ghost now. -/
def deleteGhost (sb : VersionSb) (target : Nat) : Except TuxError VersionSb :=
  let parent := getParent sb target
  match sb.childCount target with
  | 0 => deleteLeaf sb target parent
  | 1 => do
      let (_, sb) ← deleteElements sb target parent
      promoteChild sb (getChild sb target 0)
  | _ => do
      let (_, sb) ← deleteElements sb target parent
      return sb

/-- `snapshot_delete`. -/
def snapshotDelete (sb : VersionSb) (tag : Nat) : Except TuxError VersionSb := do
  let target ← findTag sb tag
  deleteGhost (ghostVersion sb target) target

/-- `snapshot_of_snapshot`. -/
def snapshotOfSnapshot (sb : VersionSb) (tag parentTag : Nat) : Except TuxError VersionSb := do
  let parent ← findTag sb parentTag
  let (child, sb) ← newVersion sb parent tag
  tuxAssert (sb.childCount child = 0)
  let sb ← insertChild sb parent child
  orderRoot sb

/-- `snapshot_of_origin`. -/
def snapshotOfOrigin (sb : VersionSb) (tag : Nat) : Except TuxError VersionSb := do
  let (root, sb) ← newVersion sb 0 tag
  if sb.childCount 0 = 0 then insertChild sb 0 root
  else
    let sb ← insertChild sb root (getChild sb 0 0)
    let sb := { sb with children := Function.update sb.children 0 root }
    let sb ← invalidateBelow sb root
    orderRoot sb

/-- `snapshot_read`. -/
def snapshotRead (sb : VersionSb) (tag : Nat) : Except TuxError (Nat × VersionSb) := do
  let target ← findTag sb tag
  let (found, sb) ← lookupElement sb target
  match found.bind fun i => sb.elements[i]? with
  | some e => return (sb.snapdata e.chunk, sb)
  | none => return (sb.orgdata, sb)

/-- `snapshot_write` rewrites the chunk of an element. -/
def rewriteChunk (sb : VersionSb) (found : Option Nat) (data : Nat) : Except TuxError VersionSb :=
  match found.bind fun i => sb.elements[i]? with
  | some e => return { sb with snapdata := Function.update sb.snapdata e.chunk data }
  | none => .error .bounds

/-- `snapshot_write` makes an implicit version for a target that has children. -/
def implicitVersion (sb : VersionSb) (target tag : Nat) : Except TuxError (Nat × VersionSb) :=
  if sb.childCount target ≠ 0 then do
    let (child, sb) ← newVersion sb target tag
    let sb ← insertChild sb target child
    return (child, sb.modify target fun v => { v with ghost := true })
  else return (target, sb)

/-- `snapshot_write` looks for the nearest ancestor that has an element or is no ghost. -/
def solidAncestor (sb : VersionSb) : Nat → Nat → Except TuxError Nat
  | 0, _ => .error .fuel
  | n + 1, ancestor =>
      if !isPresent sb ancestor ∧ isGhost sb ancestor then
        solidAncestor sb n (getParent sb ancestor)
      else return ancestor

/-- `snapshot_write` looks for a ghost whose element only the target inherits. -/
def soleHeirOf (sb : VersionSb) (target : Nat) : Except TuxError (Option Nat) := do
  let ancestor ← solidAncestor sb maxVersions (getParent sb target)
  if isGhost sb ancestor then do
    let heirs ← countHeirs sb maxVersions ancestor
    return if heirs = 1 then some ancestor else none
  else return none

/-- `snapshot_write`. -/
def snapshotWrite (sb : VersionSb) (tag data : Nat) : Except TuxError VersionSb := do
  let target ← findTag sb tag
  let (near, sb) ← countNear sb target
  if near = sb.childCount target + 1 then rewriteChunk sb (findElement sb target) data
  else
    let (target, sb) ← implicitVersion sb target tag
    let sb := setPresent sb true
    let relabel ← soleHeirOf sb target
    let sb := setPresent sb false
    match relabel with
    | some ancestor =>
        match findElement sb ancestor with
        | some i =>
            let sb := { sb with
              elements := sb.elements.modify i fun e => { e with label := target } }
            rewriteChunk sb (some i) data
        | none => .error .bounds
    | none => do
        let (chunk, sb) ← newChunk sb data
        addElement sb target chunk

/-- `origin_write` gives the data of the origin to the versions that inherit it. -/
def saveOrigin (sb : VersionSb) (heirs : Nat) : Except TuxError VersionSb :=
  if heirs ≠ 0 then do
    let root ← getRoot sb
    let (chunk, sb) ← newChunk sb sb.orgdata
    addElement sb root chunk
  else return sb

/-- `origin_write`. -/
def originWrite (sb : VersionSb) (data : Nat) : Except TuxError VersionSb := do
  let (heirs, sb) ← inherited sb 0
  let sb ← saveOrigin sb heirs
  return { sb with orgdata := data }

/-- The version table before `new_version(sb, -1, 0)` makes the origin. -/
def zeroSb : VersionSb where
  table := fun _ => zeroVersion
  childIndex := fun _ => 0
  childCount := fun _ => 0
  children := fun _ => 0
  ordmap := fun _ => 0
  versionCount := 0
  activeCount := 0
  pathmap := fun _ _ => false
  nearmap := fun _ _ => false
  brood := fun _ => 0
  elements := []
  snapdata := fun _ => 0
  orgdata := 0x1234
  allocmap := fun _ => false
  nextchunk := 0

end Tux3.Versions
