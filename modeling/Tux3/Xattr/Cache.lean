/-
  Xattr/Cache.lean --- the extended attributes of an inode in memory.

  `struct xcache` is an array of bytes with one entry right after the other.  It is modelled
  by its entries, and a walk over them by the bytes that it has passed, so that the limits
  and the asserts of the walks are those of the code.
-/
import Tux3.Log.Record
import Tux3.Volume

set_option autoImplicit false

namespace Tux3

open BigEndian

/-- `struct xcache_entry`; its `size` is the length of the body. -/
structure XcacheEntry where
  atom : Nat
  body : Bytes
  deriving DecidableEq, Repr

/-- `sizeof(*xattr)` and the body: the distance to `xcache_next`. -/
def XcacheEntry.len (xattr : XcacheEntry) : Nat := 4 + xattr.body.length

/-- `struct xcache`. -/
structure Xcache where
  size : Nat
  maxsize : Nat
  xattrs : List XcacheEntry
  deriving DecidableEq, Repr

/-- The bytes of some entries. -/
def entriesLen (xattrs : List XcacheEntry) : Nat := (xattrs.map XcacheEntry.len).sum

theorem entriesLen_cons (xattr : XcacheEntry) (xattrs : List XcacheEntry) :
    entriesLen (xattr :: xattrs) = xattr.len + entriesLen xattrs := rfl

theorem entriesLen_append (front back : List XcacheEntry) :
    entriesLen (front ++ back) = entriesLen front + entriesLen back := by
  unfold entriesLen
  rw [List.map_append, List.sum_append]

/-- A cache whose `size` is that of its entries, all within the memory it has, and whose atoms
and sizes fit their 16 bits. -/
structure Xcache.Ok (xcache : Xcache) : Prop where
  size_eq : xcache.size = entriesLen xcache.xattrs
  size_le : xcache.size ≤ xcache.maxsize
  maxsize_lt : xcache.maxsize < 2 ^ 16
  atom_lt : ∀ xattr ∈ xcache.xattrs, xattr.atom < 2 ^ 16

/-- A walk over the entries up to `xcache_limit`, with the assert at its end. -/
def walkEntries {σ : Type} (xlimit : Nat) (f : XcacheEntry → σ → Except TuxError σ) :
    List XcacheEntry → Nat → σ → Except TuxError σ
  | [], pos, st =>
      if pos < xlimit then .error .bounds
      else do
        tuxAssert (pos = xlimit)
        return st
  | xattr :: xattrs, pos, st =>
      if pos < xlimit then do
        let st' ← f xattr st
        walkEntries xlimit f xattrs (pos + xattr.len) st'
      else do
        tuxAssert (pos = xlimit)
        return st

/-- A walk goes over all the entries, and its assert holds. -/
theorem walkEntries_eq {σ : Type} {xlimit : Nat} {f : XcacheEntry → σ → Except TuxError σ}
    {xattrs : List XcacheEntry} {pos : Nat} {st : σ} (hlimit : pos + entriesLen xattrs = xlimit) :
    walkEntries xlimit f xattrs pos st = xattrs.foldlM (fun st xattr => f xattr st) st := by
  induction xattrs generalizing pos st with
  | nil =>
      obtain rfl : pos = xlimit := hlimit
      unfold walkEntries
      rw [if_neg (Nat.lt_irrefl pos), tuxAssert_of rfl]
      rfl
  | cons xattr xattrs ih =>
      rw [entriesLen_cons] at hlimit
      have hlen : 0 < xattr.len := Nat.add_pos_left (Nat.succ_pos 3) _
      unfold walkEntries
      rw [if_pos (by omega), List.foldlM_cons]
      congr 1
      funext st'
      exact ih (by omega)

end Tux3
