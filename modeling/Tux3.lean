import Tux3.Balloc.Bits
import Tux3.Balloc.Longest
import Tux3.Btree.Account
import Tux3.Btree.Chop
import Tux3.Btree.ChopLeaves
import Tux3.Btree.ChopNodes
import Tux3.Btree.ChopRow
import Tux3.Btree.ChopTree
import Tux3.Btree.Insert
import Tux3.Btree.RedirectTree
import Tux3.Btree.Uleaf
import Tux3.Buffer.CacheRun
import Tux3.Buffer.Cached
import Tux3.Buffer.Compress
import Tux3.Buffer.Evict
import Tux3.Buffer.FlushList
import Tux3.Buffer.Reclaim
import Tux3.Buffer.Run
import Tux3.Buffer.Serve
import Tux3.Commit.Durable
import Tux3.Dir.Readdir
import Tux3.Filemap.Dleaf
import Tux3.Filemap.Dleaf2Chop
import Tux3.Filemap.Dleaf2Merge
import Tux3.Filemap.Dleaf2Write
import Tux3.Filemap.DleafEdit
import Tux3.Filemap.DleafList
import Tux3.Filemap.DleafMerge
import Tux3.Filemap.DleafProbe
import Tux3.Filemap.DleafWalk
import Tux3.Filemap.Extent
import Tux3.Filemap.Hole
import Tux3.Filemap.SegRange
import Tux3.Filemap.StrideMap
import Tux3.Filemap.Truncate
import Tux3.Inode.AttrCodec
import Tux3.Inode.AttrSteps
import Tux3.Inode.Enumerate
import Tux3.Inode.IattrFork
import Tux3.Inode.IleafMerge
import Tux3.Inode.IleafResize
import Tux3.Inode.Inum
import Tux3.Inode.Time
import Tux3.Lib.Area
import Tux3.Lib.ForestGap
import Tux3.Lib.IndexForest
import Tux3.Lib.Inherit
import Tux3.Lib.Outcome
import Tux3.Log.Check
import Tux3.Log.Run
import Tux3.Log.StashRun
import Tux3.Namei
import Tux3.Orphan
import Tux3.Shard.Lookup
import Tux3.Shard.Map
import Tux3.Shard.Reopen
import Tux3.Version.Delete
import Tux3.Version.Heirs
import Tux3.Version.Prune
import Tux3.Version.Run
import Tux3.Version.Snapshots
import Tux3.Version.Total
import Tux3.Version.Values
import Tux3.Version.Write
import Tux3.Volume
import Tux3.Writeback.Run
import Tux3.Xattr.Atom
import Tux3.Xattr.Calls
import Tux3.Xattr.List
import Tux3.Xattr.Refcount
import Tux3.Xattr.Runs
import Tux3.Xattr.Update
