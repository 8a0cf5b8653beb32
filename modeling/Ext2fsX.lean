import Ext2fsX.Alloc.Conservation
import Ext2fsX.Balloc.Preallocation
import Ext2fsX.Balloc.Scans
import Ext2fsX.Balloc.Scarcity
import Ext2fsX.Blocks.Shrink
import Ext2fsX.Blocks.TruncateErrors
import Ext2fsX.Directory.Checkpath
import Ext2fsX.Directory.Create
import Ext2fsX.Directory.Dirblock
import Ext2fsX.Directory.Interleaving
import Ext2fsX.Directory.Resolve
import Ext2fsX.Files.PageoutErrors
import Ext2fsX.Files.Ranges
import Ext2fsX.Growth.Pageout
import Ext2fsX.Htree.Buffers
import Ext2fsX.Htree.Errors
import Ext2fsX.Htree.HtreeHash
import Ext2fsX.Htree.Readers
import Ext2fsX.Htree.SortMap
import Ext2fsX.Links.Consistency
import Ext2fsX.Locks.Order
import Ext2fsX.Look.Liveness
import Ext2fsX.Mount.Descriptors
import Ext2fsX.Mount.Resources
import Ext2fsX.Mounted.CleanFlag
import Ext2fsX.Mounted.SyncErrors
import Ext2fsX.Reuse.Ioctl
import Ext2fsX.Reuse.Setattr
import Ext2fsX.Reuse.StaleHandles
import Ext2fsX.Reuse.Symlink
import Ext2fsX.Vget.Lifetime
import Ext2fsX.Vget.Liveness
