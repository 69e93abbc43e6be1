import Btrfs.Verification.ExtentIo.Correctness
import Btrfs.Verification.Raid56.Correctness
import Btrfs.Verification.SendStream.Correctness
import Btrfs.Verification.Btree.Correctness
import Btrfs.Verification.SendStream.Containment
import Btrfs.Verification.Volumes.SysArrayRuns
import Btrfs.Verification.Volumes.FullStripe
import Btrfs.Verification.Volumes.Rmap
import Btrfs.Verification.DiskIo.Correctness
import Btrfs.Verification.DiskIo.SuperBlock
import Btrfs.Verification.Volumes.EbCorrectness
import Btrfs.Verification.BufferCache.Correctness
import Btrfs.Verification.Ctree.LeafSimulation
import Btrfs.Verification.DeviceScan.Correctness
import Btrfs.Verification.Image.Correctness
import Btrfs.Verification.Image.NameTree
import Btrfs.Verification.Image.Remap
import Btrfs.Verification.Image.UpdateSuper
import Btrfs.Verification.Volumes.NextBg
import Btrfs.Verification.Volumes.ReadChunks
import Btrfs.Verification.FreeSpaceTree.Correctness
import Btrfs.Verification.ChunkRecover.Geometry
import Btrfs.Verification.QgroupVerify.ImpliedRefs
import Btrfs.Verification.ChunkRecover.BgUsed
import Btrfs.Verification.Check.ExtentRecords
import Btrfs.Verification.Check.CsumRange
import Btrfs.Verification.Convert.Wipe
import Btrfs.Verification.Receive.Callbacks
import Btrfs.Verification.Utils.MountRoot
