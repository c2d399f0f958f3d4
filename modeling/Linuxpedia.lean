import Linuxpedia.Lib.Run
import Linuxpedia.Lib.Buffer
import Linuxpedia.Lib.Ledger
import Linuxpedia.Lib.ByteFile
import Linuxpedia.Lib.DosPartition
import Linuxpedia.Lib.SlotMap
import Linuxpedia.Lib.ReadModifyWrite
import Linuxpedia.Lib.Terminated
import Linuxpedia.Sfs.Layout
import Linuxpedia.Sfs.Format
import Linuxpedia.Sfs.Volume
import Linuxpedia.Sfs.Driver
import Linuxpedia.Sfs.DriverTable
import Linuxpedia.Sfs.DriverSpec
import Linuxpedia.Sfs.RawTable
import Linuxpedia.Sfs.VolumeOps
import Linuxpedia.Sfs.Mounting
import Linuxpedia.Sfs.Operations
import Linuxpedia.Sfs.Ownership
import Linuxpedia.Sfs.Remount
import Linuxpedia.Sfs.Failure
import Linuxpedia.Sfs.Writeback
import Linuxpedia.Sfs.Unlinked
import Linuxpedia.Sfs.Listing
import Linuxpedia.Sfs.Directory
import Linuxpedia.Sfs.Readdir
import Linuxpedia.RealFs.Browse
import Linuxpedia.RealFs.Stored
import Linuxpedia.RealFs.BrowseSpec
import Linuxpedia.RealFs.Frame
import Linuxpedia.RealFs.Start
import Linuxpedia.RealFs.Contents
import Linuxpedia.RealFs.Agreement
import Linuxpedia.RealFs.Isolation
import Linuxpedia.RealFs.Blind
import Linuxpedia.RealFs.Restart
import Linuxpedia.RealFs.Formatted
import Linuxpedia.RealFs.RoundTrip
import Linuxpedia.RealFs.BlockAddresses
import Linuxpedia.RealFs.Interpreter
import Linuxpedia.SimulaFs.Browse
import Linuxpedia.SimulaFs.Versions
import Linuxpedia.SimulaFs.Names
import Linuxpedia.SimulaFs.Pointers
import Linuxpedia.SimulaFs.Isolation
import Linuxpedia.SimulaFs.WideOffsets
import Linuxpedia.Lib.Simulation
import Linuxpedia.Lib.Regions
import Linuxpedia.Sfs.Inodes
import Linuxpedia.Sfs.Service
import Linuxpedia.Sfs.ServiceSpec
import Linuxpedia.Sfs.Serving
import Linuxpedia.Lib.PowerLoss
import Linuxpedia.Sfs.PowerLoss
import Linuxpedia.Sfs.Creation
import Linuxpedia.Sfs.AnyImage
import Linuxpedia.Sfs.Lifetime
import Linuxpedia.Sfs.Interleave
import Linuxpedia.Sfs.LostUpdate
import Linuxpedia.Sfs.Freeing
import Linuxpedia.Sfs.Addressing
import Linuxpedia.RamDisk.RamDevice
import Linuxpedia.RamDisk.BootRecord
import Linuxpedia.RamDisk.RamBlock
import Linuxpedia.RamDisk.Partitions
import Linuxpedia.Vdrv.Vram
import Linuxpedia.CharDev.Message
import Linuxpedia.CharDev.Board
import Linuxpedia.Sleep.ExclusiveOpen
import Linuxpedia.Sleep.Mailbox
import Linuxpedia.RealFs.Commands
import Linuxpedia.RealFs.Serving
import Linuxpedia.RealFs.Hosts
import Linuxpedia.RealFs.Killed
import Linuxpedia.RealFs.Dialogue
import Linuxpedia.Modules.Loading
