import YegaKernel.DataStructures.List
import YegaKernel.Kernel.Memmove
import YegaKernel.Kernel.Strtok
import YegaKernel.Kernel.Traps
import YegaKernel.Drivers.Serial
import YegaKernel.Buddy.Teardown
import YegaKernel.Buddy.SelfTest
import YegaKernel.Boot.FreePages
import YegaKernel.Fs.AtaDrive
import YegaKernel.Fs.DelayedWrite
import YegaKernel.Fs.Ext2.Partition
import YegaKernel.Fs.Ext2.FreshBitmaps
import YegaKernel.Fs.Ext2.Mount
import YegaKernel.Fs.Ext2.BitCells
import YegaKernel.Fs.Ext2.BlockRun
import YegaKernel.Fs.Ext2.InodeRun
import YegaKernel.Fs.Ext2.DentryChain
import YegaKernel.Fs.Ext2.Creation
import YegaKernel.Fs.Ext2.Cursor
import YegaKernel.Fs.Ext2.Locks
import YegaKernel.Fs.Dcache.TreeRun
import YegaKernel.Fs.Dcache.PathSplit
import YegaKernel.Fs.Dcache.Walk
import YegaKernel.Fs.Ufs.Namei
import YegaKernel.Fs.Ufs.FreeInodes
import YegaKernel.Fs.Ufs.Super
import YegaKernel.Fs.Ufs.LockBit
import YegaKernel.Slab.Translation
import YegaKernel.Slab.FlagBits
import YegaKernel.Slab.Shared
import YegaKernel.Slab.Hoarding
import YegaKernel.Slab.FailedAlloc
import YegaKernel.Slab.Alignment
import YegaKernel.Slab.OldMemory
import YegaKernel.Slab.Destroy
import YegaKernel.Slab.Constructor
import YegaKernel.Slab.Kmalloc
