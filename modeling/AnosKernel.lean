import AnosKernel.Lib.Runs
import AnosKernel.Lib.Masks
import AnosKernel.Lib.Chains
import AnosKernel.Lib.Counting
import AnosKernel.Lib.TableTree
import AnosKernel.Lib.Directories
import AnosKernel.Lib.Probing
import AnosKernel.Lib.Rings
import AnosKernel.Lib.Queues
import AnosKernel.Lib.Windows
import AnosKernel.Lib.Spans
import AnosKernel.Lib.Routines
import AnosKernel.Lib.Bytes
import AnosKernel.Lib.CStrings
import AnosKernel.Lib.Slots
import AnosKernel.Lib.Checked
import AnosKernel.Lib.Owners
import AnosKernel.Lib.Continuations
import AnosKernel.Lib.Frames
import AnosKernel.Lib.VirtualCpus
import AnosKernel.PageAlloc
import AnosKernel.PageOwnership
import AnosKernel.MemoryMap
import AnosKernel.SlabAlloc
import AnosKernel.FixedBlocks
import AnosKernel.FbaAlloc
import AnosKernel.FbaSearch
import AnosKernel.HashTable
import AnosKernel.RefCountMap
import AnosKernel.PageBlocks
import AnosKernel.OwnedPages
import AnosKernel.ProcessTasks
import AnosKernel.TaskExits
import AnosKernel.TaskSwitch
import AnosKernel.TaskSwitchRiscV
import AnosKernel.TaskBlocks
import AnosKernel.TaskMemory
import AnosKernel.ListRoutines
import AnosKernel.CapabilityMap
import AnosKernel.Scheduler
import AnosKernel.RunQueues
import AnosKernel.SleepQueue
import AnosKernel.Preemption
import AnosKernel.SpinLocks
import AnosKernel.SpinLocksRiscV
import AnosKernel.ReentrantLocks
import AnosKernel.SchedLocks
import AnosKernel.Mutex
import AnosKernel.Msi
import AnosKernel.MsiQueues
import AnosKernel.Klog
import AnosKernel.Ipwi
import AnosKernel.ChannelDestroy
import AnosKernel.Sleep
import AnosKernel.IpcChannel
import AnosKernel.ChannelDelivery
import AnosKernel.ChannelWakeups
import AnosKernel.InFlightTable
import AnosKernel.NamedChannels
import AnosKernel.VmMapper
import AnosKernel.FbaPages
import AnosKernel.SlabBlocks
import AnosKernel.TableMemory
import AnosKernel.TableGrowth
import AnosKernel.DirectMap
import AnosKernel.DirectMapRegions
import AnosKernel.DirectMapX86
import AnosKernel.DirectMapRiscV
import AnosKernel.EntryWalk
import AnosKernel.TempTables
import AnosKernel.LargePages
import AnosKernel.Shootdown
import AnosKernel.MapSyscalls
import AnosKernel.MapRuns
import AnosKernel.TablePaths
import AnosKernel.MapRollback
import AnosKernel.PhysicalPages
import AnosKernel.PageCounters
import AnosKernel.AcpiTables
import AnosKernel.AcpiHandover
import AnosKernel.AcpiFailures
import AnosKernel.AcpiNested
import AnosKernel.AcpiWindows
import AnosKernel.AcpiFind
import AnosKernel.MadtWalk
import AnosKernel.RegionTree
import AnosKernel.RegionSyscalls
import AnosKernel.RegionBalance
import AnosKernel.ProcessMemory
import AnosKernel.PageSharing
import AnosKernel.CopyOnWrite
import AnosKernel.ProcessCreate
import AnosKernel.AddressSpace
import AnosKernel.UserSpaces
import AnosKernel.BufferExchange
import AnosKernel.StackValues
import AnosKernel.StdRoutines
import AnosKernel.MemmoveX86
import AnosKernel.ShiftArray
import AnosKernel.ShiftDeque
import AnosKernel.Vmalloc
import AnosKernel.VmallocRuns
import AnosKernel.VmallocBlocks
import AnosKernel.SpaceLocks
import AnosKernel.MessagePage
import AnosKernel.Ramfs
import AnosKernel.VfsMounts
import AnosKernel.PciEnumeration
import AnosKernel.PciCapability
import AnosKernel.AhciWrite
import AnosKernel.AhciRead
import AnosKernel.DeviceRegistry
import AnosKernel.DeviceMap
import AnosKernel.DevmanAcpi
import AnosKernel.SpawnRequest
import AnosKernel.ConfigLoading
import AnosKernel.PathParsing
import AnosKernel.PageQueries
import AnosKernel.ElfReader
import AnosKernel.LoaderQueries
import AnosKernel.SegmentLoading
import AnosKernel.SegmentContents
import AnosKernel.InitialStack
import AnosKernel.InitialBounds
import AnosKernel.InitialImage
import AnosKernel.BootConfig
import AnosKernel.ConfigStrings
import AnosKernel.DebugTerm
import AnosKernel.DebugTermBounds
import AnosKernel.DebugScreen
