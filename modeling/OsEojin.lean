import OsEojin.Lib.Dictionaries
import OsEojin.Lib.Runs
import OsEojin.Lib.ByteMemory
import OsEojin.Pmm
import OsEojin.Lib.Pool
import OsEojin.PmmSet
import OsEojin.PmmRam
import OsEojin.Vmm
import OsEojin.VmmTables
import OsEojin.VmmMap
import OsEojin.PageMap
import OsEojin.TableBudget
import OsEojin.VmmInit
import OsEojin.IdentityMap
import OsEojin.Loader
import OsEojin.ElfImage
import OsEojin.ElfRounds
import OsEojin.ElfMapped
import OsEojin.ElfSegments
import OsEojin.ElfConfined
import OsEojin.Exec
import OsEojin.AddressSpaces
import OsEojin.ExecIsolation
import OsEojin.ExecStaging
import OsEojin.KernelMap
import OsEojin.InPlace
import OsEojin.FrameReach
import OsEojin.ExecLeak
import OsEojin.ExecFile
import OsEojin.HeapNeutral
import OsEojin.HeapAccounting
import OsEojin.HeapService
import OsEojin.HeapMemory
import OsEojin.HeapExhaustion
import OsEojin.ReadFailure
import OsEojin.DeleteScan
import OsEojin.Process
import OsEojin.ProcessTable
import OsEojin.ContextSwitch
import OsEojin.Lib.Rotation
import OsEojin.RoundRobin
import OsEojin.Lib.WordStack
import OsEojin.Interrupt
import OsEojin.InterruptFrame
import OsEojin.Multitasking
import OsEojin.Descriptors
import OsEojin.Lib.Layout
import OsEojin.Lib.Programs
import OsEojin.Lib.Forests
import OsEojin.Kheap
import OsEojin.HeapOrder
import OsEojin.HeapOwnership
import OsEojin.Ata
import OsEojin.Fat
import OsEojin.Shell
import OsEojin.Keyboard
import OsEojin.ShiftKeys
import OsEojin.Lib.Notes
import OsEojin.ShellBuffers
import OsEojin.FatSpec
import OsEojin.FatCalls
import OsEojin.FatUpdates
import OsEojin.FatTree
import OsEojin.FatGeometry
import OsEojin.Lib.Links
import OsEojin.FatFreeing
import OsEojin.FatInvariant
import OsEojin.FatMkdir
import OsEojin.FatAllocation
import OsEojin.FatNames
import OsEojin.FatListing
import OsEojin.FatPhantoms
import OsEojin.FatPath
import OsEojin.FatMirror
import OsEojin.FatFrame
import OsEojin.FatDelete
import OsEojin.FileReading
import OsEojin.DirSectors
import OsEojin.ScanEnds
import OsEojin.FatCreate
import OsEojin.FatRoundTrip
import OsEojin.FatDirectory
import OsEojin.FatNameMatch
import OsEojin.Lib.Answers
import OsEojin.FatFaults
import OsEojin.Lib.Checked
import OsEojin.FatRegions
import OsEojin.Lib.Layers
import OsEojin.AtaPio
import OsEojin.Irq
import OsEojin.Boot
import OsEojin.BootFile
import OsEojin.ReadSectors
import OsEojin.Lib.MaximalRuns
import OsEojin.Tokens
import OsEojin.Lib.Terminals
import OsEojin.Screen
import OsEojin.Echo
import OsEojin.PathBuffer
import OsEojin.Session
import OsEojin.ExecProgram
