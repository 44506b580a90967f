import OsDev.Lib.LittleEndian
import OsDev.Lib.LinkChain
import OsDev.Lib.Forest
import OsDev.Lib.ForestUpdate
import OsDev.Lib.Subtree
import OsDev.Lib.Fuel
import OsDev.Lib.Countdown
import OsDev.Lib.Walker
import OsDev.Ata
import OsDev.Libc.Str
import OsDev.Fat32.Types
import OsDev.Fat32.Table
import OsDev.Fat32.Names
import OsDev.Fat32.Directory
import OsDev.Fat32.Ops
import OsDev.Fat32.FileIo
import OsDev.Fat32.Geometry
import OsDev.Fat32.Slots
import OsDev.Fat32.Alloc
import OsDev.Fat32.View
import OsDev.Fat32.Search
import OsDev.Fat32.CreateEntry
import OsDev.Fat32.Shape
import OsDev.Fat32.Blank
import OsDev.Fat32.Effects
import OsDev.Fat32.Removal
import OsDev.Fat32.Stability
import OsDev.Fat32.Creation
import OsDev.Fat32.Walk
import OsDev.Fat32.FlatDir
import OsDev.Fat32.Listing
import OsDev.Fat32.Scanners
import OsDev.Fat32.OpSpecs
import OsDev.Fat32.DirectoryMap
import OsDev.Fat32.NameCodec
import OsDev.Fat32.Handles
import OsDev.Fat32.Integrity
import OsDev.Fat32.Descent
import OsDev.Fat32.UniqueNames
import OsDev.Fat32.Cwd
import OsDev.Fat32.Termination
import OsDev.Fat32.Atomicity
import OsDev.Fat32.PathAgreement
import OsDev.Fat32.Content
import OsDev.Fat32.Reading
import OsDev.Fat32.Pieces
import OsDev.Fat32.EndOfFile
import OsDev.Fat32.Writing
import OsDev.Fat32.Footprint
import OsDev.Fat32.FileUpdate
import OsDev.Fat32.Rewriting
import OsDev.Fat32.OpenedFile
import OsDev.Fat32.DamagedChains
import OsDev.Fat32.ExactRemoval
import OsDev.Fat32.Rmdir
import OsDev.Fat32.Unlink
import OsDev.Fat32.SlotList
import OsDev.Fat32.SearchOrder
import OsDev.Fat32.Mkdir
import OsDev.Fat32.CreatedFile
import OsDev.Fat32.Isolation
import OsDev.Fat32.Remount
import OsDev.Fat32.Mount
import OsDev.Fat32.FreeSearch
import OsDev.Lib.BlockList
import OsDev.Lib.Bitmap
import OsDev.Lib.LinkedTree
import OsDev.Mm.Pmm
import OsDev.Mm.Frames
import OsDev.Mm.PmmInit
import OsDev.Mm.FrameRuns
import OsDev.Mm.LowestFit
import OsDev.Mm.FrameOwners
import OsDev.Mm.FrameCount
import OsDev.Mm.SearchBounds
import OsDev.Mm.BootInfo
import OsDev.Arch.Acpi
import OsDev.Mm.TagLoop
import OsDev.Mm.FreeSet
import OsDev.Mm.WholePages
import OsDev.Mm.Vmm
import OsDev.Mm.PageTables
import OsDev.Mm.MapPage
import OsDev.Mm.AddressSpace
import OsDev.Mm.FrameSupply
import OsDev.Mm.Kmalloc
import OsDev.Mm.HeapBlocks
import OsDev.Mm.HeapRuns
import OsDev.Mm.KernelBoot
import OsDev.Mm.TableFrames
import OsDev.Mm.HeapTables
import OsDev.Mm.HeapBoot
import OsDev.Mm.RequestSizes
import OsDev.Mm.HeapReach
import OsDev.Mm.LowMachine
import OsDev.Mm.HeapBacking
import OsDev.Mm.HeapExtent
import OsDev.Core.Task
import OsDev.Core.TaskRuns
import OsDev.Core.Killed
import OsDev.Core.Sleeping
import OsDev.Core.NestedYield
import OsDev.Core.RoundRobin
import OsDev.Core.TaskIds
import OsDev.Lib.RingQueue
import OsDev.Net.Rtl8169
import OsDev.Net.TransmitRing
import OsDev.Net.ReceiveRing
import OsDev.Lib.CharArray
import OsDev.Lib.JsonText
import OsDev.Lib.Json
import OsDev.Net.NetStack
import OsDev.Net.ParseJson
import OsDev.Net.Conversation
import OsDev.Net.ResponseText
import OsDev.Net.LiteralTags
import OsDev.Net.Segments
import OsDev.Net.PromptBuffers
import OsDev.Net.RequestBody
import OsDev.Net.Escapes
import OsDev.Agent
import OsDev.Lib.CommonPrefix
import OsDev.Libc.Compare
import OsDev.Core.Shell
import OsDev.Core.ShellInput
import OsDev.Core.TabCompletion
import OsDev.Core.PathBuffers
import OsDev.Core.PrintFile
import OsDev.Core.CommandLines
import OsDev.Core.WriteCat
import OsDev.Core.ContextGet
import OsDev.Core.ContextStore
import OsDev.Core.ContextRuns
import OsDev.Drivers.AtaDetect
import OsDev.Drivers.Keyboard
import OsDev.Drivers.Font
import OsDev.Lib.Canvas
import OsDev.Drivers.Screen
import OsDev.Drivers.Capture
import OsDev.Drivers.Redraw
import OsDev.Lib.LineRing
import OsDev.Drivers.Transcript
import OsDev.Drivers.Scrollback
import OsDev.Lib.X86
import OsDev.Lib.InterruptStub
import OsDev.Arch.Gdt
import OsDev.Arch.Idt
import OsDev.Arch.Interrupts
import OsDev.Arch.TimerLine
import OsDev.Drivers.Scancodes
import OsDev.Lib.PioDisk
import OsDev.Drivers.AtaPio
import OsDev.Drivers.BootVolume
import OsDev.Mm.AddressMap
import OsDev.Lib.MappedMemory
import OsDev.Mm.HeapMemory
import OsDev.Mm.HeapContents
import OsDev.Core.OpenHandles
import OsDev.Net.BringUp
