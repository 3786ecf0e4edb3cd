import Ziemniak.BareMetal.Words
import Ziemniak.BareMetal.Loop
import Ziemniak.BareMetal.FirstBest
import Ziemniak.BareMetal.Memory
import Ziemniak.BareMetal.Records
import Ziemniak.BareMetal.Struct
import Ziemniak.BareMetal.Paging
import Ziemniak.BareMetal.Tlb
import Ziemniak.BareMetal.BitFields
import Ziemniak.BareMetal.Numeral
import Ziemniak.BareMetal.Ports
import Ziemniak.BareMetal.Uart
import Ziemniak.BareMetal.Driver
import Ziemniak.BareMetal.Terminal
import Ziemniak.BareMetal.RealMode
import Ziemniak.BareMetal.RealModeCode
import Ziemniak.BareMetal.Cpu
import Ziemniak.BareMetal.Handler
import Ziemniak.BareMetal.InlineAsm
import Ziemniak.BareMetal.Descriptor
import Ziemniak.BareMetal.AddressSpace
import Ziemniak.Stage1.BootSector
import Ziemniak.Stage2.Defs
import Ziemniak.Stage2.E820
import Ziemniak.Stage2.Allocation
import Ziemniak.Stage2.PageTables
import Ziemniak.Stage2.Translation
import Ziemniak.Stage2.Mapping
import Ziemniak.Stage2.Cdrom
import Ziemniak.Stage2.IdDrive
import Ziemniak.Stage2.Video
import Ziemniak.Stage2.Main
import Ziemniak.Stage2.Drive
import Ziemniak.Stage2.Loading
import Ziemniak.Stage2.BootRuns
import Ziemniak.Stage2.Directory
import Ziemniak.Stage2.RootDirectory
import Ziemniak.Stage2.FileName
import Ziemniak.Stage2.Faults
import Ziemniak.Stage2.StoreBounds
import Ziemniak.Stage2.SectorBounds
import Ziemniak.Stage2.DiskImage
import Ziemniak.Stage2.DescriptorScan
import Ziemniak.Stage2.DataPhases
import Ziemniak.Stage2.VideoBounds
import Ziemniak.Stage2.VideoText
import Ziemniak.Stage2.VbeModes
import Ziemniak.Stage2.Interrupts
import Ziemniak.Stage2.Idt
import Ziemniak.Kernel.Defs
import Ziemniak.Kernel.Exceptions
import Ziemniak.Kernel.PicWrappers
import Ziemniak.Kernel.MemoryMap
import Ziemniak.Kernel.FreeMemory
import Ziemniak.Kernel.Peek
import Ziemniak.Kernel.Tlb
import Ziemniak.Kernel.Serial
import Ziemniak.Kernel.Loopback
import Ziemniak.Kernel.Hex
import Ziemniak.Kernel.PageEntries
import Ziemniak.Kernel.Cr3
import Ziemniak.Kernel.Descriptors
import Ziemniak.Kernel.Handoff
import Ziemniak.BareMetal.Pic
import Ziemniak.BareMetal.IrqService
import Ziemniak.Stage2.HardwareInterrupts
import Ziemniak.Kernel.HardwareInterrupts
import Ziemniak.BareMetal.LogText
import Ziemniak.Kernel.Debug
import Ziemniak.Kernel.CrashReport
import Ziemniak.Kernel.BootLog
import Ziemniak.Stage2.Run
import Ziemniak.Kernel.Start
import Ziemniak.Kernel.Entry
import Ziemniak.BareMetal.Stages
import Ziemniak.Stage2.Stub
import Ziemniak.Stage2.HandOver
