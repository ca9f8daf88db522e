import Plo.Base.Run
import Plo.Base.Packing
import Plo.Base.Word
import Plo.Lib.Types
import Plo.Syspage.State
import Plo.Hal.Memory
import Plo.Hal.Mpu
import Plo.Hal.MpuCover
import Plo.Hal.MpuRuns
import Plo.Hal.MpuFailure
import Plo.Syspage.BestFit
import Plo.Syspage.BestFitShortest
import Plo.Syspage.Align64
import Plo.Syspage.HalRanges
import Plo.Syspage.Linking
import Plo.Syspage.EntryLinks
import Plo.Syspage.Heap
import Plo.Syspage.HeapRuns
import Plo.Syspage.ProgNames
import Plo.Base.Bytes
import Plo.Base.Overlay
import Plo.Base.Patch
import Plo.Base.Nor
import Plo.Base.Crc
import Plo.Base.Scan
import Plo.Base.Window
import Plo.Base.Scatter
import Plo.Base.Links
import Plo.Base.WordMem
import Plo.Base.Digits
import Plo.Cmds.App
import Plo.Cmds.AppLoad
import Plo.Cmds.AppRuns
import Plo.Cmds.Kernel
import Plo.Cmds.KernelWrites
import Plo.Cmds.LoadLoops
import Plo.Cmds.Copy
import Plo.Cmds.CopyData
import Plo.Cmds.CopyArgs
import Plo.Cmds.Memcrypt
import Plo.Cmds.MemcryptHex
import Plo.Cmds.MemcryptArgs
import Plo.Cmds.MemcryptSources
import Plo.Cmds.CopyResult
import Plo.Cmds.Cmd
import Plo.Cmds.ArgLine
import Plo.Cmds.ArgWords
import Plo.Cmds.Prompt
import Plo.Cmds.PromptText
import Plo.Cmds.PromptRuns
import Plo.Cmds.Script
import Plo.Cmds.Mem
import Plo.Cmds.Dump
import Plo.Devices.FlashImxrt
import Plo.Devices.FlashRuns
import Plo.Devices.SectorCache
import Plo.Devices.SectorContent
import Plo.Devices.SdCard
import Plo.Devices.SdCardBytes
import Plo.Devices.VgaTerminal
import Plo.Devices.VgaRuns
import Plo.Devices.FlashSpimctrl
import Plo.Devices.FlashFtmctrl
import Plo.Devices.EraseCover
import Plo.Devices.FlashReads
import Plo.Devices.FlashZynq
import Plo.Devices.FlashZynqRegions
import Plo.Devices.FlashZynqRuns
import Plo.Devices.Mce
import Plo.Devices.MceRuns
import Plo.Devices.MceHistories
import Plo.Devices.FlashErase
import Plo.Devices.DiskBios
import Plo.Devices.DiskBiosWindow
import Plo.Devices.DiskBiosWrites
import Plo.Devices.DiskBiosDisks
import Plo.Devices.DiskBiosBytes
import Plo.Devices.NandData
import Plo.Devices.NandContent
import Plo.Devices.NandChunks
import Plo.Devices.NandTransfers
import Plo.Devices.NandFaults
import Plo.Devices.NandFaultLog
import Plo.Devices.NandRelocation
import Plo.Devices.XspiCrypt
import Plo.Devices.XspiCryptRuns
import Plo.Devices.Rtt
import Plo.Devices.RttRuns
import Plo.Lib.Strtoul
import Plo.Lib.Format
import Plo.Lib.FormatSpec
import Plo.Lib.FormatNumber
import Plo.Lib.FormatRoundTrip
import Plo.Lib.FormatString
import Plo.Lib.Getopt
import Plo.Lib.GetoptSpec
import Plo.Lib.GetoptRun
import Plo.Lib.GetoptPosix
import Plo.Lib.Ptable
import Plo.Lib.PtableSound
import Plo.Lib.Strings
import Plo.Lib.PtableIntegrity
import Plo.Lib.CrcTable
import Plo.Lib.RegionHex
import Plo.Lib.List
import Plo.Lib.Cbuffer
import Plo.Lib.CbufferFifo
import Plo.Phfs.Frame
import Plo.Phfs.Cuts
import Plo.Phfs.ReadSafety
import Plo.Phfs.Send
import Plo.Phfs.Aliases
import Plo.Phfs.AliasRuns
import Plo.Phfs.Files
import Plo.Devices.Sfdp
import Plo.Devices.SfdpTable
import Plo.Phfs.Resolve
import Plo.Phfs.Phoenixd
import Plo.Phfs.PhoenixdRuns
import Plo.Phfs.ReadReply
import Plo.Sbi.List
import Plo.Sbi.Ipi
import Plo.Sbi.IpiQueue
import Plo.Sbi.IpiRuns
import Plo.Sbi.Rfence
import Plo.Sbi.RfenceTask
import Plo.Sbi.RfenceRuns
import Plo.Sbi.RfenceDelivery
import Plo.Sbi.IpiDeadlock
import Plo.Sbi.Hsm
import Plo.Sbi.HsmRuns
import Plo.Sbi.HsmJump
import Plo.Sbi.Exceptions
import Plo.Sbi.ExceptionTraps
import Plo.Sbi.Fdt
import Plo.Sbi.FdtTree
import Plo.Sbi.FdtFind
import Plo.Sbi.FdtCpus
import Plo.Sbi.FdtScan
import Plo.Sbi.FdtScanRuns
import Plo.Base.Since
import Plo.Hal.Dtb
import Plo.Hal.DtbTokens
import Plo.Hal.DtbRuns
import Plo.Hal.DtbTrees
import Plo.Base.Latest
import Plo.Base.Sections
import Plo.Hal.Aarch64Mmu
import Plo.Hal.Aarch64MmuRuns
import Plo.Hal.Aarch64Memory
import Plo.Hal.Armv7aMmu
import Plo.Hal.Armv7aMemory
import Plo.Hal.Armv8mMpu
import Plo.Devices.Devs
import Plo.Devices.DevsIter
import Plo.Devices.NandCtrl
import Plo.Devices.NandCtrlData
import Plo.Devices.NandCtrlPages
import Plo.Devices.NandCtrlRuns
import Plo.Devices.NandCtrlKeeps
import Plo.Devices.Lpuart
import Plo.Devices.UartImxrt106x
import Plo.Devices.UartImxrt117x
import Plo.Devices.UartImxrt117xRuns
import Plo.Base.Tally
import Plo.Sbi.Boot
import Plo.Sbi.BootRuns
import Plo.Sbi.BootHsm
import Plo.Base.Critical
import Plo.Base.Interrupts
import Plo.Base.Ring
import Plo.Base.Flips
import Plo.Sbi.IpiLock
