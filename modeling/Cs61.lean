import Cs61.LoopRules
import Cs61.HardwareWalk
import Cs61.TableEdits
import Cs61.TryMap
import Cs61.Mappings
import Cs61.VmRuns
import Cs61.VmRanges
import Cs61.MemRefresh
import Cs61.CommandText
import Cs61.ReuseEmpty
import Cs61.LastAlloc
import Cs61.Staff
import Cs61.VmFind
import Cs61.VmRangePerm
import Cs61.RefreshShifts
import Cs61.UserStrings
import Cs61.ReadLoop
import Cs61.CatPrograms
import Cs61.LogCopies
import Cs61.KernelResume
import Cs61.Derp
import Cs61.ProcessSetup
import Cs61.QuotedWords
import Cs61.SymbolLookup
import Cs61.CharConv
import Cs61.Strtol
import Cs61.NumericDirectives
import Cs61.UserPanic
import Cs61.TokenCover
import Cs61.StrReads
import Cs61.Backtrace
import Cs61.BootLoader
import Cs61.Memmove
import Cs61.AnsiEscapes
import Cs61.Strstr
import Cs61.Rand
import Cs61.ElfMoved
import Cs61.PciScan
import Cs61.SysSegment
import Cs61.FindPartition
import Cs61.Generate
import Cs61.StrideRequests
import Cs61.StrideOrder
import Cs61.ReversedFiles
import Cs61.ElfIdempotent
import Cs61.ElfCarried
import Cs61.Pow2
import Cs61.Keyboard
import Cs61.BootTables
import Cs61.RoundRobin
import Cs61.KernelLoop
import Cs61.KernelInv
import Cs61.KernelStart
import Cs61.KernelTurns
import Cs61.Allocators
import Cs61.X86Code
import Cs61.AsmStrings
import Cs61.AsmNumbers
import Cs61.MemViewer
import Cs61.ViewerRuns
