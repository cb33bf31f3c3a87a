import Mytilus.AArch64.Machine
import Mytilus.AArch64.Overwrite
import Mytilus.Str.Mem
import Mytilus.Str.Memcpy
import Mytilus.Str.Memset
import Mytilus.Base.Lcg
import Mytilus.Prng.Rand
import Mytilus.Prng.Rand48
import Mytilus.Prng.Rand48Streams
import Mytilus.Prng.Srand48
import Mytilus.Base.LaggedFibonacci
import Mytilus.Base.Prog
import Mytilus.Prng.Random
import Mytilus.Prng.Bank
import Mytilus.Prng.RandomSteps
import Mytilus.Prng.RandomRefine
import Mytilus.Prng.RandomRuns
import Mytilus.Prng.RandomSessions
import Mytilus.Base.Heap
import Mytilus.Stdlib.Sort
import Mytilus.Stdlib.SortSift
import Mytilus.Stdlib.Qsort
import Mytilus.Prng.Seed48
import Mytilus.Base.BitSet
import Mytilus.Signal.Sigset
import Mytilus.Signal.SigsetRuns
import Mytilus.Base.FullPeriod
import Mytilus.Base.XorShift
import Mytilus.Prng.RandR
import Mytilus.Prng.Periods
import Mytilus.Base.BinaryPolynomial
import Mytilus.Base.ShiftPeriod
import Mytilus.Prng.Rand48Periods
import Mytilus.Prng.RandomPeriod
import Mytilus.Base.SpinLock
import Mytilus.Prng.RandomThreads
import Mytilus.Sys.Calls
import Mytilus.Sys.Descriptors
import Mytilus.Sys.Errno
import Mytilus.Base.CString
import Mytilus.Str.Span
import Mytilus.Base.Fields
import Mytilus.Str.Strsep
import Mytilus.Base.Tokens
import Mytilus.Str.Strtok
import Mytilus.Str.StrtokRuns
import Mytilus.Str.StrtokStrsep
import Mytilus.Stdlib.Bsearch
import Mytilus.Stdlib.IntOps
import Mytilus.Str.MemcpyOverlap
import Mytilus.Str.Memmove
import Mytilus.Sys.Mman
import Mytilus.Base.Mapped
import Mytilus.Str.Strlen
import Mytilus.Str.Strpbrk
import Mytilus.Str.Strstr
import Mytilus.Base.ByteOrder
import Mytilus.Str.Strcmp
import Mytilus.Locale.Ctype
import Mytilus.Str.Strcasecmp
import Mytilus.Str.Strncpy
import Mytilus.Str.Strcat
import Mytilus.Locale.Classes
import Mytilus.Str.Strchr
import Mytilus.Errno.Strerror
import Mytilus.Str.StrerrorR
import Mytilus.AArch64.CalleeSaved
import Mytilus.Startup.Setjmp
import Mytilus.Startup.Longjmp
import Mytilus.Stdlib.SiftDown
import Mytilus.AArch64.Thread
import Mytilus.Sys.SyscallCp
import Mytilus.Base.ProgAlike
import Mytilus.Base.ProgCost
import Mytilus.Base.HeapLevels
import Mytilus.Stdlib.SortArranged
import Mytilus.Stdlib.SortCost
import Mytilus.AArch64.Clobbers
import Mytilus.Startup.Jumps
import Mytilus.Startup.CallingConvention
import Mytilus.Stdlib.SortSearch
import Mytilus.Stdlib.SortStrings
import Mytilus.Str.JoinSplit
import Mytilus.Sys.Clock
import Mytilus.Sys.Process
import Mytilus.Base.Pieces
import Mytilus.Sys.Maps
import Mytilus.Base.StringWrites
import Mytilus.Str.Buffers
import Mytilus.Str.Regions
