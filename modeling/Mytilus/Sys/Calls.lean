import Mytilus.Sys.Syscall

/-!
# The wrappers of `time`, `unistd` and `fcntl`

Most wrappers pass their arguments to one system call and its reply through
`ret`; `posix_fadvise`, `posix_fallocate` and `clock_nanosleep` return the
negated reply instead.  C integers are extended to registers as the source's
casts extend them, and a variadic argument is what `va_arg` would read.
-/

namespace Mytilus.Sys

section Wrappers

variable (kernel : Kernel)

/-- `ret(reply) as c_int` -/
def standard (reply : Code (BitVec 64)) : Code (BitVec 32) := do
  let r ← reply
  let v ← ret r
  return v.setWidth 32

/-- `-reply as c_int` -/
def direct (reply : Code (BitVec 64)) : Code (BitVec 32) := do
  let r ← reply
  return (-r).setWidth 32

/-! ## `time` -/

def SYS_clock_settime : BitVec 64 := 112
def SYS_clock_gettime : BitVec 64 := 113
def SYS_clock_getres : BitVec 64 := 114
def SYS_clock_nanosleep : BitVec 64 := 115

def CLOCK_REALTIME : BitVec 32 := 0
def CLOCK_THREAD_CPUTIME_ID : BitVec 32 := 3

def clockGettime (clk : BitVec 32) (ts : BitVec 64) : Code (BitVec 32) :=
  standard (syscall kernel SYS_clock_gettime [clk.signExtend 64, ts])

def clockSettime (clk : BitVec 32) (ts : BitVec 64) : Code (BitVec 32) :=
  standard (syscall kernel SYS_clock_settime [clk.signExtend 64, ts])

def clockGetres (clk : BitVec 32) (ts : BitVec 64) : Code (BitVec 32) :=
  standard (syscall kernel SYS_clock_getres [clk.signExtend 64, ts])

def clockNanosleep (clk flags : BitVec 32) (req rem : BitVec 64) : Code (BitVec 32) :=
  if clk = CLOCK_THREAD_CPUTIME_ID then
    return EINVAL
  else
    direct (syscallCp kernel SYS_clock_nanosleep
      [clk.signExtend 64, flags.signExtend 64, req, rem])

def nanosleep (req rem : BitVec 64) : Code (BitVec 32) := do
  let positive ← clockNanosleep kernel CLOCK_REALTIME 0 req rem
  let v ← ret (-(positive.signExtend 64))
  return v.setWidth 32

/-! ## `unistd` -/

def SYS_dup : BitVec 64 := 23
def SYS_dup3 : BitVec 64 := 24
def SYS_fcntl : BitVec 64 := 25
def SYS_close : BitVec 64 := 57
def SYS_lseek : BitVec 64 := 62
def SYS_read : BitVec 64 := 63
def SYS_write : BitVec 64 := 64
def SYS_ppoll : BitVec 64 := 73
def SYS_sync : BitVec 64 := 81
def SYS_fsync : BitVec 64 := 82
def SYS_fdatasync : BitVec 64 := 83

def F_GETFD : BitVec 64 := 1

def pause : Code (BitVec 32) := standard (syscallCp kernel SYS_ppoll [0, 0, 0, 0])

def dup (fd : BitVec 32) : Code (BitVec 32) := standard (syscall kernel SYS_dup [fd.signExtend 64])

def dup3 (old new flags : BitVec 32) : Code (BitVec 32) :=
  standard (syscall kernel SYS_dup3 [old.signExtend 64, new.signExtend 64, flags.signExtend 64])

def dup2 (old new : BitVec 32) : Code (BitVec 32) :=
  if old = new then do
    let r ← syscall kernel SYS_fcntl [old.signExtend 64, F_GETFD]
    if isErr r = false then
      return old
    else
      let v ← ret r
      return v.setWidth 32
  else
    standard (syscall kernel SYS_dup3 [old.signExtend 64, new.signExtend 64, 0])

/-- `getpagesize` does not ask the kernel. -/
def getpagesize : Code (BitVec 32) := return 4096

def sync : Code Unit := do
  let _ ← syscall kernel SYS_sync []

def fsync (fd : BitVec 32) : Code (BitVec 32) :=
  standard (syscallCp kernel SYS_fsync [fd.signExtend 64])

def fdatasync (fd : BitVec 32) : Code (BitVec 32) :=
  standard (syscallCp kernel SYS_fdatasync [fd.signExtend 64])

def read (fd : BitVec 32) (buf count : BitVec 64) : Code (BitVec 64) := do
  let r ← syscallCp kernel SYS_read [fd.signExtend 64, buf, count]
  ret r

def write (fd : BitVec 32) (buf count : BitVec 64) : Code (BitVec 64) := do
  let r ← syscallCp kernel SYS_write [fd.signExtend 64, buf, count]
  ret r

def close (fd : BitVec 32) : Code (BitVec 32) := do
  let r ← syscallCp kernel SYS_close [fd.signExtend 64]
  if r = -(EINTR.signExtend 64) then
    return 0
  else
    let v ← ret r
    return v.setWidth 32

def lseek (fd : BitVec 32) (offset : BitVec 64) (whence : BitVec 32) : Code (BitVec 64) := do
  let r ← syscall kernel SYS_lseek [fd.signExtend 64, offset, whence.signExtend 64]
  ret r

/-! ## `fcntl` -/

def SYS_fallocate : BitVec 64 := 47
def SYS_openat : BitVec 64 := 56
def SYS_fadvise64 : BitVec 64 := 223

def O_WRONLY : BitVec 32 := 0o1
def O_CREAT : BitVec 32 := 0o100
def O_TRUNC : BitVec 32 := 0o1000
def O_CLOEXEC : BitVec 32 := 0o2000000
def O_LARGEFILE : BitVec 32 := 0o400000
def O_TMPFILE : BitVec 32 := 0o20040000

def F_SETFD : BitVec 32 := 2
def F_SETFL : BitVec 32 := 4
def F_SETLKW : BitVec 32 := 7
def FD_CLOEXEC : BitVec 32 := 1
def AT_FDCWD : BitVec 32 := -100

def openatInner (dirfd : BitVec 32) (filename : BitVec 64) (flags mode : BitVec 32) :
    Code (BitVec 32) := do
  let fd ← syscallCp kernel SYS_openat
    [dirfd.signExtend 64, filename, (flags ||| O_LARGEFILE).signExtend 64, mode.setWidth 64]
  if 0 ≤ fd.toInt ∧ flags &&& O_CLOEXEC ≠ 0 then
    let _ ← syscall kernel SYS_fcntl [fd, F_SETFD.signExtend 64, FD_CLOEXEC.signExtend 64]
  let v ← ret fd
  return v.setWidth 32

/-- The mode that `open` and `openat` take from their variadic argument. -/
def variadicMode (flags mode : BitVec 32) : BitVec 32 :=
  if flags &&& O_CREAT ≠ 0 ∨ flags &&& O_TMPFILE = O_TMPFILE then mode else 0

def «open» (filename : BitVec 64) (flags mode : BitVec 32) : Code (BitVec 32) :=
  openatInner kernel AT_FDCWD filename flags (variadicMode flags mode)

def openat (dirfd : BitVec 32) (filename : BitVec 64) (flags mode : BitVec 32) :
    Code (BitVec 32) :=
  openatInner kernel dirfd filename flags (variadicMode flags mode)

def creat (filename : BitVec 64) (mode : BitVec 32) : Code (BitVec 32) :=
  openatInner kernel AT_FDCWD filename (O_CREAT ||| O_WRONLY ||| O_TRUNC) mode

def fcntl (fd cmd : BitVec 32) (arg : BitVec 64) : Code (BitVec 32) := do
  let arg := if cmd = F_SETFL then arg ||| O_LARGEFILE.signExtend 64 else arg
  standard (if cmd = F_SETLKW then
      syscallCp kernel SYS_fcntl [fd.signExtend 64, cmd.signExtend 64, arg]
    else
      syscall kernel SYS_fcntl [fd.signExtend 64, cmd.signExtend 64, arg])

def posixFadvise (fd : BitVec 32) (base len : BitVec 64) (advice : BitVec 32) :
    Code (BitVec 32) :=
  direct (syscall kernel SYS_fadvise64 [fd.signExtend 64, base, len, advice.signExtend 64])

def posixFallocate (fd : BitVec 32) (base len : BitVec 64) : Code (BitVec 32) :=
  direct (syscall kernel SYS_fallocate [fd.signExtend 64, 0, base, len])

end Wrappers

/-! ## Calls -/

inductive Call
  | clockGettime (clk : BitVec 32) (ts : BitVec 64)
  | clockSettime (clk : BitVec 32) (ts : BitVec 64)
  | clockGetres (clk : BitVec 32) (ts : BitVec 64)
  | clockNanosleep (clk flags : BitVec 32) (req rem : BitVec 64)
  | nanosleep (req rem : BitVec 64)
  | pause
  | dup (fd : BitVec 32)
  | dup2 (old new : BitVec 32)
  | dup3 (old new flags : BitVec 32)
  | fsync (fd : BitVec 32)
  | fdatasync (fd : BitVec 32)
  | read (fd : BitVec 32) (buf count : BitVec 64)
  | write (fd : BitVec 32) (buf count : BitVec 64)
  | close (fd : BitVec 32)
  | lseek (fd : BitVec 32) (offset : BitVec 64) (whence : BitVec 32)
  | «open» (filename : BitVec 64) (flags mode : BitVec 32)
  | openat (dirfd : BitVec 32) (filename : BitVec 64) (flags mode : BitVec 32)
  | creat (filename : BitVec 64) (mode : BitVec 32)
  | fcntl (fd cmd : BitVec 32) (arg : BitVec 64)
  | posixFadvise (fd : BitVec 32) (base len : BitVec 64) (advice : BitVec 32)
  | posixFallocate (fd : BitVec 32) (base len : BitVec 64)
  deriving DecidableEq

/-- The number a C `int` or `long` result is. -/
def Call.code (kernel : Kernel) : Call → Code ℤ
  | .clockGettime clk ts => BitVec.toInt <$> Sys.clockGettime kernel clk ts
  | .clockSettime clk ts => BitVec.toInt <$> Sys.clockSettime kernel clk ts
  | .clockGetres clk ts => BitVec.toInt <$> Sys.clockGetres kernel clk ts
  | .clockNanosleep clk flags req rem => BitVec.toInt <$> Sys.clockNanosleep kernel clk flags req rem
  | .nanosleep req rem => BitVec.toInt <$> Sys.nanosleep kernel req rem
  | .pause => BitVec.toInt <$> Sys.pause kernel
  | .dup fd => BitVec.toInt <$> Sys.dup kernel fd
  | .dup2 old new => BitVec.toInt <$> Sys.dup2 kernel old new
  | .dup3 old new flags => BitVec.toInt <$> Sys.dup3 kernel old new flags
  | .fsync fd => BitVec.toInt <$> Sys.fsync kernel fd
  | .fdatasync fd => BitVec.toInt <$> Sys.fdatasync kernel fd
  | .read fd buf count => BitVec.toInt <$> Sys.read kernel fd buf count
  | .write fd buf count => BitVec.toInt <$> Sys.write kernel fd buf count
  | .close fd => BitVec.toInt <$> Sys.close kernel fd
  | .lseek fd offset whence => BitVec.toInt <$> Sys.lseek kernel fd offset whence
  | .open filename flags mode => BitVec.toInt <$> Sys.open kernel filename flags mode
  | .openat dirfd filename flags mode => BitVec.toInt <$> Sys.openat kernel dirfd filename flags mode
  | .creat filename mode => BitVec.toInt <$> Sys.creat kernel filename mode
  | .fcntl fd cmd arg => BitVec.toInt <$> Sys.fcntl kernel fd cmd arg
  | .posixFadvise fd base len advice => BitVec.toInt <$> Sys.posixFadvise kernel fd base len advice
  | .posixFallocate fd base len => BitVec.toInt <$> Sys.posixFallocate kernel fd base len

/-- A call with its result, and the world before and after it. -/
structure Outcome where
  call : Call
  before : World
  value : ℤ
  after : World

/-- A sequence of calls. -/
def runCalls (kernel : Kernel) : List Call → World → List Outcome × World
  | [], w => ([], w)
  | c :: cs, w =>
      let (v, w') := (c.code kernel).run w
      let (os, w'') := runCalls kernel cs w'
      (⟨c, w, v, w'⟩ :: os, w'')

end Mytilus.Sys
