import Mytilus.Sys.Calls

/-!
# The wrappers of `process`

The calls for the identity of a process cannot fail, so their replies do not go
through `ret`, nor does that of `getpgrp`, where that of `getpgid` does.
-/

namespace Mytilus.Sys

def SYS_sched_yield : BitVec 64 := 124
def SYS_kill : BitVec 64 := 129
def SYS_setpgid : BitVec 64 := 154
def SYS_getpgid : BitVec 64 := 155
def SYS_getsid : BitVec 64 := 156
def SYS_setsid : BitVec 64 := 157
def SYS_getpid : BitVec 64 := 172
def SYS_getppid : BitVec 64 := 173
def SYS_getuid : BitVec 64 := 174
def SYS_geteuid : BitVec 64 := 175
def SYS_getgid : BitVec 64 := 176
def SYS_getegid : BitVec 64 := 177

section Wrappers

variable (kernel : Kernel)

/-- `reply as pid_t`, and `reply as uid_t` -/
def plain (reply : Code (BitVec 64)) : Code (BitVec 32) := do
  let r ← reply
  return r.setWidth 32

def getpid : Code (BitVec 32) := plain (syscall kernel SYS_getpid [])

def getppid : Code (BitVec 32) := plain (syscall kernel SYS_getppid [])

def getuid : Code (BitVec 32) := plain (syscall kernel SYS_getuid [])

def geteuid : Code (BitVec 32) := plain (syscall kernel SYS_geteuid [])

def getgid : Code (BitVec 32) := plain (syscall kernel SYS_getgid [])

def getegid : Code (BitVec 32) := plain (syscall kernel SYS_getegid [])

def getsid (pid : BitVec 32) : Code (BitVec 32) :=
  standard (syscall kernel SYS_getsid [pid.signExtend 64])

def getpgid (pid : BitVec 32) : Code (BitVec 32) :=
  standard (syscall kernel SYS_getpgid [pid.signExtend 64])

def getpgrp : Code (BitVec 32) := plain (syscall kernel SYS_getpgid [0])

def setpgid (pid pgid : BitVec 32) : Code (BitVec 32) :=
  standard (syscall kernel SYS_setpgid [pid.signExtend 64, pgid.signExtend 64])

def setsid : Code (BitVec 32) := standard (syscall kernel SYS_setsid [])

def kill (pid sig : BitVec 32) : Code (BitVec 32) :=
  standard (syscall kernel SYS_kill [pid.signExtend 64, sig.signExtend 64])

def schedYield : Code (BitVec 32) := standard (syscall kernel SYS_sched_yield [])

end Wrappers

end Mytilus.Sys
