import Mytilus.Base.Memory
import Mytilus.Base.Prog

/-!
# `random`, `srandom`, `initstate` and `setstate`

The functions are programs whose operations are the source's single accesses to
shared data: the exchange that takes the lock and the store that releases it,
the loads and stores of `RAND_N`, `RAND_I`, `RAND_J` and `RAND_X`, and the loads
and stores of the 32-bit words of a state buffer.  They are in the order of the
source, and a global that the source reads twice is loaded twice.

A compare-exchange that fails changes nothing and is tried again, so the loop of
`lock` is one operation, which blocks while the lock is held.
-/

namespace Mytilus.Prng.Random

open Memory

/-! ## Globals and operations -/

/-- `RAND_N`, `RAND_I` and `RAND_J` -/
inductive Var
  | n
  | i
  | j
  deriving DecidableEq, Repr

structure Store where
  n : BitVec 32
  i : BitVec 32
  j : BitVec 32
  /-- `RAND_X`; null until the first call that needs it. -/
  x : Addr
  /-- `RANDOM_LOCK` -/
  lock : BitVec 32
  mem : Memory

def Store.get (s : Store) : Var → BitVec 32
  | .n => s.n
  | .i => s.i
  | .j => s.j

def Store.set (s : Store) (v : Var) (c : BitVec 32) : Store :=
  match v with
  | .n => { s with n := c }
  | .i => { s with i := c }
  | .j => { s with j := c }

/-- `*p` for `p : *const u32` -/
abbrev readWord (m : Memory) (p : Addr) : BitVec 32 := readLE m p 4

/-- `*p = w` for `p : *mut u32` -/
abbrev writeWord (m : Memory) (p : Addr) (w : BitVec 32) : Memory := writeLE m p 4 w

inductive Op
  | lock
  | unlock
  | load (v : Var)
  | store (v : Var) (c : BitVec 32)
  | loadX
  | storeX (p : Addr)
  | loadWord (p : Addr)
  | storeWord (p : Addr) (w : BitVec 32)

abbrev Op.Reply : Op → Type
  | .load _ | .loadWord _ => BitVec 32
  | .loadX => Addr
  | _ => Unit

def exec : (o : Op) → Store → Option (o.Reply × Store)
  | .lock, s => if s.lock = 0 then some ((), { s with lock := 1 }) else none
  | .unlock, s => some ((), { s with lock := 0 })
  | .load v, s => some (s.get v, s)
  | .store v c, s => some ((), s.set v c)
  | .loadX, s => some (s.x, s)
  | .storeX p, s => some ((), { s with x := p })
  | .loadWord p, s => some (readWord s.mem p, s)
  | .storeWord p w, s => some ((), { s with mem := writeWord s.mem p w })

abbrev Code (α : Type) := Prog Op Op.Reply α

def lock : Code Unit := Prog.perform Op.lock
def unlock : Code Unit := Prog.perform Op.unlock
def load (v : Var) : Code (BitVec 32) := Prog.perform (Op.load v)
def store (v : Var) (c : BitVec 32) : Code Unit := Prog.perform (Op.store v c)
def loadX : Code Addr := Prog.perform Op.loadX
def storeX (p : Addr) : Code Unit := Prog.perform (Op.storeX p)
def loadWord (p : Addr) : Code (BitVec 32) := Prog.perform (Op.loadWord p)
def storeWord (p : Addr) (w : BitVec 32) : Code Unit := Prog.perform (Op.storeWord p w)

/-! ## The functions -/

def N_DEFAULT : BitVec 32 := 31

def RANDOM_INIT : List (BitVec 32) :=
  [ 0x00000000, 0x5851f42d, 0xc0b18ccf, 0xcbb5f646, 0xc7033129, 0x30705b04, 0x20fd5db4, 0x9a8b7f78,
    0x502959d8, 0xab894868, 0x6c0356a7, 0x88cdb7ff, 0xb477d43f, 0x70a3a52b, 0xa8e4baf1, 0xfd8341fc,
    0x8ae16fd9, 0x742d2f7a, 0x0d1f0796, 0x76035e09, 0x40f7702c, 0x6fa72ca5, 0xaaa84157, 0x58a0df74,
    0xc74a0364, 0xae533cc4, 0x04185faf, 0x6de3b115, 0x0cab8628, 0xf043bfa4, 0x398150e9, 0x37521657 ]

def lcg31 (x : BitVec 32) : BitVec 32 := (1103515245 * x + 12345) &&& 0x7fffffff

def lcg64 (x : BitVec 64) : BitVec 64 := 6364136223846793005 * x + 1

/-- `x.add(k)` for `x : *mut u32` -/
def wordAdd (x : Addr) (k : BitVec 64) : Addr := x + 4 * k

section Functions

-- where `RANDOM_INIT` is
variable (table : Addr)

def xPtr : Code Addr := do
  let p ← loadX
  if p ≠ 0 then
    return p
  else
    let p := ptrAdd table 4
    storeX p
    return p

def savestate : Code Addr := do
  let x ← xPtr table
  let n ← load .n
  let i ← load .i
  let j ← load .j
  storeWord (x - 4) ((n <<< 16) ||| (i <<< 8) ||| j)
  return x - 4

def loadstate (state : Addr) : Code Unit := do
  let x := ptrAdd state 4
  storeX x
  let header ← loadWord state
  store .n (header >>> 16)
  store .i ((header >>> 8) &&& 0xff)
  store .j (header &&& 0xff)

/-- `for k in 0..RAND_N { s = lcg64(s); *x.add(k) = (s >> 32) as u32; }`, the `r` rounds from `k` on. -/
def seedLoop (x : Addr) : (r k : ℕ) → (s : BitVec 64) → Code Unit
  | 0, _, _ => pure ()
  | r + 1, k, s => do
      let s := lcg64 s
      storeWord (wordAdd x (BitVec.ofNat 64 k)) ((s >>> 32).setWidth 32)
      seedLoop x r (k + 1) s

def srandomLocked (seed : BitVec 32) : Code Unit := do
  let x ← xPtr table
  let n ← load .n
  if n = 0 then
    storeWord x seed
  else do
    let n ← load .n
    let three ← (if n = 31 then pure true else do
      let n ← load .n
      pure (decide (n = 7)))
    store .i (if three then 3 else 1)
    store .j 0
    let n ← load .n
    seedLoop x n.toInt.toNat 0 (seed.setWidth 64)
    let w ← loadWord x
    storeWord x (w ||| 1)

/-- `void srandom(unsigned seed)` -/
def srandom (seed : BitVec 32) : Code Unit := do
  lock
  srandomLocked table seed
  unlock

/-- `long random(void)` -/
def random : Code (BitVec 64) := do
  lock
  let x ← xPtr table
  let n ← load .n
  let k ← (if n = 0 then do
      let w ← loadWord x
      let v := lcg31 w
      storeWord x v
      pure (v.setWidth 64)
    else do
      let i := (← load .i).signExtend 64
      let j := (← load .j).signExtend 64
      let n := (← load .n).signExtend 64
      let a ← loadWord (wordAdd x i)
      let b ← loadWord (wordAdd x j)
      let v := a + b
      storeWord (wordAdd x i) v
      store .i (if i + 1 = n then 0 else (i + 1).setWidth 32)
      store .j (if j + 1 = n then 0 else (j + 1).setWidth 32)
      pure ((v >>> 1).setWidth 64))
  unlock
  return k

/-- The degree `initstate` chooses for a buffer of `size` bytes. -/
def degree (size : BitVec 64) : BitVec 32 :=
  if size < 32 then 0
  else if size < 64 then 7
  else if size < 128 then 15
  else if size < 256 then 31
  else 63

/-- `char *initstate(unsigned seed, char *state, size_t size)` -/
def initstate (seed : BitVec 32) (state : Addr) (size : BitVec 64) : Code Addr :=
  if size < 8 then
    return 0
  else do
    lock
    let old ← savestate table
    store .n (degree size)
    storeX (ptrAdd state 4)
    srandomLocked table seed
    let _ ← savestate table
    unlock
    return old

/-- `char *setstate(char *state)` -/
def setstate (state : Addr) : Code Addr := do
  lock
  let old ← savestate table
  loadstate state
  unlock
  return old

/-! ## Calls -/

inductive Call
  | random
  | srandom (seed : BitVec 32)
  | initstate (seed : BitVec 32) (state : Addr) (size : BitVec 64)
  | setstate (state : Addr)
  deriving DecidableEq

inductive Reply
  | long (v : BitVec 64)
  | ptr (p : Addr)
  | void
  deriving DecidableEq

def Call.code : Call → Code Reply
  | .random => return .long (← Random.random table)
  | .srandom seed => do
      Random.srandom table seed
      return .void
  | .initstate seed state size => return .ptr (← Random.initstate table seed state size)
  | .setstate state => return .ptr (← Random.setstate table state)

/-- The replies of a sequence of calls and the state after it; none if one blocks. -/
def runCalls : List Call → Store → Option (List Reply × Store)
  | [], s => some ([], s)
  | c :: cs, s => do
      let (r, s, _) ← (c.code table).run exec s
      let (rs, s) ← runCalls cs s
      return (r :: rs, s)

/-- The state at program start, in a memory that holds `RANDOM_INIT` at `table`. -/
def start (mem : Memory) : Store where
  n := N_DEFAULT
  i := 3
  j := 0
  x := 0
  lock := 0
  mem

/-- The static table is in memory, and does not run over the end of the address space. -/
structure Loaded (mem : Memory) : Prop where
  words : ∀ k < 32, some (readWord mem (ptrAdd table (4 * k))) = RANDOM_INIT[k]?
  fits : table.toNat + 128 ≤ 2 ^ 64

end Functions

end Mytilus.Prng.Random
