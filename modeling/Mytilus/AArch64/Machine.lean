import Mytilus.Base.Memory

/-!
# A fragment of the AArch64 machine

The instructions a C library's hand-written routines use: 64-bit and 32-bit
integer arithmetic, the flag-setting forms, loads and stores of one register or
a pair with the three addressing modes, the SIMD register moves, and the branch
instructions.  A program is its listing, one `Line` for each label and each
instruction in source order; a branch names the label it jumps to.

Every access to memory is recorded in `State.trace`, newest first, so that a
statement about a run can bound what the run has read and written.
-/

namespace AArch64

open Memory

/-! ## Registers and flags -/

-- for register numbers as numerals
instance neZero_31 : NeZero 31 := ⟨by decide⟩
instance neZero_32 : NeZero 32 := ⟨by decide⟩

/-- The general registers `x0` to `x30` and the stack pointer. -/
inductive Reg
  | x (n : Fin 31)
  | sp
  deriving DecidableEq, Repr

/-- The SIMD registers `v0` to `v31`. -/
abbrev VReg := Fin 32

/-- The operand size of an integer instruction: `w` is 32 bits, `x` is 64 bits. -/
inductive Size
  | w
  | x
  deriving DecidableEq, Repr

structure Flags where
  n : Bool
  z : Bool
  c : Bool
  v : Bool
  deriving DecidableEq, Repr

inductive Cond
  | eq | ne | hs | lo | mi | pl | vs | vc | hi | ls | ge | lt | gt | le
  deriving DecidableEq, Repr

def Cond.holds (flags : Flags) : Cond → Bool
  | .eq => flags.z
  | .ne => !flags.z
  | .hs => flags.c
  | .lo => !flags.c
  | .mi => flags.n
  | .pl => !flags.n
  | .vs => flags.v
  | .vc => !flags.v
  | .hi => flags.c && !flags.z
  | .ls => !(flags.c && !flags.z)
  | .ge => flags.n == flags.v
  | .lt => flags.n != flags.v
  | .gt => !flags.z && flags.n == flags.v
  | .le => !(!flags.z && flags.n == flags.v)

/-- The flags of the subtraction `a - b`; the carry is set when it does not borrow. -/
def subFlags {w : ℕ} (a b : BitVec w) : Flags where
  n := (a - b).msb
  z := a - b == 0
  c := decide (b.toNat ≤ a.toNat)
  v := a.msb != b.msb && (a - b).msb != a.msb

/-! ## The machine state -/

/-- One access to memory: its first address and its length in bytes. -/
inductive Access
  | load (a : Addr) (len : ℕ)
  | store (a : Addr) (len : ℕ)
  deriving DecidableEq, Repr

structure State where
  reg : Reg → BitVec 64
  vec : VReg → BitVec 128
  flags : Flags
  mem : Memory
  /-- The system register `dczid_el0`. -/
  dczid : BitVec 64
  trace : List Access

namespace State

def setReg (s : State) (r : Reg) (v : BitVec 64) : State :=
  { s with reg := Function.update s.reg r v }

def setVec (s : State) (r : VReg) (v : BitVec 128) : State :=
  { s with vec := Function.update s.vec r v }

def setFlags (s : State) (flags : Flags) : State := { s with flags }

/-- Write the result of an operation of the given size; a 32-bit result clears
the upper half of the register. -/
def setSized (s : State) (size : Size) (r : Reg) (v : BitVec 64) : State :=
  match size with
  | .w => s.setReg r ((v.setWidth 32).setWidth 64)
  | .x => s.setReg r v

/-- Note an access to memory. -/
def record (s : State) (access : Access) : State := { s with trace := access :: s.trace }

/-- Store the low `n` bytes of `v` at `a`. -/
def store (s : State) (a : Addr) (n : ℕ) {w : ℕ} (v : BitVec w) : State :=
  { s with mem := writeLE s.mem a n v, trace := .store a n :: s.trace }

/-- A call with three arguments that returns to `link`; the other registers are zero. -/
def call (mem : Memory) (arg₀ arg₁ arg₂ link : BitVec 64) : State where
  reg
    | .x 0 => arg₀
    | .x 1 => arg₁
    | .x 2 => arg₂
    | .x 30 => link
    | _ => 0
  vec := fun _ => 0
  flags := ⟨false, false, false, false⟩
  mem
  dczid := 0
  trace := []

end State

/-! ## Instructions -/

inductive Operand
  | reg (r : Reg)
  | imm (v : ℕ)
  deriving DecidableEq, Repr

/-- The addressing modes `[base, imm]`, `[base, index]` and `[base, imm]!`. -/
inductive Address
  | off (base : Reg) (imm : ℤ)
  | idx (base index : Reg)
  | pre (base : Reg) (imm : ℤ)
  deriving DecidableEq, Repr

inductive Instr
  | nop
  | mov (d : Reg) (m : Operand)
  | add (d n : Reg) (m : Operand)
  | sub (d n : Reg) (m : Operand)
  | subs (d n : Reg) (m : Operand)
  | cmp (size : Size) (n : Reg) (m : Operand)
  | ccmp (size : Size) (n : Reg) (m : Operand) (nzcv : Flags) (c : Cond)
  /-- `and d, n, #imm` -/
  | and (size : Size) (d n : Reg) (m : Operand)
  | bic (d n : Reg) (m : Operand)
  | lsr (d n : Reg) (shift : ℕ)
  /-- `csinc wd, wn, wzr, c` -/
  | csincZr (d n : Reg) (c : Cond)
  /-- `mrs d, dczid_el0` -/
  | mrsDczid (d : Reg)
  /-- `ldr`, `ldrh` or `ldrb`: load `len` bytes and widen with zeros. -/
  | load (len : ℕ) (t : Reg) (a : Address)
  /-- `str`, `strh` or `strb`: store the low `len` bytes. -/
  | store (len : ℕ) (t : Reg) (a : Address)
  | ldp (t t' : Reg) (a : Address)
  | stp (t t' : Reg) (a : Address)
  /-- `str q` -/
  | strQ (t : VReg) (a : Address)
  /-- `stp q, q` -/
  | stpQ (t t' : VReg) (a : Address)
  /-- `ldp d, d` -/
  | ldpD (t t' : VReg) (a : Address)
  /-- `stp d, d` -/
  | stpD (t t' : VReg) (a : Address)
  /-- `dup d.16b, wn` -/
  | dup16B (d : VReg) (n : Reg)
  /-- `mov d, n.d[0]` -/
  | movD0 (d : Reg) (n : VReg)
  /-- `dc zva, n` -/
  | dcZva (n : Reg)
  deriving DecidableEq, Repr

namespace Instr

abbrev ldr (t : Reg) (a : Address) : Instr := .load 8 t a
abbrev ldrW (t : Reg) (a : Address) : Instr := .load 4 t a
abbrev ldrb (t : Reg) (a : Address) : Instr := .load 1 t a
abbrev str (t : Reg) (a : Address) : Instr := .store 8 t a
abbrev strW (t : Reg) (a : Address) : Instr := .store 4 t a
abbrev strh (t : Reg) (a : Address) : Instr := .store 2 t a
abbrev strb (t : Reg) (a : Address) : Instr := .store 1 t a

end Instr

def Operand.value (s : State) : Operand → BitVec 64
  | .reg r => s.reg r
  | .imm v => BitVec.ofNat 64 v

def Address.value (s : State) : Address → Addr
  | .off base imm => s.reg base + BitVec.ofInt 64 imm
  | .idx base index => s.reg base + s.reg index
  | .pre base imm => s.reg base + BitVec.ofInt 64 imm

/-- Pre-indexing leaves the address used in the base register. -/
def Address.writeBack (a : Address) (address : Addr) (s : State) : State :=
  match a with
  | .pre base _ => s.setReg base address
  | _ => s

/-- The flags of comparing `n` with `m` at the given size. -/
def compareFlags (size : Size) (n m : BitVec 64) : Flags :=
  match size with
  | .w => subFlags (n.setWidth 32) (m.setWidth 32)
  | .x => subFlags n m

/-- The byte `b` in each of the sixteen lanes of a SIMD register. -/
def replicate16B (b : Byte) : BitVec 128 := BitVec.replicate 16 b

/-- The size of the aligned block `dc zva` clears: the low four bits of
`dczid_el0` are the binary logarithm of its length in words.  Bit 4 prohibits
the instruction; no program here reaches it with that bit set. -/
def zvaBytes (dczid : BitVec 64) : ℕ := 4 * 2 ^ (dczid.toNat % 16)

/-- The effect of one instruction that is not a branch. -/
def exec (i : Instr) (s : State) : State :=
  match i with
  | .nop => s
  | .mov d m => s.setReg d (m.value s)
  | .add d n m => s.setReg d (s.reg n + m.value s)
  | .sub d n m => s.setReg d (s.reg n - m.value s)
  | .subs d n m => (s.setReg d (s.reg n - m.value s)).setFlags (subFlags (s.reg n) (m.value s))
  | .cmp size n m => s.setFlags (compareFlags size (s.reg n) (m.value s))
  | .ccmp size n m nzcv c =>
      s.setFlags (if c.holds s.flags then compareFlags size (s.reg n) (m.value s) else nzcv)
  | .and size d n m => s.setSized size d (s.reg n &&& m.value s)
  | .bic d n m => s.setReg d (s.reg n &&& ~~~ (m.value s))
  | .lsr d n shift => s.setReg d (s.reg n >>> shift)
  | .csincZr d n c =>
      s.setSized .w d (if c.holds s.flags then s.reg n else 1)
  | .mrsDczid d => s.setReg d s.dczid
  | .load len t a =>
      a.writeBack (a.value s) ((s.record (.load (a.value s) len)).setReg t
        ((readLE s.mem (a.value s) len).setWidth 64))
  | .store len t a => a.writeBack (a.value s) (s.store (a.value s) len (s.reg t))
  | .ldp t t' a =>
      a.writeBack (a.value s) (((s.record (.load (a.value s) 16)).setReg t
        (readLE s.mem (a.value s) 8)).setReg t' (readLE s.mem (ptrAdd (a.value s) 8) 8))
  | .stp t t' a => a.writeBack (a.value s) (s.store (a.value s) 16 (s.reg t' ++ s.reg t))
  | .strQ t a => a.writeBack (a.value s) (s.store (a.value s) 16 (s.vec t))
  | .stpQ t t' a => a.writeBack (a.value s) (s.store (a.value s) 32 (s.vec t' ++ s.vec t))
  | .ldpD t t' a =>
      a.writeBack (a.value s) (((s.record (.load (a.value s) 16)).setVec t
        ((readLE s.mem (a.value s) 8).setWidth 128)).setVec t'
          ((readLE s.mem (ptrAdd (a.value s) 8) 8).setWidth 128))
  | .stpD t t' a =>
      a.writeBack (a.value s) (s.store (a.value s) 16
        ((s.vec t').setWidth 64 ++ (s.vec t).setWidth 64))
  | .dup16B d n => s.setVec d (replicate16B ((s.reg n).setWidth 8))
  | .movD0 d n => s.setReg d ((s.vec n).setWidth 64)
  | .dcZva n =>
      s.store (s.reg n - BitVec.ofNat 64 ((s.reg n).toNat % zvaBytes s.dczid))
        (zvaBytes s.dczid) (BitVec.zero (8 * zvaBytes s.dczid))

/-! ## Programs -/

/-- One line of a listing over the labels `L`. -/
inductive Line (L : Type)
  | label (l : L)
  | op (i : Instr)
  | b (l : L)
  | bcond (c : Cond) (l : L)
  | tbz (r : Reg) (bit : ℕ) (l : L)
  | tbnz (r : Reg) (bit : ℕ) (l : L)
  | cbz (r : Reg) (l : L)
  /-- `br r`; `ret` is `br x30`. -/
  | br (r : Reg)

/-- `ret` -/
abbrev Line.ret {L : Type} : Line L := .br (.x 30)

variable {L : Type} [DecidableEq L]

/-- The position of a label in the listing. -/
def target (code : List (Line L)) (l : L) : ℕ :=
  code.findIdx fun
    | .label l' => l' = l
    | _ => false

/-- Run the listing from position `pc` until it branches to an address held in a
register, for at most `fuel` lines.  The result is that address and the final
state; there is none when the fuel runs out or control leaves the listing. -/
def run (code : List (Line L)) : ℕ → ℕ → State → Option (Addr × State)
  | 0, _, _ => none
  | fuel + 1, pc, s =>
      match code[pc]? with
      | none => none
      | some (.label _) => run code fuel (pc + 1) s
      | some (.op i) => run code fuel (pc + 1) (exec i s)
      | some (.b l) => run code fuel (target code l) s
      | some (.bcond c l) =>
          run code fuel (if c.holds s.flags then target code l else pc + 1) s
      | some (.tbz r bit l) =>
          run code fuel (if (s.reg r).getLsbD bit then pc + 1 else target code l) s
      | some (.tbnz r bit l) =>
          run code fuel (if (s.reg r).getLsbD bit then target code l else pc + 1) s
      | some (.cbz r l) =>
          run code fuel (if s.reg r = 0 then target code l else pc + 1) s
      | some (.br r) => some (s.reg r, s)

end AArch64
