import Mytilus.Base.Memory
import Mytilus.Base.Prog

/-!
# `qsort` and `qsort_r`

The heapsort is a program whose operations are the calls of the comparator, the
calls of `swap_bytes`, and the results of `usize` arithmetic: an operation
`usize x` blocks when `x` does not fit, which is the overflow check of a debug
build.

A comparator answers from the two pointers and the context it is given, the
memory, and a state of its own; it may change that state and answer differently
the next time, but it does not write to memory.
-/

namespace Mytilus.Stdlib.Sort

open Memory

variable {σ γ : Type}

/-! ## Comparators and operations -/

/-- `extern "C" fn(*const c_void, *const c_void) -> c_int` -/
abbrev CmpFn (σ : Type) := Addr → Addr → Memory → σ → BitVec 32 × σ

/-- `extern "C" fn(*const c_void, *const c_void, *mut c_void) -> c_int` -/
abbrev CmpFnR (σ γ : Type) := Addr → Addr → γ → Memory → σ → BitVec 32 × σ

structure Store (σ : Type) where
  mem : Memory
  /-- The comparator's own state. -/
  own : σ

/-- The rounds of `swap_bytes` from byte `i` on, `r` of them. -/
def swapFrom (a b : Addr) : (r i : ℕ) → Memory → Memory
  | 0, _, m => m
  | r + 1, i, m =>
      let t := m (ptrAdd a i)
      let m := m.write (ptrAdd a i) (m (ptrAdd b i))
      let m := m.write (ptrAdd b i) t
      swapFrom a b r (i + 1) m

def swapBytes (a b : Addr) (width : ℕ) (m : Memory) : Memory := swapFrom a b width 0 m

inductive Op (σ γ : Type)
  | usize (x : ℕ)
  | cmp (f : CmpFnR σ γ) (a b : Addr) (ctx : γ)
  | swapBytes (a b : Addr) (width : ℕ)

abbrev Op.Reply : Op σ γ → Type
  | .cmp .. => BitVec 32
  | _ => Unit

def exec : (o : Op σ γ) → Store σ → Option (o.Reply × Store σ)
  | .usize x, s => if x < 2 ^ 64 then some ((), s) else none
  | .cmp f a b ctx, s => some ((f a b ctx s.mem s.own).1, { s with own := (f a b ctx s.mem s.own).2 })
  | .swapBytes a b width, s => some ((), { s with mem := Sort.swapBytes a b width s.mem })

abbrev Code (σ γ α : Type) := Prog (Op σ γ) Op.Reply α

def usize (x : ℕ) : Code σ γ Unit := Prog.perform (Op.usize x)

def call (f : CmpFnR σ γ) (a b : Addr) (ctx : γ) : Code σ γ (BitVec 32) :=
  Prog.perform (Op.cmp f a b ctx)

def swap (a b : Addr) (width : ℕ) : Code σ γ Unit := Prog.perform (Op.swapBytes a b width)

/-! ## Heapsort -/

/-- Pointer to the `i`'th element (`base + i*width`). -/
def elt (base : Addr) (width i : ℕ) : Code σ γ Addr := do
  usize (i * width)
  return ptrAdd base (i * width)

section Heapsort

variable (base : Addr) (width : ℕ) (cmp : CmpFnR σ γ) (ctx : γ)

/-- `child + 1 < n && cmp(elt(child), elt(child + 1), ctx) < 0` -/
def rightLarger (n child : ℕ) : Code σ γ Bool := do
  usize (child + 1)
  if child + 1 < n then do
    let a ← elt base width child
    let b ← elt base width (child + 1)
    let r ← call cmp a b ctx
    return r.toInt < 0
  else
    return false

/-- The loop of `sift_down`; `i` is the index it has come to. -/
def siftDown (n i : ℕ) : Code σ γ Unit := do
  usize (2 * i + 1)
  if _h : n ≤ 2 * i + 1 then
    return ()
  else do
    let right ← rightLarger base width cmp ctx n (2 * i + 1)
    let child := 2 * i + 1 + right.toNat
    let a ← elt base width i
    let b ← elt base width child
    let r ← call cmp a b ctx
    if 0 ≤ r.toInt then
      return ()
    else do
      let a ← elt base width i
      let b ← elt base width child
      swap a b width
      siftDown n child
termination_by n - i

/-- `while i > 0 { i -= 1; sift_down(i) }` -/
def buildHeap (n : ℕ) : (i : ℕ) → Code σ γ Unit
  | 0 => return ()
  | i + 1 => do
      siftDown base width cmp ctx n i
      buildHeap n i

/-- `while end > 1 { end -= 1; swap_bytes(base, elt(end)); sift_down(end, 0) }` -/
def extract : (last : ℕ) → Code σ γ Unit
  | 0 | 1 => return ()
  | last + 2 => do
      let b ← elt base width (last + 1)
      swap base b width
      siftDown base width cmp ctx (last + 1) 0
      extract (last + 1)

def heapsort (n : ℕ) : Code σ γ Unit :=
  if n < 2 ∨ width = 0 then
    return ()
  else do
    buildHeap base width cmp ctx n (n / 2)
    extract base width cmp ctx n

end Heapsort

/-! ## Public functions -/

def qsortR (base : Addr) (nel width : ℕ) (cmp : CmpFnR σ γ) (ctx : γ) : Code σ γ Unit :=
  heapsort base width cmp ctx nel

/-- The context is the two-argument comparator, cast to a pointer and back. -/
def qsort2to3Adapter : CmpFnR σ (CmpFn σ) := fun a b ctx => ctx a b

def qsort (base : Addr) (nel width : ℕ) (cmp : CmpFn σ) : Code σ (CmpFn σ) Unit :=
  qsortR base nel width qsort2to3Adapter cmp

end Mytilus.Stdlib.Sort
