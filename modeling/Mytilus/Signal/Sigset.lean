import Mytilus.Base.BitSet

/-!
# Signal sets

`sigset_t` and its eight operations, as the code computes them: in 32-bit signed
arithmetic that panics on overflow in a build with overflow checks, on arrays
whose indices are checked.  Sets are told apart by names, so that two arguments
of one call may be the same set.

Each operation has one equation for the arguments it accepts (`sigchange_ok` for
`sigaddset` and `sigdelset`, `sigismember_ok`, and their like), in which the word of
the set appears and the arithmetic does not.  `contract_iff` says for which signal
numbers the arithmetic goes through.
-/

namespace Mytilus.Signal

open BitSet

/-! ## Constants and state -/

/-- Why a call panics. -/
inductive Panic
  | overflow
  | outOfBounds
  deriving DecidableEq

abbrev CInt := BitVec 32

abbrev CULong := BitVec 64

/-- `core::mem::size_of::<c_ulong>()` -/
def sizeOfCULong : ℕ := 8

def NSIG : CInt := 65

def SIGSET_NWORDS : ℕ := 128 / sizeOfCULong

def SST_SIZE : ℕ := NSIG.toNat / 8 / sizeOfCULong

def EINVAL : CInt := 22

structure SigsetT where
  bits : Vector CULong SIGSET_NWORDS
  deriving DecidableEq

/-- The sets of a program, by name, and `errno`. -/
structure State (ι : Type) where
  sets : ι → SigsetT
  errno : CInt

/-- Code that reads and writes the state, and may panic. -/
abbrev Code (ι : Type) := StateT (State ι) (Except Panic)

variable {ι : Type}

/-! ## Steps of the code -/

section Steps

variable {α β : Type}

theorem bind_of_ok {x : Code ι α} {f : α → Code ι β} {st st' : State ι} {a : α}
    (h : x st = .ok (a, st')) : (x >>= f) st = f a st' := by
  simp only [bind, StateT.bind, h, Except.bind]

theorem lift_of_ok {x : Except Panic α} {st : State ι} {a : α} (h : x = .ok a) :
    (liftM x : Code ι α) st = .ok (a, st) := by
  rw [h]
  rfl

theorem lift_bind_of_error {x : Except Panic α} {f : α → Code ι β} {st : State ι} {e : Panic}
    (h : x = .error e) : ((liftM x : Code ι α) >>= f) st = .error e := by
  rw [h]
  rfl

theorem except_bind_of_ok {x : Except Panic α} {f : α → Except Panic β} {a : α} (h : x = .ok a) :
    x >>= f = f a := by
  rw [h]
  rfl

end Steps

/-! ## Words -/

variable [DecidableEq ι]

/-- `(*set).__bits[word]` -/
def load (set : ι) (word : ℕ) : Code ι CULong := fun st =>
  match (st.sets set).bits[word]? with
  | some raw => .ok (raw, st)
  | none => .error .outOfBounds

/-- `(*set).__bits[word] = raw` -/
def store (set : ι) (word : ℕ) (raw : CULong) : Code ι Unit := fun st =>
  if h : word < SIGSET_NWORDS
    then .ok ((), { st with sets := Function.update st.sets set ⟨(st.sets set).bits.set word raw⟩ })
    else .error .outOfBounds

/-! ## Checked arithmetic -/

section Helpers

variable (overflowChecks : Bool)

/-- `x - y` on `c_int` -/
def sub (x y : CInt) : Except Panic CInt :=
  if overflowChecks && x.ssubOverflow y then .error .overflow else .ok (x - y)

/-- `x << n` on `c_ulong` -/
def shl (x : CULong) (n : ℕ) : Except Panic CULong :=
  if overflowChecks && decide (64 ≤ n) then .error .overflow else .ok (x <<< (n % 64))

/-- `fn bit_index(sig: c_int) -> (usize, c_ulong)` -/
def bitIndex (sig : CInt) : Except Panic (ℕ × CULong) := do
  let s := (← sub overflowChecks sig 1).signExtend 64
  let word := s.toNat / (8 * sizeOfCULong)
  let bit ← shl overflowChecks 1 (s &&& BitVec.ofNat 64 (8 * sizeOfCULong - 1)).toNat
  pure (word, bit)

/-- `fn validate_sig(sig: c_int) -> bool`; the comparisons are unsigned. -/
def validateSig (sig : CInt) : Except Panic Bool := do
  let s ← sub overflowChecks sig 1
  let nsigM1 := NSIG - 1
  let sigMinus32 := sig - 32
  pure (decide (nsigM1 ≤ s) || decide (sigMinus32 < 3))

/-- `unsafe fn set_einval_return_minus1() -> c_int` -/
def setEinvalReturnMinus1 : Code ι CInt := fun st => .ok (-1, { st with errno := EINVAL })

end Helpers

/-! ## The operations -/

section Operations

variable (overflowChecks : Bool)

/-- `int sigemptyset(sigset_t *set)` -/
def sigemptyset (set : ι) : Code ι CInt := do
  store set 0 0
  pure 0

/-- `int sigfillset(sigset_t *set)` -/
def sigfillset (set : ι) : Code ι CInt := do
  store set 0 0xfffffffc7fffffff
  pure 0

/-- The body that `sigaddset` and `sigdelset` share. -/
def sigchange (combine : CULong → CULong → CULong) (set : ι) (sig : CInt) : Code ι CInt := do
  if ← (validateSig overflowChecks sig : Except Panic Bool)
    then setEinvalReturnMinus1
    else do
      let (word, bit) ← (bitIndex overflowChecks sig : Except Panic (ℕ × CULong))
      let raw ← load set word
      store set word (combine raw bit)
      pure 0

/-- `int sigaddset(sigset_t *set, int sig)` -/
def sigaddset (set : ι) (sig : CInt) : Code ι CInt :=
  sigchange overflowChecks (fun raw bit => raw ||| bit) set sig

/-- `int sigdelset(sigset_t *set, int sig)` -/
def sigdelset (set : ι) (sig : CInt) : Code ι CInt :=
  sigchange overflowChecks (fun raw bit => raw &&& ~~~ bit) set sig

/-- `int sigismember(const sigset_t *set, int sig)` -/
def sigismember (set : ι) (sig : CInt) : Code ι CInt := do
  let s ← (sub overflowChecks sig 1 : Except Panic CInt)
  if NSIG - 1 ≤ s
    then pure 0
    else do
      let (word, bit) ← (bitIndex overflowChecks sig : Except Panic (ℕ × CULong))
      let raw ← load set word
      pure (if raw &&& bit ≠ 0 then 1 else 0)

/-- The loop of `sigorset` and `sigandset` over the word indices. -/
def combineLoop (combine : CULong → CULong → CULong) (dest left right : ι) : List ℕ → Code ι Unit
  | [] => pure ()
  | i :: is => do
      let l ← load left i
      let r ← load right i
      store dest i (combine l r)
      combineLoop combine dest left right is

/-- `int sigorset(sigset_t *dest, const sigset_t *left, const sigset_t *right)` -/
def sigorset (dest left right : ι) : Code ι CInt := do
  combineLoop (fun l r => l ||| r) dest left right (List.range SST_SIZE)
  pure 0

/-- `int sigandset(sigset_t *dest, const sigset_t *left, const sigset_t *right)` -/
def sigandset (dest left right : ι) : Code ι CInt := do
  combineLoop (fun l r => l &&& r) dest left right (List.range SST_SIZE)
  pure 0

/-- The loop of `sigisemptyset` over the word indices. -/
def isemptyLoop (set : ι) : List ℕ → Code ι CInt
  | [] => pure 1
  | i :: is => do
      let raw ← load set i
      if raw ≠ 0 then pure 0 else isemptyLoop set is

/-- `int sigisemptyset(const sigset_t *set)` -/
def sigisemptyset (set : ι) : Code ι CInt := isemptyLoop set (List.range SST_SIZE)

end Operations

/-! ## The word of a set -/

/-- The one word of a set that holds signals. -/
def SigsetT.word (set : SigsetT) : CULong := set.bits[0]

/-- The state with that word of one set replaced. -/
def State.setWord (st : State ι) (set : ι) (raw : CULong) : State ι :=
  { st with sets := Function.update st.sets set ⟨(st.sets set).bits.set 0 raw⟩ }

section Word

variable {st : State ι} {set : ι}

@[simp] theorem word_setWord_self (raw : CULong) :
    ((st.setWord set raw).sets set).word = raw := by
  simp [State.setWord, SigsetT.word]

@[simp] theorem sets_setWord_of_ne {other : ι} (raw : CULong) (h : other ≠ set) :
    (st.setWord set raw).sets other = st.sets other :=
  Function.update_of_ne h ..

/-- No other word of any set is written. -/
theorem bits_setWord (raw : CULong) (other : ι) {i : ℕ} (hi : i < SIGSET_NWORDS) (hpos : 0 < i) :
    ((st.setWord set raw).sets other).bits[i] = (st.sets other).bits[i] := by
  by_cases h : other = set
  · subst h
    simp [State.setWord, hpos.ne]
  · rw [sets_setWord_of_ne raw h]

omit [DecidableEq ι] in
theorem load_zero : load set 0 st = .ok ((st.sets set).word, st) := by
  have hget : (st.sets set).bits[0]? = some (st.sets set).bits[0] :=
    Vector.getElem?_eq_getElem (by decide)
  rw [load, hget]
  rfl

theorem store_zero (raw : CULong) : store set 0 raw st = .ok ((), st.setWord set raw) := by
  simp [store, State.setWord, SIGSET_NWORDS, sizeOfCULong]

end Word

/-! ## The arithmetic -/

/-- Between 1 and 64. -/
def InRange (sig : CInt) : Prop := 1 ≤ sig.toInt ∧ sig.toInt ≤ 64

/-- One of the signals the library keeps to itself. -/
def Reserved (sig : CInt) : Prop := 32 ≤ sig.toInt ∧ sig.toInt ≤ 34

instance decidableInRange (sig : CInt) : Decidable (InRange sig) :=
  inferInstanceAs (Decidable (_ ∧ _))

instance decidableReserved (sig : CInt) : Decidable (Reserved sig) :=
  inferInstanceAs (Decidable (_ ∧ _))

/-- The position of the bit of a signal. -/
def position (sig : CInt) : ℕ := (sig.toInt - 1).toNat

theorem position_lt {sig : CInt} (h : InRange sig) : position sig < 64 := by
  unfold position
  have := h.1
  have := h.2
  omega

section Arithmetic

variable {overflowChecks : Bool} {sig : CInt}

/-- The build has no overflow checks, or the number is not the least one. -/
def Defined (overflowChecks : Bool) (sig : CInt) : Prop :=
  overflowChecks = true → sig ≠ BitVec.intMin 32

theorem ssubOverflow_one : sig.ssubOverflow 1 = decide (sig = BitVec.intMin 32) := by
  have hmin : (BitVec.intMin 32).toInt = -2 ^ 31 := by decide
  have hone : (1 : CInt).toInt = 1 := by decide
  have hlo := BitVec.le_toInt sig
  have hhi := BitVec.toInt_lt (x := sig)
  unfold BitVec.ssubOverflow
  rw [hone, Bool.eq_iff_iff, Bool.or_eq_true, decide_eq_true_eq, decide_eq_true_eq,
    decide_eq_true_eq, ← BitVec.toInt_inj, hmin]
  omega

theorem sub_one (h : Defined overflowChecks sig) : sub overflowChecks sig 1 = .ok (sig - 1) := by
  unfold sub
  rw [ssubOverflow_one, if_neg]
  rw [Bool.and_eq_true, decide_eq_true_eq]
  exact fun hboth => h hboth.1 hboth.2

theorem sub_one_panics (h : ¬ Defined overflowChecks sig) :
    sub overflowChecks sig 1 = .error .overflow := by
  unfold Defined at h
  push Not at h
  unfold sub
  rw [ssubOverflow_one, h.1, h.2]
  rfl

/-- The unsigned comparison against `_NSIG - 1` rejects what is out of range. -/
theorem le_sub_one_iff : NSIG - 1 ≤ sig - 1 ↔ ¬ InRange sig := by
  unfold InRange NSIG
  rw [BitVec.toInt_eq_toNat_cond]
  bv_omega

theorem sub_lt_three_iff : sig - 32 < 3 ↔ Reserved sig := by
  unfold Reserved
  rw [BitVec.toInt_eq_toNat_cond]
  bv_omega

theorem validateSig_eq (h : Defined overflowChecks sig) :
    validateSig overflowChecks sig = .ok (decide (¬ InRange sig ∨ Reserved sig)) := by
  unfold validateSig
  rw [except_bind_of_ok (sub_one h)]
  simp only [le_sub_one_iff, sub_lt_three_iff, Bool.decide_or]
  rfl

theorem InRange.defined (h : InRange sig) : Defined overflowChecks sig := by
  rintro - rfl
  exact absurd h (by decide)

theorem bitIndex_eq (h : InRange sig) :
    bitIndex overflowChecks sig = .ok (0, single 64 (position sig)) := by
  have hpos := position_lt h
  have hs : ((sig - 1).signExtend 64).toNat = position sig := by
    have hnat : (sig - 1).toNat = position sig := by
      obtain ⟨hlo, hhi⟩ := h
      unfold position
      rw [BitVec.toInt_eq_toNat_cond] at hlo hhi ⊢
      bv_omega
    have hmsb : (sig - 1).msb = false := by
      rw [BitVec.msb_eq_decide, decide_eq_false_iff_not]
      omega
    rw [BitVec.signExtend_eq_setWidth_of_msb_false hmsb, BitVec.toNat_setWidth, hnat]
    exact Nat.mod_eq_of_lt (by omega)
  -- all 64 usable positions are in the first word
  have hmask : ((sig - 1).signExtend 64 &&& BitVec.ofNat 64 (8 * sizeOfCULong - 1)).toNat =
      position sig := by
    have h63 : (8 * sizeOfCULong - 1) % 2 ^ 64 = 2 ^ 6 - 1 := rfl
    rw [BitVec.toNat_and, hs, BitVec.toNat_ofNat, h63, Nat.and_two_pow_sub_one_eq_mod]
    exact Nat.mod_eq_of_lt hpos
  have hword : position sig / (8 * sizeOfCULong) = 0 := Nat.div_eq_of_lt hpos
  have hshl : shl overflowChecks 1 (position sig) = .ok (single 64 (position sig)) := by
    unfold shl
    rw [decide_eq_false (by omega), Bool.and_false, if_neg Bool.false_ne_true,
      Nat.mod_eq_of_lt hpos]
    rfl
  unfold bitIndex
  rw [except_bind_of_ok (sub_one h.defined)]
  simp only
  rw [hmask, hs, hword, except_bind_of_ok hshl]
  rfl

end Arithmetic

/-! ## What each operation comes to -/

section Equations

variable {overflowChecks : Bool} {sig : CInt} {st : State ι} {set dest left right : ι}

theorem sigemptyset_eq : sigemptyset set st = .ok (0, st.setWord set 0) :=
  bind_of_ok (store_zero 0)

theorem sigfillset_eq : sigfillset set st = .ok (0, st.setWord set 0xfffffffc7fffffff) :=
  bind_of_ok (store_zero _)

theorem sigchange_ok (combine : CULong → CULong → CULong) (hrange : InRange sig)
    (hreserved : ¬ Reserved sig) :
    sigchange overflowChecks combine set sig st =
      .ok (0, st.setWord set (combine (st.sets set).word (single 64 (position sig)))) := by
  have hvalid : validateSig overflowChecks sig = .ok false := by
    rw [validateSig_eq hrange.defined, decide_eq_false]
    exact fun h => h.elim (fun h => h hrange) hreserved
  unfold sigchange
  rw [bind_of_ok (lift_of_ok hvalid), if_neg Bool.false_ne_true,
    bind_of_ok (lift_of_ok (bitIndex_eq hrange))]
  simp only
  rw [bind_of_ok load_zero, bind_of_ok (store_zero _)]
  rfl

theorem sigchange_rejects (combine : CULong → CULong → CULong)
    (hdefined : Defined overflowChecks sig) (h : ¬ InRange sig ∨ Reserved sig) :
    sigchange overflowChecks combine set sig st = .ok (-1, { st with errno := EINVAL }) := by
  have hvalid : validateSig overflowChecks sig = .ok true := by
    rw [validateSig_eq hdefined, decide_eq_true h]
  unfold sigchange
  rw [bind_of_ok (lift_of_ok hvalid), if_pos rfl]
  rfl

theorem sigchange_panics (combine : CULong → CULong → CULong)
    (h : ¬ Defined overflowChecks sig) :
    sigchange overflowChecks combine set sig st = .error .overflow := by
  refine lift_bind_of_error ?_
  rw [validateSig, sub_one_panics h]
  rfl

omit [DecidableEq ι] in
theorem sigismember_ok (hrange : InRange sig) :
    sigismember overflowChecks set sig st =
      .ok (if position sig ∈ members (st.sets set).word then 1 else 0, st) := by
  have htest : (st.sets set).word &&& single 64 (position sig) ≠ (0 : CULong) ↔
      position sig ∈ members (st.sets set).word := and_single_ne_zero_iff _ (position_lt hrange)
  unfold sigismember
  rw [bind_of_ok (lift_of_ok (sub_one hrange.defined)), if_neg (by rwa [le_sub_one_iff, not_not]),
    bind_of_ok (lift_of_ok (bitIndex_eq hrange))]
  simp only
  rw [bind_of_ok load_zero, if_congr htest rfl rfl]
  rfl

omit [DecidableEq ι] in
theorem sigismember_out_of_range (hdefined : Defined overflowChecks sig) (h : ¬ InRange sig) :
    sigismember overflowChecks set sig st = .ok (0, st) := by
  unfold sigismember
  rw [bind_of_ok (lift_of_ok (sub_one hdefined)), if_pos (le_sub_one_iff.mpr h)]
  rfl

omit [DecidableEq ι] in
theorem sigismember_panics (h : ¬ Defined overflowChecks sig) :
    sigismember overflowChecks set sig st = .error .overflow :=
  lift_bind_of_error (sub_one_panics h)

theorem combineLoop_eq (combine : CULong → CULong → CULong) :
    combineLoop combine dest left right (List.range SST_SIZE) st =
      .ok ((), st.setWord dest (combine (st.sets left).word (st.sets right).word)) := by
  have hsize : List.range SST_SIZE = [0] := by decide
  rw [hsize, combineLoop, bind_of_ok load_zero, bind_of_ok load_zero, bind_of_ok (store_zero _)]
  rfl

theorem sigorset_eq : sigorset dest left right st =
    .ok (0, st.setWord dest ((st.sets left).word ||| (st.sets right).word)) :=
  bind_of_ok (combineLoop_eq _)

theorem sigandset_eq : sigandset dest left right st =
    .ok (0, st.setWord dest ((st.sets left).word &&& (st.sets right).word)) :=
  bind_of_ok (combineLoop_eq _)

omit [DecidableEq ι] in
theorem sigisemptyset_eq :
    sigisemptyset set st = .ok (if (st.sets set).word = 0 then 1 else 0, st) := by
  have hsize : List.range SST_SIZE = [0] := by decide
  rw [sigisemptyset, hsize, isemptyLoop, bind_of_ok load_zero]
  by_cases h : (st.sets set).word = 0
  · rw [if_neg (not_not.mpr h), if_pos h]
    rfl
  · rw [if_pos h, if_neg h]
    rfl

end Equations

/-! ## When the range checks do their work -/

/-- What the three operations on a signal number owe for `sig`: no panic, a
refusal of what is out of range or reserved that leaves every set as it is, and
otherwise word 0 and a shift below 64. -/
structure Contract (overflowChecks : Bool) (set : ι) (sig : CInt) (st : State ι) : Prop where
  sigaddset_returns : ∃ r, sigaddset overflowChecks set sig st = .ok r
  sigdelset_returns : ∃ r, sigdelset overflowChecks set sig st = .ok r
  sigismember_returns : ∃ r, sigismember overflowChecks set sig st = .ok r
  sigaddset_rejects : ¬ InRange sig ∨ Reserved sig →
    sigaddset overflowChecks set sig st = .ok (-1, { st with errno := EINVAL })
  sigdelset_rejects : ¬ InRange sig ∨ Reserved sig →
    sigdelset overflowChecks set sig st = .ok (-1, { st with errno := EINVAL })
  sigismember_rejects : ¬ InRange sig → sigismember overflowChecks set sig st = .ok (0, st)
  index : InRange sig → ∃ shift < 64, bitIndex overflowChecks sig = .ok (0, 1 <<< shift)

/-- **The range checks work exactly when the subtraction does.**  In a build with
overflow checks the three operations keep their contract for every signal number
but `i32::MIN`; in a build without them, for every signal number. -/
theorem contract_iff (overflowChecks : Bool) (set : ι) (sig : CInt) (st : State ι) :
    Contract overflowChecks set sig st ↔ (overflowChecks = true → sig ≠ BitVec.intMin 32) := by
  constructor
  · intro h
    by_contra hundefined
    obtain ⟨r, hr⟩ := h.sigaddset_returns
    rw [sigaddset, sigchange_panics _ hundefined] at hr
    cases hr
  · intro hdefined
    have hchange : ∀ combine, ∃ r, sigchange overflowChecks combine set sig st = .ok r := by
      intro combine
      by_cases hreject : ¬ InRange sig ∨ Reserved sig
      · exact ⟨_, sigchange_rejects combine hdefined hreject⟩
      · rw [not_or, not_not] at hreject
        exact ⟨_, sigchange_ok combine hreject.1 hreject.2⟩
    refine ⟨hchange _, hchange _, ?_, sigchange_rejects _ hdefined, sigchange_rejects _ hdefined,
      sigismember_out_of_range hdefined, fun h => ⟨position sig, position_lt h, bitIndex_eq h⟩⟩
    by_cases hrange : InRange sig
    · exact ⟨_, sigismember_ok hrange⟩
    · exact ⟨_, sigismember_out_of_range hdefined hrange⟩

/-- With overflow checks `i32::MIN` makes all three panic. -/
theorem contract_intMin :
    let st : State Unit := ⟨fun _ => ⟨Vector.replicate SIGSET_NWORDS 0⟩, 0⟩
    sigaddset true () (BitVec.intMin 32) st = .error .overflow ∧
      sigdelset true () (BitVec.intMin 32) st = .error .overflow ∧
      sigismember true () (BitVec.intMin 32) st = .error .overflow ∧
      ¬ Contract true () (BitVec.intMin 32) st := by
  have hundefined : ¬ Defined true (BitVec.intMin 32) := fun h => h rfl rfl
  refine ⟨sigchange_panics _ hundefined, sigchange_panics _ hundefined,
    sigismember_panics hundefined, ?_⟩
  rintro ⟨⟨r, hr⟩⟩
  rw [sigaddset, sigchange_panics _ hundefined] at hr
  cases hr

end Mytilus.Signal
