import Mytilus.Sys.Calls

/-!
# Mappings

`mmap` and `mremap` check their arguments, ask the kernel, and hand its reply to
`ret`, whose result is the pointer: the `-1` of a failure is `MAP_FAILED`.

Linux encodes a failure as a negated error number of at most `MAX_ERRNO`, which
is 4095, while `isErr` also takes the reply `-4096` for one.  That reply is the
only one on which the two calls break their contracts (`mappings_meet_iff`).
-/

namespace Mytilus.Sys

def EPERM : BitVec 32 := 1

def ENOMEM : BitVec 32 := 12

/-- `-1isize as *mut c_void` -/
def MAP_FAILED : BitVec 64 := -1

def MAP_FIXED : BitVec 32 := 0x10

def MAP_ANON : BitVec 32 := 0x20

/-- `isize::MAX` -/
def PTRDIFF_MAX : BitVec 64 := 0x7fffffffffffffff

def PAGE_SIZE : BitVec 64 := 4096

def OFF_MASK : BitVec 64 := PAGE_SIZE - 1

def SYS_munmap : BitVec 64 := 215

def SYS_mremap : BitVec 64 := 216

def SYS_mmap : BitVec 64 := 222

def SYS_mprotect : BitVec 64 := 226

def SYS_msync : BitVec 64 := 227

def SYS_mlock : BitVec 64 := 228

def SYS_munlock : BitVec 64 := 229

def SYS_mlockall : BitVec 64 := 230

def SYS_munlockall : BitVec 64 := 231

def SYS_mincore : BitVec 64 := 232

def SYS_madvise : BitVec 64 := 233

def MADV_DONTNEED : BitVec 32 := 4

/-- Upstream's "fixup": for an anonymous mapping that may go anywhere, `EPERM`
from the kernel is `ENOMEM`. -/
def fixup (addr : BitVec 64) (flags : BitVec 32) (r : BitVec 64) : BitVec 64 :=
  if r = -(EPERM.signExtend 64) ∧ addr = 0 ∧ flags &&& MAP_ANON ≠ 0 ∧ flags &&& MAP_FIXED = 0 then
    -(ENOMEM.signExtend 64)
  else
    r

section Mappings

variable (kernel : Kernel)

def mmap (addr length : BitVec 64) (prot flags fd : BitVec 32) (offset : BitVec 64) :
    Code (BitVec 64) :=
  if offset &&& OFF_MASK ≠ 0 then do
    setErrno EINVAL
    return MAP_FAILED
  else if PTRDIFF_MAX ≤ length then do
    setErrno ENOMEM
    return MAP_FAILED
  else do
    let r ← syscall kernel SYS_mmap
      [addr, length, prot.signExtend 64, flags.signExtend 64, fd.signExtend 64, offset]
    ret (fixup addr flags r)

def mremap (oldAddr oldLen newLen : BitVec 64) (flags : BitVec 32) (newAddr : BitVec 64) :
    Code (BitVec 64) :=
  if PTRDIFF_MAX ≤ newLen then do
    setErrno ENOMEM
    return MAP_FAILED
  else do
    let r ← syscall kernel SYS_mremap [oldAddr, oldLen, newLen, flags.signExtend 64, newAddr]
    ret r

def munmap (addr length : BitVec 64) : Code (BitVec 32) :=
  standard (syscall kernel SYS_munmap [addr, length])

def mprotect (addr length : BitVec 64) (prot : BitVec 32) : Code (BitVec 32) :=
  standard (syscall kernel SYS_mprotect [addr, length, prot.signExtend 64])

def msync (addr length : BitVec 64) (flags : BitVec 32) : Code (BitVec 32) :=
  standard (syscallCp kernel SYS_msync [addr, length, flags.signExtend 64])

def madvise (addr length : BitVec 64) (advice : BitVec 32) : Code (BitVec 32) :=
  standard (syscall kernel SYS_madvise [addr, length, advice.signExtend 64])

/-- `MADV_DONTNEED` would lose data, which POSIX does not allow. -/
def posixMadvise (addr length : BitVec 64) (advice : BitVec 32) : Code (BitVec 32) :=
  if advice = MADV_DONTNEED then
    return 0
  else
    direct (syscall kernel SYS_madvise [addr, length, advice.signExtend 64])

def mincore (addr length vec : BitVec 64) : Code (BitVec 32) :=
  standard (syscall kernel SYS_mincore [addr, length, vec])

def mlock (addr length : BitVec 64) : Code (BitVec 32) :=
  standard (syscall kernel SYS_mlock [addr, length])

def munlock (addr length : BitVec 64) : Code (BitVec 32) :=
  standard (syscall kernel SYS_munlock [addr, length])

def mlockall (flags : BitVec 32) : Code (BitVec 32) :=
  standard (syscall kernel SYS_mlockall [flags.signExtend 64])

def munlockall : Code (BitVec 32) := standard (syscall kernel SYS_munlockall [])

end Mappings

/-! ## Contracts -/

/-- The reply is a negated error number of at most `MAX_ERRNO`. -/
abbrev IsFailure (r : BitVec 64) : Prop := -4095 ≤ r.toInt ∧ r.toInt ≤ -1

/-- The call fails with `e` before it asks anything. -/
def Refuses (e : BitVec 32) (w : World) (out : BitVec 64 × World) : Prop :=
  out = (MAP_FAILED, { w with errno := e })

/-- The call makes one request, and passes on its reply; a failure `r` is that of
number `number r`. -/
structure Passes (req : Request) (r : BitVec 64) (number : BitVec 64 → ℤ) (w : World)
    (out : BitVec 64 × World) : Prop where
  failed : out.1 = MAP_FAILED ↔ IsFailure r
  errno : IsFailure r → out.2.errno.toInt = number r
  passed : ¬ IsFailure r → out.1 = r ∧ out.2.errno = w.errno
  log : out.2.log = w.log ++ [(req, r)]

def mmapRequest (addr length : BitVec 64) (prot flags fd : BitVec 32) (offset : BitVec 64) :
    Request :=
  ⟨SYS_mmap, [addr, length, prot.signExtend 64, flags.signExtend 64, fd.signExtend 64, offset]⟩

def mremapRequest (oldAddr oldLen newLen : BitVec 64) (flags : BitVec 32) (newAddr : BitVec 64) :
    Request :=
  ⟨SYS_mremap, [oldAddr, oldLen, newLen, flags.signExtend 64, newAddr]⟩

/-- The error number of a failed `mmap`: 12 is `ENOMEM`, in place of `EPERM`. -/
def mmapNumber (addr : BitVec 64) (flags : BitVec 32) (r : BitVec 64) : ℤ :=
  if r.toInt = -1 ∧ addr = 0 ∧ flags &&& MAP_ANON ≠ 0 ∧ flags &&& MAP_FIXED = 0 then 12
  else -r.toInt

def mremapNumber (r : BitVec 64) : ℤ := -r.toInt

structure MmapContract (kernel : Kernel) (addr length : BitVec 64) (prot flags fd : BitVec 32)
    (offset : BitVec 64) (w : World) (out : BitVec 64 × World) : Prop where
  misaligned : ¬ (4096 : ℤ) ∣ offset.toInt → Refuses EINVAL w out
  tooLong : (4096 : ℤ) ∣ offset.toInt → 2 ^ 63 - 1 ≤ length.toNat → Refuses ENOMEM w out
  asked : (4096 : ℤ) ∣ offset.toInt → length.toNat < 2 ^ 63 - 1 →
    Passes (mmapRequest addr length prot flags fd offset)
      (kernel w.log (mmapRequest addr length prot flags fd offset)) (mmapNumber addr flags) w out

structure MremapContract (kernel : Kernel) (oldAddr oldLen newLen : BitVec 64) (flags : BitVec 32)
    (newAddr : BitVec 64) (w : World) (out : BitVec 64 × World) : Prop where
  tooLong : 2 ^ 63 - 1 ≤ newLen.toNat → Refuses ENOMEM w out
  asked : newLen.toNat < 2 ^ 63 - 1 →
    Passes (mremapRequest oldAddr oldLen newLen flags newAddr)
      (kernel w.log (mremapRequest oldAddr oldLen newLen flags newAddr)) mremapNumber w out

/-! ## The classifier -/

theorem IsFailure.isErr {r : BitVec 64} (h : IsFailure r) : isErr r = true := by
  rw [isErr_iff]
  exact ⟨by linarith [h.1], h.2⟩

theorem isFailure_of_isErr {r : BitVec 64} (h : isErr r = true) (hne : r ≠ -4096) :
    IsFailure r := by
  obtain ⟨hlo, hhi⟩ := (isErr_iff r).mp h
  have hne' : r.toInt ≠ -4096 := fun heq => hne (BitVec.eq_of_toInt_eq heq)
  exact ⟨by omega, hhi⟩

theorem not_isFailure_boundary : ¬ IsFailure (-4096) := fun h => absurd h.1 (by decide)

/-- `ret` on what a call has made, with `fix`, of the kernel's reply. -/
theorem passes_ret_iff {req : Request} {r : BitVec 64} {w : World} (number : BitVec 64 → ℤ)
    (fix : BitVec 64 → BitVec 64) (hfailure : IsFailure r → IsFailure (fix r))
    (hsame : ¬ IsFailure r → fix r = r) (hnumber : IsFailure r → -(fix r).toInt = number r) :
    Passes req r number w (ret (fix r) { w with log := w.log ++ [(req, r)] }) ↔ r ≠ -4096 := by
  constructor
  · -- `-4096` is no failure, but `ret` takes it for one
    rintro h rfl
    have hpassed := (h.passed not_isFailure_boundary).1
    rw [hsame not_isFailure_boundary, ret_of_isErr (by decide)] at hpassed
    change (-1 : BitVec 64) = -4096 at hpassed
    exact absurd hpassed (by decide)
  · intro hne
    by_cases hr : IsFailure r
    · obtain ⟨hlo, hhi⟩ := hfailure hr
      have herror : IsError (fix r) (-(fix r).toInt).toNat := ⟨by omega, by omega, by omega⟩
      rw [ret_of_isErr (hfailure hr).isErr]
      refine ⟨iff_of_true rfl hr, fun _ => ?_, fun hnot => absurd hr hnot, rfl⟩
      rw [herror.toInt_neg, Int.toNat_of_nonneg (by omega), hnumber hr]
    · have hok : isErr r = false :=
        Bool.eq_false_iff.mpr fun herr => hr (isFailure_of_isErr herr hne)
      have hnot : r ≠ MAP_FAILED := by
        rintro rfl
        exact hr (by decide)
      rw [hsame hr, ret_of_not_isErr hok]
      exact ⟨iff_of_false hnot hr, fun h => absurd h hr, fun _ => ⟨rfl, rfl⟩, rfl⟩

/-! ## The steps of the calls -/

theorem mask_eq_zero_iff (offset : BitVec 64) :
    offset &&& OFF_MASK = 0 ↔ (4096 : ℤ) ∣ offset.toInt := by
  have hmask : (offset &&& OFF_MASK).toNat = offset.toNat % 2 ^ 12 := by
    rw [BitVec.toNat_and]
    exact Nat.and_two_pow_sub_one_eq_mod offset.toNat 12
  have hzero : offset &&& OFF_MASK = 0 ↔ offset.toNat % 2 ^ 12 = 0 := by
    rw [← hmask, BitVec.toNat_eq]
    rfl
  rw [hzero, BitVec.toInt_eq_toNat_cond]
  split_ifs <;> omega

theorem ptrdiffMax_le_iff (length : BitVec 64) : PTRDIFF_MAX ≤ length ↔ 2 ^ 63 - 1 ≤ length.toNat :=
  Iff.rfl

section Fixup

variable {addr : BitVec 64} {flags : BitVec 32} {r : BitVec 64}

theorem fixup_of_not_isFailure (h : ¬ IsFailure r) : fixup addr flags r = r := by
  refine if_neg fun hfix => h ?_
  rw [hfix.1]
  decide

/-- `EPERM` and `ENOMEM` are both failures. -/
theorem fixup_isFailure (h : IsFailure r) : IsFailure (fixup addr flags r) := by
  unfold fixup
  split_ifs
  · decide
  · exact h

theorem neg_toInt_fixup : -(fixup addr flags r).toInt = mmapNumber addr flags r := by
  have heperm : r = -(EPERM.signExtend 64) ↔ r.toInt = -1 := BitVec.toInt_inj.symm
  unfold fixup mmapNumber
  simp only [heperm]
  split_ifs <;> rfl

end Fixup

/-! ## The calls -/

section Calls

variable (kernel : Kernel) (w : World)

theorem mmap_meets_iff (addr length : BitVec 64) (prot flags fd : BitVec 32) (offset : BitVec 64) :
    MmapContract kernel addr length prot flags fd offset w
        (mmap kernel addr length prot flags fd offset w) ↔
      ¬ (4096 : ℤ) ∣ offset.toInt ∨ 2 ^ 63 - 1 ≤ length.toNat ∨
        kernel w.log (mmapRequest addr length prot flags fd offset) ≠ -4096 := by
  unfold mmap
  by_cases haligned : (4096 : ℤ) ∣ offset.toInt
  · rw [if_neg (not_not.mpr ((mask_eq_zero_iff offset).mpr haligned))]
    by_cases hlong : 2 ^ 63 - 1 ≤ length.toNat
    · rw [if_pos ((ptrdiffMax_le_iff length).mpr hlong)]
      exact iff_of_true
        ⟨fun h => absurd haligned h, fun _ _ => rfl, fun _ h => absurd hlong h.not_ge⟩
        (.inr (.inl hlong))
    · rw [if_neg (mt (ptrdiffMax_le_iff length).mp hlong), or_iff_right (not_not.mpr haligned),
        or_iff_right hlong, ← passes_ret_iff (mmapNumber addr flags) (fixup addr flags)
          fixup_isFailure fixup_of_not_isFailure fun _ => neg_toInt_fixup]
      exact ⟨fun h => h.asked haligned (not_le.mp hlong), fun h =>
        ⟨fun hnot => absurd haligned hnot, fun _ hle => absurd hle hlong, fun _ _ => h⟩⟩
  · rw [if_pos (mt (mask_eq_zero_iff offset).mp haligned)]
    exact iff_of_true ⟨fun _ => rfl, fun h => absurd h haligned, fun h => absurd h haligned⟩
      (.inl haligned)

theorem mremap_meets_iff (oldAddr oldLen newLen : BitVec 64) (flags : BitVec 32)
    (newAddr : BitVec 64) :
    MremapContract kernel oldAddr oldLen newLen flags newAddr w
        (mremap kernel oldAddr oldLen newLen flags newAddr w) ↔
      2 ^ 63 - 1 ≤ newLen.toNat ∨
        kernel w.log (mremapRequest oldAddr oldLen newLen flags newAddr) ≠ -4096 := by
  unfold mremap
  by_cases hlong : 2 ^ 63 - 1 ≤ newLen.toNat
  · rw [if_pos ((ptrdiffMax_le_iff newLen).mpr hlong)]
    exact iff_of_true ⟨fun _ => rfl, fun h => absurd hlong h.not_ge⟩ (.inl hlong)
  · rw [if_neg (mt (ptrdiffMax_le_iff newLen).mp hlong), or_iff_right hlong,
      ← passes_ret_iff mremapNumber id id (fun _ => rfl) fun _ => rfl]
    exact ⟨fun h => h.asked (not_le.mp hlong), fun h => ⟨fun hle => absurd hle hlong, fun _ => h⟩⟩

/-- **The two calls pass the kernel's reply on, unless it is `-4096`.** -/
theorem mappings_meet_iff :
    (∀ (addr length : BitVec 64) (prot flags fd : BitVec 32) (offset : BitVec 64),
      MmapContract kernel addr length prot flags fd offset w
          (mmap kernel addr length prot flags fd offset w) ↔
        ¬ (4096 : ℤ) ∣ offset.toInt ∨ 2 ^ 63 - 1 ≤ length.toNat ∨
          kernel w.log (mmapRequest addr length prot flags fd offset) ≠ -4096) ∧
    ∀ (oldAddr oldLen newLen : BitVec 64) (flags : BitVec 32) (newAddr : BitVec 64),
      MremapContract kernel oldAddr oldLen newLen flags newAddr w
          (mremap kernel oldAddr oldLen newLen flags newAddr w) ↔
        2 ^ 63 - 1 ≤ newLen.toNat ∨
          kernel w.log (mremapRequest oldAddr oldLen newLen flags newAddr) ≠ -4096 :=
  ⟨mmap_meets_iff kernel w, mremap_meets_iff kernel w⟩

end Calls

/-- The page at `-4096`, mapped, is reported as a failure of number 4096. -/
theorem mmap_boundary_swallowed :
    mmap (fun _ _ => -4096) 0 4096 3 MAP_ANON (-1) 0 ⟨0, []⟩ =
        (MAP_FAILED, ⟨4096, [(mmapRequest 0 4096 3 MAP_ANON (-1) 0, -4096)]⟩) ∧
      ¬ MmapContract (fun _ _ => -4096) 0 4096 3 MAP_ANON (-1) 0 ⟨0, []⟩
        (mmap (fun _ _ => -4096) 0 4096 3 MAP_ANON (-1) 0 ⟨0, []⟩) := by
  refine ⟨rfl, fun h => ?_⟩
  have hpassed := ((h.asked (by decide) (by decide)).passed not_isFailure_boundary).1
  exact absurd (show (-1 : BitVec 64) = -4096 from hpassed) (by decide)

end Mytilus.Sys
