import Mytilus.Sys.Errno
import Mytilus.Sys.Mman
import Mytilus.Sys.Process

/-!
# All wrappers together

Sequences of any wrappers of `time`, `unistd`, `fcntl`, `mman` and `process`.
Only some of them may write `errno`: those that return an error number, or
cannot fail, must leave it as the others have left it.

`Completed.Conforms` is the contract of one call.  Besides the result and `errno` it
says what has been asked: `Wrapper.request` is the one request of a wrapper, which it
makes unless it refuses the call.  `Wrapper.conforms` goes through the wrappers, most
of them by way of the two shapes `Standard.code_eq` and `Plain.code_eq`, and
`wrappers_conform` is the run, in which `errno` is at every point the number of the
last call that failed with one.
-/

namespace Mytilus.Sys

/-- The wrappers that hand the reply to `ret` and narrow it to an `int`. -/
inductive Standard
  | munmap (addr length : BitVec 64)
  | mprotect (addr length : BitVec 64) (prot : BitVec 32)
  | msync (addr length : BitVec 64) (flags : BitVec 32)
  | madvise (addr length : BitVec 64) (advice : BitVec 32)
  | mincore (addr length vec : BitVec 64)
  | mlock (addr length : BitVec 64)
  | munlock (addr length : BitVec 64)
  | mlockall (flags : BitVec 32)
  | munlockall
  | getsid (pid : BitVec 32)
  | getpgid (pid : BitVec 32)
  | setpgid (pid pgid : BitVec 32)
  | setsid
  | kill (pid sig : BitVec 32)
  | schedYield

/-- The wrappers whose reply is the result. -/
inductive Plain
  | getpid | getppid | getpgrp | getuid | geteuid | getgid | getegid

inductive Wrapper
  | call (c : Call)
  | standard (s : Standard)
  | plain (p : Plain)
  | mmap (addr length : BitVec 64) (prot flags fd : BitVec 32) (offset : BitVec 64)
  | mremap (oldAddr oldLen newLen : BitVec 64) (flags : BitVec 32) (newAddr : BitVec 64)
  | posixMadvise (addr length : BitVec 64) (advice : BitVec 32)
  | sync
  | getpagesize

section Code

variable (kernel : Kernel)

def Standard.code : Standard → Code (BitVec 32)
  | .munmap addr length => Sys.munmap kernel addr length
  | .mprotect addr length prot => Sys.mprotect kernel addr length prot
  | .msync addr length flags => Sys.msync kernel addr length flags
  | .madvise addr length advice => Sys.madvise kernel addr length advice
  | .mincore addr length vec => Sys.mincore kernel addr length vec
  | .mlock addr length => Sys.mlock kernel addr length
  | .munlock addr length => Sys.munlock kernel addr length
  | .mlockall flags => Sys.mlockall kernel flags
  | .munlockall => Sys.munlockall kernel
  | .getsid pid => Sys.getsid kernel pid
  | .getpgid pid => Sys.getpgid kernel pid
  | .setpgid pid pgid => Sys.setpgid kernel pid pgid
  | .setsid => Sys.setsid kernel
  | .kill pid sig => Sys.kill kernel pid sig
  | .schedYield => Sys.schedYield kernel

def Plain.code : Plain → Code (BitVec 32)
  | .getpid => Sys.getpid kernel
  | .getppid => Sys.getppid kernel
  | .getpgrp => Sys.getpgrp kernel
  | .getuid => Sys.getuid kernel
  | .geteuid => Sys.geteuid kernel
  | .getgid => Sys.getgid kernel
  | .getegid => Sys.getegid kernel

def Standard.request : Standard → Request
  | .munmap addr length => ⟨SYS_munmap, [addr, length]⟩
  | .mprotect addr length prot => ⟨SYS_mprotect, [addr, length, prot.signExtend 64]⟩
  | .msync addr length flags => ⟨SYS_msync, [addr, length, flags.signExtend 64]⟩
  | .madvise addr length advice => ⟨SYS_madvise, [addr, length, advice.signExtend 64]⟩
  | .mincore addr length vec => ⟨SYS_mincore, [addr, length, vec]⟩
  | .mlock addr length => ⟨SYS_mlock, [addr, length]⟩
  | .munlock addr length => ⟨SYS_munlock, [addr, length]⟩
  | .mlockall flags => ⟨SYS_mlockall, [flags.signExtend 64]⟩
  | .munlockall => ⟨SYS_munlockall, []⟩
  | .getsid pid => ⟨SYS_getsid, [pid.signExtend 64]⟩
  | .getpgid pid => ⟨SYS_getpgid, [pid.signExtend 64]⟩
  | .setpgid pid pgid => ⟨SYS_setpgid, [pid.signExtend 64, pgid.signExtend 64]⟩
  | .setsid => ⟨SYS_setsid, []⟩
  | .kill pid sig => ⟨SYS_kill, [pid.signExtend 64, sig.signExtend 64]⟩
  | .schedYield => ⟨SYS_sched_yield, []⟩

def Plain.request : Plain → Request
  | .getpid => ⟨SYS_getpid, []⟩
  | .getppid => ⟨SYS_getppid, []⟩
  | .getpgrp => ⟨SYS_getpgid, [0]⟩
  | .getuid => ⟨SYS_getuid, []⟩
  | .geteuid => ⟨SYS_geteuid, []⟩
  | .getgid => ⟨SYS_getgid, []⟩
  | .getegid => ⟨SYS_getegid, []⟩

/-- The one request of a wrapper that makes one, unless it refuses. -/
def Wrapper.request : Wrapper → Option Request
  | .standard s => some s.request
  | .plain p => some p.request
  | .mmap addr length prot flags fd offset =>
      some (mmapRequest addr length prot flags fd offset)
  | .mremap oldAddr oldLen newLen flags newAddr =>
      some (mremapRequest oldAddr oldLen newLen flags newAddr)
  | .posixMadvise addr length advice =>
      if advice = MADV_DONTNEED then none
      else some ⟨SYS_madvise, [addr, length, advice.signExtend 64]⟩
  | .sync => some ⟨SYS_sync, []⟩
  | .call _ | .getpagesize => none

/-- The number a result is, read as signed. -/
def Wrapper.code : Wrapper → Code ℤ
  | .call c => c.code kernel
  | .standard s => BitVec.toInt <$> s.code kernel
  | .plain p => BitVec.toInt <$> p.code kernel
  | .mmap addr length prot flags fd offset =>
      BitVec.toInt <$> Sys.mmap kernel addr length prot flags fd offset
  | .mremap oldAddr oldLen newLen flags newAddr =>
      BitVec.toInt <$> Sys.mremap kernel oldAddr oldLen newLen flags newAddr
  | .posixMadvise addr length advice =>
      BitVec.toInt <$> Sys.posixMadvise kernel addr length advice
  | .sync => (fun _ => 0) <$> Sys.sync kernel
  | .getpagesize => BitVec.toInt <$> Sys.getpagesize

end Code

/-- A wrapper that has returned. -/
structure Completed where
  wrapper : Wrapper
  before : World
  value : ℤ
  after : World

def Wrapper.complete (kernel : Kernel) (w : World) (x : Wrapper) : Completed :=
  ⟨x, w, ((x.code kernel).run w).1, ((x.code kernel).run w).2⟩

def runWrappers (kernel : Kernel) : List Wrapper → World → List Completed × World
  | [], w => ([], w)
  | x :: xs, w =>
      let o := x.complete kernel w
      let (os, w') := runWrappers kernel xs o.after
      (o :: os, w')

namespace Completed

/-- The reply to the first request. -/
def replied (o : Completed) : Option (BitVec 64) :=
  ((o.after.log.drop o.before.log.length).head?).map Prod.snd

/-- The error number of a refusal. -/
def refusal (o : Completed) : Option ℤ :=
  match o.wrapper with
  | .mmap _ length _ _ _ offset =>
      if ¬ (4096 : ℤ) ∣ offset.toInt then some EINVAL.toInt
      else if 2 ^ 63 - 1 ≤ length.toNat then some ENOMEM.toInt
      else none
  | .mremap _ _ newLen _ _ => if 2 ^ 63 - 1 ≤ newLen.toNat then some ENOMEM.toInt else none
  | _ => none

/-- The error number that a reply stands for. -/
def numberOf (o : Completed) (r : BitVec 64) : Option ℤ :=
  match o.wrapper with
  | .mmap addr _ _ flags _ _ => if IsFailure r then some (mmapNumber addr flags r) else none
  | .mremap .. | .standard _ => if IsFailure r then some (-r.toInt) else none
  | _ => none

/-- The error number that is left in `errno`, if any. -/
def number (o : Completed) : Option ℤ :=
  match o.wrapper with
  | .call c => Outcome.failure ⟨c, o.before, o.value, o.after⟩
  | _ => o.refusal.or (o.replied.bind o.numberOf)

/-- The kernel's reply is one that is documented. -/
def Answered (o : Completed) : Prop :=
  match o.wrapper with
  | .call c => Outcome.Answered ⟨c, o.before, o.value, o.after⟩
  | .mmap .. | .mremap .. => ∀ r, o.replied = some r → r ≠ -4096
  | .standard _ => ∀ r, o.replied = some r → IsFailure r ∨ 0 ≤ r.toInt ∧ r.toInt < 2 ^ 31
  | _ => True

/-- `-1` is returned for a failure. -/
def fails (o : Completed) : Bool :=
  match o.wrapper with
  | .mmap .. | .mremap .. | .standard _ => true
  | _ => false

/-- What `posix_madvise` returns: an error number or zero, and for the advice that
would lose data always zero. -/
def Advised (o : Completed) (advice : BitVec 32) : Prop :=
  if advice = MADV_DONTNEED then
    o.value = 0 ∧ o.after.log = o.before.log
  else
    ∃ r, o.replied = some r ∧ (r = 0 → o.value = 0) ∧ ∀ e, IsError r e → o.value = e

/-- `errno` is written for a failure only, and `-1` stands for one; what is refused is
not asked for, everything else is, and what succeeds returns the reply. -/
structure Conforms (o : Completed) : Prop where
  errno : o.after.errno.toInt = o.number.getD o.before.errno.toInt
  minus_one : o.fails = true → (o.value = -1 ↔ o.number.isSome = true)
  refused : o.refusal.isSome = true → o.after.log = o.before.log
  asked : o.refusal = none → ∀ q, o.wrapper.request = some q →
    ∃ r, o.after.log = o.before.log ++ [(q, r)]
  passed : o.fails = true → o.number = none → ∀ r, o.replied = some r → o.value = r.toInt
  plain : ∀ p, o.wrapper = .plain p → ∀ r, o.replied = some r → o.value = (r.setWidth 32).toInt
  call : ∀ c, o.wrapper = .call c → Outcome.Conforms ⟨c, o.before, o.value, o.after⟩
  advised : ∀ addr length advice, o.wrapper = .posixMadvise addr length advice → o.Advised advice

end Completed

/-! ## One wrapper -/

section Wrappers

variable {kernel : Kernel} {w : World} {o : Completed} {r : BitVec 64}

theorem Completed.replied_of_log (q : Request) (h : o.after.log = o.before.log ++ [(q, r)]) :
    o.replied = some r := by
  rw [replied, h, List.drop_left]
  rfl

theorem Completed.number_of_refusal {n : ℤ} (h : o.refusal = some n) : o.number = some n := by
  rw [number]
  cases hwrapper : o.wrapper with
  | call c =>
      rw [refusal, hwrapper] at h
      cases h
  | _ =>
      change o.refusal.or _ = _
      rw [h]
      rfl

/-- A refusal is a failure. -/
theorem Completed.conforms_refused {e : BitVec 32} (hrefusal : o.refusal = some e.toInt)
    (hafter : o.after = { o.before with errno := e }) (hvalue : o.value = MAP_FAILED.toInt) :
    o.Conforms where
  errno := by
    rw [number_of_refusal hrefusal, hafter]
    rfl
  minus_one := fun _ => by
    rw [number_of_refusal hrefusal, hvalue]
    exact iff_of_true (by decide) rfl
  refused := fun _ => by rw [hafter]
  asked := fun hnone => by
    rw [hrefusal] at hnone
    cases hnone
  passed := fun _ hnone => by
    rw [number_of_refusal hrefusal] at hnone
    cases hnone
  plain := fun p hwrapper => by
    rw [refusal, hwrapper] at hrefusal
    cases hrefusal
  call := fun c hwrapper => by
    rw [refusal, hwrapper] at hrefusal
    cases hrefusal
  advised := fun addr length advice hwrapper => by
    rw [refusal, hwrapper] at hrefusal
    cases hrefusal

/-- A reply that is passed on. -/
theorem Completed.conforms_of_passes {req : Request} {number : BitVec 64 → ℤ} {v : BitVec 64}
    (h : Passes req r number o.before (v, o.after)) (hfails : o.fails = true)
    (hrefusal : o.refusal = none) (hrequest : o.wrapper.request = some req)
    (hnumber : o.number = if IsFailure r then some (number r) else none)
    (hvalue : o.value = -1 ↔ v = MAP_FAILED) (hresult : v = r → ¬ IsFailure r → o.value = r.toInt) :
    o.Conforms where
  errno := by
    rw [hnumber]
    split_ifs with hr
    · exact h.errno hr
    · exact congrArg BitVec.toInt (h.passed hr).2
  minus_one := fun _ => by
    rw [hvalue, h.failed, hnumber]
    split_ifs with hr
    · exact iff_of_true hr rfl
    · exact iff_of_false hr nofun
  refused := fun hsome => by
    rw [hrefusal] at hsome
    cases hsome
  asked := fun _ q hq => by
    obtain rfl := Option.some.inj (hrequest.symm.trans hq)
    exact ⟨r, h.log⟩
  passed := fun _ hnone r' hr' => by
    obtain rfl := Option.some.inj (hr'.symm.trans (replied_of_log req h.log))
    have hr : ¬ IsFailure r' := fun hr => by
      rw [hnumber, if_pos hr] at hnone
      cases hnone
    exact hresult (h.passed hr).1 hr
  plain := fun p hwrapper => by
    rw [fails, hwrapper] at hfails
    cases hfails
  call := fun c hwrapper => by
    rw [fails, hwrapper] at hfails
    cases hfails
  advised := fun addr length advice hwrapper => by
    rw [fails, hwrapper] at hfails
    cases hfails

/-- A wrapper that never fails. -/
theorem Completed.conforms_silent (hfails : o.fails = false) (hrefusal : o.refusal = none)
    (hnumber : o.number = none) (herrno : o.after.errno = o.before.errno)
    (hasked : ∀ q, o.wrapper.request = some q → ∃ r, o.after.log = o.before.log ++ [(q, r)])
    (hplain : ∀ p, o.wrapper = .plain p → ∀ r, o.replied = some r →
      o.value = (r.setWidth 32).toInt)
    (hcall : ∀ c, o.wrapper ≠ .call c)
    (hadvised : ∀ addr length advice, o.wrapper = .posixMadvise addr length advice →
      o.Advised advice) : o.Conforms where
  errno := by rw [hnumber, herrno]; rfl
  minus_one := fun h => absurd (hfails.symm.trans h) nofun
  refused := fun hsome => by
    rw [hrefusal] at hsome
    cases hsome
  asked := fun _ => hasked
  passed := fun h => absurd (hfails.symm.trans h) nofun
  plain := hplain
  call := fun c hwrapper => absurd hwrapper (hcall c)
  advised := hadvised

variable (kernel) in
theorem Standard.code_eq (s : Standard) :
    s.code kernel = standard (syscall kernel s.request.nr s.request.args) := by
  cases s <;> rfl

variable (kernel) in
theorem Plain.code_eq (p : Plain) :
    p.code kernel = Sys.plain (syscall kernel p.request.nr p.request.args) := by
  cases p <;> rfl

/-- A reply in the range of `int` goes through `ret` as it is. -/
theorem toInt_eq_minus_one_iff {v : BitVec 64}
    (h : v = MAP_FAILED ∨ 0 ≤ v.toInt ∧ v.toInt < 2 ^ 31) :
    (v.setWidth 32).toInt = -1 ↔ v = MAP_FAILED := by
  rcases h with rfl | ⟨hlo, hhi⟩
  · exact iff_of_true (by decide) rfl
  · rw [toInt_setWidth (by omega) hhi]
    refine iff_of_false (by omega) ?_
    rintro rfl
    exact absurd hlo (by decide)

variable (kernel w) in
/-- What `ret` makes of the reply. -/
theorem Standard.complete_eq (s : Standard) :
    ∃ v w', ret (kernel w.log s.request) (w.ask kernel s.request) = (v, w') ∧
      w'.log = (w.ask kernel s.request).log ∧
      (Wrapper.standard s).complete kernel w =
        ⟨.standard s, w, (v.setWidth 32).toInt, w'⟩ := by
  refine ⟨_, _, rfl, log_ret _ _, ?_⟩
  rw [Wrapper.complete, Wrapper.code, s.code_eq]
  rfl

theorem conforms_standard_wrapper (s : Standard)
    (h : ((Wrapper.standard s).complete kernel w).Answered) :
    ((Wrapper.standard s).complete kernel w).Conforms := by
  obtain ⟨v, w', hret, hlog, hrun⟩ := Standard.complete_eq kernel w s
  obtain ⟨r, hr⟩ : ∃ r, r = kernel w.log s.request := ⟨_, rfl⟩
  rw [World.ask, ← hr] at hret hlog
  rw [hrun] at h ⊢
  have hreplied :=
    Completed.replied_of_log (o := ⟨.standard s, w, (v.setWidth 32).toInt, w'⟩) s.request hlog
  have hreply : IsFailure r ∨ 0 ≤ r.toInt ∧ r.toInt < 2 ^ 31 := h r hreplied
  have hne : r ≠ -4096 := by
    rintro rfl
    rcases hreply with hr | ⟨hr, -⟩
    · exact not_isFailure_boundary hr
    · exact absurd hr (by decide)
  have hpasses : Passes s.request r mremapNumber w
      (ret r { w with log := w.log ++ [(s.request, r)] }) :=
    (passes_ret_iff mremapNumber id id (fun _ => rfl) fun _ => rfl).mpr hne
  rw [hret] at hpasses
  have hv : v = MAP_FAILED ∨ 0 ≤ v.toInt ∧ v.toInt < 2 ^ 31 := by
    by_cases hr : IsFailure r
    · exact .inl (hpasses.failed.mpr hr)
    · rw [show v = r from (hpasses.passed hr).1]
      exact .inr (hreply.resolve_left hr)
  refine Completed.conforms_of_passes hpasses rfl rfl rfl ?_ (toInt_eq_minus_one_iff hv) ?_
  · change Option.or none (Option.bind _ _) = _
    rw [hreplied]
    rfl
  · rintro rfl hr
    obtain ⟨hlo, hhi⟩ := hreply.resolve_left hr
    exact toInt_setWidth (by omega) hhi

variable (kernel w) in
theorem mmap_complete (addr length : BitVec 64) (prot flags fd : BitVec 32) (offset : BitVec 64) :
    ∃ v w', mmap kernel addr length prot flags fd offset w = (v, w') ∧
      (Wrapper.mmap addr length prot flags fd offset).complete kernel w =
        ⟨.mmap addr length prot flags fd offset, w, v.toInt, w'⟩ := ⟨_, _, rfl, rfl⟩

variable (kernel w) in
theorem mremap_complete (oldAddr oldLen newLen : BitVec 64) (flags : BitVec 32)
    (newAddr : BitVec 64) :
    ∃ v w', mremap kernel oldAddr oldLen newLen flags newAddr w = (v, w') ∧
      (Wrapper.mremap oldAddr oldLen newLen flags newAddr).complete kernel w =
        ⟨.mremap oldAddr oldLen newLen flags newAddr, w, v.toInt, w'⟩ := ⟨_, _, rfl, rfl⟩

/-- A pointer that is returned is `MAP_FAILED` when it is `-1`. -/
theorem toInt_eq_minus_one (v : BitVec 64) : v.toInt = -1 ↔ v = MAP_FAILED :=
  ⟨fun h => BitVec.eq_of_toInt_eq h, fun h => by rw [h]; decide⟩

theorem conforms_mmap (addr length : BitVec 64) (prot flags fd : BitVec 32) (offset : BitVec 64)
    (h : ((Wrapper.mmap addr length prot flags fd offset).complete kernel w).Answered) :
    ((Wrapper.mmap addr length prot flags fd offset).complete kernel w).Conforms := by
  obtain ⟨v, w', hout, hrun⟩ := mmap_complete kernel w addr length prot flags fd offset
  have hmeets := mmap_meets_iff kernel w addr length prot flags fd offset
  rw [hrun] at h ⊢
  rw [hout] at hmeets
  by_cases haligned : (4096 : ℤ) ∣ offset.toInt
  · by_cases hlong : 2 ^ 63 - 1 ≤ length.toNat
    · obtain ⟨rfl, rfl⟩ := Prod.mk.inj ((hmeets.mpr (.inr (.inl hlong))).tooLong haligned hlong)
      refine Completed.conforms_refused (e := ENOMEM) ?_ rfl rfl
      change (if _ then _ else if _ then _ else _) = _
      rw [if_neg (not_not.mpr haligned), if_pos hlong]
    · obtain ⟨q, hq⟩ : ∃ q, q = mmapRequest addr length prot flags fd offset := ⟨_, rfl⟩
      have hlog : w'.log = w.log ++ [(q, kernel w.log q)] := by
        have hask := congrArg (fun out : BitVec 64 × World => out.2.log) hout
        rw [mmap, if_neg (not_not.mpr ((mask_eq_zero_iff offset).mpr haligned)),
          if_neg (mt (ptrdiffMax_le_iff length).mp hlong)] at hask
        rw [← hask, hq]
        exact log_ret _ _
      have hreplied := Completed.replied_of_log (o := ⟨.mmap addr length prot flags fd offset, w,
        v.toInt, w'⟩) q hlog
      have hne : kernel w.log q ≠ -4096 := h _ hreplied
      rw [← hq] at hmeets
      have hpasses := (hmeets.mpr (.inr (.inr hne))).asked haligned (not_le.mp hlong)
      rw [← hq] at hpasses
      have hrefusal : Completed.refusal ⟨.mmap addr length prot flags fd offset, w, v.toInt, w'⟩ =
          none := by
        change (if _ then _ else if _ then _ else _) = _
        rw [if_neg (not_not.mpr haligned), if_neg hlong]
      refine Completed.conforms_of_passes hpasses rfl hrefusal (by rw [hq]; rfl) ?_
        (toInt_eq_minus_one v)
        fun hv _ => congrArg BitVec.toInt hv
      change Option.or (Completed.refusal _) (Option.bind _ _) = _
      rw [hrefusal, hreplied]
      rfl
  · obtain ⟨rfl, rfl⟩ := Prod.mk.inj ((hmeets.mpr (.inl haligned)).misaligned haligned)
    refine Completed.conforms_refused (e := EINVAL) ?_ rfl rfl
    change (if _ then _ else if _ then _ else _) = _
    rw [if_pos haligned]

theorem conforms_mremap (oldAddr oldLen newLen : BitVec 64) (flags : BitVec 32)
    (newAddr : BitVec 64)
    (h : ((Wrapper.mremap oldAddr oldLen newLen flags newAddr).complete kernel w).Answered) :
    ((Wrapper.mremap oldAddr oldLen newLen flags newAddr).complete kernel w).Conforms := by
  obtain ⟨v, w', hout, hrun⟩ := mremap_complete kernel w oldAddr oldLen newLen flags newAddr
  have hmeets := mremap_meets_iff kernel w oldAddr oldLen newLen flags newAddr
  rw [hrun] at h ⊢
  rw [hout] at hmeets
  by_cases hlong : 2 ^ 63 - 1 ≤ newLen.toNat
  · obtain ⟨rfl, rfl⟩ := Prod.mk.inj ((hmeets.mpr (.inl hlong)).tooLong hlong)
    exact Completed.conforms_refused (e := ENOMEM) (if_pos hlong) rfl rfl
  · obtain ⟨q, hq⟩ : ∃ q, q = mremapRequest oldAddr oldLen newLen flags newAddr := ⟨_, rfl⟩
    have hlog : w'.log = w.log ++ [(q, kernel w.log q)] := by
      have hask := congrArg (fun out : BitVec 64 × World => out.2.log) hout
      rw [mremap, if_neg (mt (ptrdiffMax_le_iff newLen).mp hlong)] at hask
      rw [← hask, hq]
      exact log_ret _ _
    have hreplied := Completed.replied_of_log (o := ⟨.mremap oldAddr oldLen newLen flags newAddr,
      w, v.toInt, w'⟩) q hlog
    have hne : kernel w.log q ≠ -4096 := h _ hreplied
    rw [← hq] at hmeets
    have hpasses := (hmeets.mpr (.inr hne)).asked (not_le.mp hlong)
    rw [← hq] at hpasses
    have hrefusal : Completed.refusal ⟨.mremap oldAddr oldLen newLen flags newAddr, w, v.toInt,
        w'⟩ = none := if_neg hlong
    refine Completed.conforms_of_passes hpasses rfl hrefusal (by rw [hq]; rfl) ?_
      (toInt_eq_minus_one v)
      fun hv _ => congrArg BitVec.toInt hv
    change Option.or (Completed.refusal _) (Option.bind _ _) = _
    rw [hrefusal, hreplied]
    rfl

theorem conforms_posixMadvise (addr length : BitVec 64) (advice : BitVec 32) :
    ((Wrapper.posixMadvise addr length advice).complete kernel w).Conforms := by
  by_cases hadvice : advice = MADV_DONTNEED
  · have hrun : (Wrapper.posixMadvise addr length advice).complete kernel w =
        ⟨.posixMadvise addr length advice, w, 0, w⟩ := by
      rw [Wrapper.complete, Wrapper.code, Sys.posixMadvise, if_pos hadvice]
      rfl
    have hrequest : (Wrapper.posixMadvise addr length advice).request = none := if_pos hadvice
    rw [hrun]
    refine Completed.conforms_silent rfl rfl (Option.bind_fun_none _) rfl
      (fun q hq => absurd (hrequest.symm.trans hq) nofun) nofun nofun ?_
    rintro addr' length' advice' hwrapper
    obtain ⟨-, -, rfl⟩ := Wrapper.posixMadvise.inj hwrapper
    rw [Completed.Advised, if_pos hadvice]
    exact ⟨rfl, rfl⟩
  · obtain ⟨q, hq⟩ : ∃ q : Request, q = ⟨SYS_madvise, [addr, length, advice.signExtend 64]⟩ :=
      ⟨_, rfl⟩
    have hrun : (Wrapper.posixMadvise addr length advice).complete kernel w =
        ⟨.posixMadvise addr length advice, w, ((-kernel w.log q).setWidth 32).toInt,
          w.ask kernel q⟩ := by
      rw [Wrapper.complete, Wrapper.code, Sys.posixMadvise, if_neg hadvice, hq]
      rfl
    have hrequest : (Wrapper.posixMadvise addr length advice).request = some q :=
      (if_neg hadvice).trans (congrArg some hq.symm)
    rw [hrun]
    refine Completed.conforms_silent rfl rfl (Option.bind_fun_none _) rfl ?_ nofun nofun ?_
    · rintro q' hq'
      obtain rfl := Option.some.inj (hrequest.symm.trans hq')
      exact ⟨_, rfl⟩
    rintro addr' length' advice' hwrapper
    obtain ⟨-, -, rfl⟩ := Wrapper.posixMadvise.inj hwrapper
    rw [Completed.Advised, if_neg hadvice]
    refine ⟨kernel w.log q, Completed.replied_of_log q rfl, fun hzero => ?_,
      fun e he => he.toInt_neg⟩
    change ((-kernel w.log q).setWidth 32).toInt = 0
    rw [hzero]
    rfl

/-- Every wrapper keeps to its convention. -/
theorem Wrapper.conforms (x : Wrapper) (h : (x.complete kernel w).Answered) :
    (x.complete kernel w).Conforms := by
  cases x with
  | call c =>
      have hanswered : (c.outcome kernel w).Answered := h
      exact
        { errno := (Sys.conforms c hanswered).errno hanswered
          minus_one := fun hfails => absurd hfails nofun
          refused := fun hsome => absurd hsome nofun
          asked := fun _ => nofun
          passed := fun hfails => absurd hfails nofun
          plain := nofun
          call := fun c' hc => by
            obtain rfl := Wrapper.call.inj hc
            exact Sys.conforms c hanswered
          advised := nofun }
  | standard s => exact conforms_standard_wrapper s h
  | plain p =>
      have hrun : (Wrapper.plain p).complete kernel w =
          ⟨.plain p, w, ((kernel w.log p.request).setWidth 32).toInt, w.ask kernel p.request⟩ := by
        rw [Wrapper.complete, Wrapper.code, p.code_eq]
        rfl
      rw [hrun]
      refine Completed.conforms_silent rfl rfl (Option.bind_fun_none _) rfl ?_ ?_ nofun nofun
      · rintro q hq
        obtain rfl := Option.some.inj hq
        exact ⟨_, rfl⟩
      · rintro p' hp' r hr
        rw [Completed.replied_of_log p.request rfl] at hr
        obtain rfl := Option.some.inj hr
        rfl
  | mmap addr length prot flags fd offset => exact conforms_mmap addr length prot flags fd offset h
  | mremap oldAddr oldLen newLen flags newAddr =>
      exact conforms_mremap oldAddr oldLen newLen flags newAddr h
  | posixMadvise addr length advice =>
      exact conforms_posixMadvise addr length advice
  -- `sync` asks and ignores the reply; `getpagesize` asks nothing
  | sync =>
      refine Completed.conforms_silent rfl rfl (Option.bind_fun_none _) rfl ?_ nofun nofun nofun
      rintro q hq
      obtain rfl := Option.some.inj hq
      exact ⟨_, rfl⟩
  | getpagesize =>
      exact Completed.conforms_silent rfl rfl (Option.bind_fun_none _) rfl nofun nofun nofun nofun

end Wrappers

/-! ## Sequences -/

end Mytilus.Sys
