import Mytilus.Sys.Calls

/-!
# Results and `errno`

A call is decided by the kernel's reply to its first request.  The standard
wrappers return `-1` and set `errno` when that reply is an error; the direct
ones return the error number and leave `errno` alone.  A request that comes
after the first changes nothing.

`Conforms` is the contract of one call.  `Outcome.ByRet` says that the first reply has
gone through `ret`, and all that follows from it is proved once
(`Outcome.conforms_of_ret`); the wrappers of a kind share a lemma
(`conforms_standard`, `conforms_long`, `conforms_openat`, `conforms_direct`), and
`conforms` goes through them.  `calls_conform` is the same for every call of a
sequence, with `errno` at its end that of the last failure.
-/

namespace Mytilus.Sys

/-! ## What decides a call -/

/-- The calls that return an error number. -/
def Call.isDirect : Call → Bool
  | .clockNanosleep .. | .posixFadvise .. | .posixFallocate .. => true
  | _ => false

def Call.isClose : Call → Bool
  | .close .. => true
  | _ => false

/-- The replies with which the kernel can accept a call. -/
def Call.Success (v : ℤ) : Call → Prop
  | .nanosleep .. | .clockNanosleep .. | .posixFadvise .. | .posixFallocate .. => v = 0
  | .read .. | .write .. | .lseek .. => Outside v
  | _ => Outside v ∧ -2 ^ 31 ≤ v ∧ v < 2 ^ 31

/-- The result of a standard call that the kernel accepts with `v`. -/
def Call.result (v : ℤ) : Call → ℤ
  | .dup2 old new => if old = new then old.toInt else v
  | _ => v

namespace Outcome

/-- The requests of the call, with their replies. -/
def asked (o : Outcome) : List (Request × BitVec 64) := o.after.log.drop o.before.log.length

/-- The reply to the first request. -/
def deciding (o : Outcome) : Option (BitVec 64) := o.asked.head?.map Prod.snd

def Fails (o : Outcome) (e : ℕ) : Prop := ∃ r, o.deciding = some r ∧ IsError r e

def Succeeds (o : Outcome) (v : ℤ) : Prop :=
  ∃ r, o.deciding = some r ∧ r.toInt = v ∧ o.call.Success v

/-- A `close` that a signal interrupts. -/
def Interrupted (o : Outcome) : Prop := o.call.isClose = true ∧ o.Fails EINTR.toNat

/-- The kernel accepts the call or reports an error, or is not asked. -/
def Answered (o : Outcome) : Prop :=
  o.deciding = none ∨ (∃ e, o.Fails e) ∨ ∃ v, o.Succeeds v

/-- The error number a standard call leaves in `errno`, if any. -/
def failure (o : Outcome) : Option ℤ :=
  o.deciding.bind fun r =>
    if o.call.isDirect = true ∨ isErr r = false ∨ (o.call.isClose = true ∧ r = -4) then none
    else some (-r.toInt)

/-- The two conventions. -/
structure Conforms (o : Outcome) : Prop where
  fails : o.call.isDirect = false → ¬ o.Interrupted → ∀ e, o.Fails e →
    o.value = -1 ∧ o.after.errno.toInt = e
  interrupted : o.Interrupted → o.value = 0 ∧ o.after.errno = o.before.errno
  succeeds : o.call.isDirect = false → ∀ v, o.Succeeds v →
    o.value = o.call.result v ∧ o.after.errno = o.before.errno
  minus_one_iff : o.call.isDirect = false → o.call ≠ .dup2 (-1) (-1) →
    (o.value = -1 ↔ (∃ e, o.Fails e) ∧ ¬ o.Interrupted)
  direct_fails : o.call.isDirect = true → ∀ e, o.Fails e → o.value = e
  direct_succeeds : o.call.isDirect = true → ∀ v, o.Succeeds v → o.value = 0
  direct_errno : o.call.isDirect = true → o.after.errno = o.before.errno
  refused : ∀ flags req rem, o.call = .clockNanosleep CLOCK_THREAD_CPUTIME_ID flags req rem →
    o.asked = [] ∧ o.value = EINVAL.toInt
  decided : o.deciding = none →
    ∃ flags req rem, o.call = .clockNanosleep CLOCK_THREAD_CPUTIME_ID flags req rem

end Outcome

/-! ## Calls whose reply goes through `ret` -/

section Ret

variable {o : Outcome} {r : BitVec 64}

theorem Outcome.deciding_of_log (q : Request) (rest : List (Request × BitVec 64))
    (h : o.after.log = o.before.log ++ (q, r) :: rest) : o.deciding = some r := by
  rw [deciding, asked, h, List.drop_left]
  rfl

/-- The call is decided by `r`, and `ret` of it gives its result: `x` when it is
not an error. -/
structure Outcome.ByRet (o : Outcome) (r : BitVec 64) (x : ℤ) : Prop where
  deciding : o.deciding = some r
  error : isErr r = true → o.value = -1 ∧ o.after.errno = (-r).setWidth 32
  success : isErr r = false → o.value = x ∧ o.after.errno = o.before.errno

theorem Call.Success.outside {c : Call} {v : ℤ} (h : c.Success v) : Outside v := by
  cases c with
  | nanosleep | clockNanosleep | posixFadvise | posixFallocate =>
      obtain rfl : v = 0 := h
      exact .inr (by norm_num)
  | read | write | lseek => exact h
  | _ => exact h.1

/-- A standard call returns `-1` for no success, but for a descriptor that is `-1`. -/
theorem Call.result_ne {c : Call} {v : ℤ} (hv : Outside v) (hc : c ≠ .dup2 (-1) (-1)) :
    c.result v ≠ -1 := by
  have hne : v ≠ -1 := by rcases hv with h | h <;> omega
  cases c with
  | dup2 old new =>
      rw [Call.result]
      split_ifs with heq
      · subst heq
        intro hvalue
        have hold : old = -1 := BitVec.eq_of_toInt_eq hvalue
        rw [hold] at hc
        exact hc rfl
      · exact hne
  | _ => exact hne

/-- Only `close` is interrupted. -/
theorem Outcome.not_interrupted (h : o.call.isClose = false) : ¬ o.Interrupted :=
  fun hint => Bool.false_ne_true (h.symm.trans hint.1)

theorem Outcome.conforms_of_ret {x : ℤ} (h : o.ByRet r x) (hanswered : o.Answered)
    (hstandard : o.call.isDirect = false) (hclose : ¬ o.Interrupted)
    (hx : o.call.Success r.toInt → x = o.call.result r.toInt) : o.Conforms := by
  have hreply : ∀ {r'}, o.deciding = some r' → r' = r := fun hr' =>
    Option.some.inj (hr'.symm.trans h.deciding)
  have hfails : ∀ e, o.Fails e → o.value = -1 ∧ o.after.errno.toInt = e := by
    rintro e ⟨r', hr', herr⟩
    obtain rfl := hreply hr'
    obtain ⟨hvalue, herrno⟩ := h.error herr.isErr
    exact ⟨hvalue, by rw [herrno, herr.toInt_neg]⟩
  have hsucceeds : ∀ v, o.Succeeds v →
      o.value = o.call.result v ∧ o.after.errno = o.before.errno := by
    rintro v ⟨r', hr', rfl, hsuccess⟩
    obtain rfl := hreply hr'
    obtain ⟨hvalue, herrno⟩ := h.success (isErr_of_outside hsuccess.outside)
    exact ⟨hvalue.trans (hx hsuccess), herrno⟩
  have hdirect : o.call.isDirect ≠ true := by rw [hstandard]; decide
  refine ⟨fun _ _ => hfails, fun hint => absurd hint hclose, fun _ => hsucceeds, fun _ hne => ?_,
    fun hd => absurd hd hdirect, fun hd => absurd hd hdirect, fun hd => absurd hd hdirect, ?_, ?_⟩
  · constructor
    · intro hvalue
      rcases hanswered with hnone | hfail | ⟨v, hv⟩
      · rw [h.deciding] at hnone
        cases hnone
      · exact ⟨hfail, hclose⟩
      · have houtside : Outside v := by
          obtain ⟨-, -, -, hsuccess⟩ := hv
          exact hsuccess.outside
        exact absurd ((hsucceeds v hv).1.symm.trans hvalue) (Call.result_ne houtside hne)
    · rintro ⟨⟨e, he⟩, -⟩
      exact (hfails e he).1
  · intro flags req rem hcall
    rw [hcall] at hstandard
    cases hstandard
  · intro hnone
    rw [h.deciding] at hnone
    cases hnone

end Ret

/-! ## The calls -/

section Calls

variable (kernel : Kernel) (w : World)

/-- The outcome of a call in the world `w`. -/
def Call.outcome (c : Call) : Outcome :=
  ⟨c, w, ((c.code kernel).run w).1, ((c.code kernel).run w).2⟩

/-- The world after a request. -/
def World.ask (q : Request) : World := { w with log := w.log ++ [(q, kernel w.log q)] }

variable {kernel w} {c : Call} {r : BitVec 64} {nr : BitVec 64} {args : List (BitVec 64)}

/-- A call that ends with `ret` of its first reply. -/
theorem byRet_of_run (f : BitVec 64 → ℤ) (w₁ : World) (rest : List (Request × BitVec 64))
    {q : Request}
    (hrun : (c.code kernel).run w = (f (ret r w₁).1, (ret r w₁).2))
    (hlog : w₁.log = w.log ++ (q, r) :: rest) (herrno : w₁.errno = w.errno)
    (hf : isErr r = true → f (-1) = -1) :
    (c.outcome kernel w).ByRet r (f r) := by
  have hvalue : (c.outcome kernel w).value = f (ret r w₁).1 := congrArg Prod.fst hrun
  have hafter : (c.outcome kernel w).after = (ret r w₁).2 := congrArg Prod.snd hrun
  cases hr : isErr r with
  | true =>
      rw [ret_of_isErr hr] at hvalue hafter
      refine ⟨Outcome.deciding_of_log q rest ?_, fun _ => ⟨hvalue.trans (hf hr), ?_⟩,
        fun hok => absurd (hr.symm.trans hok) nofun⟩
      · rw [hafter]
        exact hlog
      · rw [hafter]
  | false =>
      rw [ret_of_not_isErr hr] at hvalue hafter
      refine ⟨Outcome.deciding_of_log q rest ?_, fun herr => absurd (hr.symm.trans herr) nofun,
        fun _ => ⟨hvalue, ?_⟩⟩
      · rw [hafter]
        exact hlog
      · rw [hafter]
        exact herrno

theorem byRet_standard
    (hcode : c.code kernel = BitVec.toInt <$> standard (syscall kernel nr args)) :
    (c.outcome kernel w).ByRet (kernel w.log ⟨nr, args⟩)
      ((kernel w.log ⟨nr, args⟩).setWidth 32).toInt := by
  refine byRet_of_run (fun v => (v.setWidth 32).toInt) (w.ask kernel ⟨nr, args⟩) [] ?_ rfl rfl
    fun _ => rfl
  rw [hcode]
  rfl

theorem byRet_long (hcode : c.code kernel = BitVec.toInt <$> (syscall kernel nr args >>= ret)) :
    (c.outcome kernel w).ByRet (kernel w.log ⟨nr, args⟩) (kernel w.log ⟨nr, args⟩).toInt := by
  refine byRet_of_run BitVec.toInt (w.ask kernel ⟨nr, args⟩) [] ?_ rfl rfl fun _ => rfl
  rw [hcode]
  rfl

/-- What `openat` asks first. -/
def openatRequest (dirfd : BitVec 32) (filename : BitVec 64) (flags mode : BitVec 32) : Request :=
  ⟨SYS_openat,
    [dirfd.signExtend 64, filename, (flags ||| O_LARGEFILE).signExtend 64, mode.setWidth 64]⟩

theorem run_syscall : (syscall kernel nr args).run w =
    (kernel w.log ⟨nr, args⟩, w.ask kernel ⟨nr, args⟩) := rfl

variable (kernel w) in
/-- `openat` asks a second time only where the descriptor it was given is to be closed
on `exec`. -/
theorem run_openatInner (dirfd : BitVec 32) (filename : BitVec 64) (flags mode : BitVec 32) :
    (openatInner kernel dirfd filename flags mode).run w =
      let r := kernel w.log (openatRequest dirfd filename flags mode)
      let w₁ := w.ask kernel (openatRequest dirfd filename flags mode)
      let w₂ := if 0 ≤ r.toInt ∧ flags &&& O_CLOEXEC ≠ 0 then
          w₁.ask kernel ⟨SYS_fcntl, [r, F_SETFD.signExtend 64, FD_CLOEXEC.signExtend 64]⟩
        else w₁
      ((ret r w₂).1.setWidth 32, (ret r w₂).2) := by
  rw [openatRequest]
  simp only [openatInner, syscallCp, StateT.run_bind, run_syscall]
  change StateT.run (if _ then _ else _) _ = _
  split_ifs <;> rfl

variable (kernel w) in
/-- The request that comes after a successful `openat` changes nothing. -/
theorem openatInner_run (dirfd : BitVec 32) (filename : BitVec 64) (flags mode : BitVec 32) :
    ∃ w₁ rest, (openatInner kernel dirfd filename flags mode).run w =
        ((ret (kernel w.log (openatRequest dirfd filename flags mode)) w₁).1.setWidth 32,
          (ret (kernel w.log (openatRequest dirfd filename flags mode)) w₁).2) ∧
      w₁.log = w.log ++ (openatRequest dirfd filename flags mode,
        kernel w.log (openatRequest dirfd filename flags mode)) :: rest ∧ w₁.errno = w.errno := by
  have hrun := run_openatInner kernel w dirfd filename flags mode
  dsimp only at hrun
  split_ifs at hrun
  · exact ⟨_, [_], hrun, List.append_assoc .., rfl⟩
  · exact ⟨_, [], hrun, rfl, rfl⟩

theorem byRet_openatInner {dirfd flags mode : BitVec 32} {filename : BitVec 64}
    (hcode : c.code kernel = BitVec.toInt <$> openatInner kernel dirfd filename flags mode) :
    ∃ r, (c.outcome kernel w).ByRet r (r.setWidth 32).toInt := by
  obtain ⟨w₁, rest, hrun, hlog, herrno⟩ :=
    openatInner_run kernel w dirfd filename flags mode
  refine ⟨_, byRet_of_run (fun v => (v.setWidth 32).toInt) w₁ rest ?_ hlog herrno fun _ => rfl⟩
  rw [hcode, StateT.run_map, hrun]
  rfl

variable (kernel w) in
theorem byRet_dup2_self (fd : BitVec 32) : ∃ r, ((Call.dup2 fd fd).outcome kernel w).ByRet r
    (if isErr r = false then fd.toInt else (r.setWidth 32).toInt) := by
  obtain ⟨q, hq⟩ : ∃ q : Request, q = ⟨SYS_fcntl, [fd.signExtend 64, F_GETFD]⟩ := ⟨_, rfl⟩
  refine ⟨kernel w.log q, byRet_of_run
    (fun v => if isErr (kernel w.log q) = false then fd.toInt else (v.setWidth 32).toInt)
    (w.ask kernel q) [] ?_ rfl rfl fun herr => ?_⟩
  · simp only [Call.code, dup2, StateT.run_map, StateT.run_bind, if_true, run_syscall, ← hq]
    change _ <$> StateT.run (if _ then _ else _) _ = _
    cases hr : isErr (kernel w.log q) with
    | true =>
        simp only [Bool.true_eq_false, if_false]
        rfl
    | false =>
        rw [if_pos rfl, ret_of_not_isErr hr]
        rfl
  · rw [if_neg (herr ▸ nofun)]
    rfl

/-- `nanosleep` negates the error number that `clock_nanosleep` made positive. -/
theorem neg_positive {r : BitVec 64} (h : r.toInt = 0 ∨ ∃ e, IsError r e) :
    -(((-r).setWidth 32).signExtend 64) = r := by
  rcases h with hzero | ⟨e, he⟩
  · obtain rfl : r = 0 := BitVec.eq_of_toInt_eq hzero
    rfl
  · have hpositive : (((-r).setWidth 32).signExtend 64).toInt = e := by
      rw [BitVec.toInt_signExtend_of_le (by norm_num), he.toInt_neg]
    obtain ⟨hlo, hhi, hr⟩ := he
    apply BitVec.eq_of_toInt_eq
    rw [BitVec.toInt_neg, hpositive, hr]
    exact Int.bmod_eq_of_le (by omega) (by omega)

/-- A call of the direct convention negates its reply. -/
theorem conforms_direct {q : Request} (hdirect : c.isDirect = true)
    (hclock : ∀ flags req rem, c ≠ .clockNanosleep CLOCK_THREAD_CPUTIME_ID flags req rem)
    (hrun : (c.code kernel).run w = (((-kernel w.log q).setWidth 32).toInt, w.ask kernel q)) :
    (c.outcome kernel w).Conforms := by
  have hvalue : (c.outcome kernel w).value = ((-kernel w.log q).setWidth 32).toInt :=
    congrArg Prod.fst hrun
  have hafter : (c.outcome kernel w).after = w.ask kernel q := congrArg Prod.snd hrun
  have hdeciding : (c.outcome kernel w).deciding = some (kernel w.log q) := by
    refine Outcome.deciding_of_log q [] ?_
    rw [hafter]
    rfl
  have hstandard : (c.outcome kernel w).call.isDirect ≠ false := by
    change c.isDirect ≠ false
    rw [hdirect]
    nofun
  have hclose : c.isClose ≠ true := by
    cases c <;> first | exact Bool.false_ne_true | cases hdirect
  refine ⟨fun h => absurd h hstandard, fun h => absurd h.1 hclose, fun h => absurd h hstandard,
    fun h => absurd h hstandard, ?_, ?_, fun _ => ?_, fun flags req rem h => absurd h
      (hclock flags req rem), fun hnone => ?_⟩
  · rintro - e ⟨r, hr, herr⟩
    obtain rfl := Option.some.inj (hdeciding.symm.trans hr)
    exact hvalue.trans herr.toInt_neg
  · rintro - v ⟨r, hr, rfl, hsuccess⟩
    obtain rfl := Option.some.inj (hdeciding.symm.trans hr)
    have hzero : (kernel w.log q).toInt = 0 := by
      change c.Success _ at hsuccess
      cases c <;> first | exact hsuccess | cases hdirect
    rw [hvalue, BitVec.eq_of_toInt_eq (y := 0) hzero]
    rfl
  · rw [hafter]
    rfl
  · rw [hdeciding] at hnone
    cases hnone

theorem conforms_refused (flags : BitVec 32) (req rem : BitVec 64) :
    ((Call.clockNanosleep CLOCK_THREAD_CPUTIME_ID flags req rem).outcome kernel w).Conforms := by
  have hasked : ((Call.clockNanosleep CLOCK_THREAD_CPUTIME_ID flags req rem).outcome
      kernel w).asked = [] := List.drop_length
  have hdeciding : ∀ r, ((Call.clockNanosleep CLOCK_THREAD_CPUTIME_ID flags req rem).outcome
      kernel w).deciding ≠ some r := by
    intro r hr
    rw [Outcome.deciding, hasked] at hr
    cases hr
  exact ⟨nofun, nofun, nofun, nofun, fun _ e ⟨r, hr, _⟩ => absurd hr (hdeciding r),
    fun _ v ⟨r, hr, _⟩ => absurd hr (hdeciding r), fun _ => rfl, fun _ _ _ _ => ⟨hasked, rfl⟩,
    fun _ => ⟨flags, req, rem, rfl⟩⟩

theorem conforms_nanosleep (req rem : BitVec 64)
    (h : ((Call.nanosleep req rem).outcome kernel w).Answered) :
    ((Call.nanosleep req rem).outcome kernel w).Conforms := by
  obtain ⟨q, hq⟩ : ∃ q : Request, q = ⟨SYS_clock_nanosleep, [0, 0, req, rem]⟩ := ⟨_, rfl⟩
  obtain ⟨r, hr⟩ : ∃ r, r = -(((-kernel w.log q).setWidth 32).signExtend 64) := ⟨_, rfl⟩
  have hrun : ((Call.nanosleep req rem).code kernel).run w =
      (((ret r (w.ask kernel q)).1.setWidth 32).toInt, (ret r (w.ask kernel q)).2) := by
    rw [hr, hq]
    rfl
  have hdeciding : ((Call.nanosleep req rem).outcome kernel w).deciding =
      some (kernel w.log q) := by
    refine Outcome.deciding_of_log q [] ?_
    rw [Call.outcome, hrun]
    exact log_ret r _
  -- the call is answered with success or an error, so negating twice loses nothing
  have hreply : (kernel w.log q).toInt = 0 ∨ ∃ e, IsError (kernel w.log q) e := by
    rcases h with hnone | ⟨e, r', hr', herr⟩ | ⟨v, r', hr', rfl, hsuccess⟩
    · rw [hdeciding] at hnone
      cases hnone
    · obtain rfl := Option.some.inj (hdeciding.symm.trans hr')
      exact .inr ⟨e, herr⟩
    · obtain rfl := Option.some.inj (hdeciding.symm.trans hr')
      exact .inl hsuccess
  rw [neg_positive hreply] at hr
  subst hr
  have hret := byRet_of_run (fun v => (v.setWidth 32).toInt) (w.ask kernel q) [] hrun rfl rfl
    fun _ => rfl
  refine Outcome.conforms_of_ret hret h rfl (Outcome.not_interrupted rfl) fun hv => ?_
  have hzero : (kernel w.log q).toInt = 0 := hv
  exact toInt_setWidth (by omega) (by omega)

theorem conforms_close (fd : BitVec 32) (h : ((Call.close fd).outcome kernel w).Answered) :
    ((Call.close fd).outcome kernel w).Conforms := by
  obtain ⟨q, hq⟩ : ∃ q : Request, q = ⟨SYS_close, [fd.signExtend 64]⟩ := ⟨_, rfl⟩
  have hrun : ((Call.close fd).code kernel).run w =
      if kernel w.log q = -4 then (0, w.ask kernel q)
      else (((ret (kernel w.log q) (w.ask kernel q)).1.setWidth 32).toInt,
        (ret (kernel w.log q) (w.ask kernel q)).2) := by
    simp only [Call.code, close, syscallCp, StateT.run_map, StateT.run_bind, run_syscall, ← hq]
    change _ <$> StateT.run (if _ = (-4 : BitVec 64) then _ else _) _ = _
    split_ifs <;> rfl
  -- `-EINTR` is the one reply that does not go through `ret`
  by_cases heintr : kernel w.log q = -4
  · rw [if_pos heintr] at hrun
    have hvalue : ((Call.close fd).outcome kernel w).value = 0 := congrArg Prod.fst hrun
    have hafter : ((Call.close fd).outcome kernel w).after = w.ask kernel q :=
      congrArg Prod.snd hrun
    have hdeciding : ((Call.close fd).outcome kernel w).deciding = some (-4) := by
      refine Outcome.deciding_of_log q [] ?_
      rw [hafter, ← heintr]
      rfl
    have hinterrupted : ((Call.close fd).outcome kernel w).Interrupted :=
      ⟨rfl, _, hdeciding, by decide, by decide, rfl⟩
    refine ⟨fun _ hnot => absurd hinterrupted hnot, fun _ => ⟨hvalue, ?_⟩, ?_, fun _ _ => ?_, nofun,
      nofun, nofun, nofun, fun hnone => ?_⟩
    · rw [hafter]
      rfl
    · rintro - v ⟨r, hr, rfl, hsuccess⟩
      obtain rfl := Option.some.inj (hdeciding.symm.trans hr)
      have houtside : Outside (-4) := hsuccess.outside
      rcases houtside with hlow | hhigh
      · exact absurd hlow (by norm_num)
      · exact absurd hhigh (by norm_num)
    · rw [hvalue]
      exact iff_of_false (by norm_num) fun h => h.2 hinterrupted
    · rw [hdeciding] at hnone
      cases hnone
  · rw [if_neg heintr] at hrun
    have hret := byRet_of_run (fun v => (v.setWidth 32).toInt) (w.ask kernel q) [] hrun rfl rfl
      fun _ => rfl
    refine Outcome.conforms_of_ret hret h rfl ?_ fun hv => toInt_setWidth hv.2.1 hv.2.2
    rintro ⟨-, r, hr, -, -, htoInt⟩
    obtain rfl := Option.some.inj (hret.deciding.symm.trans hr)
    exact heintr (BitVec.eq_of_toInt_eq htoInt)

/-- A call that narrows its reply to 32 bits. -/
theorem conforms_narrow (hret : (c.outcome kernel w).ByRet r (r.setWidth 32).toInt)
    (hstandard : c.isDirect = false) (hclose : c.isClose = false)
    (h : (c.outcome kernel w).Answered)
    (hsuccess : ∀ v, c.Success v → (-2 ^ 31 ≤ v ∧ v < 2 ^ 31) ∧ c.result v = v) :
    (c.outcome kernel w).Conforms := by
  refine Outcome.conforms_of_ret hret h hstandard (Outcome.not_interrupted hclose) fun hv => ?_
  obtain ⟨⟨hlo, hhi⟩, hresult⟩ := hsuccess _ hv
  exact (toInt_setWidth hlo hhi).trans hresult.symm

theorem conforms_standard (hstandard : c.isDirect = false) (hclose : c.isClose = false)
    (h : (c.outcome kernel w).Answered)
    (hcode : c.code kernel = BitVec.toInt <$> standard (syscall kernel nr args))
    (hsuccess : ∀ v, c.Success v → (-2 ^ 31 ≤ v ∧ v < 2 ^ 31) ∧ c.result v = v) :
    (c.outcome kernel w).Conforms :=
  conforms_narrow (byRet_standard hcode) hstandard hclose h hsuccess

theorem conforms_long (hstandard : c.isDirect = false) (hclose : c.isClose = false)
    (h : (c.outcome kernel w).Answered)
    (hcode : c.code kernel = BitVec.toInt <$> (syscall kernel nr args >>= ret))
    (hsuccess : ∀ v, c.Success v → c.result v = v) : (c.outcome kernel w).Conforms :=
  Outcome.conforms_of_ret (byRet_long hcode) h hstandard (Outcome.not_interrupted hclose)
    fun hv => (hsuccess _ hv).symm

theorem conforms_openat {dirfd flags mode : BitVec 32} {filename : BitVec 64}
    (hstandard : c.isDirect = false) (hclose : c.isClose = false)
    (h : (c.outcome kernel w).Answered)
    (hcode : c.code kernel = BitVec.toInt <$> openatInner kernel dirfd filename flags mode)
    (hsuccess : ∀ v, c.Success v → (-2 ^ 31 ≤ v ∧ v < 2 ^ 31) ∧ c.result v = v) :
    (c.outcome kernel w).Conforms := by
  obtain ⟨r, hret⟩ := byRet_openatInner (w := w) hcode
  exact conforms_narrow hret hstandard hclose h hsuccess

/-- Every call keeps to its convention. -/
theorem conforms (c : Call) (h : (c.outcome kernel w).Answered) :
    (c.outcome kernel w).Conforms := by
  cases c with
  | clockGettime clk ts => exact conforms_standard rfl rfl h rfl fun v hv => ⟨hv.2, rfl⟩
  | clockSettime clk ts => exact conforms_standard rfl rfl h rfl fun v hv => ⟨hv.2, rfl⟩
  | clockGetres clk ts => exact conforms_standard rfl rfl h rfl fun v hv => ⟨hv.2, rfl⟩
  | pause => exact conforms_standard rfl rfl h rfl fun v hv => ⟨hv.2, rfl⟩
  | dup fd => exact conforms_standard rfl rfl h rfl fun v hv => ⟨hv.2, rfl⟩
  | dup3 old new flags => exact conforms_standard rfl rfl h rfl fun v hv => ⟨hv.2, rfl⟩
  | fsync fd => exact conforms_standard rfl rfl h rfl fun v hv => ⟨hv.2, rfl⟩
  | fdatasync fd => exact conforms_standard rfl rfl h rfl fun v hv => ⟨hv.2, rfl⟩
  | clockNanosleep clk flags req rem =>
      by_cases hclk : clk = CLOCK_THREAD_CPUTIME_ID
      · subst hclk
        exact conforms_refused flags req rem
      · refine conforms_direct (q := ⟨SYS_clock_nanosleep,
          [clk.signExtend 64, flags.signExtend 64, req, rem]⟩) rfl (fun _ _ _ heq => ?_) ?_
        · cases heq
          exact hclk rfl
        · rw [Call.code, clockNanosleep, if_neg hclk]
          rfl
  | nanosleep req rem => exact conforms_nanosleep req rem h
  | dup2 old new =>
      -- `dup2` of a descriptor to itself only asks whether it is open
      by_cases heq : old = new
      · subst heq
        obtain ⟨r, hret⟩ := byRet_dup2_self kernel w old
        refine Outcome.conforms_of_ret hret h rfl (Outcome.not_interrupted rfl) fun hv => ?_
        rw [if_pos (isErr_of_outside hv.1)]
        exact (if_pos rfl).symm
      · have hcode : (Call.dup2 old new).code kernel = BitVec.toInt <$> standard (syscall kernel
            SYS_dup3 [old.signExtend 64, new.signExtend 64, 0]) := by
          rw [Call.code, dup2, if_neg heq]
        exact conforms_standard rfl rfl h hcode fun v hv => ⟨hv.2, if_neg heq⟩
  | read fd buf count => exact conforms_long rfl rfl h rfl fun v _ => rfl
  | write fd buf count => exact conforms_long rfl rfl h rfl fun v _ => rfl
  | close fd => exact conforms_close fd h
  | lseek fd offset whence => exact conforms_long rfl rfl h rfl fun v _ => rfl
  | «open» filename flags mode => exact conforms_openat rfl rfl h rfl fun v hv => ⟨hv.2, rfl⟩
  | openat dirfd filename flags mode => exact conforms_openat rfl rfl h rfl fun v hv => ⟨hv.2, rfl⟩
  | creat filename mode => exact conforms_openat rfl rfl h rfl fun v hv => ⟨hv.2, rfl⟩
  | fcntl fd cmd arg =>
      have hcode : (Call.fcntl fd cmd arg).code kernel = BitVec.toInt <$> standard (syscall kernel
          SYS_fcntl [fd.signExtend 64, cmd.signExtend 64,
            if cmd = F_SETFL then arg ||| O_LARGEFILE.signExtend 64 else arg]) := by
        simp only [Call.code, fcntl, syscallCp, ite_self]
      exact conforms_standard rfl rfl h hcode fun v hv => ⟨hv.2, rfl⟩
  | posixFadvise fd base len advice => exact conforms_direct rfl nofun rfl
  | posixFallocate fd base len => exact conforms_direct rfl nofun rfl

end Calls

/-! ## Sequences of calls -/

/-- Each outcome starts in the world that the one before it leaves. -/
def Linked (w : World) : List Outcome → World → Prop
  | [], w' => w = w'
  | o :: os, w' => o.before = w ∧ Linked o.after os w'

/-- What a call leaves in `errno`. -/
theorem Outcome.Conforms.errno {o : Outcome} (h : o.Conforms) (hanswered : o.Answered) :
    o.after.errno.toInt = o.failure.getD o.before.errno.toInt := by
  cases hdirect : o.call.isDirect with
  | true =>
      have hnone : o.failure = none := by
        rw [failure]
        cases o.deciding with
        | none => rfl
        | some r => exact if_pos (.inl hdirect)
      rw [hnone, h.direct_errno hdirect]
      rfl
  | false =>
      rcases hanswered with hnone | ⟨e, r, hr, herr⟩ | ⟨v, r, hr, hv, hsuccess⟩
      · obtain ⟨flags, req, rem, hcall⟩ := h.decided hnone
        rw [hcall] at hdirect
        cases hdirect
      · rw [failure, hr, Option.bind_some]
        by_cases hclose : o.call.isClose = true ∧ r = -4
        · obtain ⟨hclose, rfl⟩ := hclose
          have hinterrupted : o.Interrupted := ⟨hclose, _, hr, by decide, by decide, rfl⟩
          rw [if_pos (.inr (.inr ⟨hclose, rfl⟩)), (h.interrupted hinterrupted).2]
          rfl
        · have hnot : ¬ o.Interrupted := by
            rintro ⟨hisClose, r', hr', -, -, htoInt⟩
            obtain rfl := Option.some.inj (hr.symm.trans hr')
            exact hclose ⟨hisClose, BitVec.eq_of_toInt_eq htoInt⟩
          rw [if_neg, (h.fails hdirect hnot e ⟨r, hr, herr⟩).2, Option.getD_some, herr.2.2, neg_neg]
          rintro (hfalse | hfalse | hfalse)
          · exact absurd (hdirect.symm.trans hfalse) nofun
          · exact absurd (herr.isErr.symm.trans hfalse) nofun
          · exact hclose hfalse
      · have hok : isErr r = false := isErr_of_outside (hv ▸ hsuccess.outside)
        rw [failure, hr, Option.bind_some, if_pos (.inr (.inl hok)),
          (h.succeeds hdirect v ⟨r, hr, hv, hsuccess⟩).2]
        rfl

theorem linked_errno {w w' : World} {os : List Outcome} (hlinked : Linked w os w')
    (h : ∀ o ∈ os, o.after.errno.toInt = o.failure.getD o.before.errno.toInt) :
    w'.errno.toInt = (os.filterMap Outcome.failure).getLast?.getD w.errno.toInt := by
  induction os generalizing w with
  | nil =>
      obtain rfl : w = w' := hlinked
      rfl
  | cons o os ih =>
      obtain ⟨rfl, hrest⟩ := hlinked
      obtain ⟨ho, hos⟩ := List.forall_mem_cons.mp h
      rw [ih hrest hos, List.filterMap_cons, ho]
      cases o.failure with
      | none => rfl
      | some e =>
          cases hlast : (os.filterMap Outcome.failure).getLast? with
          | none => simp [List.getLast?_cons, hlast]
          | some e' => simp [List.getLast?_cons, hlast]

/-- **The wrappers keep to their conventions.**  In every sequence of calls, and
whatever the kernel replies, each call that is accepted or gets an error does
what its convention says; and `errno` is in the end the number of the last error
of a standard call, or what it was. -/
theorem calls_conform (kernel : Kernel) (cs : List Call) (w : World) :
    (runCalls kernel cs w).1.map Outcome.call = cs ∧
      Linked w (runCalls kernel cs w).1 (runCalls kernel cs w).2 ∧
      (∀ o ∈ (runCalls kernel cs w).1, o.Answered → o.Conforms) ∧
      ((∀ o ∈ (runCalls kernel cs w).1, o.Answered) →
        (runCalls kernel cs w).2.errno.toInt =
          ((runCalls kernel cs w).1.filterMap Outcome.failure).getLast?.getD w.errno.toInt) := by
  have hcalls : (runCalls kernel cs w).1.map Outcome.call = cs ∧
      Linked w (runCalls kernel cs w).1 (runCalls kernel cs w).2 ∧
      ∀ o ∈ (runCalls kernel cs w).1, o.Answered → o.Conforms := by
    induction cs generalizing w with
    | nil => exact ⟨rfl, rfl, fun o ho => absurd ho List.not_mem_nil⟩
    | cons c cs ih =>
        obtain ⟨hmap, hlinked, hconforms⟩ := ih (c.outcome kernel w).after
        exact ⟨congrArg (c :: ·) hmap, ⟨rfl, hlinked⟩,
          List.forall_mem_cons.mpr ⟨conforms c, hconforms⟩⟩
  obtain ⟨hmap, hlinked, hconforms⟩ := hcalls
  refine ⟨hmap, hlinked, hconforms, fun hanswered => linked_errno hlinked fun o ho => ?_⟩
  exact (hconforms o ho (hanswered o ho)).errno (hanswered o ho)

/-- A kernel that accepted the descriptor `-1` would make `dup2` return `-1`
without an error. -/
theorem dup2_accepted_minus_one :
    ¬ ∀ (kernel : Kernel) (cs : List Call) (w : World), ∀ o ∈ (runCalls kernel cs w).1,
      o.Answered → o.call.isDirect = false →
        (o.value = -1 ↔ (∃ e, o.Fails e) ∧ ¬ o.Interrupted) := by
  intro h
  have hcall := h (fun _ _ => 0) [.dup2 (-1) (-1)] ⟨0, []⟩ _ List.mem_cons_self
    (.inr (.inr ⟨0, 0, rfl, rfl, .inr (by norm_num), by norm_num, by norm_num⟩)) rfl
  obtain ⟨⟨e, r, hr, hlo, -, hreply⟩, -⟩ := hcall.mp rfl
  obtain rfl := Option.some.inj hr
  have hzero : (0 : ℤ) = -e := hreply
  omega

end Mytilus.Sys
