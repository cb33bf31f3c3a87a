import Mytilus.Sys.Errno

/-!
# Descriptors

The kernel holds the table of open descriptors, each with its close-on-exec
flag.  A program sees results only.  `Outcome.view` is what it concludes from the
result of one call, and these conclusions are right after every sequence of
calls: a descriptor is closed however `close` returns, and one that was opened
with `O_CLOEXEC` has its flag even where the kernel does not set it at the open.

`KeepsTable` is what is documented of the kernel, by the table that its own replies
amount to (`tableOf`).  `KeepsTable.view` is one call, from a lemma for each wrapper
that has to do with descriptors (`KeepsTable.openat`, `dup`, `dup2`, `close_eq`,
`fcntl`); the others ask for nothing that the table depends on.  `descriptors_tracked`
is the run.
-/

namespace Mytilus.Sys

/-- The open descriptors with their close-on-exec flags. -/
abbrev Table := BitVec 32 → Option Bool

def EBADF : BitVec 32 := 9

def F_DUPFD : BitVec 32 := 0
def F_DUPFD_CLOEXEC : BitVec 32 := 1030

/-! ## The kernel's table -/

/-- An argument of a request, of which the kernel reads the low half. -/
def Request.arg (q : Request) (i : ℕ) : BitVec 32 := (q.args.getD i 0).setWidth 32

/-- What `fcntl` does to the table when it succeeds with `r`. -/
def servedFcntl (t : Table) (q : Request) (r : BitVec 64) : Table :=
  if q.arg 1 = F_SETFD then
    Function.update t (q.arg 0) (some (decide (q.arg 2 &&& FD_CLOEXEC ≠ 0)))
  else if q.arg 1 = F_DUPFD then
    Function.update t (r.setWidth 32) (some false)
  else if q.arg 1 = F_DUPFD_CLOEXEC then
    Function.update t (r.setWidth 32) (some true)
  else
    t

/-- What a request with the reply `r` does to the table.  A kernel that does not
honour `O_CLOEXEC` opens without the flag. -/
def served (honours : Bool) (t : Table) (q : Request) (r : BitVec 64) : Table :=
  if q.nr = SYS_close then
    if r = -(EBADF.signExtend 64) then t else Function.update t (q.arg 0) none
  else if isErr r = true then
    t
  else if q.nr = SYS_openat then
    Function.update t (r.setWidth 32) (some (honours && decide (q.arg 2 &&& O_CLOEXEC ≠ 0)))
  else if q.nr = SYS_dup then
    Function.update t (r.setWidth 32) (some false)
  else if q.nr = SYS_dup3 then
    Function.update t (q.arg 1) (some (decide (q.arg 2 &&& O_CLOEXEC ≠ 0)))
  else if q.nr = SYS_fcntl then
    servedFcntl t q r
  else
    t

/-- The table after the requests of the log. -/
def tableOf (honours : Bool) (t : Table) (log : List (Request × BitVec 64)) : Table :=
  log.foldl (fun t e => served honours t e.1 e.2) t

/-- The requests whose reply is a new descriptor. -/
def Request.Duplicates (q : Request) : Prop :=
  q.nr = SYS_openat ∨ q.nr = SYS_dup ∨ q.nr = SYS_dup3 ∨
    q.nr = SYS_fcntl ∧ (q.arg 1 = F_DUPFD ∨ q.arg 1 = F_DUPFD_CLOEXEC)

/-- What is documented of the replies about descriptors.  They are errors, or
descriptors where there is a new one and zero elsewhere; `close` knows a descriptor
that is open, and so does `F_SETFD`. -/
structure KeepsTable (kernel : Kernel) (honours : Bool) (t : Table) : Prop where
  duplicates : ∀ log q, q.Duplicates → (∃ e, IsError (kernel log q) e) ∨
    0 ≤ (kernel log q).toInt ∧ (kernel log q).toInt < 2 ^ 31
  setfd : ∀ log q, q.nr = SYS_fcntl → q.arg 1 = F_SETFD →
    (∃ e, IsError (kernel log q) e) ∨ kernel log q = 0
  setfd_open : ∀ log q, q.nr = SYS_fcntl → q.arg 1 = F_SETFD →
    tableOf honours t log (q.arg 0) ≠ none → kernel log q = 0
  close : ∀ log q, q.nr = SYS_close → kernel log q = -(EBADF.signExtend 64) →
    tableOf honours t log (q.arg 0) = none

/-! ## What the program concludes -/

/-- What the program takes the table to be after a call. -/
def Outcome.view (t : Table) (o : Outcome) : Table :=
  match o.call with
  | .open _ flags _ | .openat _ _ flags _ =>
      if o.value = -1 then t
      else Function.update t (BitVec.ofInt 32 o.value) (some (decide (flags &&& O_CLOEXEC ≠ 0)))
  | .creat _ _ | .dup _ =>
      if o.value = -1 then t else Function.update t (BitVec.ofInt 32 o.value) (some false)
  | .dup2 old new =>
      if o.value = -1 ∨ old = new then t else Function.update t new (some false)
  | .dup3 _ new flags =>
      if o.value = -1 then t
      else Function.update t new (some (decide (flags &&& O_CLOEXEC ≠ 0)))
  | .close fd => Function.update t fd none
  | .fcntl fd cmd arg =>
      if o.value = -1 then t
      else if cmd = F_SETFD then
        Function.update t fd (some (decide (arg.setWidth 32 &&& FD_CLOEXEC ≠ 0)))
      else if cmd = F_DUPFD then Function.update t (BitVec.ofInt 32 o.value) (some false)
      else if cmd = F_DUPFD_CLOEXEC then Function.update t (BitVec.ofInt 32 o.value) (some true)
      else t
  | _ => t

section Served

variable {honours : Bool} {t : Table} {q : Request} {r : BitVec 64}

theorem served_close (hnr : q.nr = SYS_close) : served honours t q r =
    if r = -(EBADF.signExtend 64) then t else Function.update t (q.arg 0) none :=
  if_pos hnr

theorem served_of_isErr (hnr : q.nr ≠ SYS_close) (hr : isErr r = true) :
    served honours t q r = t := by
  rw [served, if_neg hnr, if_pos hr]

theorem served_openat (hnr : q.nr = SYS_openat) (hr : isErr r = false) : served honours t q r =
    Function.update t (r.setWidth 32)
      (some (honours && decide (q.arg 2 &&& O_CLOEXEC ≠ 0))) := by
  simp [served, hnr, hr, SYS_openat, SYS_close]

theorem served_dup (hnr : q.nr = SYS_dup) (hr : isErr r = false) : served honours t q r =
    Function.update t (r.setWidth 32) (some false) := by
  simp [served, hnr, hr, SYS_openat, SYS_close, SYS_dup]

theorem served_dup3 (hnr : q.nr = SYS_dup3) (hr : isErr r = false) : served honours t q r =
    Function.update t (q.arg 1) (some (decide (q.arg 2 &&& O_CLOEXEC ≠ 0))) := by
  simp [served, hnr, hr, SYS_openat, SYS_close, SYS_dup, SYS_dup3]

theorem served_fcntl (hnr : q.nr = SYS_fcntl) (hr : isErr r = false) :
    served honours t q r = servedFcntl t q r := by
  simp [served, hnr, hr, SYS_openat, SYS_close, SYS_dup, SYS_dup3, SYS_fcntl]

/-- The system calls that the table depends on. -/
def descriptorCalls : List (BitVec 64) := [SYS_close, SYS_openat, SYS_dup, SYS_dup3, SYS_fcntl]

theorem served_of_notMem (hnr : q.nr ∉ descriptorCalls) : served honours t q r = t := by
  simp only [descriptorCalls, List.mem_cons, List.not_mem_nil, or_false, not_or] at hnr
  obtain ⟨hclose, hopenat, hdup, hdup3, hfcntl⟩ := hnr
  simp [served, hclose, hopenat, hdup, hdup3, hfcntl]

/-- No other `fcntl` command reaches the table. -/
theorem served_fcntl_other (hnr : q.nr = SYS_fcntl) (hset : q.arg 1 ≠ F_SETFD)
    (hdup : q.arg 1 ≠ F_DUPFD) (hcloexec : q.arg 1 ≠ F_DUPFD_CLOEXEC) :
    served honours t q r = t := by
  cases hr : isErr r with
  | true => exact served_of_isErr (by rw [hnr]; decide) hr
  | false => rw [served_fcntl hnr hr, servedFcntl, if_neg hset, if_neg hdup, if_neg hcloexec]

theorem tableOf_append (log : List (Request × BitVec 64)) (q : Request) (r : BitVec 64)
    (rest : List (Request × BitVec 64)) : tableOf honours t (log ++ (q, r) :: rest) =
      tableOf honours (served honours (tableOf honours t log) q r) rest := by
  rw [tableOf, List.foldl_append]
  rfl

end Served

/-! ## One call -/

section Calls

variable {kernel : Kernel} {honours : Bool} {t : Table} {w : World} {c : Call} {o : Outcome}
  {r : BitVec 64} {nr : BitVec 64} {args : List (BitVec 64)}

@[simp] theorem setWidth_signExtend (x : BitVec 32) : (x.signExtend 64).setWidth 32 = x := by
  ext i hi
  simp [BitVec.getLsbD_signExtend, hi]
  omega

/-- A reply that is an error or a new descriptor shows in the result. -/
theorem Outcome.ByRet.duplicated (hret : o.ByRet r (r.setWidth 32).toInt)
    (hreply : (∃ e, IsError r e) ∨ 0 ≤ r.toInt ∧ r.toInt < 2 ^ 31) :
    isErr r = true ∧ o.value = -1 ∨
      isErr r = false ∧ o.value ≠ -1 ∧ BitVec.ofInt 32 o.value = r.setWidth 32 := by
  rcases hreply with ⟨e, he⟩ | ⟨hlo, hhi⟩
  · exact .inl ⟨he.isErr, (hret.error he.isErr).1⟩
  · have hok : isErr r = false := isErr_of_outside (.inr (by omega))
    obtain ⟨hvalue, -⟩ := hret.success hok
    refine .inr ⟨hok, ?_, ?_⟩
    · rw [hvalue, toInt_setWidth (by omega) hhi]
      omega
    · rw [hvalue, BitVec.ofInt_toInt]

theorem log_standard (hcode : c.code kernel = BitVec.toInt <$> standard (syscall kernel nr args)) :
    (c.outcome kernel w).after.log = w.log ++ [(⟨nr, args⟩, kernel w.log ⟨nr, args⟩)] := by
  change ((c.code kernel).run w).2.log = _
  rw [hcode]
  exact log_ret _ _

theorem log_long (hcode : c.code kernel = BitVec.toInt <$> (syscall kernel nr args >>= ret)) :
    (c.outcome kernel w).after.log = w.log ++ [(⟨nr, args⟩, kernel w.log ⟨nr, args⟩)] := by
  change ((c.code kernel).run w).2.log = _
  rw [hcode]
  exact log_ret _ _

theorem tableOf_standard
    (hcode : c.code kernel = BitVec.toInt <$> standard (syscall kernel nr args)) :
    tableOf honours t (c.outcome kernel w).after.log =
      served honours (tableOf honours t w.log) ⟨nr, args⟩ (kernel w.log ⟨nr, args⟩) := by
  rw [log_standard hcode, tableOf_append]
  rfl

/-- A call whose requests the table does not depend on. -/
theorem tableOf_idle (hnr : nr ∉ descriptorCalls)
    (hlog : (c.outcome kernel w).after.log = w.log ++ [(⟨nr, args⟩, r)]) :
    tableOf honours t (c.outcome kernel w).after.log = tableOf honours t w.log := by
  rw [hlog, tableOf_append, served_of_notMem hnr]
  rfl

/-- The request with which `openat` sets the flag of the descriptor that it was given. -/
def setfdRequest (fd : BitVec 64) : Request :=
  ⟨SYS_fcntl, [fd, F_SETFD.signExtend 64, FD_CLOEXEC.signExtend 64]⟩

theorem log_openatInner {dirfd flags mode : BitVec 32} {filename : BitVec 64} {q : Request}
    (hcode : c.code kernel = BitVec.toInt <$> openatInner kernel dirfd filename flags mode)
    (hq : q = openatRequest dirfd filename flags mode) :
    (c.outcome kernel w).after.log = w.log ++ (q, kernel w.log q) ::
      if 0 ≤ (kernel w.log q).toInt ∧ flags &&& O_CLOEXEC ≠ 0 then
        [(setfdRequest (kernel w.log q),
          kernel (w.log ++ [(q, kernel w.log q)]) (setfdRequest (kernel w.log q)))]
      else [] := by
  subst hq
  change ((c.code kernel).run w).2.log = _
  rw [hcode, StateT.run_map, run_openatInner]
  refine (log_ret _ _).trans ?_
  split_ifs with hfollow
  · exact List.append_assoc ..
  · rfl

theorem openatRequest_flags (dirfd flags mode : BitVec 32) (filename : BitVec 64) :
    (openatRequest dirfd filename flags mode).arg 2 &&& O_CLOEXEC = flags &&& O_CLOEXEC := by
  have harg : (openatRequest dirfd filename flags mode).arg 2 = flags ||| O_LARGEFILE :=
    setWidth_signExtend _
  have hflag : O_LARGEFILE &&& O_CLOEXEC = 0#32 := by decide
  rw [harg, BitVec.and_or_distrib_right, hflag, BitVec.or_zero]

/-- After an open the descriptor has the flag that was asked for, whether or not
the kernel set it. -/
theorem KeepsTable.openat (h : KeepsTable kernel honours t) {dirfd flags mode : BitVec 32}
    {filename : BitVec 64}
    (hcode : c.code kernel = BitVec.toInt <$> openatInner kernel dirfd filename flags mode) :
    tableOf honours t (c.outcome kernel w).after.log =
      if (c.outcome kernel w).value = -1 then tableOf honours t w.log
      else Function.update (tableOf honours t w.log) (BitVec.ofInt 32 (c.outcome kernel w).value)
        (some (decide (flags &&& O_CLOEXEC ≠ 0))) := by
  obtain ⟨q, hq⟩ : ∃ q, q = openatRequest dirfd filename flags mode := ⟨_, rfl⟩
  have hnr : q.nr = SYS_openat := by rw [hq]; rfl
  have hlog := log_openatInner (w := w) hcode hq
  obtain ⟨r, hret⟩ := byRet_openatInner (w := w) hcode
  obtain rfl : kernel w.log q = r :=
    Option.some.inj ((Outcome.deciding_of_log q _ hlog).symm.trans hret.deciding)
  rw [hlog, tableOf_append]
  have hreply := h.duplicates w.log q (.inl hnr)
  rcases hret.duplicated hreply with ⟨herr, hvalue⟩ | ⟨hok, hvalue, hfd⟩
  · -- an error is negative, so the second request is not made
    have hneg := (isErr_iff _).mp herr
    rw [if_pos hvalue, served_of_isErr (by rw [hnr]; decide) herr, if_neg fun hpos => by omega]
    rfl
  · rw [if_neg hvalue, hfd, served_openat hnr hok, hq, openatRequest_flags, ← hq]
    have hpos : 0 ≤ (kernel w.log q).toInt := by
      rcases hreply with ⟨e, he⟩ | hfd
      · rw [he.isErr] at hok
        cases hok
      · exact hfd.1
    by_cases hflag : flags &&& O_CLOEXEC ≠ 0
    · -- the descriptor is open, so the second request is served
      have hopen : tableOf honours t (w.log ++ [(q, kernel w.log q)])
          ((setfdRequest (kernel w.log q)).arg 0) ≠ none := by
        rw [tableOf_append, served_openat hnr hok]
        exact ne_of_eq_of_ne (Function.update_self ..) (Option.some_ne_none _)
      have hzero := h.setfd_open _ (setfdRequest (kernel w.log q)) rfl (setWidth_signExtend _) hopen
      rw [if_pos ⟨hpos, hflag⟩, hzero]
      change served honours _ (setfdRequest (kernel w.log q)) 0 = _
      have hcmd : (setfdRequest (kernel w.log q)).arg 1 = F_SETFD := setWidth_signExtend _
      have harg : (setfdRequest (kernel w.log q)).arg 2 = FD_CLOEXEC := setWidth_signExtend _
      rw [served_fcntl rfl rfl, servedFcntl, if_pos hcmd, harg]
      change Function.update (Function.update _ _ _) ((kernel w.log q).setWidth 32) _ = _
      rw [Function.update_idem, decide_eq_true hflag]
      rfl
    · rw [if_neg fun hboth => hflag hboth.2, decide_eq_false hflag, Bool.and_false]
      rfl

theorem KeepsTable.dup (h : KeepsTable kernel honours t) (fd : BitVec 32) :
    tableOf honours t ((Call.dup fd).outcome kernel w).after.log =
      ((Call.dup fd).outcome kernel w).view (tableOf honours t w.log) := by
  obtain ⟨q, hq⟩ : ∃ q : Request, q = ⟨SYS_dup, [fd.signExtend 64]⟩ := ⟨_, rfl⟩
  have hnr : q.nr = SYS_dup := by rw [hq]
  have hret : ((Call.dup fd).outcome kernel w).ByRet (kernel w.log q) _ := hq ▸ byRet_standard rfl
  rw [tableOf_standard rfl, ← hq]
  change _ = if ((Call.dup fd).outcome kernel w).value = -1 then _ else Function.update _ _ _
  rcases hret.duplicated (h.duplicates _ q (.inr (.inl hnr))) with
    ⟨herr, hvalue⟩ | ⟨hok, hvalue, hfd⟩
  · rw [if_pos hvalue, served_of_isErr (by rw [hnr]; decide) herr]
  · rw [if_neg hvalue, hfd, served_dup hnr hok]

/-- `dup3`, and `dup2` of another descriptor. -/
theorem KeepsTable.dup3_standard (h : KeepsTable kernel honours t) {old new flags : BitVec 32}
    (hcode : c.code kernel = BitVec.toInt <$> standard (syscall kernel SYS_dup3
      [old.signExtend 64, new.signExtend 64, flags.signExtend 64])) :
    tableOf honours t (c.outcome kernel w).after.log =
      if (c.outcome kernel w).value = -1 then tableOf honours t w.log
      else Function.update (tableOf honours t w.log) new
        (some (decide (flags &&& O_CLOEXEC ≠ 0))) := by
  obtain ⟨q, hq⟩ : ∃ q : Request,
    q = ⟨SYS_dup3, [old.signExtend 64, new.signExtend 64, flags.signExtend 64]⟩ := ⟨_, rfl⟩
  have hnr : q.nr = SYS_dup3 := by rw [hq]
  have hnew : q.arg 1 = new := by rw [hq]; exact setWidth_signExtend new
  have hflags : q.arg 2 = flags := by rw [hq]; exact setWidth_signExtend flags
  have hret : (c.outcome kernel w).ByRet (kernel w.log q) _ := hq ▸ byRet_standard hcode
  rw [tableOf_standard hcode, ← hq]
  rcases hret.duplicated (h.duplicates _ q (.inr (.inr (.inl hnr)))) with
    ⟨herr, hvalue⟩ | ⟨hok, hvalue, -⟩
  · rw [if_pos hvalue, served_of_isErr (by rw [hnr]; decide) herr]
  · rw [if_neg hvalue, served_dup3 hnr hok, hnew, hflags]

theorem log_dup2_self (fd : BitVec 32) : ((Call.dup2 fd fd).outcome kernel w).after.log =
    w.log ++ [(⟨SYS_fcntl, [fd.signExtend 64, F_GETFD]⟩,
      kernel w.log ⟨SYS_fcntl, [fd.signExtend 64, F_GETFD]⟩)] := by
  change (((Call.dup2 fd fd).code kernel).run w).2.log = _
  simp only [Call.code, Sys.dup2, StateT.run_map, StateT.run_bind, if_true, run_syscall]
  change ((if _ then _ else _ : Code (BitVec 32)).run _).2.log = _
  split_ifs
  · rfl
  · exact log_ret _ _

theorem log_close (fd : BitVec 32) : ((Call.close fd).outcome kernel w).after.log =
    w.log ++ [(⟨SYS_close, [fd.signExtend 64]⟩, kernel w.log ⟨SYS_close, [fd.signExtend 64]⟩)] := by
  change (((Call.close fd).code kernel).run w).2.log = _
  simp only [Call.code, Sys.close, syscallCp, StateT.run_map, StateT.run_bind, run_syscall]
  change ((if _ then _ else _ : Code (BitVec 32)).run _).2.log = _
  split_ifs
  · rfl
  · exact log_ret _ _

theorem log_clockNanosleep {clk : BitVec 32} (hclk : clk ≠ CLOCK_THREAD_CPUTIME_ID)
    (flags : BitVec 32) (req rem : BitVec 64) :
    ((Call.clockNanosleep clk flags req rem).outcome kernel w).after.log =
      w.log ++ [(⟨SYS_clock_nanosleep, [clk.signExtend 64, flags.signExtend 64, req, rem]⟩,
        kernel w.log ⟨SYS_clock_nanosleep,
          [clk.signExtend 64, flags.signExtend 64, req, rem]⟩)] := by
  change (((Call.clockNanosleep clk flags req rem).code kernel).run w).2.log = _
  rw [Call.code, Sys.clockNanosleep, if_neg hclk]
  rfl

theorem KeepsTable.dup2 (h : KeepsTable kernel honours t) (old new : BitVec 32) :
    tableOf honours t ((Call.dup2 old new).outcome kernel w).after.log =
      ((Call.dup2 old new).outcome kernel w).view (tableOf honours t w.log) := by
  change _ = if ((Call.dup2 old new).outcome kernel w).value = -1 ∨ old = new then _
    else Function.update _ _ _
  by_cases heq : old = new
  · -- the descriptor is looked up and keeps its flag
    subst heq
    obtain ⟨q, hq⟩ : ∃ q : Request, q = ⟨SYS_fcntl, [old.signExtend 64, F_GETFD]⟩ := ⟨_, rfl⟩
    have hlog : ((Call.dup2 old old).outcome kernel w).after.log =
        w.log ++ [(q, kernel w.log q)] := by
      rw [hq]
      exact log_dup2_self old
    have hcmd : q.arg 1 = 1 := by rw [hq]; rfl
    rw [if_pos (.inr rfl), hlog, tableOf_append, served_fcntl_other (by rw [hq])
      (by rw [hcmd]; decide) (by rw [hcmd]; decide) (by rw [hcmd]; decide)]
    rfl
  · have hcode : (Call.dup2 old new).code kernel = BitVec.toInt <$> standard (syscall kernel
        SYS_dup3 [old.signExtend 64, new.signExtend 64, (0 : BitVec 32).signExtend 64]) := by
      rw [Call.code, Sys.dup2, if_neg heq]
      rfl
    rw [h.dup3_standard hcode]
    simp [heq]

theorem KeepsTable.close_eq (h : KeepsTable kernel honours t) (fd : BitVec 32) :
    tableOf honours t ((Call.close fd).outcome kernel w).after.log =
      Function.update (tableOf honours t w.log) fd none := by
  obtain ⟨q, hq⟩ : ∃ q : Request, q = ⟨SYS_close, [fd.signExtend 64]⟩ := ⟨_, rfl⟩
  have hnr : q.nr = SYS_close := by rw [hq]
  have harg : q.arg 0 = fd := by rw [hq]; exact setWidth_signExtend fd
  have hlog : ((Call.close fd).outcome kernel w).after.log = w.log ++ [(q, kernel w.log q)] := by
    rw [hq]
    exact log_close fd
  rw [hlog, tableOf_append, served_close hnr, harg]
  change (if _ then _ else _) = _
  split_ifs with hbad
  · -- the descriptor was not open
    have hnone := h.close w.log q hnr hbad
    rw [harg] at hnone
    rw [← hnone, Function.update_eq_self]
  · rfl

/-- The argument as `fcntl` passes it. -/
def fcntlArg (cmd : BitVec 32) (arg : BitVec 64) : BitVec 64 :=
  if cmd = F_SETFL then arg ||| O_LARGEFILE.signExtend 64 else arg

variable (kernel) in
theorem fcntl_code (fd cmd : BitVec 32) (arg : BitVec 64) : (Call.fcntl fd cmd arg).code kernel =
    BitVec.toInt <$> standard (syscall kernel SYS_fcntl
      [fd.signExtend 64, cmd.signExtend 64, fcntlArg cmd arg]) := by
  simp only [Call.code, Sys.fcntl, syscallCp, ite_self]
  rfl

theorem KeepsTable.fcntl (h : KeepsTable kernel honours t) (fd cmd : BitVec 32) (arg : BitVec 64) :
    tableOf honours t ((Call.fcntl fd cmd arg).outcome kernel w).after.log =
      ((Call.fcntl fd cmd arg).outcome kernel w).view (tableOf honours t w.log) := by
  have hcode := fcntl_code kernel fd cmd arg
  obtain ⟨q, hq⟩ : ∃ q : Request,
    q = ⟨SYS_fcntl, [fd.signExtend 64, cmd.signExtend 64, fcntlArg cmd arg]⟩ := ⟨_, rfl⟩
  have hnr : q.nr = SYS_fcntl := by rw [hq]
  have hfd : q.arg 0 = fd := by rw [hq]; exact setWidth_signExtend fd
  have hcmd : q.arg 1 = cmd := by rw [hq]; exact setWidth_signExtend cmd
  have hclose : q.nr ≠ SYS_close := by rw [hnr]; decide
  have hret : ((Call.fcntl fd cmd arg).outcome kernel w).ByRet (kernel w.log q) _ :=
    hq ▸ byRet_standard hcode
  rw [tableOf_standard hcode, ← hq]
  change _ = if ((Call.fcntl fd cmd arg).outcome kernel w).value = -1 then _ else
    if cmd = F_SETFD then _ else if cmd = F_DUPFD then _ else if cmd = F_DUPFD_CLOEXEC then _ else _
  by_cases hset : cmd = F_SETFD
  · have harg : q.arg 2 = arg.setWidth 32 := by
      rw [hq, hset]
      rfl
    rcases hret.duplicated ((h.setfd w.log q hnr (hcmd.trans hset)).imp_right fun hzero => by
      rw [hzero]; decide) with ⟨herr, hvalue⟩ | ⟨hok, hvalue, -⟩
    · rw [if_pos hvalue, served_of_isErr hclose herr]
    · rw [if_neg hvalue, if_pos hset, served_fcntl hnr hok, servedFcntl, if_pos (hcmd.trans hset),
        hfd, harg]
  · by_cases hdup : cmd = F_DUPFD ∨ cmd = F_DUPFD_CLOEXEC
    · rcases hret.duplicated (h.duplicates _ q (.inr (.inr (.inr ⟨hnr, hcmd ▸ hdup⟩)))) with
        ⟨herr, hvalue⟩ | ⟨hok, hvalue, hnew⟩
      · rw [if_pos hvalue, served_of_isErr hclose herr]
      · rw [if_neg hvalue, hnew, served_fcntl hnr hok, servedFcntl, hcmd, if_neg hset, if_neg hset]
    · rw [not_or] at hdup
      rw [served_fcntl_other hnr (hcmd ▸ hset) (hcmd ▸ hdup.1) (hcmd ▸ hdup.2), if_neg hset,
        if_neg hdup.1, if_neg hdup.2, ite_self]

/-- The program's conclusion from one call is right. -/
theorem KeepsTable.view (h : KeepsTable kernel honours t) (c : Call) :
    tableOf honours t (c.outcome kernel w).after.log =
      (c.outcome kernel w).view (tableOf honours t w.log) := by
  cases c with
  | «open» filename flags mode => exact h.openat (c := .open filename flags mode) rfl
  | openat dirfd filename flags mode => exact h.openat (c := .openat dirfd filename flags mode) rfl
  | creat filename mode => exact h.openat (c := .creat filename mode) rfl
  | dup fd => exact h.dup fd
  | dup2 old new => exact h.dup2 old new
  | dup3 old new flags => exact h.dup3_standard (c := .dup3 old new flags) rfl
  | close fd => exact h.close_eq fd
  | fcntl fd cmd arg => exact h.fcntl fd cmd arg
  | clockGettime clk ts => exact tableOf_idle (by decide) (log_standard rfl)
  | clockSettime clk ts => exact tableOf_idle (by decide) (log_standard rfl)
  | clockGetres clk ts => exact tableOf_idle (by decide) (log_standard rfl)
  | pause => exact tableOf_idle (by decide) (log_standard rfl)
  | fsync fd => exact tableOf_idle (by decide) (log_standard rfl)
  | fdatasync fd => exact tableOf_idle (by decide) (log_standard rfl)
  | read fd buf count => exact tableOf_idle (by decide) (log_long rfl)
  | write fd buf count => exact tableOf_idle (by decide) (log_long rfl)
  | lseek fd offset whence => exact tableOf_idle (by decide) (log_long rfl)
  | posixFadvise fd base len advice => exact tableOf_idle (by decide) rfl
  | posixFallocate fd base len => exact tableOf_idle (by decide) rfl
  | nanosleep req rem => exact tableOf_idle (by decide) (log_ret _ _)
  | clockNanosleep clk flags req rem =>
      by_cases hclk : clk = CLOCK_THREAD_CPUTIME_ID
      · subst hclk
        rfl
      · exact tableOf_idle (by decide) (log_clockNanosleep hclk flags req rem)

end Calls

/-! ## Sequences of calls -/

/-- The flags with which a call opens a file. -/
def Call.openFlags : Call → Option (BitVec 32)
  | .open _ flags _ => some flags
  | .openat _ _ flags _ => some flags
  | .creat _ _ => some (O_CREAT ||| O_WRONLY ||| O_TRUNC)
  | _ => none

theorem Outcome.view_open {o : Outcome} {flags : BitVec 32} (t : Table)
    (hflags : o.call.openFlags = some flags) (hvalue : o.value ≠ -1) :
    o.view t (BitVec.ofInt 32 o.value) = some (decide (flags &&& O_CLOEXEC ≠ 0)) := by
  rw [view]
  cases hcall : o.call <;> rw [hcall] at hflags <;> cases hflags <;>
    change (if o.value = -1 then t else Function.update t _ _) _ = _ <;>
    rw [if_neg hvalue, Function.update_self]
  rfl

/-- A call that fails changes nothing, except that `close` closes. -/
theorem Outcome.view_failed {o : Outcome} (t : Table) (hvalue : o.value = -1)
    (hclose : o.call.isClose = false) : o.view t = t := by
  rw [view]
  cases hcall : o.call <;> rw [hcall] at hclose <;> simp [hvalue, Call.isClose] at hclose ⊢

theorem Outcome.view_close {o : Outcome} {fd : BitVec 32} (t : Table) (hcall : o.call = .close fd) :
    o.view t fd = none := by
  rw [view, hcall]
  exact Function.update_self ..

/-- **A program can keep track of its descriptors.**  Whatever calls it makes, the
table that it keeps from their results is the kernel's.  After `close` the
descriptor is not open, whatever was returned; any other call that returns `-1`
has left the table as it was; and what was opened has the close-on-exec flag
exactly when `O_CLOEXEC` was asked for. -/
theorem descriptors_tracked {kernel : Kernel} {honours : Bool} {t : Table}
    (h : KeepsTable kernel honours t) (cs : List Call) (w : World) :
    (runCalls kernel cs w).1.foldl (fun t o => o.view t) (tableOf honours t w.log) =
        tableOf honours t (runCalls kernel cs w).2.log ∧
      ∀ o ∈ (runCalls kernel cs w).1,
        (∀ fd, o.call = .close fd → tableOf honours t o.after.log fd = none) ∧
        (o.value = -1 → o.call.isClose = false →
          tableOf honours t o.after.log = tableOf honours t o.before.log) ∧
        ∀ flags, o.call.openFlags = some flags → o.value ≠ -1 →
          tableOf honours t o.after.log (BitVec.ofInt 32 o.value) =
            some (decide (flags &&& O_CLOEXEC ≠ 0)) := by
  induction cs generalizing w with
  | nil => exact ⟨rfl, nofun⟩
  | cons c cs ih =>
      have hview := h.view (w := w) c
      obtain ⟨hfold, hall⟩ := ih (c.outcome kernel w).after
      refine ⟨?_, List.forall_mem_cons.mpr ⟨⟨fun fd hcall => ?_, fun hvalue hclose => ?_,
        fun flags hflags hvalue => ?_⟩, hall⟩⟩
      · rw [hview] at hfold
        exact hfold
      · exact (congrFun hview fd).trans (Outcome.view_close _ hcall)
      · exact hview.trans (Outcome.view_failed _ hvalue hclose)
      · exact (congrFun hview _).trans (Outcome.view_open _ hflags hvalue)

/-- A kernel with nothing open at first, which ignores `O_CLOEXEC` at an open and
knows no way to duplicate a descriptor. -/
def lazyKernel : Kernel := fun log q =>
  if q.nr = SYS_openat then
    if log.length < 2 ^ 31 then BitVec.ofNat 64 log.length else -24
  else if q.nr = SYS_close ∨ q.nr = SYS_fcntl ∧ q.arg 1 = F_SETFD then
    if tableOf false (fun _ => none) log (q.arg 0) = none then -(EBADF.signExtend 64) else 0
  else
    -(EINVAL.signExtend 64)

theorem lazyKernel_keepsTable : KeepsTable lazyKernel false fun _ => none where
  duplicates := by
    intro log q hq
    have hclose : ¬ (q.nr = SYS_close ∨ q.nr = SYS_fcntl ∧ q.arg 1 = F_SETFD) := by
      rcases hq with hnr | hnr | hnr | ⟨hnr, hcmd | hcmd⟩
      · simp [hnr, SYS_openat, SYS_close, SYS_fcntl]
      · simp [hnr, SYS_dup, SYS_close, SYS_fcntl]
      · simp [hnr, SYS_dup3, SYS_close, SYS_fcntl]
      · simp [hnr, hcmd, SYS_close, SYS_fcntl, F_DUPFD, F_SETFD]
      · simp [hnr, hcmd, SYS_close, SYS_fcntl, F_DUPFD_CLOEXEC, F_SETFD]
    rw [lazyKernel, if_neg hclose]
    split_ifs with hnr hlen
    · have hfd : (BitVec.ofNat 64 log.length).toInt = log.length := by
        rw [BitVec.toInt_eq_toNat_cond, BitVec.toNat_ofNat]
        split_ifs <;> omega
      rw [hfd]
      exact .inr ⟨by omega, by exact_mod_cast hlen⟩
    · exact .inl ⟨24, by decide, by decide, by decide⟩
    · exact .inl ⟨22, by decide, by decide, by decide⟩
  setfd := by
    intro log q hnr hcmd
    rw [lazyKernel, if_neg (by rw [hnr]; decide), if_pos (.inr ⟨hnr, hcmd⟩)]
    split_ifs
    · exact .inl ⟨9, by decide, by decide, by decide⟩
    · exact .inr rfl
  setfd_open := by
    intro log q hnr hcmd hopen
    rw [lazyKernel, if_neg (by rw [hnr]; decide), if_pos (.inr ⟨hnr, hcmd⟩), if_neg hopen]
  close := by
    intro log q hnr hreply
    rw [lazyKernel, if_neg (by rw [hnr]; decide), if_pos (.inl hnr)] at hreply
    split_ifs at hreply with hnone
    · exact hnone
    · exact absurd hreply (by decide)

/-- A file that is opened and closed twice. -/
theorem descriptors_tracked_close_twice :
    let run := runCalls lazyKernel [.open 16 O_CLOEXEC 0, .close 0, .close 0] ⟨0, []⟩
    run.1.map Outcome.value = [0, 0, -1] ∧ run.1.foldl (fun t o => o.view t) (fun _ => none) =
      tableOf false (fun _ => none) run.2.log :=
  ⟨by decide +kernel, (descriptors_tracked lazyKernel_keepsTable
    [.open 16 O_CLOEXEC 0, .close 0, .close 0] ⟨0, []⟩).1⟩

end Mytilus.Sys
