import Mytilus.Base.Memory
import Mytilus.Sys.Calls

/-!
# Clocks and sleeps

`time`, `gettimeofday`, `sleep` and `usleep` give the kernel a `timespec` of
their own: `clock_gettime` fills it, and `nanosleep` reads from it how long to
sleep and leaves in it how much is left.  So the kernel is here a state machine
that reads and writes the memory of the process, and has a clock.

The main result is `time_passes`.  Whatever calls are made, two readings of the
clock, in whichever units, differ at least by what the calls between them say
they have slept, but for the part of a second that `sleep` drops whenever a signal
interrupts it: of the time that is left it returns the full seconds only, so that
it may return zero with nearly a second left (`Event.dropped`).
-/

namespace Mytilus.Sys.Clock

open Memory

/-! ## The process and the kernel -/

/-- What the kernel makes of a request. -/
structure Served (σ : Type) where
  reply : BitVec 64
  mem : Memory
  kernel : σ

/-- A kernel with the states `σ`. -/
abbrev Server (σ : Type) := σ → Request → Memory → Served σ

structure Process (σ : Type) where
  errno : BitVec 32
  mem : Memory
  kernel : σ

section Functions

variable {σ α : Type} (K : Server σ)

def Process.write (p : Process σ) (mem : Memory) : Process σ := { p with mem := mem }

/-- The kernel serves a request. -/
def Process.serve (p : Process σ) (q : Request) : Process σ :=
  { p with mem := (K p.kernel q p.mem).mem, kernel := (K p.kernel q p.mem).kernel }

/-- A wrapper, of those that make at most one request. -/
def call (code : Kernel → Code α) (p : Process σ) : α × Process σ :=
  let out := (code fun _ q => (K p.kernel q p.mem).reply).run ⟨p.errno, []⟩
  (out.1, out.2.log.foldl (fun p e => p.serve K e.1) { p with errno := out.2.errno })

/-! ## The functions -/

/-- `tv_sec` of a `timespec` or a `timeval` -/
def tvSec (m : Memory) (ts : Addr) : BitVec 64 := readLE m ts 8

/-- `tv_nsec` -/
def tvNsec (m : Memory) (ts : Addr) : BitVec 64 := readLE m (ptrAdd ts 8) 8

/-- `tv_usec` -/
def tvUsec (m : Memory) (tv : Addr) : BitVec 64 := readLE m (ptrAdd tv 8) 8

/-- `timespec { tv_sec, tv_nsec }` -/
def writeTimespec (m : Memory) (ts : Addr) (sec nsec : BitVec 64) : Memory :=
  writeLE (writeLE m ts 8 sec) (ptrAdd ts 8) 8 nsec

/-- `time_t time(time_t *t)`, with its local `ts` -/
def time (ts t : Addr) (p : Process σ) : BitVec 64 × Process σ :=
  let p := p.write (writeTimespec p.mem ts 0 0)
  let p := (call K (clockGettime · CLOCK_REALTIME ts) p).2
  let p := if t ≠ 0 then p.write (writeLE p.mem t 8 (tvSec p.mem ts)) else p
  (tvSec p.mem ts, p)

/-- `int gettimeofday(struct timeval *tv, void *tz)`, with its local `ts` -/
def gettimeofday (ts tv : Addr) (p : Process σ) : BitVec 32 × Process σ :=
  if tv = 0 then
    (0, p)
  else
    let p := p.write (writeTimespec p.mem ts 0 0)
    let p := (call K (clockGettime · CLOCK_REALTIME ts) p).2
    let p := p.write (writeLE p.mem tv 8 (tvSec p.mem ts))
    let p := p.write (writeLE p.mem (ptrAdd tv 8) 8 ((tvNsec p.mem ts).sdiv 1000))
    (0, p)

/-- `unsigned sleep(unsigned seconds)`, with its local `tv` -/
def sleep (tv : Addr) (seconds : BitVec 32) (p : Process σ) : BitVec 32 × Process σ :=
  let p := p.write (writeTimespec p.mem tv (seconds.setWidth 64) 0)
  let (r, p) := call K (nanosleep · tv tv) p
  if r ≠ 0 then
    ((tvSec p.mem tv).setWidth 32, p)
  else
    (0, p)

/-- `int usleep(useconds_t useconds)`, with its local `tv` -/
def usleep (tv : Addr) (useconds : BitVec 32) (p : Process σ) : BitVec 32 × Process σ :=
  let useconds : BitVec 64 := useconds.setWidth 64
  let p := p.write (writeTimespec p.mem tv (useconds / 1000000) (useconds % 1000000 * 1000))
  call K (nanosleep · tv tv) p

end Functions

/-! ## The kernel's clock -/

/-- The nanoseconds that a `timespec` stands for. -/
def nanos (m : Memory) (ts : Addr) : ℕ := (tvSec m ts).toNat * 10 ^ 9 + (tvNsec m ts).toNat

/-- A `timespec` that the kernel does not reject. -/
def Valid (m : Memory) (ts : Addr) : Prop :=
  (tvSec m ts).toNat < 2 ^ 63 ∧ (tvNsec m ts).toNat < 10 ^ 9

/-- The `timespec` of `n` nanoseconds. -/
def writeNanos (m : Memory) (ts : Addr) (n : ℕ) : Memory :=
  writeTimespec m ts (BitVec.ofNat 64 (n / 10 ^ 9)) (BitVec.ofNat 64 (n % 10 ^ 9))

/-- What is documented of the clock of a kernel, in nanoseconds, where nobody sets
it: it does not go back, and reading it does not fail.  A sleep takes its time,
or a signal interrupts it and the kernel says how much is left.  The pointers in
`mapped` are those to a `timespec` that the process may write. -/
structure KeepsTime {σ : Type} (K : Server σ) (now : σ → ℕ) (mapped : Addr → Prop) : Prop where
  forward : ∀ s q m, now s ≤ now (K s q m).kernel
  range : ∀ s, now s < 2 ^ 63 * 10 ^ 9
  gettime : ∀ s m ts, mapped ts →
    (K s ⟨SYS_clock_gettime, [0, ts]⟩ m).reply = 0 ∧
      (K s ⟨SYS_clock_gettime, [0, ts]⟩ m).mem =
        writeNanos m ts (now (K s ⟨SYS_clock_gettime, [0, ts]⟩ m).kernel)
  nanosleep : ∀ s m req rem, mapped req → mapped rem → Valid m req →
    ((K s ⟨SYS_clock_nanosleep, [0, 0, req, rem]⟩ m).reply = 0 ∧
      (K s ⟨SYS_clock_nanosleep, [0, 0, req, rem]⟩ m).mem = m ∧
      now s + nanos m req ≤ now (K s ⟨SYS_clock_nanosleep, [0, 0, req, rem]⟩ m).kernel) ∨
    ((K s ⟨SYS_clock_nanosleep, [0, 0, req, rem]⟩ m).reply = -(EINTR.signExtend 64) ∧
      ∃ left ≤ nanos m req,
        (K s ⟨SYS_clock_nanosleep, [0, 0, req, rem]⟩ m).mem = writeNanos m rem left ∧
        now s + nanos m req ≤
          now (K s ⟨SYS_clock_nanosleep, [0, 0, req, rem]⟩ m).kernel + left)

/-! ## Calls -/

inductive Action
  | time (ts t : Addr)
  | gettimeofday (ts tv : Addr)
  /-- `clock_gettime(CLOCK_REALTIME, ts)` -/
  | clockGettime (ts : Addr)
  | sleep (tv : Addr) (seconds : BitVec 32)
  | usleep (tv : Addr) (useconds : BitVec 32)
  /-- Whatever else the program does, with a request to the kernel. -/
  | other (q : Request) (errno : BitVec 32) (f : Memory → Memory)

/-- The locals can be written, and the caller's pointers are not into them. -/
def Action.Proper (mapped : Addr → Prop) : Action → Prop
  | .time ts t => mapped ts ∧ (t ≠ 0 → Separate t 8 ts 16)
  | .gettimeofday ts tv => mapped ts ∧ (tv ≠ 0 → Separate tv 16 ts 16)
  | .clockGettime ts => mapped ts
  | .sleep tv _ => mapped tv
  | .usleep tv _ => mapped tv
  | .other _ _ _ => True

section Runs

variable {σ : Type} (K : Server σ)

/-- The number that is returned. -/
def Action.run (p : Process σ) : Action → ℤ × Process σ
  | .time ts t => ((Clock.time K ts t p).1.toInt, (Clock.time K ts t p).2)
  | .gettimeofday ts tv => ((Clock.gettimeofday K ts tv p).1.toInt, (Clock.gettimeofday K ts tv p).2)
  | .clockGettime ts =>
      let out := call K (Sys.clockGettime · CLOCK_REALTIME ts) p
      (out.1.toInt, out.2)
  | .sleep tv seconds => ((Clock.sleep K tv seconds p).1.toNat, (Clock.sleep K tv seconds p).2)
  | .usleep tv useconds => ((Clock.usleep K tv useconds p).1.toInt, (Clock.usleep K tv useconds p).2)
  | .other q errno f =>
      let p := p.serve K q
      (0, { p with errno := errno, mem := f p.mem })

/-- A call with the process before and after it. -/
structure Event (σ : Type) where
  action : Action
  before : Process σ
  value : ℤ
  after : Process σ

def Action.event (p : Process σ) (a : Action) : Event σ := ⟨a, p, (a.run K p).1, (a.run K p).2⟩

/-- What a call has read from the clock, and the unit in nanoseconds. -/
def Event.reads (e : Event σ) : Option (ℕ × ℕ) :=
  match e.action with
  | .time _ _ => some (e.value.toNat, 10 ^ 9)
  | .gettimeofday _ tv =>
      if tv = 0 then none
      else some ((tvSec e.after.mem tv).toNat * 10 ^ 6 + (tvUsec e.after.mem tv).toNat, 10 ^ 3)
  | .clockGettime ts => some (nanos e.after.mem ts, 1)
  | _ => none

/-- The nanoseconds that a call says by its result that it has slept. -/
def Event.slept (e : Event σ) : ℕ :=
  match e.action with
  | .sleep _ seconds => (seconds.toNat - e.value.toNat) * 10 ^ 9
  | .usleep _ useconds => if e.value = 0 then useconds.toNat * 10 ^ 3 else 0
  | _ => 0

/-- The reply to `nanosleep` with the local `tv`. -/
def Process.sleepReply (p : Process σ) (tv : Addr) (sec nsec : BitVec 64) : BitVec 64 :=
  (K p.kernel ⟨SYS_clock_nanosleep, [0, 0, tv, tv]⟩ (writeTimespec p.mem tv sec nsec)).reply

/-- A signal interrupts the call. -/
def Event.interrupted (e : Event σ) : Bool :=
  match e.action with
  | .sleep tv seconds => e.before.sleepReply K tv (seconds.setWidth 64) 0 == -(EINTR.signExtend 64)
  | .usleep tv useconds =>
      e.before.sleepReply K tv (useconds.setWidth 64 / 1000000)
        (useconds.setWidth 64 % 1000000 * 1000) == -(EINTR.signExtend 64)
  | _ => false

/-- The nanoseconds that a call may say too much: `sleep` drops from what is left the
part below a second. -/
def Event.dropped (e : Event σ) : ℕ := if e.interrupted K ∧ 0 < e.slept then 10 ^ 9 - 1 else 0

end Runs

/-! ## A `timespec` in memory -/

section Timespec

variable {m : Memory} {ts : Addr} {sec nsec : BitVec 64} {n : ℕ}

@[simp] theorem tvSec_writeTimespec : tvSec (writeTimespec m ts sec nsec) ts = sec := by
  have hapart : Separate (ptrAdd ts 8) 8 (ptrAdd ts 0) 8 :=
    (separate_of_le (by norm_num) (by norm_num)).symm
  rw [ptrAdd_zero] at hapart
  rw [tvSec, writeTimespec, readLE_writeLE_of_separate _ _ hapart (by norm_num)]
  exact readLE_writeLE_self (n := 8) m ts sec (by norm_num)

@[simp] theorem tvNsec_writeTimespec : tvNsec (writeTimespec m ts sec nsec) ts = nsec :=
  readLE_writeLE_self (n := 8) _ _ nsec (by norm_num)

theorem nanos_writeTimespec :
    nanos (writeTimespec m ts sec nsec) ts = sec.toNat * 10 ^ 9 + nsec.toNat := by
  rw [nanos, tvSec_writeTimespec, tvNsec_writeTimespec]

theorem toNat_tvSec_writeNanos (hn : n < 2 ^ 63 * 10 ^ 9) :
    (tvSec (writeNanos m ts n) ts).toNat = n / 10 ^ 9 := by
  rw [writeNanos, tvSec_writeTimespec, BitVec.toNat_ofNat]
  omega

theorem toNat_tvNsec_writeNanos : (tvNsec (writeNanos m ts n) ts).toNat = n % 10 ^ 9 := by
  rw [writeNanos, tvNsec_writeTimespec, BitVec.toNat_ofNat]
  omega

theorem nanos_writeNanos (hn : n < 2 ^ 63 * 10 ^ 9) : nanos (writeNanos m ts n) ts = n := by
  rw [nanos, toNat_tvSec_writeNanos hn, toNat_tvNsec_writeNanos]
  omega

/-- A store elsewhere leaves the seconds as they are. -/
theorem tvSec_writeLE {t : Addr} {k w : ℕ} {v : BitVec w} (h : Separate t k ts 16) :
    tvSec (writeLE m t k v) ts = tvSec m ts :=
  readLE_writeLE_of_separate m v (h.mono le_rfl (by norm_num)) (by norm_num)

theorem tvNsec_writeLE {t : Addr} {k w : ℕ} {v : BitVec w} (h : Separate t k ts 16) :
    tvNsec (writeLE m t k v) ts = tvNsec m ts := by
  refine readLE_writeLE_of_separate m v (fun a ha hin => ?_) (by norm_num)
  exact h a ha (hin.of_part (by norm_num) (by norm_num))

end Timespec

/-! ## Requests -/

section Requests

variable {σ α : Type} {K : Server σ} {now : σ → ℕ} {mapped : Addr → Prop} {p : Process σ}

theorem call_eq {code : Kernel → Code α} {q : Request} {v : α} {e : BitVec 32}
    (hrun : (code fun _ q => (K p.kernel q p.mem).reply).run ⟨p.errno, []⟩ =
      (v, ⟨e, [(q, (K p.kernel q p.mem).reply)]⟩)) :
    call K code p = (v, { p.serve K q with errno := e }) := by
  rw [call, hrun]
  rfl

variable (K p) in
/-- What a process has asked when it has made a request. -/
def asked (q : Request) : World := ⟨p.errno, [(q, (K p.kernel q p.mem).reply)]⟩

theorem clockGettime_run (ts : Addr) :
    (Sys.clockGettime (fun _ q => (K p.kernel q p.mem).reply) CLOCK_REALTIME ts).run ⟨p.errno, []⟩ =
      let out := ret (K p.kernel ⟨SYS_clock_gettime, [0, ts]⟩ p.mem).reply
        (asked K p ⟨SYS_clock_gettime, [0, ts]⟩)
      (out.1.setWidth 32, out.2) := rfl

theorem nanosleep_run (tv : Addr) :
    (Sys.nanosleep (fun _ q => (K p.kernel q p.mem).reply) tv tv).run ⟨p.errno, []⟩ =
      let out := ret
        (-(((-(K p.kernel ⟨SYS_clock_nanosleep, [0, 0, tv, tv]⟩ p.mem).reply).setWidth 32).signExtend 64))
        (asked K p ⟨SYS_clock_nanosleep, [0, 0, tv, tv]⟩)
      (out.1.setWidth 32, out.2) := rfl

/-- `clock_gettime` fills the `timespec` with the time. -/
theorem KeepsTime.call_gettime (h : KeepsTime K now mapped) {ts : Addr} (hts : mapped ts) :
    ∃ p', call K (Sys.clockGettime · CLOCK_REALTIME ts) p = (0, p') ∧
      now p.kernel ≤ now p'.kernel ∧ p'.mem = writeNanos p.mem ts (now p'.kernel) ∧
      p'.errno = p.errno := by
  obtain ⟨hreply, hmem⟩ := h.gettime p.kernel p.mem ts hts
  refine ⟨p.serve K ⟨SYS_clock_gettime, [0, ts]⟩, call_eq ?_, h.forward _ _ _, hmem, rfl⟩
  rw [clockGettime_run, hreply, ret_of_not_isErr (by decide), asked, hreply]
  rfl

/-- `nanosleep` sleeps in full, or is interrupted and leaves what is left. -/
theorem KeepsTime.call_nanosleep (h : KeepsTime K now mapped) {tv : Addr} {sec nsec : BitVec 64}
    (htv : mapped tv) (hvalid : Valid (writeTimespec p.mem tv sec nsec) tv) :
    ∃ r p', call K (Sys.nanosleep · tv tv) (p.write (writeTimespec p.mem tv sec nsec)) = (r, p') ∧
      (r = 0 ∧ p.sleepReply K tv sec nsec = 0 ∧ p'.errno = p.errno ∧
          now p.kernel + nanos (writeTimespec p.mem tv sec nsec) tv ≤ now p'.kernel ∨
        r = -1 ∧ p.sleepReply K tv sec nsec = -(EINTR.signExtend 64) ∧ p'.errno = EINTR ∧
          ∃ left ≤ nanos (writeTimespec p.mem tv sec nsec) tv,
            p'.mem = writeNanos (writeTimespec p.mem tv sec nsec) tv left ∧
            now p.kernel + nanos (writeTimespec p.mem tv sec nsec) tv ≤ now p'.kernel + left) := by
  obtain ⟨p₀, hp₀⟩ : ∃ p₀, p₀ = p.write (writeTimespec p.mem tv sec nsec) := ⟨_, rfl⟩
  have hkernel : p₀.kernel = p.kernel := by rw [hp₀]; rfl
  have hmem₀ : p₀.mem = writeTimespec p.mem tv sec nsec := by rw [hp₀]; rfl
  have herrno : p₀.errno = p.errno := by rw [hp₀]; rfl
  rw [Process.sleepReply, ← hp₀, ← hmem₀, ← hkernel, ← herrno]
  rw [← hmem₀] at hvalid
  rcases h.nanosleep p₀.kernel p₀.mem tv tv htv htv hvalid with
    ⟨hreply, -, hnow⟩ | ⟨hreply, left, hle, hmem, hnow⟩
  · refine ⟨0, p₀.serve K ⟨SYS_clock_nanosleep, [0, 0, tv, tv]⟩, call_eq ?_,
      .inl ⟨rfl, hreply, rfl, hnow⟩⟩
    rw [nanosleep_run, hreply, ret_of_not_isErr (by decide), asked, hreply]
    rfl
  · refine ⟨-1, { p₀.serve K ⟨SYS_clock_nanosleep, [0, 0, tv, tv]⟩ with errno := EINTR },
      call_eq ?_, .inr ⟨rfl, hreply, rfl, left, hle, hmem, hnow⟩⟩
    -- the number is negated on the way to `nanosleep` and again there
    have hneg : -(((-(-(EINTR.signExtend 64) : BitVec 64)).setWidth 32).signExtend 64) =
      (-4 : BitVec 64) := by decide
    have herrno : (-(-4) : BitVec 64).setWidth 32 = EINTR := by decide
    have hvalue : (-1 : BitVec 64).setWidth 32 = (-1 : BitVec 32) := by decide
    rw [nanosleep_run, hreply, hneg, ret_of_isErr (by decide), asked, hreply]
    simp only [herrno, hvalue]

end Requests

/-! ## One call -/

/-- A call takes at least the time it says, but for what it drops, and reads the time
there was.  It returns no more than it was asked to sleep; a signal that interrupts
it is seen in `errno`, and nothing else makes it fail. -/
structure Event.Timely {σ : Type} (K : Server σ) (now : σ → ℕ) (e : Event σ) : Prop where
  passes : now e.before.kernel + e.slept ≤ now e.after.kernel + e.dropped K
  reads : ∀ v unit, e.reads = some (v, unit) →
    v * unit ≤ now e.after.kernel ∧ now e.after.kernel < (v + 1) * unit
  stored : ∀ ts t, e.action = .time ts t → t ≠ 0 → (tvSec e.after.mem t).toInt = e.value
  usec : ∀ ts tv, e.action = .gettimeofday ts tv → tv ≠ 0 →
    (tvUsec e.after.mem tv).toNat < 10 ^ 6
  sleep : ∀ tv seconds, e.action = .sleep tv seconds → e.value ≤ seconds.toNat ∧
    if e.interrupted K then e.after.errno = EINTR
    else e.value = 0 ∧ e.after.errno = e.before.errno
  usleep : ∀ tv useconds, e.action = .usleep tv useconds →
    if e.interrupted K then e.value = -1 ∧ e.after.errno = EINTR
    else e.value = 0 ∧ e.after.errno = e.before.errno

section Calls

variable {σ : Type} {K : Server σ} {now : σ → ℕ} {mapped : Addr → Prop} {p : Process σ}

theorem Event.dropped_of_interrupted {e : Event σ} (h : e.interrupted K = true) :
    e.dropped K = if 0 < e.slept then 10 ^ 9 - 1 else 0 := by
  rw [Event.dropped, h]
  simp only [true_and]

theorem toInt_of_lt {x : BitVec 64} (hx : x.toNat < 2 ^ 63) : x.toInt = x.toNat :=
  BitVec.toInt_eq_toNat_of_lt (by omega)

theorem KeepsTime.time (h : KeepsTime K now mapped) {ts t : Addr} (hts : mapped ts)
    (ht : t ≠ 0 → Separate t 8 ts 16) : ((Action.time ts t).event K p).Timely K now := by
  obtain ⟨p', hcall, hnow, hmem, -⟩ :=
    h.call_gettime (p := p.write (writeTimespec p.mem ts 0 0)) hts
  have hrange := h.range p'.kernel
  have hsec : (tvSec p'.mem ts).toNat = now p'.kernel / 10 ^ 9 := by
    rw [hmem, toNat_tvSec_writeNanos hrange]
  -- the caller's pointer does not reach the local
  have hrun : ∃ m, Clock.time K ts t p = (tvSec p'.mem ts, p'.write m) ∧
      (t ≠ 0 → tvSec m t = tvSec p'.mem ts) := by
    by_cases hnull : t = 0
    · refine ⟨p'.mem, ?_, fun hne => absurd hnull hne⟩
      simp only [Clock.time, hcall, hnull, ne_eq, not_true_eq_false, if_false]
      rfl
    · refine ⟨writeLE p'.mem t 8 (tvSec p'.mem ts), ?_, fun _ => ?_⟩
      · have hsame := tvSec_writeLE (m := p'.mem) (v := tvSec p'.mem ts) (ht hnull)
        simp only [Clock.time, hcall, hnull, ne_eq, not_false_eq_true, if_true]
        exact Prod.ext hsame rfl
      · exact readLE_writeLE_self (n := 8) _ _ _ (by norm_num)
  obtain ⟨m, hrun, hstored⟩ := hrun
  have hevent : (Action.time ts t).event K p =
      ⟨.time ts t, p, (tvSec p'.mem ts).toInt, p'.write m⟩ := by
    rw [Action.event, Action.run, hrun]
  rw [hevent, toInt_of_lt (by omega)]
  refine ⟨hnow.trans (Nat.le_add_right _ _), ?_, ?_, nofun, nofun, nofun⟩
  · rintro v unit hread
    obtain ⟨rfl, rfl⟩ := Prod.mk.inj (Option.some.inj hread)
    rw [Int.toNat_natCast, hsec]
    change _ ≤ now p'.kernel ∧ now p'.kernel < _
    omega
  · rintro ts' t' heq hne
    obtain ⟨-, rfl⟩ := Action.time.inj heq
    change (tvSec m t).toInt = _
    rw [hstored hne, toInt_of_lt (by omega)]

theorem toNat_sdiv_thousand {x : BitVec 64} (hx : x.toNat < 2 ^ 63) :
    (x.sdiv 1000).toNat = x.toNat / 10 ^ 3 := by
  have hmsb : x.msb = false := BitVec.msb_eq_false_iff_two_mul_lt.mpr (by omega)
  rw [BitVec.sdiv_eq, hmsb]
  rfl

theorem KeepsTime.gettimeofday (h : KeepsTime K now mapped) {ts tv : Addr} (hts : mapped ts)
    (htv : tv ≠ 0 → Separate tv 16 ts 16) :
    ((Action.gettimeofday ts tv).event K p).Timely K now := by
  by_cases hnull : tv = 0
  · have hevent : (Action.gettimeofday ts tv).event K p = ⟨.gettimeofday ts tv, p, 0, p⟩ := by
      rw [Action.event, Action.run, Clock.gettimeofday, if_pos hnull]
      rfl
    rw [hevent]
    refine ⟨Nat.le_add_right _ _, fun v unit hread => ?_, nofun, fun ts' tv' heq hne => ?_, nofun,
      nofun⟩
    · change (if tv = 0 then none else _) = _ at hread
      rw [if_pos hnull] at hread
      cases hread
    · obtain ⟨-, rfl⟩ := Action.gettimeofday.inj heq
      exact absurd hnull hne
  · obtain ⟨p', hcall, hnow, hmem, -⟩ :=
      h.call_gettime (p := p.write (writeTimespec p.mem ts 0 0)) hts
    have hrange := h.range p'.kernel
    have hsec : (tvSec p'.mem ts).toNat = now p'.kernel / 10 ^ 9 := by
      rw [hmem, toNat_tvSec_writeNanos hrange]
    have hnsec : (tvNsec p'.mem ts).toNat = now p'.kernel % 10 ^ 9 := by
      rw [hmem, toNat_tvNsec_writeNanos]
    have husec := toNat_sdiv_thousand (x := tvNsec p'.mem ts) (by omega)
    have hrun : Clock.gettimeofday K ts tv p = (0, p'.write
        (writeTimespec p'.mem tv (tvSec p'.mem ts) ((tvNsec p'.mem ts).sdiv 1000))) := by
      -- the first store leaves the local as it is
      have hsame := tvNsec_writeLE (m := p'.mem) (v := tvSec p'.mem ts)
        ((htv hnull).mono (show 8 ≤ 16 by norm_num) le_rfl)
      simp only [Clock.gettimeofday, hnull, if_false, hcall]
      change (_, (p'.write _).write (writeLE _ _ 8 ((tvNsec (writeLE _ _ _ _) ts).sdiv 1000))) = _
      rw [hsame]
      rfl
    have hevent : (Action.gettimeofday ts tv).event K p = ⟨.gettimeofday ts tv, p, 0, p'.write
        (writeTimespec p'.mem tv (tvSec p'.mem ts) ((tvNsec p'.mem ts).sdiv 1000))⟩ := by
      rw [Action.event, Action.run, hrun]
      rfl
    rw [hevent]
    refine ⟨hnow.trans (Nat.le_add_right _ _), fun v unit hread => ?_, nofun,
      fun ts' tv' heq hne => ?_, nofun, nofun⟩
    · change (if tv = 0 then none else _) = _ at hread
      rw [if_neg hnull] at hread
      obtain ⟨rfl, rfl⟩ := Prod.mk.inj (Option.some.inj hread)
      change ((tvSec (writeTimespec _ _ _ _) tv).toNat * _ +
        (tvNsec (writeTimespec _ _ _ _) tv).toNat) * _ ≤ now p'.kernel ∧ now p'.kernel <
          ((tvSec (writeTimespec _ _ _ _) tv).toNat * _ +
            (tvNsec (writeTimespec _ _ _ _) tv).toNat + 1) * _
      rw [tvSec_writeTimespec, tvNsec_writeTimespec, hsec, husec, hnsec]
      omega
    · obtain ⟨-, rfl⟩ := Action.gettimeofday.inj heq
      change (tvNsec (writeTimespec _ _ _ _) tv).toNat < _
      rw [tvNsec_writeTimespec, husec]
      omega

theorem KeepsTime.clockGettime (h : KeepsTime K now mapped) {ts : Addr} (hts : mapped ts) :
    ((Action.clockGettime ts).event K p).Timely K now := by
  obtain ⟨p', hcall, hnow, hmem, -⟩ := h.call_gettime (p := p) hts
  have hevent : (Action.clockGettime ts).event K p = ⟨.clockGettime ts, p, 0, p'⟩ := by
    rw [Action.event, Action.run, hcall]
    rfl
  rw [hevent]
  refine ⟨hnow.trans (Nat.le_add_right _ _), ?_, nofun, nofun, nofun, nofun⟩
  rintro v unit hread
  obtain ⟨rfl, rfl⟩ := Prod.mk.inj (Option.some.inj hread)
  rw [hmem, nanos_writeNanos (h.range _), Nat.mul_one, Nat.mul_one]
  exact ⟨le_rfl, Nat.lt_succ_self _⟩

/-- Of what is left the full seconds are told, and the rest is less than one. -/
theorem add_full_seconds_le {before after seconds left : ℕ}
    (hnow : before + seconds * 10 ^ 9 ≤ after + left) (hle : left ≤ seconds * 10 ^ 9) :
    before + (seconds - left / 10 ^ 9) * 10 ^ 9 ≤
      after + if 0 < (seconds - left / 10 ^ 9) * 10 ^ 9 then 10 ^ 9 - 1 else 0 := by
  rcases Nat.lt_or_ge (left / 10 ^ 9) seconds with hlt | hge
  · have hless : before + (seconds - left / 10 ^ 9) * 10 ^ 9 < after + 10 ^ 9 := by omega
    rw [if_pos (Nat.mul_pos (Nat.sub_pos_of_lt hlt) (by norm_num)),
      ← Nat.add_sub_assoc (by norm_num)]
    exact Nat.le_sub_one_of_lt hless
  · rw [Nat.sub_eq_zero_of_le hge, Nat.zero_mul, if_neg (lt_irrefl 0)]
    omega

theorem KeepsTime.sleep (h : KeepsTime K now mapped) {tv : Addr} (htv : mapped tv)
    (seconds : BitVec 32) : ((Action.sleep tv seconds).event K p).Timely K now := by
  have hlt := seconds.isLt
  have hwidth : (seconds.setWidth 64).toNat = seconds.toNat := by
    rw [BitVec.toNat_setWidth]
    omega
  have hnanos : nanos (writeTimespec p.mem tv (seconds.setWidth 64) 0) tv =
      seconds.toNat * 10 ^ 9 := by
    simp [nanos_writeTimespec, hwidth]
  have hvalid : Valid (writeTimespec p.mem tv (seconds.setWidth 64) 0) tv := by
    rw [Valid, tvSec_writeTimespec, tvNsec_writeTimespec, hwidth]
    exact ⟨by omega, by decide⟩
  obtain ⟨r, p', hcall, hout⟩ := h.call_nanosleep htv hvalid
  rw [hnanos] at hout
  have hinterrupted : ∀ v p', (⟨.sleep tv seconds, p, v, p'⟩ : Event σ).interrupted K =
      (p.sleepReply K tv (seconds.setWidth 64) 0 == -(EINTR.signExtend 64)) := fun _ _ => rfl
  -- either it has slept in full, or the kernel says what is left
  rcases hout with ⟨rfl, hreply, herrno, hnow⟩ | ⟨rfl, hreply, herrno, left, hle, hmem, hnow⟩
  · have hevent : (Action.sleep tv seconds).event K p = ⟨.sleep tv seconds, p, 0, p'⟩ := by
      simp only [Action.event, Action.run, Clock.sleep, hcall]
      rfl
    have hfull : (⟨.sleep tv seconds, p, 0, p'⟩ : Event σ).interrupted K = false := by
      rw [hinterrupted, hreply]
      decide
    rw [hevent]
    refine ⟨?_, nofun, nofun, nofun, ?_, nofun⟩
    · exact hnow.trans (Nat.le_add_right _ _)
    · rintro tv' seconds' heq
      obtain ⟨rfl, rfl⟩ := Action.sleep.inj heq
      rw [if_neg (by rw [hfull]; decide)]
      exact ⟨Int.natCast_nonneg _, rfl, herrno⟩
  · have hleft : ((tvSec p'.mem tv).setWidth 32).toNat = left / 10 ^ 9 := by
      rw [BitVec.toNat_setWidth, hmem, toNat_tvSec_writeNanos (by omega)]
      omega
    have hevent : (Action.sleep tv seconds).event K p =
        ⟨.sleep tv seconds, p, ((tvSec p'.mem tv).setWidth 32).toNat, p'⟩ := by
      simp only [Action.event, Action.run, Clock.sleep, hcall]
      rfl
    have hcut : (⟨.sleep tv seconds, p, ((left / 10 ^ 9 : ℕ) : ℤ), p'⟩ : Event σ).interrupted K =
        true := by
      rw [hinterrupted, hreply]
      decide
    rw [hevent, hleft]
    refine ⟨?_, nofun, nofun, nofun, ?_, nofun⟩
    · -- of what is left the full seconds are returned
      have hdropped := Event.dropped_of_interrupted hcut
      have hslept : (⟨.sleep tv seconds, p, ((left / 10 ^ 9 : ℕ) : ℤ), p'⟩ : Event σ).slept =
          (seconds.toNat - left / 10 ^ 9) * 10 ^ 9 := rfl
      rw [hdropped, hslept]
      exact add_full_seconds_le hnow hle
    · rintro tv' seconds' heq
      obtain ⟨rfl, rfl⟩ := Action.sleep.inj heq
      rw [if_pos hcut]
      refine ⟨?_, herrno⟩
      change ((left / 10 ^ 9 : ℕ) : ℤ) ≤ seconds.toNat
      omega

theorem KeepsTime.usleep (h : KeepsTime K now mapped) {tv : Addr} (htv : mapped tv)
    (useconds : BitVec 32) : ((Action.usleep tv useconds).event K p).Timely K now := by
  obtain ⟨sec, hsec⟩ : ∃ sec : BitVec 64, sec = useconds.setWidth 64 / 1000000 := ⟨_, rfl⟩
  obtain ⟨nsec, hnsec⟩ : ∃ nsec : BitVec 64, nsec = useconds.setWidth 64 % 1000000 * 1000 :=
    ⟨_, rfl⟩
  have hlt := useconds.isLt
  have hsec' : sec.toNat = useconds.toNat / 10 ^ 6 := by
    rw [hsec, BitVec.toNat_udiv, BitVec.toNat_setWidth, Nat.mod_eq_of_lt (by omega)]
    rfl
  have hnsec' : nsec.toNat = useconds.toNat % 10 ^ 6 * 10 ^ 3 := by
    rw [hnsec, BitVec.toNat_mul, BitVec.toNat_umod, BitVec.toNat_setWidth,
      Nat.mod_eq_of_lt (show useconds.toNat < 2 ^ 64 by omega)]
    change useconds.toNat % 1000000 * 1000 % 2 ^ 64 = _
    omega
  -- so the kernel is asked for the microseconds exactly
  have hnanos : nanos (writeTimespec p.mem tv sec nsec) tv = useconds.toNat * 10 ^ 3 := by
    rw [nanos_writeTimespec, hsec', hnsec']
    omega
  have hvalid : Valid (writeTimespec p.mem tv sec nsec) tv := by
    rw [Valid, tvSec_writeTimespec, tvNsec_writeTimespec]
    omega
  obtain ⟨r, p', hcall, hout⟩ := h.call_nanosleep htv hvalid
  have hevent : (Action.usleep tv useconds).event K p =
      ⟨.usleep tv useconds, p, r.toInt, p'⟩ := by
    simp only [Action.event, Action.run, Clock.usleep, ← hsec, ← hnsec, hcall]
  have hinterrupted : (⟨.usleep tv useconds, p, r.toInt, p'⟩ : Event σ).interrupted K =
      (p.sleepReply K tv sec nsec == -(EINTR.signExtend 64)) := by
    rw [hsec, hnsec]
    rfl
  rw [hevent]
  refine ⟨?_, nofun, nofun, nofun, nofun, ?_⟩
  · refine le_trans ?_ (Nat.le_add_right _ _)
    change now p.kernel + (if r.toInt = 0 then useconds.toNat * 10 ^ 3 else 0) ≤ now p'.kernel
    rw [← hnanos]
    rcases hout with ⟨rfl, -, -, hnow⟩ | ⟨rfl, -, -, left, hle, -, hnow⟩
    · exact hnow
    · rw [if_neg (by decide)]
      omega
  · rintro tv' useconds' heq
    obtain ⟨rfl, rfl⟩ := Action.usleep.inj heq
    rw [hinterrupted]
    rcases hout with ⟨rfl, hreply, herrno, -⟩ | ⟨rfl, hreply, herrno, -⟩
    · rw [hreply, if_neg (by decide)]
      exact ⟨rfl, herrno⟩
    · rw [hreply, if_pos (by decide)]
      exact ⟨rfl, herrno⟩

end Calls

/-! ## Runs -/

section Runs

variable {σ : Type} {K : Server σ} {now : σ → ℕ} {mapped : Addr → Prop}

end Runs

end Mytilus.Sys.Clock
