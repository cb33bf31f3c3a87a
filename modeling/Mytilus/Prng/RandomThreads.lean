import Mytilus.Base.SpinLock
import Mytilus.Prng.RandomRuns

/-!
# `random` and its companions in several threads

`RANDOM_LOCK` is taken before the first access to shared data and released after
the last, on every path of the four functions (`guarded_random` and the three beside
it, by following their code).  `initstate` on fewer than eight bytes takes no lock,
and does nothing.

So `Mytilus.Base.SpinLock` applies to them, and `threads_one_at_a_time` says what
that gives for the code: in any number of threads and under every schedule, at most
one thread touches shared data, the replies and the state are those of the calls
executed one at a time in the order in which they took the lock, and through
`Sim.runCalls` they are those of the bank of generators: no buffer is discarded, and
no value is lost or returned twice.

`threads_one_at_a_time_two` runs two threads to their replies, the second spinning
while the first is inside; `exists_random` supplies the value of each call, and
`Run.leave` and `Run.complete` the steps.
-/

namespace Mytilus.Prng.Random

open Memory SpinLock

/-- `RANDOM_LOCK`: taking it is a `compare_exchange(0, 1)` that succeeds. -/
def randomLock : Lock exec where
  acquire := .lock
  release := .unlock
  Free := fun s => s.lock = 0
  release_ne_acquire := nofun
  free_of_acquire := by
    intro s r s' h
    by_contra hheld
    rw [exec, if_neg hheld] at h
    cases h
  not_free_after_acquire := by
    intro s r s' h
    rw [exec] at h
    split_ifs at h
    cases h
    exact (by decide : (1 : BitVec 32) ≠ 0)
  free_after_release := by
    intro s r s' h
    cases h
    rfl
  free_iff_of_other := by
    intro o hacquire hrelease s r s' h
    cases o with
    | lock => exact absurd rfl hacquire
    | unlock => exact absurd rfl hrelease
    | load v | loadX | storeX p | loadWord p | storeWord p w =>
        cases h
        exact Iff.rfl
    | store v c =>
        cases h
        cases v <;> exact Iff.rfl

/-! ## The sections -/

section Sections

variable (table : Addr)

theorem plain_load (v : Var) : Plain randomLock (load v) := plain_perform nofun nofun

theorem plain_store (v : Var) (c : BitVec 32) : Plain randomLock (store v c) :=
  plain_perform nofun nofun

theorem plain_loadX : Plain randomLock loadX := plain_perform nofun nofun

theorem plain_storeX (p : Addr) : Plain randomLock (storeX p) := plain_perform nofun nofun

theorem plain_loadWord (p : Addr) : Plain randomLock (loadWord p) := plain_perform nofun nofun

theorem plain_storeWord (p : Addr) (w : BitVec 32) : Plain randomLock (storeWord p w) :=
  plain_perform nofun nofun

theorem plain_pure {α : Type} (a : α) : Plain randomLock (pure a : Code α) := trivial

theorem plain_ite {α : Type} {c : Prop} [Decidable c] {p q : Code α} (hp : Plain randomLock p)
    (hq : Plain randomLock q) : Plain randomLock (if c then p else q) := by
  split_ifs
  · exact hp
  · exact hq

theorem plain_xPtr : Plain randomLock (xPtr table) :=
  plain_loadX.bind fun _ => plain_ite (plain_pure _) ((plain_storeX _).bind fun _ => plain_pure _)

theorem plain_savestate : Plain randomLock (savestate table) :=
  (plain_xPtr table).bind fun _ => (plain_load .n).bind fun _ => (plain_load .i).bind fun _ =>
    (plain_load .j).bind fun _ => (plain_storeWord _ _).bind fun _ => plain_pure _

theorem plain_loadstate (state : Addr) : Plain randomLock (loadstate state) :=
  (plain_storeX _).bind fun _ => (plain_loadWord _).bind fun _ => (plain_store _ _).bind fun _ =>
    (plain_store _ _).bind fun _ => plain_store _ _

theorem plain_seedLoop (x : Addr) (r k : ℕ) (s : BitVec 64) :
    Plain randomLock (seedLoop x r k s) := by
  induction r generalizing k s with
  | zero => exact plain_pure ()
  | succ r ih => exact (plain_storeWord _ _).bind fun _ => ih _ _

theorem plain_srandomLocked (seed : BitVec 32) : Plain randomLock (srandomLocked table seed) := by
  refine (plain_xPtr table).bind fun x => (plain_load .n).bind fun n => plain_ite
    (plain_storeWord _ _) ?_
  refine (plain_load .n).bind fun n => Plain.bind ?_ fun three => ?_
  · exact plain_ite (plain_pure _) ((plain_load .n).bind fun _ => plain_pure _)
  · exact (plain_store _ _).bind fun _ => (plain_store _ _).bind fun _ =>
      (plain_load .n).bind fun _ => (plain_seedLoop _ _ _ _).bind fun _ =>
        (plain_loadWord _).bind fun _ => plain_storeWord _ _

theorem guarded_srandom (seed : BitVec 32) : Guarded randomLock (srandom table seed) :=
  guarded_acquire (L := randomLock) fun _ =>
    .of_plain (plain_srandomLocked table seed) fun _ => inside_release (L := randomLock) fun _ => ()

theorem guarded_random : Guarded randomLock (random table) := by
  refine guarded_acquire (L := randomLock) fun _ => .of_plain (plain_xPtr table) fun x =>
    .of_plain (plain_load .n) fun n => .of_plain ?_ fun k =>
      inside_release (L := randomLock) fun _ => k
  refine plain_ite ?_ ?_
  · exact (plain_loadWord _).bind fun _ => (plain_storeWord _ _).bind fun _ => plain_pure _
  · exact (plain_load .i).bind fun _ => (plain_load .j).bind fun _ => (plain_load .n).bind fun _ =>
      (plain_loadWord _).bind fun _ => (plain_loadWord _).bind fun _ =>
        (plain_storeWord _ _).bind fun _ => (plain_store _ _).bind fun _ =>
          (plain_store _ _).bind fun _ => plain_pure _

theorem guarded_initstate (seed : BitVec 32) (state : Addr) (size : BitVec 64) :
    Guarded randomLock (initstate table seed state size) := by
  rw [initstate]
  split_ifs with hsize
  · trivial
  · exact guarded_acquire (L := randomLock) fun _ => .of_plain (plain_savestate table) fun old =>
      .of_plain (plain_store _ _) fun _ => .of_plain (plain_storeX _) fun _ =>
        .of_plain (plain_srandomLocked table seed) fun _ => .of_plain (plain_savestate table) fun _ =>
          inside_release (L := randomLock) fun _ => old

theorem guarded_setstate (state : Addr) : Guarded randomLock (setstate table state) :=
  guarded_acquire (L := randomLock) fun _ => .of_plain (plain_savestate table) fun old =>
    .of_plain (plain_loadstate state) fun _ => inside_release (L := randomLock) fun _ => old

/-- Every call holds the lock around all its accesses, or makes none. -/
theorem guarded_call (c : Call) : Guarded randomLock (c.code table) := by
  cases c with
  | random => exact (guarded_random table).map Reply.long
  | srandom seed => exact (guarded_srandom table seed).map fun _ => Reply.void
  | initstate seed state size => exact (guarded_initstate table seed state size).map Reply.ptr
  | setstate state => exact (guarded_setstate table state).map Reply.ptr

end Sections

/-! ## Any number of threads -/

/-- Does the call take the lock? -/
def Call.locks : Call → Bool
  | .initstate _ _ size => decide (8 ≤ size)
  | _ => true

theorem locks_eq (table : Addr) (c : Call) : SpinLock.locks (Call.code table) c = c.locks := by
  cases c with
  | random | srandom seed | setstate state => rfl
  | initstate seed state size =>
      rw [Call.locks, SpinLock.locks, Call.code]
      by_cases hsize : size < 8
      · have hsmall : ¬ 8 ≤ size := BitVec.not_le.mpr hsize
        rw [initstate_small hsize, decide_eq_false hsmall]
        rfl
      · rw [initstate, if_neg hsize, decide_eq_true (BitVec.not_lt.mp hsize)]
        rfl

/-- A call that takes no lock returns null. -/
theorem null_of_not_locks {table : Addr} {c : Call} {r : Reply} (hlocks : c.locks = false)
    (hcode : c.code table = .ret r) : r = .ptr 0 := by
  cases c with
  | random | srandom seed | setstate state => cases hlocks
  | initstate seed state size =>
      have hsize : size < 8 := BitVec.not_le.mp (of_decide_eq_false hlocks)
      rw [Call.code, initstate_small hsize] at hcode
      cases hcode
      rfl

theorem sequential_eq (table : Addr) (cs : List Call) (s : Store) :
    sequential exec (Call.code table) cs s = runCalls table cs s := by
  induction cs generalizing s with
  | nil => rfl
  | cons c cs ih =>
      rw [sequential, runCalls, outcome]
      cases hrun : (c.code table).run exec s with
      | none => rfl
      | some x =>
          simp only [Option.map_some, Option.bind_eq_bind, Option.bind_some, ih]

/-- The states of threads `ι` in the middle of calls. -/
abbrev Threads (ι : Type) := Config ι Op Op.Reply Store Reply Call

/-- The calls `past`, executed one at a time from `s₀`, account for what the
threads have seen so far. -/
structure OneAtATime {ι : Type} [DecidableEq ι] (table : Addr) (s₀ : Store) (C : Threads ι)
    (past : List (ι × Call)) (rs : List Reply) (s : Store) : Prop where
  exclusive : ∀ i j, C.inside i = true → C.inside j = true → i = j
  unlocked_iff : C.store.lock = 0 ↔ ∀ i, C.inside i = false
  runs : runCalls table (past.map Prod.snd) s₀ = some (rs, s)
  /-- `past` are the calls that took the lock, in that order, but for one that is
  still inside; what is left of that one does what the whole call does from `s`. -/
  order :
    ((∀ i, C.inside i = false) ∧ C.order = past ∧ C.store = s) ∨
    ∃ i c p, C.inside i = true ∧ C.order = past ++ [(i, c)] ∧ C.current i = some (c, p) ∧
      outcome exec p C.store = outcome exec (c.code table) s
  /-- The replies to each thread. -/
  answers : ∀ i, replies i past rs = (C.answers i).filter fun x => x.1.locks
  null : ∀ i, ∀ x ∈ C.answers i, x.1.locks = false → x.2 = .ptr 0
  /-- The calls without the lock fit in anywhere. -/
  anywhere : ∀ calls : List (ι × Call), (calls.filter fun x => x.2.locks) = past →
    (∀ i, (calls.filter fun x => x.1 = i).map Prod.snd = (C.answers i).map Prod.fst) →
    ∃ rs', runCalls table (calls.map Prod.snd) s₀ = some (rs', s) ∧
      ∀ i, replies i calls rs' = C.answers i
  /-- No installed buffer is discarded, and no value is lost or returned twice. -/
  generators : ∀ b : Bank, Sim table s₀ b → b.Allowed (past.map Prod.snd) →
    rs = (b.calls (past.map Prod.snd)).1 ∧ Sim table s (b.calls (past.map Prod.snd)).2

/-- **The four functions are atomic in any number of threads.**  Whatever the
threads call and however their accesses to shared data interleave, at most one
is between taking and releasing the lock, the lock word is zero exactly when none
is, and the replies and the state are those of the calls executed one at a time,
in the order in which they took the lock. -/
theorem threads_one_at_a_time {ι : Type} [DecidableEq ι] {table : Addr} {s₀ : Store}
    (hlock : s₀.lock = 0) {programs : Programs ι Reply Call} {C : Threads ι}
    (hrun : Run randomLock (Call.code table) programs (.initial s₀) C) :
    ∃ past rs s, OneAtATime table s₀ C past rs s := by
  obtain ⟨past, rs, s, h⟩ := hrun.linearized (guarded_call table) hlock
  have hruns := h.runs
  rw [sequential_eq] at hruns
  -- `past` are the calls that have released the lock
  refine ⟨past, rs, s,
    { exclusive := fun i j => h.exclusive
      unlocked_iff := h.free_iff
      runs := hruns
      order := ?_
      answers := fun i => ?_
      null := fun i x hx hlocks => ?_
      anywhere := fun calls hpast hcalls => ?_
      generators := fun b hb hallowed => ?_ }⟩
  · rcases h.cases with ⟨horder, hstore, hnone⟩ | ⟨i, c, p, horder, -, hcurrent, -, honly, -, hrest⟩
    · exact .inl ⟨hnone, horder, hstore⟩
    · exact .inr ⟨i, c, p, (honly i).mpr rfl, horder, hcurrent, hrest⟩
  · simpa only [locks_eq] using h.replies_eq i
  · refine null_of_not_locks hlocks (h.unlocked i x hx ?_)
    rwa [locks_eq]
  · obtain ⟨rs', hall, hreplies⟩ := h.answers_eq (by simpa only [locks_eq] using hpast) hcalls
    rw [sequential_eq] at hall
    exact ⟨rs', hall, hreplies⟩
  · -- the code and the bank run the same calls, so they reply alike
    obtain ⟨s', hbank, hsim⟩ := hb.runCalls hallowed
    rw [hruns] at hbank
    cases hbank
    exact ⟨rfl, hsim⟩

/-- Each thread calls `random` once. -/
def randomOnce : Programs Bool Reply Call := fun _ history =>
  if history = [] then some .random else none

theorem exists_random {s : Store} {b : Bank} (hsim : Sim 0x1000 s b) :
    ∃ v s', outcome exec (Call.random.code 0x1000) s = some (.long v, s') ∧
      ∃ b', Sim 0x1000 s' b' := by
  obtain ⟨r, s', log, hrun, ⟨rfl, hsim'⟩, -⟩ :=
    Prog.runs_iff.mp (hsim.does_call (c := .random) trivial)
  exact ⟨_, s', by rw [outcome, hrun]; rfl, _, hsim'⟩

/-- Two threads: the second tries to take the lock while the first is inside, and
takes it when the first has left.  Both have their values, the second the one that
follows. -/
theorem threads_one_at_a_time_two :
    ∃ (C : Threads Bool) (v₁ v₂ : BitVec 64) (s : Store),
      Run randomLock (Call.code 0x1000) randomOnce (.initial (start (image 0x1000))) C ∧
      C.answers false = [(.random, .long v₁)] ∧ C.answers true = [(.random, .long v₂)] ∧
      OneAtATime 0x1000 (start (image 0x1000)) C [(false, .random), (true, .random)]
        [.long v₁, .long v₂] s := by
  obtain ⟨v₁, s₁, hrun₁, b₁, hsim₁⟩ := exists_random (sim_start (loaded_image 0x1000 (by decide)))
  obtain ⟨v₂, s₂, hrun₂, -⟩ := exists_random hsim₁
  -- both are called, the first takes the lock, and the second waits
  have hwaits : Run randomLock (Call.code 0x1000) randomOnce (.initial (start (image 0x1000))) _ :=
    (((Relation.ReflTransGen.refl.tail (.invoke (i := false) rfl rfl)).tail
      (.invoke (i := true) rfl rfl)).tail (.acquire (i := false) rfl rfl)).tail
        (.spin (i := true) rfl rfl)
  have hguarded : Guarded randomLock (Call.random.code 0x1000) := guarded_call 0x1000 .random
  have hfirst := (hwaits.trans (Run.leave (i := false) (hguarded.2 ()) rfl hrun₁)).tail
    (.finish (i := false) rfl)
  have hsecond := hfirst.trans (Run.complete (i := true) hguarded (locks_eq 0x1000 .random) rfl hrun₂)
  obtain ⟨past, rs, s, h⟩ := threads_one_at_a_time rfl hsecond
  rcases h.order with ⟨-, rfl, -⟩ | ⟨i, -, -, hi, -⟩
  · have hruns : runCalls 0x1000 [.random, .random] (start (image 0x1000)) =
        some ([.long v₁, .long v₂], s₂) := by
      rw [← sequential_eq, sequential_cons hrun₁, sequential_cons hrun₂]
      rfl
    obtain ⟨rfl, rfl⟩ := Prod.mk.inj (Option.some.inj (h.runs.symm.trans hruns))
    exact ⟨_, v₁, v₂, s, hsecond, rfl, rfl, h⟩
  · cases i <;> cases hi

end Mytilus.Prng.Random
