import Mytilus.Signal.Sigset

/-!
# Signal sets over whole runs

A `SignalSet` is a set of the signals 1 to 64 without the three reserved ones.
The operations on `sigset_t` are the operations on these sets: in a run that
initialises each set before it reads it, every set holds at every point exactly
the signals that the insertions, deletions, unions and intersections of the run
put there (`run_tracks`), whichever of its arguments are the same set.

`exec_tracks` is one call, and `run_tracks` the induction over a run.  `sigset_run`
says what that comes to for the program, in the answers of `sigismember` and
`sigisemptyset`; the words after the first are never written.
-/

namespace Mytilus.Signal

open BitSet

/-! ## The sets a run computes -/

/-- The signals a set may have. -/
def usable : Set ℤ := Set.Icc 1 64 \ Set.Icc 32 34

@[ext] structure SignalSet where
  members : Set ℤ
  usable : members ⊆ Signal.usable

namespace SignalSet

def empty : SignalSet := ⟨∅, Set.empty_subset _⟩

def full : SignalSet := ⟨Signal.usable, subset_rfl⟩

def insert (k : ℤ) (hk : k ∈ Signal.usable) (A : SignalSet) : SignalSet :=
  ⟨Insert.insert k A.members, Set.insert_subset hk A.usable⟩

def erase (k : ℤ) (A : SignalSet) : SignalSet :=
  ⟨A.members \ {k}, Set.sdiff_subset.trans A.usable⟩

def union (A B : SignalSet) : SignalSet := ⟨A.members ∪ B.members, Set.union_subset A.usable B.usable⟩

def inter (A B : SignalSet) : SignalSet :=
  ⟨A.members ∩ B.members, Set.inter_subset_left.trans A.usable⟩

end SignalSet

/-- A call that changes a set. -/
inductive Op (ι : Type)
  | sigemptyset (set : ι)
  | sigfillset (set : ι)
  | sigaddset (set : ι) (sig : CInt)
  | sigdelset (set : ι) (sig : CInt)
  | sigorset (dest left right : ι)
  | sigandset (dest left right : ι)

variable {ι : Type} [DecidableEq ι]

namespace Op

/-- The set a call writes. -/
def dest : Op ι → ι
  | .sigemptyset set | .sigfillset set | .sigaddset set _ | .sigdelset set _ => set
  | .sigorset dest _ _ | .sigandset dest _ _ => dest

/-- The sets a call reads. -/
def operands : Op ι → List ι
  | .sigemptyset _ | .sigfillset _ => []
  | .sigaddset set _ | .sigdelset set _ => [set]
  | .sigorset _ left right | .sigandset _ left right => [left, right]

/-- No signal number that the arithmetic has no room for. -/
def Proper : Op ι → Prop
  | .sigaddset _ sig | .sigdelset _ sig => sig ≠ BitVec.intMin 32
  | _ => True

def exec (overflowChecks : Bool) : Op ι → Code ι CInt
  | .sigemptyset set => Signal.sigemptyset set
  | .sigfillset set => Signal.sigfillset set
  | .sigaddset set sig => Signal.sigaddset overflowChecks set sig
  | .sigdelset set sig => Signal.sigdelset overflowChecks set sig
  | .sigorset dest left right => Signal.sigorset dest left right
  | .sigandset dest left right => Signal.sigandset dest left right

open Classical in
/-- What a call means: a signal that may not be used is neither inserted nor deleted. -/
noncomputable def denote (A : ι → SignalSet) : Op ι → SignalSet
  | .sigemptyset _ => .empty
  | .sigfillset _ => .full
  | .sigaddset set sig => if hk : sig.toInt ∈ usable then (A set).insert sig.toInt hk else A set
  | .sigdelset set sig => (A set).erase sig.toInt
  | .sigorset _ left right => (A left).union (A right)
  | .sigandset _ left right => (A left).inter (A right)

end Op

/-- The calls of a run, one after the other. -/
def run (overflowChecks : Bool) : List (Op ι) → Code ι Unit
  | [] => pure ()
  | op :: ops => do
      let _ ← op.exec overflowChecks
      run overflowChecks ops

/-- The sets after a run. -/
noncomputable def denote (A : ι → SignalSet) : List (Op ι) → ι → SignalSet
  | [] => A
  | op :: ops => denote (Function.update A op.dest (op.denote A)) ops

/-- Every set is initialised before it is read. -/
def WellFormed (known : Set ι) : List (Op ι) → Prop
  | [] => True
  | op :: ops => (∀ set ∈ op.operands, set ∈ known) ∧ WellFormed (insert op.dest known) ops

/-- The sets that are initialised after a run. -/
def knownAfter (known : Set ι) : List (Op ι) → Set ι
  | [] => known
  | op :: ops => knownAfter (insert op.dest known) ops

/-! ## The signals of a word -/

/-- The signals of a word: position `i` stands for signal `i + 1`. -/
def signals (word : CULong) : Set ℤ := (fun i : ℕ => (i : ℤ) + 1) '' members word

theorem signal_injective : Function.Injective fun i : ℕ => (i : ℤ) + 1 := by
  intro i j h
  simpa using h

theorem signal_position {sig : CInt} (h : InRange sig) : ((position sig : ℕ) : ℤ) + 1 = sig.toInt := by
  unfold position
  have := h.1
  omega

theorem exists_position {i : ℕ} (hi : i < 64) : ∃ sig, InRange sig ∧ position sig = i := by
  have hint : (BitVec.ofNat 32 (i + 1)).toInt = i + 1 := by
    rw [BitVec.toInt_eq_toNat_of_lt] <;> rw [BitVec.toNat_ofNat] <;> omega
  refine ⟨BitVec.ofNat 32 (i + 1), ?_, ?_⟩
  · unfold InRange
    omega
  · unfold position
    omega

@[simp] theorem signals_zero : signals 0 = ∅ := by
  unfold signals
  rw [show (0 : CULong) = 0#64 from rfl, members_zero, Set.image_empty]

theorem signals_or (v w : CULong) : signals (v ||| w) = signals v ∪ signals w := by
  rw [signals, members_or, Set.image_union]
  rfl

theorem signals_and (v w : CULong) : signals (v &&& w) = signals v ∩ signals w := by
  rw [signals, members_and, Set.image_inter signal_injective]
  rfl

theorem signals_insert (w : CULong) {sig : CInt} (h : InRange sig) :
    signals (w ||| single 64 (position sig)) = insert sig.toInt (signals w) := by
  rw [signals, members_or_single w (position_lt h), Set.image_insert_eq, signal_position h]
  rfl

theorem signals_erase (w : CULong) {sig : CInt} (h : InRange sig) :
    signals (w &&& ~~~ single 64 (position sig)) = signals w \ {sig.toInt} := by
  rw [signals, members_and_not_single w (position_lt h), Set.image_sdiff signal_injective,
    Set.image_singleton, signal_position h]
  rfl

theorem mem_signals_iff (w : CULong) {sig : CInt} (h : InRange sig) :
    sig.toInt ∈ signals w ↔ position sig ∈ members w := by
  rw [signals, ← signal_position h]
  exact signal_injective.mem_set_image

theorem signals_eq_empty_iff {w : CULong} : signals w = ∅ ↔ w = 0 := by
  rw [signals, Set.image_eq_empty]
  exact members_eq_empty_iff

/-- The constant of `sigfillset` has the bits of all usable signals. -/
theorem signals_full : signals 0xfffffffc7fffffff = usable := by
  have hbits : ∀ i < 64, (0xfffffffc7fffffff : CULong).getLsbD i = decide (i < 31 ∨ 33 < i) := by
    decide
  ext k
  unfold signals usable
  rw [Set.mem_image, Set.mem_sdiff, Set.mem_Icc, Set.mem_Icc]
  constructor
  · rintro ⟨i, hi, rfl⟩
    have hlt := lt_of_mem_members hi
    rw [mem_members, hbits i hlt, decide_eq_true_eq] at hi
    omega
  · rintro ⟨hrange, hreserved⟩
    refine ⟨(k - 1).toNat, ?_, by omega⟩
    rw [mem_members, hbits _ (by omega), decide_eq_true_eq]
    omega

theorem mem_usable_iff {sig : CInt} : sig.toInt ∈ usable ↔ InRange sig ∧ ¬ Reserved sig := Iff.rfl

/-! ## One call -/

section Step

variable {overflowChecks : Bool} {known : Set ι} {A : ι → SignalSet} {st st' : State ι}

/-- The initialised sets hold what they should. -/
def Tracks (known : Set ι) (A : ι → SignalSet) (st : State ι) : Prop :=
  ∀ set ∈ known, signals (st.sets set).word = (A set).members

/-- No word but the first of any set differs. -/
def SamePadding (st st' : State ι) : Prop :=
  ∀ (set : ι) (i : ℕ) (hi : i < SIGSET_NWORDS), 0 < i →
    (st'.sets set).bits[i] = (st.sets set).bits[i]

omit [DecidableEq ι] in
theorem SamePadding.trans {st'' : State ι} (h : SamePadding st st') (h' : SamePadding st' st'') :
    SamePadding st st'' :=
  fun set i hi hpos => (h' set i hi hpos).trans (h set i hi hpos)

/-- A call that writes the first word of a set. -/
theorem Tracks.setWord (h : Tracks known A st) {dest : ι} {B : SignalSet} {raw : CULong}
    (hraw : signals raw = B.members) :
    Tracks (insert dest known) (Function.update A dest B) (st.setWord dest raw) := by
  intro set hset
  by_cases heq : set = dest
  · subst heq
    rw [word_setWord_self, Function.update_self, hraw]
  · rw [sets_setWord_of_ne raw heq, Function.update_of_ne heq]
    exact h set (Set.mem_of_mem_insert_of_ne hset heq)

/-- A call that is refused. -/
theorem Tracks.refused (h : Tracks known A st) {dest : ι} (hdest : dest ∈ known) (e : CInt)
    {B : SignalSet} (hB : B = A dest) :
    Tracks (insert dest known) (Function.update A dest B) { st with errno := e } := by
  rw [hB, Function.update_eq_self, Set.insert_eq_of_mem hdest]
  exact h

/-- The result of a call of `sigaddset` or `sigdelset`, whether accepted or refused. -/
theorem Tracks.sigchange (h : Tracks known A st) {set : ι} {sig : CInt} (B : SignalSet)
    (combine : CULong → CULong → CULong) (hset : set ∈ known) (hsig : sig ≠ BitVec.intMin 32)
    (haccepted : InRange sig → ¬ Reserved sig → signals (combine (st.sets set).word
      (single 64 (position sig))) = B.members)
    (hrefused : sig.toInt ∉ usable → B = A set) :
    ∃ r st', Signal.sigchange overflowChecks combine set sig st = .ok (r, st') ∧
      Tracks (insert set known) (Function.update A set B) st' ∧ SamePadding st st' := by
  by_cases hok : InRange sig ∧ ¬ Reserved sig
  · exact ⟨_, _, sigchange_ok combine hok.1 hok.2, h.setWord (haccepted hok.1 hok.2),
      fun other i hi hpos => bits_setWord _ other hi hpos⟩
  · have hreject : ¬ InRange sig ∨ Reserved sig := by
      rwa [not_and_or, not_not] at hok
    exact ⟨_, _, sigchange_rejects combine (fun _ => hsig) hreject,
      h.refused hset _ (hrefused fun hmem => hok (mem_usable_iff.mp hmem)), fun _ _ _ _ => rfl⟩

/-- Every call does to the sets what it means. -/
theorem exec_tracks (overflowChecks : Bool) (op : Op ι) (h : Tracks known A st) (hproper : op.Proper)
    (hoperands : ∀ set ∈ op.operands, set ∈ known) :
    ∃ r st', op.exec overflowChecks st = .ok (r, st') ∧
      Tracks (insert op.dest known) (Function.update A op.dest (op.denote A)) st' ∧
      SamePadding st st' := by
  have hpadding : ∀ {dest : ι} {raw : CULong}, SamePadding st (st.setWord dest raw) :=
    fun other i hi hpos => bits_setWord _ other hi hpos
  cases op with
  | sigemptyset set => exact ⟨_, _, sigemptyset_eq, h.setWord signals_zero, hpadding⟩
  | sigfillset set => exact ⟨_, _, sigfillset_eq, h.setWord signals_full, hpadding⟩
  | sigaddset set sig =>
      have hset := hoperands set (List.mem_singleton_self set)
      refine h.sigchange _ _ hset hproper (fun hrange hreserved => ?_) fun hnot => dif_neg hnot
      rw [signals_insert _ hrange, h set hset, Op.denote, dif_pos ⟨hrange, hreserved⟩]
      rfl
  | sigdelset set sig =>
      have hset := hoperands set (List.mem_singleton_self set)
      refine h.sigchange ((A set).erase sig.toInt) (fun raw bit => raw &&& ~~~ bit) hset hproper
        (fun hrange _ => ?_) fun hnot => ?_
      · rw [signals_erase _ hrange, h set hset]
        rfl
      · -- no set has an unusable signal
        exact SignalSet.ext (Set.sdiff_singleton_eq_self fun hmem => hnot ((A set).usable hmem))
  | sigorset dest left right =>
      refine ⟨_, _, sigorset_eq, h.setWord ?_, hpadding⟩
      rw [signals_or, h left (hoperands left (by simp [Op.operands])),
        h right (hoperands right (by simp [Op.operands]))]
      rfl
  | sigandset dest left right =>
      refine ⟨_, _, sigandset_eq, h.setWord ?_, hpadding⟩
      rw [signals_and, h left (hoperands left (by simp [Op.operands])),
        h right (hoperands right (by simp [Op.operands]))]
      rfl

/-- A run does to the sets what it means. -/
theorem run_tracks (overflowChecks : Bool) (ops : List (Op ι)) (h : Tracks known A st) (hproper : ∀ op ∈ ops, op.Proper)
    (hwf : WellFormed known ops) :
    ∃ st', run overflowChecks ops st = .ok ((), st') ∧
      Tracks (knownAfter known ops) (denote A ops) st' ∧ SamePadding st st' := by
  induction ops generalizing known A st with
  | nil => exact ⟨st, rfl, h, fun _ _ _ _ => rfl⟩
  | cons op ops ih =>
      obtain ⟨r, st₁, hexec, htracks, hpadding⟩ :=
        exec_tracks overflowChecks op h (hproper op List.mem_cons_self) hwf.1
      obtain ⟨st₂, hrun, htracks', hpadding'⟩ :=
        ih htracks (fun op' hop' => hproper op' (List.mem_cons_of_mem op hop')) hwf.2
      exact ⟨st₂, (bind_of_ok hexec).trans hrun, htracks', hpadding.trans hpadding'⟩

end Step

/-! ## What a program sees -/

/-- **Signal sets are sets of signals.**  Let a run of any calls, on any number of
sets with arbitrary bytes in them before it, initialise each set before it reads
it.  It does not panic; and for every set initialised in it, `sigismember` then
says 1 of the signals in the set that the calls denote and 0 of the others, the
reserved ones among them, `sigisemptyset` says 1 exactly when there is none, and
the words after the first are as they were before the run. -/
theorem sigset_run (overflowChecks : Bool) (ops : List (Op ι)) (st : State ι)
    (hproper : ∀ op ∈ ops, op.Proper) (hwf : WellFormed ∅ ops) :
    ∃ st', run overflowChecks ops st = .ok ((), st') ∧
      (∀ set ∈ knownAfter ∅ ops,
        (∀ sig, InRange sig → ∃ r, sigismember overflowChecks set sig st' = .ok (r, st') ∧
          (r = 1 ↔ sig.toInt ∈ (denote (fun _ => .empty) ops set).members) ∧ (r = 0 ∨ r = 1)) ∧
        (∀ sig, Reserved sig → sigismember overflowChecks set sig st' = .ok (0, st')) ∧
        ∃ r, sigisemptyset set st' = .ok (r, st') ∧
          (r = 1 ↔ ∀ sig, InRange sig → sigismember overflowChecks set sig st' = .ok (0, st'))) ∧
      ∀ (set : ι) (i : ℕ) (hi : i < SIGSET_NWORDS), 0 < i →
        (st'.sets set).bits[i] = (st.sets set).bits[i] := by
  have hstart : Tracks ∅ (fun _ => .empty) st := fun set hset => absurd hset (Set.notMem_empty set)
  obtain ⟨st', hrun, htracks, hpadding⟩ := run_tracks overflowChecks ops hstart hproper hwf
  refine ⟨st', hrun, fun set hset => ⟨fun sig hrange => ?_, fun sig hreserved => ?_, ?_⟩, hpadding⟩
  · refine ⟨_, sigismember_ok hrange, ?_, ?_⟩
    · rw [← htracks set hset, mem_signals_iff _ hrange]
      split_ifs with hmem <;> simp [hmem]
    · split_ifs <;> simp
  · have hrange : InRange sig := ⟨by linarith [hreserved.1], by linarith [hreserved.2]⟩
    have hnot : position sig ∉ members (st'.sets set).word := by
      rw [← mem_signals_iff _ hrange, htracks set hset]
      exact fun hmem => ((denote _ ops set).usable hmem).2 hreserved
    rw [sigismember_ok hrange, if_neg hnot]
  · -- empty is a zero first word, so no signal is a member
    refine ⟨_, sigisemptyset_eq, ?_⟩
    by_cases hzero : (st'.sets set).word = 0
    · rw [if_pos hzero]
      refine iff_of_true rfl fun sig hrange => ?_
      rw [sigismember_ok hrange, if_neg]
      rw [← mem_signals_iff _ hrange, hzero, signals_zero]
      exact Set.notMem_empty _
    · rw [if_neg hzero]
      refine iff_of_false (by decide) fun hnone => hzero ?_
      rw [← signals_eq_empty_iff, signals, Set.image_eq_empty, Set.eq_empty_iff_forall_notMem]
      intro i hi
      obtain ⟨sig, hrange, rfl⟩ := exists_position (lt_of_mem_members hi)
      have hsig := hnone sig hrange
      rw [sigismember_ok hrange, if_pos hi] at hsig
      cases hsig

/-- A full set, an empty one that gets signal 40 and is refused 33, and their
union written over the first of them once it has lost 40. -/
theorem sigset_run_alias :
    ∃ st', run true [.sigfillset 0, .sigemptyset 1, .sigaddset 1 40, .sigaddset 1 33,
        .sigdelset 0 40, .sigorset 0 0 1] ⟨fun _ : ℕ => ⟨Vector.replicate SIGSET_NWORDS 7⟩, 0⟩ =
          .ok ((), st') ∧
      (st'.sets 0).bits[15] = 7 ∧ ∃ r, sigismember true 0 40 st' = .ok (r, st') ∧ r = 1 := by
  obtain ⟨st', hrun, hsets, hpadding⟩ := sigset_run true [.sigfillset 0, .sigemptyset 1,
    .sigaddset 1 40, .sigaddset 1 33, .sigdelset 0 40, .sigorset 0 0 1]
    ⟨fun _ : ℕ => ⟨Vector.replicate SIGSET_NWORDS 7⟩, 0⟩ (by
      simp only [List.mem_cons, List.not_mem_nil, or_false, forall_eq_or_imp, forall_eq, Op.Proper]
      decide)
    (by simp [WellFormed, Op.operands, Op.dest])
  obtain ⟨r, hr, hmem, -⟩ := (hsets 0 (by simp [knownAfter, Op.dest])).1 40 (by decide)
  refine ⟨st', hrun, hpadding 0 15 (by decide) (by decide), r, hr, hmem.mpr ?_⟩
  have h40 : (40 : ℤ) ∈ usable := by norm_num [usable]
  have h33 : (33 : ℤ) ∉ usable := by norm_num [usable]
  right
  simp [Op.dest, Op.denote, SignalSet.insert, h40, h33]

end Mytilus.Signal
