import Mathlib.NumberTheory.LucasLehmer
import Mytilus.Base.ShiftPeriod
import Mytilus.Prng.RandomRuns

/-!
# The lowest bits of the words `random` writes

Modulo two the recurrence of a state of degree `n` is a linear feedback register
whose taps are the start indices that seeding chooses.  Its polynomial,
`X ^ n + X ^ (n - sep) + 1`, is primitive for each of the four degrees: the four
certificates show that a root has order `2 ^ n - 1`.  So the lowest bits have
that period and no shorter one, from every start with an odd word
(`Lagged.low_period_iff`).

`runRandom` is the code's run of `random` with the words it stores, and `Running` what
its states have to do with the recurrence; `Running.run` follows it call by call.  The
results:

* `random_low_bits`, from any state with the indices of a seeding and an odd word;
* `random_low_bits_seeded`, that the state at program start is one, and every state
  that `initstate` or `srandom` leaves, whatever was called before, is another.
-/

namespace Mytilus.Prng.Random

open Memory BinaryPolynomial ShiftPeriod

/-! ## The four polynomials -/

section Certificates

/-- The exponents of the middle terms. -/
theorem Degree.taps (d : Degree) :
    (d.n, d.n - d.sep) ∈ [(7, 4), (15, 14), (31, 28), (63, 62)] := by
  rcases d.cases with ⟨hn, hsep⟩ | ⟨hn, hsep⟩ | ⟨hn, hsep⟩ | ⟨hn, hsep⟩ <;> simp [hn, hsep]

theorem mem_of_prime_dvd {N q : ℕ} (factors : List ℕ) (hprod : N = factors.prod)
    (hfactors : ∀ r ∈ factors, r.Prime) (hq : q.Prime) (hdvd : q ∣ N) : q ∈ factors :=
  mem_list_primes_of_dvd_prod hq.prime (fun r hr => (hfactors r hr).prime) (hprod ▸ hdvd)

def inverses7 : List (ℕ × BitVec 7) := [(127, 0x70)]

def inverses15 : List (ℕ × BitVec 15) := [(7, 0x4bfd), (31, 0x22c0), (151, 0x3db5)]

def inverses31 : List (ℕ × BitVec 31) := [(2147483647, 0x70000000)]

def inverses63 : List (ℕ × BitVec 63) :=
  [(7, 0x3480e75ce2f03cc0), (73, 0x6b796ccc6050fcc0), (127, 0x7485f7e8356fd16d),
    (337, 0x27326a647ceaeb5d), (92737, 0x7c4f04dc31b40852), (649657, 0xa5dd0ea2e9874f4)]

theorem certificate7 : Certificate (trinomial 7 4) (2 ^ 7 - 1) inverses7 :=
  .of_numbers (by decide +kernel) (by decide +kernel)

theorem certificate15 : Certificate (trinomial 15 14) (2 ^ 15 - 1) inverses15 :=
  .of_numbers (by decide +kernel) (by decide +kernel)

theorem certificate31 : Certificate (trinomial 31 28) (2 ^ 31 - 1) inverses31 :=
  .of_numbers (by decide +kernel) (by decide +kernel)

theorem certificate63 : Certificate (trinomial 63 62) (2 ^ 63 - 1) inverses63 :=
  .of_numbers (by decide +kernel) (by decide +kernel)

theorem primes7 (q : ℕ) (hq : q.Prime) (hdvd : q ∣ 2 ^ 7 - 1) : q ∈ inverses7.map Prod.fst :=
  mem_of_prime_dvd [127] (by norm_num) (by norm_num) hq hdvd

theorem primes15 (q : ℕ) (hq : q.Prime) (hdvd : q ∣ 2 ^ 15 - 1) : q ∈ inverses15.map Prod.fst :=
  mem_of_prime_dvd [7, 31, 151] (by norm_num) (by norm_num) hq hdvd

theorem primes31 (q : ℕ) (hq : q.Prime) (hdvd : q ∣ 2 ^ 31 - 1) : q ∈ inverses31.map Prod.fst := by
  have hmersenne : (mersenne 31).Prime := lucas_lehmer_sufficiency 31 (by norm_num) (by norm_num)
  have hprime : Nat.Prime 2147483647 := hmersenne
  refine mem_of_prime_dvd [2147483647] (by norm_num) (fun r hr => ?_) hq hdvd
  rwa [List.mem_singleton.mp hr]

theorem primes63 (q : ℕ) (hq : q.Prime) (hdvd : q ∣ 2 ^ 63 - 1) : q ∈ inverses63.map Prod.fst := by
  have hmem := mem_of_prime_dvd [7, 7, 73, 127, 337, 92737, 649657] (by norm_num)
    (by norm_num) hq hdvd
  simpa [inverses63] using hmem

/-- The periods of the register of a degree. -/
theorem period_iff {n k : ℕ} (h : (n, k) ∈ [(7, 4), (15, 14), (31, 28), (63, 62)]) {s : ℕ → ZMod 2}
    (hrecurrence : ∀ t, s (t + n) = s t + s (t + k)) {t : ℕ} (hne : s t ≠ 0) (q : ℕ) :
    (∀ t, s (t + q) = s t) ↔ 2 ^ n - 1 ∣ q := by
  simp only [List.mem_cons, List.not_mem_nil, or_false, Prod.mk.injEq] at h
  rcases h with ⟨rfl, rfl⟩ | ⟨rfl, rfl⟩ | ⟨rfl, rfl⟩ | ⟨rfl, rfl⟩
  · exact period_iff_of_certificate (by norm_num) hrecurrence hne (by norm_num) (by norm_num)
      primes7 certificate7 q
  · exact period_iff_of_certificate (by norm_num) hrecurrence hne (by norm_num) (by norm_num)
      primes15 certificate15 q
  · exact period_iff_of_certificate (by norm_num) hrecurrence hne (by norm_num) (by norm_num)
      primes31 certificate31 q
  · exact period_iff_of_certificate (by norm_num) hrecurrence hne (by norm_num) (by norm_num)
      primes63 certificate63 q

end Certificates

/-! ## The lowest bits of the recurrence -/

/-- The periods of the terms modulo two. -/
theorem Lagged.low_period_iff (g : Lagged) (q : ℕ) :
    (∀ t, (g.d.lag.seq g.x (g.d.n + (t + q))).toNat % 2 =
      (g.d.lag.seq g.x (g.d.n + t)).toNat % 2) ↔ 2 ^ g.d.n - 1 ∣ q := by
  obtain ⟨s, hs⟩ : ∃ s : ℕ → ZMod 2,
      s = fun t => ((g.d.lag.seq g.x (g.d.n + t)).toNat : ZMod 2) := ⟨_, rfl⟩
  have hsep : g.d.sep < g.d.n := g.d.lag.sep_lt
  have hcast : ∀ a b : BitVec 32, ((a + b).toNat : ZMod 2) = a.toNat + b.toNat := by
    intro a b
    rw [BitVec.toNat_add, ← Nat.cast_add, ZMod.natCast_eq_natCast_iff', Nat.mod_mod_of_dvd]
    norm_num
  have hrecurrence : ∀ t, s (t + g.d.n) = s t + s (t + (g.d.n - g.d.sep)) := by
    intro t
    have hterm : g.d.lag.seq g.x (g.d.n + (t + g.d.n)) = g.d.lag.seq g.x (g.d.n + t) +
        g.d.lag.seq g.x (g.d.n + (t + (g.d.n - g.d.sep))) := by
      have hseq := Lag.seq_add (L := g.d.lag) (x := g.x) (g.d.n + t)
      change g.d.lag.seq g.x (g.d.n + (g.d.n + t)) = _ + g.d.lag.seq g.x (g.d.n + (g.d.n + t) - g.d.sep)
        at hseq
      rw [Nat.add_comm t g.d.n, hseq]
      congr 2
      omega
    rw [hs]
    simp only
    rw [hterm, hcast]
  obtain ⟨t, hne⟩ : ∃ t, s t ≠ 0 := by
    obtain ⟨m, hlo, -, hodd⟩ := g.exists_odd g.d.n
    obtain ⟨t, rfl⟩ := Nat.exists_eq_add_of_le hlo
    refine ⟨t, fun hzero => ?_⟩
    rw [hs] at hzero
    have heven := (ZMod.natCast_eq_zero_iff _ 2).mp hzero
    omega
  rw [← period_iff g.d.taps hrecurrence hne q, hs]
  exact forall_congr' fun t => (ZMod.natCast_eq_natCast_iff' _ _ 2).symm

/-- Buffers that agree in the words and in the first index are a multiple of the
period apart. -/
theorem Lagged.dvd_of_holds (g : Lagged) {T T' : ℕ} {word : ℕ → BitVec 32} (hle : T ≤ T')
    (h : g.d.lag.Holds g.x T word) (h' : g.d.lag.Holds g.x T' word)
    (hindex : g.d.lag.index T = g.d.lag.index T') : 2 ^ g.d.n - 1 ∣ T' - T := by
  obtain ⟨N, hN⟩ : ∃ N, N = 2 ^ g.d.n - 1 := ⟨_, rfl⟩
  have hpos : 0 < N := by
    have := Nat.two_pow_pos g.d.n
    have := Nat.one_lt_two_pow (n := g.d.n) (by have := g.d.cases; omega)
    omega
  have hperiod : ∀ t, (g.d.lag.seq g.x (g.d.n + (t + T * N))).toNat % 2 =
      (g.d.lag.seq g.x (g.d.n + t)).toNat % 2 :=
    (g.low_period_iff (T * N)).mpr (hN ▸ Dvd.intro_left T rfl)
  refine (g.low_period_iff (T' - T)).mp fun t => ?_
  -- go on by whole periods until the term lies after both buffers
  have hTN : T ≤ T * N := Nat.le_mul_of_pos_right T hpos
  have hsame := Lag.seq_eq_of_holds h h' hindex (g.d.n + t + (T * N - T))
  rw [show T + (g.d.n + t + (T * N - T)) = g.d.n + (t + T * N) by omega,
    show T' + (g.d.n + t + (T * N - T)) = g.d.n + (t + (T' - T) + T * N) by omega] at hsame
  rw [← hperiod, ← hsame, hperiod]

/-! ## The words a run writes -/

/-- The words that the operations of a run store. -/
def written (log : List Op) : List (BitVec 32) :=
  log.filterMap fun
    | .storeWord _ w => some w
    | _ => none

/-- The words that `T` calls of `random` store, and the state after them. -/
def runRandom (table : Addr) : ℕ → Store → Option (List (BitVec 32) × Store)
  | 0, s => some ([], s)
  | T + 1, s => do
      let (_, s, log) ← (random table).run exec s
      let (ws, s) ← runRandom table T s
      return (written log ++ ws, s)

section Code

variable {table p : Addr} {s : Store}

theorem run_lock (h : s.lock = 0) :
    lock.run exec s = some ((), { s with lock := 1 }, [.lock]) := by
  rw [lock, Prog.run_perform, exec, if_pos h]
  rfl

theorem run_unlock : unlock.run exec s = some ((), { s with lock := 0 }, [.unlock]) := rfl

theorem run_load (v : Var) : (load v).run exec s = some (s.get v, s, [.load v]) := rfl

theorem run_store (v : Var) (c : BitVec 32) :
    (store v c).run exec s = some ((), s.set v c, [.store v c]) := rfl

theorem run_loadX : loadX.run exec s = some (s.x, s, [.loadX]) := rfl

theorem run_loadWord (a : Addr) :
    (loadWord a).run exec s = some (readWord s.mem a, s, [.loadWord a]) := rfl

theorem run_storeWord (a : Addr) (w : BitVec 32) : (storeWord a w).run exec s =
    some ((), { s with mem := writeWord s.mem a w }, [.storeWord a w]) := rfl

/-- `x_ptr` stores no word. -/
theorem run_xPtr (h : At table s p) : ∃ log,
    (xPtr table).run exec s = some (ptrAdd p 4, { s with x := ptrAdd p 4 }, log) ∧
      written log = [] := by
  obtain ⟨hne, hx | ⟨hx, rfl⟩⟩ := h
  · have hsame : { s with x := ptrAdd p 4 } = s := by rw [← hx]
    refine ⟨[.loadX], ?_, rfl⟩
    rw [xPtr, Prog.run_bind, run_loadX, Option.bind_some, hx]
    simp only [if_pos hne, hsame]
    rfl
  · refine ⟨[.loadX, .storeX (ptrAdd p 4)], ?_, rfl⟩
    rw [xPtr, Prog.run_bind, run_loadX, Option.bind_some]
    simp only [if_neg (not_not.mpr hx)]
    rfl

/-- A call of `random` on a state of nonzero degree stores one word, the sum of two. -/
theorem written_random (hlock : s.lock = 0) (hx : At table s p) (hn : s.n ≠ 0) :
    ((random table).run exec s).map (fun r => written r.2.2) =
      some [readWord s.mem (wordAdd (ptrAdd p 4) (s.i.signExtend 64)) +
        readWord s.mem (wordAdd (ptrAdd p 4) (s.j.signExtend 64))] := by
  have hlocked : At table { s with lock := 1 } p := hx
  obtain ⟨log, hrun, hlog⟩ := run_xPtr hlocked
  have hn' : Store.get { s with lock := 1, x := ptrAdd p 4 } .n ≠ 0 := hn
  simp only [random, Prog.run_bind, run_lock hlock, hrun, Option.bind_some, run_load, if_neg hn',
    run_loadWord, run_storeWord, run_store, run_unlock, Prog.run_pure, Option.map_some]
  simp only [written] at hlog ⊢
  simp [hlog, Store.get]

/-- The state holds the generator `g` in the active buffer, at `p`. -/
structure Running (table p : Addr) (s : Store) (g : Lagged) : Prop where
  x : At table s p
  unlocked : s.lock = 0
  position : Position s.n s.i s.j (.lagged g)
  words : Represents s.mem p (.lagged g)

theorem Running.step {g : Lagged} (h : Running table p s g) :
    ∃ v s' log, (random table).run exec s = some (v, s', log) ∧
      written log = [g.d.lag.seq g.x (g.d.n + g.t)] ∧
      Running table p s' { g with t := g.t + 1 } := by
  obtain ⟨-, hi, hj⟩ := h.position
  obtain ⟨hne, -, -, hslot, hslot'⟩ := h.position.slots p
  obtain ⟨hsum, -⟩ := h.words.step
  obtain ⟨v, s', log, hrun, ⟨hholding, hlock⟩, -⟩ := Prog.runs_iff.mp
    (does_random (A := fun _ => True) (Q := fun _ s' => Holding s' p (Gen.lagged g).next.2 ∧ s'.lock = 0)
      h.x h.unlocked h.position h.words (fun _ _ => trivial) fun _ hholding hlock _ =>
        ⟨hholding, hlock⟩)
  refine ⟨v, s', log, hrun, ?_, ⟨⟨h.x.1, .inl hholding.x⟩, hlock, hholding.position, hholding.words⟩⟩
  have hwritten := written_random h.unlocked h.x hne
  rw [hrun, Option.map_some, hslot, hslot', hi, hj, hsum] at hwritten
  exact Option.some.inj hwritten

theorem Running.run {g : Lagged} (h : Running table p s g) (T : ℕ) :
    ∃ s', runRandom table T s =
        some ((List.range T).map fun t => g.d.lag.seq g.x (g.d.n + (g.t + t)), s') ∧
      Running table p s' { g with t := g.t + T } := by
  induction T generalizing s g with
  | zero => exact ⟨s, rfl, h⟩
  | succ T ih =>
      obtain ⟨v, s₁, log, hrun, hwritten, hstep⟩ := h.step
      obtain ⟨s₂, hruns, hstate⟩ := ih hstep
      have hterms : ∀ t, g.t + 1 + t = g.t + (t + 1) := fun t => by omega
      refine ⟨s₂, ?_, ?_⟩
      · rw [runRandom, hrun]
        simp only [Option.bind_eq_bind, Option.bind_some, hruns, hwritten, Option.pure_def, hterms]
        rw [List.range_succ_eq_map, List.map_cons, List.map_map]
        rfl
      · rw [show g.t + (T + 1) = g.t + 1 + T by omega]
        exact hstate

end Code

/-! ## The period -/

/-- A state of degree `d` with the indices as seeding leaves them, in which at
least one word of the buffer at `p` is odd. -/
structure SeededIndices (table p : Addr) (d : Degree) (s : Store) : Prop where
  x : At table s p
  unlocked : s.lock = 0
  n : s.n.toNat = d.n
  i : s.i.toNat = d.sep
  j : s.j.toNat = 0
  odd : ∃ k < d.n, (readWord s.mem (ptrAdd p (4 * (k + 1)))).toNat % 2 = 1

/-- The same indices and the same words. -/
def SameState (p : Addr) (n : ℕ) (s s' : Store) : Prop :=
  s.i = s'.i ∧ s.j = s'.j ∧
    ∀ k < n, readWord s.mem (ptrAdd p (4 * (k + 1))) = readWord s'.mem (ptrAdd p (4 * (k + 1)))

/-- Every seeded state of nonzero degree is one. -/
theorem Sim.seededIndices {table : Addr} {s : Store} {b : Bank} (h : Sim table s b) {d : Degree}
    {seed : BitVec 32} (hseeded : b.gen b.active = .seeded (some d) seed) :
    SeededIndices table b.active d s := by
  obtain ⟨n, hactive⟩ := h.active_size
  have hposition := h.position
  have hwords := h.words _ n hactive
  rw [hseeded] at hposition hwords
  obtain ⟨hn, hi, hj⟩ := hposition
  refine ⟨h.x, h.unlocked, hn, ?_, hj.trans (Nat.zero_mod d.n), hwords.odd⟩
  exact hi.trans (Nat.mod_eq_of_lt d.lag.sep_lt)

/-- Any number of calls go through from `s`, each writing one word; the periods of
the lowest bits of these words are the multiples of `2 ^ n - 1`; two states with the
same indices and words are that far apart; and no state has only even words. -/
def LowBits (table p : Addr) (d : Degree) (s : Store) : Prop :=
  ∃ (w : ℕ → BitVec 32) (after : ℕ → Store),
    (∀ T, runRandom table T s = some ((List.range T).map w, after T)) ∧
    (∀ q, (∀ t, (w (t + q)).toNat % 2 = (w t).toNat % 2) ↔ 2 ^ d.n - 1 ∣ q) ∧
    (∀ T T', T ≤ T' → SameState p d.n (after T) (after T') → 2 ^ d.n - 1 ∣ T' - T) ∧
    ∀ T, ∃ k < d.n, (readWord (after T).mem (ptrAdd p (4 * (k + 1)))).toNat % 2 = 1

theorem SeededIndices.lowBits {table p : Addr} {d : Degree} {s : Store}
    (h : SeededIndices table p d s) : LowBits table p d s := by
  obtain ⟨g, hd, hx, ht⟩ : ∃ g : Lagged, g.d = d ∧
      g.x = (fun k => readWord s.mem (ptrAdd p (4 * (k + 1)))) ∧ g.t = 0 :=
    ⟨{ d, x := fun k => readWord s.mem (ptrAdd p (4 * (k + 1))), odd := h.odd, t := 0 }, rfl, rfl, rfl⟩
  subst hd
  have hrunning : Running table p s g := by
    refine ⟨h.x, h.unlocked, ⟨h.n, ?_, ?_⟩, ?_⟩
    · rw [h.i, ht]
      exact (Nat.mod_eq_of_lt g.d.lag.sep_lt).symm
    · rw [h.j, ht, Nat.zero_mod]
    · change g.d.lag.Holds g.x g.t fun k => readWord s.mem (ptrAdd p (4 * (k + 1)))
      rw [hx, ht]
      exact g.d.lag.holds_zero _
  choose after hrun hstate using fun T => hrunning.run T
  have hword : ∀ t, g.d.n + (g.t + t) = g.d.n + t := fun t => by rw [ht, Nat.zero_add]
  simp only [hword] at hrun
  refine ⟨fun t => g.d.lag.seq g.x (g.d.n + t), after, hrun, g.low_period_iff, ?_, fun T =>
    (hstate T).words.odd⟩
  rintro T T' hle ⟨hi, -, hwords⟩
  have hholds : ∀ T, g.d.lag.Holds g.x T fun k => readWord (after T).mem (ptrAdd p (4 * (k + 1))) := by
    intro T
    have hrepresents := (hstate T).words
    rw [ht, Nat.zero_add] at hrepresents
    exact hrepresents
  have hindex : g.d.lag.index T = g.d.lag.index T' := by
    have hi₁ := (hstate T).position.2.1
    have hi₂ := (hstate T').position.2.1
    rw [hi, hi₂] at hi₁
    simpa only [ht, Nat.zero_add] using hi₁.symm
  refine g.dvd_of_holds hle (hholds T) (fun m hlo hhi => ?_) hindex
  rw [← hholds T' m hlo hhi]
  exact hwords _ (g.d.lag.index_lt m)

/-- **The lowest bits that `random` writes have least period `2 ^ n - 1`.**  From
every state of degree `n` with the indices of a seeding and an odd word, whatever
the words: any number of calls go through, each writing one word; the periods of
the lowest bits of these words are the multiples of `2 ^ n - 1`; two states with
the same indices and words are that far apart; and no state has only even words. -/
theorem random_low_bits {table p : Addr} {d : Degree} {s : Store} (h : SeededIndices table p d s) :
    ∃ (w : ℕ → BitVec 32) (after : ℕ → Store),
      (∀ T, runRandom table T s = some ((List.range T).map w, after T)) ∧
      (∀ q, (∀ t, (w (t + q)).toNat % 2 = (w t).toNat % 2) ↔ 2 ^ d.n - 1 ∣ q) ∧
      (∀ T T', T ≤ T' → SameState p d.n (after T) (after T') → 2 ^ d.n - 1 ∣ T' - T) ∧
      ∀ T, ∃ k < d.n, (readWord (after T).mem (ptrAdd p (4 * (k + 1)))).toNat % 2 = 1 :=
  h.lowBits

/-- The hypothesis of `random_low_bits` at program start. -/
theorem random_low_bits_start :
    ∃ (w : ℕ → BitVec 32) (after : ℕ → Store),
      (∀ T, runRandom 0x1000 T (start (image 0x1000)) = some ((List.range T).map w, after T)) ∧
      (∀ q, (∀ t, (w (t + q)).toNat % 2 = (w t).toNat % 2) ↔ 2 ^ degree31.n - 1 ∣ q) ∧
      (∀ T T', T ≤ T' → SameState 0x1000 degree31.n (after T) (after T') →
        2 ^ degree31.n - 1 ∣ T' - T) ∧
      ∀ T, ∃ k < degree31.n,
        (readWord (after T).mem (ptrAdd 0x1000 (4 * (k + 1)))).toNat % 2 = 1 :=
  random_low_bits (p := 0x1000) ((sim_start (loaded_image 0x1000 (by decide))).seededIndices rfl)

/-! ## After a seeding -/

theorem Sim.lowBits {table : Addr} {s : Store} {b : Bank} (h : Sim table s b) {d : Degree}
    {seed : BitVec 32} (hseeded : b.gen b.active = .seeded (some d) seed) :
    LowBits table b.active d s :=
  (h.seededIndices hseeded).lowBits

/-- The state at program start, and the states in which `initstate` and `srandom`
leave a buffer of nonzero degree after whatever calls, have the lowest bits of
`random_low_bits`. -/
theorem random_low_bits_seeded {table : Addr} {mem : Memory} (hload : Loaded table mem)
    {cs : List Call} (hcs : (Bank.start table).Allowed cs) {d : Degree} :
    LowBits table table degree31 (start mem) ∧
    (∀ (seed : BitVec 32) (p : Addr) (size : BitVec 64), degreeOf size.toNat = some d →
      p.toNat + size.toNat ≤ 2 ^ 64 →
      ∃ rs s, runCalls table (cs ++ [.initstate seed p size]) (start mem) = some (rs, s) ∧
        LowBits table p d s) ∧
    ∀ (seed : BitVec 32) (p : Addr) (m : ℕ), p = ((Bank.start table).calls cs).2.active →
      ((Bank.start table).calls cs).2.size p = some m → degreeOf m = some d →
      ∃ rs s, runCalls table (cs ++ [.srandom seed]) (start mem) = some (rs, s) ∧
        LowBits table p d s := by
  have hsim := sim_start hload
  obtain ⟨b, hb⟩ : ∃ b, b = ((Bank.start table).calls cs).2 := ⟨_, rfl⟩
  -- the last call is the seeding, and the bank says what it leaves
  have hlast : ∀ c, b.Allows c → ∃ rs s,
      runCalls table (cs ++ [c]) (start mem) = some (rs, s) ∧ Sim table s (b.call c).2 := by
    intro c hc
    have hallowed : (Bank.start table).Allowed (cs ++ [c]) :=
      Bank.allowed_append.mpr ⟨hcs, hb ▸ hc, trivial⟩
    obtain ⟨s, hrun, hafter⟩ := hsim.runCalls hallowed
    rw [Bank.calls_append, ← hb] at hafter
    exact ⟨_, s, hrun, hafter⟩
  refine ⟨hsim.lowBits rfl, fun seed p size hd hfits => ?_, ?_⟩
  · -- a size with a degree is not one that `initstate` refuses
    have hsmall : ¬ size < 8 := by
      intro hlt
      rw [degreeOf, if_pos (lt_trans (BitVec.lt_def.mp hlt) (by decide))] at hd
      cases hd
    obtain ⟨rs, s, hrun, hafter⟩ := hlast (.initstate seed p size) fun _ => hfits
    rw [Bank.call, if_neg hsmall] at hafter
    have hseeded := Bank.gen_install_self (b := b) p size.toNat (.seeded (degreeOf size.toNat) seed)
    rw [hd] at hafter hseeded
    exact ⟨rs, s, hrun, hafter.lowBits hseeded⟩
  · rintro seed p m rfl hm hd
    obtain ⟨rs, s, hrun, hafter⟩ := hlast (.srandom seed) trivial
    have hdegree : (b.gen b.active).degree = some d :=
      hd ▸ hb ▸ (Bank.fitted_start table).calls cs _ m hm
    have hseeded := Bank.gen_set_active (b := b) (.seeded (b.gen b.active).degree seed)
    rw [hdegree] at hseeded
    rw [Bank.call, hdegree] at hafter
    exact ⟨rs, s, hrun, hb ▸ hafter.lowBits hseeded⟩

/-- The hypotheses of `random_low_bits_seeded` at a 64-byte buffer seeded anew after
two values. -/
theorem random_low_bits_seeded_degree15 :
    ∃ rs s, runCalls 0x1000 ([.initstate 5 0x2000 64, .random, .random] ++ [.srandom 7])
        (start (image 0x1000)) = some (rs, s) ∧
      LowBits 0x1000 0x2000 degree15 s := by
  have hallowed : (Bank.start 0x1000).Allowed [.initstate 5 0x2000 64, .random, .random] := by
    decide
  exact (random_low_bits_seeded (loaded_image 0x1000 (by decide)) hallowed).2.2 7 0x2000 64 rfl
    (by decide) rfl

end Mytilus.Prng.Random
