import Mytilus.Prng.RandomRefine

/-!
# Runs of the generator family

What holds of whole runs of the code, from program start, by way of the bank the
code simulates.

* `random_values`: between one seeding and the next, `random` returns the terms of
  the recurrence over the words of the seed, or the congruential iterates of it; what
  it returns before any seeding is what it returns after `srandom(1)`.
* `reachable_sound`: in every reachable state the degree is one of the five, the
  indices are within the buffer and apart, every live buffer of nonzero degree has an
  odd word, and the next call touches words of the active buffers only.

A buffer that a later `initstate` was given overlapping memory for is not live any
more, and `setstate` on it is not among the calls allowed; `setstate_overwritten` says
what happens there.
-/

namespace Mytilus.Prng.Random

open Memory

/-! ## Sequences of bank calls -/

namespace Bank

variable {b : Bank}

theorem calls_append (b : Bank) (cs ds : List Call) :
    b.calls (cs ++ ds) =
      ((b.calls cs).1 ++ ((b.calls cs).2.calls ds).1, ((b.calls cs).2.calls ds).2) := by
  induction cs generalizing b with
  | nil => rfl
  | cons c cs ih => simp only [List.cons_append, calls, ih]

theorem length_calls (b : Bank) (cs : List Call) : (b.calls cs).1.length = cs.length := by
  induction cs generalizing b with
  | nil => rfl
  | cons c cs ih => exact congrArg (· + 1) (ih _)

theorem allowed_append {cs ds : List Call} :
    b.Allowed (cs ++ ds) ↔ b.Allowed cs ∧ (b.calls cs).2.Allowed ds := by
  induction cs generalizing b with
  | nil => exact (iff_of_eq (true_and _)).symm
  | cons c cs ih =>
      rw [List.cons_append, Allowed, ih, Allowed, and_assoc]
      rfl

theorem allowed_random (b : Bank) (T : ℕ) : b.Allowed (List.replicate T .random) := by
  induction T generalizing b with
  | zero => trivial
  | succ T ih => exact ⟨trivial, ih _⟩

/-- A buffer has the degree its size calls for. -/
def Fitted (b : Bank) : Prop := ∀ p m, b.size p = some m → (b.gen p).degree = degreeOf m

theorem degree_seeded (d : Option Degree) (seed : BitVec 32) : (Gen.seeded d seed).degree = d := by
  cases d <;> rfl

theorem degree_next (g : Gen) : g.next.2.degree = g.degree := by
  cases g <;> simp only [Gen.next, Gen.degree]

theorem Fitted.set (h : b.Fitted) {g : Gen} (hg : g.degree = (b.gen b.active).degree) :
    (b.set g).Fitted := by
  intro p m hp
  by_cases hactive : p = b.active
  · subst hactive
    rw [gen_set_active, hg]
    exact h _ m hp
  · rw [gen_set_of_ne g hactive]
    exact h p m hp

theorem Fitted.call (h : b.Fitted) (c : Call) : (b.call c).2.Fitted := by
  cases c with
  | random => exact h.set (degree_next _)
  | srandom seed => exact h.set (degree_seeded _ seed)
  | initstate seed p size =>
      by_cases hsmall : size < 8
      · rw [Bank.call, if_pos hsmall]
        exact h
      · rw [Bank.call, if_neg hsmall]
        intro q m hq
        rcases size_install hq with ⟨rfl, rfl⟩ | ⟨hne, hsize, -⟩
        · rw [gen_install_self, degree_seeded]
        · rw [gen_install_of_ne _ _ hne]
          exact h q m hsize
  | setstate p => exact h

theorem Fitted.calls (h : b.Fitted) (cs : List Call) : (b.calls cs).2.Fitted := by
  induction cs generalizing b with
  | nil => exact h
  | cons c cs ih => exact ih (h.call c)

theorem fitted_start (table : Addr) : (start table).Fitted := by
  intro p m hp
  obtain ⟨rfl, rfl⟩ := size_start hp
  rfl

end Bank

/-! ## The values between two seedings -/

/-- The generator after `t` values. -/
def Gen.after (g : Gen) (t : ℕ) : Gen := (fun g => g.next.2)^[t] g

/-- The value `random` returns, `t` values after a seed: a congruential iterate,
or a term of the recurrence over the words of the seed. -/
def value (d : Option Degree) (seed : BitVec 32) (t : ℕ) : BitVec 64 :=
  match d with
  | none => (lcg31^[t + 1] seed).setWidth 64
  | some d => (d.lag.seq (seedWord seed) (d.n + t) >>> 1).setWidth 64

theorem after_lcg (x : BitVec 32) (t : ℕ) : (Gen.lcg x).after t = .lcg (lcg31^[t] x) := by
  induction t with
  | zero => rfl
  | succ t ih =>
      rw [Gen.after, Function.iterate_succ_apply', ← Gen.after, ih, Function.iterate_succ_apply']
      rfl

theorem after_lagged (g : Lagged) (t : ℕ) :
    (Gen.lagged g).after t = .lagged { g with t := g.t + t } := by
  induction t with
  | zero => rfl
  | succ t ih =>
      rw [Gen.after, Function.iterate_succ_apply', ← Gen.after, ih]
      rfl

theorem next_seeded (d : Option Degree) (seed : BitVec 32) (t : ℕ) :
    ((Gen.seeded d seed).after t).next.1 = value d seed t := by
  cases d with
  | none =>
      rw [Gen.seeded, after_lcg, value, Function.iterate_succ_apply']
      rfl
  | some d =>
      rw [Gen.seeded, after_lagged, Gen.next, value]
      simp only [Nat.zero_add]

/-- A run of `random` calls returns the values of the active generator in order. -/
theorem Bank.calls_random (b : Bank) (T : ℕ) :
    (b.calls (List.replicate T .random)).1 =
      (List.range T).map fun t => .long ((b.gen b.active).after t).next.1 := by
  induction T generalizing b with
  | zero => rfl
  | succ T ih =>
      have hnext : ∀ t, ((b.set (b.gen b.active).next.2).gen b.active).after t =
          (b.gen b.active).after (t + 1) := fun t => by
        rw [gen_set_active]
        rfl
      rw [List.replicate_succ, List.range_succ_eq_map, List.map_cons, List.map_map]
      refine congrArg _ ((ih _).trans (List.map_congr_left fun t _ => ?_))
      exact congrArg (fun g : Gen => Reply.long g.next.1) (hnext t)

/-- The replies of `T` calls of `random` after a seeding. -/
def values (d : Option Degree) (seed : BitVec 32) (T : ℕ) : List Reply :=
  (List.range T).map fun t => .long (value d seed t)

theorem Bank.calls_random_of_seeded {b : Bank} {d : Option Degree} {seed : BitVec 32}
    (hb : b.gen b.active = .seeded d seed) (T : ℕ) :
    (b.calls (List.replicate T .random)).1 = values d seed T := by
  rw [calls_random, hb]
  exact List.map_congr_left fun t _ => congrArg Reply.long (next_seeded d seed t)

/-- A seeding call in the middle of a run, and the values after it. -/
theorem run_after_seeding {table : Addr} {mem : Memory} (hload : Loaded table mem) {cs : List Call}
    {c : Call} {d : Option Degree} {seed : BitVec 32} (hcs : (Bank.start table).Allowed cs)
    (hc : ((Bank.start table).calls cs).2.Allows c)
    (hseeded : (((Bank.start table).calls cs).2.call c).2.gen
      (((Bank.start table).calls cs).2.call c).2.active = .seeded d seed) (T : ℕ) :
    ∃ rs r s, rs.length = cs.length ∧
      runCalls table (cs ++ c :: List.replicate T .random) (start mem) =
        some (rs ++ r :: values d seed T, s) := by
  have hallowed : (Bank.start table).Allowed (cs ++ c :: List.replicate T .random) :=
    Bank.allowed_append.mpr ⟨hcs, hc, Bank.allowed_random _ T⟩
  obtain ⟨s, hrun, -⟩ := (sim_start hload).runCalls hallowed
  refine ⟨((Bank.start table).calls cs).1, (((Bank.start table).calls cs).2.call c).1, s,
    Bank.length_calls _ cs, hrun.trans ?_⟩
  rw [Bank.calls_append, Bank.calls, Bank.calls_random_of_seeded hseeded]

/-- Seeding the built-in table with 1 changes nothing. -/
theorem Bank.start_srandom_one (table : Addr) :
    ((Bank.start table).call (.srandom 1)).2 = Bank.start table := by
  have hsame : Function.update (Bank.start table).gen table (.seeded (some degree31) 1) =
      (Bank.start table).gen := Function.update_eq_self ..
  exact congrArg (fun gen => { Bank.start table with gen := gen }) hsame

/-- After a seeding, `random` returns the terms of the recurrence over the words
of the seed, or the congruential iterates of the seed; from program start it
returns what it returns after `srandom(1)`. -/
theorem random_values {table : Addr} {mem : Memory} (hload : Loaded table mem) :
    (∀ (cs : List Call) (seed : BitVec 32) (p : Addr) (size : BitVec 64) (T : ℕ),
      (Bank.start table).Allowed cs → 8 ≤ size → p.toNat + size.toNat ≤ 2 ^ 64 →
      ∃ rs r s, rs.length = cs.length ∧
        runCalls table (cs ++ .initstate seed p size :: List.replicate T .random) (start mem) =
          some (rs ++ r :: values (degreeOf size.toNat) seed T, s)) ∧
    (∀ (cs : List Call) (seed : BitVec 32) (m T : ℕ),
      (Bank.start table).Allowed cs →
      ((Bank.start table).calls cs).2.size ((Bank.start table).calls cs).2.active = some m →
      ∃ rs r s, rs.length = cs.length ∧
        runCalls table (cs ++ .srandom seed :: List.replicate T .random) (start mem) =
          some (rs ++ r :: values (degreeOf m) seed T, s)) ∧
    ∀ T, ∃ rs s s',
      runCalls table (List.replicate T .random) (start mem) = some (rs, s) ∧
      runCalls table (.srandom 1 :: List.replicate T .random) (start mem) =
        some (.void :: rs, s') := by
  refine ⟨fun cs seed p size T hcs hsize hfits => ?_, fun cs seed m T hcs hm => ?_, fun T => ?_⟩
  · have hsmall : ¬ size < 8 := BitVec.not_lt.mpr hsize
    have hc : ((Bank.start table).calls cs).2.Allows (.initstate seed p size) := fun _ => hfits
    refine run_after_seeding hload hcs hc ?_ T
    rw [Bank.call, if_neg hsmall]
    exact Bank.gen_install_self p _ _
  · -- `srandom` keeps the degree that the buffer got with its size
    have hdegree := (Bank.fitted_start table).calls cs _ m hm
    have hc : ((Bank.start table).calls cs).2.Allows (.srandom seed) := trivial
    refine run_after_seeding hload hcs hc ?_ T
    rw [← hdegree]
    exact Bank.gen_set_active _
  · have hsim := sim_start hload
    have hrandoms := (Bank.start table).allowed_random T
    have hseeded : (Bank.start table).Allowed (.srandom 1 :: List.replicate T .random) :=
      ⟨trivial, Bank.allowed_random _ T⟩
    obtain ⟨s, hrun, -⟩ := hsim.runCalls hrandoms
    obtain ⟨s', hrun', -⟩ := hsim.runCalls hseeded
    refine ⟨_, s, s', hrun, hrun'.trans ?_⟩
    rw [Bank.calls, Bank.start_srandom_one]
    rfl

/-! ## Program images -/

/-- A memory in which `RANDOM_INIT` is at `table` and everything else is zero. -/
def image (table : Addr) : Memory := fun a =>
  byteOf ((RANDOM_INIT[offset table a / 4]?).getD 0) (offset table a % 4)

theorem loaded_image (table : Addr) (hfits : table.toNat + 128 ≤ 2 ^ 64) :
    Loaded table (image table) := by
  refine ⟨fun k hk => ?_, hfits⟩
  have hlength : k < RANDOM_INIT.length := hk
  rw [List.getElem?_eq_getElem hlength]
  refine congrArg some (eq_of_byteOf_eq (n := 4) fun i hi => ?_)
  have hslot : (4 * k + i) / 4 = k := by omega
  have hbyte : (4 * k + i) % 4 = i := by omega
  rw [byteOf_readLE (n := 4) _ _ hi, ptrAdd_ptrAdd, image, offset_ptrAdd (by omega), hslot, hbyte,
    List.getElem?_eq_getElem hlength, Option.getD_some]

/-- The hypotheses of `random_values` at a 64-byte buffer, initialised at program start. -/
theorem random_values_degree15 :
    ∃ rs r s, rs.length = 0 ∧
      runCalls 0x1000 ([] ++ .initstate 5 0x2000 64 :: List.replicate 3 .random)
          (start (image 0x1000)) =
        some (rs ++ r :: values (degreeOf 64) 5 3, s) :=
  (random_values (loaded_image 0x1000 (by decide))).1 [] 5 0x2000 64 3 trivial (by decide) (by decide)

/-! ## Reachable states -/

theorem Position.mem_degrees {n i j : BitVec 32} {g : Gen} (h : Position n i j g) :
    n.toNat ∈ [0, 7, 15, 31, 63] := by
  cases g with
  | lcg x =>
      rw [h.1]
      exact List.mem_cons_self
  | lagged g =>
      rw [h.1]
      exact List.mem_cons_of_mem 0 g.d.mem

/-- The indices are within the buffer and keep their distance. -/
theorem Position.indices {n i j : BitVec 32} {g : Gen} (h : Position n i j g) (hn : 0 < n.toNat) :
    i.toNat < n.toNat ∧ j.toNat < n.toNat ∧ i ≠ j ∧
      i.toNat ≡ j.toNat + (if n.toNat = 31 ∨ n.toNat = 7 then 3 else 1) [MOD n.toNat] := by
  cases g with
  | lcg x => exact absurd h.1 (Nat.ne_of_gt hn)
  | lagged g =>
      obtain ⟨hdegree, hi, hj⟩ := h
      rw [hdegree, hi, hj]
      refine ⟨g.d.lag.index_lt g.t, Nat.mod_lt _ g.d.lag.n_pos, fun heq => ?_, ?_⟩
      · apply Lag.mod_ne_index (L := g.d.lag) g.t
        exact hj.symm.trans ((congrArg BitVec.toNat heq).symm.trans hi)
      · change (g.d.sep + g.t) % g.d.n ≡ g.t % g.d.n + g.d.sep [MOD g.d.n]
        rw [Nat.add_comm g.d.sep]
        exact (Nat.mod_modEq _ _).trans ((Nat.mod_modEq _ _).symm.add_right _)

/-- Every window of the recurrence has an odd term. -/
theorem Lagged.exists_odd (g : Lagged) (t : ℕ) :
    ∃ m, t ≤ m ∧ m < t + g.d.n ∧ (g.d.lag.seq g.x m).toNat % 2 = 1 := by
  by_contra hnone
  push Not at hnone
  have hstep : ∀ a b : BitVec 32, (a + b).toNat % 2 = 0 → b.toNat % 2 = 0 → a.toNat % 2 = 0 := by
    intro a b hsum hb
    rw [BitVec.toNat_add] at hsum
    omega
  have hwindow : ∀ m, t ≤ m → m < t + g.d.lag.n → (g.d.lag.seq g.x m).toNat % 2 = 0 :=
    fun m hlo hhi => (Nat.mod_two_eq_zero_or_one _).resolve_right (hnone m hlo hhi)
  have hseeds := Lag.forall_of_window (L := g.d.lag) (E := fun w : BitVec 32 => w.toNat % 2 = 0)
    hstep hwindow
  obtain ⟨k, hk, hodd⟩ := g.odd
  have hzero : (g.x k).toNat % 2 = 0 := hseeds k hk
  omega

/-- A buffer of nonzero degree never loses its odd words. -/
theorem Represents.odd {m : Memory} {p : Addr} {g : Lagged} (h : Represents m p (.lagged g)) :
    ∃ k < g.d.n, (readWord m (ptrAdd p (4 * (k + 1)))).toNat % 2 = 1 := by
  obtain ⟨k, hlo, hhi, hodd⟩ := g.exists_odd g.t
  have hslot : readWord m (ptrAdd p (4 * (g.d.lag.index k + 1))) = g.d.lag.seq g.x k := h k hlo hhi
  exact ⟨g.d.lag.index k, g.d.lag.index_lt k, by rwa [hslot]⟩

/-- The degree of the buffer at `p`: in `RAND_N` while it is active, and in the
high half of its header word while it is not. -/
def degreeAt (s : Store) (active p : Addr) : BitVec 32 :=
  if p = active then s.n else readWord s.mem p >>> 16

theorem Sim.odd {table : Addr} {s : Store} {b : Bank} (h : Sim table s b) {p : Addr} {m : ℕ}
    (hp : b.size p = some m) (hpos : 0 < (degreeAt s b.active p).toNat) :
    ∃ k < (degreeAt s b.active p).toNat,
      (readWord s.mem (ptrAdd p (4 * (k + 1)))).toNat % 2 = 1 := by
  have horder : (degreeAt s b.active p).toNat = order (b.gen p).degree := by
    unfold degreeAt
    split_ifs with hactive
    · subst hactive
      exact h.position.order_eq
    · obtain ⟨n, i, j, hheader, hposition⟩ := h.headers p m hp hactive
      have hbounds := hposition.bounds
      rw [hheader, (unpack (by omega) (by omega) (by omega)).1]
      exact hposition.order_eq
  have hwords := h.words p m hp
  rw [horder] at hpos ⊢
  cases hgen : b.gen p with
  | lcg x =>
      rw [hgen] at hpos
      exact absurd hpos (Nat.lt_irrefl 0)
  | lagged g =>
      rw [hgen] at hwords
      exact hwords.odd

/-- In every state reached from program start: `RAND_N` is a degree, the indices
are within the buffer and apart, every live buffer of nonzero degree has an odd
word, and the next call touches words only inside the buffer that is active
before it or after it. -/
theorem reachable_sound {table : Addr} {mem : Memory} (hload : Loaded table mem) {cs : List Call}
    (hcs : (Bank.start table).Allowed cs) :
    ∃ rs s b, runCalls table cs (start mem) = some (rs, s) ∧
      b = ((Bank.start table).calls cs).2 ∧ At table s b.active ∧
      s.n.toNat ∈ [0, 7, 15, 31, 63] ∧
      (0 < s.n.toNat → s.i.toNat < s.n.toNat ∧ s.j.toNat < s.n.toNat ∧ s.i ≠ s.j ∧
        s.i.toNat ≡ s.j.toNat + (if s.n.toNat = 31 ∨ s.n.toNat = 7 then 3 else 1)
          [MOD s.n.toNat]) ∧
      (∀ p m, b.size p = some m → 0 < (degreeAt s b.active p).toNat →
        ∃ k < (degreeAt s b.active p).toNat,
          (readWord s.mem (ptrAdd p (4 * (k + 1)))).toNat % 2 = 1) ∧
      ∀ c, b.Allows c → ∃ r s' log, (c.code table).run exec s = some (r, s', log) ∧
        ∀ o ∈ log, WordsIn (b.Touches c) o := by
  obtain ⟨s, hrun, hsim⟩ := (sim_start hload).runCalls hcs
  refine ⟨_, s, _, hrun, rfl, hsim.x, hsim.position.mem_degrees, hsim.position.indices, ?_, ?_⟩
  · exact fun p m hp => hsim.odd hp
  · intro c hc
    obtain ⟨r, s', log, hstep, -, hlog⟩ := Prog.runs_iff.mp (hsim.does_call hc)
    exact ⟨r, s', log, hstep, hlog⟩

/-- The run of two calls of `random` after an `initstate`, and a `setstate` after it. -/
theorem reachable_sound_setstate :
    ∃ rs s b,
      runCalls 0x1000 [.initstate 5 0x2000 64, .random, .random, .setstate 0x1000]
        (start (image 0x1000)) = some (rs, s) ∧
      b = ((Bank.start 0x1000).calls
        [.initstate 5 0x2000 64, .random, .random, .setstate 0x1000]).2 ∧
      At 0x1000 s b.active ∧ s.n.toNat ∈ [0, 7, 15, 31, 63] := by
  have hallowed : (Bank.start 0x1000).Allowed
      [.initstate 5 0x2000 64, .random, .random, .setstate 0x1000] := by decide
  obtain ⟨rs, s, b, hrun, hb, hx, hn, -⟩ :=
    reachable_sound (loaded_image 0x1000 (by decide)) hallowed
  exact ⟨rs, s, b, hrun, hb, hx, hn⟩

/-- A buffer that a later `initstate` overwrites is lost: its header is now a word
of the other buffer, and `setstate` takes a degree out of it that is none. -/
theorem setstate_overwritten :
    (runCalls 0x1000 [.initstate 1 0x2004 32, .initstate 2 0x2000 32, .setstate 0x2004]
      (start (image 0x1000))).map (fun r => r.2.n.toNat) = some 45219 ∧
    45219 ∉ [0, 7, 15, 31, 63] := by
  decide +kernel

end Mytilus.Prng.Random
