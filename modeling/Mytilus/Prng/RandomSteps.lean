import Mytilus.Prng.Bank

/-!
# What the pieces of `random` do to a state buffer

One specification for each internal function, in terms of the generator a buffer
holds: `Represents m p g` for the words of the buffer at `p`, `Position n i j g`
for the degree and the two indices, which are in the globals while the buffer is
active and packed in its header word while it is not.

`does_xPtr`, `does_savestate`, `does_loadstate`, `does_srandomLocked` and `does_random`
are these specifications, each with the words it touches (`WordsIn`); the calls cite
them and do not look at the code again.  The one loop is that of seeding
(`does_seedLoop`), which fills the slots from the bottom.
-/

namespace Mytilus.Prng.Random

open Memory

/-! ## Rules for the operations -/

/-- The word accesses are all at addresses in `A`. -/
def WordsIn (A : Addr → Prop) : Op → Prop
  | .loadWord a | .storeWord a _ => A a
  | _ => True

theorem WordsIn.mono {A A' : Addr → Prop} {o : Op} (h : WordsIn A o) (hA : ∀ a, A a → A' a) :
    WordsIn A' o := by
  cases o with
  | loadWord a | storeWord a => exact hA a h
  | lock | unlock | load | store | loadX | storeX => trivial

/-- The code runs to its end, accesses words in `A` only, and leaves `Q`. -/
abbrev Does {α : Type} (A : Addr → Prop) (Q : α → Store → Prop) (code : Code α) (s : Store) : Prop :=
  Prog.Runs exec (WordsIn A) Q code s

section Rules

variable {A : Addr → Prop} {s : Store}

theorem does_perform {o : Op} {r : o.Reply} {s' : Store} {Q : o.Reply → Store → Prop}
    (hexec : exec o s = some (r, s')) : Does A Q (Prog.perform o) s ↔ WordsIn A o ∧ Q r s' := by
  rw [Does, Prog.runs_perform, hexec]
  constructor
  · rintro ⟨hwords, r', t, heq, hQ⟩
    cases heq
    exact ⟨hwords, hQ⟩
  · rintro ⟨hwords, hQ⟩
    exact ⟨hwords, r, s', rfl, hQ⟩

theorem does_lock {Q : Unit → Store → Prop} (h : s.lock = 0) :
    Does A Q lock s ↔ Q () { s with lock := 1 } :=
  (does_perform (o := Op.lock) (if_pos h)).trans (iff_of_eq (true_and _))

theorem does_unlock {Q : Unit → Store → Prop} : Does A Q unlock s ↔ Q () { s with lock := 0 } :=
  (does_perform (o := Op.unlock) rfl).trans (iff_of_eq (true_and _))

theorem does_load {v : Var} {Q : BitVec 32 → Store → Prop} : Does A Q (load v) s ↔ Q (s.get v) s :=
  (does_perform (o := Op.load v) rfl).trans (iff_of_eq (true_and _))

theorem does_store {v : Var} {c : BitVec 32} {Q : Unit → Store → Prop} :
    Does A Q (store v c) s ↔ Q () (s.set v c) :=
  (does_perform (o := Op.store v c) rfl).trans (iff_of_eq (true_and _))

theorem does_loadX {Q : Addr → Store → Prop} : Does A Q loadX s ↔ Q s.x s :=
  (does_perform (o := Op.loadX) rfl).trans (iff_of_eq (true_and _))

theorem does_storeX {p : Addr} {Q : Unit → Store → Prop} :
    Does A Q (storeX p) s ↔ Q () { s with x := p } :=
  (does_perform (o := Op.storeX p) rfl).trans (iff_of_eq (true_and _))

theorem does_loadWord {p : Addr} {Q : BitVec 32 → Store → Prop} :
    Does A Q (loadWord p) s ↔ A p ∧ Q (readWord s.mem p) s :=
  does_perform (o := Op.loadWord p) rfl

theorem does_storeWord {p : Addr} {w : BitVec 32} {Q : Unit → Store → Prop} :
    Does A Q (storeWord p w) s ↔ A p ∧ Q () { s with mem := writeWord s.mem p w } :=
  does_perform (o := Op.storeWord p w) rfl

theorem does_bind {α β : Type} {p : Code α} {f : α → Code β} {Q : β → Store → Prop} :
    Does A Q (p >>= f) s ↔ Does A (fun a s' => Does A Q (f a) s') p s :=
  Prog.runs_bind

theorem does_pure {α : Type} {a : α} {Q : α → Store → Prop} : Does A Q (pure a) s ↔ Q a s :=
  Prog.runs_pure

end Rules

/-! ## Words of a buffer -/

/-- A word inside the `len` bytes at `p`. -/
def WordIn (p : Addr) (len : ℕ) (a : Addr) : Prop := ∃ k, a = ptrAdd p k ∧ k + 4 ≤ len

theorem sameOutside_writeWord {p : Addr} {len k : ℕ} (m : Memory) (w : BitVec 32)
    (hk : k + 4 ≤ len) (hlen : len ≤ 2 ^ 64) : SameOutside p len m (writeWord m (ptrAdd p k) w) :=
  fun _ ha => writeLE_of_not_within m w fun hin => ha (hin.of_part hk hlen)

/-- Aligned words of one buffer. -/
theorem readWord_writeWord (m : Memory) (p : Addr) {j k : ℕ} (w : BitVec 32)
    (hj : 4 * j + 4 ≤ 2 ^ 64) (hk : 4 * k + 4 ≤ 2 ^ 64) :
    readWord (writeWord m (ptrAdd p (4 * j)) w) (ptrAdd p (4 * k)) =
      if k = j then w else readWord m (ptrAdd p (4 * k)) := by
  by_cases hjk : k = j
  · subst hjk
    rw [if_pos rfl]
    exact readLE_writeLE_self (n := 4) m _ w (by norm_num)
  · have hsep : Separate (ptrAdd p (4 * j)) 4 (ptrAdd p (4 * k)) 4 := by
      rcases Nat.lt_or_gt_of_ne hjk with hlt | hlt
      · exact (separate_of_le (by omega) (by omega)).symm
      · exact separate_of_le (by omega) (by omega)
    rw [if_neg hjk]
    exact readLE_writeLE_of_separate m w hsep (by norm_num)

theorem wordAdd_ptrAdd (p : Addr) (k : ℕ) :
    wordAdd (ptrAdd p 4) (BitVec.ofNat 64 k) = ptrAdd p (4 * (k + 1)) := by
  have hmul : 4 * BitVec.ofNat 64 k = BitVec.ofNat 64 (4 * k) := (BitVec.ofNat_mul 4 k).symm
  rw [wordAdd, hmul, show ptrAdd p 4 + BitVec.ofNat 64 (4 * k) = ptrAdd (ptrAdd p 4) (4 * k) from rfl,
    ptrAdd_ptrAdd, Nat.mul_add_one, Nat.add_comm]

/-! ## Generators in memory -/

/-- The buffer at `p` holds the words of the generator. -/
def Represents (m : Memory) (p : Addr) : Gen → Prop
  | .lcg x => readWord m (ptrAdd p 4) = x
  | .lagged g => g.d.lag.Holds g.x g.t fun k => readWord m (ptrAdd p (4 * (k + 1)))

/-- The degree and the indices of the generator. -/
def Position (n i j : BitVec 32) : Gen → Prop
  | .lcg _ => n.toNat = 0 ∧ i.toNat < 63 ∧ j.toNat < 63
  | .lagged g => n.toNat = g.d.n ∧ i.toNat = g.d.lag.index g.t ∧ j.toNat = g.t % g.d.n

/-- `RAND_X` is the first word of the buffer at `p`, if need be after initialisation. -/
def At (table : Addr) (s : Store) (p : Addr) : Prop :=
  ptrAdd p 4 ≠ 0 ∧ (s.x = ptrAdd p 4 ∨ s.x = 0 ∧ p = table)

theorem Position.bounds {n i j : BitVec 32} {g : Gen} (h : Position n i j g) :
    n.toNat ≤ 63 ∧ i.toNat < 63 ∧ j.toNat < 63 := by
  cases g with
  | lcg x => exact ⟨by rw [h.1]; norm_num, h.2⟩
  | lagged g =>
      obtain ⟨hn, hi, hj⟩ := h
      have hdegree := g.d.cases
      have hindex := g.d.lag.index_lt g.t
      have hmod := Nat.mod_lt g.t g.d.lag.n_pos
      change g.d.lag.index g.t < g.d.n at hindex
      change g.t % g.d.n < g.d.n at hmod
      omega

theorem Position.order_eq {n i j : BitVec 32} {g : Gen} (h : Position n i j g) :
    n.toNat = order g.degree := by
  cases g with
  | lcg x => exact h.1
  | lagged g => exact h.1

theorem Represents.of_sameOutside {m m' : Memory} {p q : Addr} {len n : ℕ} {g : Gen}
    (h : Represents m q g) (hm : SameOutside p len m m') (hsep : Separate p len q n)
    (hg : g.bytes ≤ n) (hn : n ≤ 2 ^ 64) : Represents m' q g := by
  cases g with
  | lcg x => exact (hm.readLE_eq hsep hg hn).trans h
  | lagged g =>
      intro k hlo hhi
      have hindex : g.d.lag.index k < g.d.n := g.d.lag.index_lt k
      rw [← h k hlo hhi]
      refine hm.readLE_eq hsep ?_ hn
      change 4 * (g.d.n + 1) ≤ n at hg
      omega

/-! ## The header word -/

/-- `(n << 16) | (i << 8) | j` -/
def pack (n i j : BitVec 32) : BitVec 32 := (n <<< 16) ||| (i <<< 8) ||| j

theorem pack_toNat {n i j : BitVec 32} (hn : n.toNat < 2 ^ 16) (hi : i.toNat < 2 ^ 8)
    (hj : j.toNat < 2 ^ 8) : (pack n i j).toNat = n.toNat * 2 ^ 16 + i.toNat * 2 ^ 8 + j.toNat := by
  have hhigh : n.toNat * 2 ^ 16 ||| i.toNat * 2 ^ 8 = n.toNat * 2 ^ 16 + i.toNat * 2 ^ 8 := by
    rw [← Nat.shiftLeft_eq, ← Nat.shiftLeft_add_eq_or_of_lt (by omega)]
  have hlow : (n.toNat * 2 ^ 8 + i.toNat) * 2 ^ 8 ||| j.toNat =
      (n.toNat * 2 ^ 8 + i.toNat) * 2 ^ 8 + j.toNat := by
    rw [← Nat.shiftLeft_eq, ← Nat.shiftLeft_add_eq_or_of_lt hj]
  rw [pack, BitVec.toNat_or, BitVec.toNat_or, BitVec.toNat_shiftLeft, BitVec.toNat_shiftLeft,
    Nat.shiftLeft_eq, Nat.shiftLeft_eq, Nat.mod_eq_of_lt (by omega), Nat.mod_eq_of_lt (by omega),
    hhigh, show n.toNat * 2 ^ 16 + i.toNat * 2 ^ 8 = (n.toNat * 2 ^ 8 + i.toNat) * 2 ^ 8 by ring,
    hlow]

/-- What `loadstate` takes out of a header is what `savestate` packed. -/
theorem unpack {n i j : BitVec 32} (hn : n.toNat < 2 ^ 16) (hi : i.toNat < 2 ^ 8)
    (hj : j.toNat < 2 ^ 8) :
    pack n i j >>> 16 = n ∧ (pack n i j >>> 8) &&& 0xff = i ∧ pack n i j &&& 0xff = j := by
  have hpack := pack_toNat hn hi hj
  have hmask : ∀ w : BitVec 32, (w &&& 0xff).toNat = w.toNat % 2 ^ 8 := fun w =>
    (BitVec.toNat_and ..).trans (Nat.and_two_pow_sub_one_eq_mod w.toNat 8)
  refine ⟨?_, ?_, ?_⟩ <;> apply BitVec.eq_of_toNat_eq
  · rw [BitVec.toNat_ushiftRight, hpack, Nat.shiftRight_eq_div_pow]
    omega
  · rw [hmask, BitVec.toNat_ushiftRight, hpack, Nat.shiftRight_eq_div_pow]
    omega
  · rw [hmask, hpack]
    omega

/-! ## The internal functions -/

section Pieces

variable {table p : Addr} {A : Addr → Prop} {s : Store}

theorem does_xPtr {Q : Addr → Store → Prop} (h : At table s p)
    (hQ : Q (ptrAdd p 4) { s with x := ptrAdd p 4 }) : Does A Q (xPtr table) s := by
  obtain ⟨hne, hx | ⟨hx, rfl⟩⟩ := h
  · have hsame : { s with x := ptrAdd p 4 } = s := by rw [← hx]
    rw [xPtr, does_bind, does_loadX, if_pos (by rwa [hx]), does_pure, hx]
    rwa [hsame] at hQ
  · rw [xPtr, does_bind, does_loadX, if_neg (not_not.mpr hx), does_bind, does_storeX, does_pure]
    exact hQ

theorem does_savestate {Q : Addr → Store → Prop} (h : At table s p) (hA : A p)
    (hQ : Q p { s with x := ptrAdd p 4, mem := writeWord s.mem p (pack s.n s.i s.j) }) :
    Does A Q (savestate table) s := by
  have hback : ptrAdd p 4 - 4 = p := BitVec.add_sub_cancel p 4
  rw [savestate, does_bind]
  apply does_xPtr h
  simp only [does_bind, does_load, does_storeWord, does_pure, hback]
  exact ⟨hA, hQ⟩

theorem does_loadstate {Q : Unit → Store → Prop} {n i j : BitVec 32}
    (hheader : readWord s.mem p = pack n i j) (hn : n.toNat < 2 ^ 16) (hi : i.toNat < 2 ^ 8)
    (hj : j.toNat < 2 ^ 8) (hA : A p)
    (hQ : Q () { s with x := ptrAdd p 4, n := n, i := i, j := j }) : Does A Q (loadstate p) s := by
  obtain ⟨hunpackN, hunpackI, hunpackJ⟩ := unpack hn hi hj
  simp only [loadstate, does_bind, does_storeX, does_loadWord, does_store, hheader, hunpackN,
    hunpackI, hunpackJ]
  exact ⟨hA, hQ⟩

theorem signExtend_of_small {v : BitVec 32} (hv : v.toNat < 2 ^ 31) :
    v.signExtend 64 = BitVec.ofNat 64 v.toNat := by
  have hmsb : v.msb = false := BitVec.msb_eq_false_iff_two_mul_lt.mpr (by omega)
  rw [BitVec.signExtend_eq_setWidth_of_msb_false hmsb]
  apply BitVec.eq_of_toNat_eq
  rw [BitVec.toNat_setWidth, BitVec.toNat_ofNat]

/-- The indices of a generator with a recurrence are those of words in the buffer. -/
theorem Position.slots {n i j : BitVec 32} {g : Lagged} (h : Position n i j (.lagged g))
    (p : Addr) :
    n ≠ 0 ∧ i.toNat < g.d.n ∧ j.toNat < g.d.n ∧
      wordAdd (ptrAdd p 4) (i.signExtend 64) = ptrAdd p (4 * (i.toNat + 1)) ∧
      wordAdd (ptrAdd p 4) (j.signExtend 64) = ptrAdd p (4 * (j.toNat + 1)) := by
  obtain ⟨hnle, hi63, hj63⟩ := h.bounds
  obtain ⟨hn, hi, hj⟩ := h
  have hindex : i.toNat < g.d.n := hi ▸ g.d.lag.index_lt g.t
  have hmod : j.toNat < g.d.n := hj ▸ Nat.mod_lt g.t g.d.lag.n_pos
  have hslot : ∀ v : BitVec 32, v.toNat < 63 →
      wordAdd (ptrAdd p 4) (v.signExtend 64) = ptrAdd p (4 * (v.toNat + 1)) := by
    intro v hv
    rw [signExtend_of_small (by omega), wordAdd_ptrAdd]
  refine ⟨?_, hindex, hmod, hslot i hi63, hslot j hj63⟩
  rintro rfl
  rw [← hn] at hindex
  exact Nat.not_lt_zero _ hindex

/-- The index `random` stores: one further, or back to zero at the end. -/
theorem wrap_toNat {i n : BitVec 32} (hi : i.toNat < 63) (hn : n.toNat ≤ 63) :
    (if i.signExtend 64 + 1 = n.signExtend 64 then 0
      else (i.signExtend 64 + 1).setWidth 32 : BitVec 32).toNat =
      if i.toNat + 1 = n.toNat then 0 else i.toNat + 1 := by
  rw [signExtend_of_small (by omega), signExtend_of_small (by omega)]
  have hiff : BitVec.ofNat 64 i.toNat + 1 = BitVec.ofNat 64 n.toNat ↔ i.toNat + 1 = n.toNat := by
    rw [← BitVec.toNat_inj, BitVec.toNat_add, BitVec.toNat_ofNat, BitVec.toNat_ofNat]
    have hone : (1 : BitVec 64).toNat = 1 := rfl
    omega
  simp only [hiff]
  by_cases hwrap : i.toNat + 1 = n.toNat
  · rw [if_pos hwrap, if_pos hwrap]
    rfl
  · have hone : (1 : BitVec 64).toNat = 1 := rfl
    rw [if_neg hwrap, if_neg hwrap, BitVec.toNat_setWidth, BitVec.toNat_add, BitVec.toNat_ofNat]
    omega

/-- The words of the buffer from round `k` on: the earlier ones are set, the rest follow. -/
theorem does_seedLoop {Q : Unit → Store → Prop} {seed : BitVec 32} {m : Memory} {n r k : ℕ}
    (hkr : k + r = n) (hn : n ≤ 63) (hA : ∀ a, WordIn p (4 * (n + 1)) a → A a)
    (hframe : SameOutside p (4 * (n + 1)) m s.mem)
    (hwords : ∀ l < k, readWord s.mem (ptrAdd p (4 * (l + 1))) = rawWord seed l)
    (hQ : ∀ m', SameOutside p (4 * (n + 1)) m m' →
      (∀ l < n, readWord m' (ptrAdd p (4 * (l + 1))) = rawWord seed l) → Q () { s with mem := m' }) :
    Does A Q (seedLoop (ptrAdd p 4) r k (lcg64^[k] (seed.setWidth 64))) s := by
  induction r generalizing k s with
  | zero =>
      obtain rfl : k = n := hkr
      exact does_pure.mpr (hQ s.mem hframe hwords)
  | succ r ih =>
      have hstate : lcg64 (lcg64^[k] (seed.setWidth 64)) = lcg64^[k + 1] (seed.setWidth 64) :=
        (Function.iterate_succ_apply' ..).symm
      rw [seedLoop, does_bind, does_storeWord, wordAdd_ptrAdd, hstate]
      refine ⟨hA _ ⟨4 * (k + 1), rfl, by omega⟩, ?_⟩
      apply ih (by omega)
      · exact hframe.trans (sameOutside_writeWord _ _ (by omega) (by omega))
      · intro l hl
        rw [readWord_writeWord _ _ _ (by omega) (by omega)]
        by_cases hlk : l + 1 = k + 1
        · rw [if_pos hlk, Nat.succ_injective hlk]
          rfl
        · rw [if_neg hlk]
          exact hwords l (by omega)
      · exact hQ

/-- What a function that leaves the generator `g` in the buffer at `p` ensures. -/
structure Holding (s : Store) (p : Addr) (g : Gen) : Prop where
  x : s.x = ptrAdd p 4
  position : Position s.n s.i s.j g
  words : Represents s.mem p g

/-- `RAND_N == 31 || RAND_N == 7` -/
theorem does_three {Q : Bool → Store → Prop} (hQ : Q (decide (s.n = 31 ∨ s.n = 7)) s) :
    Does A Q (if s.n = 31 then pure true else do
      let n ← load .n
      pure (decide (n = 7))) s := by
  by_cases h31 : s.n = 31
  · rw [if_pos h31, does_pure]
    rwa [decide_eq_true (Or.inl h31)] at hQ
  · rw [if_neg h31, does_bind, does_load, does_pure]
    change Q (decide (s.n = 7)) s
    simpa only [h31, false_or] using hQ

/-- Seeding starts the recurrence over from the words of the seed. -/
theorem represents_seeded {m : Memory} {d : Degree} {seed : BitVec 32}
    (h : ∀ k < d.n, readWord m (ptrAdd p (4 * (k + 1))) = seedWord seed k) :
    Represents m p (.seeded (some d) seed) := by
  intro k hlo hhi
  have hword := h _ (d.lag.index_lt k)
  exact hword.trans (d.lag.holds_zero (seedWord seed) k hlo hhi)

/-- The index that seeding starts from is the separation of the degree. -/
theorem toNat_startIndex {n : BitVec 32} {d : Degree} (hn : n.toNat = d.n) :
    (if decide (n = 31 ∨ n = 7) then 3 else 1 : BitVec 32).toNat = d.sep := by
  have hiff : (n = 31 ∨ n = 7) ↔ (d.n = 31 ∨ d.n = 7) := by
    rw [← BitVec.toNat_inj, ← BitVec.toNat_inj, hn]
    exact Iff.rfl
  simp only [hiff, Degree.sep, decide_eq_true_eq]
  split_ifs <;> rfl

/-- The words of the seed, once the first of them is made odd. -/
theorem represents_first_odd {m : Memory} {d : Degree} {seed : BitVec 32}
    (h : ∀ k < d.n, readWord m (ptrAdd p (4 * (k + 1))) = rawWord seed k) :
    Represents (writeWord m (ptrAdd p 4) (readWord m (ptrAdd p 4) ||| 1)) p
      (.seeded (some d) seed) := by
  have hdegree := d.cases
  have hfirst : readWord m (ptrAdd p 4) = rawWord seed 0 := h 0 (by omega)
  refine represents_seeded fun k hk => ?_
  change readWord (writeWord m (ptrAdd p (4 * 1)) _) _ = _
  rw [readWord_writeWord _ _ _ (by norm_num) (by omega), seedWord]
  by_cases hk0 : k = 0
  · rw [if_pos (by omega), if_pos hk0]
    exact congrArg (· ||| 1) hfirst
  · rw [if_neg (by omega), if_neg hk0]
    exact h k hk

theorem does_srandomLocked {Q : Unit → Store → Prop} {d : Option Degree} {seed : BitVec 32}
    (h : At table s p) (hn : s.n.toNat = order d) (hi : s.i.toNat < 63) (hj : s.j.toNat < 63)
    (hA : ∀ a, WordIn p (Gen.seeded d seed).bytes a → A a)
    (hQ : ∀ s', Holding s' p (.seeded d seed) → s'.n = s.n → s'.lock = s.lock →
      SameOutside p (Gen.seeded d seed).bytes s.mem s'.mem → Q () s') :
    Does A Q (srandomLocked table seed) s := by
  rw [srandomLocked, does_bind]
  apply does_xPtr h
  rw [does_bind, does_load]
  cases d with
  | none =>
      have hzero : s.n = 0 := BitVec.eq_of_toNat_eq hn
      change Does A Q (if s.n = 0 then _ else _) _
      rw [if_pos hzero, does_storeWord]
      refine ⟨hA _ ⟨4, rfl, le_rfl⟩, hQ _ ⟨rfl, ⟨hn, hi, hj⟩, ?_⟩ rfl rfl ?_⟩
      · exact readLE_writeLE_self (n := 4) s.mem _ seed (by norm_num)
      · exact sameOutside_writeWord s.mem seed le_rfl (by norm_num [Gen.seeded, Gen.bytes])
  | some d =>
      have hdegree := d.cases
      have hn' : s.n.toNat = d.n := hn
      have hne : s.n ≠ 0 := fun hzero => by
        have htoNat : s.n.toNat = 0 := by rw [hzero]; rfl
        omega
      have hrounds : s.n.toInt.toNat = d.n := by
        rw [BitVec.toInt_eq_toNat_of_lt (by omega), hn, Int.toNat_natCast]
        rfl
      have hseed : lcg64^[0] (seed.setWidth 64) = seed.setWidth 64 := rfl
      change Does A Q (if s.n = 0 then _ else _) _
      rw [if_neg hne, does_bind, does_load, does_bind]
      refine does_three ?_
      obtain ⟨c, hc, hsep⟩ : ∃ c : BitVec 32, (if decide (s.n = 31 ∨ s.n = 7) then 3 else 1) = c ∧
          c.toNat = d.sep := ⟨_, rfl, toNat_startIndex hn'⟩
      change Does A Q (do
        store .i (if decide (s.n = 31 ∨ s.n = 7) then 3 else 1)
        store .j 0
        let n ← load .n
        seedLoop (ptrAdd p 4) n.toInt.toNat 0 (seed.setWidth 64)
        let w ← loadWord (ptrAdd p 4)
        storeWord (ptrAdd p 4) (w ||| 1)) _
      -- the indices are stored before the buffer is filled
      rw [hc, does_bind, does_store, does_bind, does_store, does_bind, does_load, does_bind]
      change Does A _ (seedLoop _ s.n.toInt.toNat 0 _) { s with x := ptrAdd p 4, i := c, j := 0 }
      rw [hrounds, ← hseed]
      refine does_seedLoop (Nat.zero_add d.n) (by omega) hA (SameOutside.refl _ _ s.mem)
        (fun l hl => absurd hl (Nat.not_lt_zero l)) fun m' hframe hwords => ?_
      rw [does_bind, does_loadWord, does_storeWord]
      have hin : WordIn p (Gen.seeded (some d) seed).bytes (ptrAdd p 4) := by
        refine ⟨4, rfl, ?_⟩
        change 4 + 4 ≤ 4 * (d.n + 1)
        omega
      refine ⟨hA _ hin, hA _ hin, hQ _ ⟨rfl, ⟨hn, ?_, ?_⟩, represents_first_odd hwords⟩ rfl rfl ?_⟩
      · change c.toNat = (d.sep + 0) % d.n
        rw [Nat.add_zero, hsep]
        exact (Nat.mod_eq_of_lt d.lag.sep_lt).symm
      · exact (Nat.zero_mod d.n).symm
      · exact hframe.trans (sameOutside_writeWord m' _ (by omega) (by omega))

/-- The sum of the two words is the next term, and writing it moves the buffer on. -/
theorem Represents.step {m : Memory} {g : Lagged} (h : Represents m p (.lagged g)) :
    readWord m (ptrAdd p (4 * (g.d.lag.index g.t + 1))) +
        readWord m (ptrAdd p (4 * (g.t % g.d.n + 1))) = g.d.lag.seq g.x (g.d.n + g.t) ∧
      Represents (writeWord m (ptrAdd p (4 * (g.d.lag.index g.t + 1)))
        (g.d.lag.seq g.x (g.d.n + g.t))) p (.lagged { g with t := g.t + 1 }) := by
  have hlag : g.d.lag.Holds g.x g.t fun k => readWord m (ptrAdd p (4 * (k + 1))) := h
  obtain ⟨hsum, hholds⟩ := hlag.step
  refine ⟨hsum, fun k hlo hhi => Eq.trans ?_ (hholds k hlo hhi)⟩
  have hdegree := g.d.cases
  have hk : g.d.lag.index k < g.d.n := g.d.lag.index_lt k
  have hindex : g.d.lag.index g.t < g.d.n := g.d.lag.index_lt g.t
  change readWord _ (ptrAdd p (4 * (g.d.lag.index k + 1))) = _
  rw [readWord_writeWord _ _ _ (by omega) (by omega), Function.update_apply]
  simp only [Nat.add_right_cancel_iff]
  rfl

/-- The active generator moves by one, and `random` returns what it gives. -/
theorem does_random {Q : BitVec 64 → Store → Prop} {g : Gen} (h : At table s p)
    (hlock : s.lock = 0) (hposition : Position s.n s.i s.j g) (hwords : Represents s.mem p g)
    (hA : ∀ a, WordIn p g.bytes a → A a)
    (hQ : ∀ s', Holding s' p g.next.2 → s'.lock = 0 → SameOutside p g.bytes s.mem s'.mem →
      Q g.next.1 s') :
    Does A Q (random table) s := by
  have hlocked : At table { s with lock := 1 } p := h
  rw [random, does_bind, does_lock hlock, does_bind]
  apply does_xPtr hlocked
  rw [does_bind, does_load, does_bind]
  change Does A _ (if s.n = 0 then _ else _) { s with x := ptrAdd p 4, lock := 1 }
  cases g with
  | lcg x =>
      have hzero : s.n = 0 := BitVec.eq_of_toNat_eq hposition.1
      have hin : A (ptrAdd p 4) := hA _ ⟨4, rfl, le_rfl⟩
      have hword : readWord s.mem (ptrAdd p 4) = x := hwords
      rw [if_pos hzero]
      simp only [does_bind, does_loadWord, does_storeWord, does_unlock, does_pure, hword]
      refine ⟨hin, hin, hQ _ ⟨rfl, ⟨hposition.1, hposition.2⟩, ?_⟩ rfl ?_⟩
      · exact readLE_writeLE_self (n := 4) s.mem _ (lcg31 x) (by norm_num)
      · exact sameOutside_writeWord s.mem _ le_rfl (by norm_num [Gen.bytes])
  | lagged g =>
      obtain ⟨hnle, hi63, hj63⟩ := hposition.bounds
      obtain ⟨hne, hilt, hjlt, hslot, hslot'⟩ := hposition.slots p
      obtain ⟨hn, hi, hj⟩ := hposition
      have hin : ∀ k < g.d.n, WordIn p (Gen.bytes (.lagged g)) (ptrAdd p (4 * (k + 1))) := by
        intro k hk
        refine ⟨_, rfl, ?_⟩
        change _ ≤ 4 * (g.d.n + 1)
        omega
      obtain ⟨hsum, hnext⟩ := hwords.step
      rw [← hi, ← hj] at hsum
      rw [if_neg hne]
      simp only [does_bind, does_load, does_loadWord, does_storeWord, does_store, does_unlock,
        does_pure, Store.get, Store.set]
      rw [hslot, hslot']
      refine ⟨hA _ (hin _ hilt), hA _ (hin _ hjlt), hA _ (hin _ hilt), ?_⟩
      rw [hsum, hi]
      refine hQ _ ⟨rfl, ⟨hn, ?_, ?_⟩, hnext⟩ rfl ?_
      · refine (wrap_toNat (i := s.i) (n := s.n) (by omega) (by omega)).trans ?_
        rw [hn, hi]
        exact Lag.wrap_succ g.d.lag.n_pos
      · refine (wrap_toNat (i := s.j) (n := s.n) (by omega) (by omega)).trans ?_
        rw [hn, hj]
        exact Lag.wrap_succ g.d.lag.n_pos
      · refine sameOutside_writeWord s.mem _ ?_ ?_ <;> simp only [Gen.bytes] <;> omega

end Pieces

end Mytilus.Prng.Random
