import Mytilus.Prng.RandomSteps

/-!
# The code simulates the bank of generators

`Sim` relates the shared data to a bank: the active buffer's degree and indices
are in the globals and its header may be stale, every other live buffer has them
in its header, and every live buffer holds the words of its generator.  Each call
keeps this relation and returns what the bank's call returns (`Sim.does_call`, from
one lemma for each of the four functions), and touches no word outside the buffers
that are active before it or after it.

`Sim.runCalls` is the same for any sequence of calls, and `sim_start` says that the
built-in table is related to a bank seeded with 1.  Whatever is proved of the bank
then holds of the code.
-/

namespace Mytilus.Prng.Random

open Memory

/-! ## Regions of live buffers -/

theorem Beside.separate {p q : Addr} {m n : ℕ} (h : Beside p m q n) (hp : p.toNat + m ≤ 2 ^ 64)
    (hq : q.toNat + n ≤ 2 ^ 64) : Separate p m q n := by
  rcases h with hle | hle
  · exact separate_of_add_le hle hq
  · exact (separate_of_add_le hle hp).symm

theorem eight_le_bytes (g : Gen) : 8 ≤ g.bytes := by
  cases g with
  | lcg x => exact le_rfl
  | lagged g =>
      have hdegree := g.d.cases
      change 8 ≤ 4 * (g.d.n + 1)
      omega

/-- The words of a buffer do not start at the null address. -/
theorem ptrAdd_four_ne_zero {p : Addr} {m : ℕ} (hm : 8 ≤ m) (hp : p.toNat + m ≤ 2 ^ 64) :
    ptrAdd p 4 ≠ 0 := by
  intro hzero
  have htoNat := congrArg BitVec.toNat hzero
  unfold ptrAdd at htoNat
  bv_omega

theorem degree_toNat (size : BitVec 64) : (degree size).toNat = order (degreeOf size.toNat) := by
  have h32 : size < 32 ↔ size.toNat < 32 := Iff.rfl
  have h64 : size < 64 ↔ size.toNat < 64 := Iff.rfl
  have h128 : size < 128 ↔ size.toNat < 128 := Iff.rfl
  have h256 : size < 256 ↔ size.toNat < 256 := Iff.rfl
  simp only [degree, degreeOf, h32, h64, h128, h256]
  split_ifs <;> rfl

/-- A word of the active buffer. -/
def Bank.ActiveWord (b : Bank) (a : Addr) : Prop := ∃ m, b.size b.active = some m ∧ WordIn b.active m a

/-- The header word at `p` holds the position of the generator. -/
def Header (m : Memory) (p : Addr) (g : Gen) : Prop :=
  ∃ n i j, readWord m p = pack n i j ∧ Position n i j g

theorem Header.of_sameOutside {m m' : Memory} {p q : Addr} {len n : ℕ} {g : Gen}
    (h : Header m q g) (hm : SameOutside p len m m') (hsep : Separate p len q n) (hg : g.bytes ≤ n)
    (hn : n ≤ 2 ^ 64) : Header m' q g := by
  obtain ⟨d, i, j, hread, hposition⟩ := h
  have hbytes := eight_le_bytes g
  have hsame := hm.readLE_eq (k := 0) (w := 4) hsep (by omega) hn
  rw [ptrAdd_zero] at hsame
  exact ⟨d, i, j, hsame.trans hread, hposition⟩

/-- Writing the header leaves the words alone. -/
theorem Represents.of_header {m : Memory} {p : Addr} {g : Gen} (w : BitVec 32)
    (h : Represents m p g) : Represents (writeWord m p w) p g := by
  have hsame : ∀ k < 63, readWord (writeWord m p w) (ptrAdd p (4 * (k + 1))) =
      readWord m (ptrAdd p (4 * (k + 1))) := by
    intro k hk
    have hword := readWord_writeWord m p (j := 0) (k := k + 1) w (by norm_num) (by omega)
    rw [Nat.mul_zero, ptrAdd_zero] at hword
    exact hword
  cases g with
  | lcg x => exact (hsame 0 (by norm_num)).trans h
  | lagged g =>
      intro k hlo hhi
      have hdegree := g.d.cases
      have hindex : g.d.lag.index k < g.d.n := g.d.lag.index_lt k
      exact (hsame _ (by omega)).trans (h k hlo hhi)

/-! ## The relation -/

/-- Every live buffer holds its generator, header included. -/
structure Saved (m : Memory) (b : Bank) : Prop where
  words : ∀ p k, b.size p = some k → Represents m p (b.gen p)
  headers : ∀ p k, b.size p = some k → Header m p (b.gen p)
  valid : b.Valid

structure Sim (table : Addr) (s : Store) (b : Bank) : Prop where
  unlocked : s.lock = 0
  x : At table s b.active
  position : Position s.n s.i s.j (b.gen b.active)
  words : ∀ p k, b.size p = some k → Represents s.mem p (b.gen p)
  headers : ∀ p k, b.size p = some k → p ≠ b.active → Header s.mem p (b.gen p)
  valid : b.Valid

section Relation

variable {table : Addr} {s : Store} {b : Bank}

theorem Sim.active_size (h : Sim table s b) : ∃ k, b.size b.active = some k :=
  Option.isSome_iff_exists.mp h.valid.active

/-- A change inside one live buffer keeps what the others hold. -/
theorem Bank.Valid.separate (h : b.Valid) {p q : Addr} {m n : ℕ} (hp : b.size p = some m)
    (hq : b.size q = some n) (hne : p ≠ q) : Separate p m q n :=
  (h.beside p m q n hp hq hne).separate (h.room p m hp).2 (h.room q n hq).2

/-- What `savestate` achieves: the active buffer's header is up to date too. -/
theorem Sim.saved (h : Sim table s b) :
    Saved (writeWord s.mem b.active (pack s.n s.i s.j)) b := by
  obtain ⟨len, hactive⟩ := h.active_size
  have hroom := h.valid.room _ _ hactive
  have hbytes := eight_le_bytes (b.gen b.active)
  have hframe : SameOutside b.active len s.mem (writeWord s.mem b.active (pack s.n s.i s.j)) := by
    have hheader : SameOutside b.active len s.mem (writeWord s.mem (ptrAdd b.active 0)
        (pack s.n s.i s.j)) := sameOutside_writeWord s.mem _ (by omega) (by omega)
    rwa [ptrAdd_zero] at hheader
  refine ⟨fun p k hp => ?_, fun p k hp => ?_, h.valid⟩
  · by_cases hne : p = b.active
    · subst hne
      exact (h.words _ _ hp).of_header _
    · have hpart := h.valid.room p k hp
      exact (h.words p k hp).of_sameOutside hframe (h.valid.separate hactive hp (Ne.symm hne))
        hpart.1 (by omega)
  · by_cases hne : p = b.active
    · subst hne
      exact ⟨s.n, s.i, s.j, readLE_writeLE_self (n := 4) s.mem _ _ (by norm_num), h.position⟩
    · have hpart := h.valid.room p k hp
      exact (h.headers p k hp hne).of_sameOutside hframe
        (h.valid.separate hactive hp (Ne.symm hne)) hpart.1 (by omega)

/-- A step of the active generator inside its buffer. -/
theorem Sim.set (h : Sim table s b) {s' : Store} {g : Gen} (hlock : s'.lock = 0)
    (hholding : Holding s' b.active g) (hbytes : g.bytes = (b.gen b.active).bytes)
    (hframe : SameOutside b.active (b.gen b.active).bytes s.mem s'.mem) :
    Sim table s' (b.set g) := by
  obtain ⟨len, hactive⟩ := h.active_size
  have hroom := h.valid.room _ _ hactive
  refine ⟨hlock, ⟨h.x.1, .inl hholding.x⟩, ?_, fun p k hp => ?_, fun p k hp hne => ?_,
    h.valid.set hbytes⟩
  · change Position s'.n s'.i s'.j ((b.set g).gen b.active)
    rw [Bank.gen_set_active]
    exact hholding.position
  · by_cases hne : p = b.active
    · subst hne
      rw [Bank.gen_set_active]
      exact hholding.words
    · have hpart := h.valid.room p k hp
      rw [Bank.gen_set_of_ne g hne]
      exact (h.words p k hp).of_sameOutside hframe
        ((h.valid.separate hactive hp (Ne.symm hne)).mono hroom.1 le_rfl) hpart.1 (by omega)
  · have hpart := h.valid.room p k hp
    rw [Bank.gen_set_of_ne (b := b) g hne]
    exact (h.headers p k hp hne).of_sameOutside hframe
      ((h.valid.separate hactive hp (Ne.symm hne)).mono hroom.1 le_rfl) hpart.1 (by omega)

/-- Installing a generator in new memory, once the old one is saved. -/
theorem Saved.install {m : Memory} (h : Saved m b) {s' : Store} {p : Addr} {size : ℕ} {g : Gen}
    (hlock : s'.lock = 0) (hholding : Holding s' p g) (hg : g.bytes ≤ size)
    (hfits : p.toNat + size ≤ 2 ^ 64) (hframe : SameOutside p size m s'.mem) :
    Sim table s' (b.install p size g) := by
  have hbytes := eight_le_bytes g
  refine ⟨hlock, ⟨ptrAdd_four_ne_zero (by omega) hfits, .inl hholding.x⟩, ?_, fun q k hq => ?_,
    fun q k hq hne => ?_, h.valid.install hg hfits⟩
  · change Position s'.n s'.i s'.j ((b.install p size g).gen p)
    rw [Bank.gen_install_self]
    exact hholding.position
  · rcases Bank.size_install hq with ⟨rfl, rfl⟩ | ⟨hne, hsize, hbeside⟩
    · rw [Bank.gen_install_self]
      exact hholding.words
    · have hpart := h.valid.room q k hsize
      rw [Bank.gen_install_of_ne size g hne]
      exact (h.words q k hsize).of_sameOutside hframe (hbeside.separate hpart.2 hfits).symm hpart.1
        (by omega)
  · rcases Bank.size_install hq with ⟨rfl, rfl⟩ | ⟨hne, hsize, hbeside⟩
    · exact absurd rfl hne
    · have hpart := h.valid.room q k hsize
      rw [Bank.gen_install_of_ne size g hne]
      exact (h.headers q k hsize).of_sameOutside hframe (hbeside.separate hpart.2 hfits).symm
        hpart.1 (by omega)

/-- Activating a live buffer, once the old one is saved. -/
theorem Saved.activate {m : Memory} (h : Saved m b) {s' : Store} {p : Addr} {k : ℕ}
    (hp : b.size p = some k) (hlock : s'.lock = 0) (hx : s'.x = ptrAdd p 4)
    (hposition : Position s'.n s'.i s'.j (b.gen p)) (hmem : s'.mem = m) :
    Sim table s' { b with active := p } := by
  have hpart := h.valid.room p k hp
  have hbytes := eight_le_bytes (b.gen p)
  refine ⟨hlock, ⟨ptrAdd_four_ne_zero (by omega) hpart.2, .inl hx⟩, hposition, ?_, ?_, ?_⟩
  · rw [hmem]
    exact h.words
  · rw [hmem]
    exact fun q n hq _ => h.headers q n hq
  · exact { h.valid with active := Option.isSome_iff_exists.mpr ⟨k, hp⟩ }

end Relation

/-! ## The calls -/

section Calls

variable {table : Addr} {s : Store} {b : Bank}

/-- The words a call touches are in the buffer that is active before it or after it. -/
def Bank.Touches (b : Bank) (c : Call) (a : Addr) : Prop :=
  b.ActiveWord a ∨ (b.call c).2.ActiveWord a

theorem Bank.Valid.activeWord (h : b.Valid) {a : Addr}
    (ha : WordIn b.active (b.gen b.active).bytes a) : b.ActiveWord a := by
  obtain ⟨len, hactive⟩ := Option.isSome_iff_exists.mp h.active
  obtain ⟨k, rfl, hk⟩ := ha
  have hroom := h.room _ _ hactive
  exact ⟨len, hactive, k, rfl, by omega⟩

theorem Bank.Valid.activeHeader (h : b.Valid) : b.ActiveWord b.active := by
  have hbytes := eight_le_bytes (b.gen b.active)
  exact h.activeWord ⟨0, (ptrAdd_zero _).symm, by omega⟩

theorem Sim.does_random (h : Sim table s b) :
    Does b.ActiveWord (fun r s' => r = (b.gen b.active).next.1 ∧
      Sim table s' (b.set (b.gen b.active).next.2)) (random table) s := by
  obtain ⟨len, hactive⟩ := h.active_size
  apply Random.does_random h.x h.unlocked h.position (h.words _ _ hactive)
  · exact fun a ha => h.valid.activeWord ha
  · exact fun s' hholding hlock hframe => ⟨rfl, h.set hlock hholding (Bank.bytes_next _) hframe⟩

theorem Sim.does_srandom (h : Sim table s b) (seed : BitVec 32) :
    Does b.ActiveWord (fun _ s' => Sim table s' (b.set (.seeded (b.gen b.active).degree seed)))
      (srandom table seed) s := by
  have hx : At table { s with lock := 1 } b.active := h.x
  have hbounds := h.position.bounds
  have hbytes := Bank.bytes_reseeded (b.gen b.active) seed
  rw [srandom, does_bind, does_lock h.unlocked, does_bind]
  apply does_srandomLocked hx h.position.order_eq hbounds.2.1 hbounds.2.2
  · rw [hbytes]
    exact fun a ha => h.valid.activeWord ha
  · intro s' hholding _ _ hframe
    rw [hbytes] at hframe
    rw [does_unlock]
    exact h.set rfl ⟨hholding.x, hholding.position, hholding.words⟩ hbytes hframe

theorem Sim.does_initstate (h : Sim table s b) {seed : BitVec 32} {p : Addr} {size : BitVec 64}
    (hsize : 8 ≤ size) (hfits : p.toNat + size.toNat ≤ 2 ^ 64) :
    Does (b.Touches (.initstate seed p size))
      (fun r s' => r = b.active ∧
        Sim table s' (b.install p size.toNat (.seeded (degreeOf size.toNat) seed)))
      (initstate table seed p size) s := by
  have hx : At table { s with lock := 1 } b.active := h.x
  have hsmall : ¬ size < 8 := BitVec.not_lt.mpr hsize
  have hbounds := h.position.bounds
  have hsize' : 8 ≤ size.toNat := hsize
  have hroom := Bank.bytes_seeded hsize' seed
  have hvalid := h.valid.install hroom hfits
  have hnew : ∀ a, WordIn p (Gen.seeded (degreeOf size.toNat) seed).bytes a →
      (b.install p size.toNat (.seeded (degreeOf size.toNat) seed)).ActiveWord a := by
    intro a ha
    apply hvalid.activeWord
    change WordIn p ((b.install p _ _).gen p).bytes a
    rwa [Bank.gen_install_self]
  have hcall : b.Touches (.initstate seed p size) = fun a => b.ActiveWord a ∨
      (b.install p size.toNat (.seeded (degreeOf size.toNat) seed)).ActiveWord a := by
    funext a
    rw [Bank.Touches, Bank.call, if_neg hsmall]
  rw [hcall, initstate, if_neg hsmall, does_bind, does_lock h.unlocked, does_bind]
  -- the old buffer gets its header, then the globals go over to the new one
  apply does_savestate hx (.inl h.valid.activeHeader)
  rw [does_bind, does_store, does_bind, does_storeX, does_bind]
  refine does_srandomLocked (d := degreeOf size.toNat) (p := p)
    ⟨ptrAdd_four_ne_zero hsize' hfits, .inl rfl⟩ (degree_toNat size) hbounds.2.1 hbounds.2.2
    (fun a ha => .inr (hnew a ha)) fun t hholding _ _ hframe => ?_
  rw [does_bind]
  -- and the new one its own, inside the bytes just given
  apply does_savestate ⟨ptrAdd_four_ne_zero hsize' hfits, .inl hholding.x⟩
    (.inr hvalid.activeHeader)
  rw [does_bind, does_unlock, does_pure]
  refine ⟨rfl, h.saved.install rfl ⟨rfl, hholding.position, ?_⟩ hroom hfits ?_⟩
  · exact hholding.words.of_header _
  · have hheader : SameOutside p size.toNat t.mem (writeWord t.mem (ptrAdd p 0)
        (pack t.n t.i t.j)) := sameOutside_writeWord t.mem _ (by omega) (by omega)
    rw [ptrAdd_zero] at hheader
    exact (hframe.mono hroom).trans hheader

theorem Sim.does_setstate (h : Sim table s b) {p : Addr} {k : ℕ} (hp : b.size p = some k) :
    Does (b.Touches (.setstate p)) (fun r s' => r = b.active ∧ Sim table s' { b with active := p })
      (setstate table p) s := by
  have hx : At table { s with lock := 1 } b.active := h.x
  have hvalid : ({ b with active := p } : Bank).Valid :=
    { h.valid with active := Option.isSome_iff_exists.mpr ⟨k, hp⟩ }
  obtain ⟨n, i, j, hheader, hposition⟩ := h.saved.headers p k hp
  have hbounds := hposition.bounds
  rw [setstate, does_bind, does_lock h.unlocked, does_bind]
  apply does_savestate hx (.inl h.valid.activeHeader)
  rw [does_bind]
  refine does_loadstate hheader (by omega) (by omega) (by omega) (.inr hvalid.activeHeader) ?_
  rw [does_bind, does_unlock, does_pure]
  exact ⟨rfl, h.saved.activate hp rfl rfl hposition rfl⟩

/-- `initstate` with too small a buffer performs no operation at all. -/
theorem initstate_small {seed : BitVec 32} {p : Addr} {size : BitVec 64} (hsize : size < 8) :
    initstate table seed p size = pure 0 :=
  if_pos hsize

/-- Each call does on the shared data what it does on the bank. -/
theorem Sim.does_call (h : Sim table s b) {c : Call} (hc : b.Allows c) :
    Does (b.Touches c) (fun r s' => r = (b.call c).1 ∧ Sim table s' (b.call c).2) (c.code table) s := by
  cases c with
  | random =>
      rw [Call.code, does_bind]
      apply h.does_random.mono fun _ ho => ho.mono fun _ => Or.inl
      rintro v s' ⟨rfl, hsim⟩
      exact ⟨rfl, hsim⟩
  | srandom seed =>
      rw [Call.code, does_bind]
      apply (h.does_srandom seed).mono fun _ ho => ho.mono fun _ => Or.inl
      rintro v s' hsim
      exact ⟨rfl, hsim⟩
  | initstate seed p size =>
      rw [Call.code, does_bind]
      by_cases hsmall : size < 8
      · rw [initstate_small hsmall, does_pure, does_pure, Bank.call, if_pos hsmall]
        exact ⟨rfl, h⟩
      · have hsize : 8 ≤ size := BitVec.not_lt.mp hsmall
        apply (h.does_initstate hsize (hc hsize)).mono fun _ ho => ho
        rintro v s' ⟨rfl, hsim⟩
        rw [does_pure, Bank.call, if_neg hsmall]
        exact ⟨rfl, hsim⟩
  | setstate p =>
      obtain ⟨k, hp⟩ := Option.isSome_iff_exists.mp hc
      rw [Call.code, does_bind]
      apply (h.does_setstate hp).mono fun _ ho => ho
      rintro v s' ⟨rfl, hsim⟩
      exact ⟨rfl, hsim⟩

theorem runCalls_cons {c : Call} {cs : List Call} {r : Reply} {rs : List Reply} {s' s'' : Store}
    {log : List Op} (hcall : (c.code table).run exec s = some (r, s', log))
    (hrest : runCalls table cs s' = some (rs, s'')) :
    runCalls table (c :: cs) s = some (r :: rs, s'') := by
  simp only [runCalls, hcall, hrest, Option.bind_eq_bind, Option.bind_some, Option.pure_def]

/-- A run of allowed calls returns what the bank returns. -/
theorem Sim.runCalls (h : Sim table s b) {cs : List Call} (hcs : b.Allowed cs) :
    ∃ s', runCalls table cs s = some ((b.calls cs).1, s') ∧ Sim table s' (b.calls cs).2 := by
  induction cs generalizing s b with
  | nil => exact ⟨s, rfl, h⟩
  | cons c cs ih =>
      obtain ⟨hc, hrest⟩ := hcs
      obtain ⟨r, s', log, hrun, ⟨rfl, hsim⟩, -⟩ := Prog.runs_iff.mp (h.does_call hc)
      obtain ⟨t, hruns, hsims⟩ := ih hsim hrest
      exact ⟨t, runCalls_cons hrun hruns, hsims⟩

end Calls

/-! ## Program start -/

/-- The built-in table is what `srandom(1)` computes. -/
theorem random_init_eq : ∀ k < 31, RANDOM_INIT[k + 1]? = some (seedWord 1 k) := by decide

theorem sim_start {table : Addr} {mem : Memory} (h : Loaded table mem) :
    Sim table (start mem) (Bank.start table) := by
  have hvalid := Bank.valid_start h.fits
  refine ⟨rfl, ⟨ptrAdd_four_ne_zero (by norm_num) h.fits, .inr ⟨rfl, rfl⟩⟩, ⟨rfl, rfl, rfl⟩,
    fun p k hp => ?_, fun p k hp hne => ?_, hvalid⟩
  · obtain ⟨rfl, rfl⟩ := Bank.size_start hp
    refine represents_seeded (d := degree31) fun k hk => Option.some.inj ?_
    have hk31 : k < 31 := hk
    exact (h.words (k + 1) (by omega)).trans (random_init_eq k hk)
  · exact absurd (Bank.size_start hp).1 hne

end Mytilus.Prng.Random
