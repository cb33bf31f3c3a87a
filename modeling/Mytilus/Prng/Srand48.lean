import Mytilus.Prng.Rand48Streams

/-!
# What the sequence after `srand48` depends on

`srand48` and `seed48` set the state of the global stream and leave the
multiplier and the addend as the last `lcong48` set them (`srand48_params`,
`seed48From_params`).  Whatever else a program does, no seeding restores
`0x5deece66d` and `0xb` (`after_params`), and after `lcong48` every stream is the
generator it has installed: `lcong48_streams_refine`.

So two programs that seed alike need not draw alike: `srand48_deterministic_iff` says
that they do, for all seeds, exactly when the parameters in place are the same, or
differ only in the top bit of the multiplier while the addend is even (the states
after any seed are then even, and the top bit of the multiplier is lost).  That is
arithmetic on two parameter sets: the first states after the seeds 0 and 1 fix the
addend and all but the top bit of the multiplier (`params_of_first_states`).
-/

namespace Mytilus.Prng

open Memory

/-! ## Histories -/

/-- A call of any function of the family. -/
inductive Call
  | draw (d : Draw)
  | srand48 (seed : BitVec 64)
  | seed48 (s : Addr)
  | lcong48 (p : Addr)

variable (st : Statics)

def Call.exec : Call → Memory → Value × Memory
  | .draw d => d.exec st
  | .srand48 seed => Prng.srand48 st seed
  | .seed48 s => Prng.seed48 st s
  | .lcong48 p => Prng.lcong48 st p

/-- What a program does: it calls the family and stores bytes of its own. -/
inductive Event
  | call (c : Call)
  | store (a : Addr) (b : Byte)

def Event.exec : Event → Memory → Memory
  | .call c, m => (c.exec st m).2
  | .store a b, m => m.write a b

/-- The memory after a history. -/
def after (history : List Event) (m : Memory) : Memory :=
  history.foldl (fun m event => event.exec st m) m

/-- Memory at program start: `__seed48` as declared and zero elsewhere. -/
def Statics.initial : Memory := writeLE (fun _ => 0) st.seed48 14 0x000b0005deece66d000000000000#112

/-! ## What `srand48` does -/

/-- The state `srand48` sets. -/
def seedState (seed : BitVec 64) : ℕ := 0x330e + 2 ^ 16 * (seed.toNat % 2 ^ 32)

section Seeding

variable {st} {m : Memory}

theorem store16_of_not_within {a x : Addr} {i : ℕ} {w : ℕ} {v : BitVec w} (hi : i + 2 ≤ 6)
    (hx : ¬ Within a 6 x) : store16 m (ptrAdd a i) v x = m x :=
  writeLE_of_not_within m v fun hin => hx (hin.of_part hi (by norm_num))

/-- `seed48` writes nothing but the state and the buffer it returns. -/
theorem seed48From_frame (word : Memory → ℕ → BitVec 16) {x : Addr}
    (hstate : ¬ Within st.seed48 6 x) (hprev : ¬ Within st.prev 6 x) :
    (seed48From st word m).2 x = m x := by
  have h₀ : ∀ {m : Memory} {a : Addr} {w : ℕ} {v : BitVec w}, ¬ Within a 6 x →
      store16 m a v x = m x := by
    intro m a w v hx
    have hfirst := store16_of_not_within (m := m) (i := 0) (v := v) (by norm_num) hx
    rwa [ptrAdd_zero] at hfirst
  unfold seed48From
  simp only
  rw [store16_of_not_within (by norm_num) hstate, store16_of_not_within (by norm_num) hstate,
    h₀ hstate, store16_of_not_within (by norm_num) hprev,
    store16_of_not_within (by norm_num) hprev, h₀ hprev]

/-- Three words stored one after the other. -/
theorem stateAt_store16 (a : Addr) (w₀ w₁ w₂ : BitVec 16) :
    stateAt (store16 (store16 (store16 m a w₀) (ptrAdd a 2) w₁) (ptrAdd a 4) w₂) a =
      w₀.toNat + 2 ^ 16 * w₁.toNat + 2 ^ 32 * w₂.toNat := by
  have hsep : ∀ {i j : ℕ}, i ≠ j → i + 2 ≤ 6 → j + 2 ≤ 6 → i % 2 = 0 → j % 2 = 0 →
      Separate (ptrAdd a i) 2 (ptrAdd a j) 2 := by
    intro i j hne hi hj hi2 hj2
    rcases Nat.lt_or_gt_of_ne hne with hlt | hlt
    · exact separate_of_le (by omega) (by omega)
    · exact (separate_of_le (by omega) (by omega)).symm
  have h₂₀ := hsep (i := 4) (j := 0) (by norm_num) (by norm_num) (by norm_num) rfl rfl
  have h₁₀ := hsep (i := 2) (j := 0) (by norm_num) (by norm_num) (by norm_num) rfl rfl
  have h₂₁ := hsep (i := 4) (j := 2) (by norm_num) (by norm_num) (by norm_num) rfl rfl
  rw [ptrAdd_zero] at h₂₀ h₁₀
  have hself : ∀ (m : Memory) (b : Addr) (w : BitVec 16), load16 (store16 m b w) b = w :=
    fun m b w => readLE_writeLE_self (n := 2) m b w (by norm_num)
  have hother : ∀ (m : Memory) {b c : Addr} (w : BitVec 16), Separate b 2 c 2 →
      load16 (store16 m b w) c = load16 m c :=
    fun m b c w h => readLE_writeLE_of_separate m w h (by norm_num)
  rw [stateAt_eq, hself, hother _ _ h₂₁, hself, hother _ _ h₂₀, hother _ _ h₁₀, hself]

theorem stateAt_srand48 (seed : BitVec 64) :
    stateAt (srand48 st seed m).2 st.seed48 = seedState seed := by
  unfold srand48 seed48From
  simp only [srand48Array]
  rw [stateAt_store16, seedState, BitVec.toNat_setWidth, BitVec.toNat_setWidth,
    BitVec.toNat_ushiftRight, Nat.shiftRight_eq_div_pow]
  have hlow : (0x330e#16).toNat = 0x330e := rfl
  rw [hlow]
  omega

/-- Swapping the state keeps the multiplier and the addend. -/
theorem seed48From_params (word : Memory → ℕ → BitVec 16) :
    multiplier st (seed48From st word m).2 = multiplier st m ∧
      addend st (seed48From st word m).2 = addend st m := by
  have hbyte : ∀ i, 6 ≤ i → i < 14 →
      (seed48From st word m).2 (ptrAdd st.seed48 i) = m (ptrAdd st.seed48 i) := by
    intro i hlo hhi
    refine seed48From_frame word ?_ ?_
    · intro hin
      rw [Within, offset_ptrAdd (by omega)] at hin
      omega
    · exact st.separate _ (within_ptrAdd hhi (by norm_num))
  have hread : ∀ i k, 6 ≤ i → i + k ≤ 14 →
      readLE (seed48From st word m).2 (ptrAdd st.seed48 i) k =
        readLE m (ptrAdd st.seed48 i) k := by
    intro i k hi hk
    refine readLE_congr fun j hj => ?_
    rw [ptrAdd_ptrAdd]
    exact hbyte _ (by omega) (by omega)
  unfold multiplier addend addendAt stateAt load16 seed48LcPtr
  rw [ptrAdd_ptrAdd, hread 6 6 le_rfl (by norm_num), hread 12 2 (by norm_num) le_rfl]
  exact ⟨rfl, rfl⟩

/-- Seeding keeps the multiplier and the addend. -/
theorem srand48_params (m : Memory) (seed : BitVec 64) :
    multiplier st (srand48 st seed m).2 = multiplier st m ∧
      addend st (srand48 st seed m).2 = addend st m :=
  seed48From_params fun _ i => srand48Array seed i

end Seeding

/-! ## What the parameters are -/

/-- Anything but `lcong48` and a store into the parameters. -/
def Event.KeepsParams : Event → Prop
  | .call (.draw d) => Separate (d.stream st) 6 (seed48LcPtr st) 8
  | .call (.srand48 _) | .call (.seed48 _) => True
  | .call (.lcong48 _) => False
  | .store a _ => ¬ Within (seed48LcPtr st) 8 a

section Installed

variable {st}

theorem Event.params_exec {e : Event} (h : e.KeepsParams st) (m : Memory) :
    multiplier st (e.exec st m) = multiplier st m ∧ addend st (e.exec st m) = addend st m := by
  cases e with
  | call c =>
      cases c with
      | draw d =>
          have hparams : Prng.KeepsParams st [d] := fun d' hd' => by rwa [List.mem_singleton.mp hd']
          have hkept := runDraws_params (m := m) hparams
          exact hkept
      | srand48 seed => exact srand48_params m seed
      | seed48 s => exact seed48From_params fun m i => load16 m (ptrAdd s (2 * i))
      | lcong48 p => exact h.elim
  | store a b =>
      -- a byte of the caller's is none of the four words
      have hread : ∀ i k, i + k ≤ 8 →
          readLE (m.write a b) (ptrAdd (seed48LcPtr st) i) k =
            readLE m (ptrAdd (seed48LcPtr st) i) k := by
        intro i k hik
        refine readLE_congr fun j hj => write_of_ne m b ?_
        rintro rfl
        rw [ptrAdd_ptrAdd] at h
        exact h (within_ptrAdd (by omega) (by norm_num))
      have hfirst := hread 0 6 (by norm_num)
      rw [ptrAdd_zero] at hfirst
      exact ⟨congrArg BitVec.toNat hfirst, congrArg BitVec.toNat (hread 6 2 (by norm_num))⟩

/-- Seeding restores no parameters, nor does anything but `lcong48`. -/
theorem after_params {history : List Event} (h : ∀ e ∈ history, e.KeepsParams st) (m : Memory) :
    multiplier st (after st history m) = multiplier st m ∧
      addend st (after st history m) = addend st m := by
  induction history generalizing m with
  | nil => exact ⟨rfl, rfl⟩
  | cons e history ih =>
      obtain ⟨he, hrest⟩ := List.forall_mem_cons.mp h
      obtain ⟨hmultiplier, haddend⟩ := ih hrest (e.exec st m)
      obtain ⟨hmultiplier', haddend'⟩ := e.params_exec he m
      exact ⟨hmultiplier.trans hmultiplier', haddend.trans haddend'⟩

end Installed

/-- **The generator after `lcong48` is the one it installs.**  Whatever the program
calls and stores after it, `srand48` and `seed48` among it but no other `lcong48`,
the streams advance with the multiplier and the addend that `lcong48` has read, and
the draws return what their states prescribe. -/
theorem lcong48_streams_refine (bufs : Set Addr)
    (hdisjoint : ∀ p ∈ bufs, ∀ q ∈ bufs, p ≠ q → Separate p 6 q 6)
    (hstatic : ∀ p ∈ bufs, Separate p 6 st.seed48 14) (m : Memory) {p : Addr}
    (hp : Separate st.seed48 14 p 14) (history : List Event)
    (hhistory : ∀ e ∈ history, e.KeepsParams st) (ds : List Draw)
    (hds : ∀ d ∈ ds, d.stream st = st.seed48 ∨ d.stream st ∈ bufs) :
    let m₁ := after st (.call (.lcong48 p) :: history) m
    let x := fun s k => (Lcg.step (2 ^ 48) (stateAt m (ptrAdd p 6))
      (addendAt m (ptrAdd p 6)))^[k] (stateAt m₁ s)
    stateAt (lcong48 st p m).2 st.seed48 = stateAt m p ∧
    (∀ s, s = st.seed48 ∨ s ∈ bufs →
      stateAt (runDraws st ds m₁).2 s = x s (drawsFrom st s ds)) ∧
    (∀ (j : ℕ) (d : Draw), ds[j]? = some d → ∃ v, (runDraws st ds m₁).1[j]? = some v ∧
      d.Returns (x (d.stream st) (drawsFrom st (d.stream st) (ds.take (j + 1)))) v) ∧
    multiplier st (runDraws st ds m₁).2 = stateAt m (ptrAdd p 6) ∧
    addend st (runDraws st ds m₁).2 = addendAt m (ptrAdd p 6) := by
  intro m₁ x
  obtain ⟨hstate, hmultiplier, haddend⟩ := lcong48_installs st (m := m) hp
  -- what follows the installation keeps the parameters
  obtain ⟨hmultiplier₁, haddend₁⟩ := after_params hhistory (lcong48 st p m).2
  change multiplier st m₁ = _ at hmultiplier₁
  change addend st m₁ = _ at haddend₁
  have hparams := keepsParams_of_static hstatic hds
  have hapart : ∀ s, s = st.seed48 ∨ s ∈ bufs → Apart st s ds := fun s hs =>
    apart_of_disjoint hdisjoint hstatic hds hs
  obtain ⟨hmultiplier₂, haddend₂⟩ := runDraws_params (m := m₁) hparams
  refine ⟨hstate, fun s hs => ?_, fun j d hj => ?_, ?_, ?_⟩
  · rw [stateAt_runDraws hparams (hapart s hs), hmultiplier₁, haddend₁, hmultiplier, haddend]
  · have hreturns := exists_returns (m := m₁) hparams hj
      (hapart _ (hds d (List.mem_of_getElem? hj)))
    rwa [hmultiplier₁, haddend₁, hmultiplier, haddend] at hreturns
  · rw [hmultiplier₂, hmultiplier₁, hmultiplier]
  · rw [haddend₂, haddend₁, haddend]

/-- The multiplier 5 and the addend 1 after a new seed: the second state is that of
the generator installed, not of the standard one. -/
theorem lcong48_streams_refine_seeded :
    let st : Statics := ⟨0x1000, 0x2000, separate_of_add_le (by decide) (by decide)⟩
    let m : Memory := writeLE (fun _ => 0) 0x3000 14 0x00010000000000050000000000ff#112
    let history : List Event := [.call (.srand48 7)]
    stateAt (runDraws st [.lrand48, .mrand48]
        (after st (.call (.lcong48 0x3000) :: history) m)).2 0x1000 =
      (Lcg.step (2 ^ 48) 5 1)^[2] (seedState 7) := by
  intro st m history
  have hrun := (lcong48_streams_refine st ∅ nofun nofun m (p := 0x3000)
    (separate_of_add_le (by decide) (by decide)) history
    (by simp [history, Event.KeepsParams]) [.lrand48, .mrand48]
    (by simp [Draw.stream, seed48XiPtr])).2.1 0x1000 (.inl rfl)
  have hmultiplier : stateAt m (ptrAdd 0x3000 6) = 5 := by decide
  have haddend : addendAt m (ptrAdd 0x3000 6) = 1 := by decide
  have hstate : stateAt (after st (.call (.lcong48 0x3000) :: history) m) 0x1000 = seedState 7 :=
    stateAt_srand48 7
  refine hrun.trans ?_
  change (Lcg.step _ (stateAt m _) (addendAt m _))^[_] (stateAt (after st _ m) _) = _
  rw [hmultiplier, haddend, hstate]
  rfl

/-! ## Two parameter sets -/

section Parameters

variable {a a' c c' x : ℕ}

/-- Two parameter sets that lead to the same state from the seeds 0 and 1 have
one addend, and multipliers that differ at most in the top bit. -/
theorem params_of_first_states (hc : c < 2 ^ 16) (hc' : c' < 2 ^ 16)
    (h₀ : Lcg.step (2 ^ 48) a c (seedState 0) = Lcg.step (2 ^ 48) a' c' (seedState 0))
    (h₁ : Lcg.step (2 ^ 48) a c (seedState 1) = Lcg.step (2 ^ 48) a' c' (seedState 1)) :
    c = c' ∧ a ≡ a' [MOD 2 ^ 47] := by
  rw [Lcg.step_eq_step_iff] at h₀ h₁
  obtain ⟨A, hA⟩ : ∃ A : ℤ, A = a - a' := ⟨_, rfl⟩
  obtain ⟨C, hC⟩ : ∃ C : ℤ, C = c - c' := ⟨_, rfl⟩
  rw [← hA, ← hC] at h₀ h₁
  have hlo : -2 ^ 16 < C := by omega
  have hhi : C < 2 ^ 16 := by omega
  obtain ⟨e₀, he₀⟩ : (2 ^ 48 : ℤ) ∣ A * 13070 + C := h₀
  obtain ⟨e₁, he₁⟩ : (2 ^ 48 : ℤ) ∣ A * 78606 + C := h₁
  -- the two seeds differ by `2 ^ 16`, so the multipliers agree modulo `2 ^ 32`
  have hlow : A = 2 ^ 32 * (e₁ - e₀) := by linarith
  generalize e₁ - e₀ = k at hlow
  subst hlow
  -- `C` is then a multiple of `2 ^ 33`, and too small to be another one than zero
  have hzero : C = 0 := by
    have hdvd : (2 ^ 33 : ℤ) ∣ C := ⟨2 ^ 15 * e₀ - k * 6535, by linarith⟩
    refine Int.eq_zero_of_abs_lt_dvd hdvd (abs_lt.mpr ⟨?_, ?_⟩) <;> linarith
  have hk : k * 6535 = 2 ^ 15 * e₀ := by linarith
  have hdvd : (2 ^ 15 : ℤ) ∣ k :=
    (by norm_num : IsCoprime (2 ^ 15 : ℤ) 6535).dvd_of_dvd_mul_right ⟨e₀, hk⟩
  refine ⟨by omega, ?_⟩
  have htop : ((2 ^ 47 : ℕ) : ℤ) ∣ a - a' := by
    obtain ⟨k', rfl⟩ := hdvd
    exact ⟨k', by rw [← hA]; push_cast; ring⟩
  exact (Nat.modEq_iff_dvd.mpr htop).symm

/-- From an even state, multipliers that differ in the top bit are the same. -/
theorem step_eq_of_even (ha : a ≡ a' [MOD 2 ^ 47]) (hx : Even x) :
    Lcg.step (2 ^ 48) a c x = Lcg.step (2 ^ 48) a' c x := by
  rw [Lcg.step_eq_step_iff, sub_self, add_zero]
  obtain ⟨k, hk⟩ := Nat.modEq_iff_dvd.mp ha.symm
  obtain ⟨y, rfl⟩ := hx
  refine ⟨k * y, ?_⟩
  rw [hk]
  push_cast
  ring

/-- From an odd state only equal multipliers are the same. -/
theorem modEq_of_step_of_odd (hx : ¬ Even x)
    (h : Lcg.step (2 ^ 48) a c x = Lcg.step (2 ^ 48) a' c x) : a ≡ a' [MOD 2 ^ 48] := by
  rw [Lcg.step_eq_step_iff, sub_self, add_zero] at h
  have hodd : Odd (x : ℤ) := by exact_mod_cast Nat.not_even_iff_odd.mp hx
  have hcoprime : IsCoprime ((2 ^ 48 : ℕ) : ℤ) x := by
    rw [Nat.cast_pow, Nat.cast_ofNat]
    exact (Int.isCoprime_two_left.mpr hodd).pow_left
  exact (Nat.modEq_iff_dvd.mpr (hcoprime.dvd_of_dvd_mul_right h)).symm

end Parameters

/-! ## The sequence after `srand48` -/

/-- Draws from the global stream and from buffers the caller owns. -/
def Owned (ds : List Draw) : Prop :=
  ∀ d ∈ ds, d.stream st = st.seed48 ∨ Separate (d.stream st) 6 st.seed48 14

section Sequence

variable {st} {m : Memory} {ds : List Draw}

theorem Owned.keepsParams (h : Owned st ds) : KeepsParams st ds :=
  fun d hd => separate_params (h d hd)

theorem Owned.apart (h : Owned st ds) : Apart st st.seed48 ds := by
  intro d hd
  rcases h d hd with heq | hsep
  · exact .inl heq
  · exact .inr (hsep.mono le_rfl (by norm_num))

/-- The global state after seeding and any number of draws. -/
theorem stateAt_seeded (h : Owned st ds) (seed : BitVec 64) :
    stateAt (runDraws st ds (srand48 st seed m).2).2 st.seed48 =
      (Lcg.step (2 ^ 48) (multiplier st m) (addend st m))^[drawsFrom st st.seed48 ds]
        (seedState seed) := by
  have ⟨hmultiplier, haddend⟩ : multiplier st (srand48 st seed m).2 = multiplier st m ∧
    addend st (srand48 st seed m).2 = addend st m := srand48_params m seed
  rw [stateAt_runDraws h.keepsParams h.apart, hmultiplier, haddend, stateAt_srand48]

/-- The value of a global draw after seeding. -/
theorem value_seeded (h : Owned st ds) (seed : BitVec 64) {j : ℕ} {d : Draw}
    (hj : ds[j]? = some d) (hd : d.stream st = st.seed48) :
    (runDraws st ds (srand48 st seed m).2).1[j]? = some (d.value (BitVec.ofNat 64
      ((Lcg.step (2 ^ 48) (multiplier st m) (addend st m))^[drawsFrom st st.seed48
        (ds.take (j + 1))] (seedState seed)))) := by
  have ⟨hmultiplier, haddend⟩ : multiplier st (srand48 st seed m).2 = multiplier st m ∧
    addend st (srand48 st seed m).2 = addend st m := srand48_params m seed
  rw [value_runDraws h.keepsParams hj (by rw [hd]; exact h.apart), hd, hmultiplier, haddend,
    stateAt_srand48]

end Sequence

/-- The parameters in place in two memories give the same sequence after every seed. -/
def SameParams (m₁ m₂ : Memory) : Prop :=
  addend st m₁ = addend st m₂ ∧
    (multiplier st m₁ = multiplier st m₂ ∨
      Even (addend st m₁) ∧ multiplier st m₁ ≡ multiplier st m₂ [MOD 2 ^ 47])

/-- After every seed and in every sequence of draws, two programs whose memories
are `m₁` and `m₂` see the same global states and the same values of the global draws. -/
def SameSequences (m₁ m₂ : Memory) : Prop :=
  ∀ (seed : BitVec 64) (ds : List Draw), Owned st ds →
    stateAt (runDraws st ds (srand48 st seed m₁).2).2 st.seed48 =
      stateAt (runDraws st ds (srand48 st seed m₂).2).2 st.seed48 ∧
    ∀ (j : ℕ) (d : Draw), ds[j]? = some d → d.stream st = st.seed48 →
      (runDraws st ds (srand48 st seed m₁).2).1[j]? = (runDraws st ds (srand48 st seed m₂).2).1[j]?

variable {st} {m₁ m₂ : Memory}

theorem even_seedState (seed : BitVec 64) : Even (seedState seed) := by
  unfold seedState
  exact ⟨0x330e / 2 + 2 ^ 15 * (seed.toNat % 2 ^ 32), by ring⟩

theorem SameParams.iterate_eq (h : SameParams st m₁ m₂) (seed : BitVec 64) (k : ℕ) :
    (Lcg.step (2 ^ 48) (multiplier st m₁) (addend st m₁))^[k] (seedState seed) =
      (Lcg.step (2 ^ 48) (multiplier st m₂) (addend st m₂))^[k] (seedState seed) := by
  obtain ⟨haddend, heq | ⟨heven, htop⟩⟩ := h
  · rw [haddend, heq]
  · -- all states are even, so the top bit of the multiplier never matters
    refine Lcg.iterate_congr (P := Even) ?_ ?_ (even_seedState seed) k
    · intro y hy
      unfold Lcg.step
      rw [Nat.even_iff, Nat.mod_mod_of_dvd _ (by norm_num), ← Nat.even_iff]
      exact (hy.mul_left _).add heven
    · intro y hy
      rw [← haddend]
      exact step_eq_of_even htop hy

/-- As many draws from the global stream. -/
theorem sameSequences_iterate (h : SameSequences st m₁ m₂) (seed : BitVec 64) (k : ℕ) :
    (Lcg.step (2 ^ 48) (multiplier st m₁) (addend st m₁))^[k] (seedState seed) =
      (Lcg.step (2 ^ 48) (multiplier st m₂) (addend st m₂))^[k] (seedState seed) := by
  have howned : Owned st (List.replicate k .lrand48) := fun d hd => by
    rw [(List.mem_replicate.mp hd).2]
    exact .inl rfl
  have hcount : drawsFrom st st.seed48 (List.replicate k .lrand48) = k := by
    rw [drawsFrom, List.countP_replicate]
    exact if_pos (decide_eq_true rfl)
  have hstate := (h seed _ howned).1
  rwa [stateAt_seeded howned, stateAt_seeded howned, hcount] at hstate

theorem SameSequences.sameParams (h : SameSequences st m₁ m₂) : SameParams st m₁ m₂ := by
  have hlt₁ : multiplier st m₁ < 2 ^ 48 := stateAt_lt m₁ _
  have hlt₂ : multiplier st m₂ < 2 ^ 48 := stateAt_lt m₂ _
  have hone : ∀ seed, Lcg.step (2 ^ 48) (multiplier st m₁) (addend st m₁) (seedState seed) =
      Lcg.step (2 ^ 48) (multiplier st m₂) (addend st m₂) (seedState seed) := by
    intro seed
    have hiterate := sameSequences_iterate h seed 1
    rwa [Function.iterate_one, Function.iterate_one] at hiterate
  obtain ⟨haddend, htop⟩ := params_of_first_states (addendAt_lt m₁ _) (addendAt_lt m₂ _)
    (hone 0) (hone 1)
  refine ⟨haddend, ?_⟩
  by_cases heven : Even (addend st m₁)
  · exact .inr ⟨heven, htop⟩
  left
  -- with an odd addend the first state is odd, and the second draw tells the top bit
  have hfirst : ¬ Even (Lcg.step (2 ^ 48) (multiplier st m₁) (addend st m₁) (seedState 0)) := by
    unfold Lcg.step
    rw [Nat.even_iff, Nat.mod_mod_of_dvd _ (by norm_num), ← Nat.even_iff, Nat.even_add]
    intro hiff
    exact heven (hiff.mp ((even_seedState 0).mul_left _))
  have hsecond := sameSequences_iterate h 0 2
  simp only [Function.iterate_succ_apply', Function.iterate_zero_apply] at hsecond
  rw [← hone 0, ← show addend st m₁ = addend st m₂ from haddend] at hsecond
  exact (modEq_of_step_of_odd hfirst hsecond).eq_of_lt_of_lt hlt₁ hlt₂

/-- **What the sequence after `srand48` depends on.**  Two programs, whatever
they have done before, see the same sequence after every seed exactly when the
parameters then in place are the same, up to the top bit of the multiplier when
the addend is even. -/
theorem srand48_deterministic_iff (st : Statics) (start₁ start₂ : Memory)
    (history₁ history₂ : List Event) :
    SameSequences st (after st history₁ start₁) (after st history₂ start₂) ↔
      SameParams st (after st history₁ start₁) (after st history₂ start₂) := by
  refine ⟨SameSequences.sameParams, fun h seed ds howned => ⟨?_, fun j d hj hd => ?_⟩⟩
  · rw [stateAt_seeded howned, stateAt_seeded howned, h.iterate_eq]
  · rw [value_seeded howned seed hj hd, value_seeded howned seed hj hd, h.iterate_eq]

/-- One program has called nothing, the other `lcong48` with zeros; after
`srand48(0)` the first draws are 366850414 and 0. -/
theorem srand48_not_deterministic :
    let st : Statics := ⟨0x1000, 0x2000, separate_of_add_le (by decide) (by decide)⟩
    ¬ SameSequences st (after st [] st.initial)
      (after st [.call (.lcong48 0x3000)] st.initial) := by
  intro st h
  have howned : Owned st [.lrand48] := fun d hd => by
    rw [List.mem_singleton.mp hd]
    exact .inl rfl
  have hvalue := (h 0 [.lrand48] howned).2 0 .lrand48 rfl rfl
  exact absurd hvalue (by decide)

end Mytilus.Prng
