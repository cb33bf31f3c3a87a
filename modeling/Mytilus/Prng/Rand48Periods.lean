import Mytilus.Base.FullPeriod
import Mytilus.Prng.Srand48

/-!
# The 48-bit family has full period

With a multiplier that is 1 modulo 4 and an odd addend, as the default ones are,
a stream runs through all its `2 ^ 48` states before it returns to the first.
The values are the high bits of the states, so over a full period each value is
drawn equally often.
-/

namespace Mytilus.Prng

open Memory Finset

variable {st : Statics} {m : Memory} {s : Addr} {d : Draw}

/-! ## Repeated draws -/

/-- The parameters of a stream that lies apart from them, and that pass the test. -/
structure FullPeriodParams (st : Statics) (m : Memory) (s : Addr) : Prop where
  apart : Separate s 6 (seed48LcPtr st) 8
  multiplier : multiplier st m % 4 = 1
  addend : addend st m % 2 = 1

theorem FullPeriodParams.keepsParams (h : FullPeriodParams st m s) (hd : d.stream st = s) (k : ℕ) :
    KeepsParams st (List.replicate k d) := by
  intro d' hd'
  rw [List.eq_of_mem_replicate hd', hd]
  exact h.apart

theorem stateAt_replicate (h : FullPeriodParams st m s) (hd : d.stream st = s) (k : ℕ) :
    stateAt (runDraws st (List.replicate k d) m).2 s =
      (Lcg.step (2 ^ 48) (multiplier st m) (addend st m))^[k] (stateAt m s) := by
  have hcount : drawsFrom st s (List.replicate k d) = k := by
    rw [drawsFrom, List.countP_replicate]
    exact if_pos (decide_eq_true hd)
  have hstate := stateAt_runDraws (m := m) (s := s) (h.keepsParams hd k)
    fun d' hd' => .inl (List.eq_of_mem_replicate hd' ▸ hd)
  rwa [hcount] at hstate

/-- The draw after `k` others shows the state after all of them. -/
theorem value_replicate (h : FullPeriodParams st m s) (hd : d.stream st = s) (k : ℕ) :
    d.Returns ((Lcg.step (2 ^ 48) (multiplier st m) (addend st m))^[k + 1] (stateAt m s))
      (d.exec st (runDraws st (List.replicate k d) m).2).1 := by
  obtain ⟨hmultiplier, haddend⟩ := runDraws_params (m := m) (h.keepsParams hd k)
  have hvalue : (d.exec st (runDraws st (List.replicate k d) m).2).1 = d.value (BitVec.ofNat 64
      ((Lcg.step (2 ^ 48) (multiplier st m) (addend st m))^[k + 1] (stateAt m s))) := by
    rw [exec_eq, nextState, hmultiplier, haddend, hd, stateAt_replicate h hd,
      Function.iterate_succ_apply']
  rw [hvalue]
  exact returns_value (Lcg.iterate_lt (by norm_num) (stateAt_lt m s) _) d

/-! ## What a full period returns -/

/-- How often a value is drawn when it tells that the state lies in one of `a`
stretches of `b` states. -/
theorem card_draws (h : FullPeriodParams st m s) (hd : d.stream st = s) {v : Value} {a b i : ℕ}
    (hab : a * b = 2 ^ 48) (hb : 0 < b) (hi : i < a)
    (hvalue : ∀ x w, x < 2 ^ 48 → d.Returns x w → (w = v ↔ x / b = i)) :
    #{k ∈ range (2 ^ 48) | (d.exec st (runDraws st (List.replicate k d) m).2).1 = v} = b := by
  obtain ⟨x, hx⟩ : ∃ x, x = Lcg.step (2 ^ 48) (multiplier st m) (addend st m) (stateAt m s) :=
    ⟨_, rfl⟩
  have hlt : x < 2 ^ 48 := hx ▸ Lcg.step_lt (by norm_num)
  have hstate : ∀ k, (d.exec st (runDraws st (List.replicate k d) m).2).1 = v ↔
      (Lcg.step (2 ^ 48) (multiplier st m) (addend st m))^[k] x / b = i := by
    intro k
    have hreturns := value_replicate h hd k
    rw [Function.iterate_succ_apply, ← hx] at hreturns
    exact hvalue _ _ (Lcg.iterate_lt (by norm_num) hlt k) hreturns
  simp only [hstate]
  rw [Lcg.card_filter_iterate h.multiplier h.addend hlt fun y => y / b = i, ← hab]
  exact FullPeriod.card_div_eq hb hi

/-- The top 31 bits of a state. -/
theorem returns_long_iff {x v : ℕ} {w : Value} (hv : v < 2 ^ 31) (hd : d = .nrand48 s ∨ d = .lrand48)
    (hreturns : d.Returns x w) : w = .long (BitVec.ofNat 64 v) ↔ x / 2 ^ 17 = v := by
  have hlong : ∃ r : BitVec 64, w = .long r ∧ r.toInt = x / 2 ^ 17 ∧ 0 ≤ r.toInt ∧
      r.toInt < 2 ^ 31 := by
    rcases hd with rfl | rfl <;> exact hreturns
  obtain ⟨r, rfl, hr, -, -⟩ := hlong
  have hofNat : (BitVec.ofNat 64 v).toInt = v := by
    rw [BitVec.toInt_eq_toNat_of_lt] <;> rw [BitVec.toNat_ofNat] <;> omega
  rw [Value.long.injEq, ← BitVec.toInt_inj, hr, hofNat]
  norm_cast

/-- The top 32 bits of a state, with a sign. -/
theorem returns_signed_iff {x : ℕ} {v : ℤ} {w : Value} (hx : x < 2 ^ 48) (hlo : -2 ^ 31 ≤ v)
    (hhi : v < 2 ^ 31) (hd : d = .jrand48 s ∨ d = .mrand48) (hreturns : d.Returns x w) :
    w = .long (BitVec.ofInt 64 v) ↔ x / 2 ^ 16 = (v % 2 ^ 32).toNat := by
  have hsigned : ∃ r : BitVec 64, w = .long r ∧
      r.toInt = ((x / 2 ^ 16 : ℕ) : ℤ).bmod (2 ^ 32) := by
    rcases hd with rfl | rfl <;> exact hreturns
  obtain ⟨r, rfl, hr⟩ := hsigned
  have hofInt : (BitVec.ofInt 64 v).toInt = v := by
    rw [BitVec.toInt_ofInt]
    exact Int.bmod_eq_of_le (by omega) (by omega)
  have hlt : x / 2 ^ 16 < 2 ^ 32 := by omega
  rw [Value.long.injEq, ← BitVec.toInt_inj, hr, hofInt, Int.bmod_def]
  generalize x / 2 ^ 16 = y at hlt ⊢
  push_cast
  split_ifs <;> omega

/-- **The 48-bit family has full period.**  Let a stream, the global one or a
buffer, lie apart from the parameters, with a multiplier that is 1 modulo 4 and
an odd addend.  In any run of draws that leaves the parameters alone, and in which
the draws not from the stream do not touch it, its three words are the first ones
again exactly when the draws from it are a multiple of `2 ^ 48`; and over `2 ^ 48`
draws `nrand48` and `lrand48` return each 31-bit number `2 ^ 17` times, `jrand48`
and `mrand48` each signed 32-bit number `2 ^ 16` times. -/
theorem rand48_full_period (h : FullPeriodParams st m s) :
    (∀ ds, KeepsParams st ds → Apart st s ds →
      (readLE (runDraws st ds m).2 s 6 = readLE m s 6 ↔ 2 ^ 48 ∣ drawsFrom st s ds)) ∧
    (∀ d : Draw, d = .nrand48 s ∨ d = .lrand48 ∧ s = st.seed48 → ∀ v : ℕ, v < 2 ^ 31 →
      #{k ∈ range (2 ^ 48) | (d.exec st (runDraws st (List.replicate k d) m).2).1 =
        .long (BitVec.ofNat 64 v)} = 2 ^ 17) ∧
    ∀ d : Draw, d = .jrand48 s ∨ d = .mrand48 ∧ s = st.seed48 → ∀ v : ℤ, -2 ^ 31 ≤ v → v < 2 ^ 31 →
      #{k ∈ range (2 ^ 48) | (d.exec st (runDraws st (List.replicate k d) m).2).1 =
        .long (BitVec.ofInt 64 v)} = 2 ^ 16 := by
  refine ⟨fun ds hparams hapart => ?_, fun d hd v hv => ?_, fun d hd v hlo hhi => ?_⟩
  · have hstate : readLE (runDraws st ds m).2 s 6 = readLE m s 6 ↔
        stateAt (runDraws st ds m).2 s = stateAt m s := BitVec.toNat_inj.symm
    -- the draws from the stream are the steps of its generator
    rw [hstate, stateAt_runDraws hparams hapart]
    exact Lcg.iterate_eq_self_iff h.multiplier h.addend (stateAt_lt m s) _
  · have hstream : d.stream st = s := by
      rcases hd with rfl | ⟨rfl, rfl⟩ <;> rfl
    exact card_draws h hstream (by norm_num) (by norm_num) hv fun x w _ =>
      returns_long_iff hv (hd.imp_right And.left)
  · have hstream : d.stream st = s := by
      rcases hd with rfl | ⟨rfl, rfl⟩ <;> rfl
    exact card_draws (a := 2 ^ 32) h hstream (by norm_num) (by norm_num) (by omega) fun x w hx =>
      returns_signed_iff hx hlo hhi (hd.imp_right And.left)

/-- The global stream with the parameters in place at program start. -/
theorem rand48_full_period_default :
    let st : Statics := ⟨0x1000, 0x2000, separate_of_add_le (by decide) (by decide)⟩;
    #{k ∈ range (2 ^ 48) |
      (Draw.lrand48.exec st (runDraws st (List.replicate k .lrand48) st.initial).2).1 =
        .long (BitVec.ofNat 64 5)} = 2 ^ 17 := by
  intro st
  have hparams : FullPeriodParams st st.initial st.seed48 :=
    ⟨separate_of_add_le (by decide) (by decide), by decide, by decide⟩
  exact (rand48_full_period hparams).2.1 _ (.inr ⟨rfl, rfl⟩) 5 (by norm_num)

end Mytilus.Prng
