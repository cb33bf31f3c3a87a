import Mytilus.Prng.Srand48

/-!
# Swapping the global state

`seed48` saves the three words of the state in `PREV`, then copies the three
words of its argument into the state, one by one, and returns `PREV`.  The
argument is read after `PREV` has been written: a caller that hands back the
buffer an earlier call returned has its words overwritten before they are read.

Both copies are the loop of `lcong48` on three words.  `lcong48Loop_byte` says
what such a loop leaves when its two regions overlap in any way, and
`seed48_swaps_iff` says for every argument when the swap is one.
-/

namespace Mytilus.Prng

open Memory

/-! ## Copying word by word between regions that may overlap -/

section Copy

variable {dst p : Addr} {m : Memory}

theorem lcong48Loop_frame {a : Addr} (k i : ℕ) (hlen : 2 * (i + k) ≤ 2 ^ 64)
    (ha : ¬ Within (ptrAdd dst (2 * i)) (2 * k) a) : lcong48Loop dst p k i m a = m a := by
  induction k generalizing i m with
  | zero => rfl
  | succ k ih =>
      rw [within_ptrAdd_iff (by omega)] at ha
      have hrest : ¬ Within (ptrAdd dst (2 * (i + 1))) (2 * k) a := by
        rw [within_ptrAdd_iff (by omega)]
        omega
      have hword : ¬ Within (ptrAdd dst (2 * i)) 2 a := by
        rw [within_ptrAdd_iff (by omega)]
        omega
      rw [lcong48Loop, ih (i + 1) (by omega) hrest]
      exact writeLE_of_not_within m _ hword

/-- A byte that an earlier round has written is read as that round left it, any
other byte as it was before the loop. -/
theorem lcong48Loop_byte (dst p : Addr) (m : Memory) (k i l : ℕ) (hlen : 2 * (i + k) ≤ 2 ^ 64)
    (hlo : 2 * i ≤ l) (hhi : l < 2 * (i + k)) :
    lcong48Loop dst p k i m (ptrAdd dst l) =
      if Within (ptrAdd dst (2 * i)) (2 * (l / 2) - 2 * i) (ptrAdd p l)
        then lcong48Loop dst p k i m (ptrAdd p l) else m (ptrAdd p l) := by
  induction k generalizing i m with
  | zero => omega
  | succ k ih =>
      have hword : ∀ j < 2, store16 m (ptrAdd dst (2 * i)) (load16 m (ptrAdd p (2 * i)))
          (ptrAdd dst (2 * i + j)) = m (ptrAdd p (2 * i + j)) := by
        intro j hj
        rw [← ptrAdd_ptrAdd, store16, writeLE_ptrAdd _ _ _ hj (by norm_num),
          byteOf_readLE _ _ hj, ptrAdd_ptrAdd]
      rw [lcong48Loop]
      by_cases hfirst : l / 2 = i
      · -- the word of this round: read before anything is written
        have hsame : ¬ Within (ptrAdd dst (2 * (i + 1))) (2 * k) (ptrAdd dst l) := by
          rw [within_ptrAdd_iff (by omega), offset_ptrAdd (by omega)]
          omega
        have hsplit : 2 * i + (l - 2 * i) = l := by omega
        have hread := hword (l - 2 * i) (by omega)
        rw [hsplit] at hread
        rw [lcong48Loop_frame _ _ (by omega) hsame, hread, if_neg]
        rw [Within, hfirst]
        omega
      · rw [ih _ (i + 1) (by omega) (by omega) (by omega)]
        by_cases hthis : Within (ptrAdd dst (2 * i)) 2 (ptrAdd p l)
        · -- written in this round, and by no later one
          have hoff := (within_ptrAdd_iff (by omega)).mp hthis
          have hlater : ∀ n, 2 * (i + 1) + n ≤ 2 ^ 64 →
              ¬ Within (ptrAdd dst (2 * (i + 1))) n (ptrAdd p l) := by
            intro n hn
            rw [within_ptrAdd_iff hn]
            omega
          have hin : Within (ptrAdd dst (2 * i)) (2 * (l / 2) - 2 * i) (ptrAdd p l) := by
            rw [within_ptrAdd_iff (by omega)]
            omega
          rw [if_neg (hlater _ (by omega)), if_pos hin,
            lcong48Loop_frame _ _ (by omega) (hlater _ (by omega))]
        · have hiff : Within (ptrAdd dst (2 * (i + 1))) (2 * (l / 2) - 2 * (i + 1)) (ptrAdd p l) ↔
              Within (ptrAdd dst (2 * i)) (2 * (l / 2) - 2 * i) (ptrAdd p l) := by
            rw [within_ptrAdd_iff (by omega)] at hthis ⊢
            rw [within_ptrAdd_iff (by omega)]
            omega
          rw [store16, writeLE_of_not_within m _ hthis]
          simp only [hiff]

end Copy

/-! ## One call -/

section Call

variable (st : Statics) (s : Addr) (m : Memory)

/-- The memory once `PREV` is written. -/
def savedPrev : Memory := lcong48Loop st.prev st.seed48 3 0 m

theorem seed48_eq : seed48 st s m = (.ptr st.prev, lcong48Loop st.seed48 s 3 0 (savedPrev st m)) := by
  simp [seed48, seed48From, savedPrev, lcong48Loop]

/-- Every byte of the argument that the call overwrites before it reads it is
overwritten with what it was: a byte in `PREV` with the byte of the state saved
there, a byte in a word of the state that is stored first with the byte stored there. -/
def Survives : Prop :=
  ∀ l < 6,
    (Within st.prev 6 (ptrAdd s l) →
      m (ptrAdd st.seed48 (offset st.prev (ptrAdd s l))) = m (ptrAdd s l)) ∧
    (Within st.seed48 (2 * (l / 2)) (ptrAdd s l) →
      m (ptrAdd s (offset st.seed48 (ptrAdd s l))) = m (ptrAdd s l))

/-- The call is a swap: the state is what the argument pointed to, and the
returned buffer holds the state from before. -/
def Swaps : Prop :=
  ∃ p, (seed48 st s m).1 = .ptr p ∧
    stateAt (seed48 st s m).2 st.seed48 = stateAt m s ∧
    stateAt (seed48 st s m).2 p = stateAt m st.seed48

variable {st s m}

theorem stateAt_eq_iff {m' : Memory} {p q : Addr} :
    stateAt m' p = stateAt m q ↔ ∀ l < 6, m' (ptrAdd p l) = m (ptrAdd q l) := by
  refine ⟨fun h l hl => ?_, fun h => congrArg BitVec.toNat (readLE_congr h)⟩
  rw [← byteOf_readLE m' p hl, ← byteOf_readLE m q hl, BitVec.eq_of_toNat_eq h]

theorem savedPrev_of_within {a : Addr} (ha : Within st.prev 6 a) :
    savedPrev st m a = m (ptrAdd st.seed48 (offset st.prev a)) := by
  have hbyte := lcong48Loop_byte st.prev st.seed48 m 3 0 (offset st.prev a)
    (by norm_num) (Nat.zero_le _) ha
  rw [ptrAdd_offset, if_neg] at hbyte
  · exact hbyte
  · -- the state is apart from `PREV`, so no byte of it is read after it is written
    intro hin
    rw [Nat.mul_zero, ptrAdd_zero, Nat.sub_zero] at hin
    have hoff : offset st.prev a < 6 := ha
    exact st.separate _ (within_ptrAdd (by omega) (by norm_num)) (lt_of_lt_of_le hin (by omega))

theorem savedPrev_of_not_within {a : Addr} (ha : ¬ Within st.prev 6 a) : savedPrev st m a = m a :=
  lcong48Loop_frame 3 0 (by norm_num) (by rwa [Nat.mul_zero, ptrAdd_zero])

/-- The returned buffer always holds the state from before the call. -/
theorem stateAt_seed48_prev : stateAt (seed48 st s m).2 st.prev = stateAt m st.seed48 := by
  rw [seed48_eq, stateAt_eq_iff]
  intro l hl
  have hin : Within st.prev 6 (ptrAdd st.prev l) := within_ptrAdd hl (by norm_num)
  have hout : ¬ Within (ptrAdd st.seed48 (2 * 0)) (2 * 3) (ptrAdd st.prev l) := by
    rw [Nat.mul_zero, ptrAdd_zero]
    exact fun hstate => (st.separate.mono (by norm_num) le_rfl) _ hstate hin
  refine (lcong48Loop_frame 3 0 (by norm_num) hout).trans ?_
  rw [savedPrev_of_within hin, offset_ptrAdd (by omega)]

/-- What each byte of the new state is. -/
theorem seed48_byte {l : ℕ} (hl : l < 6) :
    (seed48 st s m).2 (ptrAdd st.seed48 l) =
      if Within st.seed48 (2 * (l / 2)) (ptrAdd s l) then (seed48 st s m).2 (ptrAdd s l)
      else savedPrev st m (ptrAdd s l) := by
  have hbyte := lcong48Loop_byte st.seed48 s (savedPrev st m) 3 0 l
    (by norm_num) (Nat.zero_le _) hl
  rw [Nat.mul_zero, ptrAdd_zero, Nat.sub_zero] at hbyte
  rw [seed48_eq]
  exact hbyte

/-- The state becomes what the argument pointed to exactly when the bytes
overwritten on the way do not change. -/
theorem stateAt_seed48_iff : stateAt (seed48 st s m).2 st.seed48 = stateAt m s ↔ Survives st s m := by
  rw [stateAt_eq_iff]
  constructor
  · intro h l hl
    have hbyte := (seed48_byte hl).symm.trans (h l hl)
    constructor
    · intro hprev
      have hstate : ¬ Within st.seed48 (2 * (l / 2)) (ptrAdd s l) := fun hin =>
        st.separate _ (lt_of_lt_of_le hin (by omega)) hprev
      rwa [if_neg hstate, savedPrev_of_within hprev] at hbyte
    · intro hstate
      have hoff : offset st.seed48 (ptrAdd s l) < 2 * (l / 2) := hstate
      have hfinal := h (offset st.seed48 (ptrAdd s l)) (by omega)
      rw [ptrAdd_offset] at hfinal
      rw [if_pos hstate, hfinal] at hbyte
      exact hbyte
  · intro h l
    -- a byte read after it is written lies in an earlier word of the state
    induction l using Nat.strong_induction_on with
    | h l ih =>
        intro hl
        rw [seed48_byte hl]
        by_cases hstate : Within st.seed48 (2 * (l / 2)) (ptrAdd s l)
        · have hoff : offset st.seed48 (ptrAdd s l) < 2 * (l / 2) := hstate
          have hfinal := ih (offset st.seed48 (ptrAdd s l)) (by omega) (by omega)
          rw [ptrAdd_offset] at hfinal
          rw [if_pos hstate, hfinal, (h l hl).2 hstate]
        · rw [if_neg hstate]
          by_cases hprev : Within st.prev 6 (ptrAdd s l)
          · rw [savedPrev_of_within hprev, (h l hl).1 hprev]
          · exact savedPrev_of_not_within hprev

/-- An argument apart from the state and from `PREV`. -/
theorem survives_of_separate (hstate : Separate s 6 st.seed48 6) (hprev : Separate s 6 st.prev 6) :
    Survives st s m := by
  intro l hl
  have hin : Within s 6 (ptrAdd s l) := within_ptrAdd hl (by norm_num)
  exact ⟨fun h => absurd h (hprev _ hin),
    fun h => absurd (lt_of_lt_of_le h (by omega)) (hstate _ hin)⟩

/-- An argument inside `__seed48`: its words are read before they are stored. -/
theorem survives_inside {k : ℕ} (hk : k ≤ 8) : Survives st (ptrAdd st.seed48 k) m := by
  intro l hl
  rw [ptrAdd_ptrAdd]
  refine ⟨fun h => absurd h (st.separate _ (within_ptrAdd (by omega) (by norm_num))), fun h => ?_⟩
  rw [Within, offset_ptrAdd (by omega)] at h
  omega

/-- The buffer an earlier call returned: the state must already be what it holds. -/
theorem survives_prev_iff : Survives st st.prev m ↔ stateAt m st.seed48 = stateAt m st.prev := by
  rw [stateAt_eq_iff]
  refine forall₂_congr fun l hl => ?_
  have hin : Within st.prev 6 (ptrAdd st.prev l) := within_ptrAdd hl (by norm_num)
  have hnot : ¬ Within st.seed48 (2 * (l / 2)) (ptrAdd st.prev l) := fun h =>
    st.separate _ (lt_of_lt_of_le h (by omega)) hin
  rw [offset_ptrAdd (by omega)]
  exact ⟨fun h => h.1 hin, fun h => ⟨fun _ => h, fun h' => absurd h' hnot⟩⟩

/-- Handing the returned buffer back leaves the state as it is. -/
theorem stateAt_seed48_of_prev :
    stateAt (seed48 st st.prev m).2 st.seed48 = stateAt m st.seed48 := by
  rw [stateAt_eq_iff]
  intro l hl
  have hin : Within st.prev 6 (ptrAdd st.prev l) := within_ptrAdd hl (by norm_num)
  have hnot : ¬ Within st.seed48 (2 * (l / 2)) (ptrAdd st.prev l) := fun h =>
    st.separate _ (lt_of_lt_of_le h (by omega)) hin
  rw [seed48_byte hl, if_neg hnot, savedPrev_of_within hin, offset_ptrAdd (by omega)]

end Call

/-! ## Swapping and swapping back -/

/-- **When `seed48` swaps.**  For every argument and every contents of memory the
call is a swap exactly when the bytes it overwrites before it reads them do not
change.  After a swap and any draws, handing the returned buffer back restores
the saved state exactly when the draws from the new state have led to it already.
The bytes do not change for an argument apart from the state and the returned
buffer, or inside `__seed48`; for the returned buffer itself they do not exactly
when it holds the state already. -/
theorem seed48_swaps_iff (st : Statics) :
    (∀ s m, Swaps st s m ↔ Survives st s m) ∧
    (∀ s m ds, Survives st s m → Owned st ds →
      (stateAt (seed48 st st.prev (runDraws st ds (seed48 st s m).2).2).2 st.seed48 =
          stateAt m st.seed48 ↔
        (Lcg.step (2 ^ 48) (multiplier st m) (addend st m))^[drawsFrom st st.seed48 ds]
          (stateAt m s) = stateAt m st.seed48)) ∧
    ∀ m, (∀ s, Separate s 6 st.seed48 6 → Separate s 6 st.prev 6 → Survives st s m) ∧
      (∀ k ≤ 8, Survives st (ptrAdd st.seed48 k) m) ∧
      (Survives st st.prev m ↔ stateAt m st.seed48 = stateAt m st.prev) := by
  refine ⟨fun s m => ⟨?_, fun h => ?_⟩, fun s m ds hsurvives howned => ?_, fun m => ⟨?_, ?_, ?_⟩⟩
  · rintro ⟨p, -, hstate, -⟩
    exact stateAt_seed48_iff.mp hstate
  · exact ⟨st.prev, rfl, stateAt_seed48_iff.mpr h, stateAt_seed48_prev⟩
  · obtain ⟨hmultiplier, haddend⟩ : multiplier st (seed48 st s m).2 = multiplier st m ∧
      addend st (seed48 st s m).2 = addend st m := seed48From_params _
    rw [stateAt_seed48_of_prev, stateAt_runDraws howned.keepsParams howned.apart, hmultiplier,
      haddend, stateAt_seed48_iff.mpr hsurvives]
  · exact fun s hstate hprev => survives_of_separate hstate hprev
  · exact fun k hk => survives_inside hk
  · exact survives_prev_iff

/-- Words of the caller's own; one draw from them does not lead back. -/
theorem seed48_swaps_iff_own_words :
    let st : Statics := ⟨0x1000, 0x2000, separate_of_add_le (by decide) (by decide)⟩
    Swaps st 0x3000 st.initial ∧
      stateAt (seed48 st st.prev (runDraws st [.lrand48] (seed48 st 0x3000 st.initial).2).2).2
        st.seed48 ≠ stateAt st.initial st.seed48 := by
  intro st
  have hsurvives : Survives st 0x3000 st.initial :=
    survives_of_separate (separate_of_add_le (by decide) (by decide)).symm
      (separate_of_add_le (by decide) (by decide)).symm
  have howned : Owned st [.lrand48] := fun d hd => by
    rw [List.mem_singleton.mp hd]
    exact .inl rfl
  refine ⟨((seed48_swaps_iff st).1 _ _).mpr hsurvives, fun hrestored => ?_⟩
  have hback := ((seed48_swaps_iff st).2.1 _ _ _ hsurvives howned).mp hrestored
  exact absurd hback (by decide)

/-- `p = seed48(new)` with new words 1, 0, 0 and `seed48(p)` after it: the state
is not what `p` held, and the saved state is not restored. -/
theorem seed48_not_restored :
    let st : Statics := ⟨0x1000, 0x2000, separate_of_add_le (by decide) (by decide)⟩
    let m := writeLE st.initial 0x3000 6 1#48
    let m₁ := (seed48 st 0x3000 m).2
    (seed48 st 0x3000 m).1 = .ptr st.prev ∧ ¬ Swaps st st.prev m₁ ∧
      stateAt (seed48 st st.prev m₁).2 st.seed48 ≠ stateAt m st.seed48 := by
  intro st m m₁
  have hstate : stateAt (seed48 st st.prev m₁).2 st.seed48 = 1 := by decide
  have hprev : stateAt m₁ st.prev = 0 := by decide
  refine ⟨rfl, ?_, ?_⟩
  · rintro ⟨p, -, hswap, -⟩
    rw [hstate, hprev] at hswap
    exact absurd hswap (by norm_num)
  · rw [hstate]
    decide

end Mytilus.Prng
