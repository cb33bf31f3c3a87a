import Mytilus.Prng.Rand48

/-!
# The streams of the 48-bit family

Six functions draw from a stream: three from the global one, three from a stream
the caller owns.  A run is any sequence of such draws.  What a draw does depends
on nothing but its own stream's 48-bit state and the parameters, and it writes
nothing but that state (`exec_eq`); so in a run over streams that do not overlap
each of them advances as if it were alone (`rand48_streams_refine`).

`stateAt_runDraws` and `exists_returns` are that run for one stream, under the two
conditions it needs of the others: no draw touches the parameters (`KeepsParams`), and
a draw that is not from the stream does not touch its state (`Apart`).
-/

namespace Mytilus.Prng

open Memory

/-! ## Draws and runs of draws -/

inductive Draw
  | erand48 (s : Addr)
  | drand48
  | nrand48 (s : Addr)
  | lrand48
  | jrand48 (s : Addr)
  | mrand48
  deriving DecidableEq

variable (st : Statics)

def Draw.exec : Draw → Memory → Value × Memory
  | .erand48 s => Prng.erand48 st s
  | .drand48 => Prng.drand48 st
  | .nrand48 s => Prng.nrand48 st s
  | .lrand48 => Prng.lrand48 st
  | .jrand48 s => Prng.jrand48 st s
  | .mrand48 => Prng.mrand48 st

/-- Where the state of the stream a draw is from lies. -/
def Draw.stream : Draw → Addr
  | .erand48 s | .nrand48 s | .jrand48 s => s
  | .drand48 | .lrand48 | .mrand48 => seed48XiPtr st

/-- The values of a sequence of draws and the memory after it. -/
def runDraws : List Draw → Memory → List Value × Memory
  | [], m => ([], m)
  | d :: ds, m =>
      let (v, m) := d.exec st m
      let (vs, m) := runDraws ds m
      (v :: vs, m)

def multiplier (m : Memory) : ℕ := stateAt m (seed48LcPtr st)

def addend (m : Memory) : ℕ := addendAt m (seed48LcPtr st)

/-- `lcong48` installs its seven words as state, multiplier and addend. -/
theorem lcong48_installs {p : Addr} {m : Memory} (hsep : Separate st.seed48 14 p 14) :
    stateAt (lcong48 st p m).2 st.seed48 = stateAt m p ∧
      multiplier st (lcong48 st p m).2 = stateAt m (ptrAdd p 6) ∧
      addend st (lcong48 st p m).2 = addendAt m (ptrAdd p 6) := by
  have hcopy := fun i k (hik : i + k ≤ 14) =>
    readLE_writeLE_copy m (a := st.seed48) (b := p) hik (by norm_num)
  unfold multiplier addend addendAt stateAt load16 seed48LcPtr
  rw [lcong48_eq st hsep]
  refine ⟨?_, congrArg BitVec.toNat (hcopy 6 6 (by norm_num)), ?_⟩
  · have hstate := hcopy 0 6 (by norm_num)
    rw [ptrAdd_zero, ptrAdd_zero] at hstate
    exact congrArg BitVec.toNat hstate
  · rw [ptrAdd_ptrAdd, ptrAdd_ptrAdd]
    exact congrArg BitVec.toNat (hcopy 12 2 (by norm_num))

/-- How many of the draws are from the stream at `s`. -/
def drawsFrom (s : Addr) (ds : List Draw) : ℕ := ds.countP fun d => d.stream st = s

/-- What a draw returns when it moves its stream to the state `x`: the top 31
bits, the top 32 bits as a signed number, or all bits as a binary fraction. -/
def Draw.Returns (x : ℕ) (v : Value) : Draw → Prop
  | .nrand48 _ | .lrand48 =>
      ∃ r, v = .long r ∧ r.toInt = x / 2 ^ 17 ∧ 0 ≤ r.toInt ∧ r.toInt < 2 ^ 31
  | .jrand48 _ | .mrand48 =>
      ∃ r, v = .long r ∧ r.toInt = ((x / 2 ^ 16 : ℕ) : ℤ).bmod (2 ^ 32)
  | .erand48 _ | .drand48 => v = .double (x / 2 ^ 48)

/-! ## One draw -/

/-- What a draw makes of the number its step returns. -/
def Draw.value (step : BitVec 64) : Draw → Value
  | .erand48 _ | .drand48 => .double (f64OfBits (0x3ff0000000000000#64 ||| (step <<< 4)) - 1)
  | .nrand48 _ | .lrand48 => .long (step >>> 17)
  | .jrand48 _ | .mrand48 => .long (((step >>> 16).setWidth 32).signExtend 64)

/-- The state the stream at `s` moves to. -/
def nextState (m : Memory) (s : Addr) : ℕ :=
  Lcg.step (2 ^ 48) (multiplier st m) (addend st m) (stateAt m s)

theorem nextState_lt (m : Memory) (s : Addr) : nextState st m s < 2 ^ 48 :=
  Lcg.step_lt (by norm_num)

theorem exec_eq (d : Draw) (m : Memory) :
    d.exec st m = (d.value (BitVec.ofNat 64 (nextState st m (d.stream st))),
      writeLE m (d.stream st) 6 (BitVec.ofNat (8 * 6) (nextState st m (d.stream st)))) := by
  cases d <;>
    simp only [Draw.exec, Prng.erand48, Prng.drand48, Prng.nrand48, Prng.lrand48, Prng.jrand48,
      Prng.mrand48, rand48Step_eq] <;> rfl

/-- The 52 bits below a unit exponent are a binary fraction added to one. -/
theorem f64OfBits_unit {x : ℕ} (hx : x < 2 ^ 48) :
    f64OfBits (0x3ff0000000000000#64 ||| (BitVec.ofNat 64 x <<< 4)) - 1 = x / 2 ^ 48 := by
  have hbits : (0x3ff0000000000000#64 ||| (BitVec.ofNat 64 x <<< 4)).toNat =
      1023 * 2 ^ 52 + 16 * x := by
    rw [BitVec.toNat_or, BitVec.toNat_shiftLeft, BitVec.toNat_ofNat, BitVec.toNat_ofNat,
      Nat.mod_eq_of_lt (by omega : x < 2 ^ 64), Nat.shiftLeft_eq,
      Nat.mod_eq_of_lt (by omega : x * 2 ^ 4 < 2 ^ 64)]
    have hjoin := Nat.shiftLeft_add_eq_or_of_lt (by omega : x * 2 ^ 4 < 2 ^ 52) 1023
    rw [Nat.shiftLeft_eq] at hjoin
    rw [show 0x3ff0000000000000 % 2 ^ 64 = 1023 * 2 ^ 52 by norm_num, ← hjoin]
    ring
  have hsign : (0x3ff0000000000000#64 ||| (BitVec.ofNat 64 x <<< 4)).msb = false := by
    rw [BitVec.msb_eq_decide, hbits, decide_eq_false_iff_not]
    omega
  have hexponent : ((0x3ff0000000000000#64 ||| (BitVec.ofNat 64 x <<< 4)) >>> 52).toNat = 1023 := by
    rw [BitVec.toNat_ushiftRight, hbits, Nat.shiftRight_eq_div_pow]
    omega
  have hfraction : (1023 * 2 ^ 52 + 16 * x) % 2 ^ 52 = 16 * x := by omega
  rw [f64OfBits, hsign, hexponent, hbits, hfraction]
  push_cast
  norm_num
  ring

theorem returns_value {x : ℕ} (hx : x < 2 ^ 48) (d : Draw) :
    d.Returns x (d.value (BitVec.ofNat 64 x)) := by
  have hwide : (BitVec.ofNat 64 x).toNat = x := by
    rw [BitVec.toNat_ofNat, Nat.mod_eq_of_lt (by omega)]
  have hlong : (BitVec.ofNat 64 x >>> 17).toInt = x / 2 ^ 17 := by
    have hshift : (BitVec.ofNat 64 x >>> 17).toNat = x / 2 ^ 17 := by
      rw [BitVec.toNat_ushiftRight, hwide, Nat.shiftRight_eq_div_pow]
    rw [BitVec.toInt_eq_toNat_of_lt (by omega), hshift]
    rfl
  have hsigned : (((BitVec.ofNat 64 x >>> 16).setWidth 32).signExtend 64).toInt =
      ((x / 2 ^ 16 : ℕ) : ℤ).bmod (2 ^ 32) := by
    have hhalf : (BitVec.ofNat 64 x >>> 16).setWidth 32 = BitVec.ofNat 32 (x / 2 ^ 16) := by
      apply BitVec.eq_of_toNat_eq
      rw [BitVec.toNat_setWidth, BitVec.toNat_ushiftRight, hwide, Nat.shiftRight_eq_div_pow,
        BitVec.toNat_ofNat]
    rw [hhalf, BitVec.toInt_signExtend_of_le (by norm_num), BitVec.toInt_ofNat']
  cases d with
  | nrand48 s | lrand48 => exact ⟨_, rfl, hlong, by omega, by omega⟩
  | jrand48 s | mrand48 => exact ⟨_, rfl, hsigned⟩
  | erand48 s | drand48 => exact congrArg Value.double (f64OfBits_unit hx)

/-! ## Runs -/

section Runs

variable {st} {m : Memory} {ds : List Draw}

/-- No draw of the run writes the multiplier or the addend. -/
def KeepsParams (st : Statics) (ds : List Draw) : Prop :=
  ∀ d ∈ ds, Separate (d.stream st) 6 (seed48LcPtr st) 8

/-- Each draw of the run is from the stream at `s` or does not touch it. -/
def Apart (st : Statics) (s : Addr) (ds : List Draw) : Prop :=
  ∀ d ∈ ds, d.stream st = s ∨ Separate (d.stream st) 6 s 6

/-- The parameters lie behind the global state, apart from the buffers of callers. -/
theorem separate_params {s : Addr} (h : s = st.seed48 ∨ Separate s 6 st.seed48 14) :
    Separate s 6 (seed48LcPtr st) 8 := by
  rcases h with rfl | hsep
  · have hsplit := separate_of_le (b := st.seed48) (i := 0) (k := 6) (j := 6) (l := 8)
      le_rfl (by norm_num)
    rwa [ptrAdd_zero] at hsplit
  · have hparts := hsep.parts (i := 0) (k := 6) (j := 6) (l := 8) le_rfl (by norm_num) le_rfl
      (by norm_num)
    rwa [ptrAdd_zero] at hparts

theorem runDraws_frame {a : Addr} (h : ∀ d ∈ ds, ¬ Within (d.stream st) 6 a) :
    (runDraws st ds m).2 a = m a := by
  induction ds generalizing m with
  | nil => rfl
  | cons d ds ih =>
      have hrest : (runDraws st ds (d.exec st m).2).2 a = (d.exec st m).2 a :=
        ih fun d' hd' => h d' (List.mem_cons_of_mem d hd')
      have hhead : (d.exec st m).2 a = m a := by
        rw [exec_eq]
        exact writeLE_of_not_within m _ (h d List.mem_cons_self)
      exact hrest.trans hhead

theorem readLE_runDraws {b : Addr} {k : ℕ} (hk : k ≤ 2 ^ 64)
    (h : ∀ d ∈ ds, Separate (d.stream st) 6 b k) : readLE (runDraws st ds m).2 b k = readLE m b k :=
  readLE_congr fun _ hi => runDraws_frame fun d hd hin => h d hd _ hin (within_ptrAdd hi hk)

theorem runDraws_params (h : KeepsParams st ds) :
    multiplier st (runDraws st ds m).2 = multiplier st m ∧
      addend st (runDraws st ds m).2 = addend st m := by
  constructor
  · have hread := readLE_runDraws (m := m) (k := 6) (by norm_num) fun d hd =>
      (h d hd).mono le_rfl (by norm_num)
    exact congrArg BitVec.toNat hread
  · have hread := readLE_runDraws (m := m) (b := ptrAdd (seed48LcPtr st) 6) (k := 2) (by norm_num)
      fun d hd => by
        have hparts := (h d hd).parts (i := 0) (k := 6) (j := 6) (l := 2) le_rfl (by norm_num)
          le_rfl (by norm_num)
        rwa [ptrAdd_zero] at hparts
    exact congrArg BitVec.toNat hread

/-- The state of a stream after a draw: moved if the draw is from it. -/
theorem stateAt_exec (d : Draw) {s : Addr} (h : d.stream st = s ∨ Separate (d.stream st) 6 s 6) :
    stateAt (d.exec st m).2 s = if d.stream st = s then nextState st m s else stateAt m s := by
  rw [exec_eq]
  by_cases hs : d.stream st = s
  · subst hs
    have hlt := nextState_lt st m (d.stream st)
    rw [if_pos rfl, stateAt, readLE_writeLE_self m _ _ (by norm_num), BitVec.toNat_ofNat,
      Nat.mod_eq_of_lt hlt]
  · have hsep := h.resolve_left hs
    rw [if_neg hs, stateAt, readLE_writeLE_of_separate m _ hsep (by norm_num)]
    rfl

/-- A stream advances by its own draws only, whatever the run is interleaved with. -/
theorem stateAt_runDraws {s : Addr} (hparams : KeepsParams st ds) (hs : Apart st s ds) :
    stateAt (runDraws st ds m).2 s =
      (Lcg.step (2 ^ 48) (multiplier st m) (addend st m))^[drawsFrom st s ds] (stateAt m s) := by
  induction ds generalizing m with
  | nil => rfl
  | cons d ds ih =>
      have hrest := ih (m := (d.exec st m).2)
        (fun d' hd' => hparams d' (List.mem_cons_of_mem d hd'))
        fun d' hd' => hs d' (List.mem_cons_of_mem d hd')
      have hhead := stateAt_exec (m := m) d (hs d List.mem_cons_self)
      have hone : KeepsParams st [d] := fun d' hd' =>
        hparams d' (by rw [List.mem_singleton.mp hd']; exact List.mem_cons_self)
      obtain ⟨hmultiplier, haddend⟩ := runDraws_params (m := m) hone
      change multiplier st (d.exec st m).2 = _ at hmultiplier
      change addend st (d.exec st m).2 = _ at haddend
      change stateAt (runDraws st ds (d.exec st m).2).2 s = _
      rw [hrest, hhead, hmultiplier, haddend, drawsFrom, drawsFrom, List.countP_cons]
      by_cases heq : d.stream st = s
      · rw [if_pos heq, if_pos (decide_eq_true heq), Function.iterate_add_apply]
        rfl
      · rw [if_neg heq, if_neg (by rwa [decide_eq_true_eq]), Nat.add_zero]

/-- The value of one draw of a run. -/
theorem getElem?_runDraws (j : ℕ) :
    (runDraws st ds m).1[j]? =
      ds[j]?.map fun d => (d.exec st (runDraws st (ds.take j) m).2).1 := by
  induction ds generalizing m j with
  | nil => rfl
  | cons d ds ih =>
      cases j with
      | zero => rfl
      | succ j => exact ih j

/-- Every draw returns what its stream's new state prescribes. -/
theorem value_runDraws (hparams : KeepsParams st ds) {j : ℕ} {d : Draw} (hj : ds[j]? = some d)
    (hd : Apart st (d.stream st) ds) :
    (runDraws st ds m).1[j]? = some (d.value (BitVec.ofNat 64
      ((Lcg.step (2 ^ 48) (multiplier st m) (addend st m))^[drawsFrom st (d.stream st)
        (ds.take (j + 1))] (stateAt m (d.stream st))))) := by
  have hbefore : KeepsParams st (ds.take j) := fun d' hd' => hparams d' (List.mem_of_mem_take hd')
  obtain ⟨hmultiplier, haddend⟩ := runDraws_params (m := m) hbefore
  have hstate := stateAt_runDraws (m := m) hbefore
    fun d' hd' => hd d' (List.mem_of_mem_take hd')
  have hcount : drawsFrom st (d.stream st) (ds.take (j + 1)) =
      drawsFrom st (d.stream st) (ds.take j) + 1 := by
    rw [List.take_add_one, hj, drawsFrom, List.countP_append]
    simp [drawsFrom]
  rw [getElem?_runDraws, hj, Option.map_some, exec_eq, nextState, hmultiplier, haddend, hstate,
    hcount, Function.iterate_succ_apply']

/-- Draws from the global stream and from buffers of callers leave the parameters alone. -/
theorem keepsParams_of_static {bufs : Set Addr} (hstatic : ∀ p ∈ bufs, Separate p 6 st.seed48 14)
    (hds : ∀ d ∈ ds, d.stream st = st.seed48 ∨ d.stream st ∈ bufs) : KeepsParams st ds :=
  fun d hd => separate_params ((hds d hd).imp_right (hstatic _))

/-- Buffers that overlap neither each other nor `__seed48` are streams of their own. -/
theorem apart_of_disjoint {bufs : Set Addr}
    (hdisjoint : ∀ p ∈ bufs, ∀ q ∈ bufs, p ≠ q → Separate p 6 q 6)
    (hstatic : ∀ p ∈ bufs, Separate p 6 st.seed48 14)
    (hds : ∀ d ∈ ds, d.stream st = st.seed48 ∨ d.stream st ∈ bufs) {s : Addr}
    (hs : s = st.seed48 ∨ s ∈ bufs) : Apart st s ds := by
  have hstate : ∀ p ∈ bufs, Separate p 6 st.seed48 6 := fun p hp =>
    (hstatic p hp).mono le_rfl (by norm_num)
  intro d hd
  by_cases heq : d.stream st = s
  · exact .inl heq
  right
  rcases hs with rfl | hs <;> rcases hds d hd with heq' | hbuf
  · exact absurd heq' heq
  · exact hstate _ hbuf
  · rw [heq']
    exact (hstate s hs).symm
  · exact hdisjoint _ hbuf s hs heq

/-- A draw returns what its stream's new state prescribes, whatever value that is. -/
theorem exists_returns (hparams : KeepsParams st ds) {j : ℕ} {d : Draw} (hj : ds[j]? = some d)
    (hd : Apart st (d.stream st) ds) :
    ∃ v, (runDraws st ds m).1[j]? = some v ∧ d.Returns
      ((Lcg.step (2 ^ 48) (multiplier st m) (addend st m))^[drawsFrom st (d.stream st)
        (ds.take (j + 1))] (stateAt m (d.stream st))) v :=
  ⟨_, value_runDraws hparams hj hd,
    returns_value (Lcg.iterate_lt (by norm_num) (stateAt_lt m _) _) d⟩

end Runs

/-- **The three-limb generator refines the generator modulo `2 ^ 48` on every
stream.**  In any run of draws from the global stream and from caller-owned
buffers that overlap neither each other nor `__seed48`, and for any contents of
memory before it: each stream ends in the state its own draws lead to; the draw
at position `j` returns what its stream's state after it prescribes; the
multiplier, the addend and all other memory are as they were. -/
theorem rand48_streams_refine (bufs : Set Addr)
    (hdisjoint : ∀ p ∈ bufs, ∀ q ∈ bufs, p ≠ q → Separate p 6 q 6)
    (hstatic : ∀ p ∈ bufs, Separate p 6 st.seed48 14) (m : Memory) (ds : List Draw)
    (hds : ∀ d ∈ ds, d.stream st = st.seed48 ∨ d.stream st ∈ bufs) :
    let x := fun s k =>
      (Lcg.step (2 ^ 48) (multiplier st m) (addend st m))^[k] (stateAt m s)
    (∀ s, s = st.seed48 ∨ s ∈ bufs →
      stateAt (runDraws st ds m).2 s = x s (drawsFrom st s ds)) ∧
    (∀ (j : ℕ) (d : Draw), ds[j]? = some d → ∃ v, (runDraws st ds m).1[j]? = some v ∧
      d.Returns (x (d.stream st) (drawsFrom st (d.stream st) (ds.take (j + 1)))) v) ∧
    multiplier st (runDraws st ds m).2 = multiplier st m ∧
    addend st (runDraws st ds m).2 = addend st m ∧
    ∀ a, (∀ d ∈ ds, ¬ Within (d.stream st) 6 a) → (runDraws st ds m).2 a = m a := by
  intro x
  -- no draw is from a stream that touches the parameters or another stream
  have hparams := keepsParams_of_static hstatic hds
  have hapart : ∀ s, s = st.seed48 ∨ s ∈ bufs → Apart st s ds := fun s hs =>
    apart_of_disjoint hdisjoint hstatic hds hs
  refine ⟨fun s hs => stateAt_runDraws hparams (hapart s hs), ?_, ?_⟩
  · intro j d hj
    exact exists_returns hparams hj (hapart _ (hds d (List.mem_of_getElem? hj)))
  · obtain ⟨hmultiplier, haddend⟩ := runDraws_params (m := m) hparams
    exact ⟨hmultiplier, haddend, fun a ha => runDraws_frame ha⟩

/-- One caller-owned buffer and the global stream, interleaved. -/
theorem rand48_streams_refine_interleaved :
    let st : Statics := ⟨0x1000, 0x2000, separate_of_add_le (by decide) (by decide)⟩
    let m : Memory := fun a => a.setWidth 8
    let ds := [.nrand48 0x3000, .lrand48, .jrand48 0x3000]
    stateAt (runDraws st ds m).2 0x3000 =
      (Lcg.step (2 ^ 48) (multiplier st m) (addend st m))^[2] (stateAt m 0x3000) := by
  intro st m ds
  have hstatic : ∀ p ∈ ({0x3000} : Set Addr), Separate p 6 st.seed48 14 := by
    rintro p rfl
    exact (separate_of_add_le (by decide) (by decide)).symm
  have hrun := rand48_streams_refine st {0x3000}
    (fun p hp q hq hne => absurd (hp.trans hq.symm) hne) hstatic m ds
    (by simp [ds, Draw.stream, seed48XiPtr, st])
  exact hrun.1 0x3000 (.inr rfl)

end Mytilus.Prng
