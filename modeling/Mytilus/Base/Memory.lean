import Mathlib.Tactic

/-!
# Byte-addressed memory

A flat 64-bit address space, little-endian accesses of any width, and the
frame facts about them.  Addresses wrap at `2 ^ 64`, so a region is described
by the offset of an address from its base rather than by two bounds:
`offset base a < len`.  In this form no statement needs to ask whether the
region runs over the end of the address space.

`Patched base f C m m'` says that `m'` is `m` with the bytes at the offsets in
`C` replaced by the values `f` prescribes.  Every store that writes bytes which
agree with `f` only enlarges `C` (`Patched.store`), in whatever order and with
whatever overlap the stores are made.
-/

/-- A 64-bit address. -/
abbrev Addr := BitVec 64

abbrev Byte := BitVec 8

/-- The contents of the whole address space. -/
abbrev Memory := Addr → Byte

namespace Memory

/-! ## Pointers and regions -/

/-- The address `i` bytes past `a`. -/
def ptrAdd (a : Addr) (i : ℕ) : Addr := a + BitVec.ofNat 64 i

/-- The distance of `a` past `base`, modulo the size of the address space. -/
def offset (base a : Addr) : ℕ := (a - base).toNat

/-- `a` is one of the `len` bytes from `base` on. -/
def Within (base : Addr) (len : ℕ) (a : Addr) : Prop := offset base a < len

instance (base : Addr) (len : ℕ) (a : Addr) : Decidable (Within base len a) :=
  inferInstanceAs (Decidable (offset base a < len))

/-- The regions of `m` bytes at `p` and of `n` bytes at `q` have no byte in common. -/
def Separate (p : Addr) (m : ℕ) (q : Addr) (n : ℕ) : Prop :=
  ∀ a, Within p m a → ¬ Within q n a

theorem offset_lt (base a : Addr) : offset base a < 2 ^ 64 := (a - base).isLt

@[simp] theorem ptrAdd_zero (a : Addr) : ptrAdd a 0 = a := by simp [ptrAdd]

@[simp] theorem ptrAdd_ptrAdd (a : Addr) (i j : ℕ) :
    ptrAdd (ptrAdd a i) j = ptrAdd a (i + j) := by
  unfold ptrAdd
  rw [BitVec.ofNat_add, BitVec.add_assoc]

/-- An offset from the next byte on. -/
theorem ptrAdd_one_ptrAdd (a : Addr) (i : ℕ) : ptrAdd (ptrAdd a 1) i = ptrAdd a (i + 1) := by
  rw [ptrAdd_ptrAdd, Nat.add_comm]

@[simp] theorem ptrAdd_offset (base a : Addr) : ptrAdd base (offset base a) = a := by
  unfold ptrAdd offset
  rw [BitVec.ofNat_toNat, BitVec.setWidth_eq]
  bv_omega

theorem offset_ptrAdd {base : Addr} {i : ℕ} (hi : i < 2 ^ 64) : offset base (ptrAdd base i) = i := by
  unfold ptrAdd offset
  bv_omega

theorem ptrAdd_inj {base : Addr} {i j : ℕ} (hi : i < 2 ^ 64) (hj : j < 2 ^ 64) :
    ptrAdd base i = ptrAdd base j ↔ i = j := by
  refine ⟨fun h => ?_, fun h => by rw [h]⟩
  calc i = offset base (ptrAdd base i) := (offset_ptrAdd hi).symm
    _ = offset base (ptrAdd base j) := by rw [h]
    _ = j := offset_ptrAdd hj

theorem within_ptrAdd {base : Addr} {len i : ℕ} (hi : i < len) (hlen : len ≤ 2 ^ 64) :
    Within base len (ptrAdd base i) := by
  unfold Within
  rwa [offset_ptrAdd (by omega)]

theorem Separate.symm {p q : Addr} {m n : ℕ} (h : Separate p m q n) : Separate q n p m :=
  fun a hq hp => h a hp hq

theorem Separate.mono {p q : Addr} {m n m' n' : ℕ} (h : Separate p m q n) (hm : m' ≤ m)
    (hn : n' ≤ n) : Separate p m' q n' :=
  fun a hp hq => h a (lt_of_lt_of_le hp hm) (lt_of_lt_of_le hq hn)

/-- The offset of an address from a point inside the region it is measured from. -/
theorem within_ptrAdd_iff {base a : Addr} {i len : ℕ} (hlen : i + len ≤ 2 ^ 64) :
    Within (ptrAdd base i) len a ↔ i ≤ offset base a ∧ offset base a < i + len := by
  unfold Within ptrAdd offset
  bv_omega

/-- A part of a region lies within it. -/
theorem Within.of_part {base a : Addr} {i len total : ℕ} (h : Within (ptrAdd base i) len a)
    (hle : i + len ≤ total) (htotal : total ≤ 2 ^ 64) : Within base total a := by
  have hoff := (within_ptrAdd_iff (by omega)).mp h
  unfold Within
  omega

/-- Parts of separate regions are separate. -/
theorem Separate.parts {p q : Addr} {m n i j k l : ℕ} (h : Separate p m q n)
    (hi : i + k ≤ m) (hm : m ≤ 2 ^ 64) (hj : j + l ≤ n) (hn : n ≤ 2 ^ 64) :
    Separate (ptrAdd p i) k (ptrAdd q j) l :=
  fun a hp hq => h a (hp.of_part hi hm) (hq.of_part hj hn)

/-- Two parts of one region that do not overlap are separate. -/
theorem separate_of_le {b : Addr} {i j k l : ℕ} (hij : i + k ≤ j) (hj : j + l ≤ 2 ^ 64) :
    Separate (ptrAdd b i) k (ptrAdd b j) l := by
  intro a ha ha'
  have h := (within_ptrAdd_iff (by omega)).mp ha
  have h' := (within_ptrAdd_iff (by omega)).mp ha'
  omega

/-- Two regions that do not wrap, one below the other, are separate. -/
theorem separate_of_add_le {p q : Addr} {m n : ℕ} (hle : p.toNat + m ≤ q.toNat)
    (hq : q.toNat + n ≤ 2 ^ 64) : Separate p m q n := by
  intro a hp hq'
  unfold Within offset at hp hq'
  bv_omega

/-- Two separate regions of the same length fill at most the address space. -/
theorem Separate.two_mul_le {p q : Addr} {n : ℕ} (h : Separate p n q n) (hn : n ≤ 2 ^ 64) :
    2 * n ≤ 2 ^ 64 := by
  rcases Nat.eq_zero_or_pos n with rfl | hpos
  · simp
  have hp : ¬ Within p n q := fun hq => h q hq (by simpa [Within, offset] using hpos)
  have hq : ¬ Within q n p := fun hp => h p (by simpa [Within, offset] using hpos) hp
  unfold Within offset at hp hq
  bv_omega

/-! ## Frames -/

/-- Nothing outside the `len` bytes at `p` differs. -/
def SameOutside (p : Addr) (len : ℕ) (m m' : Memory) : Prop := ∀ a, ¬ Within p len a → m' a = m a

theorem SameOutside.refl (p : Addr) (len : ℕ) (m : Memory) : SameOutside p len m m := fun _ _ => rfl

theorem SameOutside.trans {p : Addr} {len : ℕ} {m m' m'' : Memory} (h : SameOutside p len m m')
    (h' : SameOutside p len m' m'') : SameOutside p len m m'' :=
  fun a ha => (h' a ha).trans (h a ha)

theorem SameOutside.mono {p : Addr} {len len' : ℕ} {m m' : Memory} (h : SameOutside p len m m')
    (hle : len ≤ len') : SameOutside p len' m m' :=
  fun a ha => h a fun hin => ha (lt_of_lt_of_le hin hle)

/-! ## Alignment -/

theorem and_add_and_not {w : ℕ} (x m : BitVec w) : (x &&& m) + (x &&& ~~~ m) = x := by
  rw [BitVec.add_eq_or_of_and_eq_zero]
  · ext i hi
    simp only [BitVec.getElem_or, BitVec.getElem_and, BitVec.getElem_not]
    cases x[i] <;> cases m[i] <;> rfl
  · ext i hi
    simp only [BitVec.getElem_and, BitVec.getElem_not, BitVec.getElem_zero]
    cases x[i] <;> cases m[i] <;> rfl

theorem and_lowMask (x : Addr) {k : ℕ} (hk : k < 64) :
    x &&& BitVec.ofNat 64 (2 ^ k - 1) = BitVec.ofNat 64 (x.toNat % 2 ^ k) := by
  have hpow : 2 ^ k < 2 ^ 64 := Nat.pow_lt_pow_right (by norm_num) hk
  have hmod := Nat.mod_lt x.toNat (Nat.two_pow_pos k)
  apply BitVec.eq_of_toNat_eq
  rw [BitVec.toNat_and, BitVec.toNat_ofNat, BitVec.toNat_ofNat, Nat.mod_eq_of_lt (by omega),
    Nat.mod_eq_of_lt (by omega), Nat.and_two_pow_sub_one_eq_mod]

/-- Clearing the low `k` bits rounds an address down to a multiple of `2 ^ k`. -/
theorem and_not_lowMask (x : Addr) {k : ℕ} (hk : k < 64) :
    x &&& ~~~ BitVec.ofNat 64 (2 ^ k - 1) = x - BitVec.ofNat 64 (x.toNat % 2 ^ k) := by
  have h := and_add_and_not x (BitVec.ofNat 64 (2 ^ k - 1))
  rw [and_lowMask x hk, BitVec.add_comm] at h
  calc x &&& ~~~ BitVec.ofNat 64 (2 ^ k - 1)
      = (x &&& ~~~ BitVec.ofNat 64 (2 ^ k - 1)) + BitVec.ofNat 64 (x.toNat % 2 ^ k) -
          BitVec.ofNat 64 (x.toNat % 2 ^ k) := (BitVec.add_sub_cancel ..).symm
    _ = x - BitVec.ofNat 64 (x.toNat % 2 ^ k) := by rw [h]

/-- What rounding down leaves. -/
theorem toNat_sub_mod (x : Addr) (m : ℕ) :
    (x - BitVec.ofNat 64 (x.toNat % m)).toNat = x.toNat - x.toNat % m := by
  have hle : x.toNat % m ≤ x.toNat := Nat.mod_le ..
  generalize x.toNat % m = r at hle ⊢
  bv_omega

/-! ## Bytes of a value -/

/-- Byte `k` of a value, counted from the least significant end. -/
def byteOf {w : ℕ} (v : BitVec w) (k : ℕ) : Byte := v.extractLsb' (8 * k) 8

theorem getLsbD_byteOf {w : ℕ} (v : BitVec w) (k i : ℕ) :
    (byteOf v k).getLsbD i = (decide (i < 8) && v.getLsbD (8 * k + i)) := by
  simp [byteOf, BitVec.getLsbD_extractLsb']

/-- A value of `n` bytes is determined by them. -/
theorem eq_of_byteOf_eq {n : ℕ} {v w : BitVec (8 * n)}
    (h : ∀ k < n, byteOf v k = byteOf w k) : v = w := by
  apply BitVec.eq_of_getLsbD_eq
  intro i hi
  have hbyte : (byteOf v (i / 8)).getLsbD (i % 8) = (byteOf w (i / 8)).getLsbD (i % 8) := by
    rw [h (i / 8) (by omega)]
  rwa [getLsbD_byteOf, getLsbD_byteOf, Nat.div_add_mod, decide_eq_true (by omega),
    Bool.true_and, Bool.true_and] at hbyte

/-- Widening does not change the bytes a value has. -/
theorem byteOf_setWidth {w : ℕ} (v : BitVec w) {w' k : ℕ} (hk : 8 * k + 8 ≤ w') :
    byteOf (v.setWidth w') k = byteOf v k := by
  apply BitVec.eq_of_getLsbD_eq
  intro i hi
  rw [getLsbD_byteOf, getLsbD_byteOf, BitVec.getLsbD_setWidth, decide_eq_true hi,
    decide_eq_true (by omega : 8 * k + i < w'), Bool.true_and, Bool.true_and]

theorem byteOf_append_low {w n : ℕ} (hi : BitVec w) (lo : BitVec (8 * n)) {k : ℕ} (hk : k < n) :
    byteOf (hi ++ lo) k = byteOf lo k := by
  apply BitVec.eq_of_getLsbD_eq
  intro i hi8
  rw [getLsbD_byteOf, getLsbD_byteOf, BitVec.getLsbD_append,
    if_pos (by omega : 8 * k + i < 8 * n)]

theorem byteOf_append_high {w n : ℕ} (hi : BitVec w) (lo : BitVec (8 * n)) (k : ℕ) :
    byteOf (hi ++ lo) (n + k) = byteOf hi k := by
  apply BitVec.eq_of_getLsbD_eq
  intro i hi8
  rw [getLsbD_byteOf, getLsbD_byteOf, BitVec.getLsbD_append,
    if_neg (by omega : ¬ 8 * (n + k) + i < 8 * n),
    show 8 * (n + k) + i - 8 * n = 8 * k + i by omega]

/-! ## Little-endian loads and stores -/

/-- The little-endian value of the `n` bytes at `a`. -/
def readLE (m : Memory) (a : Addr) : (n : ℕ) → BitVec (8 * n)
  | 0 => 0#0
  | n + 1 => (m (ptrAdd a n) ++ readLE m a n).cast (by omega)

/-- The memory after a little-endian store of the low `n` bytes of `v` at `a`. -/
def writeLE (m : Memory) (a : Addr) (n : ℕ) {w : ℕ} (v : BitVec w) : Memory := fun x =>
  if Within a n x then byteOf v (offset a x) else m x

theorem byteOf_readLE (m : Memory) (a : Addr) {n k : ℕ} (hk : k < n) :
    byteOf (readLE m a n) k = m (ptrAdd a k) := by
  induction n with
  | zero => omega
  | succ n ih =>
      have hcast : byteOf (readLE m a (n + 1)) k = byteOf (m (ptrAdd a n) ++ readLE m a n) k := by
        apply BitVec.eq_of_getLsbD_eq
        intro i hi
        rw [getLsbD_byteOf, getLsbD_byteOf, readLE, BitVec.getLsbD_cast]
      rw [hcast]
      rcases Nat.lt_succ_iff_lt_or_eq.mp hk with hlt | rfl
      · rw [byteOf_append_low _ _ hlt, ih hlt]
      · have hhigh := byteOf_append_high (m (ptrAdd a k)) (readLE m a k) 0
        rw [Nat.add_zero] at hhigh
        rw [hhigh]
        simp [byteOf]

theorem readLE_congr {m m' : Memory} {a a' : Addr} {n : ℕ}
    (h : ∀ k < n, m (ptrAdd a k) = m' (ptrAdd a' k)) : readLE m a n = readLE m' a' n :=
  eq_of_byteOf_eq fun k hk => by rw [byteOf_readLE m a hk, byteOf_readLE m' a' hk, h k hk]

/-- A part of a separate region is the same. -/
theorem SameOutside.readLE_eq {p q : Addr} {len n k w : ℕ} {m m' : Memory}
    (h : SameOutside p len m m') (hsep : Separate p len q n) (hk : k + w ≤ n) (hn : n ≤ 2 ^ 64) :
    readLE m' (ptrAdd q k) w = readLE m (ptrAdd q k) w := by
  refine readLE_congr fun i hi => h _ fun hin => hsep _ hin ?_
  rw [ptrAdd_ptrAdd]
  exact within_ptrAdd (by omega) hn

theorem writeLE_ptrAdd (m : Memory) (a : Addr) {n w k : ℕ} (v : BitVec w) (hk : k < n)
    (hn : n ≤ 2 ^ 64) : writeLE m a n v (ptrAdd a k) = byteOf v k := by
  unfold writeLE
  rw [if_pos (within_ptrAdd hk hn), offset_ptrAdd (by omega)]

/-- A store changes nothing outside its own bytes. -/
theorem writeLE_of_not_within (m : Memory) {a x : Addr} {n w : ℕ} (v : BitVec w)
    (hx : ¬ Within a n x) : writeLE m a n v x = m x :=
  if_neg hx

/-- A store uses only the low bytes of its value. -/
theorem writeLE_congr (m : Memory) (a : Addr) {n w w' : ℕ} {v : BitVec w} {v' : BitVec w'}
    (h : ∀ k < n, byteOf v k = byteOf v' k) : writeLE m a n v = writeLE m a n v' := by
  funext x
  unfold writeLE
  by_cases hx : Within a n x
  · rw [if_pos hx, if_pos hx, h _ hx]
  · rw [if_neg hx, if_neg hx]

@[simp] theorem readLE_writeLE_self (m : Memory) (a : Addr) {n : ℕ} (v : BitVec (8 * n))
    (hn : n ≤ 2 ^ 64) : readLE (writeLE m a n v) a n = v :=
  eq_of_byteOf_eq fun k hk => by rw [byteOf_readLE _ _ hk, writeLE_ptrAdd m a v hk hn]

theorem readLE_writeLE_of_separate (m : Memory) {a b : Addr} {n k w : ℕ} (v : BitVec w)
    (h : Separate a n b k) (hk : k ≤ 2 ^ 64) : readLE (writeLE m a n v) b k = readLE m b k :=
  readLE_congr fun _ hi => writeLE_of_not_within m v fun hin =>
    h _ hin (within_ptrAdd hi hk)

/-- A part of a region that has been copied from another one. -/
theorem readLE_writeLE_copy (m : Memory) {a b : Addr} {i k n : ℕ} (hik : i + k ≤ n)
    (hn : n ≤ 2 ^ 64) :
    readLE (writeLE m a n (readLE m b n)) (ptrAdd a i) k = readLE m (ptrAdd b i) k :=
  readLE_congr fun j hj => by
    rw [ptrAdd_ptrAdd, writeLE_ptrAdd m a _ (by omega) hn, byteOf_readLE m b (by omega),
      ptrAdd_ptrAdd]

/-- Two adjacent loads are the two halves of one. -/
theorem toNat_readLE_add (m : Memory) (a : Addr) (n k : ℕ) :
    (readLE m a (n + k)).toNat =
      (readLE m a n).toNat + 2 ^ (8 * n) * (readLE m (ptrAdd a n) k).toNat := by
  have hsucc : ∀ a n, (readLE m a (n + 1)).toNat =
      (readLE m a n).toNat + 2 ^ (8 * n) * (m (ptrAdd a n)).toNat := by
    intro a n
    have hlt : (readLE m a n).toNat < 2 ^ (8 * n) := (readLE m a n).isLt
    rw [readLE, BitVec.toNat_cast, BitVec.toNat_append, ← Nat.shiftLeft_add_eq_or_of_lt hlt,
      Nat.shiftLeft_eq]
    ring
  induction k with
  | zero =>
      rw [Nat.add_zero, show readLE m (ptrAdd a n) 0 = 0#0 from rfl, BitVec.toNat_ofNat]
      simp
  | succ k ih =>
      rw [← Nat.add_assoc, hsucc, ih, hsucc, ptrAdd_ptrAdd, Nat.mul_add, Nat.pow_add, Nat.pow_mul]
      ring

theorem byteOf_ushiftRight {w : ℕ} (v : BitVec w) (n k : ℕ) :
    byteOf (v >>> (8 * n)) k = byteOf v (n + k) := by
  apply BitVec.eq_of_getLsbD_eq
  intro i hi
  rw [getLsbD_byteOf, getLsbD_byteOf, BitVec.getLsbD_ushiftRight,
    show 8 * n + (8 * k + i) = 8 * (n + k) + i by ring]

/-- Two adjacent stores of the two halves of a value are one store. -/
theorem writeLE_writeLE (m : Memory) (a : Addr) {n k w : ℕ} (v : BitVec w)
    (hlen : n + k ≤ 2 ^ 64) :
    writeLE (writeLE m a n v) (ptrAdd a n) k (v >>> (8 * n)) = writeLE m a (n + k) v := by
  funext x
  by_cases hx : Within (ptrAdd a n) k x
  · have hoff := (within_ptrAdd_iff hlen).mp hx
    have hsplit : n + offset (ptrAdd a n) x = offset a x := by
      unfold offset ptrAdd at *
      bv_omega
    have hall : Within a (n + k) x := hoff.2
    rw [writeLE, if_pos hx, byteOf_ushiftRight, hsplit, writeLE, if_pos hall]
  · rw [writeLE_of_not_within _ _ hx]
    unfold writeLE
    by_cases hlow : Within a n x
    · have hall : Within a (n + k) x := lt_of_lt_of_le hlow (Nat.le_add_right n k)
      rw [if_pos hlow, if_pos hall]
    · have hnot : ¬ Within a (n + k) x := fun hin =>
        hx ((within_ptrAdd_iff hlen).mpr ⟨not_lt.mp hlow, hin⟩)
      rw [if_neg hlow, if_neg hnot]

/-- The memory after a store of one byte. -/
def write (m : Memory) (a : Addr) (b : Byte) : Memory := Function.update m a b

@[simp] theorem write_self (m : Memory) (a : Addr) (b : Byte) : write m a b a = b :=
  Function.update_self ..

theorem write_of_ne (m : Memory) {a x : Addr} (b : Byte) (h : x ≠ a) : write m a b x = m x :=
  Function.update_of_ne h ..

/-! ## Partial overwriting of a region -/

/-- `m'` is `m` with the bytes at the offsets in `C` past `base` set to what `f`
prescribes for them. -/
def Patched (base : Addr) (f : ℕ → Byte) (C : Set ℕ) (m m' : Memory) : Prop :=
  ∀ a, (offset base a ∈ C → m' a = f (offset base a)) ∧ (offset base a ∉ C → m' a = m a)

namespace Patched

variable {base : Addr} {f : ℕ → Byte} {C : Set ℕ} {m m' : Memory}

theorem refl (base : Addr) (f : ℕ → Byte) (m : Memory) : Patched base f ∅ m m :=
  fun _ => ⟨False.elim, fun _ => rfl⟩

/-- A store of bytes that agree with the prescription covers `n` more offsets. -/
theorem store (h : Patched base f C m m') {i n w : ℕ} {v : BitVec w} (hi : i + n ≤ 2 ^ 64)
    (hv : ∀ k < n, byteOf v k = f (i + k)) :
    Patched base f (C ∪ Set.Ico i (i + n)) m (writeLE m' (ptrAdd base i) n v) := by
  intro a
  by_cases ha : Within (ptrAdd base i) n a
  · have hoff := (within_ptrAdd_iff hi).mp ha
    refine ⟨fun _ => ?_, fun hnot => absurd (Or.inr ⟨hoff.1, hoff.2⟩) hnot⟩
    have hsplit : offset (ptrAdd base i) a = offset base a - i := by
      unfold offset ptrAdd at *
      bv_omega
    rw [writeLE, if_pos ha, hsplit, hv _ (by omega), Nat.add_sub_cancel' hoff.1]
  · rw [writeLE_of_not_within m' v ha]
    have hnot : offset base a ∉ Set.Ico i (i + n) := fun hmem =>
      ha ((within_ptrAdd_iff hi).mpr ⟨hmem.1, hmem.2⟩)
    refine ⟨fun hC => (h a).1 (hC.resolve_right hnot), fun hC => (h a).2 fun hin => hC (.inl hin)⟩

/-- A store of one byte that agrees with the prescription covers its offset. -/
theorem write (h : Patched base f C m m') {i : ℕ} {b : Byte} (hi : i < 2 ^ 64) (hb : b = f i) :
    Patched base f (insert i C) m (m'.write (ptrAdd base i) b) := by
  intro a
  by_cases ha : a = ptrAdd base i
  · subst ha
    rw [offset_ptrAdd hi, write_self]
    exact ⟨fun _ => hb, fun hnot => absurd (Or.inl rfl) hnot⟩
  · rw [write_of_ne m' b ha]
    have hne : offset base a ≠ i := fun heq => ha (by rw [← heq, ptrAdd_offset])
    exact ⟨fun hC => (h a).1 (hC.resolve_left hne), fun hC => (h a).2 fun hin => hC (.inr hin)⟩

theorem congr_set {C' : Set ℕ} (h : Patched base f C m m')
    (heq : ∀ i < 2 ^ 64, i ∈ C ↔ i ∈ C') : Patched base f C' m m' :=
  fun a => ⟨fun hC => (h a).1 ((heq _ (offset_lt base a)).mpr hC),
    fun hC => (h a).2 fun hin => hC ((heq _ (offset_lt base a)).mp hin)⟩

/-- Bytes outside the patched offsets still read as before. -/
theorem readLE_eq (h : Patched base f C m m') {b : Addr} {n : ℕ}
    (hb : ∀ k < n, offset base (ptrAdd b k) ∉ C) : readLE m' b n = readLE m b n :=
  readLE_congr fun k hk => (h _).2 (hb k hk)

/-- The patch determines the memory. -/
theorem unique {m₁ m₂ : Memory} (h₁ : Patched base f C m m₁) (h₂ : Patched base f C m m₂) :
    m₁ = m₂ := by
  funext a
  by_cases ha : offset base a ∈ C
  · rw [(h₁ a).1 ha, (h₂ a).1 ha]
  · rw [(h₁ a).2 ha, (h₂ a).2 ha]

end Patched

end Memory
