import Mytilus.AArch64.Overwrite
import Mytilus.Str.Mem
import Mytilus.Str.MemcpyAsm

/-!
# The assembly `memcpy` copies its region

The listing is followed block by block.  What is known at a point of it is a set
of facts of three kinds: which offsets have been copied (`Copying`), which
pointer a register holds (`Points`), and which sixteen source bytes a pair of
registers holds (`Holds`).  A load adds a `Holds` (`ldp`, `load`), a store uses one up
and enlarges the copied set (`stp`, `store`); that a block copies everything is then
the arithmetic of its intervals.

A load may come after a store only if what it reads has not been stored over
(`Clear`).  In the blocks of this file, for up to 128 bytes, all loads come first and
nothing is asked of the two regions.
-/

namespace Mytilus.Str.MemcpyAsm

open AArch64 Memory

/-! ## What is known along the way -/

/-- The number of bytes a call copies. -/
def len (s₀ : State) : ℕ := (s₀.reg count).toNat

/-- A call's job: the bytes of the source region, to the destination region. -/
def job (s₀ : State) : Job where
  dest := s₀.reg dstin
  len := len s₀
  byte := sourceByte s₀.mem (s₀.reg src)
  src := s₀.reg src
  srcLen := len s₀
  len_le := (s₀.reg count).isLt.le
  srcLen_le := (s₀.reg count).isLt.le

/-- The low `n` bytes of the register `r` are the source bytes from offset `k`. -/
def Holds (s₀ : State) (ρ : Reg → BitVec 64) (r : Reg) (n k : ℕ) : Prop :=
  ∀ i < n, byteOf (ρ r) i = (job s₀).byte (k + i)

/-- A register pair holds the sixteen source bytes from offset `k`. -/
def HoldsPair (s₀ : State) (ρ : Reg → BitVec 64) (lo hi : Reg) (k : ℕ) : Prop :=
  Holds s₀ ρ lo 8 k ∧ Holds s₀ ρ hi 8 (k + 8)

/-- The offsets in `C` have been copied. -/
abbrev Copying (s₀ : State) (C : Set ℕ) (s : State) : Prop := Overwrites (job s₀) C s₀ s

/-- All is copied. -/
abbrev Post (s₀ : State) : Addr → State → Prop := Overwritten (job s₀) s₀

/-- None of the `n` source bytes from offset `k` on is one of the copied offsets in `C`. -/
def Clear (s₀ : State) (C : Set ℕ) (k n : ℕ) : Prop :=
  ∀ i < n, offset (s₀.reg dstin) (ptrAdd (s₀.reg src) (k + i)) ∉ C

/-- No byte of the source is below the one of the destination that it goes to. -/
def Ahead (s₀ : State) : Prop :=
  ∀ j < len s₀, j ≤ offset (s₀.reg dstin) (ptrAdd (s₀.reg src) j)

theorem len_le (s₀ : State) : len s₀ ≤ 2 ^ 64 := (s₀.reg count).isLt.le

section Frame

variable {s₀ : State} {rs : List Reg} {ρ ρ' : Reg → BitVec 64}

theorem Holds.frame {r : Reg} {n k : ℕ} (h : Holds s₀ ρ r n k) (f : Frame rs ρ ρ')
    (hr : r ∉ rs) : Holds s₀ ρ' r n k := fun i hi => by rw [f r hr, h i hi]

theorem HoldsPair.frame {lo hi : Reg} {k : ℕ} (h : HoldsPair s₀ ρ lo hi k) (f : Frame rs ρ ρ')
    (hr : lo ∉ rs ∧ hi ∉ rs) : HoldsPair s₀ ρ' lo hi k :=
  ⟨h.1.frame f hr.1, h.2.frame f hr.2⟩

end Frame

theorem HoldsPair.byteOf_append {s₀ : State} {ρ : Reg → BitVec 64} {lo hi : Reg} {k i : ℕ}
    (h : HoldsPair s₀ ρ lo hi k) (hi16 : i < 16) :
    byteOf (ρ hi ++ ρ lo) i = (job s₀).byte (k + i) := by
  rcases Nat.lt_or_ge i 8 with hlt | hge
  · rw [byteOf_append_low (n := 8) _ _ hlt, h.1 i hlt]
  · obtain ⟨j, rfl⟩ := Nat.exists_eq_add_of_le hge
    rw [byteOf_append_high (n := 8), h.2 j (by omega), Nat.add_assoc]

section Rules

variable {s₀ s : State} {C : Set ℕ} {pc k : ℕ} {Q : Addr → State → Prop}

theorem clear_empty {n : ℕ} : Clear s₀ ∅ k n := fun _ _ => id

theorem Clear.mono {n k' n' : ℕ} (h : Clear s₀ C k n) (hk : k ≤ k') (hn : k' + n' ≤ k + n) :
    Clear s₀ C k' n' := by
  intro i hi
  have hin := h (k' - k + i) (by omega)
  rwa [show k + (k' - k + i) = k' + i by omega] at hin

/-- Nothing has been stored from the source byte `k` on, if none of the stores has come so far. -/
theorem Ahead.clear (h : Ahead s₀) {n : ℕ} (hC : C ⊆ Set.Iio k) (hk : k + n ≤ len s₀) :
    Clear s₀ C k n := by
  intro i hi hmem
  have hahead := h (k + i) (by omega)
  have hstored : _ < k := hC hmem
  omega

/-- The source still reads as it did. -/
theorem Copying.byteOf_load (h : Copying s₀ C s) {n i : ℕ} (hclear : Clear s₀ C k n) (hi : i < n) :
    byteOf (readLE s.mem (ptrAdd (s₀.reg src) k) n) i = (job s₀).byte (k + i) := by
  have hsrc : readLE s.mem (ptrAdd (s₀.reg src) k) n = readLE s₀.mem (ptrAdd (s₀.reg src) k) n :=
    h.mem.readLE_eq fun i hi => by rw [ptrAdd_ptrAdd]; exact hclear i hi
  rw [hsrc, byteOf_readLE s₀.mem _ hi, ptrAdd_ptrAdd]
  rfl

/-! ## One rule for each kind of instruction that touches memory -/

/-- The state after the two loads of an `ldp`, before any write-back. -/
def loadPair (s : State) (t t' : Reg) (a : Addr) : State :=
  ((s.record (.load a 16)).setReg t (readLE s.mem a 8)).setReg t' (readLE s.mem (ptrAdd a 8) 8)

theorem Copying.loadPair (h : Copying s₀ C s) (hclear : Clear s₀ C k 16) {t t' : Reg} {a : Addr}
    (ha : a = ptrAdd (s₀.reg src) k) (hk : k + 16 ≤ len s₀)
    (hfree : (t ≠ .x 0 ∧ t ≠ .x 30) ∧ (t' ≠ .x 0 ∧ t' ≠ .x 30) ∧ t ≠ t') :
    Copying s₀ C (loadPair s t t' a) ∧ HoldsPair s₀ (loadPair s t t' a).reg t t' k := by
  subst ha
  obtain ⟨ht, ht', hne⟩ := hfree
  refine ⟨((h.record rfl hk).setReg _ ht).setReg _ ht', fun i hi => ?_, fun i hi => ?_⟩
  · rw [MemcpyAsm.loadPair, State.reg_setReg, if_neg hne, State.reg_setReg, if_pos rfl,
      h.byteOf_load (hclear.mono le_rfl (by omega)) hi]
  · rw [MemcpyAsm.loadPair, State.reg_setReg, if_pos rfl, ptrAdd_ptrAdd,
      h.byteOf_load (hclear.mono (by omega) (by omega)) hi]

theorem frame_loadPair (t t' : Reg) (a : Addr) : Frame [t, t'] s.reg (loadPair s t t' a).reg := by
  intro r hr
  simp only [List.mem_cons, List.not_mem_nil, or_false, not_or] at hr
  rw [loadPair, State.reg_setReg, if_neg hr.2, State.reg_setReg, if_neg hr.1]
  rfl

theorem exec_ldp_pre {t t' base : Reg} {imm : ℤ} :
    exec (.ldp t t' (.pre base imm)) s =
      (loadPair s t t' (s.reg base + BitVec.ofInt 64 imm)).setReg base
        (s.reg base + BitVec.ofInt 64 imm) :=
  rfl

theorem ldp {t t' base : Reg} {imm z : ℤ}
    (hclear : Clear s₀ C k 16) (hline : code[pc]? = some (.op (.ldp t t' (.off base imm)))) (h : Copying s₀ C s)
    (hbase : Points s.reg base (s₀.reg src) z) (hz : z + imm = k) (hk : k + 16 ≤ len s₀)
    (hfree : (t ≠ .x 0 ∧ t ≠ .x 30) ∧ (t' ≠ .x 0 ∧ t' ≠ .x 30) ∧ t ≠ t')
    (next : ∀ s', Copying s₀ C s' → HoldsPair s₀ s'.reg t t' k → Frame [t, t'] s.reg s'.reg →
      Ends code (pc + 1) s' Q) :
    Ends code pc s Q := by
  obtain ⟨hcopy, hpair⟩ := h.loadPair hclear (hbase.value hz) hk hfree
  exact Ends.op hline (next _ hcopy hpair (frame_loadPair t t' _))

theorem ldp_pre {t t' base : Reg} {imm z : ℤ}
    (hclear : Clear s₀ C k 16) (hline : code[pc]? = some (.op (.ldp t t' (.pre base imm)))) (h : Copying s₀ C s)
    (hbase : Points s.reg base (s₀.reg src) z) (hz : z + imm = k) (hk : k + 16 ≤ len s₀)
    (hfree : (t ≠ .x 0 ∧ t ≠ .x 30) ∧ (t' ≠ .x 0 ∧ t' ≠ .x 30) ∧ t ≠ t')
    (hfree' : (base ≠ .x 0 ∧ base ≠ .x 30) ∧ t ≠ base ∧ t' ≠ base)
    (next : ∀ s', Copying s₀ C s' → HoldsPair s₀ s'.reg t t' k →
      Points s'.reg base (s₀.reg src) (z + imm) → Frame [t, t', base] s.reg s'.reg →
      Ends code (pc + 1) s' Q) :
    Ends code pc s Q := by
  obtain ⟨hb, htb, htb'⟩ := hfree'
  obtain ⟨hcopy, hpair⟩ := h.loadPair hclear (hbase.value hz) hk hfree
  refine Ends.op hline ?_
  rw [exec_ldp_pre]
  refine next _ (hcopy.setReg _ hb) (hpair.frame (frame_setReg _ base _) (by simpa using ⟨htb, htb'⟩)) ?_
    ((frame_loadPair t t' _).trans (frame_setReg _ base _))
  rw [Points, State.reg_setReg_self, hbase.add]

theorem stp {t t' base : Reg} {imm z : ℤ}
    (hline : code[pc]? = some (.op (.stp t t' (.off base imm)))) (h : Copying s₀ C s)
    (hpair : HoldsPair s₀ s.reg t t' k) (hbase : Points s.reg base (s₀.reg dstin) z)
    (hz : z + imm = k) (hk : k + 16 ≤ len s₀)
    (next : ∀ mem trace, Copying s₀ (C ∪ Set.Ico k (k + 16)) { s with mem, trace } →
      Ends code (pc + 1) { s with mem, trace } Q) :
    Ends code pc s Q :=
  Ends.op hline (next _ _ (h.store (hbase.value hz) hk fun _ hi => hpair.byteOf_append hi))

theorem stp_pre {t t' base : Reg} {imm z : ℤ}
    (hline : code[pc]? = some (.op (.stp t t' (.pre base imm)))) (h : Copying s₀ C s)
    (hpair : HoldsPair s₀ s.reg t t' k) (hbase : Points s.reg base (s₀.reg dstin) z)
    (hz : z + imm = k) (hk : k + 16 ≤ len s₀) (hfree : base ≠ .x 0 ∧ base ≠ .x 30)
    (next : ∀ s', Copying s₀ (C ∪ Set.Ico k (k + 16)) s' →
      Points s'.reg base (s₀.reg dstin) (z + imm) → Frame [base] s.reg s'.reg →
      Ends code (pc + 1) s' Q) :
    Ends code pc s Q := by
  have hcopy := h.store (hbase.value hz) hk fun _ hi => hpair.byteOf_append hi
  refine Ends.op hline (next _ (hcopy.setReg _ hfree) ?_ (frame_setReg _ base _))
  exact (State.reg_setReg_self ..).trans (hbase.add imm)

theorem load {t : Reg} {n : ℕ} {a : Address}
    (hclear : Clear s₀ C k n) (hline : code[pc]? = some (.op (.load n t a))) (h : Copying s₀ C s)
    (ha : a.value s = ptrAdd (s₀.reg src) k) (hk : k + n ≤ len s₀) (hn : n ≤ 8)
    (hfree : t ≠ .x 0 ∧ t ≠ .x 30) (hplain : ∀ s' v, a.writeBack v s' = s')
    (next : ∀ s', Copying s₀ C s' → Holds s₀ s'.reg t n k → Frame [t] s.reg s'.reg →
      Ends code (pc + 1) s' Q) :
    Ends code pc s Q := by
  refine Ends.op hline ?_
  rw [exec, hplain, ha]
  refine next _ ((h.record rfl hk).setReg _ hfree) (fun i hi => ?_) (frame_setReg _ t _)
  rw [State.reg_setReg, if_pos rfl, byteOf_setWidth _ (by omega), h.byteOf_load hclear hi]

theorem store {t : Reg} {n : ℕ} {a : Address}
    (hline : code[pc]? = some (.op (.store n t a))) (h : Copying s₀ C s)
    (hreg : Holds s₀ s.reg t n k) (ha : a.value s = ptrAdd (s₀.reg dstin) k)
    (hk : k + n ≤ len s₀) (hplain : ∀ s' v, a.writeBack v s' = s')
    (next : ∀ mem trace, Copying s₀ (C ∪ Set.Ico k (k + n)) { s with mem, trace } →
      Ends code (pc + 1) { s with mem, trace } Q) :
    Ends code pc s Q := by
  refine Ends.op hline ?_
  rw [exec, hplain]
  exact next _ _ (h.store ha hk hreg)

end Rules

/-! ## The blocks -/

/-- The state once the two end pointers are computed. -/
structure Entered (s₀ s : State) : Prop where
  copying : Copying s₀ ∅ s
  hsrc : Points s.reg src (s₀.reg src) 0
  hsrcend : Points s.reg srcend (s₀.reg src) (len s₀)
  hdstend : Points s.reg dstend (s₀.reg dstin) (len s₀)
  hcount : s.reg count = s₀.reg count

section Blocks

variable {s₀ s : State}

theorem Copying.hdstin {C : Set ℕ} (h : Copying s₀ C s) : Points s.reg dstin (s₀.reg dstin) 0 :=
  points_zero.mpr h.result

theorem getLsbD_count (h : s.reg count = s₀.reg count) (bit : ℕ) :
    (s.reg count).getLsbD bit = decide (len s₀ / 2 ^ bit % 2 = 1) := by
  rw [h, getLsbD_eq_decide, len]

/-- 16 to 32 bytes: the first and the last sixteen. -/
theorem ends_small (h : Entered s₀ s) (hlo : 16 ≤ len s₀) (hhi : len s₀ ≤ 32) :
    Ends code 9 s (Post s₀) := by
  refine ldp (k := 0) clear_empty rfl h.copying h.hsrc rfl hlo (by decide) fun s₁ c₁ hA f₁ => ?_
  refine ldp (k := len s₀ - 16) clear_empty rfl c₁ (h.hsrcend.frame f₁ (by decide)) (by omega)
    (by omega) (by decide) fun s₂ c₂ hD f₂ => ?_
  have hend : Points s₂.reg dstend (s₀.reg dstin) (len s₀) :=
    h.hdstend.frame (f₁.trans f₂) (by decide)
  refine stp rfl c₂ (hA.frame f₂ (by decide)) c₂.hdstin rfl hlo fun m₃ tr₃ c₃ => ?_
  refine stp rfl c₃ hD hend (by omega) (by omega) fun m₄ tr₄ c₄ => ?_
  refine c₄.ends rfl fun i (hi : i < len s₀) => ?_
  simp only [Set.mem_union, Set.mem_Ico, Set.mem_empty_iff_false, false_or]
  omega

/-- 8 to 15 bytes, 4 to 7 bytes: the first and the last `n`. -/
theorem ends_twoWords {pc n : ℕ} {t t' : Reg}
    (hlines : code[pc]? = some (.op (.load n t (.off src 0))) ∧
      code[pc + 1]? = some (.op (.load n t' (.off srcend (-n)))) ∧
      code[pc + 2]? = some (.op (.store n t (.off dstin 0))) ∧
      code[pc + 3]? = some (.op (.store n t' (.off dstend (-n)))) ∧ code[pc + 4]? = some .ret)
    (hfree : (t ≠ .x 0 ∧ t ≠ .x 30) ∧ (t' ≠ .x 0 ∧ t' ≠ .x 30) ∧ t ∉ [t'] ∧ srcend ∉ [t] ∧
      dstend ∉ [t, t'])
    (h : Entered s₀ s) (hn : n ≤ 8) (hlo : n ≤ len s₀) (hhi : len s₀ ≤ 2 * n) :
    Ends code pc s (Post s₀) := by
  obtain ⟨hl₀, hl₁, hl₂, hl₃, hl₄⟩ := hlines
  obtain ⟨ht, ht', hne, hsrcend, hdstend⟩ := hfree
  refine load (k := 0) clear_empty hl₀ h.copying (h.hsrc.value rfl) (by omega) hn ht
    (fun _ _ => rfl) fun s₁ c₁ hA f₁ => ?_
  refine load (k := len s₀ - n) clear_empty hl₁ c₁ ((h.hsrcend.frame f₁ hsrcend).value (by omega))
    (by omega) hn ht' (fun _ _ => rfl) fun s₂ c₂ hB f₂ => ?_
  have hend : Points s₂.reg dstend (s₀.reg dstin) (len s₀) :=
    h.hdstend.frame (f₁.trans f₂) hdstend
  refine store hl₂ c₂ (hA.frame f₂ hne) (c₂.hdstin.value rfl) (by omega)
    (fun _ _ => rfl) fun m₃ tr₃ c₃ => ?_
  refine store hl₃ c₃ hB (hend.value (by omega)) (by omega) (fun _ _ => rfl) fun m₄ tr₄ c₄ => ?_
  refine c₄.ends hl₄ fun i (hi : i < len s₀) => ?_
  simp only [Set.mem_union, Set.mem_Ico, Set.mem_empty_iff_false, false_or]
  omega

/-- `lsr tmp1, count, 1` leaves the offset of the middle byte. -/
theorem exec_lsr_count (h : s.reg count = s₀.reg count) :
    (exec (.lsr tmp1 count 1) s).reg tmp1 = BitVec.ofNat 64 (len s₀ / 2) := by
  rw [exec, State.reg_setReg, if_pos rfl, h, len]
  apply BitVec.eq_of_toNat_eq
  simp only [BitVec.toNat_ushiftRight, BitVec.toNat_ofNat, Nat.shiftRight_eq_div_pow]
  omega

/-- 0 to 3 bytes: the first, the middle and the last, which may coincide. -/
theorem ends_copy4 (h : Entered s₀ s) (hhi : len s₀ ≤ 3) :
    Ends code (target code .copy4) s (Post s₀) := by
  refine .label rfl (.cbz rfl (fun hzero => ?_) fun hpos => ?_)
  · refine .label rfl (h.copying.ends rfl fun i (hi : i < len s₀) => ?_)
    have hlen : len s₀ = 0 := by rw [len, ← h.hcount, hzero]; rfl
    omega
  have hlen : 0 < len s₀ := by
    rw [Nat.pos_iff_ne_zero, len, ← h.hcount]
    exact fun hz => hpos (BitVec.eq_of_toNat_eq hz)
  refine .op rfl ?_
  have hmiddle := exec_lsr_count h.hcount
  have f₁ : Frame [tmp1] s.reg (exec (.lsr tmp1 count 1) s).reg := frame_setReg _ tmp1 _
  have c₁ : Copying s₀ ∅ (exec (.lsr tmp1 count 1) s) :=
    h.copying.setReg _ (by decide)
  generalize exec (.lsr tmp1 count 1) s = s₁ at hmiddle f₁ c₁ ⊢
  refine load (k := 0) clear_empty rfl c₁ ((h.hsrc.frame f₁ (by decide)).value rfl) (by omega)
    (by omega) (by decide) (fun _ _ => rfl) fun s₂ c₂ hA f₂ => ?_
  refine load (k := len s₀ - 1) clear_empty rfl c₂
    ((h.hsrcend.frame (f₁.trans f₂) (by decide)).value (by omega)) (by omega) (by omega)
    (by decide) (fun _ _ => rfl) fun s₃ c₃ hC f₃ => ?_
  have hsrc₃ := points_zero.mp (h.hsrc.frame (f₁.trans (f₂.trans f₃)) (by decide))
  have hmiddle₃ := (f₂.trans f₃ tmp1 (by decide)).trans hmiddle
  refine load (k := len s₀ / 2) clear_empty rfl c₃ ?_ (by omega) (by omega) (by decide)
    (fun _ _ => rfl) fun s₄ c₄ hB f₄ => ?_
  · rw [Address.value, hsrc₃, hmiddle₃]
    rfl
  have hmiddle₄ := (f₄ tmp1 (by decide)).trans hmiddle₃
  have hend : Points s₄.reg dstend (s₀.reg dstin) (len s₀) :=
    h.hdstend.frame (f₁.trans (f₂.trans (f₃.trans f₄))) (by decide)
  refine store rfl c₄ (hA.frame (f₃.trans f₄) (by decide)) (c₄.hdstin.value rfl) (by omega)
    (fun _ _ => rfl) fun m₅ tr₅ c₅ => ?_
  refine store rfl c₅ hB ?_ (by omega) (fun _ _ => rfl) fun m₆ tr₆ c₆ => ?_
  · rw [Address.value, hmiddle₄, points_zero.mp c₅.hdstin]
    rfl
  refine store rfl c₆ (hC.frame f₄ (by decide)) (hend.value (by omega)) (by omega)
    (fun _ _ => rfl) fun m₇ tr₇ c₇ => ?_
  refine .label rfl (c₇.ends rfl fun i (hi : i < len s₀) => ?_)
  -- the first, the middle and the last cover up to three bytes
  simp only [Set.mem_union, Set.mem_Ico, Set.mem_empty_iff_false, false_or]
  omega

/-- Fewer than 16 bytes: the bits of the count choose the size class. -/
theorem ends_copy16 (h : Entered s₀ s) (hhi : len s₀ < 16) :
    Ends code (target code .copy16) s (Post s₀) := by
  refine .label rfl (.tbz rfl (fun hbit => ?_) fun hbit => ?_) <;>
    rw [getLsbD_count h.hcount] at hbit <;>
    simp only [decide_eq_true_eq, decide_eq_false_iff_not] at hbit
  · refine .label rfl (.tbz rfl (fun hbit' => ?_) fun hbit' => ?_) <;>
      rw [getLsbD_count h.hcount] at hbit' <;>
      simp only [decide_eq_true_eq, decide_eq_false_iff_not] at hbit'
    · exact ends_copy4 h (by omega)
    · exact ends_twoWords (n := 4) ⟨rfl, rfl, rfl, rfl, rfl⟩ (by decide) h (by omega)
        (by omega) (by omega)
  · exact ends_twoWords (n := 8) ⟨rfl, rfl, rfl, rfl, rfl⟩ (by decide) h (by omega)
      (by omega) (by omega)

/-- The registers loaded with the first and the last 32 bytes. -/
structure Medium (s₀ : State) (ρ : Reg → BitVec 64) : Prop where
  hA : HoldsPair s₀ ρ A_l A_h 0
  hB : HoldsPair s₀ ρ B_l B_h 16
  hC : HoldsPair s₀ ρ C_l C_h (len s₀ - 32)
  hD : HoldsPair s₀ ρ D_l D_h (len s₀ - 16)
  hdstend : Points ρ dstend (s₀.reg dstin) (len s₀)

theorem Medium.frame {rs : List Reg} {ρ ρ' : Reg → BitVec 64} (h : Medium s₀ ρ)
    (f : Frame rs ρ ρ') (hr : ∀ r ∈ [A_l, A_h, B_l, B_h, C_l, C_h, D_l, D_h, dstend], r ∉ rs) :
    Medium s₀ ρ' where
  hA := h.hA.frame f ⟨hr _ (by decide), hr _ (by decide)⟩
  hB := h.hB.frame f ⟨hr _ (by decide), hr _ (by decide)⟩
  hC := h.hC.frame f ⟨hr _ (by decide), hr _ (by decide)⟩
  hD := h.hD.frame f ⟨hr _ (by decide), hr _ (by decide)⟩
  hdstend := h.hdstend.frame f (hr _ (by decide))

/-- The six stores that end the copy of 65 to 128 bytes. -/
theorem ends_copy96 {C : Set ℕ} (h : Copying s₀ C s) (hm : Medium s₀ s.reg)
    (hE : HoldsPair s₀ s.reg E_l E_h 32) (hF : HoldsPair s₀ s.reg F_l F_h 48)
    (hlo : 64 < len s₀) (hC : ∀ i, 64 ≤ i → i < len s₀ - 32 → i ∈ C) :
    Ends code (target code .copy96) s (Post s₀) := by
  refine .label rfl ?_
  refine stp rfl h hm.hA h.hdstin rfl (by omega) fun m₁ tr₁ c₁ => ?_
  refine stp rfl c₁ hm.hB h.hdstin rfl (by omega) fun m₂ tr₂ c₂ => ?_
  refine stp rfl c₂ hE h.hdstin rfl (by omega) fun m₃ tr₃ c₃ => ?_
  refine stp rfl c₃ hF h.hdstin rfl (by omega) fun m₄ tr₄ c₄ => ?_
  refine stp rfl c₄ hm.hC hm.hdstend (by omega) (by omega) fun m₅ tr₅ c₅ => ?_
  refine stp rfl c₅ hm.hD hm.hdstend (by omega) (by omega) fun m₆ tr₆ c₆ => ?_
  refine c₆.ends rfl fun i (hi : i < len s₀) => ?_
  have hmiddle := hC i
  simp only [Set.mem_union, Set.mem_Ico]
  by_cases hin : 64 ≤ i ∧ i < len s₀ - 32
  · simp only [hmiddle hin.1 hin.2, true_or]
  · omega

/-- 65 to 128 bytes: 64 from the start and 32 or 64 from the end. -/
theorem ends_copy128 (h : Copying s₀ ∅ s) (hm : Medium s₀ s.reg)
    (hsrc : Points s.reg src (s₀.reg src) 0) (hsrcend : Points s.reg srcend (s₀.reg src) (len s₀))
    (hcount : s.reg count = s₀.reg count) (hlo : 64 < len s₀) (hhi : len s₀ ≤ 128) :
    Ends code (target code .copy128) s (Post s₀) := by
  refine .label rfl ?_
  refine ldp (k := 32) clear_empty rfl h hsrc rfl (by omega) (by decide) fun s₁ c₁ hE f₁ => ?_
  refine ldp (k := 48) clear_empty rfl c₁ (hsrc.frame f₁ (by decide)) rfl (by omega) (by decide)
    fun s₂ c₂ hF f₂ => ?_
  have f := f₁.trans f₂
  have hm₂ : Medium s₀ s₂.reg := hm.frame f (by decide)
  have hE₂ : HoldsPair s₀ s₂.reg E_l E_h 32 := hE.frame f₂ (by decide)
  have hlen₂ : (s₂.reg count).toNat = len s₀ := by rw [f _ (by decide), hcount, len]
  refine .op rfl (.bcond rfl (fun hls => ?_) fun hmore => ?_)
  · rw [ls_cmp (by norm_num), hlen₂, decide_eq_true_eq] at hls
    exact ends_copy96 (c₂.setFlags _) hm₂ hE₂ hF hlo fun i h1 h2 => by omega
  · rw [ls_cmp (by norm_num), hlen₂, decide_eq_false_iff_not] at hmore
    -- the registers of `count`, `dst`, `src` and `srcend` serve as two more data pairs
    have hsrcend₂ : Points s₂.reg srcend (s₀.reg src) (len s₀) := hsrcend.frame f (by decide)
    refine ldp (k := len s₀ - 64) clear_empty rfl (c₂.setFlags _) hsrcend₂ (by omega) (by omega)
      (by decide) fun s₃ c₃ hG f₃ => ?_
    refine ldp (k := len s₀ - 48) clear_empty rfl c₃ (hsrcend₂.frame f₃ (by decide)) (by omega)
      (by omega) (by decide) fun s₄ c₄ hH f₄ => ?_
    have hm₄ : Medium s₀ s₄.reg := hm₂.frame (f₃.trans f₄) (by decide)
    refine stp rfl c₄ (hG.frame f₄ (by decide)) hm₄.hdstend (by omega) (by omega)
      fun m₅ tr₅ c₅ => ?_
    refine stp rfl c₅ hH hm₄.hdstend (by omega) (by omega) fun m₆ tr₆ c₆ => ?_
    refine ends_copy96 c₆ hm₄ (hE₂.frame (f₃.trans f₄) (by decide))
      (hF.frame (f₃.trans f₄) (by decide)) hlo fun i h1 h2 => ?_
    simp only [Set.mem_union, Set.mem_Ico, Set.mem_empty_iff_false, false_or]
    omega

/-- 33 to 128 bytes. -/
theorem ends_copy32_128 (h : Entered s₀ s) (hlo : 32 < len s₀) (hhi : len s₀ ≤ 128) :
    Ends code (target code .copy32_128) s (Post s₀) := by
  refine .label rfl ?_
  refine ldp (k := 0) clear_empty rfl h.copying h.hsrc rfl (by omega) (by decide) fun s₁ c₁ hA f₁ => ?_
  refine ldp (k := 16) clear_empty rfl c₁ (h.hsrc.frame f₁ (by decide)) rfl (by omega) (by decide)
    fun s₂ c₂ hB f₂ => ?_
  refine ldp (k := len s₀ - 32) clear_empty rfl c₂ (h.hsrcend.frame (f₁.trans f₂) (by decide))
    (by omega) (by omega) (by decide) fun s₃ c₃ hC f₃ => ?_
  refine ldp (k := len s₀ - 16) clear_empty rfl c₃
    (h.hsrcend.frame (f₁.trans (f₂.trans f₃)) (by decide)) (by omega) (by omega) (by decide)
    fun s₄ c₄ hD f₄ => ?_
  have f := f₁.trans (f₂.trans (f₃.trans f₄))
  have hm : Medium s₀ s₄.reg :=
    { hA := hA.frame (f₂.trans (f₃.trans f₄)) (by decide)
      hB := hB.frame (f₃.trans f₄) (by decide)
      hC := hC.frame f₄ (by decide)
      hD := hD
      hdstend := h.hdstend.frame f (by decide) }
  have hcount : s₄.reg count = s₀.reg count := (f _ (by decide)).trans h.hcount
  have hlen : (s₄.reg count).toNat = len s₀ := by rw [hcount, len]
  refine .op rfl (.bcond rfl (fun hmore => ?_) fun hless => ?_)
  · rw [hi_cmp (by norm_num), hlen, decide_eq_true_eq] at hmore
    exact ends_copy128 (c₄.setFlags _) hm (h.hsrc.frame f (by decide))
      (h.hsrcend.frame f (by decide)) hcount hmore hhi
  · rw [hi_cmp (by norm_num), hlen, decide_eq_false_iff_not] at hless
    have c₅ : Copying s₀ ∅ (exec (.cmp .x count (.imm 64)) s₄) := c₄.setFlags _
    refine stp rfl c₅ hm.hA c₅.hdstin rfl (by omega) fun m₆ tr₆ c₆ => ?_
    refine stp rfl c₆ hm.hB c₆.hdstin rfl (by omega) fun m₇ tr₇ c₇ => ?_
    refine stp rfl c₇ hm.hC hm.hdstend (by omega) (by omega) fun m₈ tr₈ c₈ => ?_
    refine stp rfl c₈ hm.hD hm.hdstend (by omega) (by omega) fun m₉ tr₉ c₉ => ?_
    refine c₉.ends rfl fun i (hi : i < len s₀) => ?_
    simp only [Set.mem_union, Set.mem_Ico, Set.mem_empty_iff_false, false_or]
    omega

end Blocks

end Mytilus.Str.MemcpyAsm
