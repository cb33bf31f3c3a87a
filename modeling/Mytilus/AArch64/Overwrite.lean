import Mytilus.AArch64.Run

/-!
# Routines that overwrite one region

A block copy or a block fill stores to one region, and what it stores at an
offset is fixed in advance; only the order and the overlap of the stores vary.
`Overwrites job C s₀ s` says that between `s₀` and `s` the offsets in `C` of the
region have received their bytes, nothing else has changed in memory, every
store was inside the region and every load inside the region it may read, and
the first argument and the return address are where they were.

A store of the right bytes enlarges `C` (`Overwrites.store`), a load inside the
source leaves it (`Overwrites.record`), and nothing else changes it.  A routine that
comes to its `ret` with `C` the whole region has done its job
(`Overwrites.ends`, `Overwritten.memory`): what is left for a listing is to check
that the intervals of its stores cover the region.

The registers enter through two kinds of facts about the register file:
`Points ρ r base z`, that `r` holds the address `z` bytes past `base`, and
`Frame rs ρ ρ'`, that only the registers in `rs` have changed.
-/

namespace AArch64

open Memory

/-! ## Pointers in registers -/

/-- The register `r` points `z` bytes past `base`. -/
def Points (ρ : Reg → BitVec 64) (r : Reg) (base : Addr) (z : ℤ) : Prop :=
  ρ r = base + BitVec.ofInt 64 z

/-- Only the registers in `rs` have changed. -/
def Frame (rs : List Reg) (ρ ρ' : Reg → BitVec 64) : Prop := ∀ r ∉ rs, ρ' r = ρ r

section Registers

variable {rs : List Reg} {ρ ρ' : Reg → BitVec 64} {r : Reg} {base : Addr} {z : ℤ}

theorem points_zero : Points ρ r base 0 ↔ ρ r = base := by
  unfold Points
  rw [show BitVec.ofInt 64 0 = 0#64 from rfl, BitVec.add_zero]

theorem points_natCast {k : ℕ} : Points ρ r base k ↔ ρ r = ptrAdd base k := by
  unfold Points ptrAdd
  rw [BitVec.ofInt_natCast]

theorem sub_ofNat (a : Addr) (t : ℕ) : a - BitVec.ofNat 64 t = a + BitVec.ofInt 64 (-t) := by
  rw [BitVec.ofInt_neg, BitVec.sub_eq_add_neg]
  rfl

/-- Moving a pointer. -/
theorem Points.add (h : Points ρ r base z) (i : ℤ) :
    ρ r + BitVec.ofInt 64 i = base + BitVec.ofInt 64 (z + i) := by
  rw [h, BitVec.add_assoc, ← BitVec.ofInt_add]

theorem Points.value (h : Points ρ r base z) {i : ℤ} {k : ℕ} (hk : z + i = k) :
    ρ r + BitVec.ofInt 64 i = ptrAdd base k := by
  rw [h.add, hk]
  rfl

/-- The distance between two pointers. -/
theorem Points.sub {r' : Reg} {z' : ℤ} (h : Points ρ r base z) (h' : Points ρ r' base z') :
    ρ r - ρ r' = BitVec.ofInt 64 (z - z') := by
  rw [h, h', sub_eq_add_neg z, BitVec.ofInt_add, BitVec.ofInt_neg]
  generalize BitVec.ofInt 64 z = a
  generalize BitVec.ofInt 64 z' = b
  bv_omega

theorem Frame.trans {rs' : List Reg} {ρ'' : Reg → BitVec 64} (h : Frame rs ρ ρ')
    (h' : Frame rs' ρ' ρ'') : Frame (rs ++ rs') ρ ρ'' := fun r hr =>
  (h' r fun hmem => hr (List.mem_append_right rs hmem)).trans
    (h r fun hmem => hr (List.mem_append_left rs' hmem))

theorem Points.frame (h : Points ρ r base z) (f : Frame rs ρ ρ') (hr : r ∉ rs) :
    Points ρ' r base z :=
  (f r hr).trans h

theorem frame_setReg (s : State) (r : Reg) (v : BitVec 64) :
    Frame [r] s.reg (s.setReg r v).reg := fun r' hr =>
  Function.update_of_ne (by simpa using hr) ..

end Registers

/-! ## The region and what has been written of it -/

/-- A region to overwrite, the byte due at each offset, and a region to read. -/
structure Job where
  dest : Addr
  len : ℕ
  byte : ℕ → Byte
  src : Addr
  srcLen : ℕ
  len_le : len ≤ 2 ^ 64
  srcLen_le : srcLen ≤ 2 ^ 64

/-- An access is allowed if all its bytes are in the region for its kind. -/
def Job.Allows (job : Job) : Access → Prop
  | .load a n => ∀ x, Within a n x → Within job.src job.srcLen x
  | .store a n => ∀ x, Within a n x → Within job.dest job.len x

/-- The accesses made after `s₀` satisfy `P`. -/
def TraceSince (s₀ s : State) (P : Access → Prop) : Prop :=
  ∃ log, s.trace = log ++ s₀.trace ∧ ∀ access ∈ log, P access

theorem TraceSince.refl (s : State) (P : Access → Prop) : TraceSince s s P :=
  ⟨[], rfl, by simp⟩

theorem TraceSince.cons {s₀ s s' : State} {P : Access → Prop} {access : Access}
    (h : TraceSince s₀ s P) (htrace : s'.trace = access :: s.trace) (hP : P access) :
    TraceSince s₀ s' P := by
  obtain ⟨log, hlog, hall⟩ := h
  exact ⟨access :: log, by rw [htrace, hlog, List.cons_append],
    List.forall_mem_cons.mpr ⟨hP, hall⟩⟩

theorem TraceSince.mono {s₀ s : State} {P P' : Access → Prop} (h : TraceSince s₀ s P)
    (hP : ∀ access, P access → P' access) : TraceSince s₀ s P' := by
  obtain ⟨log, hlog, hall⟩ := h
  exact ⟨log, hlog, fun access hmem => hP access (hall access hmem)⟩

structure Overwrites (job : Job) (C : Set ℕ) (s₀ s : State) : Prop where
  result : s.reg (.x 0) = s₀.reg (.x 0)
  link : s.reg (.x 30) = s₀.reg (.x 30)
  inside : ∀ i ∈ C, i < job.len
  mem : Patched job.dest job.byte C s₀.mem s.mem
  trace : TraceSince s₀ s job.Allows

/-- What a finished routine leaves behind: control is back at the caller and the
whole region is overwritten. -/
def Overwritten (job : Job) (s₀ : State) (a : Addr) (t : State) : Prop :=
  a = s₀.reg (.x 30) ∧ Overwrites job (Set.Iio job.len) s₀ t

namespace Overwrites

variable {job : Job} {C : Set ℕ} {s₀ s : State}

theorem refl (job : Job) (s : State) : Overwrites job ∅ s s :=
  ⟨rfl, rfl, fun _ hi => hi.elim, Patched.refl _ _ _, TraceSince.refl _ _⟩

theorem congr_set {C' : Set ℕ} (h : Overwrites job C s₀ s) (heq : ∀ i, i ∈ C ↔ i ∈ C') :
    Overwrites job C' s₀ s :=
  { h with
    inside := fun i hi => h.inside i ((heq i).mpr hi)
    mem := h.mem.congr_set fun i _ => heq i }

theorem setReg (h : Overwrites job C s₀ s) {r : Reg} (v : BitVec 64)
    (hr : r ≠ .x 0 ∧ r ≠ .x 30) : Overwrites job C s₀ (s.setReg r v) :=
  { h with
    result := by rw [State.reg_setReg, if_neg hr.1.symm, h.result]
    link := by rw [State.reg_setReg, if_neg hr.2.symm, h.link] }

theorem setVec (h : Overwrites job C s₀ s) (r : VReg) (v : BitVec 128) :
    Overwrites job C s₀ (s.setVec r v) := { h with }

theorem setFlags (h : Overwrites job C s₀ s) (flags : Flags) :
    Overwrites job C s₀ (s.setFlags flags) := { h with }

theorem record (h : Overwrites job C s₀ s) {a : Addr} {k n : ℕ} (ha : a = ptrAdd job.src k)
    (hk : k + n ≤ job.srcLen) : Overwrites job C s₀ (s.record (.load a n)) :=
  { h with
    trace := h.trace.cons rfl fun _ hx => by
      subst ha
      exact hx.of_part hk job.srcLen_le }

theorem store (h : Overwrites job C s₀ s) {a : Addr} {k n w : ℕ} {v : BitVec w}
    (ha : a = ptrAdd job.dest k) (hk : k + n ≤ job.len)
    (hv : ∀ i < n, byteOf v i = job.byte (k + i)) :
    Overwrites job (C ∪ Set.Ico k (k + n)) s₀ (s.store a n v) where
  result := h.result
  link := h.link
  inside := by
    -- an offset stored to before, or one of the `n` of this store
    rintro i (hi | ⟨-, hi⟩)
    · exact h.inside i hi
    · omega
  mem := by
    subst ha
    exact h.mem.store (hk.trans job.len_le) hv
  trace := h.trace.cons rfl fun _ hx => by
    subst ha
    exact hx.of_part hk job.len_le

/-- Returning with the whole region overwritten. -/
theorem ends {L : Type} [DecidableEq L] {code : List (Line L)} {pc : ℕ}
    (h : Overwrites job C s₀ s) (hline : code[pc]? = some .ret) (hall : ∀ i < job.len, i ∈ C) :
    Ends code pc s (Overwritten job s₀) :=
  Ends.br hline ⟨h.link, h.congr_set fun i => ⟨h.inside i, hall i⟩⟩

end Overwrites

/-- Every byte of the region afterwards, and every byte outside it. -/
theorem Overwritten.memory {job : Job} {s₀ t : State} {a : Addr} (h : Overwritten job s₀ a t) :
    (∀ k < job.len, t.mem (ptrAdd job.dest k) = job.byte k) ∧
      ∀ x, ¬ Within job.dest job.len x → t.mem x = s₀.mem x := by
  refine ⟨fun k hk => ?_, fun x hx => (h.2.mem x).2 hx⟩
  have hoff : offset job.dest (ptrAdd job.dest k) = k := offset_ptrAdd (hk.trans_le job.len_le)
  have hbyte := (h.2.mem (ptrAdd job.dest k)).1
  rw [hoff] at hbyte
  exact hbyte hk

end AArch64
