import Mytilus.Str.Memcpy
import Mytilus.Str.MemcpyOverlap
import Mytilus.Str.Memset

/-!
# Programs that copy and fill

A program works on the bytes of one region with `memcpy`, `memmove` and `memset`.
What it makes of them is told by the bytes as a list: every call replaces a part
of it (`splice`).  On the target, `memcpy` and `memset` are the assembly, and
elsewhere the byte loops; `programs_refine` says that either way the region holds
the list, and the calls return the same pointers.
-/

namespace Mytilus.Str.Regions

open Memory AArch64

/-! ## Parts of a list -/

section Splice

variable {α : Type*}

/-- The list `xs` with `ys` in it from the place `d` on. -/
def splice (d : ℕ) (ys xs : List α) : List α := xs.take d ++ ys ++ xs.drop (d + ys.length)

theorem length_splice {d : ℕ} {ys xs : List α} (h : d + ys.length ≤ xs.length) :
    (splice d ys xs).length = xs.length := by
  simp only [splice, List.length_append, List.length_take, List.length_drop]
  omega

theorem getElem?_splice_inside {d i : ℕ} {ys xs : List α} (hd : d ≤ xs.length)
    (hi : i < ys.length) : (splice d ys xs)[d + i]? = ys[i]? := by
  have htake := List.length_take_of_le hd
  rw [splice, List.getElem?_append_left (by rw [List.length_append]; omega),
    List.getElem?_append_right (by omega), htake, Nat.add_sub_cancel_left]

theorem getElem?_splice_outside {d i : ℕ} {ys xs : List α} (hd : d ≤ xs.length)
    (hi : i < d ∨ d + ys.length ≤ i) : (splice d ys xs)[i]? = xs[i]? := by
  have htake := List.length_take_of_le hd
  rcases hi with hlt | hge
  · rw [splice, List.append_assoc, List.getElem?_append_left (by omega),
      List.getElem?_take_of_lt hlt]
  · have hfront : (xs.take d ++ ys).length = d + ys.length := by rw [List.length_append, htake]
    rw [splice, List.getElem?_append_right (by omega), hfront, List.getElem?_drop,
      Nat.add_sub_cancel' hge]

theorem length_take_drop {s n : ℕ} {xs : List α} (h : s + n ≤ xs.length) :
    ((xs.drop s).take n).length = n := by
  rw [List.length_take, List.length_drop]
  omega

end Splice

/-! ## Programs -/

/-- A call with places in the region as its arguments. -/
inductive Op
  | memcpy (d s n : ℕ)
  | memmove (d s n : ℕ)
  | memset (d : ℕ) (c : BitVec 32) (n : ℕ)

namespace Op

/-- Within a region of `len` bytes; what `memcpy` reads and writes does not overlap. -/
def Allowed (len : ℕ) : Op → Prop
  | .memcpy d s n => d + n ≤ len ∧ s + n ≤ len ∧ (d + n ≤ s ∨ s + n ≤ d)
  | .memmove d s n => d + n ≤ len ∧ s + n ≤ len
  | .memset d _ n => d + n ≤ len

/-- The place from which a call writes. -/
def place : Op → ℕ
  | .memcpy d _ _ => d
  | .memmove d _ _ => d
  | .memset d _ _ => d

/-- How many bytes it writes. -/
def count : Op → ℕ
  | .memcpy _ _ n => n
  | .memmove _ _ n => n
  | .memset _ _ n => n

/-- The bytes a call writes, in a region that holds `xs`. -/
def bytes (xs : List Byte) : Op → List Byte
  | .memcpy _ s n => (xs.drop s).take n
  | .memmove _ s n => (xs.drop s).take n
  | .memset _ c n => List.replicate n (c.setWidth 8)

/-- What a call makes of the bytes of the region. -/
def act (xs : List Byte) (op : Op) : List Byte := splice op.place (op.bytes xs) xs

/-- The byte loops. -/
def exec (base : Addr) (m : Memory) : Op → Addr × Memory
  | .memcpy d s n => Str.memcpy (ptrAdd base d) (ptrAdd base s) (BitVec.ofNat 64 n) m
  | .memmove d s n => Str.memmove (ptrAdd base d) (ptrAdd base s) (BitVec.ofNat 64 n) m
  | .memset d c n => Str.memset (ptrAdd base d) c (BitVec.ofNat 64 n) m

/-- The target's call, whatever else the registers hold, returns to its caller, and `Q`
holds of the pointer and the memory. -/
def OnTarget (base : Addr) (m : Memory) (Q : Addr × Memory → Prop) : Op → Prop
  | .memcpy d s n => ∀ st : State, st.mem = m → st.reg MemcpyAsm.dstin = ptrAdd base d →
      st.reg MemcpyAsm.src = ptrAdd base s → st.reg MemcpyAsm.count = BitVec.ofNat 64 n →
        Ends MemcpyAsm.code (target MemcpyAsm.code .memcpy) st fun a t =>
          a = st.reg (.x 30) ∧ Q (t.reg (.x 0), t.mem)
  | .memmove d s n => Q (Str.memmove (ptrAdd base d) (ptrAdd base s) (BitVec.ofNat 64 n) m)
  | .memset d c n => ∀ st : State, st.mem = m → st.reg MemsetAsm.dstin = ptrAdd base d →
      (st.reg MemsetAsm.valw).setWidth 32 = c → st.reg MemsetAsm.count = BitVec.ofNat 64 n →
        Ends MemsetAsm.code (target MemsetAsm.code .memset) st fun a t =>
          a = st.reg (.x 30) ∧ Q (t.reg (.x 0), t.mem)

end Op

/-- The pointers the calls return, and the memory they leave. -/
def runOps (base : Addr) : List Op → Memory → List Addr × Memory
  | [], m => ([], m)
  | op :: ops, m =>
      let out := op.exec base m
      let rest := runOps base ops out.2
      (out.1 :: rest.1, rest.2)

/-- The same on the target: `Q` holds of what the calls return and leave there. -/
def RunOnTarget (base : Addr) : List Op → Memory → (List Addr × Memory → Prop) → Prop
  | [], m, Q => Q ([], m)
  | op :: ops, m, Q =>
      op.OnTarget base m fun out =>
        RunOnTarget base ops out.2 fun rest => Q (out.1 :: rest.1, rest.2)

/-! ## One call -/

/-- The bytes `xs` are at `base`. -/
def Contents (m : Memory) (base : Addr) (xs : List Byte) : Prop :=
  ∀ i b, xs[i]? = some b → m (ptrAdd base i) = b

section Calls

variable {m m' : Memory} {base : Addr} {xs ys : List Byte} {d s n : ℕ} {f : ℕ → Byte}

/-- A part of the region that is overwritten. -/
theorem Contents.splice (h : Contents m base xs) (hlen : xs.length ≤ 2 ^ 64)
    (hp : Patched (ptrAdd base d) f (Set.Iio ys.length) m m') (hd : d + ys.length ≤ xs.length)
    (hf : ∀ i b, ys[i]? = some b → f i = b) : Contents m' base (splice d ys xs) := by
  intro i b hb
  obtain ⟨hi, -⟩ := List.getElem?_eq_some_iff.mp hb
  rw [length_splice hd] at hi
  have hmem : offset (ptrAdd base d) (ptrAdd base i) ∈ Set.Iio ys.length ↔
      d ≤ i ∧ i < d + ys.length := by
    have hwithin : Within (ptrAdd base d) ys.length (ptrAdd base i) ↔
        d ≤ offset base (ptrAdd base i) ∧ offset base (ptrAdd base i) < d + ys.length :=
      within_ptrAdd_iff (hd.trans hlen)
    rwa [offset_ptrAdd (by omega)] at hwithin
  by_cases hin : d ≤ i ∧ i < d + ys.length
  · obtain ⟨k, rfl⟩ := Nat.exists_eq_add_of_le hin.1
    rw [getElem?_splice_inside (by omega) (by omega)] at hb
    have hbyte := (hp (ptrAdd base (d + k))).1 (hmem.mpr hin)
    rw [← ptrAdd_ptrAdd, offset_ptrAdd (by omega), hf k b hb] at hbyte
    rwa [← ptrAdd_ptrAdd]
  · rw [getElem?_splice_outside (by omega) (by omega)] at hb
    rw [(hp (ptrAdd base i)).2 (mt hmem.mp hin), h i b hb]

/-- What is read of the region when a part of it is copied. -/
theorem Contents.sourceByte (h : Contents m base xs) (i : ℕ) (b : Byte)
    (hb : ((xs.drop s).take n)[i]? = some b) : sourceByte m (ptrAdd base s) i = b := by
  have hi : i < n := by
    obtain ⟨hi, -⟩ := List.getElem?_eq_some_iff.mp hb
    rw [List.length_take] at hi
    omega
  rw [List.getElem?_take_of_lt hi, List.getElem?_drop] at hb
  rw [Str.sourceByte, ptrAdd_ptrAdd]
  exact h (s + i) b hb

/-- A part of the region lies below the end of the address space, as the region does. -/
theorem toNat_ptrAdd_add_le (hfit : base.toNat + xs.length < 2 ^ 64) (hd : d + n ≤ xs.length) :
    (ptrAdd base d).toNat + (BitVec.ofNat 64 n).toNat ≤ 2 ^ 64 := by
  unfold ptrAdd
  bv_omega

theorem separate_of_apart (hfit : base.toNat + xs.length < 2 ^ 64) (hd : d + n ≤ xs.length)
    (hs : s + n ≤ xs.length) (hapart : d + n ≤ s ∨ s + n ≤ d) :
    Separate (ptrAdd base d) (BitVec.ofNat 64 n).toNat (ptrAdd base s)
      (BitVec.ofNat 64 n).toNat := by
  rw [BitVec.toNat_ofNat, Nat.mod_eq_of_lt (by omega)]
  rcases hapart with hbelow | habove
  · exact separate_of_le hbelow (by omega)
  · exact (separate_of_le habove (by omega)).symm

end Calls

section Programs

variable {m : Memory} {base : Addr} {xs : List Byte} {op : Op} {ops : List Op}

theorem Op.Allowed.place_add_le (hop : op.Allowed xs.length) : op.place + op.count ≤ xs.length := by
  cases op with
  | memcpy d s n => exact hop.1
  | memmove d s n => exact hop.1
  | memset d c n => exact hop

theorem Op.Allowed.length_bytes (hop : op.Allowed xs.length) :
    (op.bytes xs).length = op.count := by
  cases op with
  | memcpy d s n => exact length_take_drop hop.2.1
  | memmove d s n => exact length_take_drop hop.2
  | memset d c n => exact List.length_replicate

theorem Op.Allowed.length_act (hop : op.Allowed xs.length) : (op.act xs).length = xs.length :=
  length_splice (by rw [hop.length_bytes]; exact hop.place_add_le)

theorem Op.Allowed.toNat_count (hop : op.Allowed xs.length)
    (hfit : base.toNat + xs.length < 2 ^ 64) : (BitVec.ofNat 64 op.count).toNat = op.count := by
  have hle := hop.place_add_le
  rw [BitVec.toNat_ofNat, Nat.mod_eq_of_lt (by omega)]

theorem Op.exec_fst (base : Addr) (m : Memory) (op : Op) :
    (op.exec base m).1 = ptrAdd base op.place := by
  cases op with
  | memcpy d s n => rfl
  | memmove d s n => exact memmove_fst ..
  | memset d c n => rfl

/-- A call writes its bytes from its place on, and no others. -/
theorem Op.Allowed.patched (hop : op.Allowed xs.length) (hfit : base.toNat + xs.length < 2 ^ 64)
    (h : Contents m base xs) :
    ∃ f, Patched (ptrAdd base op.place) f (Set.Iio op.count) m (op.exec base m).2 ∧
      ∀ i b, (op.bytes xs)[i]? = some b → f i = b := by
  cases op with
  | memcpy d s n =>
      have hcount : (BitVec.ofNat 64 n).toNat = n := hop.toNat_count hfit
      obtain ⟨hd, hs, hapart⟩ := hop
      have hcopied := memcpy_patched m (separate_of_apart hfit hd hs hapart)
      rw [hcount] at hcopied
      exact ⟨sourceByte m (ptrAdd base s), hcopied, h.sourceByte⟩
  | memmove d s n =>
      have hcount : (BitVec.ofNat 64 n).toNat = n := hop.toNat_count hfit
      obtain ⟨hd, hs⟩ := hop
      have hmoved := memmove_patched m (toNat_ptrAdd_add_le hfit hd)
        (toNat_ptrAdd_add_le hfit hs)
      rw [hcount] at hmoved
      exact ⟨sourceByte m (ptrAdd base s), hmoved, h.sourceByte⟩
  | memset d c n =>
      have hcount : (BitVec.ofNat 64 n).toNat = n := hop.toNat_count hfit
      have hset := memset_patched (ptrAdd base d) c (BitVec.ofNat 64 n) m
      rw [hcount] at hset
      refine ⟨fun _ => c.setWidth 8, hset, fun i b hb => ?_⟩
      exact (List.eq_of_mem_replicate (List.mem_of_getElem? hb)).symm

/-- **One call** leaves the list with its bytes written, and every byte outside the
region. -/
theorem Op.Allowed.exec (hop : op.Allowed xs.length) (hfit : base.toNat + xs.length < 2 ^ 64)
    (h : Contents m base xs) :
    Contents (op.exec base m).2 base (op.act xs) ∧
      SameOutside base xs.length m (op.exec base m).2 := by
  obtain ⟨f, hpatched, hf⟩ := hop.patched hfit h
  have hle := hop.place_add_le
  refine ⟨h.splice (by omega) ?_ ?_ hf, fun a ha => ?_⟩
  · rwa [hop.length_bytes]
  · rwa [hop.length_bytes]
  · exact (hpatched a).2 fun hin => ha (Within.of_part hin hle (by omega))

/-! ## The target -/

/-- On the target a call does what the byte loop does. -/
theorem Op.Allowed.onTarget (hop : op.Allowed xs.length) (hfit : base.toNat + xs.length < 2 ^ 64)
    {Q : Addr × Memory → Prop} (hQ : Q (op.exec base m)) : op.OnTarget base m Q := by
  cases op with
  | memcpy d s n =>
      rintro st rfl hdest hsrc hn
      obtain ⟨hd, hs, hapart⟩ := hop
      have hsep := separate_of_apart hfit hd hs hapart
      rw [← hdest, ← hsrc, ← hn] at hsep
      refine (MemcpyAsm.ends_memcpy st hsep).mono fun a t hpost => ?_
      -- the listing and the loop leave the same bytes, so the same memory
      obtain ⟨hret, hcopy⟩ := hpost
      have hout : (t.reg (.x 0), t.mem) = Op.exec base st.mem (.memcpy d s n) := by
        rw [Op.exec, ← hdest, ← hsrc, ← hn]
        exact Prod.ext hcopy.result (hcopy.mem.unique (memcpy_patched st.mem hsep))
      exact ⟨hret, hout ▸ hQ⟩
  | memmove d s n => exact hQ
  | memset d c n =>
      rintro st rfl hdest hc hn
      refine (MemsetAsm.ends_memset st).mono fun a t hpost => ?_
      obtain ⟨hret, hfill⟩ := hpost
      have hout : (t.reg (.x 0), t.mem) = Op.exec base st.mem (.memset d c n) := by
        rw [Op.exec, ← hdest, ← hc, ← hn]
        have hloop := memset_patched (st.reg MemsetAsm.dstin)
          ((st.reg MemsetAsm.valw).setWidth 32) (st.reg MemsetAsm.count) st.mem
        rw [BitVec.setWidth_setWidth_of_le _ (by norm_num)] at hloop
        exact Prod.ext hfill.result (hfill.mem.unique hloop)
      exact ⟨hret, hout ▸ hQ⟩

theorem runOnTarget (hops : ∀ op ∈ ops, op.Allowed xs.length)
    (hfit : base.toNat + xs.length < 2 ^ 64) {Q : List Addr × Memory → Prop}
    (hQ : Q (runOps base ops m)) : RunOnTarget base ops m Q := by
  induction ops generalizing m Q with
  | nil => exact hQ
  | cons op ops ih =>
      obtain ⟨hop, hrest⟩ := List.forall_mem_cons.mp hops
      exact hop.onTarget hfit (ih hrest hQ)

/-- The calls before leave every later one allowed. -/
theorem runOps_contents (hops : ∀ op ∈ ops, op.Allowed xs.length)
    (hfit : base.toNat + xs.length < 2 ^ 64) (h : Contents m base xs) :
    Contents (runOps base ops m).2 base (ops.foldl Op.act xs) ∧
      SameOutside base xs.length m (runOps base ops m).2 := by
  induction ops generalizing m xs with
  | nil => exact ⟨h, .refl base xs.length m⟩
  | cons op ops ih =>
      obtain ⟨hop, hrest⟩ := List.forall_mem_cons.mp hops
      obtain ⟨hcontents, houtside⟩ := hop.exec hfit h
      have hlen := hop.length_act
      have hrest' : ∀ op' ∈ ops, op'.Allowed (op.act xs).length := by rwa [hlen]
      obtain ⟨hcontents', houtside'⟩ := ih hrest' (by rwa [hlen]) hcontents
      rw [hlen] at houtside'
      exact ⟨hcontents', houtside.trans houtside'⟩

theorem runOps_fst (base : Addr) (ops : List Op) (m : Memory) :
    (runOps base ops m).1 = ops.map fun op => ptrAdd base op.place := by
  induction ops generalizing m with
  | nil => rfl
  | cons op ops ih => rw [runOps, ih, Op.exec_fst, List.map_cons]

/-- **Programs that copy and fill.**  A program whose calls stay within a region that
does not wrap, and whose calls of `memcpy` do not overlap, leaves there the list with
each call's bytes written in turn and nothing else changed; every call returns its
destination.  On the target, where `memcpy` and `memset` are the assembly, the
program returns the same pointers and leaves the same memory. -/
theorem programs_refine (hfit : base.toNat + xs.length < 2 ^ 64) (h : Contents m base xs)
    (hops : ∀ op ∈ ops, op.Allowed xs.length) :
    (runOps base ops m).1 = ops.map (fun op => ptrAdd base op.place) ∧
    Contents (runOps base ops m).2 base (ops.foldl Op.act xs) ∧
    SameOutside base xs.length m (runOps base ops m).2 ∧
    RunOnTarget base ops m fun out => out = runOps base ops m := by
  obtain ⟨hcontents, houtside⟩ := runOps_contents hops hfit h
  exact ⟨runOps_fst base ops m, hcontents, houtside, runOnTarget hops hfit rfl⟩

/-- Eight bytes: three of them moved up by one over themselves, then copied to the
end, and the first one filled with the low byte of `0x1ff`. -/
theorem programs_refine_eight :
    Contents (runOps 0x1000 [.memmove 1 0 3, .memcpy 5 1 3, .memset 0 0x1ff 1]
        fun a => a.setWidth 8).2 0x1000 [0xff, 0, 1, 2, 4, 0, 1, 2] := by
  have hbytes : Contents (fun a => a.setWidth 8) 0x1000 [0, 1, 2, 3, 4, 5, 6, 7] := by
    intro i b hb
    obtain ⟨hi, rfl⟩ := List.getElem?_eq_some_iff.mp hb
    have hi' : i < 8 := hi
    interval_cases i <;> rfl
  have hops : ∀ op ∈ [Op.memmove 1 0 3, .memcpy 5 1 3, .memset 0 0x1ff 1], op.Allowed 8 := by
    simp [Op.Allowed]
  exact (programs_refine (by decide) hbytes hops).2.1

end Programs

end Mytilus.Str.Regions
