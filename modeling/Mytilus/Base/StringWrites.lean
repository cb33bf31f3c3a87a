import Mytilus.Base.Mapped

/-!
# Writing into strings

`Known m p t n` says what is known of the string at the start of a buffer of `n`
bytes: it is the one in `t`, if there is one in `t`.  A write into the buffer,
with a terminator (`overwrite`) or without one (`overwriteCut`), may put a new end
on the string, leave it alone because it ended before, or lose the terminator.
-/

namespace Mapped

open Memory

section Parts

variable {m : Mapped} {p : Addr} {k : ℕ} {xs ys : List Byte}

theorem BytesAt.take (h : BytesAt m p xs) (k : ℕ) : BytesAt m p (xs.take k) := by
  rw [← List.take_append_drop k xs] at h
  exact (bytesAt_append.mp h).1

/-- A pointer into a string is to its rest. -/
theorem StringAt.drop (h : StringAt m p xs) (hk : k ≤ xs.length) :
    StringAt m (ptrAdd p k) (xs.drop k) := by
  have hbytes := h.bytes
  rw [← List.take_append_drop k xs, List.append_assoc, bytesAt_append,
    List.length_take_of_le hk] at hbytes
  exact stringAt_iff.mpr ⟨hbytes.2, fun x hx => h.ne_zero x (List.mem_of_mem_drop hx)⟩

/-- Nonzero bytes before a string. -/
theorem StringAt.append (h : StringAt m (ptrAdd p ys.length) xs) (hys : BytesAt m p ys)
    (hne : ∀ y ∈ ys, y ≠ 0) : StringAt m p (ys ++ xs) := by
  rw [stringAt_iff, List.append_assoc, bytesAt_append]
  exact ⟨⟨hys, h.bytes⟩, List.forall_mem_append.mpr ⟨hne, h.ne_zero⟩⟩

end Parts

/-- What becomes of a string where `xs` and a terminator are written `k` bytes after
its start. -/
def overwrite (k : ℕ) (xs : List Byte) : Option (List Byte) → Option (List Byte)
  | some ys => some (if k ≤ ys.length then ys.take k ++ xs else ys)
  | none => if k = 0 then some xs else none

/-- The same without the terminator. -/
def overwriteCut (k : ℕ) (xs : List Byte) : Option (List Byte) → Option (List Byte)
  | some ys =>
      if k + xs.length ≤ ys.length then some (ys.take k ++ xs ++ ys.drop (k + xs.length))
      else if k ≤ ys.length then none
      else some ys
  | none => none

/-- The string in `t`, if any, is at `p`, where there are `n` bytes. -/
def Known (m : Mapped) (p : Addr) (t : Option (List Byte)) (n : ℕ) : Prop :=
  ∀ xs, t = some xs → xs.length < n ∧ StringAt m p xs

section Writes

variable {m m' : Mapped} {p : Addr} {n k : ℕ} {t : Option (List Byte)} {xs ys zs : List Byte}

theorem Known.congr (h : Known m p t n)
    (hsame : ∀ i < n, m'.read (ptrAdd p i) = m.read (ptrAdd p i)) : Known m' p t n := by
  intro xs hxs
  obtain ⟨hlen, hstring⟩ := h xs hxs
  exact ⟨hlen, hstring.congr fun i hi => hsame i (hi.trans_lt hlen)⟩

/-- A write leaves alone what is before it and after it. -/
theorem Wrote.read_of_not_mem (h : Wrote (ptrAdd p k) zs m m') (hfit : k + zs.length ≤ 2 ^ 64)
    {i : ℕ} (hlt : i < 2 ^ 64) (hi : i < k ∨ k + zs.length ≤ i) :
    m'.read (ptrAdd p i) = m.read (ptrAdd p i) := by
  refine h.frame _ fun hin => ?_
  rw [within_ptrAdd_iff hfit, offset_ptrAdd hlt] at hin
  omega

/-- The part of a string before a write. -/
theorem Wrote.bytesAt_take (h : Wrote (ptrAdd p k) zs m m') (hfit : k + zs.length ≤ 2 ^ 64)
    (hys : StringAt m p ys) : BytesAt m' p (ys.take k) := by
  have hbefore := (bytesAt_append.mp hys.bytes).1.take k
  refine hbefore.congr fun _ hi => h.read_of_not_mem hfit ?_ (.inl ?_)
  · exact (hi.trans_le (List.length_take_le' k ys)).trans hys.length_lt
  · exact hi.trans_le (List.length_take_le k ys)

/-- A string that ends before a write. -/
theorem Wrote.stringAt_before (h : Wrote (ptrAdd p k) zs m m') (hfit : k + zs.length ≤ 2 ^ 64)
    (hys : StringAt m p ys) (hlt : ys.length < k) : StringAt m' p ys :=
  hys.congr fun _ hi =>
    h.read_of_not_mem hfit (hi.trans_lt hys.length_lt) (.inl (hi.trans_lt hlt))

theorem Known.overwrite (h : Known m p t n) (hn : n ≤ 2 ^ 64) (hw : Wrote (ptrAdd p k) zs m m')
    (hk : k + zs.length ≤ n) (hxs : StringAt m' (ptrAdd p k) xs) (hlt : xs.length < zs.length) :
    Known m' p (Mapped.overwrite k xs t) n := by
  intro ys' hys'
  cases t with
  | none =>
      rw [Mapped.overwrite] at hys'
      split_ifs at hys' with hzero
      obtain rfl := Option.some.inj hys'
      subst hzero
      rw [ptrAdd_zero] at hxs
      exact ⟨by omega, hxs⟩
  | some ys =>
      obtain ⟨hlen, hys⟩ := h ys rfl
      obtain rfl := Option.some.inj hys'
      split_ifs with hinside
      · have htake := List.length_take_of_le hinside
        refine ⟨by rw [List.length_append, htake]; omega, StringAt.append ?_ ?_ fun y hy => ?_⟩
        · rwa [htake]
        · exact hw.bytesAt_take (by omega) hys
        · exact hys.ne_zero y (List.mem_of_mem_take hy)
      · exact ⟨hlen, hw.stringAt_before (by omega) hys (not_le.mp hinside)⟩

theorem Known.overwriteCut (h : Known m p t n) (hn : n ≤ 2 ^ 64) (hw : Wrote (ptrAdd p k) xs m m')
    (hk : k + xs.length ≤ n) (hne : ∀ x ∈ xs, x ≠ 0) :
    Known m' p (Mapped.overwriteCut k xs t) n := by
  intro ys' hys'
  cases t with
  | none => cases hys'
  | some ys =>
      obtain ⟨hlen, hys⟩ := h ys rfl
      rw [Mapped.overwriteCut] at hys'
      -- the cut ends inside the old string, or the old string ends before it
      split_ifs at hys' with hinside hover
      · obtain rfl := Option.some.inj hys'
        have htake := List.length_take_of_le (show k ≤ ys.length by omega)
        have hfront : (ys.take k ++ xs).length = k + xs.length := by
          rw [List.length_append, htake]
        refine ⟨by rw [List.length_append, hfront, List.length_drop]; omega,
          StringAt.append ?_ ?_ ?_⟩
        · -- the terminator is still there
          rw [hfront]
          refine (hys.drop hinside).congr fun i hi => ?_
          rw [List.length_drop] at hi
          rw [ptrAdd_ptrAdd]
          exact hw.read_of_not_mem (by omega) (by omega) (.inr (by omega))
        · exact bytesAt_append.mpr
            ⟨hw.bytesAt_take (by omega) hys, by rw [htake]; exact hw.bytes⟩
        · exact List.forall_mem_append.mpr
            ⟨fun y hy => hys.ne_zero y (List.mem_of_mem_take hy), hne⟩
      · obtain rfl := Option.some.inj hys'
        exact ⟨hlen, hw.stringAt_before (by omega) hys (by omega)⟩

end Writes

end Mapped
