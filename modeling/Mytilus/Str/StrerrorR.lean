import Mytilus.Base.Mapped
import Mytilus.Errno.Strerror

/-!
# `strerror_r`

A message that fits goes into the buffer whole, and one that does not is cut so
that the terminator is the buffer's last byte.  Both copies end in a terminator,
and only the whole one answers zero.

`strerrorR_fills` says it for every error number, every length and every buffer, from
one lemma for each of the three lengths (`strerrorR_fits`, `strerrorR_cut`,
`strerrorR_empty`); the message is that of `Mytilus.Errno.Strerror`.
-/

namespace Mytilus.Str.Checked

open Memory Mapped Errno

variable {m : Mapped} {buf : Addr} {bytes : List Byte} {n : ℕ}

/-- `while i < n { *buf.add(i) = bytes[i] as c_char; i += 1; }` -/
def copyMessage (buf : Addr) (bytes : List Byte) (n i : ℕ) (m : Mapped) : Option Mapped :=
  if i < n then do
    let b ← bytes[i]?
    let m ← m.store (ptrAdd buf i) b
    copyMessage buf bytes n (i + 1) m
  else
    return m
termination_by n - i

/-- `int strerror_r(int err, char *buf, size_t buflen)` -/
def strerrorR (err : BitVec 32) (buf : Addr) (buflen : BitVec 64) (m : Mapped) :
    Option (BitVec 32 × Mapped) := do
  let message ← strerrorStr err
  let bytes := message.bytes
  let l := bytes.length
  if buflen.toNat ≤ l then
    if 0 < buflen.toNat then
      let copyN := buflen.toNat - 1
      let m ← copyMessage buf bytes copyN 0 m
      let m ← m.store (ptrAdd buf (buflen.toNat - 1)) 0
      return (ERANGE, m)
    else
      return (ERANGE, m)
  else
    let m ← copyMessage buf bytes l 0 m
    let m ← m.store (ptrAdd buf l) 0
    return (0, m)

theorem copyMessage_eq (hroom : Room m buf n) (hn : n ≤ bytes.length) :
    ∃ m', copyMessage buf bytes n 0 m = some m' ∧ Wrote buf (bytes.take n) m m' := by
  have hlen : (bytes.take n).length = n := List.length_take_of_le hn
  refine exists_wrote_loop (copyMessage buf bytes n) _ (fun i b hb m => ?_) (fun m => ?_) ?_
  · rw [List.getElem?_take] at hb
    split_ifs at hb with hi
    rw [copyMessage, if_pos hi, bind_of_some _ hb]
  · rw [hlen, copyMessage, if_neg (lt_irrefl n)]
    rfl
  · rwa [hlen]

/-- A copy, and the terminator after it. -/
theorem copyMessage_nul (hroom : Room m buf (n + 1)) (hn : n ≤ bytes.length) :
    ∃ m₁ m', copyMessage buf bytes n 0 m = some m₁ ∧ m₁.store (ptrAdd buf n) 0 = some m' ∧
      Wrote buf (bytes.take n ++ [0]) m m' := by
  have hcopyRoom : Room m buf n := fun i hi => hroom i (hi.trans n.lt_succ_self)
  obtain ⟨m₁, hcopy, hwrote⟩ := copyMessage_eq hcopyRoom hn
  obtain ⟨m', hstore, hnul⟩ := exists_store (hwrote.isSome (hroom n n.lt_succ_self)) 0
  have hlen : (bytes.take n).length = n := List.length_take_of_le hn
  have hall := hwrote.trans hnul hlen.ge (by rw [hlen]; exact Nat.le_succ n) hroom.le
  rw [List.take_of_length_le hlen.le] at hall
  exact ⟨m₁, m', hcopy, hstore, hall⟩

section Regimes

variable {err : BitVec 32} {buflen : BitVec 64} {M : CStr}

theorem strerrorR_fits (hM : strerrorStr err = some M) (hfits : M.bytes.length < buflen.toNat)
    (hroom : Room m buf (M.bytes.length + 1)) :
    ∃ m', strerrorR err buf buflen m = some (0, m') ∧ Wrote buf (M.bytes ++ [0]) m m' := by
  obtain ⟨m₁, m', hcopy, hstore, hwrote⟩ := copyMessage_nul hroom le_rfl
  rw [List.take_length] at hwrote
  refine ⟨m', ?_, hwrote⟩
  rw [strerrorR, bind_of_some _ hM, if_neg (by omega), bind_of_some _ hcopy, bind_of_some _ hstore]
  rfl

theorem strerrorR_cut (hM : strerrorStr err = some M) (hcut : buflen.toNat ≤ M.bytes.length)
    (hpos : 0 < buflen.toNat) (hroom : Room m buf buflen.toNat) :
    ∃ m', strerrorR err buf buflen m = some (ERANGE, m') ∧
      Wrote buf (M.bytes.take (buflen.toNat - 1) ++ [0]) m m' := by
  have hroom' : Room m buf (buflen.toNat - 1 + 1) := by rwa [Nat.sub_add_cancel hpos]
  obtain ⟨m₁, m', hcopy, hstore, hwrote⟩ :=
    copyMessage_nul hroom' (show buflen.toNat - 1 ≤ M.bytes.length by omega)
  refine ⟨m', ?_, hwrote⟩
  rw [strerrorR, bind_of_some _ hM, if_pos hcut, if_pos hpos, bind_of_some _ hcopy,
    bind_of_some _ hstore]
  rfl

theorem strerrorR_empty (hM : strerrorStr err = some M) (hzero : buflen.toNat = 0) :
    strerrorR err buf buflen m = some (ERANGE, m) := by
  rw [strerrorR, bind_of_some _ hM, if_pos (by omega), if_neg (by omega)]
  rfl

end Regimes

/-- What a run of `strerror_r` leaves: its answer, and what it has written. -/
structure Filled (M : CStr) (buf : Addr) (buflen : ℕ) (m : Mapped) (r : BitVec 32) (m' : Mapped) :
    Prop where
  whole : M.bytes.length < buflen → r = 0 ∧ Wrote buf (M.bytes ++ [0]) m m'
  cut : buflen ≤ M.bytes.length → r = ERANGE
  truncated : buflen ≤ M.bytes.length → 0 < buflen →
    Wrote buf (M.bytes.take (buflen - 1) ++ [0]) m m'
  untouched : buflen = 0 → m' = m
  terminated : 0 < buflen →
    ∃ xs, StringAt m' buf xs ∧ xs <+: M.bytes ∧ (xs = M.bytes ↔ r = 0)

section Filled

variable {M : CStr} {m' : Mapped}

theorem filled_whole (hfits : M.bytes.length < n) (hwrote : Wrote buf (M.bytes ++ [0]) m m') :
    Filled M buf n m 0 m' where
  whole _ := ⟨rfl, hwrote⟩
  cut hcut := absurd hfits (not_lt.mpr hcut)
  truncated hcut := absurd hfits (not_lt.mpr hcut)
  untouched hzero := absurd hfits (by simp [hzero])
  terminated _ := ⟨M.bytes, hwrote.stringAt M.nonzero, List.prefix_rfl, by simp⟩

theorem filled_cut (hcut : n ≤ M.bytes.length) (hpos : 0 < n)
    (hwrote : Wrote buf (M.bytes.take (n - 1) ++ [0]) m m') : Filled M buf n m ERANGE m' where
  whole hfits := absurd hfits (not_lt.mpr hcut)
  cut _ := rfl
  truncated _ _ := hwrote
  untouched hzero := absurd hzero hpos.ne'
  terminated _ := by
    have hstring : StringAt m' buf (M.bytes.take (n - 1)) :=
      hwrote.stringAt fun b hb => M.nonzero b (List.mem_of_mem_take hb)
    have hshort : M.bytes.take (n - 1) ≠ M.bytes := by
      intro h
      have hlen := List.length_take_of_le (show n - 1 ≤ M.bytes.length by omega)
      rw [h] at hlen
      omega
    have hrange : ERANGE ≠ 0 := by simp [ERANGE]
    exact ⟨_, hstring, List.take_prefix _ _, iff_of_false hshort hrange⟩

theorem filled_empty (hzero : n = 0) : Filled M buf n m ERANGE m where
  whole hfits := absurd hfits (by simp [hzero])
  cut _ := rfl
  truncated _ hpos := absurd hzero hpos.ne'
  untouched _ := rfl
  terminated hpos := absurd hzero hpos.ne'

end Filled

/-- **`strerror_r` fills the buffer.**  Every `int` selects a message, and of the
buffer only the bytes up to the terminator need be mapped. -/
theorem strerrorR_fills (err : BitVec 32) : ∃ M, strerrorStr err = some M ∧
    ∀ (m : Mapped) (buf : Addr) (buflen : BitVec 64),
      Room m buf (min buflen.toNat (M.bytes.length + 1)) →
        ∃ r m', strerrorR err buf buflen m = some (r, m') ∧ Filled M buf buflen.toNat m r m' := by
  obtain ⟨M, hM⟩ := exists_strerrorStr err
  refine ⟨M, hM, fun m buf buflen hroom => ?_⟩
  rcases Nat.lt_or_ge M.bytes.length buflen.toNat with hfits | hcut
  · rw [Nat.min_eq_right hfits] at hroom
    obtain ⟨m', hrun, hwrote⟩ := strerrorR_fits hM hfits hroom
    exact ⟨0, m', hrun, filled_whole hfits hwrote⟩
  · rw [Nat.min_eq_left (hcut.trans (Nat.le_succ _))] at hroom
    rcases Nat.eq_zero_or_pos buflen.toNat with hzero | hpos
    · exact ⟨ERANGE, m, strerrorR_empty hM hzero, filled_empty hzero⟩
    · obtain ⟨m', hrun, hwrote⟩ := strerrorR_cut hM hcut hpos hroom
      exact ⟨ERANGE, m', hrun, filled_cut hcut hpos hwrote⟩

/-- Five bytes at `0x2000`. -/
def fiveBytes : Mapped := view (fun _ => 255) (Within 0x2000 5)

theorem strerrorR_fills_five : ∃ M, strerrorStr ENOENT = some M ∧
    ∃ r m', strerrorR ENOENT 0x2000 5 fiveBytes = some (r, m') ∧
      Filled M 0x2000 5 fiveBytes r m' := by
  have hroom : Room fiveBytes 0x2000 5 := by
    unfold Room
    decide
  obtain ⟨M, hM, hfills⟩ := strerrorR_fills ENOENT
  exact ⟨M, hM, hfills fiveBytes 0x2000 5 fun k hk => hroom k (hk.trans_le (min_le_left _ _))⟩

end Mytilus.Str.Checked
