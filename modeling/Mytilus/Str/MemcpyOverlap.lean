import Mytilus.Str.Memcpy
import Mytilus.Str.Memmove

/-!
# The assembly `memcpy` on overlapping regions

Up to 128 bytes are all loaded before the first is stored.  The long path stores
at an offset only when it has loaded the source up to there, so there the source
must not lie below the destination; it may be the destination itself.  In all
these cases the listing is a `memmove`.
-/

namespace Mytilus.Str.MemcpyAsm

open AArch64 Memory

/-- A source at or above the destination is ahead of it. -/
theorem le_offset_of_le {dest src₀ : Addr} {n : ℕ} (hle : dest ≤ src₀)
    (hfit : src₀.toNat + n ≤ 2 ^ 64) {j : ℕ} (hj : j < n) : j ≤ offset dest (ptrAdd src₀ j) := by
  by_cases hlt : dest < src₀
  · exact le_offset_of_lt hlt hfit hj
  · obtain rfl : dest = src₀ := BitVec.le_antisymm hle (BitVec.not_lt.mp hlt)
    exact (offset_ptrAdd (by omega)).ge

/-- **The assembly `memcpy` is a `memmove`**, for up to 128 bytes wherever the two
regions lie, and for more unless the source is below the destination and reaches
into it. -/
theorem memcpy_asm_moves (s : State)
    (hdest : (s.reg dstin).toNat + (s.reg count).toNat < 2 ^ 64)
    (hsrc : (s.reg src).toNat + (s.reg count).toNat < 2 ^ 64)
    (hlong : 128 < (s.reg count).toNat →
      s.reg dstin ≤ s.reg src ∨ (s.reg src).toNat + (s.reg count).toNat ≤ (s.reg dstin).toNat) :
    Ends code (target code .memcpy) s fun a t =>
      a = s.reg (.x 30) ∧
      (t.reg (.x 0), t.mem) = memmove (s.reg dstin) (s.reg src) (s.reg count) s.mem ∧
      (∀ k < (s.reg count).toNat, t.mem (ptrAdd (s.reg dstin) k) = s.mem (ptrAdd (s.reg src) k)) ∧
      SameOutside (s.reg dstin) (s.reg count).toNat s.mem t.mem ∧
      TraceSince s t fun
        | .load b n => ∀ x, Within b n x → Within (s.reg src) (s.reg count).toNat x
        | .store b n => ∀ x, Within b n x → Within (s.reg dstin) (s.reg count).toNat x := by
  have hahead : 128 < len s → Ahead s ∧ len s + misalign s < 2 ^ 64 := by
    intro hmore
    have hmis : misalign s ≤ (s.reg dstin).toNat := Nat.mod_le _ _
    refine ⟨?_, ?_⟩
    · rcases hlong hmore with hle | hbelow
      · exact fun j hj => le_offset_of_le hle hsrc.le hj
      · exact ahead_of_separate (separate_of_add_le hbelow hdest.le).symm
    · unfold len
      omega
  refine (ends_memcpy_of_ahead s hahead).mono fun a t hpost => ?_
  obtain ⟨hbytes, houtside⟩ := hpost.memory
  obtain ⟨hret, hcopy⟩ := hpost
  refine ⟨hret, Prod.ext ?_ ?_, hbytes, houtside, hcopy.trace.mono fun access => ?_⟩
  · exact hcopy.result.trans (memmove_fst ..).symm
  · exact hcopy.mem.unique (memmove_patched s.mem hdest.le hsrc.le)
  · cases access <;> exact id

/-- A hundred bytes up by one, and two hundred bytes down by one. -/
theorem memcpy_asm_moves_by_one :
    (Ends code (target code .memcpy) (.call (fun a => a.setWidth 8) 0x1001 0x1000 100 0x400)
      fun a t => a = 0x400 ∧ t.mem 0x1064 = 0x63) ∧
    Ends code (target code .memcpy) (.call (fun a => a.setWidth 8) 0x1000 0x1001 200 0x400)
      fun a t => a = 0x400 ∧ t.mem 0x10c7 = 0xc8 := by
  constructor
  · refine (memcpy_asm_moves (.call (fun a => a.setWidth 8) 0x1001 0x1000 100 0x400) (by decide)
      (by decide) (by decide)).mono fun a t hpost => ?_
    exact ⟨hpost.1, hpost.2.2.1 99 (by decide)⟩
  · refine (memcpy_asm_moves (.call (fun a => a.setWidth 8) 0x1000 0x1001 200 0x400) (by decide)
      (by decide) (fun _ => .inl (by decide))).mono fun a t hpost => ?_
    exact ⟨hpost.1, hpost.2.2.1 199 (by decide)⟩

end Mytilus.Str.MemcpyAsm
