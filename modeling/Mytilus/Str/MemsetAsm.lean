import Mytilus.AArch64.Machine

/-!
# `asm/memset.S`

The listing of the target's `memset`, line by line under the register aliases of
the source.  The source's numeric labels `1`, `2` and `3` occur twice; here they
carry the name of the block they are in.  Alignment directives only pad and are
left out.
-/

namespace Mytilus.Str.MemsetAsm

open AArch64

/-! ## Register aliases -/

abbrev dstin : Reg := .x 0
abbrev val : Reg := .x 1
abbrev valw : Reg := .x 1
abbrev count : Reg := .x 2
abbrev dst : Reg := .x 3
abbrev dstend : Reg := .x 4
abbrev zva_val : Reg := .x 5
abbrev q0 : VReg := 0

inductive Label
  | memset | small1 | small2 | small3 | set_medium | medium1 | set96
  | set_long | zva_loop | no_zva | no_zva_loop
  deriving DecidableEq, Repr

/-! ## The listing -/

def code : List (Line Label) :=
  [ .label .memset,
    .op (.dup16B q0 valw),
    .op (.add dstend dstin (.reg count)),
    .op (.cmp .x count (.imm 96)),
    .bcond .hi .set_long,
    .op (.cmp .x count (.imm 16)),
    .bcond .hs .set_medium,
    .op (.movD0 val q0),
    -- set 0..15 bytes
    .tbz count 3 .small1,
    .op (.str val (.off dstin 0)),
    .op (.str val (.off dstend (-8))),
    .ret,
    .op .nop,
    .label .small1,
    .tbz count 2 .small2,
    .op (.strW valw (.off dstin 0)),
    .op (.strW valw (.off dstend (-4))),
    .ret,
    .label .small2,
    .cbz count .small3,
    .op (.strb valw (.off dstin 0)),
    .tbz count 1 .small3,
    .op (.strh valw (.off dstend (-2))),
    .label .small3,
    .ret,
    -- set 17..96 bytes
    .label .set_medium,
    .op (.strQ q0 (.off dstin 0)),
    .tbnz count 6 .set96,
    .op (.strQ q0 (.off dstend (-16))),
    .tbz count 5 .medium1,
    .op (.strQ q0 (.off dstin 16)),
    .op (.strQ q0 (.off dstend (-32))),
    .label .medium1,
    .ret,
    -- set 64..96 bytes
    .label .set96,
    .op (.strQ q0 (.off dstin 16)),
    .op (.stpQ q0 q0 (.off dstin 32)),
    .op (.stpQ q0 q0 (.off dstend (-32))),
    .ret,
    .label .set_long,
    .op (.and .w valw valw (.imm 255)),
    .op (.bic dst dstin (.imm 15)),
    .op (.strQ q0 (.off dstin 0)),
    .op (.cmp .x count (.imm 160)),
    .op (.ccmp .w valw (.imm 0) ⟨false, false, false, false⟩ .hs),
    .bcond .ne .no_zva,
    .op (.mrsDczid zva_val),
    .op (.and .x zva_val zva_val (.imm 31)),
    .op (.cmp .x zva_val (.imm 4)),
    .bcond .ne .no_zva,
    .op (.strQ q0 (.off dst 16)),
    .op (.stpQ q0 q0 (.off dst 32)),
    .op (.bic dst dst (.imm 63)),
    .op (.sub count dstend (.reg dst)),
    .op (.sub count count (.imm 128)),
    .label .zva_loop,
    .op (.add dst dst (.imm 64)),
    .op (.dcZva dst),
    .op (.subs count count (.imm 64)),
    .bcond .hi .zva_loop,
    .op (.stpQ q0 q0 (.off dstend (-64))),
    .op (.stpQ q0 q0 (.off dstend (-32))),
    .ret,
    .label .no_zva,
    .op (.sub count dstend (.reg dst)),
    .op (.sub dst dst (.imm 16)),
    .op (.sub count count (.imm (64 + 16))),
    .label .no_zva_loop,
    .op (.stpQ q0 q0 (.off dst 32)),
    .op (.stpQ q0 q0 (.pre dst 64)),
    .op (.subs count count (.imm 64)),
    .bcond .hi .no_zva_loop,
    .op (.stpQ q0 q0 (.off dstend (-64))),
    .op (.stpQ q0 q0 (.off dstend (-32))),
    .ret ]

end Mytilus.Str.MemsetAsm
