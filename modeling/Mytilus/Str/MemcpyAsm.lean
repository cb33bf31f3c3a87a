import Mytilus.AArch64.Machine

/-!
# `asm/memcpy.S`

The listing of the target's `memcpy`, line by line under the register aliases of
the source.  Alignment directives only pad and are left out.
-/

namespace Mytilus.Str.MemcpyAsm

open AArch64

/-! ## Register aliases -/

abbrev dstin : Reg := .x 0
abbrev src : Reg := .x 1
abbrev count : Reg := .x 2
abbrev dst : Reg := .x 3
abbrev srcend : Reg := .x 4
abbrev dstend : Reg := .x 5
abbrev A_l : Reg := .x 6
abbrev A_lw : Reg := .x 6
abbrev A_h : Reg := .x 7
abbrev B_l : Reg := .x 8
abbrev B_lw : Reg := .x 8
abbrev B_h : Reg := .x 9
abbrev C_l : Reg := .x 10
abbrev C_lw : Reg := .x 10
abbrev C_h : Reg := .x 11
abbrev D_l : Reg := .x 12
abbrev D_h : Reg := .x 13
abbrev E_l : Reg := .x 14
abbrev E_h : Reg := .x 15
abbrev F_l : Reg := .x 16
abbrev F_h : Reg := .x 17
abbrev tmp1 : Reg := .x 14

inductive Label
  | memcpy | copy16 | copy8 | copy4 | copy0 | copy32_128 | copy128 | copy96
  | copy_long | loop64 | copy64_from_end
  deriving DecidableEq, Repr

/-! ## The listing -/

def code : List (Line Label) :=
  [ .label .memcpy,
    .op (.add srcend src (.reg count)),
    .op (.add dstend dstin (.reg count)),
    .op (.cmp .x count (.imm 128)),
    .bcond .hi .copy_long,
    .op (.cmp .x count (.imm 32)),
    .bcond .hi .copy32_128,
    -- small copies: 0..32 bytes
    .op (.cmp .x count (.imm 16)),
    .bcond .lo .copy16,
    .op (.ldp A_l A_h (.off src 0)),
    .op (.ldp D_l D_h (.off srcend (-16))),
    .op (.stp A_l A_h (.off dstin 0)),
    .op (.stp D_l D_h (.off dstend (-16))),
    .ret,
    -- copy 8-15 bytes
    .label .copy16,
    .tbz count 3 .copy8,
    .op (.ldr A_l (.off src 0)),
    .op (.ldr A_h (.off srcend (-8))),
    .op (.str A_l (.off dstin 0)),
    .op (.str A_h (.off dstend (-8))),
    .ret,
    -- copy 4-7 bytes
    .label .copy8,
    .tbz count 2 .copy4,
    .op (.ldrW A_lw (.off src 0)),
    .op (.ldrW B_lw (.off srcend (-4))),
    .op (.strW A_lw (.off dstin 0)),
    .op (.strW B_lw (.off dstend (-4))),
    .ret,
    -- copy 0..3 bytes using a branchless sequence
    .label .copy4,
    .cbz count .copy0,
    .op (.lsr tmp1 count 1),
    .op (.ldrb A_lw (.off src 0)),
    .op (.ldrb C_lw (.off srcend (-1))),
    .op (.ldrb B_lw (.idx src tmp1)),
    .op (.strb A_lw (.off dstin 0)),
    .op (.strb B_lw (.idx dstin tmp1)),
    .op (.strb C_lw (.off dstend (-1))),
    .label .copy0,
    .ret,
    -- medium copies: 33..128 bytes
    .label .copy32_128,
    .op (.ldp A_l A_h (.off src 0)),
    .op (.ldp B_l B_h (.off src 16)),
    .op (.ldp C_l C_h (.off srcend (-32))),
    .op (.ldp D_l D_h (.off srcend (-16))),
    .op (.cmp .x count (.imm 64)),
    .bcond .hi .copy128,
    .op (.stp A_l A_h (.off dstin 0)),
    .op (.stp B_l B_h (.off dstin 16)),
    .op (.stp C_l C_h (.off dstend (-32))),
    .op (.stp D_l D_h (.off dstend (-16))),
    .ret,
    -- copy 65..128 bytes
    .label .copy128,
    .op (.ldp E_l E_h (.off src 32)),
    .op (.ldp F_l F_h (.off src 48)),
    .op (.cmp .x count (.imm 96)),
    .bcond .ls .copy96,
    .op (.ldp count dst (.off srcend (-64))),
    .op (.ldp src srcend (.off srcend (-48))),
    .op (.stp count dst (.off dstend (-64))),
    .op (.stp src srcend (.off dstend (-48))),
    .label .copy96,
    .op (.stp A_l A_h (.off dstin 0)),
    .op (.stp B_l B_h (.off dstin 16)),
    .op (.stp E_l E_h (.off dstin 32)),
    .op (.stp F_l F_h (.off dstin 48)),
    .op (.stp C_l C_h (.off dstend (-32))),
    .op (.stp D_l D_h (.off dstend (-16))),
    .ret,
    -- copy more than 128 bytes
    .label .copy_long,
    .op (.ldp D_l D_h (.off src 0)),
    .op (.and .x tmp1 dstin (.imm 15)),
    .op (.bic dst dstin (.imm 15)),
    .op (.sub src src (.reg tmp1)),
    .op (.add count count (.reg tmp1)),
    .op (.ldp A_l A_h (.off src 16)),
    .op (.stp D_l D_h (.off dstin 0)),
    .op (.ldp B_l B_h (.off src 32)),
    .op (.ldp C_l C_h (.off src 48)),
    .op (.ldp D_l D_h (.pre src 64)),
    .op (.subs count count (.imm (128 + 16))),
    .bcond .ls .copy64_from_end,
    .label .loop64,
    .op (.stp A_l A_h (.off dst 16)),
    .op (.ldp A_l A_h (.off src 16)),
    .op (.stp B_l B_h (.off dst 32)),
    .op (.ldp B_l B_h (.off src 32)),
    .op (.stp C_l C_h (.off dst 48)),
    .op (.ldp C_l C_h (.off src 48)),
    .op (.stp D_l D_h (.pre dst 64)),
    .op (.ldp D_l D_h (.pre src 64)),
    .op (.subs count count (.imm 64)),
    .bcond .hi .loop64,
    -- write the last iteration and copy 64 bytes from the end
    .label .copy64_from_end,
    .op (.ldp E_l E_h (.off srcend (-64))),
    .op (.stp A_l A_h (.off dst 16)),
    .op (.ldp A_l A_h (.off srcend (-48))),
    .op (.stp B_l B_h (.off dst 32)),
    .op (.ldp B_l B_h (.off srcend (-32))),
    .op (.stp C_l C_h (.off dst 48)),
    .op (.ldp C_l C_h (.off srcend (-16))),
    .op (.stp D_l D_h (.off dst 64)),
    .op (.stp E_l E_h (.off dstend (-64))),
    .op (.stp A_l A_h (.off dstend (-48))),
    .op (.stp B_l B_h (.off dstend (-32))),
    .op (.stp C_l C_h (.off dstend (-16))),
    .ret ]

end Mytilus.Str.MemcpyAsm
