import Mathlib.Order.BooleanAlgebra.Basic
import Mathlib.Data.List.Perm.Basic
import Mathlib.Tactic

/-!
# Pieces of a whole

What is handed out piece by piece: the pieces are disjoint from one another and
from the rest, and with the rest they are the whole.  A new piece comes from
outside the whole, and a piece that is given back leaves it.
-/

namespace Pieces

variable {α β : Type*} [GeneralizedBooleanAlgebra α] (piece : β → α)

/-- All the pieces together. -/
def join (l : List β) : α := (l.map piece).foldr (· ⊔ ·) ⊥

/-- The whole consists of the rest and the pieces. -/
structure Accounts (rest whole : α) (l : List β) : Prop where
  disjoint : l.Pairwise fun b b' => Disjoint (piece b) (piece b')
  apart : ∀ b ∈ l, Disjoint (piece b) rest
  whole : whole = rest ⊔ join piece l

section Join

@[simp] theorem join_nil : join piece ([] : List β) = (⊥ : α) := rfl

@[simp] theorem join_cons (b : β) (l : List β) : join piece (b :: l) = piece b ⊔ join piece l := rfl

variable {piece} {rest whole a : α} {b : β} {l l' : List β}

theorem join_perm (h : l.Perm l') : join piece l = join piece l' := by
  induction h with
  | nil => rfl
  | cons b _ ih => rw [join_cons, join_cons, ih]
  | swap b b' l => rw [join_cons, join_cons, join_cons, join_cons, sup_left_comm]
  | trans _ _ ih ih' => rw [ih, ih']

theorem disjoint_join (h : ∀ b ∈ l, Disjoint a (piece b)) : Disjoint a (join piece l) := by
  induction l with
  | nil => exact disjoint_bot_right
  | cons b l ih =>
      obtain ⟨hb, hl⟩ := List.forall_mem_cons.mp h
      exact hb.sup_right (ih hl)

theorem le_join (hb : b ∈ l) : piece b ≤ join piece l := by
  induction hb with
  | head l => exact le_sup_left
  | tail b' _ ih => exact ih.trans le_sup_right

theorem Accounts.nil (whole : α) : Accounts piece whole whole [] :=
  ⟨List.Pairwise.nil, nofun, (sup_bot_eq whole).symm⟩

/-- The pieces may be taken in any order. -/
theorem Accounts.perm (h : Accounts piece rest whole l) (hperm : l.Perm l') :
    Accounts piece rest whole l' where
  disjoint := (hperm.pairwise_iff fun hab => hab.symm).mp h.disjoint
  apart := fun b hb => h.apart b (hperm.mem_iff.mpr hb)
  whole := by rw [h.whole, join_perm hperm]

/-- A piece from outside the whole. -/
theorem Accounts.cons (h : Accounts piece rest whole l) (hb : Disjoint (piece b) whole) :
    Accounts piece rest (whole ⊔ piece b) (b :: l) := by
  rw [h.whole] at hb
  refine ⟨List.pairwise_cons.mpr ⟨fun b' hb' => ?_, h.disjoint⟩, ?_, ?_⟩
  · exact hb.mono_right ((le_join hb').trans le_sup_right)
  · exact List.forall_mem_cons.mpr ⟨hb.mono_right le_sup_left, h.apart⟩
  · rw [h.whole, join_cons, sup_assoc, sup_comm (join piece l)]

/-- A piece that is given back. -/
theorem Accounts.erase [DecidableEq β] (h : Accounts piece rest whole l) (hb : b ∈ l) :
    Accounts piece rest (whole \ piece b) (l.erase b) := by
  obtain ⟨hdisjoint, hapart, hwhole⟩ := h.perm (List.perm_cons_erase hb)
  obtain ⟨hfirst, hrest⟩ := List.pairwise_cons.mp hdisjoint
  obtain ⟨hb', hl⟩ := List.forall_mem_cons.mp hapart
  have hjoin : Disjoint (join piece (l.erase b)) (piece b) := (disjoint_join hfirst).symm
  refine ⟨hrest, hl, ?_⟩
  rw [hwhole, join_cons, sup_sdiff, sup_sdiff, sdiff_self, bot_sup_eq, hb'.symm.sdiff_eq_left,
    hjoin.sdiff_eq_left]

end Join

end Pieces
