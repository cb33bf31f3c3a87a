import Mytilus.Base.Prog

/-!
# Programs that are alike

`Alike R p p'` says that two programs differ in single operations only, which are
related by `R`, and go on alike with related replies.  What is proved of the runs
of one then holds of the other, as long as related operations do the same in the
states that the runs reach (`Alike.runs`).
-/

namespace Prog

variable {Op : Type} {Reply : Op → Type} {α β : Type}

/-- `R o o' g`: the operation `o'` stands for `o`, and its reply for a reply `r` is `g r`. -/
inductive Alike (R : (o o' : Op) → (Reply o → Reply o') → Prop) :
    Prog Op Reply α → Prog Op Reply α → Prop
  | ret (a : α) : Alike R (.ret a) (.ret a)
  | op {o o' : Op} {g : Reply o → Reply o'} {k : Reply o → Prog Op Reply α}
      {k' : Reply o' → Prog Op Reply α} (ho : R o o' g) (hk : ∀ r, Alike R (k r) (k' (g r))) :
      Alike R (.op o k) (.op o' k')

section Alike

variable {R : (o o' : Op) → (Reply o → Reply o') → Prop} {p p' : Prog Op Reply α}

theorem Alike.refl (hR : ∀ o, R o o id) (p : Prog Op Reply α) : Alike R p p := by
  induction p with
  | ret a => exact .ret a
  | op o k ih => exact .op (hR o) ih

theorem Alike.bind {f f' : α → Prog Op Reply β} (h : Alike R p p')
    (hf : ∀ a, Alike R (f a) (f' a)) : Alike R (p >>= f) (p' >>= f') := by
  induction h with
  | ret a => exact hf a
  | op ho _ ih => exact .op ho ih

/-- The invariant holds in the states that a run reaches, and there related
operations do the same. -/
theorem Alike.runs {S : Type} {exec : (o : Op) → S → Option (Reply o × S)} {P : Op → Prop}
    {Q : α → S → Prop} {s : S} (h : Alike R p p') (Inv : S → Prop)
    (hstep : ∀ {o o' : Op} {g : Reply o → Reply o'} {s s₁ : S} {r' : Reply o'}, R o o' g → P o' →
      Inv s → exec o' s = some (r', s₁) → Inv s₁ ∧ ∃ r, exec o s = some (r, s₁) ∧ g r = r')
    (hruns : Runs exec P Q p' s) (hs : Inv s) : Runs exec (fun _ => True) Q p s := by
  -- the related operation is performed first, and its reply is the other one's
  induction h generalizing s with
  | ret a => exact hruns
  | op ho _ ih =>
      obtain ⟨hP, r', s₁, hexec', hrest⟩ := hruns
      obtain ⟨hinv, r, hexec, rfl⟩ := hstep ho hP hs hexec'
      exact ⟨trivial, r, s₁, hexec, ih r hrest hinv⟩

end Alike

end Prog
