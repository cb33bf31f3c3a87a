import Mytilus.Base.Prog

/-!
# Counting the operations of a program

Each operation has a weight.  `Costs w p k` says that `p` performs operations of
weight at most `k` altogether, whatever it is replied and in whichever state it
starts; `Costs.total_le` is what that says of a run.
-/

namespace Prog

variable {Op : Type} {Reply : Op → Type} {α β : Type}

def Costs (w : Op → ℕ) : Prog Op Reply α → ℕ → Prop
  | .ret _, _ => True
  | .op o f, k => w o ≤ k ∧ ∀ r, Costs w (f r) (k - w o)

/-- The weight of a list of operations. -/
def total (w : Op → ℕ) (log : List Op) : ℕ := (log.map w).sum

section Costs

variable {w : Op → ℕ} {p : Prog Op Reply α} {k l : ℕ}

theorem costs_pure (a : α) (k : ℕ) : Costs w (pure a : Prog Op Reply α) k := trivial

theorem costs_perform {o : Op} (ho : w o ≤ k) :
    Costs w (perform o : Prog Op Reply (Reply o)) k :=
  ⟨ho, fun _ => trivial⟩

theorem Costs.mono (h : Costs w p k) (hkl : k ≤ l) : Costs w p l := by
  induction p generalizing k l with
  | ret a => trivial
  | op o f ih =>
      obtain ⟨ho, hrest⟩ := h
      refine ⟨ho.trans hkl, fun r => ?_⟩
      exact ih r (hrest r) (Nat.sub_le_sub_right hkl _)

theorem Costs.bind {f : α → Prog Op Reply β} (hp : Costs w p k) (hf : ∀ a, Costs w (f a) l) :
    Costs w (p >>= f) (k + l) := by
  change Costs w (p.bind f) (k + l)
  induction p generalizing k with
  | ret a => exact (hf a).mono (Nat.le_add_left l k)
  | op o g ih =>
      obtain ⟨ho, hrest⟩ := hp
      refine ⟨ho.trans (Nat.le_add_right k l), fun r => ?_⟩
      rw [Nat.sub_add_comm ho]
      exact ih r (hrest r)

/-- A first part that weighs nothing. -/
theorem Costs.bind_zero {f : α → Prog Op Reply β} (hp : Costs w p 0)
    (hf : ∀ a, Costs w (f a) l) : Costs w (p >>= f) l :=
  (hp.bind hf).mono (Nat.zero_add l).le

/-- The operations of a run weigh no more than the program costs. -/
theorem Costs.total_le {S : Type} {exec : (o : Op) → S → Option (Reply o × S)} (h : Costs w p k)
    {s s' : S} {a : α} {log : List Op} (hrun : run exec p s = some (a, s', log)) :
    total w log ≤ k := by
  induction p generalizing k s log with
  | ret a =>
      simp only [run, Option.some.injEq, Prod.mk.injEq] at hrun
      simp [total, ← hrun.2.2]
  | op o f ih =>
      obtain ⟨ho, hrest⟩ := h
      cases hexec : exec o s with
      | none => simp [run, hexec] at hrun
      | some reply =>
          simp only [run, hexec, Option.map_eq_some_iff, Prod.mk.injEq] at hrun
          obtain ⟨⟨a', t, log'⟩, hrun', rfl, rfl, rfl⟩ := hrun
          have hle := ih reply.1 (hrest reply.1) hrun'
          simp only [total, List.map_cons, List.sum_cons] at hle ⊢
          omega

end Costs

end Prog
