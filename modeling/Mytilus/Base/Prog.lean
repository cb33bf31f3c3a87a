import Mathlib.Tactic

/-!
# Programs of atomic operations

A program stops with a result, or performs one operation and goes on with what
the operation's reply makes of it.  Operations are given a meaning by a function
on states that may block; `run` executes a program to its end and also returns
the operations it performed, in order.

`Runs exec P Q p s` is the total-correctness statement about such a run: it does
not block, every operation performed satisfies `P`, and `Q` holds of the result
and the final state.  `runs_pure`, `runs_perform` and `runs_bind` are its rules, and
`runs_iff` turns what they have shown into a statement about `run`.
-/

inductive Prog (Op : Type) (Reply : Op → Type) (α : Type) : Type
  | ret (a : α)
  | op (o : Op) (k : Reply o → Prog Op Reply α)

namespace Prog

variable {Op : Type} {Reply : Op → Type} {α β : Type}

protected def bind : Prog Op Reply α → (α → Prog Op Reply β) → Prog Op Reply β
  | .ret a, f => f a
  | .op o k, f => .op o fun r => (k r).bind f

instance : Monad (Prog Op Reply) where
  pure := .ret
  bind := Prog.bind

/-- The program that performs one operation and returns its reply. -/
def perform (o : Op) : Prog Op Reply (Reply o) := .op o .ret

section Semantics

variable {S : Type} (exec : (o : Op) → S → Option (Reply o × S))

/-- The result, the final state and the operations performed; none if one blocks. -/
def run : Prog Op Reply α → S → Option (α × S × List Op)
  | .ret a, s => some (a, s, [])
  | .op o k, s =>
      match exec o s with
      | none => none
      | some (r, s) => (run (k r) s).map fun (a, s, log) => (a, s, o :: log)

def Runs (P : Op → Prop) (Q : α → S → Prop) : Prog Op Reply α → S → Prop
  | .ret a, s => Q a s
  | .op o k, s => P o ∧ ∃ r s', exec o s = some (r, s') ∧ Runs P Q (k r) s'

variable {exec} {P P' : Op → Prop} {Q Q' : α → S → Prop} {p : Prog Op Reply α} {s : S}

theorem runs_pure {a : α} : Runs exec P Q (pure a) s ↔ Q a s := Iff.rfl

theorem runs_perform {o : Op} {Q : Reply o → S → Prop} :
    Runs exec P Q (perform o) s ↔ P o ∧ ∃ r s', exec o s = some (r, s') ∧ Q r s' :=
  Iff.rfl

theorem runs_bind {f : α → Prog Op Reply β} {Q : β → S → Prop} :
    Runs exec P Q (p >>= f) s ↔ Runs exec P (fun a s' => Runs exec P Q (f a) s') p s := by
  change Runs exec P Q (p.bind f) s ↔ _
  induction p generalizing s with
  | ret a => exact Iff.rfl
  | op o k ih =>
      constructor
      · rintro ⟨ho, r, s', hexec, hrest⟩
        exact ⟨ho, r, s', hexec, (ih r).mp hrest⟩
      · rintro ⟨ho, r, s', hexec, hrest⟩
        exact ⟨ho, r, s', hexec, (ih r).mpr hrest⟩

theorem Runs.mono (h : Runs exec P Q p s) (hP : ∀ o, P o → P' o) (hQ : ∀ a s', Q a s' → Q' a s') :
    Runs exec P' Q' p s := by
  induction p generalizing s with
  | ret a => exact hQ a s h
  | op o k ih =>
      obtain ⟨ho, r, s', hexec, hrest⟩ := h
      exact ⟨hP o ho, r, s', hexec, ih r hrest⟩

theorem run_pure (a : α) (s : S) :
    run exec (pure a : Prog Op Reply α) s = some (a, s, []) := rfl

theorem run_perform (o : Op) (s : S) :
    run exec (perform o : Prog Op Reply (Reply o)) s =
      (exec o s).map fun (r, s') => (r, s', [o]) := by
  rw [perform, run]
  cases exec o s <;> rfl

/-- A sequence of two programs performs the operations of both. -/
theorem run_bind (p : Prog Op Reply α) (f : α → Prog Op Reply β) (s : S) :
    run exec (p >>= f) s =
      (run exec p s).bind fun (a, s', log) =>
        (run exec (f a) s').map fun (b, s'', log') => (b, s'', log ++ log') := by
  change run exec (p.bind f) s = _
  induction p generalizing s with
  | ret a =>
      change run exec (f a) s = (run exec (f a) s).map _
      cases run exec (f a) s <;> rfl
  | op o k ih =>
      rw [Prog.bind, run, run]
      cases exec o s with
      | none => rfl
      | some reply =>
          obtain ⟨r, s'⟩ := reply
          simp only [ih r s']
          cases run exec (k r) s' with
          | none => rfl
          | some result =>
              obtain ⟨a, t, log⟩ := result
              simp only [Option.bind_some, Option.map_some]
              cases run exec (f a) t <;> rfl

/-- What the statement says of `run`. -/
theorem runs_iff :
    Runs exec P Q p s ↔ ∃ a s' log, run exec p s = some (a, s', log) ∧ Q a s' ∧ ∀ o ∈ log, P o := by
  -- induction on the program: its first operation heads the log
  induction p generalizing s with
  | ret a =>
      constructor
      · intro h
        exact ⟨a, s, [], rfl, h, by simp⟩
      · rintro ⟨a', s', log, hrun, hQ, -⟩
        cases hrun
        exact hQ
  | op o k ih =>
      constructor
      · rintro ⟨ho, r, s', hexec, hrest⟩
        obtain ⟨a, t, log, hrun, hQ, hlog⟩ := (ih r).mp hrest
        refine ⟨a, t, o :: log, ?_, hQ, List.forall_mem_cons.mpr ⟨ho, hlog⟩⟩
        rw [run, hexec]
        simp only [hrun, Option.map_some]
      · rintro ⟨a, t, log, hrun, hQ, hlog⟩
        rw [run] at hrun
        cases hexec : exec o s with
        | none => simp [hexec] at hrun
        | some reply =>
            obtain ⟨r, s'⟩ := reply
            rw [hexec] at hrun
            obtain ⟨⟨a', t', log'⟩, hrest, heq⟩ := Option.map_eq_some_iff.mp hrun
            cases heq
            obtain ⟨ho, hlog'⟩ := List.forall_mem_cons.mp hlog
            exact ⟨ho, r, s', hexec, (ih r).mpr ⟨_, _, _, hrest, hQ, hlog'⟩⟩

end Semantics

end Prog
