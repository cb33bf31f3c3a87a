import Mytilus.Base.Prog

/-!
# Programs in the sections of a spin lock

Threads call operations of an object whose code is a program of atomic steps.
The code of a call either performs no step at all, or takes the lock first,
releases it last, and does neither in between (`Guarded`).  Threads interleave step
by step; an attempt to take the lock while it is held changes nothing and may be
repeated.

The invariant is `Linearized`: the calls that have released the lock, executed one
at a time, give the replies had so far and a state `s`, and a thread that is inside
still has to do what its whole call does from `s`.  Each of the six steps keeps it
(`Linearized.invoke` to `Linearized.finish`); only `release` moves a call to those
that are over.  From `Run.linearized`, by induction on the run:

* `Linearized.exclusive` and `Linearized.free_iff`: at most one thread is inside a
  section, and the lock is free when none is;
* `Linearized.answers_eq`: the replies and the state are those of all calls executed
  one at a time, in any order that keeps that of each thread and the order in which
  the lock was taken.

Nothing here says that a thread ever gets the lock; `Run.leave` and `Run.complete`
say that one that has it, or finds it free, can go on to the end of its call.
-/

namespace SpinLock

open Function (update)

variable {Op : Type} {Reply : Op → Type} {S R Call ι : Type}
  {exec : (o : Op) → S → Option (Reply o × S)}

/-! ## The lock -/

/-- Taking the lock succeeds only when it is free, and the other operations
leave it as it is. -/
structure Lock (exec : (o : Op) → S → Option (Reply o × S)) where
  acquire : Op
  release : Op
  Free : S → Prop
  release_ne_acquire : release ≠ acquire
  free_of_acquire : ∀ s r s', exec acquire s = some (r, s') → Free s
  not_free_after_acquire : ∀ s r s', exec acquire s = some (r, s') → ¬ Free s'
  free_after_release : ∀ s r s', exec release s = some (r, s') → Free s'
  free_iff_of_other : ∀ o, o ≠ acquire → o ≠ release → ∀ s r s', exec o s = some (r, s') →
    (Free s' ↔ Free s)

section Shape

variable {α β : Type} (L : Lock exec)

/-- A program that does not touch the lock. -/
def Plain : Prog Op Reply α → Prop
  | .ret _ => True
  | .op o k => o ≠ L.acquire ∧ o ≠ L.release ∧ ∀ r, Plain (k r)

/-- What is left of a section: releasing the lock is the last step. -/
def Inside : Prog Op Reply α → Prop
  | .ret _ => False
  | .op o k => (o = L.release ∧ ∀ r, ∃ a, k r = .ret a) ∨
      (o ≠ L.acquire ∧ o ≠ L.release ∧ ∀ r, Inside (k r))

/-- A program without steps, or one section. -/
def Guarded : Prog Op Reply α → Prop
  | .ret _ => True
  | .op o k => o = L.acquire ∧ ∀ r, Inside L (k r)

variable {L} {p : Prog Op Reply α} {f : α → Prog Op Reply β}

theorem plain_perform {o : Op} (hacquire : o ≠ L.acquire) (hrelease : o ≠ L.release) :
    Plain L (Prog.perform o : Prog Op Reply (Reply o)) :=
  ⟨hacquire, hrelease, fun _ => trivial⟩

theorem Plain.bind (hp : Plain L p) (hf : ∀ a, Plain L (f a)) : Plain L (p >>= f) := by
  change Plain L (p.bind f)
  induction p with
  | ret a => exact hf a
  | op o k ih =>
      obtain ⟨hacquire, hrelease, hrest⟩ := hp
      exact ⟨hacquire, hrelease, fun r => ih r (hrest r)⟩

theorem Inside.of_plain (hp : Plain L p) (hf : ∀ a, Inside L (f a)) : Inside L (p >>= f) := by
  change Inside L (p.bind f)
  induction p with
  | ret a => exact hf a
  | op o k ih =>
      obtain ⟨hacquire, hrelease, hrest⟩ := hp
      exact .inr ⟨hacquire, hrelease, fun r => ih r (hrest r)⟩

theorem inside_release (f : Reply L.release → β) :
    Inside L (Prog.perform L.release >>= fun r => (pure (f r) : Prog Op Reply β)) :=
  .inl ⟨rfl, fun r => ⟨f r, rfl⟩⟩

theorem Inside.map (hp : Inside L p) (g : α → β) :
    Inside L (p >>= fun a => (pure (g a) : Prog Op Reply β)) := by
  change Inside L (p.bind _)
  induction p with
  | ret a => exact hp
  | op o k ih =>
      rcases hp with ⟨hrelease, hret⟩ | ⟨hacquire, hrelease, hrest⟩
      · refine .inl ⟨hrelease, fun r => ?_⟩
        obtain ⟨a, ha⟩ := hret r
        refine ⟨g a, ?_⟩
        change (k r).bind _ = _
        rw [ha]
        rfl
      · exact .inr ⟨hacquire, hrelease, fun r => ih r (hrest r)⟩

theorem guarded_acquire {f : Reply L.acquire → Prog Op Reply β} (hf : ∀ r, Inside L (f r)) :
    Guarded L (Prog.perform L.acquire >>= f) :=
  ⟨rfl, hf⟩

theorem Guarded.map (hp : Guarded L p) (g : α → β) :
    Guarded L (p >>= fun a => (pure (g a) : Prog Op Reply β)) := by
  cases p with
  | ret a => trivial
  | op o k =>
      obtain ⟨hacquire, hrest⟩ := hp
      exact ⟨hacquire, fun r => (hrest r).map g⟩

end Shape

/-! ## One call at a time -/

/-- The result and the state after a program. -/
def outcome (exec : (o : Op) → S → Option (Reply o × S)) {α : Type} (p : Prog Op Reply α) (s : S) :
    Option (α × S) :=
  (p.run exec s).map fun r => (r.1, r.2.1)

/-- The replies of calls executed one after the other, and the state after them. -/
def sequential (exec : (o : Op) → S → Option (Reply o × S)) (code : Call → Prog Op Reply R) :
    List Call → S → Option (List R × S)
  | [], s => some ([], s)
  | c :: cs, s => do
      let (r, s) ← outcome exec (code c) s
      let (rs, s) ← sequential exec code cs s
      return (r :: rs, s)

section Sequential

variable {code : Call → Prog Op Reply R} {s s' : S}

theorem outcome_ret {α : Type} (a : α) :
    outcome exec (.ret a : Prog Op Reply α) s = some (a, s) := rfl

theorem outcome_op {α : Type} {o : Op} {k : Reply o → Prog Op Reply α} {r : Reply o}
    (h : exec o s = some (r, s')) : outcome exec (.op o k) s = outcome exec (k r) s' := by
  rw [outcome, outcome, Prog.run, h]
  simp only [Option.map_map]
  rfl

theorem sequential_cons {c : Call} {cs : List Call} {r : R}
    (h : outcome exec (code c) s = some (r, s')) :
    sequential exec code (c :: cs) s =
      (sequential exec code cs s').map fun x => (r :: x.1, x.2) := by
  simp only [sequential, h, Option.bind_eq_bind, Option.bind_some]
  cases sequential exec code cs s' <;> rfl

theorem sequential_concat {cs : List Call} {c : Call} {rs : List R} {r : R} {s'' : S}
    (hcs : sequential exec code cs s = some (rs, s'))
    (hc : outcome exec (code c) s' = some (r, s'')) :
    sequential exec code (cs ++ [c]) s = some (rs ++ [r], s'') := by
  induction cs generalizing s rs with
  | nil =>
      cases hcs
      exact sequential_cons hc
  | cons b cs ih =>
      cases hb : outcome exec (code b) s with
      | none => simp [sequential, hb] at hcs
      | some x =>
          obtain ⟨r', t⟩ := x
          rw [sequential_cons hb] at hcs
          obtain ⟨⟨rs', s₁⟩, hrest, heq⟩ := Option.map_eq_some_iff.mp hcs
          cases heq
          rw [List.cons_append, sequential_cons hb, ih hrest]
          rfl

theorem length_sequential {cs : List Call} {rs : List R}
    (h : sequential exec code cs s = some (rs, s')) : rs.length = cs.length := by
  induction cs generalizing s rs with
  | nil =>
      cases h
      rfl
  | cons b cs ih =>
      cases hb : outcome exec (code b) s with
      | none => simp [sequential, hb] at h
      | some x =>
          obtain ⟨r', t⟩ := x
          rw [sequential_cons hb] at h
          obtain ⟨⟨rs', s₁⟩, hrest, heq⟩ := Option.map_eq_some_iff.mp h
          cases heq
          rw [List.length_cons, List.length_cons, ih hrest]

end Sequential

/-! ## Interleavings -/

/-- The state of the threads `ι`: each has the calls it completed, with their
replies, and possibly a call in progress with the rest of its code.  Two fields
record the run: which threads have taken the lock and not released it, and the
calls in the order in which they took the lock. -/
structure Config (ι Op : Type) (Reply : Op → Type) (S R Call : Type) where
  store : S
  current : ι → Option (Call × Prog Op Reply R)
  history : ι → List (Call × R)
  inside : ι → Bool
  order : List (ι × Call)

/-- No thread has called anything. -/
def Config.initial (s : S) : Config ι Op Reply S R Call where
  store := s
  current := fun _ => none
  history := fun _ => []
  inside := fun _ => false
  order := []

/-- The next call of each thread, from the replies it has had; none if it has finished. -/
abbrev Programs (ι R Call : Type) := ι → List (Call × R) → Option Call

section Threads

variable [DecidableEq ι] (L : Lock exec) (code : Call → Prog Op Reply R)
  (programs : Programs ι R Call)

/-- One step of one thread. -/
inductive Step : Config ι Op Reply S R Call → Config ι Op Reply S R Call → Prop
  | invoke {C i c} : C.current i = none → programs i (C.history i) = some c →
      Step C { C with current := update C.current i (some (c, code c)) }
  | acquire {C i c k r s} : C.current i = some (c, .op L.acquire k) →
      exec L.acquire C.store = some (r, s) →
      Step C
        { C with
          store := s
          current := update C.current i (some (c, k r))
          inside := update C.inside i true
          order := C.order ++ [(i, c)] }
  | spin {C i c k} : C.current i = some (c, .op L.acquire k) → exec L.acquire C.store = none →
      Step C C
  | access {C i c o k r s} : C.current i = some (c, .op o k) → o ≠ L.acquire → o ≠ L.release →
      exec o C.store = some (r, s) →
      Step C { C with store := s, current := update C.current i (some (c, k r)) }
  | release {C i c k r s} : C.current i = some (c, .op L.release k) →
      exec L.release C.store = some (r, s) →
      Step C
        { C with
          store := s
          current := update C.current i (some (c, k r))
          inside := update C.inside i false }
  | finish {C i c r} : C.current i = some (c, .ret r) →
      Step C
        { C with
          current := update C.current i none
          history := update C.history i (C.history i ++ [(c, r)]) }

/-- A run, of any length and under any schedule. -/
abbrev Run := Relation.ReflTransGen (Step L code programs)

/-- The reply a thread is about to deliver. -/
def pending : Option (Call × Prog Op Reply R) → List (Call × R)
  | some (c, .ret r) => [(c, r)]
  | _ => []

/-- The calls of thread `i` that have a reply, delivered or not, in order. -/
def Config.answers (C : Config ι Op Reply S R Call) (i : ι) : List (Call × R) :=
  C.history i ++ pending (C.current i)

/-- The part of thread `i` in the replies to calls executed one at a time. -/
def replies (i : ι) (calls : List (ι × Call)) (rs : List R) : List (Call × R) :=
  ((calls.zip rs).filter fun x => x.1.1 = i).map fun x => (x.1.2, x.2)

/-- Does the call take the lock? -/
def locks (c : Call) : Bool :=
  match code c with
  | .ret _ => false
  | .op _ _ => true

/-- The calls `past` have released the lock: executed one at a time from `s₀`,
they give the replies `rs` that their threads have had, and the state `s`.
Either no thread is inside, and the state is `s`; or one is, in a call whose
remaining code does what the whole call does from `s`. -/
structure Linearized (s₀ : S) (C : Config ι Op Reply S R Call) (past : List (ι × Call))
    (rs : List R) (s : S) : Prop where
  runs : sequential exec code (past.map Prod.snd) s₀ = some (rs, s)
  free : L.Free s
  replies_eq : ∀ i, replies i past rs = (C.answers i).filter fun x => locks code x.1
  unlocked : ∀ i, ∀ x ∈ C.answers i, locks code x.1 = false → code x.1 = .ret x.2
  outside : ∀ i, C.inside i = false → ∀ c p, C.current i = some (c, p) →
    p = code c ∨ ∃ r, p = .ret r
  cases :
    (C.order = past ∧ C.store = s ∧ ∀ i, C.inside i = false) ∨
    ∃ i c p, C.order = past ++ [(i, c)] ∧ locks code c = true ∧ C.current i = some (c, p) ∧
      Inside L p ∧ (∀ j, C.inside j = true ↔ j = i) ∧ ¬ L.Free C.store ∧
      outcome exec p C.store = outcome exec (code c) s

variable {L code programs} {C D : Config ι Op Reply S R Call} {s₀ s : S} {past : List (ι × Call)}
  {rs : List R} {i : ι} {c : Call}

/-- A thread inside that is left to go on reaches the end of its call. -/
theorem Run.leave {p : Prog Op Reply R} {r : R} {s' : S} (hinside : Inside L p)
    (hcurrent : C.current i = some (c, p)) (hrun : outcome exec p C.store = some (r, s')) :
    Run L code programs C
      { C with
        store := s'
        current := update C.current i (some (c, .ret r))
        inside := update C.inside i false } := by
  -- each step leaves less of the code of the call, and none of them is blocked
  induction p generalizing C with
  | ret a => exact absurd hinside id
  | op o k ih =>
      cases hexec : exec o C.store with
      | none => simp [outcome, Prog.run, hexec] at hrun
      | some x =>
          obtain ⟨r₁, s₁⟩ := x
          rw [outcome_op hexec] at hrun
          -- either this is the release, and the call ends, or a plain step inside
          rcases hinside with ⟨rfl, hret⟩ | ⟨hacquire, hrelease, hrest⟩
          · obtain ⟨a, ha⟩ := hret r₁
            rw [ha, outcome_ret] at hrun
            cases hrun
            rw [← ha]
            exact .single (.release hcurrent hexec)
          · have hstep : Step L code programs C
                { C with store := s₁, current := update C.current i (some (c, k r₁)) } :=
              .access hcurrent hacquire hrelease hexec
            have hlast : Run L code programs
                { C with store := s₁, current := update C.current i (some (c, k r₁)) } _ :=
              ih r₁ (hrest r₁) (Function.update_self ..) hrun
            simp only [Function.update_idem] at hlast
            exact .head hstep hlast

/-- A thread that finds the lock free, and is left to go on, completes its call. -/
theorem Run.complete {r : R} {s' : S} (hguarded : Guarded L (code c))
    (hlocks : locks code c = true) (hcurrent : C.current i = some (c, code c))
    (hrun : outcome exec (code c) C.store = some (r, s')) :
    Run L code programs C
      { store := s'
        current := update C.current i none
        history := update C.history i (C.history i ++ [(c, r)])
        inside := update C.inside i false
        order := C.order ++ [(i, c)] } := by
  cases hcode : code c with
  | ret a => simp [locks, hcode] at hlocks
  | op o k =>
      rw [hcode] at hguarded hcurrent hrun
      obtain ⟨rfl, hinside⟩ := hguarded
      cases hexec : exec L.acquire C.store with
      | none => simp [outcome, Prog.run, hexec] at hrun
      | some x =>
          obtain ⟨r₁, s₁⟩ := x
          rw [outcome_op hexec] at hrun
          have hstep : Step L code programs C
              { C with
                store := s₁
                current := update C.current i (some (c, k r₁))
                inside := update C.inside i true
                order := C.order ++ [(i, c)] } := .acquire hcurrent hexec
          have hleave : Run L code programs
              { C with
                store := s₁
                current := update C.current i (some (c, k r₁))
                inside := update C.inside i true
                order := C.order ++ [(i, c)] } _ :=
            Run.leave (hinside r₁) (Function.update_self ..) hrun
          have hfinish : Step L code programs
              { C with
                store := s'
                current := update C.current i (some (c, .ret r))
                inside := update C.inside i false
                order := C.order ++ [(i, c)] } _ := .finish (Function.update_self ..)
          simp only [Function.update_idem] at hleave hfinish
          exact (Relation.ReflTransGen.head hstep hleave).tail hfinish

theorem pending_of_inside {p : Prog Op Reply R} (h : Inside L p) : pending (some (c, p)) = [] := by
  cases p with
  | ret r => exact absurd h id
  | op o k => rfl

theorem locks_of_op {o : Op} {k : Reply o → Prog Op Reply R} (h : code c = .op o k) :
    locks code c = true := by
  rw [locks, h]

theorem answers_update (x : Option (Call × Prog Op Reply R)) (j : ι)
    (hcurrent : D.current = update C.current i x) (hhistory : D.history = C.history) :
    D.answers j = if j = i then C.history i ++ pending x else C.answers j := by
  rw [Config.answers, hcurrent, hhistory, Function.update_apply]
  split_ifs with hj
  · rw [hj]
  · rfl

/-- A step between two states without a reply to deliver changes no answers. -/
theorem answers_update_of_nil {x : Option (Call × Prog Op Reply R)} (j : ι)
    (hcurrent : D.current = update C.current i x) (hhistory : D.history = C.history)
    (hbefore : pending (C.current i) = []) (hafter : pending x = []) :
    D.answers j = C.answers j := by
  rw [answers_update x j hcurrent hhistory, hafter]
  split_ifs with hj
  · rw [hj, Config.answers, hbefore]
  · rfl

theorem replies_concat (j : ι) (hlength : rs.length = past.length) (r : R) :
    replies j (past ++ [(i, c)]) (rs ++ [r]) =
      replies j past rs ++ if i = j then [(c, r)] else [] := by
  rw [replies, List.zip_append hlength.symm, List.filter_append, List.map_append]
  congr 1
  by_cases hij : i = j <;> simp [hij]

/-- A thread that performs an operation other than taking the lock is the one inside. -/
theorem Linearized.inside_of_op (h : Linearized L code s₀ C past rs s)
    (hguarded : ∀ c, Guarded L (code c)) {o : Op} {k : Reply o → Prog Op Reply R}
    (hcurrent : C.current i = some (c, .op o k)) (hacquire : o ≠ L.acquire) :
    C.order = past ++ [(i, c)] ∧ locks code c = true ∧ Inside L (.op o k) ∧
      (∀ j, C.inside j = true ↔ j = i) ∧ ¬ L.Free C.store ∧
      outcome exec (.op o k) C.store = outcome exec (code c) s := by
  -- outside there is only code that takes the lock first, or a reply to deliver
  have hinside : C.inside i = true := by
    by_contra hfalse
    rcases h.outside i (Bool.eq_false_iff.mpr hfalse) c _ hcurrent with hcode | ⟨r, hret⟩
    · have hsection := hguarded c
      rw [← hcode] at hsection
      exact hacquire hsection.1
    · cases hret
  rcases h.cases with ⟨-, -, hnone⟩ | ⟨j, b, p, horder, hlocks, hcur, hp, honly, hrest⟩
  · rw [hnone i] at hinside
    cases hinside
  · obtain rfl := (honly i).mp hinside
    rw [hcurrent] at hcur
    cases hcur
    exact ⟨horder, hlocks, hp, honly, hrest⟩

theorem Linearized.invoke (h : Linearized L code s₀ C past rs s) (hnone : C.current i = none) :
    Linearized L code s₀ { C with current := update C.current i (some (c, code c)) } past rs s := by
  have hanswers := fun j => answers_update (C := C)
    (D := { C with current := update C.current i (some (c, code c)) }) (some (c, code c)) j rfl rfl
  have hbefore : C.answers i = C.history i := by
    rw [Config.answers, hnone]
    exact List.append_nil _
  refine ⟨h.runs, h.free, fun j => ?_, fun j x hx hlocks => ?_, fun j hj b p hcurrent => ?_, ?_⟩
  · rw [h.replies_eq j, hanswers j]
    split_ifs with hji
    · subst hji
      rw [hbefore, List.filter_append]
      cases hcode : code c with
      | ret r =>
          have hlocks : locks code c = false := by rw [locks, hcode]
          simp [pending, hlocks]
      | op o k => simp [pending]
    · rfl
  · rw [hanswers j] at hx
    split_ifs at hx with hji
    · rcases List.mem_append.mp hx with hx | hx
      · exact h.unlocked i x (hbefore ▸ hx) hlocks
      · cases hcode : code c with
        | ret r =>
            rw [hcode] at hx
            obtain rfl := List.mem_singleton.mp hx
            exact hcode
        | op o k =>
            rw [hcode] at hx
            cases hx
    · exact h.unlocked j x hx hlocks
  · change update C.current i _ j = _ at hcurrent
    rw [Function.update_apply] at hcurrent
    split_ifs at hcurrent with hji
    · cases hcurrent
      exact .inl rfl
    · exact h.outside j hj b p hcurrent
  · refine h.cases.imp_right ?_
    rintro ⟨j, b, p, horder, hlocks, hcurrent, hrest⟩
    have hji : j ≠ i := by
      rintro rfl
      rw [hnone] at hcurrent
      cases hcurrent
    exact ⟨j, b, p, horder, hlocks, (Function.update_of_ne hji _ _).trans hcurrent, hrest⟩

theorem Linearized.acquire (h : Linearized L code s₀ C past rs s)
    (hguarded : ∀ c, Guarded L (code c)) {k : Reply L.acquire → Prog Op Reply R}
    {r : Reply L.acquire} {s' : S} (hcurrent : C.current i = some (c, .op L.acquire k))
    (hexec : exec L.acquire C.store = some (r, s')) :
    Linearized L code s₀
      { C with
        store := s'
        current := update C.current i (some (c, k r))
        inside := update C.inside i true
        order := C.order ++ [(i, c)] } past rs s := by
  rcases h.cases with ⟨horder, hstore, hnone⟩ | ⟨-, -, -, -, -, -, -, -, hheld, -⟩
  · -- the lock was free, so the call is at its very start
    have hcode : Prog.op L.acquire k = code c := by
      rcases h.outside i (hnone i) c _ hcurrent with hcode | ⟨r, hret⟩
      · exact hcode
      · cases hret
    have hinside : Inside L (k r) := by
      have hsection := hguarded c
      rw [← hcode] at hsection
      exact hsection.2 r
    have hanswers : ∀ j, Config.answers
        { C with
          store := s'
          current := update C.current i (some (c, k r))
          inside := update C.inside i true
          order := C.order ++ [(i, c)] } j = C.answers j := fun j =>
      answers_update_of_nil j rfl rfl (by rw [hcurrent]; rfl) (pending_of_inside hinside)
    refine ⟨h.runs, h.free, fun j => ?_, fun j x hx => ?_, fun j hj b p hp => ?_, .inr ?_⟩
    · rw [hanswers j]
      exact h.replies_eq j
    · rw [hanswers j] at hx
      exact h.unlocked j x hx
    · have hji : j ≠ i := by
        rintro rfl
        simp at hj
      refine h.outside j (hnone j) b p ?_
      exact (Function.update_of_ne hji _ _).symm.trans hp
    · refine ⟨i, c, k r, by rw [← horder], locks_of_op hcode.symm, Function.update_self .., hinside,
        fun j => ?_, L.not_free_after_acquire _ _ _ hexec, ?_⟩
      · change update C.inside i true j = true ↔ j = i
        by_cases hji : j = i <;> simp [hji, hnone j]
      · rw [← hcode, ← hstore, outcome_op hexec]
  · -- another thread inside would have kept the lock
    exact absurd (L.free_of_acquire _ _ _ hexec) hheld

theorem Linearized.access (h : Linearized L code s₀ C past rs s)
    (hguarded : ∀ c, Guarded L (code c)) {o : Op} {k : Reply o → Prog Op Reply R} {r : Reply o}
    {s' : S} (hcurrent : C.current i = some (c, .op o k)) (hacquire : o ≠ L.acquire)
    (hrelease : o ≠ L.release) (hexec : exec o C.store = some (r, s')) :
    Linearized L code s₀ { C with store := s', current := update C.current i (some (c, k r)) }
      past rs s := by
  obtain ⟨horder, hlocks, hsection, honly, hheld, houtcome⟩ :=
    h.inside_of_op hguarded hcurrent hacquire
  have hinside : Inside L (k r) := by
    rcases hsection with ⟨hrel, -⟩ | ⟨-, -, hrest⟩
    · exact absurd hrel hrelease
    · exact hrest r
  have hanswers : ∀ j, Config.answers
      { C with store := s', current := update C.current i (some (c, k r)) } j = C.answers j :=
    fun j => answers_update_of_nil j rfl rfl (by rw [hcurrent]; rfl) (pending_of_inside hinside)
  refine ⟨h.runs, h.free, fun j => ?_, fun j x hx => ?_, fun j hj b p hp => ?_, .inr ?_⟩
  · rw [hanswers j]
    exact h.replies_eq j
  · rw [hanswers j] at hx
    exact h.unlocked j x hx
  · have hji : j ≠ i := by
      rintro rfl
      rw [(honly j).mpr rfl] at hj
      cases hj
    exact h.outside j hj b p ((Function.update_of_ne hji _ _).symm.trans hp)
  · refine ⟨i, c, k r, horder, hlocks, Function.update_self .., hinside, honly, ?_, ?_⟩
    · rwa [L.free_iff_of_other o hacquire hrelease _ _ _ hexec]
    · rw [← houtcome, outcome_op hexec]

theorem Linearized.release (h : Linearized L code s₀ C past rs s)
    (hguarded : ∀ c, Guarded L (code c)) {k : Reply L.release → Prog Op Reply R}
    {r : Reply L.release} {s' : S} (hcurrent : C.current i = some (c, .op L.release k))
    (hexec : exec L.release C.store = some (r, s')) :
    ∃ a, Linearized L code s₀
      { C with
        store := s'
        current := update C.current i (some (c, k r))
        inside := update C.inside i false } (past ++ [(i, c)]) (rs ++ [a]) s' := by
  obtain ⟨horder, hlocks, hsection, honly, -, houtcome⟩ :=
    h.inside_of_op hguarded hcurrent L.release_ne_acquire
  -- behind the release there is nothing but the reply
  obtain ⟨a, ha⟩ : ∃ a, k r = .ret a := by
    rcases hsection with ⟨-, hret⟩ | ⟨-, hne, -⟩
    · exact hret r
    · exact absurd rfl hne
  rw [outcome_op hexec, ha, outcome_ret] at houtcome
  have hbefore : C.answers i = C.history i := by
    rw [Config.answers, hcurrent]
    exact List.append_nil _
  have hanswers := fun j => answers_update (C := C)
    (D :=
      { C with
        store := s'
        current := update C.current i (some (c, k r))
        inside := update C.inside i false }) (some (c, k r)) j rfl rfl
  -- the call joins those that are over, with the state it leaves as theirs
  refine ⟨a, ?_, L.free_after_release _ _ _ hexec, fun j => ?_, fun j x hx hfalse => ?_,
    fun j hj b p hp => ?_, .inl ⟨horder, rfl, fun j => ?_⟩⟩
  · rw [List.map_append]
    exact sequential_concat h.runs houtcome.symm
  · have hlength := (length_sequential h.runs).trans (List.length_map _)
    rw [replies_concat j hlength, h.replies_eq j, hanswers j, ha]
    by_cases hji : j = i
    · subst hji
      simp [hbefore, pending, hlocks]
    · simp [hji, Ne.symm hji]
  · rw [hanswers j, ha] at hx
    split_ifs at hx with hji
    · rcases List.mem_append.mp hx with hx | hx
      · exact h.unlocked i x (hbefore ▸ hx) hfalse
      · obtain rfl := List.mem_singleton.mp hx
        rw [hlocks] at hfalse
        cases hfalse
    · exact h.unlocked j x hx hfalse
  · change update C.current i _ j = _ at hp
    rw [Function.update_apply] at hp
    split_ifs at hp with hji
    · cases hp
      exact .inr ⟨a, ha⟩
    · refine h.outside j ?_ b p hp
      exact (Function.update_of_ne hji _ _).symm.trans hj
  · change update C.inside i false j = false
    by_cases hji : j = i
    · rw [hji, Function.update_self]
    · rw [Function.update_of_ne hji]
      exact Bool.eq_false_iff.mpr fun htrue => hji ((honly j).mp htrue)

theorem Linearized.finish (h : Linearized L code s₀ C past rs s) {r : R}
    (hcurrent : C.current i = some (c, .ret r)) :
    Linearized L code s₀
      { C with
        current := update C.current i none
        history := update C.history i (C.history i ++ [(c, r)]) } past rs s := by
  have hanswers : ∀ j, Config.answers
      { C with
        current := update C.current i none
        history := update C.history i (C.history i ++ [(c, r)]) } j = C.answers j := by
    intro j
    by_cases hji : j = i
    · subst hji
      simp [Config.answers, hcurrent, pending]
    · simp [Config.answers, hji]
  refine ⟨h.runs, h.free, fun j => ?_, fun j x hx => ?_, fun j hj b p hp => ?_, ?_⟩
  · rw [hanswers j]
    exact h.replies_eq j
  · rw [hanswers j] at hx
    exact h.unlocked j x hx
  · change update C.current i none j = some (b, p) at hp
    rw [Function.update_apply] at hp
    split_ifs at hp
    exact h.outside j hj b p hp
  · refine h.cases.imp_right ?_
    rintro ⟨j, b, p, horder, hlocks, hcur, hinside, hrest⟩
    have hji : j ≠ i := by
      rintro rfl
      rw [hcurrent] at hcur
      cases hcur
      exact hinside
    exact ⟨j, b, p, horder, hlocks, (Function.update_of_ne hji _ _).trans hcur, hinside, hrest⟩

/-- What one step of one thread preserves. -/
theorem Linearized.step (h : Linearized L code s₀ C past rs s)
    (hguarded : ∀ c, Guarded L (code c)) (hstep : Step L code programs C D) :
    ∃ past rs s, Linearized L code s₀ D past rs s := by
  cases hstep with
  | invoke hnone _ => exact ⟨past, rs, s, h.invoke hnone⟩
  | acquire hcurrent hexec => exact ⟨past, rs, s, h.acquire hguarded hcurrent hexec⟩
  | spin _ _ => exact ⟨past, rs, s, h⟩
  | access hcurrent hacquire hrelease hexec =>
      exact ⟨past, rs, s, h.access hguarded hcurrent hacquire hrelease hexec⟩
  | release hcurrent hexec =>
      obtain ⟨a, hreleased⟩ := h.release hguarded hcurrent hexec
      exact ⟨_, _, _, hreleased⟩
  | finish hcurrent => exact ⟨past, rs, s, h.finish hcurrent⟩

theorem linearized_initial (hfree : L.Free s₀) :
    Linearized L code s₀ (.initial s₀ : Config ι Op Reply S R Call) [] [] s₀ :=
  ⟨rfl, hfree, fun _ => rfl, fun _ _ hx => absurd hx List.not_mem_nil,
    fun _ _ _ _ hcurrent => absurd hcurrent nofun, .inl ⟨rfl, rfl, fun _ => rfl⟩⟩

/-- **Calls whose code is guarded by a lock are executed one at a time**, in the
order in which they take it, under every schedule of any number of threads. -/
theorem Run.linearized (hguarded : ∀ c, Guarded L (code c)) (hfree : L.Free s₀)
    (h : Run L code programs (.initial s₀) C) : ∃ past rs s, Linearized L code s₀ C past rs s := by
  induction h with
  | refl => exact ⟨[], [], s₀, linearized_initial hfree⟩
  | tail _ hstep ih =>
      obtain ⟨past, rs, s, hlinearized⟩ := ih
      exact hlinearized.step hguarded hstep

/-! ## Mutual exclusion -/

theorem Linearized.exclusive (h : Linearized L code s₀ C past rs s) {i j : ι}
    (hi : C.inside i = true) (hj : C.inside j = true) : i = j := by
  rcases h.cases with ⟨-, -, hnone⟩ | ⟨k, -, -, -, -, -, -, honly, -⟩
  · rw [hnone i] at hi
    cases hi
  · exact ((honly i).mp hi).trans ((honly j).mp hj).symm

theorem Linearized.free_iff (h : Linearized L code s₀ C past rs s) :
    L.Free C.store ↔ ∀ i, C.inside i = false := by
  rcases h.cases with ⟨-, hstore, hnone⟩ | ⟨k, -, -, -, -, -, -, honly, hheld, -⟩
  · rw [hstore]
    exact iff_of_true h.free hnone
  · refine iff_of_false hheld fun hnone => ?_
    have hinside := (honly k).mpr rfl
    rw [hnone k] at hinside
    cases hinside

/-! ## Calls that do not take the lock -/

/-- Two lists of answers to the same calls agree if they agree on the calls that
take the lock, and the other replies are those of the code. -/
theorem answers_ext {l l' : List (Call × R)} (hcalls : l.map Prod.fst = l'.map Prod.fst)
    (hlocks : (l.filter fun x => locks code x.1) = l'.filter fun x => locks code x.1)
    (hl : ∀ x ∈ l, locks code x.1 = false → code x.1 = .ret x.2)
    (hl' : ∀ x ∈ l', locks code x.1 = false → code x.1 = .ret x.2) : l = l' := by
  induction l generalizing l' with
  | nil =>
      cases l' with
      | nil => rfl
      | cons x' l' => cases hcalls
  | cons x l ih =>
      cases l' with
      | nil => cases hcalls
      | cons x' l' =>
          obtain ⟨c, r⟩ := x
          obtain ⟨c', r'⟩ := x'
          obtain ⟨rfl, hrest⟩ := List.cons.inj hcalls
          have hhead := hl (c, r) List.mem_cons_self
          have hhead' := hl' (c, r') List.mem_cons_self
          have htail : ∀ x ∈ l, locks code x.1 = false → code x.1 = .ret x.2 :=
            fun x hx => hl x (List.mem_cons_of_mem _ hx)
          have htail' : ∀ x ∈ l', locks code x.1 = false → code x.1 = .ret x.2 :=
            fun x hx => hl' x (List.mem_cons_of_mem _ hx)
          rw [List.filter_cons, List.filter_cons] at hlocks
          cases hc : locks code c with
          | false =>
              simp only [hc, Bool.false_eq_true, if_false] at hlocks
              obtain rfl : r = r' := Prog.ret.inj ((hhead hc).symm.trans (hhead' hc))
              rw [ih hrest hlocks htail htail']
          | true =>
              simp only [hc, if_true] at hlocks
              obtain ⟨heq, hfilter⟩ := List.cons.inj hlocks
              rw [heq, ih hrest hfilter htail htail']

omit [DecidableEq ι] in
/-- Calls that do not take the lock may be put anywhere between the others. -/
theorem sequential_of_filter {calls : List (ι × Call)} {t : S}
    (h : sequential exec code ((calls.filter fun x => locks code x.2).map Prod.snd) t =
      some (rs, s)) :
    ∃ rs', sequential exec code (calls.map Prod.snd) t = some (rs', s) ∧
      ((calls.zip rs').filter fun x => locks code x.1.2) =
        (calls.filter fun x => locks code x.2).zip rs ∧
      ∀ x ∈ calls.zip rs', locks code x.1.2 = false → code x.1.2 = .ret x.2 := by
  -- a call without the lock leaves the state alone and replies with its code
  induction calls generalizing t rs with
  | nil =>
      cases h
      exact ⟨[], rfl, rfl, fun x hx => absurd hx List.not_mem_nil⟩
  | cons x calls ih =>
      obtain ⟨i, c⟩ := x
      rw [List.filter_cons] at h ⊢
      cases hc : code c with
      | ret r =>
          have hlocks : locks code c = false := by rw [locks, hc]
          simp only [hlocks, Bool.false_eq_true, if_false] at h ⊢
          obtain ⟨rs', hrun, hfilter, hrest⟩ := ih h
          have hcode : outcome exec (code c) t = some (r, t) := by rw [hc, outcome_ret]
          refine ⟨r :: rs', ?_, ?_, ?_⟩
          · rw [List.map_cons, sequential_cons hcode, hrun]
            rfl
          · rw [List.zip_cons_cons, List.filter_cons]
            simp only [hlocks, Bool.false_eq_true, if_false]
            exact hfilter
          · rw [List.zip_cons_cons]
            exact List.forall_mem_cons.mpr ⟨fun _ => hc, hrest⟩
      | op o k =>
          have hlocks : locks code c = true := locks_of_op hc
          simp only [hlocks, if_true] at h ⊢
          rw [List.map_cons] at h
          cases hcode : outcome exec (code c) t with
          | none => simp [sequential, hcode] at h
          | some y =>
              obtain ⟨r, t'⟩ := y
              rw [sequential_cons hcode] at h
              obtain ⟨⟨rs₁, s₁⟩, hrest, heq⟩ := Option.map_eq_some_iff.mp h
              cases heq
              obtain ⟨rs', hrun, hfilter, hunlocked⟩ := ih hrest
              refine ⟨r :: rs', ?_, ?_, ?_⟩
              · rw [List.map_cons, sequential_cons hcode, hrun]
                rfl
              · rw [List.zip_cons_cons, List.filter_cons]
                simp only [hlocks, if_true, List.zip_cons_cons, hfilter]
              · rw [List.zip_cons_cons]
                refine List.forall_mem_cons.mpr ⟨fun hfalse => ?_, hunlocked⟩
                rw [hlocks] at hfalse
                cases hfalse

/-- All answers of all threads, in any order of the calls that keeps the order of
each thread and the order in which the lock was taken. -/
theorem Linearized.answers_eq (h : Linearized L code s₀ C past rs s) {calls : List (ι × Call)}
    (hpast : (calls.filter fun x => locks code x.2) = past)
    (hcalls : ∀ i, ((calls.filter fun x => x.1 = i).map Prod.snd) = (C.answers i).map Prod.fst) :
    ∃ rs', sequential exec code (calls.map Prod.snd) s₀ = some (rs', s) ∧
      ∀ i, replies i calls rs' = C.answers i := by
  subst hpast
  obtain ⟨rs', hrun, hfilter, hunlocked⟩ := sequential_of_filter h.runs
  have hlength : calls.length ≤ rs'.length := by
    rw [length_sequential hrun, List.length_map]
  refine ⟨rs', hrun, fun i => answers_ext ?_ ?_ ?_ (h.unlocked i)⟩
  · rw [← hcalls i, replies, List.map_map]
    conv_rhs => rw [← List.map_fst_zip hlength, List.filter_map, List.map_map]
    rfl
  · rw [← h.replies_eq i, replies, replies, ← hfilter, List.filter_map, List.filter_filter,
      List.filter_filter]
    simp only [Function.comp_def, Bool.and_comm]
  · intro x hx hlocks
    obtain ⟨y, hy, rfl⟩ := List.mem_map.mp hx
    exact hunlocked y (List.mem_of_mem_filter hy) hlocks

end Threads

end SpinLock
