import Mytilus.Prng.RandomRuns

/-!
# Sessions over several state buffers

A session is a run of the code in which a program hands its own, disjoint buffers
to `initstate` and to `setstate` only pointers it has in hand.  The history of a
session is the calls made and their replies, latest first.  `eventsOn p` is the
part of a history that concerns one buffer: what a run with that buffer alone
would consist of.

`Tracks` is what the bank that simulates a session has to do with its history, and
`Tracks.call` that every permitted call keeps it: on the buffer `p` the bank is where
the calls on `p` alone would have brought it.  `session_independent` follows: the
values drawn from a buffer are those of its own calls, however the program goes back
and forth between buffers.  `Session.next` says that a permitted call goes through,
so a session is stopped by nothing but its program.
-/

namespace Mytilus.Prng.Random

open Memory

/-! ## Sessions -/

/-- State buffers of a program: within the address space, and apart from each
other and from the built-in table. -/
structure Pool (table : Addr) where
  buffers : List (Addr × ℕ)
  fits : ∀ a ∈ buffers, a.1.toNat + a.2 ≤ 2 ^ 64
  apart : ((table, 128) :: buffers).Pairwise fun a a' => Beside a.1 a.2 a'.1 a'.2

abbrev Event := Call × Reply

/-- The pointers in hand: buffers `initstate` has produced and pointers calls have returned. -/
def Known (h : List Event) (p : Addr) : Prop :=
  (∃ seed size r, 8 ≤ size ∧ (.initstate seed p size, r) ∈ h) ∨ p ≠ 0 ∧ ∃ c, (c, .ptr p) ∈ h

def Pool.Permits {table : Addr} (P : Pool table) (h : List Event) : Call → Prop
  | .initstate _ p size => size < 8 ∨ ∃ m, (p, m) ∈ P.buffers ∧ size.toNat ≤ m
  | .setstate p => Known h p
  | _ => True

inductive Session {table : Addr} (P : Pool table) (mem : Memory) : List Event → Store → Prop
  | start : Session P mem [] (start mem)
  | call {h s s' c r log} (hs : Session P mem h s) (hc : P.Permits h c)
      (hrun : (c.code table).run exec s = some (r, s', log)) : Session P mem ((c, r) :: h) s'

/-- The buffer that is active after a history. -/
def activeAfter (table : Addr) : List Event → Addr
  | [] => table
  | (.initstate _ p size, _) :: h => if size < 8 then activeAfter table h else p
  | (.setstate p, _) :: _ => p
  | _ :: h => activeAfter table h

/-- With `active` the active buffer, the call is a use of the buffer at `p` or fills it anew. -/
def Call.On (active p : Addr) : Call → Prop
  | .random | .srandom _ => p = active
  | .initstate _ q size => p = q ∧ 8 ≤ size
  | .setstate _ => False

instance (active p : Addr) : (c : Call) → Decidable (c.On active p)
  | .random | .srandom _ => inferInstanceAs (Decidable (p = active))
  | .initstate _ q size => inferInstanceAs (Decidable (p = q ∧ 8 ≤ size))
  | .setstate _ => inferInstanceAs (Decidable False)

/-- What happens on the buffer at `p`, in order. -/
def eventsOn (table p : Addr) : List Event → List Event
  | [] => []
  | (c, r) :: h =>
      if c.On (activeAfter table h) p then eventsOn table p h ++ [(c, r)] else eventsOn table p h

/-- The calls made on the buffer at `p`, in order. -/
def callsOn (table p : Addr) (h : List Event) : List Call := (eventsOn table p h).map Prod.fst

/-- The values among replies. -/
def longs (rs : List Reply) : List (BitVec 64) :=
  rs.filterMap fun
    | .long v => some v
    | _ => none

/-- The values `random` returned while the buffer at `p` was active, in order. -/
def valuesOn (table p : Addr) (h : List Event) : List (BitVec 64) :=
  longs ((eventsOn table p h).map Prod.snd)

/-- The reply to a call and its effect, as far as pointers go: `initstate` and
`setstate` return the buffer that was active, or null when nothing changes. -/
def Answers (active : Addr) (s : Store) (r : Reply) (s' : Store) : Call → Prop
  | .random => ∃ v, r = .long v
  | .srandom _ => r = .void
  | .initstate _ _ size => if size < 8 then r = .ptr 0 ∧ s' = s else r = .ptr active
  | .setstate _ => r = .ptr active

/-! ## Tracking a session -/

/-- What the bank that simulates a session has to do with its history. -/
structure Tracks {table : Addr} (P : Pool table) (h : List Event) (b : Bank) : Prop where
  active : b.active = activeAfter table h
  owned : ∀ p m, b.size p = some m → ∃ k, (p, k) ∈ (table, 128) :: P.buffers ∧ m ≤ k
  known : ∀ p, Known h p → (b.size p).isSome
  allowed : ∀ p, (Bank.start table).Allowed (callsOn table p h)
  solo : ∀ p, (b.size p).isSome →
    ((Bank.start table).calls (callsOn table p h)).2.active = p ∧
      ((Bank.start table).calls (callsOn table p h)).2.gen p = b.gen p
  replies : ∀ p, longs ((Bank.start table).calls (callsOn table p h)).1 = valuesOn table p h

section Tracking

variable {table : Addr} {P : Pool table} {h : List Event} {b : Bank} {p : Addr}

theorem Beside.mono {p q : Addr} {m n m' n' : ℕ} (h : Beside p m q n) (hm : m' ≤ m) (hn : n' ≤ n) :
    Beside p m' q n' := by
  unfold Beside at h ⊢
  omega

/-- Different buffers of the pool, or one of them and the table, are beside each other. -/
theorem Pool.beside (P : Pool table) {a a' : Addr × ℕ} (ha : a ∈ (table, 128) :: P.buffers)
    (ha' : a' ∈ (table, 128) :: P.buffers) (hne : a.1 ≠ a'.1) : Beside a.1 a.2 a'.1 a'.2 := by
  have : Std.Symm fun a a' : Addr × ℕ => Beside a.1 a.2 a'.1 a'.2 := ⟨fun _ _ h => h.symm⟩
  exact P.apart.forall ha ha' fun heq => hne (congrArg Prod.fst heq)

theorem callsOn_of_on {c : Call} {r : Reply} (hon : c.On (activeAfter table h) p) :
    callsOn table p ((c, r) :: h) = callsOn table p h ++ [c] := by
  rw [callsOn, eventsOn, if_pos hon, List.map_append]
  rfl

theorem callsOn_of_not_on {c : Call} {r : Reply} (hon : ¬ c.On (activeAfter table h) p) :
    callsOn table p ((c, r) :: h) = callsOn table p h := by
  rw [callsOn, eventsOn, if_neg hon]
  rfl

theorem valuesOn_of_on {c : Call} {r : Reply} (hon : c.On (activeAfter table h) p) :
    valuesOn table p ((c, r) :: h) = valuesOn table p h ++ longs [r] := by
  rw [valuesOn, eventsOn, if_pos hon, List.map_append, longs, List.filterMap_append]
  rfl

theorem valuesOn_of_not_on {c : Call} {r : Reply} (hon : ¬ c.On (activeAfter table h) p) :
    valuesOn table p ((c, r) :: h) = valuesOn table p h := by
  rw [valuesOn, eventsOn, if_neg hon]
  rfl

theorem Tracks.allows (htracks : Tracks P h b) {c : Call} (hc : P.Permits h c) : b.Allows c := by
  cases c with
  | random | srandom => trivial
  | initstate seed p size =>
      intro hsize
      rcases hc with hsmall | ⟨m, hmem, hm⟩
      · exact absurd hsmall (BitVec.not_lt.mpr hsize)
      · have hfits : p.toNat + m ≤ 2 ^ 64 := P.fits _ hmem
        omega
  | setstate p => exact htracks.known p hc

/-- `initstate` on a buffer of the pool leaves the other live buffers live. -/
theorem Tracks.size_call_of_ne (htracks : Tracks P h b) {c : Call} (hc : P.Permits h c) {m : ℕ}
    (hp : b.size p = some m) (hne : ∀ seed size, c ≠ .initstate seed p size) :
    (b.call c).2.size p = some m := by
  cases c with
  | random | srandom | setstate => exact hp
  | initstate seed q size =>
      by_cases hsmall : size < 8
      · rw [Bank.call, if_pos hsmall]
        exact hp
      · have hpq : p ≠ q := fun heq => hne seed size (by rw [heq])
        obtain ⟨k, hmem, hm⟩ := hc.resolve_left hsmall
        obtain ⟨l, hmem', hl⟩ := htracks.owned p m hp
        have hbeside := P.beside hmem' (List.mem_cons_of_mem _ hmem) hpq
        rw [Bank.call, if_neg hsmall]
        refine (Bank.size_install_of_ne _ _ hpq).trans ?_
        rw [hp, Option.filter_some, if_pos (decide_eq_true (hbeside.mono hl hm))]

theorem Tracks.isSome_call (htracks : Tracks P h b) {c : Call} (hc : P.Permits h c)
    (hp : (b.size p).isSome) : ((b.call c).2.size p).isSome := by
  obtain ⟨m, hm⟩ := Option.isSome_iff_exists.mp hp
  by_cases hne : ∀ seed size, c ≠ .initstate seed p size
  · rw [htracks.size_call_of_ne hc hm hne]
    rfl
  · push Not at hne
    obtain ⟨seed, size, rfl⟩ := hne
    by_cases hsmall : size < 8
    · rw [Bank.call, if_pos hsmall]
      exact hp
    · rw [Bank.call, if_neg hsmall]
      change ((b.install p size.toNat _).size p).isSome
      rw [Bank.size_install_self]
      rfl

/-- A call that is not on a buffer leaves its generator alone, and makes nothing live. -/
theorem Bank.call_of_not_on {c : Call} (hon : ¬ c.On b.active p)
    (hp : ((b.call c).2.size p).isSome) :
    (b.size p).isSome ∧ (b.call c).2.gen p = b.gen p := by
  cases c with
  | random | srandom => exact ⟨hp, gen_set_of_ne _ hon⟩
  | initstate seed q size =>
      by_cases hsmall : size < 8
      · rw [Bank.call, if_pos hsmall] at hp ⊢
        exact ⟨hp, rfl⟩
      · have hpq : p ≠ q := fun heq => hon ⟨heq, BitVec.not_lt.mp hsmall⟩
        rw [Bank.call, if_neg hsmall] at hp ⊢
        obtain ⟨m, hm⟩ := Option.isSome_iff_exists.mp hp
        rcases size_install hm with ⟨heq, -⟩ | ⟨-, hsize, -⟩
        · exact absurd heq hpq
        · exact ⟨Option.isSome_iff_exists.mpr ⟨m, hsize⟩, gen_install_of_ne _ _ hpq⟩
  | setstate q => exact ⟨hp, rfl⟩

/-- A call on a buffer does the same to two banks that agree on it. -/
theorem Bank.call_of_on {b₁ : Bank} {c : Call} (hon : c.On b.active p)
    (hagree : (b.size p).isSome → b₁.active = p ∧ b₁.gen p = b.gen p)
    (hvalid : (b.size b.active).isSome) :
    b₁.Allows c = b.Allows c ∧ (b₁.call c).2.active = p ∧
      (b₁.call c).2.gen p = (b.call c).2.gen p ∧ longs [(b₁.call c).1] = longs [(b.call c).1] := by
  cases c with
  | random =>
      obtain rfl : p = b.active := hon
      obtain ⟨hactive, hgen⟩ := hagree hvalid
      refine ⟨rfl, hactive, ?_, ?_⟩
      · change (b₁.set _).gen b.active = (b.set _).gen b.active
        rw [gen_set_active, ← hactive, gen_set_active, hactive, hgen]
      · change longs [.long (b₁.gen b₁.active).next.1] = _
        rw [hactive, hgen]
        rfl
  | srandom seed =>
      obtain rfl : p = b.active := hon
      obtain ⟨hactive, hgen⟩ := hagree hvalid
      refine ⟨rfl, hactive, ?_, rfl⟩
      change (b₁.set _).gen b.active = (b.set _).gen b.active
      rw [gen_set_active, ← hactive, gen_set_active, hactive, hgen]
  | initstate seed q size =>
      obtain ⟨rfl, hsize⟩ := hon
      have hsmall : ¬ size < 8 := BitVec.not_lt.mpr hsize
      simp only [Bank.call, if_neg hsmall]
      exact ⟨rfl, rfl, (gen_install_self p _ _).trans (gen_install_self p _ _).symm, rfl⟩
  | setstate q => exact hon.elim

theorem Tracks.owned_call (htracks : Tracks P h b) {c : Call} (hc : P.Permits h c) {m : ℕ}
    (hp : (b.call c).2.size p = some m) : ∃ k, (p, k) ∈ (table, 128) :: P.buffers ∧ m ≤ k := by
  cases c with
  | random | srandom | setstate => exact htracks.owned p m hp
  | initstate seed q size =>
      by_cases hsmall : size < 8
      · rw [Bank.call, if_pos hsmall] at hp
        exact htracks.owned p m hp
      · rw [Bank.call, if_neg hsmall] at hp
        rcases Bank.size_install hp with ⟨rfl, rfl⟩ | ⟨-, hsize, -⟩
        · obtain ⟨k, hmem, hk⟩ := hc.resolve_left hsmall
          exact ⟨k, List.mem_cons_of_mem _ hmem, hk⟩
        · exact htracks.owned p m hsize

theorem Tracks.active_call (htracks : Tracks P h b) (c : Call) (r : Reply) :
    (b.call c).2.active = activeAfter table ((c, r) :: h) := by
  cases c with
  | random | srandom => exact htracks.active
  | initstate seed q size =>
      by_cases hsmall : size < 8
      · rw [Bank.call, if_pos hsmall, activeAfter, if_pos hsmall]
        exact htracks.active
      · rw [Bank.call, if_neg hsmall, activeAfter, if_neg hsmall]
        rfl
  | setstate q => rfl

/-- What becomes known is live: a buffer just filled, or the one that was active. -/
theorem Tracks.known_call (htracks : Tracks P h b) (hvalid : (b.size b.active).isSome) {c : Call}
    (hc : P.Permits h c) (hp : Known ((c, (b.call c).1) :: h) p) :
    ((b.call c).2.size p).isSome := by
  rcases hp with ⟨seed, size, r, hsize, hmem⟩ | ⟨hne, c', hmem⟩
  · rcases List.mem_cons.mp hmem with heq | hmem
    · obtain rfl : Call.initstate seed p size = c := congrArg Prod.fst heq
      rw [Bank.call, if_neg (BitVec.not_lt.mpr hsize)]
      change ((b.install p size.toNat _).size p).isSome
      rw [Bank.size_install_self]
      rfl
    · exact htracks.isSome_call hc (htracks.known p (.inl ⟨seed, size, r, hsize, hmem⟩))
  · rcases List.mem_cons.mp hmem with heq | hmem
    · have hreply : Reply.ptr p = (b.call c).1 := congrArg Prod.snd heq
      suffices hactive : p = b.active by
        subst hactive
        exact htracks.isSome_call hc hvalid
      cases c with
      | random | srandom => cases hreply
      | initstate seed q size =>
          by_cases hsmall : size < 8
          · rw [Bank.call, if_pos hsmall] at hreply
            exact absurd (Reply.ptr.inj hreply) hne
          · rw [Bank.call, if_neg hsmall] at hreply
            exact Reply.ptr.inj hreply
      | setstate q => exact Reply.ptr.inj hreply
    · exact htracks.isSome_call hc (htracks.known p (.inr ⟨hne, c', hmem⟩))

theorem Tracks.call (htracks : Tracks P h b) (hvalid : (b.size b.active).isSome) {c : Call}
    (hc : P.Permits h c) : Tracks P ((c, (b.call c).1) :: h) (b.call c).2 where
  active := htracks.active_call c _
  owned := fun p m hp => htracks.owned_call hc hp
  known := fun p hp => htracks.known_call hvalid hc hp
  allowed := by
    intro p
    by_cases hon : c.On (activeAfter table h) p
    · have hon' : c.On b.active p := by rwa [htracks.active]
      rw [callsOn_of_on hon, Bank.allowed_append]
      refine ⟨htracks.allowed p, ?_, trivial⟩
      rw [(Bank.call_of_on hon' (htracks.solo p) hvalid).1]
      exact htracks.allows hc
    · rw [callsOn_of_not_on hon]
      exact htracks.allowed p
  solo := by
    intro p hp
    by_cases hon : c.On (activeAfter table h) p
    · have hon' : c.On b.active p := by rwa [htracks.active]
      -- a call on the buffer does there what it does in a run with that buffer alone
      have hstep := Bank.call_of_on hon' (htracks.solo p) hvalid
      rw [callsOn_of_on hon, Bank.calls_append]
      exact ⟨hstep.2.1, hstep.2.2.1⟩
    · have hon' : ¬ c.On b.active p := by rwa [htracks.active]
      -- any other call leaves the generator of the buffer as it is
      obtain ⟨hlive, hgen⟩ := Bank.call_of_not_on hon' hp
      rw [callsOn_of_not_on hon, hgen]
      exact htracks.solo p hlive
  replies := by
    intro p
    by_cases hon : c.On (activeAfter table h) p
    · have hon' : c.On b.active p := by rwa [htracks.active]
      have hstep := Bank.call_of_on hon' (htracks.solo p) hvalid
      rw [callsOn_of_on hon, valuesOn_of_on hon, Bank.calls_append, longs, List.filterMap_append,
        ← longs, ← longs, htracks.replies p]
      exact congrArg (_ ++ ·) hstep.2.2.2
    · rw [callsOn_of_not_on hon, valuesOn_of_not_on hon]
      exact htracks.replies p

theorem tracks_start (P : Pool table) : Tracks P [] (Bank.start table) where
  active := rfl
  owned := by
    intro p m hp
    obtain ⟨rfl, rfl⟩ := Bank.size_start hp
    exact ⟨128, List.mem_cons_self, le_rfl⟩
  known := by
    rintro p (⟨seed, size, r, -, hmem⟩ | ⟨-, c, hmem⟩)
    · cases hmem
    · cases hmem
  allowed := fun _ => trivial
  solo := by
    intro p hp
    obtain ⟨m, hm⟩ := Option.isSome_iff_exists.mp hp
    exact ⟨(Bank.size_start hm).1.symm, rfl⟩
  replies := fun _ => rfl

/-- Every session is simulated by a bank that tracks its history. -/
theorem Session.tracks {mem : Memory} (hload : Loaded table mem) {s : Store}
    (hs : Session P mem h s) : ∃ b, Sim table s b ∧ Tracks P h b := by
  induction hs with
  | start => exact ⟨_, sim_start hload, tracks_start P⟩
  | call _ hc hrun ih =>
      obtain ⟨b, hsim, htracks⟩ := ih
      obtain ⟨r, s', log, hrun', ⟨rfl, hsim'⟩, -⟩ :=
        Prog.runs_iff.mp (hsim.does_call (htracks.allows hc))
      rw [hrun'] at hrun
      cases hrun
      exact ⟨_, hsim', htracks.call hsim.valid.active hc⟩

/-- A permitted call runs to its end and answers with the active buffer. -/
theorem Sim.answers {s : Store} (hsim : Sim table s b) {c : Call} (hc : b.Allows c) :
    ∃ r s' log, (c.code table).run exec s = some (r, s', log) ∧ Answers b.active s r s' c := by
  obtain ⟨r, s', log, hrun, ⟨rfl, -⟩, -⟩ := Prog.runs_iff.mp (hsim.does_call hc)
  refine ⟨_, s', log, hrun, ?_⟩
  cases c with
  | random => exact ⟨_, rfl⟩
  | srandom | setstate => rfl
  | initstate seed p size =>
      by_cases hsmall : size < 8
      · rw [Answers, if_pos hsmall, Bank.call, if_pos hsmall]
        rw [Call.code, initstate_small hsmall, Bank.call, if_pos hsmall] at hrun
        cases hrun
        exact ⟨rfl, rfl⟩
      · rw [Answers, if_neg hsmall, Bank.call, if_neg hsmall]

/-- A session goes on with any call that is permitted. -/
theorem Session.next {mem : Memory} (hload : Loaded table mem) {s : Store}
    (hs : Session P mem h s) {c : Call} (hc : P.Permits h c) :
    ∃ r s', Session P mem ((c, r) :: h) s' ∧ Answers (activeAfter table h) s r s' c := by
  obtain ⟨b, hsim, htracks⟩ := hs.tracks hload
  obtain ⟨r, s', log, hrun, hanswers⟩ := hsim.answers (htracks.allows hc)
  rw [htracks.active] at hanswers
  exact ⟨r, s', .call hs hc hrun, hanswers⟩

end Tracking

/-- In every session, what `random` returns while a buffer is active is what it
returns in the run of only the calls on that buffer; every permitted call runs,
and `initstate` and `setstate` return the buffer that was active, but null for a
size below 8, with which `initstate` performs no operation. -/
theorem session_independent {table : Addr} {mem : Memory} (hload : Loaded table mem)
    {P : Pool table} {h : List Event} {s : Store} (hs : Session P mem h s) :
    At table s (activeAfter table h) ∧
      (∀ p, ∃ rs t, runCalls table (callsOn table p h) (start mem) = some (rs, t) ∧
        longs rs = valuesOn table p h) ∧
      ∀ c, P.Permits h c → ∃ r s' log, (c.code table).run exec s = some (r, s', log) ∧
        Answers (activeAfter table h) s r s' c := by
  obtain ⟨b, hsim, htracks⟩ := hs.tracks hload
  rw [← htracks.active]
  refine ⟨hsim.x, fun p => ?_, fun c hc => ?_⟩
  · obtain ⟨t, hrun, -⟩ := (sim_start hload).runCalls (htracks.allowed p)
    exact ⟨_, t, hrun, htracks.replies p⟩
  · exact hsim.answers (htracks.allows hc)

/-- A draw from a buffer, one from the table in between, and another from the buffer:
the first and the last are those of a run without the one between them. -/
theorem session_independent_back :
    ∃ (P : Pool 0x1000) (s : Store) (v₁ v₂ v₃ : BitVec 64),
      Session P (image 0x1000)
        [(.random, .long v₃), (.setstate 0x2000, .ptr 0x1000), (.random, .long v₂),
          (.setstate 0x1000, .ptr 0x2000), (.random, .long v₁),
          (.initstate 5 0x2000 64, .ptr 0x1000)] s ∧
      At 0x1000 s 0x2000 ∧
      (∃ rs t, runCalls 0x1000 [.initstate 5 0x2000 64, .random, .random]
        (start (image 0x1000)) = some (rs, t) ∧ longs rs = [v₁, v₃]) ∧
      ∃ rs t, runCalls 0x1000 [.random] (start (image 0x1000)) = some (rs, t) ∧
        longs rs = [v₂] := by
  obtain ⟨P, hP⟩ : ∃ P : Pool 0x1000, (0x2000, 64) ∈ P.buffers :=
    ⟨⟨[(0x2000, 64)], by decide, by decide⟩, List.mem_cons_self⟩
  have hload := loaded_image 0x1000 (by decide)
  obtain ⟨_, _, hs₁, (rfl : _ = Reply.ptr 0x1000)⟩ :=
    Session.start.next hload (c := .initstate 5 0x2000 64) (.inr ⟨64, hP, le_rfl⟩)
  obtain ⟨_, _, hs₂, v₁, rfl⟩ := hs₁.next hload (c := .random) trivial
  obtain ⟨_, _, hs₃, (rfl : _ = Reply.ptr 0x2000)⟩ :=
    hs₂.next hload (c := .setstate 0x1000) (.inr ⟨by decide, .initstate 5 0x2000 64, by simp⟩)
  obtain ⟨_, _, hs₄, v₂, rfl⟩ := hs₃.next hload (c := .random) trivial
  obtain ⟨_, _, hs₅, (rfl : _ = Reply.ptr 0x1000)⟩ :=
    hs₄.next hload (c := .setstate 0x2000) (.inr ⟨by decide, .setstate 0x1000, by simp⟩)
  obtain ⟨_, s, hs₆, v₃, rfl⟩ := hs₅.next hload (c := .random) trivial
  obtain ⟨hactive, halone, -⟩ := session_independent hload hs₆
  exact ⟨P, s, v₁, v₂, v₃, hs₆, hactive, halone 0x2000, halone 0x1000⟩

end Mytilus.Prng.Random
