import Mytilus.Base.Pieces
import Mytilus.Sys.Descriptors
import Mytilus.Sys.Wrappers

/-!
# Mapped blocks

The kernel holds the pages of the process.  A program that maps, moves and unmaps
blocks, as an allocator does, knows its blocks from results only.  Where it gives
back the blocks it holds and never asks for a fixed address, its blocks never
overlap one another nor what was mapped before, and the pages that are mapped are
theirs and those: nothing is lost and nothing is handed out twice
(`blocks_accounted`).

The accounting is that of `Mytilus.Base.Pieces`.  `Holds` says that it is right, and
`KeepsMaps.step` that a call keeps it, from one lemma for each of the three calls that
change pages; any other call is `Idle`.  What a result says of the reply comes from
`Mytilus.Sys.Wrappers`: a pointer is a page address, and a failure has changed nothing
(`Settled`).
-/

namespace Mytilus.Sys.Maps

open Pieces

/-- The pages that are mapped. -/
abbrev Pages := Finset ℕ

def MREMAP_FIXED : BitVec 32 := 2
def MREMAP_DONTUNMAP : BitVec 32 := 4

/-- The pages that the `n` bytes from `a` on reach into. -/
def span (a n : BitVec 64) : Pages :=
  Finset.Ico (a.toNat / 4096) ((a.toNat + n.toNat + 4095) / 4096)

/-! ## The kernel's pages -/

section Kernel

/-- An argument of a request. -/
def word (q : Request) (i : ℕ) : BitVec 64 := q.args.getD i 0

/-- What a request with the reply `r` does to the pages. -/
def served (t : Pages) (q : Request) (r : BitVec 64) : Pages :=
  if IsFailure r then t
  else if q.nr = SYS_mmap then t ∪ span r (word q 1)
  else if q.nr = SYS_munmap then t \ span (word q 0) (word q 1)
  else if q.nr = SYS_mremap then
    if q.arg 3 &&& MREMAP_DONTUNMAP ≠ 0 ∨ word q 1 = 0 then t ∪ span r (word q 2)
    else t \ span (word q 0) (word q 1) ∪ span r (word q 2)
  else t

/-- The pages after the requests of the log. -/
def pagesOf (t : Pages) (log : List (Request × BitVec 64)) : Pages :=
  log.foldl (fun t e => served t e.1 e.2) t

/-- An address in the lower half, where a page starts. -/
structure PageAddress (r : BitVec 64) : Prop where
  pos : 0 < r.toNat
  lower : r.toNat < 2 ^ 52
  aligned : 4096 ∣ r.toNat

/-- What is documented of the replies where no fixed address is asked for.  A block is
not empty, and placed at a page where nothing else is mapped. -/
structure KeepsMaps (kernel : Kernel) (t : Pages) : Prop where
  mmap : ∀ log q, q.nr = SYS_mmap → q.arg 3 &&& MAP_FIXED = 0 → IsFailure (kernel log q) ∨
    PageAddress (kernel log q) ∧ word q 1 ≠ 0 ∧
      Disjoint (span (kernel log q) (word q 1)) (pagesOf t log)
  mremap : ∀ log q, q.nr = SYS_mremap → q.arg 3 &&& MREMAP_FIXED = 0 →
    IsFailure (kernel log q) ∨ PageAddress (kernel log q) ∧ word q 2 ≠ 0 ∧
      Disjoint (span (kernel log q) (word q 2)) (pagesOf t log \ span (word q 0) (word q 1))
  munmap : ∀ log q, q.nr = SYS_munmap → IsFailure (kernel log q) ∨ kernel log q = 0

end Kernel

/-! ## The program's blocks -/

structure Block where
  addr : BitVec 64
  length : BitVec 64
  deriving DecidableEq

def Block.span (b : Block) : Pages := Maps.span b.addr b.length

/-- The blocks that the program holds after a wrapper has returned. -/
def held (bs : List Block) (o : Completed) : List Block :=
  match o.wrapper with
  | .mmap _ length _ _ _ _ =>
      if o.value = -1 then bs else ⟨BitVec.ofInt 64 o.value, length⟩ :: bs
  | .mremap oldAddr oldLen newLen _ _ =>
      if o.value = -1 then bs
      else ⟨BitVec.ofInt 64 o.value, newLen⟩ :: bs.erase ⟨oldAddr, oldLen⟩
  | .standard (.munmap addr length) => if o.value = -1 then bs else bs.erase ⟨addr, length⟩
  | _ => bs

/-- The program maps where the kernel likes, and moves and unmaps what it holds. -/
def Proper (bs : List Block) : Wrapper → Prop
  | .mmap _ _ _ flags _ _ => flags &&& MAP_FIXED = 0
  | .mremap oldAddr oldLen _ flags _ =>
      ⟨oldAddr, oldLen⟩ ∈ bs ∧ flags &&& MREMAP_FIXED = 0 ∧ flags &&& MREMAP_DONTUNMAP = 0
  | .standard (.munmap addr length) => ⟨addr, length⟩ ∈ bs
  | _ => True

def Disciplined (kernel : Kernel) : List Block → World → List Wrapper → Prop
  | _, _, [] => True
  | bs, w, x :: xs =>
      Proper bs x ∧
        Disciplined kernel (held bs (x.complete kernel w)) (x.complete kernel w).after xs

/-- The pages are those of the blocks and the rest, and a block is at a page. -/
structure Holds (rest pages : Pages) (bs : List Block) : Prop where
  accounts : Accounts Block.span rest pages bs
  placed : ∀ b ∈ bs, PageAddress b.addr ∧ b.length ≠ 0

/-! ## Requests -/

section Served

variable {t : Pages} {q : Request} {r : BitVec 64}

theorem served_of_isFailure (h : IsFailure r) : served t q r = t := if_pos h

theorem served_mmap (hnr : q.nr = SYS_mmap) (h : ¬ IsFailure r) :
    served t q r = t ∪ span r (word q 1) := by
  rw [served, if_neg h, if_pos hnr]

theorem served_munmap (hnr : q.nr = SYS_munmap) (h : ¬ IsFailure r) :
    served t q r = t \ span (word q 0) (word q 1) := by
  rw [served, if_neg h, if_neg (by rw [hnr]; decide), if_pos hnr]

theorem served_mremap (hnr : q.nr = SYS_mremap) (h : ¬ IsFailure r)
    (hflag : q.arg 3 &&& MREMAP_DONTUNMAP = 0) (hlen : word q 1 ≠ 0) :
    served t q r = t \ span (word q 0) (word q 1) ∪ span r (word q 2) := by
  rw [served, if_neg h, if_neg (by rw [hnr]; decide), if_neg (by rw [hnr]; decide), if_pos hnr,
    if_neg]
  rintro (hflag' | hlen')
  · exact hflag' hflag
  · exact hlen hlen'

/-- The system calls that map and unmap. -/
def mapCalls : List (BitVec 64) := [SYS_mmap, SYS_munmap, SYS_mremap]

theorem served_of_notMem (hnr : q.nr ∉ mapCalls) : served t q r = t := by
  simp only [mapCalls, List.mem_cons, List.not_mem_nil, or_false, not_or] at hnr
  simp [served, hnr]

theorem pagesOf_append (log rest : List (Request × BitVec 64)) :
    pagesOf t (log ++ rest) = pagesOf (pagesOf t log) rest := List.foldl_append ..

theorem pagesOf_singleton : pagesOf t [(q, r)] = served t q r := rfl

/-- Requests that map nothing. -/
theorem pagesOf_idle {rest : List (Request × BitVec 64)} (h : ∀ e ∈ rest, e.1.nr ∉ mapCalls) :
    pagesOf t rest = t := by
  induction rest generalizing t with
  | nil => rfl
  | cons e rest ih =>
      obtain ⟨he, hrest⟩ := List.forall_mem_cons.mp h
      exact (ih hrest).trans (served_of_notMem he)

end Served

/-! ## The other wrappers -/

section Idle

variable {kernel : Kernel} {w : World}

/-- The requests that are made map nothing. -/
def Idle (w w' : World) : Prop :=
  ∃ rest, w'.log = w.log ++ rest ∧ ∀ e ∈ rest, e.1.nr ∉ mapCalls

theorem Idle.refl (w : World) : Idle w w := ⟨[], (List.append_nil _).symm, nofun⟩

theorem Idle.one {w' : World} {nr r : BitVec 64} {args : List (BitVec 64)} (hnr : nr ∉ mapCalls)
    (hlog : w'.log = w.log ++ [(⟨nr, args⟩, r)]) : Idle w w' :=
  ⟨_, hlog, List.forall_mem_singleton.mpr hnr⟩

theorem Idle.pagesOf_eq {t : Pages} {w' : World} (h : Idle w w') :
    pagesOf t w'.log = pagesOf t w.log := by
  obtain ⟨rest, hlog, hrest⟩ := h
  rw [hlog, pagesOf_append, pagesOf_idle hrest]

theorem idle_openat {c : Call} {dirfd flags mode : BitVec 32} {filename : BitVec 64}
    (hcode : c.code kernel = BitVec.toInt <$> openatInner kernel dirfd filename flags mode) :
    Idle w (c.outcome kernel w).after := by
  have hopenat : SYS_openat ∉ mapCalls := by decide
  have hfcntl : SYS_fcntl ∉ mapCalls := by decide
  refine ⟨_, log_openatInner hcode rfl, List.forall_mem_cons.mpr ⟨hopenat, ?_⟩⟩
  split_ifs
  · exact List.forall_mem_singleton.mpr hfcntl
  · nofun

theorem idle_call (c : Call) : Idle w (c.outcome kernel w).after := by
  cases c with
  | «open» filename flags mode => exact idle_openat (c := .open filename flags mode) rfl
  | openat dirfd filename flags mode =>
      exact idle_openat (c := .openat dirfd filename flags mode) rfl
  | creat filename mode => exact idle_openat (c := .creat filename mode) rfl
  | close fd => exact Idle.one (by decide) (log_close fd)
  | fcntl fd cmd arg => exact Idle.one (by decide) (log_standard (fcntl_code kernel fd cmd arg))
  | dup2 old new =>
      by_cases heq : old = new
      · subst heq
        exact Idle.one (by decide) (log_dup2_self old)
      · have hcode : (Call.dup2 old new).code kernel = BitVec.toInt <$> standard (syscall kernel
            SYS_dup3 [old.signExtend 64, new.signExtend 64, 0]) := by
          rw [Call.code, Sys.dup2, if_neg heq]
        exact Idle.one (by decide) (log_standard hcode)
  | clockNanosleep clk flags req rem =>
      by_cases hclk : clk = CLOCK_THREAD_CPUTIME_ID
      · subst hclk
        exact Idle.refl w
      · exact Idle.one (by decide) (log_clockNanosleep hclk flags req rem)
  | nanosleep req rem => exact Idle.one (by decide) (log_ret _ _)
  | read fd buf count => exact Idle.one (by decide) (log_long rfl)
  | write fd buf count => exact Idle.one (by decide) (log_long rfl)
  | lseek fd offset whence => exact Idle.one (by decide) (log_long rfl)
  | posixFadvise fd base len advice => exact Idle.one (by decide) rfl
  | posixFallocate fd base len => exact Idle.one (by decide) rfl
  | _ => exact Idle.one (by decide) (log_standard rfl)

/-- The wrappers that map or unmap. -/
def maps : Wrapper → Bool
  | .mmap .. | .mremap .. | .standard (.munmap ..) => true
  | _ => false

theorem idle_complete {x : Wrapper} (hx : maps x = false) : Idle w (x.complete kernel w).after := by
  cases x with
  | call c => exact idle_call c
  | standard s =>
      cases s with
      | munmap addr length => cases hx
      | _ => exact Idle.one (by decide) (log_ret _ _)
  | plain p => cases p <;> exact Idle.one (by decide) rfl
  | mmap addr length prot flags fd offset => cases hx
  | mremap oldAddr oldLen newLen flags newAddr => cases hx
  | posixMadvise addr length advice =>
      rw [Wrapper.complete, Wrapper.code, Sys.posixMadvise]
      split_ifs
      · exact Idle.refl w
      · exact Idle.one (by decide) rfl
  | sync => exact Idle.one (by decide) rfl
  | getpagesize => exact Idle.refl w

end Idle

/-! ## One wrapper -/

section Steps

variable {kernel : Kernel} {w : World} {t rest : Pages} {bs : List Block} {o : Completed}

/-- A request is made, and the result tells its reply. -/
structure Settled (o : Completed) (q : Request) (r : BitVec 64) : Prop where
  log : o.after.log = o.before.log ++ [(q, r)]
  failed : IsFailure r → o.value = -1
  passed : ¬ IsFailure r → o.value = r.toInt

/-- A request is refused, and nothing asked. -/
def Refused (o : Completed) : Prop := o.value = -1 ∧ o.after.log = o.before.log

theorem Settled.value_ne {q : Request} {r : BitVec 64} (h : Settled o q r) (hr : ¬ IsFailure r) :
    o.value ≠ -1 := by
  rw [h.passed hr]
  intro hvalue
  exact hr ⟨by omega, by omega⟩

theorem settled_of_passes {q : Request} {r v : BitVec 64} {number : BitVec 64 → ℤ}
    (h : Passes q r number o.before (v, o.after)) (hvalue : o.value = v.toInt) : Settled o q r where
  log := h.log
  failed := fun hr => by
    rw [hvalue, show v = MAP_FAILED from h.failed.mpr hr]
    rfl
  passed := fun hr => by rw [hvalue, show v = r from (h.passed hr).1]

theorem PageAddress.ne {r : BitVec 64} (h : PageAddress r) : r ≠ -4096 := by
  rintro rfl
  exact absurd h.lower (by decide)

theorem KeepsMaps.settled_mmap (h : KeepsMaps kernel t) (w : World) (addr length : BitVec 64)
    (prot : BitVec 32) {flags : BitVec 32} (fd : BitVec 32) (offset : BitVec 64)
    (hflags : flags &&& MAP_FIXED = 0) :
    Refused ((Wrapper.mmap addr length prot flags fd offset).complete kernel w) ∨
      Settled ((Wrapper.mmap addr length prot flags fd offset).complete kernel w)
        (mmapRequest addr length prot flags fd offset)
        (kernel w.log (mmapRequest addr length prot flags fd offset)) := by
  have hne : kernel w.log (mmapRequest addr length prot flags fd offset) ≠ -4096 := by
    have hfixed : (mmapRequest addr length prot flags fd offset).arg 3 &&& MAP_FIXED = 0 :=
      (congrArg (· &&& MAP_FIXED) (setWidth_signExtend flags)).trans hflags
    rcases h.mmap w.log (mmapRequest addr length prot flags fd offset) rfl hfixed with
      hr | ⟨haddr, -⟩
    · exact fun heq => not_isFailure_boundary (heq ▸ hr)
    · exact haddr.ne
  obtain ⟨hmisaligned, hlong, hasked⟩ :=
    (mmap_meets_iff kernel w addr length prot flags fd offset).mpr (.inr (.inr hne))
  obtain ⟨v, w', hout, hrun⟩ := mmap_complete kernel w addr length prot flags fd offset
  rw [hrun]
  rw [hout] at hmisaligned hlong hasked
  by_cases haligned : (4096 : ℤ) ∣ offset.toInt
  · rcases Nat.lt_or_ge length.toNat (2 ^ 63 - 1) with hlt | hge
    · exact .inr (settled_of_passes (hasked haligned hlt) rfl)
    · obtain ⟨rfl, rfl⟩ := Prod.mk.inj (hlong haligned hge)
      exact .inl ⟨rfl, rfl⟩
  · obtain ⟨rfl, rfl⟩ := Prod.mk.inj (hmisaligned haligned)
    exact .inl ⟨rfl, rfl⟩

theorem KeepsMaps.settled_mremap (h : KeepsMaps kernel t) (w : World)
    (oldAddr oldLen newLen : BitVec 64) {flags : BitVec 32} (newAddr : BitVec 64)
    (hflags : flags &&& MREMAP_FIXED = 0) :
    Refused ((Wrapper.mremap oldAddr oldLen newLen flags newAddr).complete kernel w) ∨
      Settled ((Wrapper.mremap oldAddr oldLen newLen flags newAddr).complete kernel w)
        (mremapRequest oldAddr oldLen newLen flags newAddr)
        (kernel w.log (mremapRequest oldAddr oldLen newLen flags newAddr)) := by
  have hne : kernel w.log (mremapRequest oldAddr oldLen newLen flags newAddr) ≠ -4096 := by
    have hfixed : (mremapRequest oldAddr oldLen newLen flags newAddr).arg 3 &&& MREMAP_FIXED = 0 :=
      (congrArg (· &&& MREMAP_FIXED) (setWidth_signExtend flags)).trans hflags
    rcases h.mremap w.log (mremapRequest oldAddr oldLen newLen flags newAddr) rfl hfixed with
      hr | ⟨haddr, -⟩
    · exact fun heq => not_isFailure_boundary (heq ▸ hr)
    · exact haddr.ne
  obtain ⟨hlong, hasked⟩ :=
    (mremap_meets_iff kernel w oldAddr oldLen newLen flags newAddr).mpr (.inr hne)
  obtain ⟨v, w', hout, hrun⟩ := mremap_complete kernel w oldAddr oldLen newLen flags newAddr
  rw [hrun]
  rw [hout] at hlong hasked
  rcases Nat.lt_or_ge newLen.toNat (2 ^ 63 - 1) with hlt | hge
  · exact .inr (settled_of_passes (hasked hlt) rfl)
  · obtain ⟨rfl, rfl⟩ := Prod.mk.inj (hlong hge)
    exact .inl ⟨rfl, rfl⟩

/-- The request of `munmap`. -/
def munmapRequest (addr length : BitVec 64) : Request := ⟨SYS_munmap, [addr, length]⟩

theorem KeepsMaps.settled_munmap (h : KeepsMaps kernel t) (w : World) (addr length : BitVec 64) :
    Settled ((Wrapper.standard (.munmap addr length)).complete kernel w)
      (munmapRequest addr length) (kernel w.log (munmapRequest addr length)) := by
  obtain ⟨v, w', hret, hlog, hrun⟩ := Standard.complete_eq kernel w (.munmap addr length)
  change ret (kernel w.log (munmapRequest addr length))
    (w.ask kernel (munmapRequest addr length)) = _ at hret
  have hfailed : ((-1 : BitVec 64).setWidth 32).toInt = -1 := by decide
  rw [hrun]
  refine ⟨hlog, fun hr => ?_, fun hr => ?_⟩
  · rw [ret_of_isErr hr.isErr] at hret
    obtain ⟨rfl, -⟩ := Prod.mk.inj hret
    exact hfailed
  · have hzero := (h.munmap w.log (munmapRequest addr length) rfl).resolve_left hr
    rw [hzero] at hret ⊢
    obtain ⟨rfl, -⟩ := Prod.mk.inj hret
    rfl

theorem held_failed (h : o.value = -1) : held bs o = bs := by
  unfold held
  split <;> first | exact if_pos h | rfl

theorem held_idle {x : Wrapper} (hx : maps x = false) : held bs (x.complete kernel w) = bs := by
  cases x with
  | standard s =>
      cases s with
      | munmap addr length => cases hx
      | _ => rfl
  | mmap addr length prot flags fd offset => cases hx
  | mremap oldAddr oldLen newLen flags newAddr => cases hx
  | _ => rfl

theorem Settled.pagesOf_eq {q : Request} {r : BitVec 64} (h : Settled o q r) :
    pagesOf t o.after.log = served (pagesOf t o.before.log) q r := by
  rw [h.log, pagesOf_append, pagesOf_singleton]

/-- What fails changes nothing. -/
theorem pagesOf_failed {q : Request} {r : BitVec 64} (h : Refused o ∨ Settled o q r)
    (hvalue : o.value = -1) : pagesOf t o.after.log = pagesOf t o.before.log := by
  rcases h with hrefused | hsettled
  · rw [hrefused.2]
  · by_cases hr : IsFailure r
    · rw [hsettled.pagesOf_eq, served_of_isFailure hr]
    · exact absurd hvalue (hsettled.value_ne hr)

theorem Holds.failed {q : Request} {r : BitVec 64} (hbs : Holds rest (pagesOf t o.before.log) bs)
    (h : Refused o ∨ Settled o q r) (hvalue : o.value = -1) :
    Holds rest (pagesOf t o.after.log) (held bs o) := by
  rw [held_failed hvalue, pagesOf_failed h hvalue]
  exact hbs

theorem Holds.cons (h : Holds rest t bs) {b : Block} (hb : Disjoint b.span t)
    (hplaced : PageAddress b.addr ∧ b.length ≠ 0) : Holds rest (t ∪ b.span) (b :: bs) :=
  ⟨h.accounts.cons hb, List.forall_mem_cons.mpr ⟨hplaced, h.placed⟩⟩

theorem Holds.erase (h : Holds rest t bs) {b : Block} (hb : b ∈ bs) :
    Holds rest (t \ b.span) (bs.erase b) :=
  ⟨h.accounts.erase hb, fun b' hb' => h.placed b' (List.mem_of_mem_erase hb')⟩

theorem KeepsMaps.step_mmap (h : KeepsMaps kernel t) (hbs : Holds rest (pagesOf t w.log) bs)
    {addr length : BitVec 64} {prot flags fd : BitVec 32} {offset : BitVec 64}
    (hflags : flags &&& MAP_FIXED = 0) :
    Holds rest (pagesOf t ((Wrapper.mmap addr length prot flags fd offset).complete kernel w).after.log)
      (held bs ((Wrapper.mmap addr length prot flags fd offset).complete kernel w)) := by
  have hcases := h.settled_mmap w addr length prot fd offset hflags
  obtain ⟨q, hq⟩ : ∃ q, q = mmapRequest addr length prot flags fd offset := ⟨_, rfl⟩
  rw [← hq] at hcases
  by_cases hvalue : ((Wrapper.mmap addr length prot flags fd offset).complete kernel w).value = -1
  · exact Holds.failed hbs hcases hvalue
  · have hsettled := hcases.resolve_left fun hrefused => hvalue hrefused.1
    have hr : ¬ IsFailure (kernel w.log q) := fun hr => hvalue (hsettled.failed hr)
    have hlength : word q 1 = length := by rw [hq]; rfl
    have hfixed : q.arg 3 &&& MAP_FIXED = 0 := by
      rw [hq]
      exact (congrArg (· &&& MAP_FIXED) (setWidth_signExtend flags)).trans hflags
    obtain ⟨haddr, hlen, hfresh⟩ := (h.mmap w.log q (by rw [hq]; rfl) hfixed).resolve_left hr
    rw [hlength] at hlen hfresh
    have hheld : held bs ((Wrapper.mmap addr length prot flags fd offset).complete kernel w) =
        ⟨kernel w.log q, length⟩ :: bs := by
      refine (if_neg hvalue).trans ?_
      rw [hsettled.passed hr, BitVec.ofInt_toInt]
    rw [hheld, hsettled.pagesOf_eq, served_mmap (by rw [hq]; rfl) hr, hlength]
    exact hbs.cons (b := ⟨_, length⟩) hfresh ⟨haddr, hlen⟩

theorem KeepsMaps.step_munmap (h : KeepsMaps kernel t) (hbs : Holds rest (pagesOf t w.log) bs)
    {addr length : BitVec 64} (hb : ⟨addr, length⟩ ∈ bs) :
    Holds rest (pagesOf t ((Wrapper.standard (.munmap addr length)).complete kernel w).after.log)
      (held bs ((Wrapper.standard (.munmap addr length)).complete kernel w)) := by
  have hsettled := h.settled_munmap w addr length
  by_cases hvalue : ((Wrapper.standard (.munmap addr length)).complete kernel w).value = -1
  · exact Holds.failed hbs (.inr hsettled) hvalue
  · have hheld : held bs ((Wrapper.standard (.munmap addr length)).complete kernel w) =
        bs.erase ⟨addr, length⟩ := if_neg hvalue
    rw [hheld, hsettled.pagesOf_eq, served_munmap rfl fun hr => hvalue (hsettled.failed hr)]
    exact hbs.erase hb

theorem KeepsMaps.step_mremap (h : KeepsMaps kernel t) (hbs : Holds rest (pagesOf t w.log) bs)
    {oldAddr oldLen newLen : BitVec 64} {flags : BitVec 32} {newAddr : BitVec 64}
    (hb : ⟨oldAddr, oldLen⟩ ∈ bs) (hflags : flags &&& MREMAP_FIXED = 0)
    (hkeep : flags &&& MREMAP_DONTUNMAP = 0) :
    Holds rest
      (pagesOf t ((Wrapper.mremap oldAddr oldLen newLen flags newAddr).complete kernel w).after.log)
      (held bs ((Wrapper.mremap oldAddr oldLen newLen flags newAddr).complete kernel w)) := by
  have hcases := h.settled_mremap w oldAddr oldLen newLen newAddr hflags
  obtain ⟨q, hq⟩ : ∃ q, q = mremapRequest oldAddr oldLen newLen flags newAddr := ⟨_, rfl⟩
  rw [← hq] at hcases
  by_cases hvalue :
    ((Wrapper.mremap oldAddr oldLen newLen flags newAddr).complete kernel w).value = -1
  · exact Holds.failed hbs hcases hvalue
  · have hsettled := hcases.resolve_left fun hrefused => hvalue hrefused.1
    have hr : ¬ IsFailure (kernel w.log q) := fun hr => hvalue (hsettled.failed hr)
    obtain ⟨hold, holdLen, hnewLen⟩ :
        word q 0 = oldAddr ∧ word q 1 = oldLen ∧ word q 2 = newLen := by
      rw [hq]
      exact ⟨rfl, rfl, rfl⟩
    have harg : q.arg 3 = flags := by rw [hq]; exact setWidth_signExtend flags
    obtain ⟨haddr, hlen, hmoved⟩ :=
      (h.mremap w.log q (by rw [hq]; rfl) (by rw [harg]; exact hflags)).resolve_left hr
    rw [hnewLen] at hlen hmoved
    rw [hold, holdLen] at hmoved
    have hheld : held bs ((Wrapper.mremap oldAddr oldLen newLen flags newAddr).complete kernel w) =
        ⟨kernel w.log q, newLen⟩ :: bs.erase ⟨oldAddr, oldLen⟩ := by
      refine (if_neg hvalue).trans ?_
      rw [hsettled.passed hr, BitVec.ofInt_toInt]
    rw [hheld, hsettled.pagesOf_eq, served_mremap (by rw [hq]; rfl) hr (by rw [harg]; exact hkeep)
      (by rw [holdLen]; exact (hbs.placed _ hb).2), hold, holdLen, hnewLen]
    -- the old block is given back, and the new one is apart from what is left
    exact (hbs.erase hb).cons (b := ⟨_, newLen⟩) hmoved ⟨haddr, hlen⟩

/-- Every wrapper keeps account of the pages. -/
theorem KeepsMaps.step (h : KeepsMaps kernel t) (hbs : Holds rest (pagesOf t w.log) bs)
    {x : Wrapper} (hx : Proper bs x) :
    Holds rest (pagesOf t (x.complete kernel w).after.log) (held bs (x.complete kernel w)) := by
  cases hmaps : maps x with
  | false =>
      rw [(idle_complete hmaps).pagesOf_eq, held_idle hmaps]
      exact hbs
  | true =>
      cases x with
      | mmap addr length prot flags fd offset => exact h.step_mmap hbs hx
      | mremap oldAddr oldLen newLen flags newAddr => exact h.step_mremap hbs hx.1 hx.2.1 hx.2.2
      | standard s =>
          cases s with
          | munmap addr length => exact h.step_munmap hbs hx
          | _ => cases hmaps
      | _ => cases hmaps

theorem KeepsMaps.pagesOf_failed (h : KeepsMaps kernel t) {x : Wrapper} (hx : Proper bs x)
    (hvalue : (x.complete kernel w).value = -1) :
    pagesOf t (x.complete kernel w).after.log = pagesOf t w.log := by
  cases hmaps : maps x with
  | false => exact (idle_complete hmaps).pagesOf_eq
  | true =>
      cases x with
      | mmap addr length prot flags fd offset =>
          exact Maps.pagesOf_failed (h.settled_mmap w addr length prot fd offset hx) hvalue
      | mremap oldAddr oldLen newLen flags newAddr =>
          exact Maps.pagesOf_failed (h.settled_mremap w oldAddr oldLen newLen newAddr hx.2.1) hvalue
      | standard s =>
          cases s with
          | munmap addr length =>
              exact Maps.pagesOf_failed (.inr (h.settled_munmap w addr length)) hvalue
          | _ => cases hmaps
      | _ => cases hmaps

end Steps

/-! ## Runs -/

theorem KeepsMaps.run {kernel : Kernel} {t rest : Pages} (h : KeepsMaps kernel t) {bs : List Block}
    {w : World} (hbs : Holds rest (pagesOf t w.log) bs) {xs : List Wrapper}
    (hxs : Disciplined kernel bs w xs) :
    Holds rest (pagesOf t (runWrappers kernel xs w).2.log)
        ((runWrappers kernel xs w).1.foldl held bs) ∧
      ∀ o ∈ (runWrappers kernel xs w).1, o.value = -1 →
        pagesOf t o.after.log = pagesOf t o.before.log := by
  induction xs generalizing bs w with
  | nil => exact ⟨hbs, nofun⟩
  | cons x xs ih =>
      obtain ⟨hx, hrest⟩ := hxs
      obtain ⟨hholds, hfailed⟩ := ih (h.step hbs hx) hrest
      exact ⟨hholds, List.forall_mem_cons.mpr ⟨h.pagesOf_failed hx, hfailed⟩⟩

end Mytilus.Sys.Maps
