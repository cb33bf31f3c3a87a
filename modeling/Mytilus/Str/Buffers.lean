import Mytilus.Base.StringWrites
import Mytilus.Str.Strcasecmp
import Mytilus.Str.Strcat
import Mytilus.Str.Strchr
import Mytilus.Str.StrerrorR
import Mytilus.Str.Strncpy
import Mytilus.Str.Strpbrk
import Mytilus.Str.Strstr

/-!
# Strings in buffers

A program keeps strings in buffers and hands pointers into them to the functions
of `string.h`.  `Call.act` says what each call answers, and what it makes of the
strings, in terms of lists of bytes alone; it answers nothing where the program
breaks the function's contract: a buffer too small, one that is both source and
destination, or one that may have lost its terminator to `strncpy`.

`Holds` relates the lists to memory, and `Refines` is what is proved of a call.  Most
calls belong to a family with one lemma: those that measure one string
(`refines_ask_some`) or two (`refines_ask₂`), searches (`refines_search`), comparisons
(`refines_compare`), and the writes, which come down to `Known.overwrite`.
`Holds.refines` puts the calls together.

The main result is `calls_refine`.  A program that keeps to the contracts, with
nothing mapped but its buffers, gets the answers that the lists give, and its
buffers hold what the lists say.
-/

namespace Mytilus.Str.Checked.Buffers

open Memory Mapped Fields

/-- Buffers of which no two overlap. -/
structure Layout (ι : Type) where
  addr : ι → Addr
  size : ι → ℕ
  nonnull : ∀ i, addr i ≠ 0
  fits : ∀ i, (addr i).toNat + size i < 2 ^ 64
  apart : ∀ i j, i ≠ j → Apart (addr i) (size i) (addr j) (size j)

/-- A pointer into a buffer. -/
structure Ptr (ι : Type) where
  buffer : ι
  pos : ℕ

/-- A call of a function of `string.h`. -/
inductive Call (ι : Type)
  | strlen (s : Ptr ι)
  | strnlen (s : Ptr ι) (n : BitVec 64)
  | memchr (src : Ptr ι) (c : BitVec 32) (n : BitVec 64)
  | memrchr (src : Ptr ι) (c : BitVec 32) (n : BitVec 64)
  | strchr (s : Ptr ι) (c : BitVec 32)
  | strchrnul (s : Ptr ι) (c : BitVec 32)
  | strrchr (s : Ptr ι) (c : BitVec 32)
  | strcmp (l r : Ptr ι)
  | strncmp (l r : Ptr ι) (n : BitVec 64)
  | strcasecmp (l r : Ptr ι)
  | strncasecmp (l r : Ptr ι) (n : BitVec 64)
  | strstr (h n : Ptr ι)
  | strspn (s c : Ptr ι)
  | strcspn (s c : Ptr ι)
  | strpbrk (s b : Ptr ι)
  | stpcpy (d s : Ptr ι)
  | strcpy (d s : Ptr ι)
  | strcat (dest src : Ptr ι)
  | stpncpy (d s : Ptr ι) (n : BitVec 64)
  | strncpy (d s : Ptr ι) (n : BitVec 64)
  | strerrorR (err : BitVec 32) (buf : Ptr ι) (buflen : BitVec 64)

/-! ## The code -/

/-- What a call returns. -/
inductive Reply
  | size (n : BitVec 64)
  | int (d : BitVec 32)
  | ptr (p : Addr)

section Code

variable {ι : Type} (L : Layout ι)

def Layout.ptr (p : Ptr ι) : Addr := ptrAdd (L.addr p.buffer) p.pos

/-- A function that only reads. -/
def reads {α : Type} (m : Mapped) (reply : α → Reply) (out : Option α) : Option (Reply × Mapped) :=
  out.map fun r => (reply r, m)

def writes {α : Type} (reply : α → Reply) (out : Option (α × Mapped)) : Option (Reply × Mapped) :=
  out.map fun r => (reply r.1, r.2)

/-- The code of a call. -/
def Call.exec (m : Mapped) : Call ι → Option (Reply × Mapped)
  | .strlen s => reads m .size (Checked.strlen m (L.ptr s))
  | .strnlen s n => reads m .size (Checked.strnlen m (L.ptr s) n)
  | .memchr src c n => reads m .ptr (Checked.memchr m (L.ptr src) c n)
  | .memrchr src c n => reads m .ptr (Checked.memrchr m (L.ptr src) c n)
  | .strchr s c => reads m .ptr (Checked.strchr m (L.ptr s) c)
  | .strchrnul s c => reads m .ptr (Checked.strchrnul m (L.ptr s) c)
  | .strrchr s c => reads m .ptr (Checked.strrchr m (L.ptr s) c)
  | .strcmp l r => reads m .int (Checked.strcmp m (L.ptr l) (L.ptr r))
  | .strncmp l r n => reads m .int (Checked.strncmp m (L.ptr l) (L.ptr r) n)
  | .strcasecmp l r => reads m .int (Checked.strcasecmp m (L.ptr l) (L.ptr r))
  | .strncasecmp l r n => reads m .int (Checked.strncasecmp m (L.ptr l) (L.ptr r) n)
  | .strstr h n => reads m .ptr (Checked.strstr m (L.ptr h) (L.ptr n))
  | .strspn s c => reads m .size (Checked.strspn m (L.ptr s) (L.ptr c))
  | .strcspn s c => reads m .size (Checked.strcspn m (L.ptr s) (L.ptr c))
  | .strpbrk s b => reads m .ptr (Checked.strpbrk m (L.ptr s) (L.ptr b))
  | .stpcpy d s => writes .ptr (Checked.stpcpy (L.ptr d) (L.ptr s) m)
  | .strcpy d s => writes .ptr (Checked.strcpy (L.ptr d) (L.ptr s) m)
  | .strcat dest src => writes .ptr (Checked.strcat (L.ptr dest) (L.ptr src) m)
  | .stpncpy d s n => writes .ptr (Checked.stpncpy (L.ptr d) (L.ptr s) n m)
  | .strncpy d s n => writes .ptr (Checked.strncpy (L.ptr d) (L.ptr s) n m)
  | .strerrorR err buf buflen => writes .int (Checked.strerrorR err (L.ptr buf) buflen m)

def execCalls : List (Call ι) → Mapped → Option (List Reply × Mapped)
  | [], m => some ([], m)
  | c :: cs, m => do
      let out ← c.exec L m
      let rest ← execCalls cs out.2
      return (out.1 :: rest.1, rest.2)

end Code

/-! ## The lists -/

/-- What a call answers. -/
inductive Answer (ι : Type)
  | size (n : ℕ)
  | int (d : ℤ)
  | ptr (p : Option (Ptr ι))

/-- The string at the start of each buffer, where there is known to be one. -/
abbrev Strings (ι : Type) := ι → Option (List Byte)

section Lists

variable {ι : Type} (size : ι → ℕ) (σ : Strings ι)

/-- The string that a pointer is to. -/
def Strings.text (p : Ptr ι) : Option (List Byte) := do
  let xs ← σ p.buffer
  if p.pos ≤ xs.length then return xs.drop p.pos else none

/-- A place in the string that `s` is to. -/
def Ptr.place (s : Ptr ι) (k : ℕ) : Ptr ι := ⟨s.buffer, s.pos + k⟩

def found (s : Ptr ι) (k : Option ℕ) : Answer ι := .ptr (k.map s.place)

/-- A question about one string. -/
def ask (s : Ptr ι) (answer : List Byte → Option (Answer ι)) : Option (Answer ι × Strings ι) := do
  let xs ← σ.text s
  let a ← answer xs
  return (a, σ)

/-- A question about two strings. -/
def ask₂ (l r : Ptr ι) (answer : List Byte → List Byte → Answer ι) :
    Option (Answer ι × Strings ι) := do
  let xs ← σ.text l
  let ys ← σ.text r
  return (answer xs ys, σ)

/-- The bytes below `n` of a string and its terminator, where there are as many. -/
def bytesBelow (n : BitVec 64) (xs : List Byte) : Option (List Byte) :=
  if n.toNat ≤ xs.length + 1 then some ((xs ++ [0]).take n.toNat) else none

variable [DecidableEq ι]

/-- A string that is written to `d`, with a terminator. -/
def Strings.write (d : Ptr ι) (xs : List Byte) : Option (Strings ι) :=
  if d.pos + xs.length < size d.buffer then
    some (Function.update σ d.buffer (overwrite d.pos xs (σ d.buffer)))
  else
    none

/-- Bytes that are written to `d`, without a terminator. -/
def Strings.writeCut (d : Ptr ι) (xs : List Byte) : Option (Strings ι) :=
  if d.pos + xs.length ≤ size d.buffer then
    some (Function.update σ d.buffer (overwriteCut d.pos xs (σ d.buffer)))
  else
    none

/-- At most `n` bytes of a string, with its terminator if that is among them. -/
def Strings.writeN (d : Ptr ι) (xs : List Byte) (n : BitVec 64) : Option (Strings ι) :=
  if xs.length < n.toNat then σ.write size d xs else σ.writeCut size d (xs.take n.toNat)

/-- A string that is copied to another buffer. -/
def Strings.copy (d s : Ptr ι) : Option (List Byte × Strings ι) := do
  let xs ← σ.text s
  let σ' ← σ.write size d xs
  if d.buffer = s.buffer then none else return (xs, σ')

/-- At most `n` bytes of a string, copied to another buffer. -/
def Strings.copyN (d s : Ptr ι) (n : BitVec 64) : Option (List Byte × Strings ι) := do
  let xs ← σ.text s
  let σ' ← σ.writeN size d xs n
  if d.buffer = s.buffer ∨ size d.buffer < d.pos + n.toNat then none
  else return (xs.take n.toNat, σ')

/-- What a call answers, and the strings after it. -/
def Call.act : Call ι → Option (Answer ι × Strings ι)
  | .strlen s => ask σ s fun xs => some (.size xs.length)
  | .strnlen s n => ask σ s fun xs => some (.size (xs.take n.toNat).length)
  | .memchr src c n => ask σ src fun xs => do
      let bytes ← bytesBelow n xs
      return found src (bytes.idxOf? (c.setWidth 8))
  | .memrchr src c n => ask σ src fun xs => do
      let bytes ← bytesBelow n xs
      return found src (lastIdxOf? (c.setWidth 8) bytes)
  | .strchr s c => ask σ s fun xs => some (found s ((xs ++ [0]).idxOf? (c.setWidth 8)))
  | .strchrnul s c => ask σ s fun xs =>
      some (found s (some (xs.takeWhile (· ≠ c.setWidth 8)).length))
  | .strrchr s c => ask σ s fun xs => some (found s (lastIdxOf? (c.setWidth 8) (xs ++ [0])))
  | .strcmp l r => ask₂ σ l r fun xs ys => .int (ByteOrder.diff xs ys)
  | .strncmp l r n => ask₂ σ l r fun xs ys =>
      .int (ByteOrder.diff (xs.take n.toNat) (ys.take n.toNat))
  | .strcasecmp l r => ask₂ σ l r fun xs ys =>
      .int (ByteOrder.diff (xs.map lower) (ys.map lower))
  | .strncasecmp l r n => ask₂ σ l r fun xs ys =>
      .int (ByteOrder.diff ((xs.take n.toNat).map lower) ((ys.take n.toNat).map lower))
  | .strstr h n => ask₂ σ h n fun xs ys => found h (occurs? ys xs)
  | .strspn s c => ask₂ σ s c fun xs cs => .size (xs.takeWhile cs.contains).length
  | .strcspn s c => ask₂ σ s c fun xs cs => .size (xs.takeWhile (!cs.contains ·)).length
  | .strpbrk s b => ask₂ σ s b fun xs cs => found s (xs.findIdx? cs.contains)
  | .stpcpy d s => do
      let out ← σ.copy size d s
      return (.ptr (some (d.place out.1.length)), out.2)
  | .strcpy d s => do
      let out ← σ.copy size d s
      return (.ptr (some d), out.2)
  | .strcat dest src => do
      let ys ← σ.text dest
      let out ← σ.copy size (dest.place ys.length) src
      return (.ptr (some dest), out.2)
  | .stpncpy d s n => do
      let out ← σ.copyN size d s n
      return (.ptr (some (d.place out.1.length)), out.2)
  | .strncpy d s n => do
      let out ← σ.copyN size d s n
      return (.ptr (some d), out.2)
  | .strerrorR err buf buflen => do
      let M ← Errno.strerrorStr err
      if buflen.toNat = 0 then
        return (.int Errno.ERANGE.toInt, σ)
      else
        let σ' ← σ.write size buf (M.bytes.take (buflen.toNat - 1))
        return (.int (if M.bytes.length < buflen.toNat then 0 else Errno.ERANGE.toInt), σ')

def actCalls : List (Call ι) → Strings ι → Option (List (Answer ι) × Strings ι)
  | [], σ => some ([], σ)
  | c :: cs, σ => do
      let out ← c.act size σ
      let rest ← actCalls cs out.2
      return (out.1 :: rest.1, rest.2)

end Lists

/-! ## Agreement -/

section Layout

variable {ι : Type} {L : Layout ι} {d s p : Ptr ι} {n k : ℕ}

theorem Layout.ptr_place (L : Layout ι) (s : Ptr ι) (k : ℕ) :
    L.ptr (s.place k) = ptrAdd (L.ptr s) k := by
  rw [Layout.ptr, Layout.ptr, ptrAdd_ptrAdd]
  rfl

/-- A pointer into a buffer, or to its end, is not null. -/
theorem Layout.ptr_ne_zero (hp : p.pos ≤ L.size p.buffer) : L.ptr p ≠ 0 := by
  have hnonnull := L.nonnull p.buffer
  have hfits := L.fits p.buffer
  unfold Layout.ptr ptrAdd
  bv_omega

theorem Layout.size_le (L : Layout ι) (i : ι) : L.size i ≤ 2 ^ 64 :=
  (Nat.le_add_left _ _).trans (L.fits i).le

/-- Parts of two buffers. -/
theorem Layout.apart_ptr (hne : d.buffer ≠ s.buffer) (hd : d.pos + n ≤ L.size d.buffer)
    (hs : s.pos + k ≤ L.size s.buffer) : Apart (L.ptr d) n (L.ptr s) k := by
  intro i hi hin
  rw [Layout.ptr, Layout.ptr, ptrAdd_ptrAdd] at hin
  exact L.apart d.buffer s.buffer hne (s.pos + i) (by omega) (hin.of_part hd (L.size_le _))

end Layout

/-- The reply is the answer. -/
inductive Matches {ι : Type} (L : Layout ι) : Answer ι → Reply → Prop
  | size {n : ℕ} {r : BitVec 64} (h : r.toNat = n) : Matches L (.size n) (.size r)
  | int {d : ℤ} {r : BitVec 32} (h : r.toInt = d) : Matches L (.int d) (.int r)
  | null : Matches L (.ptr none) (.ptr 0)
  | ptr {p : Ptr ι} (h : L.ptr p ≠ 0) : Matches L (.ptr (some p)) (.ptr (L.ptr p))

/-- The buffers are mapped, and hold the strings. -/
structure Holds {ι : Type} (L : Layout ι) (σ : Strings ι) (m : Mapped) : Prop where
  room : ∀ i, Room m (L.addr i) (L.size i)
  strings : ∀ i, Known m (L.addr i) (σ i) (L.size i)

/-- Outside the buffers nothing has changed. -/
def SameElsewhere {ι : Type} (L : Layout ι) (m m' : Mapped) : Prop :=
  ∀ a, (∀ i, ¬ Within (L.addr i) (L.size i) a) → m'.read a = m.read a

/-- Where the lists answer, the code does. -/
def Refines {ι : Type} (L : Layout ι) (m : Mapped) (spec : Option (Answer ι × Strings ι))
    (code : Option (Reply × Mapped)) : Prop :=
  ∀ a σ', spec = some (a, σ') →
    ∃ r m', code = some (r, m') ∧ Matches L a r ∧ Holds L σ' m' ∧ SameElsewhere L m m'

section Reads

variable {ι : Type} {L : Layout ι} {σ : Strings ι} {m : Mapped} {p s l : Ptr ι}
variable {xs bytes : List Byte} {b : Byte} {q : Addr} {n : BitVec 64}

theorem Holds.text (h : Holds L σ m) (hp : σ.text p = some xs) :
    StringAt m (L.ptr p) xs ∧ p.pos + xs.length < L.size p.buffer := by
  obtain ⟨ys, hys, hp⟩ := Option.bind_eq_some_iff.mp hp
  obtain ⟨hlen, hstring⟩ := h.strings p.buffer ys hys
  split_ifs at hp with hpos
  obtain rfl := Option.some.inj hp
  refine ⟨hstring.drop hpos, ?_⟩
  rw [List.length_drop]
  omega

theorem Holds.room_ptr (h : Holds L σ m) {k : ℕ} (hk : p.pos + k ≤ L.size p.buffer) :
    Room m (L.ptr p) k := by
  intro i hi
  rw [Layout.ptr, ptrAdd_ptrAdd]
  exact h.room p.buffer (p.pos + i) (by omega)

/-- Questions about one string. -/
theorem Holds.refines_ask (h : Holds L σ m) {α : Type} {reply : α → Reply} {out : Option α}
    {answer : List Byte → Option (Answer ι)}
    (hread : ∀ xs a, StringAt m (L.ptr s) xs → s.pos + xs.length < L.size s.buffer →
      answer xs = some a → ∃ r, out = some r ∧ Matches L a (reply r)) :
    Refines L m (ask σ s answer) (reads m reply out) := by
  intro a σ' hspec
  obtain ⟨xs, hxs, hspec⟩ := Option.bind_eq_some_iff.mp hspec
  obtain ⟨a', ha, hspec⟩ := Option.bind_eq_some_iff.mp hspec
  obtain ⟨rfl, rfl⟩ := Prod.mk.inj (Option.some.inj hspec)
  obtain ⟨hstring, hlen⟩ := h.text hxs
  obtain ⟨r, rfl, hmatches⟩ := hread xs a' hstring hlen ha
  exact ⟨reply r, m, rfl, hmatches, h, fun _ _ => rfl⟩

/-- Questions about two strings. -/
theorem Holds.refines_ask₂ (h : Holds L σ m) {α : Type} {reply : α → Reply} {out : Option α}
    {answer : List Byte → List Byte → Answer ι}
    (hread : ∀ xs ys, StringAt m (L.ptr l) xs → StringAt m (L.ptr s) ys →
      l.pos + xs.length < L.size l.buffer → ∃ r, out = some r ∧ Matches L (answer xs ys) (reply r)) :
    Refines L m (ask₂ σ l s answer) (reads m reply out) := by
  intro a σ' hspec
  obtain ⟨xs, hxs, hspec⟩ := Option.bind_eq_some_iff.mp hspec
  obtain ⟨ys, hys, hspec⟩ := Option.bind_eq_some_iff.mp hspec
  obtain ⟨rfl, rfl⟩ := Prod.mk.inj (Option.some.inj hspec)
  obtain ⟨hleft, hlen⟩ := h.text hxs
  obtain ⟨r, rfl, hmatches⟩ := hread xs ys hleft (h.text hys).1 hlen
  exact ⟨reply r, m, rfl, hmatches, h, fun _ _ => rfl⟩

/-- The length of a part of a string fits. -/
theorem matches_size (hs : StringAt m q xs) {k : ℕ} (hk : k ≤ xs.length) :
    Matches L (.size k) (.size (BitVec.ofNat 64 k)) := by
  have hlt := hs.length_lt
  refine .size ?_
  rw [BitVec.toNat_ofNat, Nat.mod_eq_of_lt (by omega)]

theorem matches_found {k : Option ℕ} (hnone : k = none → q = 0)
    (hsome : ∀ j, k = some j → q = ptrAdd (L.ptr s) j ∧ s.pos + j ≤ L.size s.buffer) :
    Matches L (found s k) (.ptr q) := by
  cases k with
  | none =>
      obtain rfl := hnone rfl
      exact .null
  | some j =>
      obtain ⟨rfl, hj⟩ := hsome j rfl
      rw [← Layout.ptr_place]
      exact .ptr (Layout.ptr_ne_zero hj)

/-- What finds a place among bytes of the buffer. -/
theorem matches_of_finds {place : Byte → List Byte → ℕ → Prop} {k : Option ℕ}
    (h : Finds place (L.ptr s) bytes b q) (hnone : k = none → b ∉ bytes)
    (hsome : ∀ j, k = some j → place b bytes j ∧ j ≤ bytes.length)
    (hlen : s.pos + bytes.length ≤ L.size s.buffer) : Matches L (found s k) (.ptr q) := by
  refine matches_found (fun hk => h.null_iff.mpr (hnone hk)) fun j hj => ?_
  obtain ⟨hplace, hle⟩ := hsome j hj
  exact ⟨h.found j hplace, by omega⟩

end Reads

section Questions

variable {ι : Type} {L : Layout ι} {σ : Strings ι} {m : Mapped}

theorem bytesBelow_eq {n : BitVec 64} {xs bytes : List Byte} (h : bytesBelow n xs = some bytes) :
    bytes = (xs ++ [0]).take n.toNat ∧ bytes.length = n.toNat ∧ bytes.length ≤ xs.length + 1 := by
  rw [bytesBelow] at h
  split_ifs at h with hn
  obtain rfl := Option.some.inj h
  have hlen : ((xs ++ [0]).take n.toNat).length = n.toNat :=
    List.length_take_of_le (by rw [List.length_append, List.length_singleton]; exact hn)
  exact ⟨rfl, hlen, hlen.trans_le hn⟩

theorem idxOf?_spec {b : Byte} {bytes : List Byte} :
    (bytes.idxOf? b = none → b ∉ bytes) ∧
      ∀ j, bytes.idxOf? b = some j → FirstAt b bytes j ∧ j ≤ bytes.length := by
  refine ⟨List.idxOf?_eq_none_iff.mp, fun j hj => ?_⟩
  obtain ⟨hlt, -⟩ := List.getElem?_eq_some_iff.mp (firstAt_of_idxOf? hj).1
  exact ⟨firstAt_of_idxOf? hj, hlt.le⟩

theorem lastIdxOf?_spec {b : Byte} {bytes : List Byte} :
    (lastIdxOf? b bytes = none → b ∉ bytes) ∧
      ∀ j, lastIdxOf? b bytes = some j → LastAt b bytes j ∧ j ≤ bytes.length := by
  refine ⟨lastIdxOf?_eq_none_iff.mp, fun j hj => ?_⟩
  obtain ⟨hlt, -⟩ := List.getElem?_eq_some_iff.mp (lastAt_of_lastIdxOf? hj).1
  exact ⟨lastAt_of_lastIdxOf? hj, hlt.le⟩

/-- Questions that always have an answer. -/
theorem Holds.refines_ask_some (h : Holds L σ m) {α : Type} {reply : α → Reply} {out : Option α}
    {s : Ptr ι} {answer : List Byte → Answer ι}
    (hread : ∀ xs, StringAt m (L.ptr s) xs → s.pos + xs.length < L.size s.buffer →
      ∃ r, out = some r ∧ Matches L (answer xs) (reply r)) :
    Refines L m (ask σ s fun xs => some (answer xs)) (reads m reply out) := by
  refine h.refines_ask fun xs a hs hlen ha => ?_
  obtain rfl := Option.some.inj ha
  exact hread xs hs hlen

/-- A search among the bytes below a count. -/
theorem Holds.refines_search (h : Holds L σ m) {s : Ptr ι} {n : BitVec 64} {b : Byte}
    {out : Option Addr} {place : Byte → List Byte → ℕ → Prop} {find : List Byte → Option ℕ}
    (hfind : ∀ bytes, (find bytes = none → b ∉ bytes) ∧
      ∀ j, find bytes = some j → place b bytes j ∧ j ≤ bytes.length)
    (hout : ∀ bytes, BytesAt m (L.ptr s) bytes → bytes.length = n.toNat →
      ∃ q, out = some q ∧ Finds place (L.ptr s) bytes b q) :
    Refines L m
      (ask σ s fun xs => do
        let bytes ← bytesBelow n xs
        return found s (find bytes))
      (reads m .ptr out) := by
  refine h.refines_ask fun xs a hs hlen ha => ?_
  obtain ⟨bytes, hbytes, ha⟩ := Option.bind_eq_some_iff.mp ha
  obtain rfl := Option.some.inj ha
  obtain ⟨rfl, hn, hle⟩ := bytesBelow_eq hbytes
  obtain ⟨q, rfl, hfinds⟩ := hout _ (hs.bytes.take n.toNat) hn
  exact ⟨q, rfl, matches_of_finds hfinds (hfind _).1 (hfind _).2 (by omega)⟩

/-- A search in a string and its terminator. -/
theorem Holds.refines_search_string (h : Holds L σ m) {s : Ptr ι} {b : Byte}
    {out : Option Addr} {place : Byte → List Byte → ℕ → Prop} {find : List Byte → Option ℕ}
    (hfind : ∀ bytes, (find bytes = none → b ∉ bytes) ∧
      ∀ j, find bytes = some j → place b bytes j ∧ j ≤ bytes.length)
    (hout : ∀ xs, StringAt m (L.ptr s) xs →
      ∃ q, out = some q ∧ Finds place (L.ptr s) (xs ++ [0]) b q) :
    Refines L m (ask σ s fun xs => some (found s (find (xs ++ [0])))) (reads m .ptr out) := by
  refine h.refines_ask_some fun xs hs hlen => ?_
  obtain ⟨q, rfl, hfinds⟩ := hout xs hs
  refine ⟨q, rfl, matches_of_finds hfinds (hfind _).1 (hfind _).2 ?_⟩
  rw [List.length_append, List.length_singleton]
  omega

/-- A comparison of two strings. -/
theorem Holds.refines_compare (h : Holds L σ m) {l r : Ptr ι} {out : Option (BitVec 32)}
    {diff : List Byte → List Byte → ℤ}
    (hout : ∀ xs ys, StringAt m (L.ptr l) xs → StringAt m (L.ptr r) ys →
      ∃ d, out = some d ∧ d.toInt = diff xs ys) :
    Refines L m (ask₂ σ l r fun xs ys => .int (diff xs ys)) (reads m .int out) := by
  refine h.refines_ask₂ fun xs ys hl hr _ => ?_
  obtain ⟨d, hd, hdiff⟩ := hout xs ys hl hr
  exact ⟨d, hd, .int hdiff⟩

theorem strstr_occurs {h n : Addr} {xs ys : List Byte} (hh : StringAt m h xs)
    (hn : StringAt m n ys) :
    ∃ q, strstr m h n = some q ∧ (occurs? ys xs = none → q = 0) ∧
      ∀ j, occurs? ys xs = some j → q = ptrAdd h j ∧ j ≤ xs.length := by
  cases ys with
  | nil =>
      have hnul : m.read n = some 0 := hn
      refine ⟨h, by rw [strstr, bind_of_some _ hnul, if_pos rfl]; rfl, fun hnone => ?_,
        fun j hj => ?_⟩
      · exact absurd List.nil_infix (occurs?_eq_none hnone)
      · -- the empty string occurs at the front
        obtain ⟨-, hfirst⟩ := occurs?_spec hj
        obtain rfl : j = 0 :=
          Nat.eq_zero_of_not_pos fun hpos => hfirst 0 hpos List.nil_prefix
        exact ⟨(ptrAdd_zero h).symm, Nat.zero_le _⟩
  | cons y ys =>
      have hloop := strstrLoop_eq hh hn (List.cons_ne_nil y ys) (k := scanSteps) hh.length_lt
      have hstrstr : strstr m h n = strstrLoop m n scanSteps h := by
        rw [strstr, bind_of_some _ hn.1, if_neg hn.2.1]
      rw [hstrstr]
      rcases hloop with ⟨hnull, hnone⟩ | ⟨i, hi, hq, hat, hleast⟩
      · exact ⟨0, hnull, fun _ => rfl, fun j hj => absurd (occurs?_spec hj).1 (hnone j)⟩
      · refine ⟨ptrAdd h i, hq, fun hnone => ?_, fun j hj => ?_⟩
        · exact absurd (infix_iff_exists_prefix_drop.mpr ⟨i, hat⟩) (occurs?_eq_none hnone)
        · obtain ⟨hocc, hfirst⟩ := occurs?_spec hj
          obtain rfl : i = j := by
            rcases lt_trichotomy i j with hlt | heq | hgt
            · exact absurd hat (hfirst i hlt)
            · exact heq
            · exact absurd hocc (hleast j hgt)
          exact ⟨rfl, hi.le⟩

theorem contains_eq (cs : List Byte) : cs.contains = fun b => decide (b ∈ cs) :=
  funext fun b => Bool.eq_iff_iff.mpr (by simp)

theorem not_contains_eq (cs : List Byte) : (!cs.contains ·) = fun b => decide (b ∉ cs) :=
  funext fun b => Bool.eq_iff_iff.mpr (by simp)

/-- What `strpbrk` points at. -/
theorem strpbrk_findIdx {s c : Addr} {xs cs : List Byte} (hs : StringAt m s xs)
    (hc : StringAt m c cs) :
    ∃ q, strpbrk m s c = some q ∧ (xs.findIdx? cs.contains = none → q = 0) ∧
      ∀ j, xs.findIdx? cs.contains = some j → q = ptrAdd s j ∧ j ≤ xs.length := by
  refine ⟨_, strpbrk_eq hs hc rfl, ?_, fun j => ?_⟩ <;> rw [findIdx?_eq, not_contains_eq] <;>
    split_ifs with hlt
  · nofun
  · exact fun _ => rfl
  · rintro ⟨rfl⟩
    exact ⟨rfl, hlt.le⟩
  · nofun

end Questions

section Writes

variable {ι : Type} [DecidableEq ι] {L : Layout ι} {σ σ' : Strings ι} {m m' : Mapped}
variable {d s : Ptr ι} {xs zs : List Byte} {n : BitVec 64}

/-- A write into one buffer. -/
theorem Holds.update (h : Holds L σ m) (hw : Wrote (L.ptr d) zs m m')
    (hfit : d.pos + zs.length ≤ L.size d.buffer) {t : Option (List Byte)}
    (ht : Known m' (L.addr d.buffer) t (L.size d.buffer)) :
    Holds L (Function.update σ d.buffer t) m' ∧ SameElsewhere L m m' := by
  have hinside : ∀ a, Within (L.ptr d) zs.length a → Within (L.addr d.buffer) (L.size d.buffer) a :=
    fun a hin => hin.of_part hfit (L.size_le _)
  refine ⟨⟨fun i k hk => hw.isSome (h.room i k hk), fun i => ?_⟩, fun a ha => ?_⟩
  · by_cases hi : i = d.buffer
    · subst hi
      rwa [Function.update_self]
    · rw [Function.update_of_ne hi]
      refine (h.strings i).congr fun k hk => hw.frame _ fun hin => ?_
      exact L.apart d.buffer i (Ne.symm hi) k hk (hinside _ hin)
  · exact hw.frame a fun hin => ha d.buffer (hinside a hin)

/-- A write with a terminator. -/
theorem Holds.write (h : Holds L σ m) (hspec : σ.write L.size d xs = some σ')
    (hw : Wrote (L.ptr d) zs m m') (hfit : d.pos + zs.length ≤ L.size d.buffer)
    (hxs : StringAt m' (L.ptr d) xs) (hlt : xs.length < zs.length) :
    Holds L σ' m' ∧ SameElsewhere L m m' := by
  rw [Strings.write] at hspec
  split_ifs at hspec
  obtain rfl := Option.some.inj hspec
  exact h.update hw hfit ((h.strings d.buffer).overwrite (L.size_le _) hw hfit hxs hlt)

/-- A string that is written with its terminator. -/
theorem Holds.write_string (h : Holds L σ m) (hspec : σ.write L.size d xs = some σ')
    (hw : Wrote (L.ptr d) (xs ++ [0]) m m') (hne : ∀ x ∈ xs, x ≠ 0) :
    Holds L σ' m' ∧ SameElsewhere L m m' := by
  have hfit : d.pos + xs.length < L.size d.buffer := by
    rw [Strings.write] at hspec
    split_ifs at hspec with hfit
    exact hfit
  refine h.write hspec hw ?_ (hw.stringAt hne) ?_ <;>
    rw [List.length_append, List.length_singleton] <;> omega

/-- `stpcpy` between two buffers. -/
theorem Holds.copy (h : Holds L σ m) (hspec : σ.copy L.size d s = some (xs, σ')) :
    ∃ m', stpcpy (L.ptr d) (L.ptr s) m = some (L.ptr (d.place xs.length), m') ∧
      d.pos + xs.length < L.size d.buffer ∧ Holds L σ' m' ∧ SameElsewhere L m m' := by
  obtain ⟨ys, hys, hspec⟩ := Option.bind_eq_some_iff.mp hspec
  obtain ⟨σ₁, hwrite, hspec⟩ := Option.bind_eq_some_iff.mp hspec
  split_ifs at hspec with hne
  obtain ⟨rfl, rfl⟩ := Prod.mk.inj (Option.some.inj hspec)
  obtain ⟨hstring, hlen⟩ := h.text hys
  have hfit : d.pos + ys.length < L.size d.buffer := by
    rw [Strings.write] at hwrite
    split_ifs at hwrite with hfit
    exact hfit
  obtain ⟨m', hcopy, hwrote⟩ :=
    stpcpy_eq hstring (h.room_ptr hfit) (L.apart_ptr hne hfit hlen)
  rw [← Layout.ptr_place] at hcopy
  exact ⟨m', hcopy, hfit, h.write_string hwrite hwrote hstring.ne_zero⟩

/-- `stpncpy` and `strncpy` between two buffers. -/
theorem Holds.copyN (h : Holds L σ m) (hspec : σ.copyN L.size d s n = some (xs, σ')) :
    ∃ m', stpncpy (L.ptr d) (L.ptr s) n m = some (L.ptr (d.place xs.length), m') ∧
      strncpy (L.ptr d) (L.ptr s) n m = some (L.ptr d, m') ∧
      d.pos + xs.length ≤ L.size d.buffer ∧ Holds L σ' m' ∧ SameElsewhere L m m' := by
  obtain ⟨ys, hys, hspec⟩ := Option.bind_eq_some_iff.mp hspec
  obtain ⟨σ₁, hwrite, hspec⟩ := Option.bind_eq_some_iff.mp hspec
  split_ifs at hspec with hbad
  obtain ⟨hne, hfit⟩ := not_or.mp hbad
  obtain ⟨rfl, rfl⟩ := Prod.mk.inj (Option.some.inj hspec)
  obtain ⟨hstring, hlen⟩ := h.text hys
  have htake : (ys.take n.toNat).length = min n.toNat ys.length := List.length_take
  have hread : s.pos + bytesRead n.toNat (ys.take n.toNat) ≤ L.size s.buffer := by
    unfold bytesRead
    omega
  obtain ⟨m', hstpncpy, hstrncpy, hwrote⟩ :=
    stpncpy_eq (hstring.cutAt n.toNat) (h.room_ptr (not_lt.mp hfit))
      (L.apart_ptr hne (not_lt.mp hfit) hread)
  rw [← Layout.ptr_place] at hstpncpy
  refine ⟨m', hstpncpy, hstrncpy, by omega, ?_⟩
  rw [Strings.writeN] at hwrite
  split_ifs at hwrite with hshort
  · -- the terminator is copied, and zeros are written after it
    have hall : ys.take n.toNat = ys := List.take_of_length_le hshort.le
    obtain ⟨k, hk⟩ := Nat.exists_eq_add_of_lt hshort
    have hzeros : ys ++ List.replicate (n.toNat - ys.length) 0 =
        ys ++ [0] ++ List.replicate k (0 : Byte) := by
      rw [show n.toNat - ys.length = k + 1 by omega, List.replicate_succ, List.append_assoc]
      rfl
    rw [hall, hzeros] at hwrote
    have hcopied : StringAt m' (L.ptr d) ys :=
      stringAt_iff.mpr ⟨(bytesAt_append.mp hwrote.bytes).1, hstring.ne_zero⟩
    have hcount : (ys ++ [0] ++ List.replicate k (0 : Byte)).length = n.toNat := by
      simp
      omega
    exact h.write hwrite hwrote (by omega) hcopied (by omega)
  · -- the count ends before the string does
    have hzeros : n.toNat - (ys.take n.toNat).length = 0 := by omega
    rw [hzeros, List.replicate_zero, List.append_nil] at hwrote
    rw [Strings.writeCut] at hwrite
    split_ifs at hwrite with hroom
    obtain rfl := Option.some.inj hwrite
    refine h.update hwrote hroom ?_
    exact (h.strings d.buffer).overwriteCut (L.size_le _) hwrote hroom fun x hx =>
      hstring.ne_zero x (List.mem_of_mem_take hx)

/-- `strcat` between two buffers. -/
theorem Holds.cat (h : Holds L σ m) {ys : List Byte} (hys : σ.text d = some ys)
    (hspec : σ.copy L.size (d.place ys.length) s = some (xs, σ')) :
    ∃ m', strcat (L.ptr d) (L.ptr s) m = some (L.ptr d, m') ∧ Holds L σ' m' ∧
      SameElsewhere L m m' := by
  obtain ⟨m', hcopy, -, hholds⟩ := h.copy hspec
  refine ⟨m', ?_, hholds⟩
  rw [L.ptr_place d] at hcopy
  rw [strcat, bind_of_some _ (strlen_eq (h.text hys).1)]
  change (strcpy (ptrAdd (L.ptr d) ys.length) (L.ptr s) m >>= _) = _
  rw [strcpy, bind_of_some _ hcopy]
  rfl

/-- `strerror_r` into a buffer. -/
theorem Holds.refines_strerrorR (h : Holds L σ m) (err : BitVec 32) (buflen : BitVec 64) :
    Refines L m ((Call.strerrorR err d buflen).act L.size σ)
      ((Call.strerrorR err d buflen).exec L m) := by
  intro a σ' hspec
  obtain ⟨M, hM, hspec⟩ := Option.bind_eq_some_iff.mp hspec
  by_cases hzero : buflen.toNat = 0
  · rw [if_pos hzero] at hspec
    obtain ⟨rfl, rfl⟩ := Prod.mk.inj (Option.some.inj hspec)
    refine ⟨.int Errno.ERANGE, m, ?_, .int rfl, h, fun _ _ => rfl⟩
    rw [Call.exec, strerrorR_empty hM hzero]
    rfl
  · rw [if_neg hzero] at hspec
    obtain ⟨σ₁, hwrite, hspec⟩ := Option.bind_eq_some_iff.mp hspec
    obtain ⟨rfl, rfl⟩ := Prod.mk.inj (Option.some.inj hspec)
    have hfit : d.pos + (M.bytes.take (buflen.toNat - 1)).length < L.size d.buffer := by
      rw [Strings.write] at hwrite
      split_ifs at hwrite with hfit
      exact hfit
    rw [List.length_take] at hfit
    rcases Nat.lt_or_ge M.bytes.length buflen.toNat with hwhole | hcut
    · have hall : M.bytes.take (buflen.toNat - 1) = M.bytes := List.take_of_length_le (by omega)
      obtain ⟨m', hrun, hwrote⟩ := strerrorR_fits hM hwhole (h.room_ptr (p := d) (by omega))
      rw [hall] at hwrite
      refine ⟨.int 0, m', ?_, ?_, h.write_string hwrite hwrote M.nonzero⟩
      · rw [Call.exec, hrun]
        rfl
      · rw [if_pos hwhole]
        exact .int rfl
    · obtain ⟨m', hrun, hwrote⟩ :=
        strerrorR_cut hM hcut (Nat.pos_of_ne_zero hzero) (h.room_ptr (p := d) (by omega))
      refine ⟨.int Errno.ERANGE, m', ?_, ?_, h.write_string hwrite hwrote fun x hx =>
        M.nonzero x (List.mem_of_mem_take hx)⟩
      · rw [Call.exec, hrun]
        rfl
      · rw [if_neg (not_lt.mpr hcut)]
        exact .int rfl

/-- Every call. -/
theorem Holds.refines (h : Holds L σ m) (c : Call ι) :
    Refines L m (c.act L.size σ) (c.exec L m) := by
  cases c with
  | strlen s => exact h.refines_ask_some fun xs hs _ => ⟨_, strlen_eq hs, matches_size hs le_rfl⟩
  | strnlen s n =>
      exact h.refines_ask_some fun xs hs _ =>
        ⟨_, strnlen_eq (hs.cutAt n.toNat), matches_size hs (List.length_take_le' _ _)⟩
  | memchr src c n =>
      exact h.refines_search (fun _ => idxOf?_spec) fun bytes hbytes => memchr_finds c hbytes
  | memrchr src c n =>
      exact h.refines_search (fun _ => lastIdxOf?_spec) fun bytes hbytes => memrchr_finds c hbytes
  | strchr s c =>
      refine h.refines_search_string (fun _ => idxOf?_spec) fun xs hs => ?_
      obtain ⟨q, hq, hfinds, -⟩ := strchr_finds c hs
      exact ⟨q, hq, hfinds⟩
  | strchrnul s c =>
      refine h.refines_ask_some fun xs hs hlen => ⟨_, strchrnul_eq c hs, ?_⟩
      refine matches_found nofun fun j hj => ?_
      obtain rfl := Option.some.inj hj
      exact ⟨rfl, (Nat.add_le_add_left (List.takeWhile_prefix _).length_le _).trans hlen.le⟩
  | strrchr s c =>
      refine h.refines_search_string (fun _ => lastIdxOf?_spec) fun xs hs => ?_
      obtain ⟨q, hq, hfinds⟩ := memrchr_finds c hs.bytes (length_terminated hs)
      refine ⟨q, ?_, hfinds⟩
      rw [strrchr, bind_of_some _ (strlen_eq hs)]
      exact hq
  | strcmp l r => exact h.refines_compare fun xs ys hl hr => strcmp_eq hl hr
  | strncmp l r n =>
      exact h.refines_compare fun xs ys hl hr => strncmp_eq (hl.cutAt n.toNat) (hr.cutAt n.toNat)
  | strcasecmp l r => exact h.refines_compare fun xs ys hl hr => strcasecmp_eq hl hr
  | strncasecmp l r n =>
      exact h.refines_compare fun xs ys hl hr =>
        strncasecmp_eq (hl.cutAt n.toNat) (hr.cutAt n.toNat)
  | strstr hay n =>
      refine h.refines_ask₂ fun xs ys hh hn hlen => ?_
      obtain ⟨q, hq, hnone, hsome⟩ := strstr_occurs hh hn
      refine ⟨q, hq, matches_found hnone fun j hj => ?_⟩
      obtain ⟨hplace, hle⟩ := hsome j hj
      exact ⟨hplace, by omega⟩
  | strspn s c =>
      refine h.refines_ask₂ fun xs cs hs hc _ => ⟨_, strspn_eq hs hc, ?_⟩
      rw [contains_eq]
      exact matches_size hs (List.takeWhile_prefix _).length_le
  | strcspn s c =>
      refine h.refines_ask₂ fun xs cs hs hc _ => ⟨_, strcspn_eq hs hc, ?_⟩
      rw [not_contains_eq]
      exact matches_size hs (List.takeWhile_prefix _).length_le
  | strpbrk s b =>
      refine h.refines_ask₂ fun xs cs hs hc hlen => ?_
      obtain ⟨q, hq, hnone, hsome⟩ := strpbrk_findIdx hs hc
      refine ⟨q, hq, matches_found hnone fun j hj => ?_⟩
      obtain ⟨hplace, hle⟩ := hsome j hj
      exact ⟨hplace, by omega⟩
  | stpcpy d s =>
      intro a σ' hspec
      obtain ⟨⟨xs, σ₁⟩, hcopy, hspec⟩ := Option.bind_eq_some_iff.mp hspec
      obtain ⟨rfl, rfl⟩ := Prod.mk.inj (Option.some.inj hspec)
      obtain ⟨m', hrun, hfit, hholds⟩ := h.copy hcopy
      refine ⟨.ptr _, m', ?_, .ptr (Layout.ptr_ne_zero (p := d.place xs.length) hfit.le), hholds⟩
      rw [Call.exec, hrun]
      rfl
  | strcpy d s =>
      intro a σ' hspec
      obtain ⟨⟨xs, σ₁⟩, hcopy, hspec⟩ := Option.bind_eq_some_iff.mp hspec
      obtain ⟨rfl, rfl⟩ := Prod.mk.inj (Option.some.inj hspec)
      obtain ⟨m', hrun, hfit, hholds⟩ := h.copy hcopy
      refine ⟨.ptr _, m', ?_, .ptr (Layout.ptr_ne_zero (p := d) (by omega)), hholds⟩
      rw [Call.exec, Checked.strcpy, bind_of_some _ hrun]
      rfl
  | strcat dest src =>
      intro a σ' hspec
      obtain ⟨ys, hys, hspec⟩ := Option.bind_eq_some_iff.mp hspec
      obtain ⟨⟨xs, σ₁⟩, hcopy, hspec⟩ := Option.bind_eq_some_iff.mp hspec
      obtain ⟨rfl, rfl⟩ := Prod.mk.inj (Option.some.inj hspec)
      obtain ⟨m', hrun, hholds⟩ := h.cat hys hcopy
      have hlen := (h.text hys).2
      refine ⟨.ptr _, m', ?_, .ptr (Layout.ptr_ne_zero (p := dest) (by omega)), hholds⟩
      rw [Call.exec, hrun]
      rfl
  -- the copies that the count may cut, and that then leave no terminator
  | stpncpy d s n =>
      intro a σ' hspec
      obtain ⟨⟨xs, σ₁⟩, hcopy, hspec⟩ := Option.bind_eq_some_iff.mp hspec
      obtain ⟨rfl, rfl⟩ := Prod.mk.inj (Option.some.inj hspec)
      obtain ⟨m', hrun, -, hfit, hholds⟩ := h.copyN hcopy
      refine ⟨.ptr _, m', ?_, .ptr (Layout.ptr_ne_zero (p := d.place xs.length) hfit), hholds⟩
      rw [Call.exec, hrun]
      rfl
  | strncpy d s n =>
      intro a σ' hspec
      obtain ⟨⟨xs, σ₁⟩, hcopy, hspec⟩ := Option.bind_eq_some_iff.mp hspec
      obtain ⟨rfl, rfl⟩ := Prod.mk.inj (Option.some.inj hspec)
      obtain ⟨m', -, hrun, hfit, hholds⟩ := h.copyN hcopy
      refine ⟨.ptr _, m', ?_, .ptr (Layout.ptr_ne_zero (p := d) (by omega)), hholds⟩
      rw [Call.exec, hrun]
      rfl
  | strerrorR err buf buflen => exact h.refines_strerrorR err buflen

end Writes

/-- **The string functions refine the operations on lists.**  With nothing mapped but
the buffers, and for as long as a program keeps to the contracts, every call
returns, and answers what the lists do; the buffers hold the strings that the lists
say, and outside the buffers nothing changes. -/
theorem calls_refine {ι : Type} [DecidableEq ι] {L : Layout ι} {σ σ' : Strings ι} {m : Mapped}
    (h : Holds L σ m) (cs : List (Call ι)) {answers : List (Answer ι)}
    (hspec : actCalls L.size cs σ = some (answers, σ')) :
    ∃ replies m', execCalls L cs m = some (replies, m') ∧
      List.Forall₂ (Matches L) answers replies ∧ Holds L σ' m' ∧ SameElsewhere L m m' := by
  induction cs generalizing σ m answers with
  | nil =>
      obtain ⟨rfl, rfl⟩ := Prod.mk.inj (Option.some.inj hspec)
      exact ⟨[], m, rfl, .nil, h, fun _ _ => rfl⟩
  | cons c cs ih =>
      obtain ⟨⟨a, σ₁⟩, hact, hspec⟩ := Option.bind_eq_some_iff.mp hspec
      obtain ⟨⟨rest, σ₂⟩, hrest, hspec⟩ := Option.bind_eq_some_iff.mp hspec
      obtain ⟨rfl, rfl⟩ := Prod.mk.inj (Option.some.inj hspec)
      obtain ⟨r, m₁, hexec, hmatches, hholds, hsame⟩ := h.refines c a σ₁ hact
      obtain ⟨rs, m', hexecs, hall, hholds', hsame'⟩ := ih hholds hrest
      refine ⟨r :: rs, m', ?_, .cons hmatches hall, hholds',
        fun x hx => (hsame' x hx).trans (hsame x hx)⟩
      rw [execCalls, bind_of_some _ hexec, bind_of_some _ hexecs]
      rfl

/-- A buffer of four bytes and one of six. -/
def abLayout : Layout Bool where
  addr i := if i then 0x2000 else 0x1000
  size i := if i then 6 else 4
  nonnull := by decide
  fits := by decide
  apart := by
    unfold Apart
    decide

/-- The string `"ab"` in the first buffer. -/
def abMemory : Mapped :=
  view (fun a => if a = 0x1000 then 97 else if a = 0x1001 then 98 else if a = 0x1002 then 0 else 255)
    fun a => Within 0x1000 4 a ∨ Within 0x2000 6 a

def abStrings : Strings Bool := fun i => if i then none else some [97, 98]

theorem abMemory_holds : Holds abLayout abStrings abMemory where
  room := by
    unfold Room
    decide
  strings := by
    intro i xs hxs
    cases i with
    | false =>
        obtain rfl := Option.some.inj hxs
        exact ⟨by decide, rfl, by decide, rfl, by decide, rfl⟩
    | true => cases hxs

/-- `"ab"` is copied twice, a byte of it once more, and the copy then searched. -/
theorem calls_refine_ab :
    ∃ replies m', execCalls abLayout
        [.strcpy ⟨true, 0⟩ ⟨false, 0⟩, .strcat ⟨true, 1⟩ ⟨false, 0⟩, .strncpy ⟨true, 1⟩ ⟨false, 0⟩ 1,
          .strlen ⟨true, 0⟩, .strstr ⟨true, 0⟩ ⟨false, 0⟩, .strrchr ⟨true, 3⟩ 97] abMemory =
          some (replies, m') ∧
      List.Forall₂ (Matches abLayout)
        [.ptr (some ⟨true, 0⟩), .ptr (some ⟨true, 1⟩), .ptr (some ⟨true, 1⟩), .size 4,
          .ptr (some ⟨true, 2⟩), .ptr none] replies ∧
      StringAt m' 0x2000 [97, 97, 97, 98] := by
  obtain ⟨replies, m', hexec, hall, hholds, -⟩ := calls_refine abMemory_holds
    [.strcpy ⟨true, 0⟩ ⟨false, 0⟩, .strcat ⟨true, 1⟩ ⟨false, 0⟩, .strncpy ⟨true, 1⟩ ⟨false, 0⟩ 1,
      .strlen ⟨true, 0⟩, .strstr ⟨true, 0⟩ ⟨false, 0⟩, .strrchr ⟨true, 3⟩ 97] rfl
  exact ⟨replies, m', hexec, hall, (hholds.strings true _ rfl).2⟩

end Mytilus.Str.Checked.Buffers
