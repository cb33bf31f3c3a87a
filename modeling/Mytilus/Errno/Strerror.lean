import Mytilus.Base.CString

/-!
# The table of error messages

`MESSAGES` is the catch-all message in every place, with the messages of the
table written over it one after the other.  No number is given a message twice,
and every number fits, so an error number of the table selects its own message
(`strerrorStr_of_mem`), and any other `int` the catch-all (`strerrorStr_of_notMem`).

Both go through two facts about the numbers of the table, that they are distinct and
that they fit (`entries_nodup`, `entries_lt`); the messages themselves are looked at
only to see that no byte of them is zero (`entries_nonzero`).
-/

namespace Mytilus.Errno

/-! ## Error numbers -/

def EPERM : BitVec 32 := 1
def ENOENT : BitVec 32 := 2
def ESRCH : BitVec 32 := 3
def EINTR : BitVec 32 := 4
def EIO : BitVec 32 := 5
def ENXIO : BitVec 32 := 6
def E2BIG : BitVec 32 := 7
def ENOEXEC : BitVec 32 := 8
def EBADF : BitVec 32 := 9
def ECHILD : BitVec 32 := 10
def EAGAIN : BitVec 32 := 11
def ENOMEM : BitVec 32 := 12
def EACCES : BitVec 32 := 13
def EFAULT : BitVec 32 := 14
def ENOTBLK : BitVec 32 := 15
def EBUSY : BitVec 32 := 16
def EEXIST : BitVec 32 := 17
def EXDEV : BitVec 32 := 18
def ENODEV : BitVec 32 := 19
def ENOTDIR : BitVec 32 := 20
def EISDIR : BitVec 32 := 21
def EINVAL : BitVec 32 := 22
def ENFILE : BitVec 32 := 23
def EMFILE : BitVec 32 := 24
def ENOTTY : BitVec 32 := 25
def ETXTBSY : BitVec 32 := 26
def EFBIG : BitVec 32 := 27
def ENOSPC : BitVec 32 := 28
def ESPIPE : BitVec 32 := 29
def EROFS : BitVec 32 := 30
def EMLINK : BitVec 32 := 31
def EPIPE : BitVec 32 := 32
def EDOM : BitVec 32 := 33
def ERANGE : BitVec 32 := 34
def EDEADLK : BitVec 32 := 35
def ENAMETOOLONG : BitVec 32 := 36
def ENOLCK : BitVec 32 := 37
def ENOSYS : BitVec 32 := 38
def ENOTEMPTY : BitVec 32 := 39
def ELOOP : BitVec 32 := 40
def ENOMSG : BitVec 32 := 42
def EIDRM : BitVec 32 := 43
def ENOSTR : BitVec 32 := 60
def ENODATA : BitVec 32 := 61
def ETIME : BitVec 32 := 62
def ENOSR : BitVec 32 := 63
def ENOLINK : BitVec 32 := 67
def EPROTO : BitVec 32 := 71
def EMULTIHOP : BitVec 32 := 72
def EBADMSG : BitVec 32 := 74
def EOVERFLOW : BitVec 32 := 75
def EBADFD : BitVec 32 := 77
def EILSEQ : BitVec 32 := 84
def ENOTSOCK : BitVec 32 := 88
def EDESTADDRREQ : BitVec 32 := 89
def EMSGSIZE : BitVec 32 := 90
def EPROTOTYPE : BitVec 32 := 91
def ENOPROTOOPT : BitVec 32 := 92
def EPROTONOSUPPORT : BitVec 32 := 93
def ESOCKTNOSUPPORT : BitVec 32 := 94
def EOPNOTSUPP : BitVec 32 := 95
def ENOTSUP : BitVec 32 := EOPNOTSUPP
def EPFNOSUPPORT : BitVec 32 := 96
def EAFNOSUPPORT : BitVec 32 := 97
def EADDRINUSE : BitVec 32 := 98
def EADDRNOTAVAIL : BitVec 32 := 99
def ENETDOWN : BitVec 32 := 100
def ENETUNREACH : BitVec 32 := 101
def ENETRESET : BitVec 32 := 102
def ECONNABORTED : BitVec 32 := 103
def ECONNRESET : BitVec 32 := 104
def ENOBUFS : BitVec 32 := 105
def EISCONN : BitVec 32 := 106
def ENOTCONN : BitVec 32 := 107
def ESHUTDOWN : BitVec 32 := 108
def ETIMEDOUT : BitVec 32 := 110
def ECONNREFUSED : BitVec 32 := 111
def EHOSTDOWN : BitVec 32 := 112
def EHOSTUNREACH : BitVec 32 := 113
def EALREADY : BitVec 32 := 114
def EINPROGRESS : BitVec 32 := 115
def ESTALE : BitVec 32 := 116
def EUCLEAN : BitVec 32 := 117
def ENAVAIL : BitVec 32 := 119
def EREMOTEIO : BitVec 32 := 121
def EDQUOT : BitVec 32 := 122
def ENOMEDIUM : BitVec 32 := 123
def EMEDIUMTYPE : BitVec 32 := 124
def ECANCELED : BitVec 32 := 125
def ENOKEY : BitVec 32 := 126
def EKEYEXPIRED : BitVec 32 := 127
def EKEYREVOKED : BitVec 32 := 128
def EKEYREJECTED : BitVec 32 := 129
def EOWNERDEAD : BitVec 32 := 130
def ENOTRECOVERABLE : BitVec 32 := 131

/-! ## Messages -/

/-- A C string of its own: bytes other than the terminator. -/
structure CStr where
  bytes : List Byte
  nonzero : ∀ b ∈ bytes, b ≠ 0

/-- The bytes of a literal `c"..."` before its terminator. -/
def literal (s : String) : List Byte := s.toUTF8.data.toList.map UInt8.toBitVec

/-- The assignments `m[e::E... as usize] = c"..."`, in their order. -/
def entries : List (BitVec 32 × String) :=
  [(EILSEQ, "Illegal byte sequence"),
   (EDOM, "Domain error"),
   (ERANGE, "Result not representable"),
   (ENOTTY, "Not a tty"),
   (EACCES, "Permission denied"),
   (EPERM, "Operation not permitted"),
   (ENOENT, "No such file or directory"),
   (ESRCH, "No such process"),
   (EEXIST, "File exists"),
   (EOVERFLOW, "Value too large for data type"),
   (ENOSPC, "No space left on device"),
   (ENOMEM, "Out of memory"),
   (EBUSY, "Resource busy"),
   (EINTR, "Interrupted system call"),
   (EAGAIN, "Resource temporarily unavailable"),
   (ESPIPE, "Invalid seek"),
   (EXDEV, "Cross-device link"),
   (EROFS, "Read-only file system"),
   (ENOTEMPTY, "Directory not empty"),
   (ECONNRESET, "Connection reset by peer"),
   (ETIMEDOUT, "Operation timed out"),
   (ECONNREFUSED, "Connection refused"),
   (EHOSTDOWN, "Host is down"),
   (EHOSTUNREACH, "Host is unreachable"),
   (EADDRINUSE, "Address in use"),
   (EPIPE, "Broken pipe"),
   ( EIO, "I/O error"),
   ( ENXIO, "No such device or address"),
   (ENOTBLK, "Block device required"),
   (ENODEV, "No such device"),
   (ENOTDIR, "Not a directory"),
   (EISDIR, "Is a directory"),
   (ETXTBSY, "Text file busy"),
   (ENOEXEC, "Exec format error"),
   (EINVAL, "Invalid argument"),
   (E2BIG, "Argument list too long"),
   (ELOOP, "Symbolic link loop"),
   (ENAMETOOLONG, "Filename too long"),
   (ENFILE, "Too many open files in system"),
   (EMFILE, "No file descriptors available"),
   (EBADF, "Bad file descriptor"),
   (ECHILD, "No child process"),
   (EFAULT, "Bad address"),
   (EFBIG, "File too large"),
   (EMLINK, "Too many links"),
   (ENOLCK, "No locks available"),
   (EDEADLK, "Resource deadlock would occur"),
   (ENOTRECOVERABLE, "State not recoverable"),
   (EOWNERDEAD, "Previous owner died"),
   (ECANCELED, "Operation canceled"),
   (ENOSYS, "Function not implemented"),
   (ENOMSG, "No message of desired type"),
   (EIDRM, "Identifier removed"),
   (ENOSTR, "Device not a stream"),
   (ENODATA, "No data available"),
   (ETIME, "Device timeout"),
   (ENOSR, "Out of streams resources"),
   (ENOLINK, "Link has been severed"),
   (EPROTO, "Protocol error"),
   (EBADMSG, "Bad message"),
   (EBADFD, "File descriptor in bad state"),
   (ENOTSOCK, "Not a socket"),
   (EDESTADDRREQ, "Destination address required"),
   (EMSGSIZE, "Message too large"),
   (EPROTOTYPE, "Protocol wrong type for socket"),
   (ENOPROTOOPT, "Protocol not available"),
   (EPROTONOSUPPORT, "Protocol not supported"),
   (ESOCKTNOSUPPORT, "Socket type not supported"),
   (ENOTSUP, "Not supported"),
   (EPFNOSUPPORT, "Protocol family not supported"),
   (EAFNOSUPPORT, "Address family not supported by protocol"),
   (EADDRNOTAVAIL, "Address not available"),
   (ENETDOWN, "Network is down"),
   (ENETUNREACH, "Network unreachable"),
   (ENETRESET, "Connection reset by network"),
   (ECONNABORTED, "Connection aborted"),
   (ENOBUFS, "No buffer space available"),
   (EISCONN, "Socket is connected"),
   (ENOTCONN, "Socket not connected"),
   (ESHUTDOWN, "Cannot send after socket shutdown"),
   (EALREADY, "Operation already in progress"),
   (EINPROGRESS, "Operation in progress"),
   (ESTALE, "Stale file handle"),
   (EUCLEAN, "Data consistency error"),
   (ENAVAIL, "Resource not available"),
   ( EREMOTEIO, "Remote I/O error"),
   (EDQUOT, "Quota exceeded"),
   (ENOMEDIUM, "No medium found"),
   (EMEDIUMTYPE, "Wrong medium type"),
   (EMULTIHOP, "Multihop attempted"),
   (ENOKEY, "Required key not available"),
   (EKEYEXPIRED, "Key has expired"),
   (EKEYREVOKED, "Key has been revoked"),
   (EKEYREJECTED, "Key was rejected by service")]

theorem literal_nonzero {s : String} (h : s.toUTF8.data.toList.all (· != 0) = true) :
    ∀ b ∈ literal s, b ≠ 0 := by
  intro b hb
  obtain ⟨c, hc, rfl⟩ := List.mem_map.mp hb
  have hne : c ≠ 0 := bne_iff_ne.mp (List.all_eq_true.mp h c hc)
  exact fun hzero => hne (UInt8.toBitVec_inj.mp hzero)

theorem entries_nonzero : ∀ e ∈ entries, e.2.toUTF8.data.toList.all (· != 0) = true := by
  decide +kernel

def UNK : CStr := ⟨literal "No error information", literal_nonzero (by decide +kernel)⟩

/-- The message of an entry. -/
def message (e : { e // e ∈ entries }) : CStr :=
  ⟨literal e.1.2, literal_nonzero (entries_nonzero e.1 e.2)⟩

/-- Assignments to places of a list, one after the other. -/
def assign {α : Type} (l : List α) (es : List (ℕ × α)) : List α :=
  es.foldl (fun m e => m.set e.1 e.2) l

def MESSAGES : List CStr :=
  assign (List.replicate 132 UNK) (entries.attach.map fun e => (e.1.1.toNat, message e))

/-- `fn strerror_str(err: c_int) -> &'static CStr`; there is none where the index panics. -/
def strerrorStr (err : BitVec 32) : Option CStr :=
  let idx := if err.toInt < 0 ∨ MESSAGES.length ≤ (err.signExtend 64).toNat then 0
    else (err.signExtend 64).toNat
  MESSAGES[idx]?

/-! ## Selection -/

section Assign

variable {α : Type} {es : List (ℕ × α)} {i : ℕ} {x : α}

theorem length_assign (l : List α) : (assign l es).length = l.length := by
  induction es generalizing l with
  | nil => rfl
  | cons e es ih => exact (ih _).trans List.length_set

theorem assign_of_notMem (l : List α) (h : i ∉ es.map Prod.fst) : (assign l es)[i]? = l[i]? := by
  induction es generalizing l with
  | nil => rfl
  | cons e es ih =>
      rw [List.map_cons, List.mem_cons, not_or] at h
      exact (ih _ h.2).trans (List.getElem?_set_ne (Ne.symm h.1))

/-- With no place assigned twice, each assignment stays. -/
theorem assign_of_mem {l : List α} (hnodup : (es.map Prod.fst).Nodup) (h : (i, x) ∈ es)
    (hi : i < l.length) : (assign l es)[i]? = some x := by
  induction es generalizing l with
  | nil => cases h
  | cons e es ih =>
      obtain ⟨hnotmem, hnodup⟩ := List.nodup_cons.mp hnodup
      rcases List.mem_cons.mp h with rfl | h
      · exact (assign_of_notMem _ hnotmem).trans (List.getElem?_set_self hi)
      · exact ih hnodup h (by rwa [List.length_set])

end Assign

theorem length_messages : MESSAGES.length = 132 := by
  rw [MESSAGES, length_assign, List.length_replicate]

theorem entries_lt : ∀ e ∈ entries, e.1.toNat < 132 := by
  decide +kernel

theorem entries_nodup : (entries.map fun e => e.1.toNat).Nodup := by
  decide +kernel

/-- The numbers that are assigned to. -/
theorem numbers_eq : (entries.attach.map fun e => (e.1.1.toNat, message e)).map Prod.fst =
    entries.map fun e => e.1.toNat := by
  conv_rhs => rw [← List.attach_map_subtype_val entries, List.map_map]
  rw [List.map_map]
  rfl

theorem not_toInt_neg {err : BitVec 32} (h : err.msb = false) : ¬ err.toInt < 0 := by
  rw [BitVec.toInt_eq_toNat_of_msb h]
  omega

theorem toNat_signExtend {err : BitVec 32} (h : err.msb = false) :
    (err.signExtend 64).toNat = err.toNat := by
  rw [BitVec.signExtend_eq_setWidth_of_msb_false h, BitVec.toNat_setWidth]
  omega

theorem index_eq {err : BitVec 32} (h : err.toNat < 132) :
    strerrorStr err = MESSAGES[err.toNat]? := by
  have hsmall : err.msb = false := BitVec.msb_eq_false_iff_two_mul_lt.mpr (by omega)
  rw [strerrorStr, toNat_signExtend hsmall, length_messages,
    if_neg (not_or.mpr ⟨not_toInt_neg hsmall, by omega⟩)]

/-- An `int` that is no index selects the first message. -/
theorem index_zero {err : BitVec 32} (h : 132 ≤ err.toNat) : strerrorStr err = MESSAGES[0]? := by
  have hout : err.toInt < 0 ∨ MESSAGES.length ≤ (err.signExtend 64).toNat := by
    rw [length_messages]
    cases hmsb : err.msb with
    | false => exact .inr (by rwa [toNat_signExtend hmsb])
    | true => exact .inl (BitVec.toInt_neg_of_msb_true hmsb)
  rw [strerrorStr, if_pos hout]

/-- Each error number of the table selects its message. -/
theorem strerrorStr_of_mem (e : { e // e ∈ entries }) : strerrorStr e.1.1 = some (message e) := by
  have hlt := entries_lt e.1 e.2
  rw [index_eq hlt, MESSAGES]
  refine assign_of_mem ?_ (List.mem_map.mpr ⟨e, List.mem_attach _ e, rfl⟩) ?_
  · rw [numbers_eq]
    exact entries_nodup
  · rwa [List.length_replicate]

/-- Any other `int` selects the catch-all. -/
theorem strerrorStr_of_notMem {err : BitVec 32} (h : ∀ e ∈ entries, e.1 ≠ err) :
    strerrorStr err = some UNK := by
  have hunk : ∀ i < 132, (∀ e ∈ entries, e.1.toNat ≠ i) → MESSAGES[i]? = some UNK := by
    intro i hi hnone
    rw [MESSAGES, assign_of_notMem]
    · exact List.getElem?_replicate_of_lt hi
    · rw [numbers_eq, List.mem_map]
      exact fun ⟨e, he, heq⟩ => hnone e he heq
  rcases Nat.lt_or_ge err.toNat 132 with hlt | hge
  · rw [index_eq hlt]
    exact hunk _ hlt fun e he heq => h e he (BitVec.eq_of_toNat_eq heq)
  · -- a number outside the table selects place 0, and no entry has that number
    rw [index_zero hge]
    refine hunk 0 (by norm_num) ?_
    decide +kernel

/-- A message is selected for every `int`. -/
theorem exists_strerrorStr (err : BitVec 32) : ∃ M, strerrorStr err = some M := by
  by_cases h : ∃ e ∈ entries, e.1 = err
  · obtain ⟨e, he, rfl⟩ := h
    exact ⟨_, strerrorStr_of_mem ⟨e, he⟩⟩
  · exact ⟨UNK, strerrorStr_of_notMem fun e he heq => h ⟨e, he, heq⟩⟩

end Mytilus.Errno
