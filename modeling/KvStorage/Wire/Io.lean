import KvStorage.Lib.CMonad

/-!
# Complete transfers over a socket (`message-private.c`)

`write` and `read` transfer what the kernel takes or has, are interrupted, or
fail; `writeAll` and `readAll` are the loops around them. The kernel's choices
are a script of events, one per call; a call after the end of the script
transfers everything asked for, so that a finite script describes a finite
number of short transfers and interruptions.

The bytes a connection will still deliver are a list that ends where the peer's
end was closed. `readAll_eq` says what the read loop does on every script
without failures: all of the bytes asked for, or 0 when the stream ends first,
whatever the splits.
-/

namespace KvStorage

open CLib

/-- One call of `write` or `read`. -/
inductive IoEvent
  /-- -1 with `errno == EINTR`. -/
  | eintr
  /-- At most `n` bytes, and at least one. -/
  | piece (n : Nat)
  /-- -1 with another `errno`. -/
  | fail
  deriving DecidableEq

/-- No call fails. -/
def Unfailing (script : List IoEvent) : Prop := ∀ e ∈ script, e ≠ .fail

/-- The end of a `write_all`: its result, the bytes written, and the script
left. -/
structure WriteEnd where
  res : Int
  written : List Byte
  script : List IoEvent

/-- The loop of `write_all` with `rest` still to write. -/
def writeLoop (bufsize : Int) : List IoEvent → (rest written : List Byte) → WriteEnd
  | script, [], written => ⟨bufsize, written, script⟩
  | [], rest, written => ⟨bufsize, written ++ rest, []⟩
  | .eintr :: script, rest, written => writeLoop bufsize script rest written
  | .fail :: script, _, written => ⟨-1, written, script⟩
  | .piece n :: script, rest, written =>
    let k := max n 1
    writeLoop bufsize script (rest.drop k) (written ++ rest.take k)

/-- `write_all`: `len` bytes of `buf`. -/
def writeAll (script : List IoEvent) (buf : List Byte) (len : Int) : WriteEnd :=
  writeLoop len script (buf.take len.toNat) []

/-- The end of a `read_all`: its result, the bytes read, the bytes still to
arrive and the script left. -/
structure ReadEnd where
  res : Int
  got : List Byte
  incoming : List Byte
  script : List IoEvent

/-- The loop of `read_all` with `len` bytes still to read; `read` returns 0 at
the end of the stream. -/
def readLoop (bufsize : Int) : List IoEvent → (incoming : List Byte) → (len : Nat) →
    (got : List Byte) → ReadEnd
  | script, incoming, 0, got => ⟨bufsize, got, incoming, script⟩
  | [], incoming, len, got =>
    if len ≤ incoming.length then ⟨bufsize, got ++ incoming.take len, incoming.drop len, []⟩
    else ⟨0, got ++ incoming, [], []⟩
  | .eintr :: script, incoming, len, got => readLoop bufsize script incoming len got
  | .fail :: script, incoming, _, got => ⟨-1, got, incoming, script⟩
  | .piece n :: script, incoming, len, got =>
    let k := min (max n 1) (min len incoming.length)
    if k = 0 then ⟨0, got, incoming, script⟩
    else readLoop bufsize script (incoming.drop k) (len - k) (got ++ incoming.take k)

/-- `read_all`. -/
def readAll (script : List IoEvent) (incoming : List Byte) (len : Nat) : ReadEnd :=
  readLoop len script incoming len []

section Steps

variable (bufsize : Int) (script : List IoEvent) (incoming : List Byte) (len : Nat)
  (got : List Byte)

theorem readLoop_end : readLoop bufsize [] incoming (len + 1) got
    = if len + 1 ≤ incoming.length then
        ⟨bufsize, got ++ incoming.take (len + 1), incoming.drop (len + 1), []⟩
      else ⟨0, got ++ incoming, [], []⟩ := rfl

theorem readLoop_fail : readLoop bufsize (.fail :: script) incoming (len + 1) got
    = ⟨-1, got, incoming, script⟩ := rfl

theorem readLoop_piece (n : Nat) : readLoop bufsize (.piece n :: script) incoming (len + 1) got
    = if min (max n 1) (min (len + 1) incoming.length) = 0 then ⟨0, got, incoming, script⟩
      else readLoop bufsize script
        (incoming.drop (min (max n 1) (min (len + 1) incoming.length)))
        (len + 1 - min (max n 1) (min (len + 1) incoming.length))
        (got ++ incoming.take (min (max n 1) (min (len + 1) incoming.length))) := rfl

end Steps

/-! ## The loops without failing calls -/

theorem writeLoop_eq (bufsize : Int) : ∀ {script : List IoEvent}, Unfailing script →
    ∀ (rest written : List Byte), ∃ script', Unfailing script' ∧
      writeLoop bufsize script rest written = ⟨bufsize, written ++ rest, script'⟩
  | script, h, [], written => by
    refine ⟨script, h, ?_⟩
    unfold writeLoop
    rw [List.append_nil]
  | [], h, b :: rest, written => ⟨[], h, rfl⟩
  | .eintr :: script, h, b :: rest, written => by
    unfold writeLoop
    exact writeLoop_eq bufsize (fun e he => h e (List.mem_cons_of_mem _ he)) _ _
  | .fail :: script, h, b :: rest, written => absurd rfl (h .fail (List.mem_cons_self ..))
  | .piece n :: script, h, b :: rest, written => by
    unfold writeLoop
    obtain ⟨script', hs, heq⟩ := writeLoop_eq bufsize
      (fun e he => h e (List.mem_cons_of_mem _ he)) ((b :: rest).drop (max n 1))
      (written ++ (b :: rest).take (max n 1))
    refine ⟨script', hs, ?_⟩
    rw [heq, List.append_assoc, List.take_append_drop]

/-- `write_all` writes the whole buffer. -/
theorem writeAll_eq {script : List IoEvent} (h : Unfailing script) (buf : List Byte) :
    ∃ script', Unfailing script' ∧ writeAll script buf buf.length = ⟨buf.length, buf, script'⟩ := by
  obtain ⟨script', hs, heq⟩ := writeLoop_eq buf.length h buf []
  refine ⟨script', hs, ?_⟩
  unfold writeAll
  rw [Int.toNat_natCast, List.take_length, heq, List.nil_append]

theorem readLoop_eq (bufsize : Int) : ∀ {script : List IoEvent}, Unfailing script →
    ∀ (incoming : List Byte) (len : Nat) (got : List Byte), ∃ script', Unfailing script' ∧
      readLoop bufsize script incoming len got
        = if len ≤ incoming.length then
            ⟨bufsize, got ++ incoming.take len, incoming.drop len, script'⟩
          else ⟨0, got ++ incoming, [], script'⟩
  | script, h, incoming, 0, got => by
    refine ⟨script, h, ?_⟩
    unfold readLoop
    simp
  | [], h, incoming, len + 1, got => ⟨[], h, rfl⟩
  | .eintr :: script, h, incoming, len + 1, got => by
    unfold readLoop
    exact readLoop_eq bufsize (fun e he => h e (List.mem_cons_of_mem _ he)) _ _ _
  | .fail :: script, h, incoming, len + 1, got => absurd rfl (h .fail (List.mem_cons_self ..))
  | .piece n :: script, h, incoming, len + 1, got => by
    have htail : Unfailing script := fun e he => h e (List.mem_cons_of_mem _ he)
    rw [readLoop_piece]
    by_cases hk : min (max n 1) (min (len + 1) incoming.length) = 0
    · -- nothing can be transferred: the stream is over
      have hnil : incoming = [] := List.length_eq_zero_iff.mp (by omega)
      rw [if_pos hk]
      refine ⟨script, htail, ?_⟩
      subst hnil
      simp
    · rw [if_neg hk]
      obtain ⟨script', hs, heq⟩ := readLoop_eq bufsize htail
        (incoming.drop (min (max n 1) (min (len + 1) incoming.length)))
        (len + 1 - min (max n 1) (min (len + 1) incoming.length))
        (got ++ incoming.take (min (max n 1) (min (len + 1) incoming.length)))
      refine ⟨script', hs, ?_⟩
      generalize hkdef : min (max n 1) (min (len + 1) incoming.length) = k at heq hk ⊢
      have hkle : k ≤ len + 1 ∧ k ≤ incoming.length := by omega
      clear hkdef
      have hsum : k + (len + 1 - k) = len + 1 := by omega
      rw [heq, List.length_drop]
      by_cases hlen : len + 1 ≤ incoming.length
      · rw [if_pos hlen, if_pos (by omega), List.append_assoc, List.drop_drop, ← List.take_add,
          hsum]
      · rw [if_neg hlen, if_neg (by omega), List.append_assoc, List.take_append_drop]

/-- `read_all` returns the bytes asked for, or 0 when the stream ends before. -/
theorem readAll_eq {script : List IoEvent} (h : Unfailing script) (incoming : List Byte)
    (len : Nat) : ∃ script', Unfailing script' ∧
      readAll script incoming len
        = if len ≤ incoming.length then ⟨len, incoming.take len, incoming.drop len, script'⟩
          else ⟨0, incoming, [], script'⟩ := by
  obtain ⟨script', hs, heq⟩ := readLoop_eq len h incoming len []
  exact ⟨script', hs, by simpa [readAll] using heq⟩

/-- With failing calls too: a `read_all` that reports `len` bytes has them. -/
theorem readLoop_complete {bufsize : Int} (hbuf : 0 < bufsize) : ∀ {script : List IoEvent}
    {incoming : List Byte} {len : Nat} {got : List Byte},
    (readLoop bufsize script incoming len got).res = bufsize →
    len ≤ incoming.length ∧
      (readLoop bufsize script incoming len got).got = got ++ incoming.take len ∧
      (readLoop bufsize script incoming len got).incoming = incoming.drop len
  | script, incoming, 0, got, _ => by
    unfold readLoop
    simp
  | [], incoming, len + 1, got, h => by
    rw [readLoop_end] at h ⊢
    by_cases hle : len + 1 ≤ incoming.length
    · simp [hle]
    · rw [if_neg hle] at h
      dsimp only at h
      omega
  | .eintr :: script, incoming, len + 1, got, h => by
    unfold readLoop at h ⊢
    exact readLoop_complete hbuf h
  | .fail :: script, incoming, len + 1, got, h => by
    rw [readLoop_fail] at h
    dsimp only at h
    omega
  | .piece n :: script, incoming, len + 1, got, h => by
    rw [readLoop_piece] at h ⊢
    by_cases hk : min (max n 1) (min (len + 1) incoming.length) = 0
    · rw [if_pos hk] at h
      dsimp only at h
      omega
    · rw [if_neg hk] at h ⊢
      obtain ⟨hle, hgot, hincoming⟩ := readLoop_complete hbuf h
      generalize hkdef : min (max n 1) (min (len + 1) incoming.length) = k at hle hgot hincoming ⊢
      have hkle : k ≤ len + 1 ∧ k ≤ incoming.length := by omega
      clear hkdef
      have hsum : k + (len + 1 - k) = len + 1 := by omega
      rw [List.length_drop] at hle
      refine ⟨by omega, ?_, ?_⟩
      · rw [hgot, List.append_assoc, ← List.take_add, hsum]
      · rw [hincoming, List.drop_drop, hsum]

theorem readAll_complete {script : List IoEvent} {incoming : List Byte} {len : Nat}
    (hpos : 0 < len) (h : (readAll script incoming len).res = len) :
    len ≤ incoming.length ∧ (readAll script incoming len).got = incoming.take len ∧
      (readAll script incoming len).incoming = incoming.drop len := by
  unfold readAll at h ⊢
  simpa using readLoop_complete (Int.natCast_pos.mpr hpos) h

end KvStorage
