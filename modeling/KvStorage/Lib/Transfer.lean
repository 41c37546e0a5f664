import Mathlib.Data.List.Basic

/-!
# Frames in pieces

A frame is a header of fixed width that announces the length of the body, then the body. Neither
end of a stream transfers it at once: a write takes as much of a buffer as there is room for, a
read gets what has arrived. `Outgoing` is what a sender has still to write, `Incoming` how far a
receiver has come, `Incoming.next` what one more piece does.

`Awaits inb m rest` connects the two: the receiver is in the middle of the frame of `m`, and `rest`
is what it has not read of it. Whatever the pieces, it stays there until nothing is left, and then
it has `m` (`Awaits.next`).
-/

namespace Framing

variable {M β : Type}

/-- How messages are framed. -/
structure Format (M β : Type) where
  width : Nat
  limit : Nat
  header : M → List β
  body : M → List β
  announced : List β → Nat
  parse : List β → Option M
  width_pos : 0 < width
  header_length : ∀ m, (header m).length = width
  announced_le : ∀ l, announced l ≤ limit

/-- The frame of `m` can be read back. -/
structure Format.Carries (F : Format M β) (m : M) : Prop where
  announced : F.announced (F.header m) = (F.body m).length
  parse : F.parse (F.body m) = some m

/-- The longest frame. -/
def Format.most (F : Format M β) : Nat := F.width + F.limit

theorem Format.Carries.length_le {F : Format M β} {m : M} (h : F.Carries m) :
    (F.header m).length + (F.body m).length ≤ F.most := by
  rw [F.header_length, ← h.announced]
  exact Nat.add_le_add_left (F.announced_le _) _

/-! ## Writing -/

/-- What is still to be written of a frame. -/
structure Outgoing (β : Type) where
  header : List β
  body : List β

namespace Outgoing

def ofMessage (F : Format M β) (m : M) : Outgoing β := ⟨F.header m, F.body m⟩

def bytes (o : Outgoing β) : List β := o.header ++ o.body

/-- What the next write works on: never the header and the body at once. -/
def buffer : Outgoing β → List β
  | ⟨[], body⟩ => body
  | ⟨b :: header, _⟩ => b :: header

/-- After `k` of them were written. -/
def rest (k : Nat) : Outgoing β → Outgoing β
  | ⟨[], body⟩ => ⟨[], body.drop k⟩
  | ⟨b :: header, body⟩ => ⟨(b :: header).drop k, body⟩

theorem take_append_rest (k : Nat) : ∀ o : Outgoing β, o.buffer.take k ++ (o.rest k).bytes = o.bytes
  | ⟨[], body⟩ => List.take_append_drop k body
  | ⟨b :: header, body⟩ => by
    show (b :: header).take k ++ ((b :: header).drop k ++ body) = b :: header ++ body
    rw [← List.append_assoc, List.take_append_drop]

theorem length_rest {k : Nat} {o : Outgoing β} (hk : k ≤ o.buffer.length) :
    (o.rest k).bytes.length + k = o.bytes.length := by
  have h := congrArg List.length (take_append_rest k o)
  rw [List.length_append, List.length_take, Nat.min_eq_left hk] at h
  omega

/-- There is always something to write until everything is written. -/
theorem buffer_ne_nil : ∀ {o : Outgoing β}, o.bytes ≠ [] → o.buffer ≠ []
  | ⟨[], _⟩, h => h
  | ⟨_ :: _, _⟩, _ => List.cons_ne_nil _ _

theorem bytes_ofMessage_ne_nil (F : Format M β) (m : M) : (ofMessage F m).bytes ≠ [] := by
  intro h
  have hheader : F.header m = [] := (List.append_eq_nil_iff.mp h).1
  have hlen := F.header_length m
  rw [hheader] at hlen
  exact absurd hlen (Nat.ne_of_lt F.width_pos)

theorem length_ofMessage_le {F : Format M β} {m : M} (h : F.Carries m) :
    (ofMessage F m).bytes.length ≤ F.most := by
  unfold bytes
  rw [List.length_append]
  exact h.length_le

end Outgoing

/-! ## Reading -/

/-- A frame that is being read: the beginning of its header, or the length it announces and the
beginning of its body. -/
inductive Incoming (β : Type)
  | length (got : List β)
  | body (len : Nat) (got : List β)

namespace Incoming

variable (F : Format M β)

/-- How much the next read asks for. -/
def missing : Incoming β → Nat
  | length got => F.width - got.length
  | body len got => len - got.length

/-- What `piece` has brought: the frame goes on, or it is complete and its body is parsed. -/
def next (piece : List β) : Incoming β → Incoming β ⊕ Option M
  | length got =>
    let got := got ++ piece
    .inl (if F.width ≤ got.length then body (F.announced got) [] else length got)
  | body len got =>
    let got := got ++ piece
    if len ≤ got.length then .inr (F.parse got) else .inl (body len got)

/-- What a read may bring: no more than it asks for, and something unless it asks for nothing. -/
structure Takes (inb : Incoming β) (piece : List β) : Prop where
  le : piece.length ≤ inb.missing F
  some : piece ≠ [] ∨ inb.missing F = 0

/-- Before a frame has begun to arrive there is nothing to read. -/
theorem not_takes_start {piece rest : List β} (h : [] = piece ++ rest) :
    ¬ (length []).Takes F piece := by
  intro ht
  rcases ht.some with hne | hzero
  · exact hne (List.append_eq_nil_iff.mp h.symm).1
  · exact absurd hzero (Nat.ne_of_gt F.width_pos)

end Incoming

/-- What is not read yet of the frame of `m` is `rest`. -/
inductive Awaits (F : Format M β) (m : M) : Incoming β → List β → Prop
  | length {got rest : List β} : got.length < F.width → got ++ rest = F.header m ++ F.body m →
      Awaits F m (.length got) rest
  | body {got rest : List β} : got ++ rest = F.body m →
      Awaits F m (.body (F.body m).length got) rest

namespace Awaits

variable {F : Format M β} {m : M} {inb : Incoming β} {piece rest : List β}

/-- Before anything is read, the whole frame is left. -/
theorem start (F : Format M β) (m : M) :
    Awaits F m (.length []) (Outgoing.ofMessage F m).bytes := .length F.width_pos rfl

/-- One more piece: the receiver is still in the frame, or it has the message. -/
theorem next (h : Awaits F m inb (piece ++ rest)) (hm : F.Carries m)
    (hle : piece.length ≤ inb.missing F) :
    (∃ inb', inb.next F piece = .inl inb' ∧ Awaits F m inb' rest) ∨
      inb.next F piece = .inr (some m) ∧ rest = [] := by
  cases h with
  | @length got _ hlt heq =>
    rw [← List.append_assoc] at heq
    left
    refine ⟨_, rfl, ?_⟩
    by_cases hfull : F.width ≤ (got ++ piece).length
    · rw [if_pos hfull]
      -- a read stops at the end of the header
      have hlen : (got ++ piece).length = (F.header m).length := by
        have hroom : piece.length ≤ F.width - got.length := hle
        rw [F.header_length, List.length_append] at *
        omega
      obtain ⟨hheader, hbody⟩ := List.append_inj heq hlen
      rw [hheader, hm.announced]
      exact .body hbody
    · rw [if_neg hfull]
      exact .length (Nat.not_le.mp hfull) heq
  | @body got _ heq =>
    rw [← List.append_assoc] at heq
    have hlen := congrArg List.length heq
    rw [List.length_append] at hlen
    unfold Incoming.next
    by_cases hfull : (F.body m).length ≤ (got ++ piece).length
    · right
      have hnil : rest = [] := List.length_eq_zero_iff.mp (by omega)
      rw [hnil, List.append_nil] at heq
      dsimp only
      rw [if_pos hfull, heq, hm.parse]
      exact ⟨rfl, hnil⟩
    · left
      dsimp only
      rw [if_neg hfull]
      exact ⟨_, rfl, .body heq⟩

/-- A frame that goes on after a piece is still the same one, and a piece there was. -/
theorem of_inl (h : Awaits F m inb (piece ++ rest)) (hm : F.Carries m) (ht : inb.Takes F piece)
    {inb' : Incoming β} (hnext : inb.next F piece = .inl inb') :
    Awaits F m inb' rest ∧ 0 < piece.length := by
  rcases h.next hm ht.le with ⟨inb₁, hinl, haw⟩ | ⟨hinr, -⟩
  · rw [hnext] at hinl
    cases hinl
    refine ⟨haw, List.length_pos_iff.mpr (ht.some.resolve_right fun hzero => ?_)⟩
    -- with nothing missing the frame would be complete
    cases h with
    | length hlt => exact absurd hzero (Nat.sub_ne_zero_of_lt hlt)
    | @body got =>
      have hfull : (F.body m).length ≤ (got ++ piece).length := by
        rw [List.length_append]
        exact Nat.le_add_right_of_le (Nat.le_of_sub_eq_zero hzero)
      unfold Incoming.next at hnext
      dsimp only at hnext
      rw [if_pos hfull] at hnext
      cases hnext
  · rw [hnext] at hinr
    cases hinr

/-- A frame that is complete was the one awaited. -/
theorem of_inr (h : Awaits F m inb (piece ++ rest)) (hm : F.Carries m) (ht : inb.Takes F piece)
    {res : Option M} (hnext : inb.next F piece = .inr res) : res = some m ∧ rest = [] := by
  rcases h.next hm ht.le with ⟨inb₁, hinl, -⟩ | ⟨hinr, hnil⟩
  · rw [hnext] at hinl
    cases hinl
  · rw [hnext] at hinr
    cases hinr
    exact ⟨rfl, hnil⟩

/-- A receiver in the middle of a frame can read when something has arrived, and also when nothing
is missing. -/
theorem takes (h : Awaits F m inb rest) {avail : List β} (hrest : rest ≠ [] → avail ≠ []) :
    ∃ piece left, avail = piece ++ left ∧ inb.Takes F piece := by
  by_cases hzero : inb.missing F = 0
  · exact ⟨[], avail, rfl, Nat.zero_le _, Or.inr hzero⟩
  · have hne : rest ≠ [] := by
      rintro rfl
      cases h with
      | length hlt heq =>
        have hlen := congrArg List.length heq
        rw [List.append_nil, List.length_append, F.header_length] at hlen
        omega
      | body heq =>
        rw [List.append_nil] at heq
        exact hzero (by rw [heq]; exact Nat.sub_self _)
    obtain ⟨b, left, rfl⟩ := List.exists_cons_of_ne_nil (hrest hne)
    exact ⟨[b], left, rfl, Nat.one_le_iff_ne_zero.mpr hzero, Or.inl (List.cons_ne_nil _ _)⟩

/-- No more is left than a frame has. -/
theorem length_le (h : Awaits F m inb rest) (hm : F.Carries m) : rest.length ≤ F.most := by
  have hmost := hm.length_le
  cases h with
  | length hlt heq =>
    have hlen := congrArg List.length heq
    rw [List.length_append, List.length_append] at hlen
    omega
  | body heq =>
    have hlen := congrArg List.length heq
    rw [List.length_append] at hlen
    omega

end Awaits

end Framing
