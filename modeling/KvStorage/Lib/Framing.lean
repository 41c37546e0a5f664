import Mathlib.Data.List.Basic

/-!
# Length-prefixed streams

A message is sent as a frame: a header of fixed length that announces the body,
then the body. What a reader can recover from a stream that was cut at an
arbitrary point is decided by one function, `complete`: the messages whose
frames lie entirely before the cut.

`take_stream` is the decomposition every reader argument uses: a cut stream is
the stream of the complete messages followed by a proper beginning of one more
frame (or by nothing, when no message is left).
-/

namespace Framing

variable {α β : Type} (frame : α → List β)

/-- The frames of a list of messages, one after the other. -/
def stream (ms : List α) : List β := (ms.map frame).flatten

/-- The messages whose frames lie entirely within the first `cut` elements. -/
def complete : Nat → List α → List α
  | _, [] => []
  | cut, m :: ms =>
    if (frame m).length ≤ cut then m :: complete (cut - (frame m).length) ms else []

@[simp] theorem stream_nil : stream frame [] = [] := rfl

@[simp] theorem stream_cons (m : α) (ms : List α) :
    stream frame (m :: ms) = frame m ++ stream frame ms := by
  simp [stream]

theorem complete_isPrefix : ∀ (cut : Nat) (ms : List α), complete frame cut ms <+: ms
  | _, [] => List.prefix_refl _
  | cut, m :: ms => by
    unfold complete
    split
    · exact (List.prefix_cons_inj m).mpr (complete_isPrefix _ ms)
    · exact List.nil_prefix

/-- No cut, nothing lost. -/
theorem complete_of_le : ∀ {cut : Nat} {ms : List α}, (stream frame ms).length ≤ cut →
    complete frame cut ms = ms
  | _, [], _ => rfl
  | cut, m :: ms, h => by
    rw [stream_cons, List.length_append] at h
    unfold complete
    rw [if_pos (by omega), complete_of_le (by omega)]

/-- What remains of a stream after a cut: nothing, or a proper beginning of the
next frame. -/
def Leftover (ms : List α) (rest : List β) : Prop :=
  rest = [] ∨ ∃ m ∈ ms, rest.length < (frame m).length ∧ rest <+: frame m

theorem take_stream : ∀ (cut : Nat) (ms : List α), ∃ rest,
    (stream frame ms).take cut = stream frame (complete frame cut ms) ++ rest ∧
      Leftover frame ms rest
  | cut, [] => ⟨[], by simp [complete], Or.inl rfl⟩
  | cut, m :: ms => by
    unfold complete
    split
    next hle =>
      obtain ⟨rest, htake, hrest⟩ := take_stream (cut - (frame m).length) ms
      refine ⟨rest, ?_, hrest.imp_right ?_⟩
      · rw [stream_cons, stream_cons, List.take_append, List.take_of_length_le hle, htake,
          List.append_assoc]
      · rintro ⟨m', hm', h⟩
        exact ⟨m', List.mem_cons_of_mem _ hm', h⟩
    next hlt =>
      refine ⟨(frame m).take cut, ?_, Or.inr ⟨m, List.mem_cons_self .., ?_, List.take_prefix ..⟩⟩
      · rw [stream_cons, List.take_append_of_le_length (by omega), stream_nil, List.nil_append]
      · rw [List.length_take]
        omega

end Framing
