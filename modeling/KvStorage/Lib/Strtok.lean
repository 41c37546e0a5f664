import Mathlib.Data.List.TakeWhile

/-!
# Tokens by `strtok`

One call of `strtok` on the rest of a string: delimiters in front are skipped, the token ends
before the next one, and that one delimiter is used up, so the call after it starts right
behind. With no delimiters at all the token is everything that is left.
-/

namespace Strtok

variable {α : Type*} [DecidableEq α]

/-- The token, or NULL, and what is left for the next call. -/
def next (delim s : List α) : Option (List α) × List α :=
  let s := s.dropWhile (· ∈ delim)
  if s = [] then (none, []) else (some (s.takeWhile (· ∉ delim)), (s.dropWhile (· ∉ delim)).tail)

variable {delim s token rest : List α}

/-- A token that ends at a delimiter. -/
theorem next_token {d : α} (hne : token ≠ []) (htoken : ∀ a ∈ token, a ∉ delim) (hd : d ∈ delim) :
    next delim (token ++ d :: rest) = (some token, rest) := by
  obtain ⟨a, token, rfl⟩ := List.exists_cons_of_ne_nil hne
  have ha := htoken a (List.mem_cons_self ..)
  have hall : ∀ b ∈ a :: token, decide (b ∉ delim) = true := by simpa using htoken
  unfold next
  rw [List.cons_append, List.dropWhile_cons_of_neg (by simpa using ha), ← List.cons_append]
  dsimp only
  rw [if_neg (by simp), List.takeWhile_append_of_pos hall, List.dropWhile_append_of_pos hall,
    List.takeWhile_cons_of_neg (by simpa using hd), List.dropWhile_cons_of_neg (by simpa using hd),
    List.append_nil, List.tail_cons]

/-- A token at the end of the string. -/
theorem next_last (hne : token ≠ []) (htoken : ∀ a ∈ token, a ∉ delim) :
    next delim token = (some token, []) := by
  obtain ⟨a, token, rfl⟩ := List.exists_cons_of_ne_nil hne
  have ha := htoken a (List.mem_cons_self ..)
  have hall : ∀ b ∈ a :: token, decide (b ∉ delim) = true := by simpa using htoken
  unfold next
  rw [List.dropWhile_cons_of_neg (by simpa using ha)]
  dsimp only
  rw [if_neg (by simp), List.takeWhile_eq_self_iff.mpr hall, List.dropWhile_eq_nil_iff.mpr hall,
    List.tail_nil]

theorem next_all (hne : s ≠ []) : next [] s = (some s, []) :=
  next_last hne fun _ _ => List.not_mem_nil

theorem next_of_mem {d : α} (hd : d ∈ delim) : next delim (d :: s) = next delim s := by
  unfold next
  rw [List.dropWhile_cons_of_pos (by simpa using hd)]

/-- Where a token comes from. -/
theorem next_some (h : next delim s = (some token, rest)) :
    s.dropWhile (· ∈ delim) ≠ [] ∧ token = (s.dropWhile (· ∈ delim)).takeWhile (· ∉ delim) ∧
      rest = ((s.dropWhile (· ∈ delim)).dropWhile (· ∉ delim)).tail := by
  unfold next at h
  dsimp only at h
  split at h
  next => cases h
  next hne =>
    cases h
    exact ⟨hne, rfl, rfl⟩

theorem sublist_rest (delim s : List α) : (next delim s).2.Sublist s := by
  unfold next
  dsimp only
  split
  next => exact List.nil_sublist s
  next =>
    exact ((List.tail_sublist _).trans (List.dropWhile_sublist _)).trans (List.dropWhile_sublist _)

theorem sublist_token (h : next delim s = (some token, rest)) : token.Sublist s := by
  obtain ⟨-, rfl, -⟩ := next_some h
  exact (List.takeWhile_sublist _).trans (List.dropWhile_sublist _)

theorem token_ne_nil (h : next delim s = (some token, rest)) : token ≠ [] := by
  obtain ⟨hne, rfl, -⟩ := next_some h
  have hhead := List.head_dropWhile_not (fun a => decide (a ∈ delim)) hne
  rw [decide_eq_false_iff_not] at hhead
  rw [← List.cons_head_tail hne, List.takeWhile_cons_of_pos (by simpa using hhead)]
  exact List.cons_ne_nil _ _

/-- The token, its delimiter and what is left come from the string. -/
theorem length_next (h : next delim s = (some token, rest)) (hrest : rest ≠ []) :
    token.length + 1 + rest.length ≤ s.length := by
  obtain ⟨-, rfl, rfl⟩ := next_some h
  have hdrop := (List.dropWhile_sublist (fun a => decide (a ∈ delim)) (l := s)).length_le
  generalize s.dropWhile (fun a => decide (a ∈ delim)) = s' at *
  have hsplit := congrArg List.length
    (List.takeWhile_append_dropWhile (p := fun a => decide (a ∉ delim)) (l := s'))
  rw [List.length_append] at hsplit
  have hpos : 0 < (s'.dropWhile fun a => decide (a ∉ delim)).length := by
    rw [List.length_pos_iff]
    intro hnil
    rw [hnil] at hrest
    exact hrest rfl
  rw [List.length_tail]
  omega

end Strtok
