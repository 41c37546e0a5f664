import Mathlib.Data.List.Basic

/-!
# Lines through a buffer

`fgets` reads up to a newline, which it keeps, or until its buffer is full. A line that does
not fit is read in pieces.
-/

namespace Lines

variable {α : Type*}

section Fgets

variable [DecidableEq α]

/-- What `fgets` reads when `n` characters fit, and what is left of the input. -/
def fgets (newline : α) : Nat → List α → List α × List α
  | 0, s => ([], s)
  | _ + 1, [] => ([], [])
  | n + 1, a :: s =>
    if a = newline then ([a], s)
    else
      let (read, rest) := fgets newline n s
      (a :: read, rest)

variable {newline : α}

/-- There is room for one byte at least, so something is read. -/
theorem fgets_ne_nil {n : Nat} {s : List α} (hs : s ≠ []) :
    (fgets newline (n + 1) s).1 ≠ [] := by
  cases s with
  | nil => exact absurd rfl hs
  | cons a s =>
    unfold fgets
    split
    next => exact List.cons_ne_nil _ _
    next => exact List.cons_ne_nil _ _

/-- What is read and what is left are the input. -/
theorem length_fgets (s : List α) : ∀ n : Nat,
    (fgets newline n s).1.length + (fgets newline n s).2.length = s.length := by
  induction s with
  | nil =>
    intro n
    cases n with
    | zero => rfl
    | succ n => rfl
  | cons a s ih =>
    intro n
    cases n with
    | zero => exact Nat.zero_add _
    | succ n =>
      have hrest := ih n
      unfold fgets
      split
      next => exact Nat.add_comm _ _
      next =>
        dsimp only
        rw [List.length_cons, List.length_cons]
        omega

theorem length_fgets_le : ∀ (n : Nat) (s : List α), (fgets newline n s).1.length ≤ n
  | 0, _ => Nat.zero_le _
  | _ + 1, [] => Nat.zero_le _
  | n + 1, a :: s => by
    have hrest := length_fgets_le n s
    unfold fgets
    split
    next => exact Nat.succ_le_succ (Nat.zero_le n)
    next => exact Nat.succ_le_succ hrest

/-- A line that fits is read whole, with its newline. -/
theorem fgets_line {line : List α} (rest : List α) (hline : newline ∉ line) : ∀ {n : Nat},
    line.length < n → fgets newline n (line ++ newline :: rest) = (line ++ [newline], rest) := by
  induction line with
  | nil =>
    intro n hn
    cases n with
    | zero => exact absurd hn (Nat.not_lt_zero _)
    | succ n => exact if_pos rfl
  | cons a line ih =>
    intro n hn
    rw [List.mem_cons, not_or] at hline
    cases n with
    | zero => exact absurd hn (Nat.not_lt_zero _)
    | succ n =>
      have hread := ih hline.2 (Nat.lt_of_succ_lt_succ hn)
      rw [List.cons_append]
      unfold fgets
      rw [if_neg (Ne.symm hline.1), hread]
      rfl

/-- Of a longer one the buffer is filled. -/
theorem fgets_piece {line : List α} (rest : List α) (hline : newline ∉ line) : ∀ {n : Nat},
    n ≤ line.length → fgets newline n (line ++ rest) = (line.take n, line.drop n ++ rest) := by
  induction line with
  | nil =>
    intro n hn
    rw [Nat.le_zero.mp hn]
    rfl
  | cons a line ih =>
    intro n hn
    rw [List.mem_cons, not_or] at hline
    cases n with
    | zero => rfl
    | succ n =>
      have hread := ih hline.2 (Nat.le_of_succ_le_succ hn)
      rw [List.cons_append]
      unfold fgets
      rw [if_neg (Ne.symm hline.1), hread]
      rfl

/-- The texts that are read one after the other, up to the end of the input, when `n + 1`
characters fit. -/
def readings (newline : α) (n : Nat) (s : List α) : List (List α) :=
  if s = [] then []
  else (fgets newline (n + 1) s).1 :: readings newline n (fgets newline (n + 1) s).2
termination_by s.length
decreasing_by
  rename_i hs
  have hread : (fgets newline (n + 1) s).1 ≠ [] := fgets_ne_nil hs
  have hlength : (fgets newline (n + 1) s).1.length + (fgets newline (n + 1) s).2.length
      = s.length := length_fgets s (n + 1)
  have hpos := List.length_pos_iff.mpr hread
  omega

@[simp] theorem readings_nil (n : Nat) : readings newline n [] = [] := by
  unfold readings
  exact if_pos rfl

theorem readings_of_fgets {n : Nat} {s read rest : List α} (hs : s ≠ [])
    (h : fgets newline (n + 1) s = (read, rest)) :
    readings newline n s = read :: readings newline n rest := by
  rw [readings, if_neg hs, h]

end Fgets

/-- The texts a line is read in, without its newline. -/
def pieces (n : Nat) (line : List α) : List (List α) :=
  if line.length < n + 1 then [line] else line.take (n + 1) :: pieces n (line.drop (n + 1))
termination_by line.length
decreasing_by
  rw [List.length_drop]
  omega

/-- A line that fits with its newline is read at once. -/
theorem pieces_of_lt {n : Nat} {line : List α} (h : line.length < n + 1) :
    pieces n line = [line] := by
  unfold pieces
  exact if_pos h

/-- A longer one starts with a full buffer. -/
theorem pieces_of_le {n : Nat} {line : List α} (h : n + 1 ≤ line.length) :
    pieces n line = line.take (n + 1) :: pieces n (line.drop (n + 1)) := by
  rw [pieces, if_neg (by omega)]

theorem length_of_mem_pieces {n : Nat} {text : List α} : ∀ {line : List α},
    text ∈ pieces n line → text.length ≤ line.length := by
  intro line
  induction line using pieces.induct (n := n) with
  | case1 line hlt =>
    intro hmem
    rw [pieces_of_lt hlt, List.mem_singleton] at hmem
    exact Nat.le_of_eq (congrArg List.length hmem)
  | case2 line hle ih =>
    intro hmem
    rw [pieces_of_le (by omega), List.mem_cons] at hmem
    rcases hmem with rfl | hmem
    · exact List.length_take_le' ..
    · have hlen := ih hmem
      rw [List.length_drop] at hlen
      omega

end Lines
