import KvStorage.Client.Tokens
import KvStorage.Lib.Lines

/-!
# The command loop

`main` of the client reads its input with `fgets` into a buffer of 2048 bytes, cuts the
newline off and takes the text apart (`commandTokens`). What `fgets` reads is one line only
while the line fits: a longer one is read in pieces of 2047 bytes, each of which is a command
of its own. So a long value is cut and what is behind the cut may be executed
(`value_executed`); up to 2047 bytes a line is one command (`one_line_one_command_iff`).

`Session.step` is one iteration of the loop, for any input; at the end of the input `fgets`
returns NULL and nothing changes.
-/

namespace KvStorage

open CLib Strtok Lines

def newline : Byte := 10

/-! ## One text -/

/-- What the loop does for a command: the calls of the stub, with their arguments, and the
end. Of the entry of a put there are the key and the bytes of the value. -/
inductive Operation
  | put (key value : List Byte)
  | get (key : List Byte)
  | del (key : List Byte)
  | size
  | getKeys
  | getTable
  | stats
  | quit
  deriving DecidableEq

/-- The branches of the loop; `none` is `print_usage`. -/
def command (input : List Byte) : Option Operation :=
  let tokens := commandTokens input
  match tokens.op.bind verbOf with
  | some .put =>
    match tokens.key, tokens.value with
    | some key, some value => some (.put key value)
    | _, _ => none
  | some .get => tokens.key.map .get
  | some .del => tokens.key.map .del
  | some .size => some .size
  | some .getKeys => some .getKeys
  | some .getTable => some .getTable
  | some .stats => some .stats
  | some .quit => some .quit
  | none => none

/-- The string in `input` once the newline is cut off. -/
def inputString (read : List Byte) : List Byte := read.takeWhile fun b => b ≠ 0 ∧ b ≠ newline

/-! ## The loop -/

/-- The number of bytes `fgets` reads at most: `MAX_MSG` less the final NUL. -/
def maxRead : Nat := 2047

/-- The loop between two iterations. -/
structure Session where
  stdin : List Byte
  /-- The line that is read next, or is being read. -/
  line : Nat
  /-- The operations so far, each with its line. -/
  calls : List (Nat × Operation)
  running : Bool

/-- The operations for line `i`. -/
def callsOf (calls : List (Nat × Operation)) (i : Nat) : List Operation :=
  (calls.filter fun c => c.1 = i).map Prod.snd

namespace Session

/-- One iteration. -/
def step (s : Session) : Session :=
  if s.running then
    let (read, rest) := fgets newline maxRead s.stdin
    -- `fgets` returns NULL at the end of the input
    if read = [] then s
    else
      let line := if newline ∈ read then s.line + 1 else s.line
      match command (inputString read) with
      | none => { s with stdin := rest, line := line }
      | some .quit =>
        { s with stdin := rest, calls := s.calls ++ [(s.line, .quit)], running := false }
      | some o => { s with stdin := rest, line := line, calls := s.calls ++ [(s.line, o)] }
  else s

section Step

variable {s : Session} {text rest : List Byte}

theorem step_stopped (h : s.running = false) : s.step = s := by
  unfold step
  rw [h, if_neg Bool.false_ne_true]

/-- At the end of the input the loop goes on and nothing changes. -/
theorem step_end (h : s.stdin = []) : s.step = s := by
  have hread : fgets newline maxRead s.stdin = ([], []) := by
    rw [h]
    rfl
  unfold step
  simp only [hread, if_true, ite_self]

section Read

variable (hrunning : s.running = true) (hread : fgets newline maxRead s.stdin = (text, rest))
  (htext : text ≠ [])

include hrunning hread htext

/-- What is no command is answered with the list of commands. -/
theorem step_usage (h : command (inputString text) = none) :
    s.step = { s with stdin := rest, line := if newline ∈ text then s.line + 1 else s.line } := by
  unfold step
  simp only [hrunning, hread, if_neg htext, h, if_true]

/-- `quit` ends the loop. -/
theorem step_quit (h : command (inputString text) = some .quit) :
    s.step = { s with stdin := rest, calls := s.calls ++ [(s.line, .quit)], running := false } := by
  unfold step
  simp only [hrunning, hread, if_neg htext, h, if_true]

/-- Any other command is one call. -/
theorem step_call {o : Operation} (h : command (inputString text) = some o) (ho : o ≠ .quit) :
    s.step = { s with stdin := rest, line := if newline ∈ text then s.line + 1 else s.line,
                      calls := s.calls ++ [(s.line, o)] } := by
  unfold step
  simp only [hrunning, hread, if_neg htext, h, if_true]

end Read

/-- No step changes anything any more. -/
def Ended (s : Session) : Prop := s.running = false ∨ s.stdin = []

/-- Nothing is left to read: the loop stays as it is. -/
theorem step_ended (h : s.Ended) : s.step = s := by
  rcases h with h | h
  · exact step_stopped h
  · exact step_end h

/-- Every iteration reads something. -/
theorem length_stdin_step (h : ¬ s.Ended) : s.step.stdin.length < s.stdin.length := by
  obtain ⟨hrunning, hstdin⟩ := not_or.mp h
  rw [Bool.not_eq_false] at hrunning
  have htext : (fgets newline maxRead s.stdin).1 ≠ [] := fgets_ne_nil hstdin
  have hlength : (fgets newline maxRead s.stdin).1.length
      + (fgets newline maxRead s.stdin).2.length = s.stdin.length := length_fgets s.stdin maxRead
  cases hread : fgets newline maxRead s.stdin with
  | mk text rest =>
    rw [hread] at htext hlength
    dsimp only at htext hlength
    have hpos := List.length_pos_iff.mpr htext
    have hrest : s.step.stdin = rest := by
      cases hcommand : command (inputString text) with
      | none => rw [step_usage hrunning hread htext hcommand]
      | some o =>
        by_cases ho : o = .quit
        · rw [step_quit hrunning hread htext (hcommand.trans (congrArg some ho))]
        · rw [step_call hrunning hread htext hcommand ho]
    rw [hrest]
    omega

/-- Every iteration reads something until the client ends or its input does. -/
theorem ended_iterate (n : Nat) : ∀ s : Session, s.stdin.length ≤ n → (step^[n] s).Ended := by
  induction n with
  | zero => exact fun s h => Or.inr (List.length_eq_zero_iff.mp (Nat.le_zero.mp h))
  | succ n ih =>
    intro s h
    by_cases hended : s.Ended
    · rw [Function.iterate_fixed (step_ended hended)]
      exact hended
    · rw [Function.iterate_succ_apply]
      exact ih _ (Nat.le_of_lt_succ (Nat.lt_of_lt_of_le (length_stdin_step hended) h))

end Step

/-- Line `i` was read to its end, or the client ended in it. -/
def Over (s : Session) (i : Nat) : Prop := i < s.line ∨ s.running = false ∧ i = s.line

end Session

/-- Lines as they come from the input. -/
def stdinOf (lines : List (List Byte)) : List Byte := (lines.map (· ++ [newline])).flatten

/-- The loop after `n` iterations on these lines. -/
def session (lines : List (List Byte)) (n : Nat) : Session :=
  Session.step^[n] ⟨stdinOf lines, 0, [], true⟩

/-- `put <key> <value>`. -/
def putText (key value : List Byte) : List Byte :=
  [112, 117, 116] ++ space :: (key ++ space :: value)

/-- A key without spaces and newlines, and a value without newlines, neither of them empty. -/
structure PutArguments (key value : List Byte) : Prop where
  key_ne_nil : key ≠ []
  key_space : space ∉ key
  key_newline : newline ∉ key
  value_ne_nil : value ≠ []
  value_newline : newline ∉ value

/-- At most one operation for each line, and for a put line exactly that put; each line is
read to its end unless the client ends before. -/
structure OneCommandEach (lines : List (List Byte)) : Prop where
  one : ∀ n i, (callsOf (session lines n).calls i).length ≤ 1
  put : ∀ n i key value, PutArguments key value → lines[i]? = some (putText key value) →
    (session lines n).Over i → callsOf (session lines n).calls i = [.put key value]
  read : ∀ i < lines.length, ∃ n, (session lines n).Over i ∨ (session lines n).running = false

/-- Neither a newline nor a NUL. -/
structure Plain (line : List Byte) : Prop where
  newline_notMem : newline ∉ line
  zero_notMem : 0 ∉ line

/-! ## A put -/

/-- The text of a put is taken apart into what it was put together from. -/
theorem putText_tokens {key value : List Byte} (h : PutArguments key value) :
    commandTokens (putText key value) = ⟨some [112, 117, 116], some key, some value⟩ := by
  have hop : next [space] (putText key value) = (some [112, 117, 116], key ++ space :: value) :=
    next_token (List.cons_ne_nil _ _) (by simp [space]) (List.mem_singleton_self _)
  have hkey : next [space] (key ++ space :: value) = (some key, value) := by
    refine next_token h.key_ne_nil (fun b hb hspace => ?_) (List.mem_singleton_self _)
    rw [List.mem_singleton] at hspace
    exact h.key_space (hspace ▸ hb)
  have hverb : verbOf [112, 117, 116] = some .put := rfl
  unfold commandTokens
  simp only [hop, hverb, hkey, next_all h.value_ne_nil]

/-- A put line that is read whole, spaces of the value included. -/
theorem command_putText {key value : List Byte} (h : PutArguments key value) :
    command (putText key value) = some (.put key value) := by
  unfold command
  rw [putText_tokens h]
  rfl

theorem length_putText (key value : List Byte) :
    (putText key value).length = key.length + value.length + 5 := by
  unfold putText
  simp only [List.length_append, List.length_cons, List.length_nil]
  omega

theorem tokens_of_command_put {text key value : List Byte}
    (h : command text = some (.put key value)) :
    ∃ op, verbOf op = some .put ∧ commandTokens text = ⟨some op, some key, some value⟩ := by
  unfold command at h
  generalize commandTokens text = tokens at h ⊢
  obtain ⟨op, key', value'⟩ := tokens
  dsimp only at h
  split at h
  case h_1 hput =>
    split at h
    next =>
      cases h
      obtain ⟨op, rfl, hverb⟩ := Option.bind_eq_some_iff.mp hput
      exact ⟨op, hverb, rfl⟩
    next => cases h
  case h_2 =>
    obtain ⟨key'', -, hget⟩ := Option.map_eq_some_iff.mp h
    cases hget
  case h_3 =>
    obtain ⟨key'', -, hdel⟩ := Option.map_eq_some_iff.mp h
    cases hdel
  all_goals cases h

/-- A text that puts has room for the command, the key and the value, with spaces between. -/
theorem length_of_command_put {text key value : List Byte}
    (h : command text = some (.put key value)) : ∃ op rest, next [space] text = (some op, rest) ∧
      op.length + key.length + value.length + 2 ≤ text.length := by
  obtain ⟨op, hverb, htokens⟩ := tokens_of_command_put h
  unfold commandTokens at htokens
  split at htokens
  next => cases htokens
  next op' rest hop =>
    refine ⟨op', rest, hop, ?_⟩
    have hop' : op' = op := by
      split at htokens
      all_goals
        injection htokens with hop'
        exact Option.some.inj hop'
    subst hop'
    rw [hverb] at htokens
    dsimp only at htokens
    obtain ⟨-, hkey, hvalue⟩ := CommandTokens.mk.inj htokens
    have hnext : next [space] rest = (some key, (next [space] rest).2) := Prod.ext hkey rfl
    have hlast : (next [space] rest).2 ≠ [] := by
      intro hnil
      rw [hnil] at hvalue
      cases hvalue
    rw [next_all hlast, Option.some.injEq] at hvalue
    have hrest : rest ≠ [] := by
      intro hnil
      rw [hnil] at hkey
      cases hkey
    have hfirst := length_next hop hrest
    have hsecond := length_next hnext hlast
    rw [hvalue] at hsecond
    omega

/-! ## One line -/

/-- The operations in the pieces of a line. -/
def operationsOf (line : List Byte) : List Operation := (pieces 2046 line).filterMap command

/-- What the loop does of them: after `quit` nothing is read. -/
def upToQuit : List Operation → List Operation
  | [] => []
  | .quit :: _ => [.quit]
  | o :: os => o :: upToQuit os

def PutLine (line : List Byte) : Prop :=
  ∃ key value, PutArguments key value ∧ line = putText key value

/-- The line fits, or it is no put and only one of its pieces counts. -/
def OneCommand (line : List Byte) : Prop :=
  line.length ≤ maxRead ∨
    ¬ PutLine line ∧ ((operationsOf line).length ≤ 1 ∨ (operationsOf line).head? = some .quit)

/-- Without a `quit` in the first part everything is done. -/
theorem upToQuit_append {os : List Operation} (h : .quit ∉ os) (os' : List Operation) :
    upToQuit (os ++ os') = os ++ upToQuit os' := by
  induction os with
  | nil => rfl
  | cons o os ih =>
    rw [List.mem_cons, not_or] at h
    have hcons : upToQuit (o :: (os ++ os')) = o :: upToQuit (os ++ os') := by
      cases o with
      | quit => exact absurd rfl h.1
      | _ => rfl
    rw [List.cons_append, hcons, ih h.2]
    rfl

theorem upToQuit_isPrefix (os : List Operation) : upToQuit os <+: os := by
  fun_induction upToQuit os with
  | case1 => exact List.prefix_rfl
  | case2 os => exact List.prefix_append [.quit] os
  | case3 o os _ ih => exact (List.prefix_cons_inj o).mpr ih

theorem length_upToQuit_le_one (os : List Operation) :
    (upToQuit os).length ≤ 1 ↔ os.length ≤ 1 ∨ os.head? = some .quit := by
  match os with
  | [] => simp [upToQuit]
  | [o] => cases o <;> simp [upToQuit]
  | o :: o' :: os =>
    cases o with
    | quit => simp [upToQuit]
    | _ => cases o' <;> simp [upToQuit]

theorem operationsOf_of_lt {line : List Byte} (h : line.length < maxRead) :
    operationsOf line = (command line).toList := by
  unfold operationsOf
  rw [pieces_of_lt h]
  cases hcommand : command line with
  | none => exact List.filterMap_cons_none hcommand
  | some o => exact List.filterMap_cons_some hcommand

/-- A longer line is a command up to the cut, and commands behind it. -/
theorem operationsOf_cut {line : List Byte} (h : maxRead ≤ line.length) :
    operationsOf line
      = (command (line.take maxRead)).toList ++ operationsOf (line.drop maxRead) := by
  unfold operationsOf
  rw [pieces_of_le h]
  cases hcommand : command (line.take maxRead) with
  | none => exact List.filterMap_cons_none hcommand
  | some o => exact List.filterMap_cons_some hcommand

/-- A line that fits is one text: what is left of one of 2047 bytes is its newline. -/
theorem operationsOf_of_le {line : List Byte} (h : line.length ≤ maxRead) :
    operationsOf line = (command line).toList := by
  rcases Nat.lt_or_eq_of_le h with hlt | heq
  · exact operationsOf_of_lt hlt
  · have hnil : operationsOf [] = [] := operationsOf_of_lt (Nat.zero_lt_succ _)
    rw [operationsOf_cut (Nat.le_of_eq heq.symm), List.take_of_length_le h,
      List.drop_of_length_le h, hnil, List.append_nil]

/-- Of a put line that does not fit no piece is the whole put: the first one is too short for
it, and the others are shorter than the key and the value. -/
theorem put_notMem_operationsOf {key value : List Byte}
    (hlong : maxRead < (putText key value).length) :
    .put key value ∉ operationsOf (putText key value) := by
  intro hmem
  unfold operationsOf at hmem
  obtain ⟨text, htext, hput⟩ := List.mem_filterMap.mp hmem
  obtain ⟨op, rest, hop, hlen⟩ := length_of_command_put hput
  unfold maxRead at hlong
  rw [length_putText] at hlong
  rw [pieces_of_le (by rw [length_putText]; omega), List.mem_cons] at htext
  rcases htext with rfl | htext
  · have hcut : (putText key value).take (2046 + 1)
        = [112, 117, 116] ++ space :: (key ++ space :: value).take 2043 := rfl
    have hput : ∀ b ∈ ([112, 117, 116] : List Byte), b ∉ [space] := by simp [space]
    rw [hcut, next_token (List.cons_ne_nil _ _) hput (List.mem_singleton_self _)] at hop
    cases hop
    have htake := List.length_take_le (2046 + 1) (putText key value)
    simp only [List.length_cons, List.length_nil] at hlen
    omega
  · have hpos := List.length_pos_iff.mpr (token_ne_nil hop)
    have htext' := length_of_mem_pieces htext
    rw [List.length_drop, length_putText] at htext'
    omega

/-- Line `i` is read: no line before it ends the client. -/
def IsRead (lines : List (List Byte)) (i : Nat) : Prop :=
  ∀ j < i, ∀ line, lines[j]? = some line → .quit ∉ operationsOf line

/-- What the loop does with a line is one command exactly under the condition. -/
theorem oneCommand_iff (line : List Byte) : OneCommand line ↔
    (upToQuit (operationsOf line)).length ≤ 1 ∧ ∀ key value, PutArguments key value →
      line = putText key value → upToQuit (operationsOf line) = [.put key value] := by
  constructor
  · intro h
    by_cases hfits : line.length ≤ maxRead
    · rw [operationsOf_of_le hfits]
      constructor
      · rw [length_upToQuit_le_one]
        exact Or.inl (Option.length_toList_le ..)
      · intro key value hargs hline
        rw [hline, command_putText hargs]
        rfl
    · obtain ⟨hput, hone⟩ := h.resolve_left hfits
      refine ⟨(length_upToQuit_le_one _).mpr hone, ?_⟩
      intro key value hargs hline
      exact absurd ⟨key, value, hargs, hline⟩ hput
  · intro ⟨hone, hput⟩
    by_cases hfits : line.length ≤ maxRead
    · exact Or.inl hfits
    · refine Or.inr ⟨?_, (length_upToQuit_le_one _).mp hone⟩
      intro ⟨key, value, hargs, hline⟩
      rw [hline, Nat.not_le] at hfits
      refine put_notMem_operationsOf hfits ((upToQuit_isPrefix _).mem ?_)
      rw [← hline, hput key value hargs hline]
      exact List.mem_singleton_self _

/-! ## The operations of all lines -/

/-- The operations of the lines from line `i` on, each with its line. -/
def listed : Nat → List (List Byte) → List (Nat × Operation)
  | _, [] => []
  | i, line :: lines => (operationsOf line).map (i, ·) ++ listed (i + 1) lines

theorem callsOf_append (calls calls' : List (Nat × Operation)) (i : Nat) :
    callsOf (calls ++ calls') i = callsOf calls i ++ callsOf calls' i := by
  unfold callsOf
  rw [List.filter_append, List.map_append]

theorem mem_callsOf {calls : List (Nat × Operation)} {i : Nat} {o : Operation} :
    o ∈ callsOf calls i ↔ (i, o) ∈ calls := by
  unfold callsOf
  rw [List.mem_map]
  constructor
  · intro ⟨⟨j, o'⟩, hmem, ho⟩
    rw [List.mem_filter] at hmem
    obtain ⟨hmem, hj⟩ := hmem
    cases ho
    cases of_decide_eq_true hj
    exact hmem
  · intro hmem
    exact ⟨(i, o), List.mem_filter.mpr ⟨hmem, decide_eq_true rfl⟩, rfl⟩

theorem callsOf_eq_nil {calls : List (Nat × Operation)} {i : Nat} (h : ∀ c ∈ calls, c.1 ≠ i) :
    callsOf calls i = [] := by
  rw [List.eq_nil_iff_forall_not_mem]
  intro o ho
  exact h _ (mem_callsOf.mp ho) rfl

theorem callsOf_map (i : Nat) (os : List Operation) : callsOf (os.map (i, ·)) i = os := by
  unfold callsOf
  rw [List.filter_eq_self.mpr, List.map_map]
  · exact List.map_id os
  · intro c hc
    obtain ⟨o, -, rfl⟩ := List.mem_map.mp hc
    exact decide_eq_true rfl

theorem le_of_mem_listed {lines : List (List Byte)} : ∀ {i : Nat} {c : Nat × Operation},
    c ∈ listed i lines → i ≤ c.1 := by
  induction lines with
  | nil => exact fun h => absurd h List.not_mem_nil
  | cons line lines ih =>
    intro i c h
    unfold listed at h
    rw [List.mem_append, List.mem_map] at h
    rcases h with ⟨o, -, rfl⟩ | h
    · exact Nat.le_refl i
    · exact Nat.le_of_succ_le (ih h)

/-- The commands of a line are listed under its number. -/
theorem callsOf_listed {lines : List (List Byte)} : ∀ (i j : Nat),
    callsOf (listed i lines) (i + j) = (lines[j]?.map operationsOf).getD [] := by
  induction lines with
  | nil => exact fun i j => rfl
  | cons line lines ih =>
    intro i j
    unfold listed
    rw [callsOf_append]
    cases j with
    | zero =>
      have hlater : callsOf (listed (i + 1) lines) (i + 0) = [] :=
        callsOf_eq_nil fun c hc => Nat.ne_of_gt (le_of_mem_listed hc)
      rw [hlater, List.append_nil]
      exact callsOf_map i _
    | succ j =>
      have hline : callsOf ((operationsOf line).map (i, ·)) (i + (j + 1)) = [] := by
        refine callsOf_eq_nil fun c hc => ?_
        obtain ⟨o, -, rfl⟩ := List.mem_map.mp hc
        dsimp only
        omega
      rw [hline, List.nil_append, ← Nat.add_assoc, Nat.add_right_comm, ih]
      rfl

/-! ## The loop over all lines -/

/-- What is ahead of the loop: the input, the line it is in, and the operations to come. -/
inductive Unread (count : Nat) : List Byte → Nat → List (Nat × Operation) → Prop
  | finished : Unread count [] count []
  | within {i : Nat} {rest : List Byte} {after : List (List Byte)} (hrest : Plain rest)
      (hafter : ∀ line ∈ after, Plain line) (hcount : i + 1 + after.length = count) :
      Unread count (rest ++ newline :: stdinOf after) i
        ((operationsOf rest).map (i, ·) ++ listed (i + 1) after)

/-- The input before the first iteration. -/
theorem Unread.of_lines {count i : Nat} {lines : List (List Byte)}
    (hlines : ∀ line ∈ lines, Plain line) (hcount : i + lines.length = count) :
    Unread count (stdinOf lines) i (listed i lines) := by
  cases lines with
  | nil =>
    cases hcount
    exact .finished
  | cons line lines =>
    rw [List.length_cons] at hcount
    have hstdin : stdinOf (line :: lines) = line ++ newline :: stdinOf lines :=
      List.append_assoc line [newline] _
    rw [hstdin]
    exact .within (hlines line (List.mem_cons_self ..))
      (fun l hl => hlines l (List.mem_cons_of_mem _ hl)) (by omega)

theorem Unread.line_of_nil {count i : Nat} {future : List (Nat × Operation)}
    (h : Unread count [] i future) : i = count := by
  generalize hstdin : ([] : List Byte) = stdin at h
  cases h with
  | finished => rfl
  | within => exact absurd hstdin.symm (List.append_ne_nil_of_right_ne_nil _ (List.cons_ne_nil _ _))

theorem Unread.le {count i : Nat} {stdin : List Byte} {future : List (Nat × Operation)}
    (h : Unread count stdin i future) {c : Nat × Operation} (hc : c ∈ future) : i ≤ c.1 := by
  cases h with
  | finished => exact absurd hc List.not_mem_nil
  | within =>
    rw [List.mem_append, List.mem_map] at hc
    rcases hc with ⟨o, -, rfl⟩ | hc
    · exact Nat.le_refl i
    · exact Nat.le_of_succ_le (le_of_mem_listed hc)

theorem Plain.sublist {line rest : List Byte} (h : Plain line) (hrest : List.Sublist rest line) :
    Plain rest where
  newline_notMem hmem := h.newline_notMem (hrest.mem hmem)
  zero_notMem hmem := h.zero_notMem (hrest.mem hmem)

theorem inputString_append {text : List Byte} (h : Plain text) (rest : List Byte) :
    inputString (text ++ rest) = text ++ inputString rest := by
  refine List.takeWhile_append_of_pos fun b hb => decide_eq_true ⟨?_, ?_⟩
  · exact fun hzero => h.zero_notMem (hzero ▸ hb)
  · exact fun hnewline => h.newline_notMem (hnewline ▸ hb)

theorem inputString_line {text : List Byte} (h : Plain text) :
    inputString (text ++ [newline]) = text := by
  rw [inputString_append h]
  exact List.append_nil text

theorem inputString_piece {text : List Byte} (h : Plain text) : inputString text = text := by
  have happend := inputString_append h []
  rw [List.append_nil] at happend
  exact happend.trans (List.append_nil text)

/-- One reading: the operation of the text, if it has one, is the next of those to come. -/
theorem Unread.read {count i : Nat} {stdin : List Byte} {future : List (Nat × Operation)}
    (h : Unread count stdin i future) (hne : stdin ≠ []) : ∃ text rest future',
      fgets newline maxRead stdin = (text, rest) ∧ text ≠ [] ∧
      future = (command (inputString text)).toList.map (i, ·) ++ future' ∧
      Unread count rest (if newline ∈ text then i + 1 else i) future' := by
  cases h with
  | finished => exact absurd rfl hne
  | @within i line after hline hafter hcount =>
    rcases Nat.lt_or_ge line.length maxRead with hlt | hge
    · refine ⟨line ++ [newline], stdinOf after, listed (i + 1) after,
        fgets_line _ hline.newline_notMem hlt, List.concat_ne_nil _ _, ?_, ?_⟩
      · rw [inputString_line hline, operationsOf_of_lt hlt]
      · rw [if_pos (List.mem_append_right _ (List.mem_singleton_self _))]
        exact Unread.of_lines hafter hcount
    · have htake : Plain (line.take maxRead) := hline.sublist (List.take_sublist _ _)
      refine ⟨line.take maxRead, line.drop maxRead ++ newline :: stdinOf after,
        (operationsOf (line.drop maxRead)).map (i, ·) ++ listed (i + 1) after,
        fgets_piece _ hline.newline_notMem hge, ?_, ?_, ?_⟩
      · rw [← List.length_pos_iff, List.length_take_of_le hge]
        exact Nat.zero_lt_succ _
      · rw [inputString_piece htake, operationsOf_cut hge, List.map_append, List.append_assoc]
      · rw [if_neg htake.newline_notMem]
        exact .within (hline.sublist (List.drop_sublist _ _)) hafter hcount

/-! ## Over all iterations -/

/-- Where the loop stands: what it did and what is ahead are the operations of the lines, in
their order; a `quit` is the last one it did. -/
structure Underway (lines : List (List Byte)) (s : Session) (future : List (Nat × Operation)) :
    Prop where
  split : s.calls ++ future = listed 0 lines
  past : ∀ c ∈ s.calls, c.1 ≤ s.line
  to_come : ∀ c ∈ future, s.line ≤ c.1
  ahead : s.running = true → Unread lines.length s.stdin s.line future ∧
    ∀ c ∈ s.calls, c.2 ≠ .quit
  stopped : s.running = false → ∃ before, s.calls = before ++ [(s.line, .quit)] ∧
    ∀ c ∈ before, c.2 ≠ .quit

/-- An iteration reads a whole line, or a piece of one and stays on it. -/
theorem Underway.step {lines : List (List Byte)} {s : Session} {future : List (Nat × Operation)}
    (h : Underway lines s future) : ∃ future', Underway lines s.step future' := by
  cases hrunning : s.running with
  | false =>
    rw [Session.step_stopped hrunning]
    exact ⟨future, h⟩
  | true =>
    by_cases hstdin : s.stdin = []
    · rw [Session.step_end hstdin]
      exact ⟨future, h⟩
    · obtain ⟨hahead, hquit⟩ := h.ahead hrunning
      obtain ⟨text, rest, future', hread, htext, hfuture, hahead'⟩ := hahead.read hstdin
      have hline : s.line ≤ if newline ∈ text then s.line + 1 else s.line := by
        split
        next => exact Nat.le_succ _
        next => exact Nat.le_refl _
      refine ⟨future', ?_⟩
      cases hcommand : command (inputString text) with
      | none =>
        rw [hcommand] at hfuture
        rw [Session.step_usage hrunning hread htext hcommand]
        constructor
        case split =>
          rw [← h.split, hfuture]
          rfl
        case past => exact fun c hc => Nat.le_trans (h.past c hc) hline
        case to_come => exact fun c hc => hahead'.le hc
        case ahead => exact fun _ => ⟨hahead', hquit⟩
        case stopped => exact fun hstopped => absurd hstopped (ne_false_of_eq_true hrunning)
      | some o =>
        rw [hcommand] at hfuture
        have hsplit : (s.calls ++ [(s.line, o)]) ++ future' = listed 0 lines := by
          rw [← h.split, hfuture, List.append_assoc]
          rfl
        have hpast : ∀ c ∈ s.calls ++ [(s.line, o)], c.1 ≤ s.line :=
          List.forall_mem_append.mpr ⟨h.past, List.forall_mem_singleton.mpr (Nat.le_refl _)⟩
        by_cases ho : o = .quit
        · cases ho
          rw [Session.step_quit hrunning hread htext hcommand]
          constructor
          case split => exact hsplit
          case past => exact hpast
          case to_come => exact fun c hc => h.to_come c (hfuture ▸ List.mem_append_right _ hc)
          case ahead => exact nofun
          case stopped => exact fun _ => ⟨s.calls, rfl, hquit⟩
        · rw [Session.step_call hrunning hread htext hcommand ho]
          constructor
          case split => exact hsplit
          case past => exact fun c hc => Nat.le_trans (hpast c hc) hline
          case to_come => exact fun c hc => hahead'.le hc
          case ahead =>
            refine fun _ => ⟨hahead', ?_⟩
            exact List.forall_mem_append.mpr ⟨hquit, List.forall_mem_singleton.mpr ho⟩
          case stopped => exact fun hstopped => absurd hstopped (ne_false_of_eq_true hrunning)

theorem underway_session {lines : List (List Byte)} (hlines : ∀ line ∈ lines, Plain line) :
    ∀ n, ∃ future, Underway lines (session lines n) future := by
  intro n
  unfold session
  induction n with
  | zero =>
    refine ⟨listed 0 lines, ?_⟩
    constructor
    case split => rfl
    case past => exact fun c hc => absurd hc List.not_mem_nil
    case to_come => exact fun c _ => Nat.zero_le _
    case ahead =>
      refine fun _ => ⟨?_, fun c hc => absurd hc List.not_mem_nil⟩
      exact Unread.of_lines hlines (Nat.zero_add _)
    case stopped => exact nofun
  | succ n ih =>
    obtain ⟨future, h⟩ := ih
    rw [Function.iterate_succ_apply']
    exact h.step

namespace Underway

variable {lines : List (List Byte)} {s : Session} {future : List (Nat × Operation)}

/-- What was called for a line and what is still to come are its commands. -/
theorem callsOf_getD (h : Underway lines s future) (i : Nat) :
    callsOf s.calls i ++ callsOf future i = (lines[i]?.map operationsOf).getD [] := by
  have hlisted : callsOf (listed 0 lines) (0 + i) = _ := callsOf_listed 0 i
  rw [Nat.zero_add] at hlisted
  rw [← callsOf_append, h.split, hlisted]

theorem callsOf_line (h : Underway lines s future) {i : Nat} {line : List Byte}
    (hline : lines[i]? = some line) :
    callsOf s.calls i ++ callsOf future i = operationsOf line := by
  rw [h.callsOf_getD, hline]
  rfl

/-- Nothing is done for a line that there is not. -/
theorem callsOf_none (h : Underway lines s future) {i : Nat} (hline : lines[i]? = none) :
    callsOf s.calls i = [] := by
  have hcalls := h.callsOf_getD i
  rw [hline] at hcalls
  exact (List.append_eq_nil_iff.mp hcalls).1

/-- Only the line that the client ended in has a `quit`, as its last operation. -/
theorem callsOf_quit (h : Underway lines s future) (i : Nat) :
    .quit ∉ callsOf s.calls i ∨ s.running = false ∧ i = s.line ∧
      ∃ os, .quit ∉ os ∧ callsOf s.calls i = os ++ [.quit] := by
  cases hrunning : s.running with
  | true => exact Or.inl fun hquit => (h.ahead hrunning).2 _ (mem_callsOf.mp hquit) rfl
  | false =>
    obtain ⟨before, hcalls, hbefore⟩ := h.stopped hrunning
    have hquit : .quit ∉ callsOf before i := fun hquit => hbefore _ (mem_callsOf.mp hquit) rfl
    rw [hcalls, callsOf_append]
    by_cases hi : i = s.line
    · cases hi
      exact Or.inr ⟨rfl, rfl, _, hquit, congrArg _ (callsOf_map s.line [.quit])⟩
    · left
      have hnil : callsOf [(s.line, .quit)] i = [] := by
        refine callsOf_eq_nil fun c hc => ?_
        rw [List.mem_singleton.mp hc]
        exact Ne.symm hi
      rw [hnil, List.append_nil]
      exact hquit

theorem callsOf_isPrefix (h : Underway lines s future) {i : Nat} {line : List Byte}
    (hline : lines[i]? = some line) : callsOf s.calls i <+: upToQuit (operationsOf line) := by
  rw [← h.callsOf_line hline]
  rcases h.callsOf_quit i with hquit | ⟨-, -, os, hquit, hos⟩
  · rw [upToQuit_append hquit]
    exact List.prefix_append _ _
  · rw [hos, List.append_assoc, upToQuit_append hquit]
    exact List.prefix_rfl

/-- A line that has been read is done, and had no `quit`. -/
theorem callsOf_past (h : Underway lines s future) {i : Nat} {line : List Byte}
    (hline : lines[i]? = some line) (hi : i < s.line) :
    callsOf s.calls i = operationsOf line ∧ .quit ∉ operationsOf line := by
  have hcalls := h.callsOf_line hline
  have hfuture : callsOf future i = [] :=
    callsOf_eq_nil fun c hc => Nat.ne_of_gt (Nat.lt_of_lt_of_le hi (h.to_come c hc))
  rw [hfuture, List.append_nil] at hcalls
  refine ⟨hcalls, ?_⟩
  rw [← hcalls]
  exact (h.callsOf_quit i).resolve_right fun hquit => Nat.ne_of_lt hi hquit.2.1

/-- The loop ends by a `quit` of the line it is on. -/
theorem quit_mem (h : Underway lines s future) (hrunning : s.running = false) :
    .quit ∈ callsOf s.calls s.line := by
  obtain ⟨before, hcalls, -⟩ := h.stopped hrunning
  rw [mem_callsOf, hcalls]
  exact List.mem_append_right _ (List.mem_singleton_self _)

/-- What was done for a line that is over. -/
theorem callsOf_over (h : Underway lines s future) {i : Nat} {line : List Byte}
    (hline : lines[i]? = some line) (hi : s.Over i) :
    callsOf s.calls i = upToQuit (operationsOf line) := by
  rcases hi with hi | ⟨hrunning, rfl⟩
  · obtain ⟨hcalls, hquit⟩ := h.callsOf_past hline hi
    have hall := upToQuit_append hquit []
    rw [List.append_nil] at hall
    exact hcalls.trans (hall.trans (List.append_nil _)).symm
  · rcases h.callsOf_quit s.line with hquit | ⟨-, -, os, hquit, hos⟩
    · exact absurd (h.quit_mem hrunning) hquit
    · rw [← h.callsOf_line hline, hos, List.append_assoc, upToQuit_append hquit]
      rfl

theorem isRead (h : Underway lines s future) {i : Nat} (hi : i ≤ s.line) : IsRead lines i :=
  fun _ hj _ hline => (h.callsOf_past hline (Nat.lt_of_lt_of_le hj hi)).2

/-- In the end every line is over, or the client has ended. -/
theorem over_of_running (h : Underway lines s future) (hended : s.Ended)
    (hrunning : s.running = true) {i : Nat} (hi : i < lines.length) : s.Over i := by
  have hstdin := hended.resolve_left fun hstopped => absurd hstopped (ne_false_of_eq_true hrunning)
  obtain ⟨hahead, -⟩ := h.ahead hrunning
  rw [hstdin] at hahead
  exact Or.inl (hahead.line_of_nil ▸ hi)

theorem over_of_ended (h : Underway lines s future) (hended : s.Ended) {i : Nat}
    (hi : i < lines.length) (hread : IsRead lines i) : s.Over i := by
  cases hrunning : s.running with
  | true => exact h.over_of_running hended hrunning hi
  | false =>
    have hle : i ≤ s.line := by
      refine Nat.le_of_not_lt fun hlt => ?_
      have hline := List.getElem?_eq_getElem (Nat.lt_trans hlt hi)
      refine hread s.line hlt _ hline ?_
      rw [← h.callsOf_line hline]
      exact List.mem_append_left _ (h.quit_mem hrunning)
    exact (Nat.lt_or_eq_of_le hle).imp_right fun heq => ⟨hrunning, heq⟩

end Underway

section Lines

variable {lines : List (List Byte)} (hlines : ∀ line ∈ lines, Plain line)

include hlines

/-- After as many iterations as there are bytes nothing is left to do. -/
theorem underway_ended : ∃ n future, Underway lines (session lines n) future ∧
    (session lines n).Ended := by
  obtain ⟨future, h⟩ := underway_session hlines (stdinOf lines).length
  exact ⟨_, future, h, Session.ended_iterate _ _ (Nat.le_refl _)⟩

theorem calls_of_isRead {i : Nat} {line : List Byte} (hline : lines[i]? = some line)
    (hread : IsRead lines i) : ∃ n, (session lines n).Over i ∧
      callsOf (session lines n).calls i = upToQuit (operationsOf line) := by
  obtain ⟨n, future, h, hended⟩ := underway_ended hlines
  have hover := h.over_of_ended hended (List.getElem?_eq_some_iff.mp hline).1 hread
  exact ⟨n, hover, h.callsOf_over hline hover⟩

/-- **One line is one command exactly where the lines fit**: each line that is read has at
most 2047 bytes, or it is no put line and at most one of its pieces is a command (the first
one, where it is `quit`). -/
theorem one_line_one_command_iff : OneCommandEach lines ↔
    ∀ i line, lines[i]? = some line → IsRead lines i → OneCommand line := by
  constructor
  · intro h i line hline hread
    obtain ⟨n, hover, hcalls⟩ := calls_of_isRead hlines hline hread
    rw [oneCommand_iff, ← hcalls]
    exact ⟨h.one n i, fun key value hargs htext => h.put n i key value hargs (htext ▸ hline) hover⟩
  · intro h
    constructor
    case one =>
      intro n i
      obtain ⟨future, hn⟩ := underway_session hlines n
      cases hline : lines[i]? with
      | none =>
        rw [hn.callsOf_none hline]
        exact Nat.zero_le _
      | some line =>
        rcases Nat.lt_or_ge (session lines n).line i with hlt | hge
        · rw [callsOf_eq_nil fun c hc => Nat.ne_of_lt (Nat.lt_of_le_of_lt (hn.past c hc) hlt)]
          exact Nat.zero_le _
        · have hone := ((oneCommand_iff line).mp (h i line hline (hn.isRead hge))).1
          exact Nat.le_trans (hn.callsOf_isPrefix hline).length_le hone
    case put =>
      intro n i key value hargs hline hover
      obtain ⟨future, hn⟩ := underway_session hlines n
      have hle : i ≤ (session lines n).line := by
        rcases hover with hlt | ⟨-, rfl⟩
        · exact Nat.le_of_lt hlt
        · exact Nat.le_refl _
      rw [hn.callsOf_over hline hover]
      exact ((oneCommand_iff _).mp (h i _ hline (hn.isRead hle))).2 key value hargs rfl
    case read =>
      intro i hi
      obtain ⟨n, future, hn, hended⟩ := underway_ended hlines
      refine ⟨n, ?_⟩
      cases hrunning : (session lines n).running with
      | true => exact Or.inl (hn.over_of_running hended hrunning hi)
      | false => exact Or.inr rfl

end Lines

theorem one_line_one_command_iff_putLine : OneCommandEach [putLine] := by
  have hplain : Plain putLine := ⟨by decide, by decide⟩
  refine (one_line_one_command_iff (fun line hline => ?_)).mpr (fun i line hline _ => ?_)
  · rw [List.mem_singleton.mp hline]
    exact hplain
  · rw [List.mem_singleton.mp (List.mem_of_getElem? hline)]
    exact Or.inl (by decide)

/-- Of this value 2041 bytes fit in a line with `put a `. -/
def cutValue : List Byte := List.replicate 2041 120

/-- `del a`. -/
def delText : List Byte := [100, 101, 108, 32, 97]

theorem length_cutValue : cutValue.length = 2041 := List.length_replicate

theorem notMem_cutValue {b : Byte} (hb : b ≠ 120) {rest : List Byte} (hrest : b ∉ rest) :
    b ∉ cutValue ++ rest := by
  rw [List.mem_append, not_or]
  exact ⟨fun hmem => hb (List.eq_of_mem_replicate hmem), hrest⟩

theorem cutValue_arguments {rest : List Byte} (hrest : newline ∉ rest) :
    PutArguments [97] (cutValue ++ rest) where
  key_ne_nil := List.cons_ne_nil _ _
  key_space := by decide
  key_newline := by decide
  value_ne_nil := by
    refine List.append_ne_nil_of_left_ne_nil (List.ne_nil_of_length_pos ?_) rest
    rw [length_cutValue]
    exact Nat.zero_lt_succ _
  value_newline := notMem_cutValue (by decide) hrest

theorem plain_cutValue : Plain (putText [97] (cutValue ++ delText)) := by
  have hmem {b : Byte} (hput : b ∉ putText [97] []) (hvalue : b ∉ cutValue ++ delText) :
      b ∉ putText [97] (cutValue ++ delText) := by
    have hsplit : putText [97] (cutValue ++ delText)
        = putText [97] [] ++ (cutValue ++ delText) := rfl
    rw [hsplit, List.mem_append, not_or]
    exact ⟨hput, hvalue⟩
  exact ⟨hmem (by decide) (notMem_cutValue (by decide) (by decide)),
    hmem (by decide) (notMem_cutValue (by decide) (by decide))⟩

theorem operationsOf_cutValue :
    operationsOf (putText [97] (cutValue ++ delText)) = [.put [97] cutValue, .del [97]] := by
  have hargs : PutArguments [97] cutValue := by
    have happend : PutArguments [97] (cutValue ++ []) := cutValue_arguments List.not_mem_nil
    rwa [List.append_nil] at happend
  have hlength : (putText [97] cutValue).length = maxRead := by
    rw [length_putText, length_cutValue]
    rfl
  have hsplit : putText [97] (cutValue ++ delText) = putText [97] cutValue ++ delText := rfl
  have hdel : command delText = some (.del [97]) := rfl
  rw [operationsOf_cut, hsplit, List.take_left' hlength, List.drop_left' hlength,
    command_putText hargs, operationsOf_of_lt (by decide), hdel]
  · rfl
  · rw [hsplit, List.length_append, hlength]
    exact Nat.le_add_right _ _

/-- A value of 2046 bytes: the put is of its first 2041, and the others are a command. -/
theorem value_executed :
    PutArguments [97] (cutValue ++ delText) ∧ Plain (putText [97] (cutValue ++ delText)) ∧
      (∃ n, callsOf (session [putText [97] (cutValue ++ delText)] n).calls 0
        = [.put [97] cutValue, .del [97]]) ∧
      ¬ OneCommandEach [putText [97] (cutValue ++ delText)] := by
  have hplain : ∀ line ∈ [putText [97] (cutValue ++ delText)], Plain line := by
    intro line hline
    rw [List.mem_singleton.mp hline]
    exact plain_cutValue
  obtain ⟨n, -, hcalls⟩ := calls_of_isRead hplain (i := 0) rfl
    fun j hj => absurd hj (Nat.not_lt_zero j)
  rw [operationsOf_cutValue] at hcalls
  refine ⟨cutValue_arguments (by decide), plain_cutValue, ⟨n, hcalls⟩, fun hall => ?_⟩
  have hone := hall.one n 0
  rw [hcalls] at hone
  exact absurd hone (by decide)

end KvStorage
