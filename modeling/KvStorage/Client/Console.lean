import KvStorage.Client.Commands
import KvStorage.Wire.Message

/-!
# What the client writes, and when it ends

`Session` has the commands that `main` of the client reads; here each iteration also writes
what `main` prints for the results that the calls of the stub give back. The results decide
nothing but the output. The loop has one way out, `quit`: at the end of the input `fgets`
returns NULL, `main` prints the usage and goes on. So the client ends exactly where one of
the texts that it reads is that command (`client_ends_iff`), and otherwise writes its usage
without end (`usage_without_end`).
-/

namespace KvStorage

open CLib Strtok Lines

/-! ## The output -/

/-- What one `printf` or `fwrite` writes. -/
inductive Output
  | text (s : String)
  | bytes (data : List Byte)

/-- What the call for an operation gives back. -/
def Operation.Result : Operation → Type
  | .put .. => Int
  | .get _ => Option Block
  | .del _ => Int
  | .size => Int
  | .getKeys => Option (List (Option CStr))
  | .getTable => Option (List (Option Entry))
  | .stats => Option StatisticsT
  | .quit => Unit

/-- The loop over the keys, up to NULL. -/
def keyLines : List (Option CStr) → List Output
  | some key :: keys => [.bytes key.bytes, .text "\n"] ++ keyLines keys
  | _ => []

/-- The loop over the entries, up to NULL. -/
def entryLines : List (Option Entry) → List Output
  | some e :: entries =>
    [.bytes e.key.bytes, .text " :: ", .bytes e.value.content, .text "\n"] ++ entryLines entries
  | _ => []

/-- The branches that only look whether the result is negative. -/
def reported (r : Int) (failed succeeded : String) : List Output :=
  [.text (if r < 0 then failed else succeeded), .text "\n"]

/-- What `main` prints for the result of an operation. -/
def answer : (o : Operation) → o.Result → List Output
  | .put .., r => reported r "Erro em rtable_put.\n" "Entrada inserida com sucesso.\n"
  | .get _, none => [.text "Erro em rtable_get ou chave não encontrada.\n", .text "\n"]
  | .get _, some block => [.bytes block.content, .text "\n", .text "\n"]
  | .del _, r =>
    reported r "Erro em rtable_del ou chave não encontrada.\n" "Entrada deletada com sucesso.\n"
  | .size, size =>
    reported size "Erro em rtable_size.\n" ("Tamanho da tabela: " ++ Int.repr size ++ "\n")
  | .getKeys, none => [.text "Erro em rtable_get_keys.\n", .text "\n"]
  | .getKeys, some keys => keyLines keys ++ [.text "\n"]
  | .getTable, none => [.text "Erro em rtable_get_table.\n", .text "\n"]
  | .getTable, some entries => entryLines entries ++ [.text "\n"]
  | .stats, none => [.text "Erro em rtable_stats.\n"]
  | .stats, some stats =>
    [.text ("Número total de operações: " ++ Int.repr stats.nOperations.toInt ++ "\n"),
      .text ("Tempo total gasto nas operações: " ++ Int.repr stats.totalTime.toInt
        ++ " microssegundos\n"),
      .text ("Número de clientes ligados: " ++ Int.repr stats.nClients.toInt ++ "\n"),
      .text "\n"]
  | .quit, _ => [.text "Tchau!\n"]

def printUsage : List Output :=
  [.text "Comando inválido.\n",
    .text ("Utilização: p[ut] <key> <value> | g[et] <key> | d[el] <key> | s[ize] | [get]k[eys] " ++
      "| [get]t[able] | st[ats] | q[uit]\n")]

/-- The results of the calls, in their order. -/
abbrev Results := Nat → (o : Operation) → o.Result

/-- What one iteration prints. -/
def Session.shown (results : Results) (s : Session) : List Output :=
  if s.running then
    let (read, _) := fgets newline maxRead s.stdin
    .text "Comando: " ::
      if read = [] then printUsage
      else
        match command (inputString read) with
        | none => printUsage
        | some o => answer o (results s.calls.length o)
  else []

/-- The loop with what it has written so far. -/
structure Console where
  session : Session
  output : List Output

namespace Console

/-- One iteration. -/
def step (results : Results) (c : Console) : Console :=
  ⟨c.session.step, c.output ++ c.session.shown results⟩

/-- The loop before the first iteration. -/
def start (stdin : List Byte) : Console := ⟨⟨stdin, 0, [], true⟩, []⟩

/-- The calls' results decide nothing but the output. -/
theorem iterate_session (results : Results) (c : Console) (n : Nat) :
    ((step results)^[n] c).session = Session.step^[n] c.session := by
  induction n generalizing c with
  | zero => rfl
  | succ n ih =>
    rw [Function.iterate_succ_apply, Function.iterate_succ_apply]
    exact ih _

end Console

/-! ## The way out -/

/-- `q` or `quit` is the first word. -/
def Quits (text : List Byte) : Prop :=
  (next [space] (inputString text)).1 = some [113] ∨
    (next [space] (inputString text)).1 = some [113, 117, 105, 116]

theorem verbOf_eq_quit {op : List Byte} :
    verbOf op = some .quit ↔ op = [113] ∨ op = [113, 117, 105, 116] := by
  constructor
  · intro h
    unfold verbOf at h
    repeat' split at h
    all_goals cases h
    assumption
  · rintro (rfl | rfl)
    · rfl
    · rfl

theorem commandTokens_op (input : List Byte) :
    (commandTokens input).op = (next [space] input).1 := by
  unfold commandTokens
  split
  next hop => rw [hop]
  next hop =>
    rw [hop]
    split
    all_goals rfl

theorem command_eq_quit {input : List Byte} :
    command input = some .quit ↔ (next [space] input).1.bind verbOf = some .quit := by
  rw [← commandTokens_op]
  unfold command
  constructor
  · intro h
    dsimp only at h
    split at h
    case h_1 =>
      split at h
      next => cases h
      next => cases h
    case h_2 =>
      obtain ⟨key, -, hget⟩ := Option.map_eq_some_iff.mp h
      cases hget
    case h_3 =>
      obtain ⟨key, -, hdel⟩ := Option.map_eq_some_iff.mp h
      cases hdel
    case h_8 hquit => exact hquit
    all_goals cases h
  · intro h
    dsimp only
    rw [h]

theorem quits_iff {text : List Byte} :
    Quits text ↔ command (inputString text) = some .quit := by
  rw [command_eq_quit, Option.bind_eq_some_iff]
  constructor
  · rintro (hop | hop)
    · exact ⟨_, hop, rfl⟩
    · exact ⟨_, hop, rfl⟩
  · rintro ⟨op, hop, hquit⟩
    rw [Quits, hop]
    exact (verbOf_eq_quit.mp hquit).imp (congrArg some) (congrArg some)

namespace Session

variable {s : Session}

/-- Whether a session that runs ever stops is decided after its next iteration. -/
theorem stops_step (hrunning : s.running = true) :
    (∃ n, (step^[n] s).running = false) ↔ ∃ n, (step^[n] s.step).running = false := by
  constructor
  · rintro ⟨n, hn⟩
    cases n with
    | zero => exact absurd hn (by rw [Function.iterate_zero_apply, hrunning]; decide)
    | succ n => exact ⟨n, hn⟩
  · rintro ⟨n, hn⟩
    exact ⟨n + 1, hn⟩

/-- An iteration that reads a text, seen from outside: it stops at `quit` and goes on with the
rest of the input at everything else. -/
theorem step_read {text rest : List Byte} (hrunning : s.running = true)
    (hread : fgets newline maxRead s.stdin = (text, rest)) (htext : text ≠ []) :
    s.step.stdin = rest ∧ (s.step.running = false ↔ Quits text) := by
  rw [quits_iff]
  cases hcommand : command (inputString text) with
  | none =>
    rw [step_usage hrunning hread htext hcommand]
    exact ⟨rfl, by simp [hrunning]⟩
  | some o =>
    by_cases ho : o = .quit
    · rw [ho] at hcommand ⊢
      rw [step_quit hrunning hread htext hcommand]
      exact ⟨rfl, by simp⟩
    · rw [step_call hrunning hread htext hcommand ho]
      exact ⟨rfl, by simp [hrunning, ho]⟩

/-- The loop stops exactly where it reads `quit`. -/
theorem stops_iff (hrunning : s.running = true) : (∃ n, (step^[n] s).running = false) ↔
    ∃ text ∈ readings newline 2046 s.stdin, Quits text := by
  induction hstdin : s.stdin using readings.induct newline 2046 generalizing s with
  | case1 =>
    constructor
    · rintro ⟨n, hn⟩
      rw [Function.iterate_fixed (step_end hstdin), hrunning] at hn
      cases hn
    · rintro ⟨text, hmem, -⟩
      rw [readings_nil] at hmem
      cases hmem
  | case2 stdin hne ih =>
    have htext : (fgets newline maxRead s.stdin).1 ≠ [] := fgets_ne_nil (hstdin ▸ hne)
    obtain ⟨hrest, hquit⟩ := step_read hrunning rfl htext
    rw [hstdin] at hrest hquit
    rw [stops_step hrunning, readings_of_fgets hne rfl]
    simp only [List.mem_cons, exists_eq_or_imp]
    cases hstep : s.step.running with
    | false => exact iff_of_true ⟨0, hstep⟩ (Or.inl (hquit.mp hstep))
    | true =>
      rw [ih hstep hrest, or_iff_right]
      exact fun hq => ne_false_of_eq_true hstep (hquit.mpr hq)

end Session

namespace Console

theorem running_start (stdin : List Byte) : (start stdin).session.running = true := rfl

/-- **The client ends exactly where it reads `quit`**: one of the texts that `fgets` gets from
its input, whatever the calls of the stub give back. -/
theorem client_ends_iff (results : Results) (stdin : List Byte) :
    (∃ n, ((step results)^[n] (start stdin)).session.running = false) ↔
      ∃ text ∈ readings newline 2046 stdin, Quits text := by
  have hstops := Session.stops_iff (running_start stdin)
  simp only [iterate_session]
  exact hstops

/-- At the end of the input the loop goes on: it prints the usage and nothing else changes. -/
theorem step_end (results : Results) {c : Console} (hrunning : c.session.running = true)
    (hstdin : c.session.stdin = []) :
    step results c = ⟨c.session, c.output ++ .text "Comando: " :: printUsage⟩ := by
  have hread : fgets newline maxRead c.session.stdin = ([], []) := by
    rw [hstdin]
    rfl
  unfold step Session.shown
  rw [Session.step_end hstdin, if_pos hrunning, hread]
  rfl

/-- Without `quit` the input is used up, and from then on the client prints its usage. -/
theorem usage_without_end (results : Results) {stdin : List Byte}
    (h : ∀ text ∈ readings newline 2046 stdin, ¬ Quits text) : ∃ n, ∀ m,
    ((step results)^[n + m] (start stdin)).session.stdin = [] ∧
      ((step results)^[n + m + 1] (start stdin)).output
        = ((step results)^[n + m] (start stdin)).output ++ .text "Comando: " :: printUsage := by
  have hrunning : ∀ n, (Session.step^[n] (start stdin).session).running = true := by
    intro n
    by_contra hstopped
    obtain ⟨text, htext, hquit⟩ :=
      (Session.stops_iff (running_start stdin)).mp ⟨n, Bool.eq_false_of_not_eq_true hstopped⟩
    exact h text htext hquit
  have hended : (Session.step^[stdin.length] (start stdin).session).Ended :=
    Session.ended_iterate stdin.length _ (Nat.le_refl _)
  refine ⟨stdin.length, fun m => ?_⟩
  have hsession : ((step results)^[stdin.length + m] (start stdin)).session
      = Session.step^[stdin.length] (start stdin).session := by
    rw [iterate_session, Nat.add_comm, Function.iterate_add_apply,
      Function.iterate_fixed (Session.step_ended hended)]
  have hstdin : ((step results)^[stdin.length + m] (start stdin)).session.stdin = [] := by
    rw [hsession]
    exact hended.resolve_left fun hstopped => by
      rw [hrunning] at hstopped
      cases hstopped
  refine ⟨hstdin, ?_⟩
  rw [Function.iterate_succ_apply', step_end results (hsession ▸ hrunning _) hstdin]

/-- One command and no `quit`. -/
theorem client_runs_on : ¬ ∃ results n,
    ((step results)^[n] (start [115, newline])).session.running = false := by
  rintro ⟨results, hstops⟩
  simp only [iterate_session] at hstops
  obtain ⟨text, htext, hquit⟩ := (Session.stops_iff (running_start _)).mp hstops
  have hread : fgets newline (2046 + 1) [115, newline] = ([115, newline], []) := rfl
  have hstdin : (start [115, newline]).session.stdin = [115, newline] := rfl
  rw [hstdin, readings_of_fgets (List.cons_ne_nil _ _) hread, readings_nil,
    List.mem_singleton] at htext
  rw [htext] at hquit
  rcases hquit with hq | hquit
  · cases hq
  · cases hquit

end Console

end KvStorage
