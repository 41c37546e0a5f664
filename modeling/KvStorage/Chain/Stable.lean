import KvStorage.Chain.Invariant

/-!
# Runs with stable membership

While nobody joins or leaves, every server keeps its handle, runs and serves
(`Steady`); every write is answered, so no connection between servers is ever
closed (`Answers`); and the requests that clients wait for have different
numbers (`Numbered`). `stable_inv` bundles these with the invariant of all runs.
-/

namespace KvStorage

open CLib Linearizability Monitor

variable {ι γ : Type} [DecidableEq ι] [DecidableEq γ]

open Net

/-- Every write is answered, so no server closes the connection of a handle. -/
structure Net.Answers (s : Net ι γ) : Prop where
  acked : ∀ x, (s.pc x).Acked
  opened : ∀ i j, s.pc (i, .peer j) ≠ .closed

/-- Nothing closes a connection between servers, and the caller of each is the thread that
forwards. -/
theorem Net.Answers.internal {Edge : ι → ι → Prop} {s s' : Net ι γ} (h : s.Answers)
    (hinv : s.Inv Edge) (hs : Internal s s') : s'.Answers := by
  cases hs with
  | @thread x io n pc rq rp hup hstep _ =>
    refine ⟨fun y => ?_, fun i j => ?_⟩
    · by_cases hy : y = x
      · rw [hy, after_pc_self]
        exact hstep.acked (h.acked x)
      · rw [after_pc_of_ne hy]
        exact h.acked y
    · by_cases hy : (i, .peer j) = x
      · subst hy
        rw [after_pc_self]
        rintro rfl
        have hacked := h.acked (i, .peer j)
        obtain ⟨out, hstage, hout⟩ := hinv.peer i j hup
        generalize s.pc (i, .peer j) = pc₀ at hstep hstage hacked
        cases hstep with
        | @close c =>
          -- the request of a handle is a write, and a write is answered
          obtain ⟨rfl, -, -⟩ := hstage.of_call rfl
          obtain ⟨o, ho⟩ := (hout c).mp rfl
          generalize s.pc (j, o) = pc₁ at ho
          cases pc₁ <;> cases ho
          exact hacked rfl
      · rw [after_pc_of_ne hy]
        exact h.opened i j
  | ret _ _ => exact ⟨h.acked, h.opened⟩

theorem Net.Answers.submit {s s' : Net ι γ} {admits : ι → Request → Prop} (h : s.Answers)
    (hs : Submit admits s s') : s'.Answers := by
  cases hs with
  | call _ _ => exact ⟨h.acked, h.opened⟩

/-- Requests are numbered in the order they are made. -/
structure Net.Numbered (s : Net ι γ) : Prop where
  fresh : ∀ y c, s.caller y = some c → c.id < s.fresh
  called : ∀ y c, s.caller y = some c → .call c.id c.request ∈ s.history
  unique : ∀ y y' c c', s.caller y = some c → s.caller y' = some c' → c.id = c'.id → y = y'

theorem Net.Numbered.internal {s s' : Net ι γ} (h : s.Numbered) (hs : Internal s s') :
    s'.Numbered := by
  cases hs with
  | thread _ _ _ => exact ⟨h.fresh, h.called, h.unique⟩
  | @ret i c call r rest _ _ =>
    exact ⟨fun y c' hy => h.fresh y c' (caller_deliver hy).2,
      fun y c' hy => List.mem_append_left _ (h.called y c' (caller_deliver hy).2),
      fun y y' c' c'' hy hy' => h.unique y y' c' c'' (caller_deliver hy).2 (caller_deliver hy').2⟩

/-- A new request gets a number that no earlier one has. -/
theorem Net.Numbered.submit {s s' : Net ι γ} {admits : ι → Request → Prop} (h : s.Numbered)
    (hs : Submit admits s s') : s'.Numbered := by
  cases hs with
  | @call i c r _ _ =>
    refine ⟨fun y c' hy => ?_, fun y c' hy => ?_, fun y y' c' c'' hy hy' hid => ?_⟩
    · rcases caller_submit hy with ⟨-, rfl⟩ | ⟨-, hold⟩
      · exact Nat.lt_succ_self _
      · exact Nat.lt_succ_of_lt (h.fresh y c' hold)
    · rcases caller_submit hy with ⟨-, rfl⟩ | ⟨-, hold⟩
      · simp [Net.submit]
      · exact List.mem_append_left _ (h.called y c' hold)
    · rcases caller_submit hy with ⟨rfl, rfl⟩ | ⟨-, hold⟩
      · rcases caller_submit hy' with ⟨rfl, -⟩ | ⟨-, hold'⟩
        · rfl
        · have hlt := h.fresh y' c'' hold'
          dsimp only at hid
          omega
      · rcases caller_submit hy' with ⟨rfl, rfl⟩ | ⟨-, hold'⟩
        · have hlt := h.fresh y c' hold
          dsimp only at hid
          omega
        · exact h.unique y y' c' c'' hold hold' hid

/-- While nobody joins or leaves, every server runs and serves with the handle
it started with. -/
structure Net.Steady (next : ι → Option ι) (s : Net ι γ) : Prop where
  next : ∀ i, (s.node i).next = next i
  running : ∀ i, (s.node i).running = true
  serving : ∀ i, (s.node i).serving = true

/-- The steps of the threads move requests, replies and tables, and nobody's handle. -/
theorem Net.Steady.internal {next : ι → Option ι} {s s' : Net ι γ} (h : s.Steady next)
    (hs : Internal s s') : s'.Steady next := by
  cases hs with
  | thread _ hstep _ =>
    exact ⟨fun i => (after_membership hstep i).1.trans (h.next i),
      fun i => (after_membership hstep i).2.1.trans (h.running i),
      fun i => (after_membership hstep i).2.2.trans (h.serving i)⟩
  | ret _ _ => exact ⟨h.next, h.running, h.serving⟩

theorem Net.Steady.submit {next : ι → Option ι} {s s' : Net ι γ} {admits : ι → Request → Prop}
    (h : s.Steady next) (hs : Submit admits s s') : s'.Steady next := by
  cases hs with
  | call _ _ => exact ⟨h.next, h.running, h.serving⟩

/-- What is known of every run with stable membership. -/
structure Net.Stable (Edge : ι → ι → Prop) (next : ι → Option ι) (s : Net ι γ) : Prop where
  inv : s.Inv Edge
  steady : s.Steady next
  answers : s.Answers
  numbered : s.Numbered

/-- What every run with these handles keeps. -/
theorem stable_inv {Edge : ι → ι → Prop} (hE : ∀ i, ¬ Edge i i) {admits : ι → Request → Prop}
    {replica : ι → Replica} {next : ι → Option ι} (hnext : ∀ i k, next i = some k → Edge i k)
    {s : Net ι γ} (h : (stable γ admits replica next).Reachable s) : s.Stable Edge next := by
  refine h.invariant (I := fun s => s.Stable Edge next) ?_ ?_
  · intro s hs
    subst hs
    exact ⟨.start (fun _ => rfl) (fun _ => rfl) hnext, ⟨fun _ => rfl, fun _ => rfl, fun _ => rfl⟩,
      ⟨fun _ => trivial, fun _ _ he => by cases he⟩,
      ⟨fun _ _ he => (by cases he), fun _ _ he => (by cases he), fun _ _ _ _ he => (by cases he)⟩⟩
  · intro s s' ⟨hinv, hsteady, hans, hnum⟩ hs
    rcases hs with hs | hs
    · exact ⟨hinv.submit hs, hsteady.submit hs, hans.submit hs, hnum.submit hs⟩
    · exact ⟨hinv.internal hE hs, hsteady.internal hs, hans.internal hinv hs, hnum.internal hs⟩

end KvStorage
