import KvStorage.Lib.CMonad

/-!
# Code in steps

Between two steps of one thread the others run. `Code` is what a thread has still to do, as a
tree of the pieces that nobody interrupts: each waits for its condition on the shared state,
runs, and goes on with its result. `run` is the code with nobody in between; in that reading
the pieces of a function are the function.

`Charges` is for what the code does to one part of the shared state: it changes that part in
one of its steps or in none, and at its end the result says which. So the steps of any number
of threads add up (`Charges.goes`).
-/

namespace CLib

/-- What is left of a thread's code on the shared state `σ`. -/
inductive Code (σ α : Type) : Type 1
  | ret (a : α)
  | step {β : Type} (enabled : σ → Prop) (p : StateT σ CM β) (next : β → Code σ α)

namespace Code

variable {σ α : Type}

def bind {β : Type} : Code σ α → (α → Code σ β) → Code σ β
  | ret a, k => k a
  | step enabled p next, k => step enabled p fun b => (next b).bind k

instance : Monad (Code σ) where
  pure := ret
  bind := bind

/-- A piece that waits for its condition. -/
def await (enabled : σ → Prop) (p : StateT σ CM α) : Code σ α := step enabled p ret

/-- A piece that is never kept waiting. -/
def atomic (p : StateT σ CM α) : Code σ α := await (fun _ => True) p

instance : MonadLift (StateT σ CM) (Code σ) := ⟨atomic⟩

/-- The code with nobody in between. -/
def run : Code σ α → StateT σ CM α
  | ret a => pure a
  | step _ p next => p >>= fun b => (next b).run

@[simp] theorem run_pure (a : α) : (pure a : Code σ α).run = pure a := rfl

/-- With nobody in between, the pieces of a function run one after the other. -/
@[simp] theorem run_bind {β : Type} (c : Code σ α) (k : α → Code σ β) :
    (c >>= k).run = c.run >>= fun a => (k a).run := by
  induction c with
  | ret a => exact (pure_bind a fun a => (k a).run).symm
  | step enabled p next ih =>
    show (p >>= fun b => (next b >>= k).run) = (p >>= fun b => (next b).run) >>= _
    rw [bind_assoc]
    exact bind_congr fun b => ih b

@[simp] theorem run_await (enabled : σ → Prop) (p : StateT σ CM α) :
    (await enabled p).run = p := bind_pure p

@[simp] theorem run_atomic (p : StateT σ CM α) : (atomic p).run = p := bind_pure p

@[simp] theorem run_compute (p : CM α) : (liftM p : Code σ α).run = liftM p := bind_pure _

@[simp] theorem run_get : (get : Code σ σ).run = get := bind_pure _

@[simp] theorem run_ite {P : Prop} [Decidable P] (c d : Code σ α) :
    (if P then c else d).run = if P then c.run else d.run := by
  split
  · rfl
  · rfl

/-- One step of a thread, whatever the allocations in it give. -/
inductive Goes : Code σ α × σ → Code σ α × σ → Prop
  | step {β : Type} {enabled : σ → Prop} {p : StateT σ CM β} {next : β → Code σ α} {s s' : σ}
      {b : β} (al : Allocs) {al' : Allocs} : enabled s → p s al = .ok ((b, s'), al') →
      Goes (.step enabled p next, s) (next b, s')

/-! ## What the steps do to one part of the state -/

section Charges

variable {τ : Type} (f : σ → τ) (g : τ → τ) (Charged : α → Prop)

/-- What is left changes `f` by `g` in one of its steps, or in none; whether that is in the
past already, `paid` says. The result is `Charged` exactly where it happens. -/
inductive Charges : Bool → Code σ α → Prop
  | ret {paid : Bool} {a : α} : (Charged a ↔ paid = true) → Charges paid (ret a)
  | keep {paid : Bool} {β : Type} {enabled : σ → Prop} {p : StateT σ CM β}
      {next : β → Code σ α} :
      Keeps f p → (∀ s al b s' al', p s al = .ok ((b, s'), al') → Charges paid (next b)) →
      Charges paid (step enabled p next)
  | charge {β : Type} {enabled : σ → Prop} {p : StateT σ CM β} {next : β → Code σ α} :
      Acts f g p → (∀ b, Charges true (next b)) → Charges false (step enabled p next)

variable {f g Charged} {paid : Bool} {β : Type}

namespace Charges

/-- A result that says what has been paid. -/
theorem pure {a : α} (h : Charged a ↔ paid = true) :
    Charges f g Charged paid (Pure.pure a : Code σ α) := .ret h

theorem await {enabled : σ → Prop} {p : StateT σ CM β} {k : β → Code σ α} (hp : Keeps f p)
    (hk : ∀ b, Charges f g Charged paid (k b)) :
    Charges f g Charged paid (Code.await enabled p >>= k) := .keep hp fun _ _ b _ _ _ => hk b

theorem atomic {p : StateT σ CM β} {k : β → Code σ α} (hp : Keeps f p)
    (hk : ∀ b, Charges f g Charged paid (k b)) :
    Charges f g Charged paid (Code.atomic p >>= k) := .keep hp fun _ _ b _ _ _ => hk b

/-- Code that does not look at the state, with what is known of its result. -/
theorem compute {p : CM β} {k : β → Code σ α}
    (hk : ∀ al b al', p al = .ok (b, al') → Charges f g Charged paid (k b)) :
    Charges f g Charged paid (liftM p >>= k) := by
  refine .keep (keeps_lift p) fun s al b s' al' hrun => ?_
  exact hk al b al' (state_lift_eq_ok.mp hrun).1

/-- Reading charges nothing. -/
theorem get {k : σ → Code σ α} (hk : ∀ s, Charges f g Charged paid (k s)) :
    Charges f g Charged paid (MonadState.get >>= k) := .keep keeps_get fun _ _ s _ _ _ => hk s

/-- The one step that charges. -/
theorem act {p : StateT σ CM β} {k : β → Code σ α} (hp : Acts f g p)
    (hk : ∀ b, Charges f g Charged true (k b)) :
    Charges f g Charged false (Code.atomic p >>= k) := .charge hp hk

/-- Each branch charges what its result says. -/
theorem ite {P : Prop} [Decidable P] {c d : Code σ α} (hc : P → Charges f g Charged paid c)
    (hd : ¬ P → Charges f g Charged paid d) : Charges f g Charged paid (if P then c else d) := by
  split
  next h => exact hc h
  next h => exact hd h

/-- At the end the result says whether it was paid. -/
theorem of_ret {a : α} (h : Charges f g Charged paid (.ret a : Code σ α)) :
    Charged a ↔ paid = true := by
  cases h with
  | ret h => exact h

/-- One step, with anything done by others before it. -/
theorem goes {c c' : Code σ α} {s s' : σ} (h : Charges f g Charged paid c)
    (hs : Goes (c, s) (c', s')) : Charges f g Charged paid c' ∧ f s' = f s ∨
      paid = false ∧ Charges f g Charged true c' ∧ f s' = g (f s) := by
  cases hs with
  | step al _ hrun =>
    cases h with
    | keep hp hnext => exact Or.inl ⟨hnext _ _ _ _ _ hrun, hp _ _ _ _ _ hrun⟩
    | charge hp hnext => exact Or.inr ⟨rfl, hnext _, hp _ _ _ _ _ hrun⟩

/-- All steps, with nobody in between. -/
theorem run {c : Code σ α} (h : Charges f g Charged paid c) {s s' : σ} {al al' : Allocs} {a : α}
    (hrun : c.run s al = .ok ((a, s'), al')) :
    Charged a ∧ f s' = (if paid then f s else g (f s)) ∨
      paid = false ∧ ¬ Charged a ∧ f s' = f s := by
  induction h generalizing s al with
  | @ret paid a hcharged =>
    cases hrun
    cases paid with
    | true => exact Or.inl ⟨hcharged.mpr rfl, rfl⟩
    | false => exact Or.inr ⟨rfl, fun ha => Bool.noConfusion (hcharged.mp ha), rfl⟩
  | keep hp _ ih =>
    obtain ⟨⟨⟨b, s₁⟩, al₁⟩, hpiece, hrest⟩ := bind_eq_ok.mp hrun
    have hrest := ih _ _ _ _ _ hpiece hrest
    rwa [hp _ _ _ _ _ hpiece] at hrest
  | charge hp _ ih =>
    obtain ⟨⟨⟨b, s₁⟩, al₁⟩, hpiece, hrest⟩ := bind_eq_ok.mp hrun
    rcases ih _ hrest with ⟨ha, hkept⟩ | ⟨hpaid, -⟩
    · exact Or.inl ⟨ha, hkept.trans (hp _ _ _ _ _ hpiece)⟩
    · cases hpaid

end Charges

end Charges

end Code

end CLib
