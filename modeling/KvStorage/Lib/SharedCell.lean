import KvStorage.Lib.Transition

/-!
# Two users of one cell

Code that keeps its place in a cell between its calls: a first call writes the cell without
reading it, the calls after it read what the call before has left. Two users that share the
cell disturb each other in general. Where each makes a first call only while the other is not
between two of its calls, each of them does what it would do alone (`alone_of_apart`).
-/

namespace SharedCell

open Transition

variable {σ τ C : Type*}

/-- Deterministic code with a state of its own; `call` is one access to the cell, and nothing
once the code is finished. -/
structure User (σ C : Type*) where
  call : σ → C → Option (σ × C)
  /-- The next call, if there is one, does not read the cell. -/
  Starts : σ → Prop
  call_eq : ∀ {s : σ} (c c' : C), Starts s → call s c = call s c'

/-- The user with the cell to itself. -/
def User.alone (u : User σ C) (s₀ : σ) (c₀ : C) : System (σ × C) where
  init x := x = (s₀, c₀)
  step x x' := u.call x.1 x.2 = some x'

/-- Both users, and the cell they share. -/
structure Both (σ τ C : Type*) where
  left : σ
  right : τ
  cell : C

variable (u : User σ C) (v : User τ C)

/-- One call of the first user. -/
def LeftCall (x x' : Both σ τ C) : Prop :=
  u.call x.left x.cell = some (x'.left, x'.cell) ∧ x'.right = x.right

/-- One call of the second user. -/
def RightCall (x x' : Both σ τ C) : Prop :=
  v.call x.right x.cell = some (x'.right, x'.cell) ∧ x'.left = x.left

/-- The calls of both, in any order. -/
def together (s₀ : σ) (t₀ : τ) (c₀ : C) : System (Both σ τ C) where
  init x := x = ⟨s₀, t₀, c₀⟩
  step x x' := LeftCall u x x' ∨ RightCall v x x'

/-- Nobody makes a first call while the other is between two calls. -/
structure Apart (x x' : Both σ τ C) : Prop where
  left : LeftCall u x x' → u.Starts x.left → v.Starts x.right
  right : RightCall v x x' → v.Starts x.right → u.Starts x.left

variable {u v}

/-- One user as it is alone with a cell `c`; where it reads the cell next, that is the
shared one. -/
structure User.AsAlone (u : User σ C) (s₀ : σ) (c₀ : C) (s : σ) (cell : C) : Prop where
  reachable : ∃ c, (u.alone s₀ c₀).Reachable (s, c) ∧ (u.Starts s ∨ c = cell)

theorem User.AsAlone.call {s₀ s s' : σ} {c₀ cell cell' : C} (h : u.AsAlone s₀ c₀ s cell)
    (hcall : u.call s cell = some (s', cell')) : u.AsAlone s₀ c₀ s' cell' := by
  obtain ⟨c, hreach, hcell⟩ := h.reachable
  have hsame : u.call s c = some (s', cell') := by
    rcases hcell with hstarts | rfl
    · rw [← hcall]
      exact u.call_eq c cell hstarts
    · exact hcall
  exact ⟨cell', hreach.step hsame, Or.inr rfl⟩

/-- A call of the other user matters only between two calls. -/
theorem User.AsAlone.skip {s₀ s : σ} {c₀ cell : C} (h : u.AsAlone s₀ c₀ s cell)
    (hstarts : u.Starts s) (cell' : C) : u.AsAlone s₀ c₀ s cell' := by
  obtain ⟨c, hreach, -⟩ := h.reachable
  exact ⟨c, hreach, Or.inl hstarts⟩

/-- Both as they are alone, and at most one of them between two calls. -/
structure Undisturbed (u : User σ C) (v : User τ C) (s₀ : σ) (t₀ : τ) (c₀ : C)
    (x : Both σ τ C) : Prop where
  left : u.AsAlone s₀ c₀ x.left x.cell
  right : v.AsAlone t₀ c₀ x.right x.cell
  one : u.Starts x.left ∨ v.Starts x.right

theorem Undisturbed.step {s₀ : σ} {t₀ : τ} {c₀ : C} {x x' : Both σ τ C}
    (h : Undisturbed u v s₀ t₀ c₀ x) (hstep : LeftCall u x x' ∨ RightCall v x x')
    (hapart : Apart u v x x') : Undisturbed u v s₀ t₀ c₀ x' := by
  rcases hstep with hleft | hright
  · have hother : v.Starts x.right := h.one.elim (hapart.left hleft) id
    obtain ⟨hcall, hsame⟩ := hleft
    refine ⟨h.left.call hcall, ?_, Or.inr (hsame ▸ hother)⟩
    rw [hsame]
    exact h.right.skip hother _
  · have hother : u.Starts x.left := h.one.elim id (hapart.right hright)
    obtain ⟨hcall, hsame⟩ := hright
    refine ⟨?_, h.right.call hcall, Or.inl (hsame ▸ hother)⟩
    rw [hsame]
    exact h.left.skip hother _

/-- On runs where the two keep apart, each gets to states it reaches alone. -/
theorem alone_of_apart {s₀ : σ} {t₀ : τ} {c₀ : C} (hu : u.Starts s₀) {x : Both σ τ C}
    (hx : ((together u v s₀ t₀ c₀).restrict (Apart u v)).Reachable x) :
    Undisturbed u v s₀ t₀ c₀ x := by
  refine hx.invariant (I := Undisturbed u v s₀ t₀ c₀) ?_ ?_
  · rintro x rfl
    exact ⟨⟨c₀, .init rfl, Or.inr rfl⟩, ⟨c₀, .init rfl, Or.inr rfl⟩, Or.inl hu⟩
  · intro x x' h ⟨hstep, hapart⟩
    exact h.step hstep hapart

end SharedCell
