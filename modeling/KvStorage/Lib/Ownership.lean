import KvStorage.Lib.Transition
import Mathlib.Logic.Function.Basic

/-!
# Owned numbers

A table leads from numbers to resources and gives a number out again once it is free, as an
operating system does with descriptors. A number alone says nothing about what is behind
it: whoever kept one from before may find another resource there.

The discipline that excludes this has three moves. An owner acquires a free number, passes
its number on to another owner, or releases it and forgets it. A number that is owned then
leads to the resource it was acquired for, and to nobody else's (`Pool.Owned`): resources are never
given out twice, so one that two owners share would have been passed on and kept, which is no move.
Each of the moves keeps this, and so does every run of them (`owned_of_reachable`).
-/

namespace Ownership

variable {ω : Type}

/-- A number, and the resource behind it when it was given out. -/
structure Ticket where
  number : Nat
  resource : Nat
  deriving DecidableEq

/-- The table, the next resource, and what every owner holds. -/
@[ext] structure Pool (ω : Type) where
  table : Nat → Option Nat
  fresh : Nat
  holds : ω → Option Ticket

namespace Pool

/-- What is owned is there, and owned once. -/
structure Owned (s : Pool ω) : Prop where
  old : ∀ n c, s.table n = some c → c < s.fresh
  held : ∀ o t, s.holds o = some t → s.table t.number = some t.resource
  one : ∀ o o' t t', s.holds o = some t → s.holds o' = some t' → t.resource = t'.resource → o = o'

/-- What is owned was given out before the next resource. -/
theorem Owned.lt {s : Pool ω} (h : s.Owned) {o : ω} {t : Ticket} (ht : s.holds o = some t) :
    t.resource < s.fresh :=
  h.old _ _ (h.held o t ht)

/-- Two owners have two numbers. -/
theorem Owned.number_ne {s : Pool ω} (h : s.Owned) {o o' : ω} (hne : o ≠ o') {t t' : Ticket}
    (ht : s.holds o = some t) (ht' : s.holds o' = some t') : t.number ≠ t'.number := by
  intro heq
  have hsame := h.held o t ht
  rw [heq, h.held o' t' ht'] at hsame
  exact hne (h.one o o' t t' ht ht' (Option.some.inj hsame).symm)

variable [DecidableEq ω]

/-- A free number for a new resource. -/
def acquire (s : Pool ω) (o : ω) (n : Nat) : Pool ω where
  table := Function.update s.table n (some s.fresh)
  fresh := s.fresh + 1
  holds := Function.update s.holds o (some ⟨n, s.fresh⟩)

/-- The number is free again, and its owner forgets it. -/
def release (s : Pool ω) (o : ω) (n : Nat) : Pool ω where
  table := Function.update s.table n none
  fresh := s.fresh
  holds := Function.update s.holds o none

/-- From one owner to another. -/
def pass (s : Pool ω) (o o' : ω) (t : Ticket) : Pool ω where
  table := s.table
  fresh := s.fresh
  holds := Function.update (Function.update s.holds o none) o' (some t)

/-- One of the three moves. -/
inductive Step : Pool ω → Pool ω → Prop
  | acquire {s : Pool ω} {o : ω} {n : Nat} : s.table n = none → Step s (s.acquire o n)
  | release {s : Pool ω} {o : ω} {t : Ticket} : s.holds o = some t →
      Step s (s.release o t.number)
  | pass {s : Pool ω} {o o' : ω} {t : Ticket} : s.holds o = some t → Step s (s.pass o o' t)

variable {s s' : Pool ω} {o o' : ω} {n : Nat} {t : Ticket}

/-- What the moves do to the table and to the owners, as one `if` each. -/
theorem table_acquire (n' : Nat) :
    (s.acquire o n).table n' = if n' = n then some s.fresh else s.table n' :=
  Function.update_apply ..

theorem holds_acquire (o₁ : ω) :
    (s.acquire o n).holds o₁ = if o₁ = o then some ⟨n, s.fresh⟩ else s.holds o₁ :=
  Function.update_apply ..

theorem table_release (n' : Nat) :
    (s.release o n).table n' = if n' = n then none else s.table n' :=
  Function.update_apply ..

theorem holds_release (o₁ : ω) :
    (s.release o n).holds o₁ = if o₁ = o then none else s.holds o₁ :=
  Function.update_apply ..

/-- The new owner has it, also where it is the old one. -/
theorem holds_pass (o₁ : ω) :
    (s.pass o o' t).holds o₁ = if o₁ = o' then some t else if o₁ = o then none else s.holds o₁ := by
  unfold pass
  dsimp only
  rw [Function.update_apply, Function.update_apply]

/-- The number was free, so nobody owned it, and the resource is a new one. -/
theorem Owned.acquire (h : s.Owned) (hfree : s.table n = none) : (s.acquire o n).Owned := by
  have hheld : ∀ o₁ t, (s.acquire o n).holds o₁ = some t →
      (o₁ = o ∧ t = ⟨n, s.fresh⟩) ∨ s.holds o₁ = some t := by
    intro o₁ t ht
    rw [holds_acquire] at ht
    split at ht
    next ho => exact Or.inl ⟨ho, (Option.some.inj ht).symm⟩
    next => exact Or.inr ht
  constructor
  · intro n' c hc
    rw [table_acquire] at hc
    split at hc
    next =>
      cases hc
      exact Nat.lt_succ_self _
    next => exact Nat.lt_succ_of_lt (h.old n' c hc)
  · intro o₁ t ht
    rw [table_acquire]
    rcases hheld o₁ t ht with ⟨-, rfl⟩ | hold
    · exact if_pos rfl
    · have hopen := h.held o₁ t hold
      rw [if_neg, hopen]
      intro heq
      rw [heq, hfree] at hopen
      cases hopen
  · intro o₁ o₂ t₁ t₂ ht₁ ht₂ heq
    -- the new resource is nobody else's
    rcases hheld o₁ t₁ ht₁ with ⟨rfl, rfl⟩ | hold₁
    · rcases hheld o₂ t₂ ht₂ with ⟨rfl, -⟩ | hold₂
      · rfl
      · exact absurd heq.symm (Nat.ne_of_lt (h.lt hold₂))
    · rcases hheld o₂ t₂ ht₂ with ⟨-, rfl⟩ | hold₂
      · exact absurd heq (Nat.ne_of_lt (h.lt hold₁))
      · exact h.one o₁ o₂ t₁ t₂ hold₁ hold₂ heq

/-- Nobody else had that number, so nobody loses what is behind it. -/
theorem Owned.release (h : s.Owned) (ht : s.holds o = some t) :
    (s.release o t.number).Owned := by
  have hheld : ∀ o₁ t₁, (s.release o t.number).holds o₁ = some t₁ →
      o₁ ≠ o ∧ s.holds o₁ = some t₁ := by
    intro o₁ t₁ ht₁
    rw [holds_release] at ht₁
    split at ht₁
    next => cases ht₁
    next ho => exact ⟨ho, ht₁⟩
  constructor
  · intro n' c hc
    rw [table_release] at hc
    split at hc
    next => cases hc
    next => exact h.old n' c hc
  · intro o₁ t₁ ht₁
    obtain ⟨ho, hold⟩ := hheld o₁ t₁ ht₁
    rw [table_release, if_neg (h.number_ne ho hold ht)]
    exact h.held o₁ t₁ hold
  · intro o₁ o₂ t₁ t₂ ht₁ ht₂ heq
    exact h.one o₁ o₂ t₁ t₂ (hheld o₁ t₁ ht₁).2 (hheld o₂ t₂ ht₂).2 heq

/-- The owner changes, and there is still one. -/
theorem Owned.pass (h : s.Owned) (ht : s.holds o = some t) : (s.pass o o' t).Owned := by
  have hheld : ∀ o₁ t₁, (s.pass o o' t).holds o₁ = some t₁ →
      (o₁ = o' ∧ t₁ = t) ∨ (o₁ ≠ o ∧ s.holds o₁ = some t₁) := by
    intro o₁ t₁ ht₁
    rw [holds_pass] at ht₁
    split at ht₁
    next ho' => exact Or.inl ⟨ho', (Option.some.inj ht₁).symm⟩
    next =>
      split at ht₁
      next => cases ht₁
      next ho => exact Or.inr ⟨ho, ht₁⟩
  constructor
  · exact h.old
  · intro o₁ t₁ ht₁
    rcases hheld o₁ t₁ ht₁ with ⟨-, rfl⟩ | ⟨-, hold⟩
    · exact h.held o t₁ ht
    · exact h.held o₁ t₁ hold
  · intro o₁ o₂ t₁ t₂ ht₁ ht₂ heq
    rcases hheld o₁ t₁ ht₁ with ⟨rfl, rfl⟩ | ⟨hne₁, hold₁⟩
    · rcases hheld o₂ t₂ ht₂ with ⟨rfl, -⟩ | ⟨hne₂, hold₂⟩
      · rfl
      · exact absurd (h.one o₂ o t₂ t₁ hold₂ ht heq.symm) hne₂
    · rcases hheld o₂ t₂ ht₂ with ⟨rfl, rfl⟩ | ⟨-, hold₂⟩
      · exact absurd (h.one o₁ o t₁ t₂ hold₁ ht heq) hne₁
      · exact h.one o₁ o₂ t₁ t₂ hold₁ hold₂ heq

theorem Step.owned (h : s.Owned) (hs : Step s s') : s'.Owned := by
  cases hs with
  | acquire hfree => exact h.acquire hfree
  | release ht => exact h.release ht
  | pass ht => exact h.pass ht

end Pool

/-- All runs that keep to the three moves. -/
def owners (ω : Type) [DecidableEq ω] : Transition.System (Pool ω) where
  init := Pool.Owned
  step := Pool.Step

/-- The discipline holds from a pool in which it holds on. -/
theorem owned_of_reachable [DecidableEq ω] {s : Pool ω} (h : (owners ω).Reachable s) :
    s.Owned := by
  refine h.invariant (I := Pool.Owned) (fun s hs => hs) ?_
  intro s s' hs hstep
  exact Pool.Step.owned hs hstep

end Ownership
