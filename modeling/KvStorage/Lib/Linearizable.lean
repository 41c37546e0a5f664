import KvStorage.Lib.Transition
import Mathlib.Data.List.Induction
import Mathlib.Data.List.Nodup
import Mathlib.Logic.Function.Basic

/-!
# Linearizability

Histories of calls and returns with unique identities, a sequential
specification as a relation (so that an answer may leave a choice open), and
what it means that a history is linearizable: some order of the operations is
legal, holds every answer that was returned, and keeps the order of operations
that did not overlap.

The proof rule is the atomic object: an automaton that performs every operation
in one step between its call and its return. Each of its histories is
linearizable (`atomic_linearization`), the order being the one of these
steps, so a system is linearizable as soon as the atomic object simulates it.
-/

namespace Linearizability

/-- One event of a history. -/
inductive Event (Op Res : Type*)
  | call (id : Nat) (op : Op)
  | ret (id : Nat) (res : Res)

/-- A completed operation. -/
structure Done (Op Res : Type*) where
  id : Nat
  op : Op
  res : Res

/-- A sequential object. -/
structure Spec (σ Op Res : Type*) where
  init : σ
  step : σ → Op → Res → σ → Prop

variable {σ Op Res : Type*}

/-- The operations `l`, one after the other, lead from `s` to a state. -/
inductive Spec.Run (S : Spec σ Op Res) (s : σ) : List (Done Op Res) → σ → Prop
  | nil : Run S s [] s
  | snoc {l : List (Done Op Res)} {s' s'' : σ} {d : Done Op Res} :
      Run S s l s' → S.step s' d.op d.res s'' → Run S s (l ++ [d]) s''

theorem Spec.Run.split {S : Spec σ Op Res} {s s' : σ} {l₁ l₂ : List (Done Op Res)}
    (h : S.Run s (l₁ ++ l₂) s') : ∃ s₁, S.Run s l₁ s₁ ∧ S.Run s₁ l₂ s' := by
  induction l₂ using List.reverseRecOn generalizing s' with
  | nil => exact ⟨s', by simpa using h, .nil⟩
  | append_singleton l₂ d ih =>
    rw [← List.append_assoc] at h
    generalize hl : l₁ ++ l₂ ++ [d] = l at h
    cases h with
    | nil => simp at hl
    | snoc hrun hstep =>
      obtain ⟨hl', hd⟩ := List.append_inj' hl rfl
      obtain ⟨s₁, h₁, h₂⟩ := ih (hl' ▸ hrun)
      cases hd
      exact ⟨s₁, h₁, h₂.snoc hstep⟩

/-- `a` stands before `b` in the list. -/
def Precedes {α : Type*} (l : List α) (a b : α) : Prop :=
  ∃ l₁ l₂ l₃, l = l₁ ++ a :: l₂ ++ b :: l₃

theorem Precedes.mem_left {α : Type*} {l : List α} {a b : α} (h : Precedes l a b) : a ∈ l := by
  obtain ⟨l₁, l₂, l₃, rfl⟩ := h
  simp

theorem Precedes.append {α : Type*} {l : List α} {a b : α} (h : Precedes l a b) (l' : List α) :
    Precedes (l ++ l') a b := by
  obtain ⟨l₁, l₂, l₃, rfl⟩ := h
  exact ⟨l₁, l₂, l₃ ++ l', by simp⟩

theorem precedes_last {α : Type*} {l : List α} {a : α} (h : a ∈ l) (b : α) :
    Precedes (l ++ [b]) a b := by
  obtain ⟨l₁, l₂, rfl⟩ := List.append_of_mem h
  exact ⟨l₁, l₂, [], by simp⟩

/-- A new last element can only be the later one of the two. -/
theorem precedes_append_singleton {α : Type*} {l : List α} {a b x : α}
    (h : Precedes (l ++ [x]) a b) : Precedes l a b ∨ b = x ∧ a ∈ l := by
  obtain ⟨l₁, l₂, l₃, heq⟩ := h
  rcases List.eq_nil_or_concat l₃ with rfl | ⟨l₃, y, rfl⟩
  · have hcat : l ++ [x] = (l₁ ++ a :: l₂) ++ [b] := heq
    obtain ⟨hl, hx⟩ := List.append_inj' hcat rfl
    cases hx
    exact Or.inr ⟨rfl, by rw [hl]; simp⟩
  · have hcat : l ++ [x] = (l₁ ++ a :: l₂ ++ b :: l₃) ++ [y] := by
      rw [heq]
      simp
    obtain ⟨hl, -⟩ := List.append_inj' hcat rfl
    exact Or.inl ⟨l₁, l₂, l₃, hl⟩

/-- The order `order` explains the history `h`. -/
structure Linearization (S : Spec σ Op Res) (h : List (Event Op Res))
    (order : List (Done Op Res)) : Prop where
  nodup : (order.map Done.id).Nodup
  legal : ∃ s, S.Run S.init order s
  called : ∀ d ∈ order, Event.call d.id d.op ∈ h
  returned : ∀ id res, Event.ret id res ∈ h → ∃ op, ⟨id, op, res⟩ ∈ order
  real_time : ∀ d ∈ order, ∀ d' ∈ order,
    Precedes h (.ret d.id d.res) (.call d'.id d'.op) → Precedes order d d'

/-- Some order explains the history. -/
def Linearizable (S : Spec σ Op Res) (h : List (Event Op Res)) : Prop :=
  ∃ order, Linearization S h order

/-- What an operation meets that is called after another one returned: the
state that one left, changed by the operations in between. -/
theorem Linearization.after {S : Spec σ Op Res} {h : List (Event Op Res)}
    {order : List (Done Op Res)} (L : Linearization S h order) {d d' : Done Op Res} (hd : d ∈ order)
    (hd' : d' ∈ order) (hp : Precedes h (.ret d.id d.res) (.call d'.id d'.op)) :
    ∃ l₁ l₂ l₃ s₁ s₂ s₃ s₄, order = l₁ ++ d :: l₂ ++ d' :: l₃ ∧ S.Run S.init l₁ s₁ ∧
      S.step s₁ d.op d.res s₂ ∧ S.Run s₂ l₂ s₃ ∧ S.step s₃ d'.op d'.res s₄ := by
  obtain ⟨l₁, l₂, l₃, heq⟩ := L.real_time d hd d' hd' hp
  obtain ⟨s, hrun⟩ := L.legal
  have hcat : order = (l₁ ++ [d]) ++ (l₂ ++ [d'] ++ l₃) := by
    rw [heq]
    simp
  rw [hcat] at hrun
  obtain ⟨s₂, hfirst, hrest⟩ := hrun.split
  obtain ⟨s₄, hmid, -⟩ := hrest.split
  refine ⟨l₁, l₂, l₃, ?_⟩
  generalize ha : l₁ ++ [d] = a at hfirst
  generalize hb : l₂ ++ [d'] = b at hmid
  cases hfirst with
  | nil => simp at ha
  | @snoc l s₁ _ x h₁ hstep₁ =>
    obtain ⟨rfl, hx⟩ := List.append_inj' ha rfl
    cases hx
    cases hmid with
    | nil => simp at hb
    | @snoc l' s₃ _ y h₃ hstep₃ =>
      obtain ⟨rfl, hy⟩ := List.append_inj' hb rfl
      cases hy
      exact ⟨s₁, s₂, s₃, s₄, heq, h₁, hstep₁, h₃, hstep₃⟩

/-! ## The atomic object -/

/-- How far an operation has come. -/
inductive Status (Op Res : Type*)
  | called (op : Op)
  | done (op : Op) (res : Res)
  | returned (op : Op) (res : Res)

def Status.op : Status Op Res → Op
  | called op => op
  | done op _ => op
  | returned op _ => op

/-- The state of the atomic object. -/
structure Atomic (σ Op Res : Type*) where
  val : σ
  status : Nat → Option (Status Op Res)
  history : List (Event Op Res)

inductive Atomic.Step (S : Spec σ Op Res) : Atomic σ Op Res → Atomic σ Op Res → Prop
  | call {a : Atomic σ Op Res} {id : Nat} {op : Op} : a.status id = none →
      Step S a { a with status := Function.update a.status id (some (.called op))
                        history := a.history ++ [.call id op] }
  | act {a : Atomic σ Op Res} {id : Nat} {op : Op} {res : Res} {v : σ} :
      a.status id = some (.called op) → S.step a.val op res v →
      Step S a { a with val := v, status := Function.update a.status id (some (.done op res)) }
  | ret {a : Atomic σ Op Res} {id : Nat} {op : Op} {res : Res} :
      a.status id = some (.done op res) →
      Step S a { a with status := Function.update a.status id (some (.returned op res))
                        history := a.history ++ [.ret id res] }

/-- The runs of the atomic object. -/
def atomic (S : Spec σ Op Res) : Transition.System (Atomic σ Op Res) where
  init a := a = ⟨S.init, fun _ => none, []⟩
  step := Atomic.Step S

/-- The order of the `act` steps so far explains the history so far. -/
structure Explains (S : Spec σ Op Res) (a : Atomic σ Op Res) (order : List (Done Op Res)) :
    Prop where
  run : S.Run S.init order a.val
  nodup : (order.map Done.id).Nodup
  mem : ∀ d, d ∈ order ↔
    a.status d.id = some (.done d.op d.res) ∨ a.status d.id = some (.returned d.op d.res)
  called : ∀ id st, a.status id = some st → Event.call id st.op ∈ a.history
  fresh : ∀ id op, Event.call id op ∈ a.history → a.status id ≠ none
  returned : ∀ id res, Event.ret id res ∈ a.history → ∃ op, a.status id = some (.returned op res)
  real_time : ∀ d ∈ order, ∀ d' ∈ order,
    Precedes a.history (.ret d.id d.res) (.call d'.id d'.op) → Precedes order d d'

namespace Explains

variable {S : Spec σ Op Res} {a : Atomic σ Op Res} {order : List (Done Op Res)}

theorem not_mem (h : Explains S a order) {id : Nat} (hid : a.status id = none) {d : Done Op Res}
    (hd : d ∈ order) : d.id ≠ id := by
  intro he
  subst he
  rcases (h.mem d).mp hd with hs | hs <;> simp [hid] at hs

section Update

variable (h : Explains S a order) {id : Nat} {new : Status Op Res}
  {history : List (Event Op Res)}

include h

/-- Moving one operation on keeps the calls of all. -/
theorem called_update (hsub : a.history ⊆ history) (hnew : .call id new.op ∈ history) :
    ∀ id' st, Function.update a.status id (some new) id' = some st →
      .call id' st.op ∈ history := by
  intro id' st hst
  by_cases hi : id' = id
  · subst hi
    rw [Function.update_self, Option.some.injEq] at hst
    exact hst ▸ hnew
  · rw [Function.update_of_ne hi] at hst
    exact hsub (h.called id' st hst)

theorem fresh_update
    (hcalls : ∀ id' op, .call id' op ∈ history → id' = id ∨ .call id' op ∈ a.history) :
    ∀ id' op, .call id' op ∈ history → Function.update a.status id (some new) id' ≠ none := by
  intro id' op hmem
  by_cases hi : id' = id
  · rw [hi, Function.update_self]
    exact Option.some_ne_none _
  · rw [Function.update_of_ne hi]
    exact h.fresh id' op ((hcalls id' op hmem).resolve_left hi)

/-- An operation that moves on has not returned yet. -/
theorem returned_update (hid : ∀ op res, a.status id ≠ some (.returned op res)) :
    ∀ id' res, .ret id' res ∈ a.history →
      ∃ op, Function.update a.status id (some new) id' = some (.returned op res) := by
  intro id' res hmem
  obtain ⟨op, hop⟩ := h.returned id' res hmem
  have hi : id' ≠ id := fun he => hid op res (he ▸ hop)
  exact ⟨op, by rw [Function.update_of_ne hi, hop]⟩

end Update

theorem call (h : Explains S a order) {id : Nat} {op : Op} (hid : a.status id = none) :
    Explains S { a with status := Function.update a.status id (some (.called op))
                        history := a.history ++ [.call id op] } order where
  run := h.run
  nodup := h.nodup
  mem := by
    intro d
    by_cases hd : d.id = id
    · have hnot : d ∉ order := fun hin => h.not_mem hid hin hd
      simp [hd, hnot]
    · simp only [Function.update_of_ne hd]
      exact h.mem d
  called := h.called_update (List.subset_append_left _ _)
    (List.mem_append_right _ (List.mem_singleton_self _))
  fresh := by
    refine h.fresh_update fun id' op' hmem => ?_
    rcases List.mem_append.mp hmem with hold | hnew
    · exact Or.inr hold
    · cases List.mem_singleton.mp hnew
      exact Or.inl rfl
  returned := by
    intro id' res hmem
    rcases List.mem_append.mp hmem with hold | hnew
    · exact h.returned_update (fun _ _ => hid ▸ nofun) id' res hold
    · cases List.mem_singleton.mp hnew
  real_time := by
    intro d hd d' hd' hp
    rcases precedes_append_singleton hp with hp | ⟨hcall, -⟩
    · exact h.real_time d hd d' hd' hp
    · cases hcall
      exact absurd rfl (h.not_mem hid hd')

theorem act (h : Explains S a order) {id : Nat} {op : Op} {res : Res} {v : σ}
    (hid : a.status id = some (.called op)) (hv : S.step a.val op res v) :
    Explains S { a with val := v, status := Function.update a.status id (some (.done op res)) }
      (order ++ [⟨id, op, res⟩]) where
  run := h.run.snoc hv
  nodup := by
    have hnot : id ∉ order.map Done.id := by
      intro hin
      obtain ⟨d, hd, rfl⟩ := List.mem_map.mp hin
      rcases (h.mem d).mp hd with hs | hs <;> simp [hid] at hs
    rw [List.map_append, List.map_singleton]
    exact List.nodup_append.mpr ⟨h.nodup, List.nodup_singleton _, fun x hx y hy => by
      intro he
      rw [List.mem_singleton.mp hy] at he
      subst he
      exact hnot hx⟩
  mem := by
    intro d
    rw [List.mem_append, List.mem_singleton, h.mem d]
    dsimp only
    by_cases hd : d.id = id
    · rw [hd, Function.update_self, hid]
      cases d
      subst hd
      simp [eq_comm]
    · rw [Function.update_of_ne hd]
      have hne : d ≠ ⟨id, op, res⟩ := fun he => hd (by rw [he])
      simp [hne]
  called := h.called_update (List.Subset.refl _) (h.called id (.called op) hid)
  fresh := h.fresh_update fun _ _ => Or.inr
  returned := h.returned_update fun _ _ => hid ▸ nofun
  real_time := by
    intro d hd d' hd' hp
    -- the earlier operation has returned, so it is not the new one
    obtain ⟨op', hop⟩ := h.returned d.id d.res hp.mem_left
    have hold : d ∈ order := by
      rcases List.mem_append.mp hd with hin | hin
      · exact hin
      · rw [List.mem_singleton.mp hin, hid] at hop
        cases hop
    rcases List.mem_append.mp hd' with hin | hin
    · exact (h.real_time d hold d' hin hp).append _
    · rw [List.mem_singleton.mp hin]
      exact precedes_last hold _

theorem ret (h : Explains S a order) {id : Nat} {op : Op} {res : Res}
    (hid : a.status id = some (.done op res)) :
    Explains S { a with status := Function.update a.status id (some (.returned op res))
                        history := a.history ++ [.ret id res] } order where
  run := h.run
  nodup := h.nodup
  mem := by
    intro d
    rw [h.mem d]
    dsimp only
    by_cases hd : d.id = id
    · rw [hd, Function.update_self, hid]
      simp
    · rw [Function.update_of_ne hd]
  called := h.called_update (List.subset_append_left _ _)
    (List.mem_append_left _ (h.called id (.done op res) hid))
  fresh := by
    refine h.fresh_update fun id' op' hmem => ?_
    rcases List.mem_append.mp hmem with hold | hnew
    · exact Or.inr hold
    · cases List.mem_singleton.mp hnew
  returned := by
    intro id' res' hmem
    rcases List.mem_append.mp hmem with hold | hnew
    · exact h.returned_update (fun _ _ => hid ▸ nofun) id' res' hold
    · cases List.mem_singleton.mp hnew
      exact ⟨op, Function.update_self ..⟩
  real_time := by
    intro d hd d' hd' hp
    rcases precedes_append_singleton hp with hp | ⟨hcall, -⟩
    · exact h.real_time d hd d' hd' hp
    · cases hcall

theorem linearization (h : Explains S a order) : Linearization S a.history order where
  nodup := h.nodup
  legal := ⟨a.val, h.run⟩
  called := by
    intro d hd
    rcases (h.mem d).mp hd with hs | hs
    · exact h.called d.id _ hs
    · exact h.called d.id _ hs
  returned := by
    intro id res hmem
    obtain ⟨op, hop⟩ := h.returned id res hmem
    exact ⟨op, (h.mem ⟨id, op, res⟩).mpr (Or.inr hop)⟩
  real_time := h.real_time

end Explains

/-- The order of the operations explains the history and the value. -/
theorem atomic_explains {S : Spec σ Op Res} {a : Atomic σ Op Res} (h : (atomic S).Reachable a) :
    ∃ order, Explains S a order := by
  refine h.invariant (I := fun a => ∃ order, Explains S a order) ?_ ?_
  · intro a ha
    subst ha
    exact ⟨[], .nil, List.nodup_nil, by simp, by simp, by simp, by simp, by simp⟩
  · intro a a' ⟨order, hexp⟩ hstep
    cases hstep with
    | call hid => exact ⟨order, hexp.call hid⟩
    | act hid hv => exact ⟨_, hexp.act hid hv⟩
    | ret hid => exact ⟨order, hexp.ret hid⟩

end Linearizability
