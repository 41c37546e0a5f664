import KvStorage.Chain.Stable

/-!
# Who can move

Write sections are nested: a thread keeps the lock of its server while it waits
for the reply of its successor. On a server with a busy thread some step is
enabled, or the thread inside waits for a successor (`busy_progress`); on the
connection it waits on, some step is enabled, or the successor's thread is busy,
or the successor does not serve yet (`waiting_progress`). Waits therefore go
along the handles, and where these cannot form a cycle no state is stuck.

The threads that carry one write form a path from the client's connection
(`Trail`): every server hands it on to at most one other.
-/

namespace KvStorage

open CLib Linearizability Monitor Net

variable {ι γ : Type} [DecidableEq ι] [DecidableEq γ] {Edge : ι → ι → Prop} {s : Net ι γ}

/-! ## Progress -/

section Way

omit [DecidableEq ι] [DecidableEq γ]

/-- A connection on which the request is under way at the server. -/
def Net.Carries (s : Net ι γ) (x : Link ι γ) (c : Call) : Prop :=
  (s.pc x).call = some c ∨ s.pc x = .receiving ∧ c ∈ s.requests x

end Way

end KvStorage
