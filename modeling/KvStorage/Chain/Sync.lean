import KvStorage.Chain.Invariant

/-!
# A server and its successor

A write that a server has applied and its successor has not is on its way
between the two: the thread that holds the write lock is about to forward it, or
waits while the request or the successor's thread has it (`Ahead`). There is
never more than one.

`Sync` says what follows for any value that a write changes on both sides, the
log of applied writes or the map of the table: the two values agree, or differ
by exactly the write that is on its way. A step of a thread leaves that alone
unless it applies a write at one of the two ends.
-/

namespace KvStorage

open CLib Linearizability Monitor

variable {ι γ : Type}

/-- The write a thread has received and not applied. -/
def Pc.pending : Pc ι → Option (Nat × Write)
  | received ⟨id, .write w⟩ | wantWrite id w _ | writing id w _ => some (id, w)
  | _ => none

/-- A thread that has applied the write and still has to hear of it from `k`. -/
def Pc.Forwards (pc : Pc ι) (k : ι) (id : Nat) (w : Write) : Prop :=
  (∃ res, pc = .applied id w res (some k)) ∨ ∃ res, pc = .waiting id w res k

/-- A thread forwards to `k` in two places only. -/
theorem Pc.not_forwards {pc : Pc ι} {k : ι} (happlied : ∀ id w res, pc ≠ .applied id w res (some k))
    (hwaiting : ∀ id w res, pc ≠ .waiting id w res k) (id : Nat) (w : Write) :
    ¬ pc.Forwards k id w := by
  intro hf
  rcases hf with ⟨res, he⟩ | ⟨res, he⟩
  · exact happlied id w res he
  · exact hwaiting id w res he

theorem Pc.not_forwards_applied {k k' : ι} (hk : k' ≠ k) {id₀ : Nat} {w₀ : Write} {res : Int}
    (id : Nat) (w : Write) : ¬ (Pc.applied id₀ w₀ res (some k')).Forwards k id w := by
  intro hf
  rcases hf with ⟨res, he⟩ | ⟨res, he⟩
  · cases he
    exact hk rfl
  · cases he

theorem Pc.not_forwards_waiting {k k' : ι} (hk : k' ≠ k) {id₀ : Nat} {w₀ : Write} {res : Int}
    (id : Nat) (w : Write) : ¬ (Pc.waiting id₀ w₀ res k').Forwards k id w := by
  intro hf
  rcases hf with ⟨res, he⟩ | ⟨res, he⟩
  · cases he
  · cases he
    exact hk rfl

theorem Pc.Forwards.side {pc : Pc ι} {k : ι} {id : Nat} {w : Write} (h : pc.Forwards k id w) :
    pc.side = .write := by
  rcases h with ⟨res, rfl⟩ | ⟨res, rfl⟩ <;> rfl

/-- The forwarded write has reached the successor's end and is not applied
there. -/
def AtSuccessor (s : Net ι γ) (i k : ι) (id : Nat) (w : Write) : Prop :=
  s.requests (k, .peer i) = [⟨id, .write w⟩] ∨ (s.pc (k, .peer i)).pending = some (id, w)

/-- `i` has applied the write and `k`, its successor, has not. -/
def Ahead (s : Net ι γ) (i k : ι) (id : Nat) (w : Write) : Prop :=
  ∃ o, (∃ res, s.pc (i, o) = .applied id w res (some k)) ∨
    (∃ res, s.pc (i, o) = .waiting id w res k) ∧ AtSuccessor s i k id w

theorem Ahead.forwards {s : Net ι γ} {i k : ι} {id : Nat} {w : Write} (h : Ahead s i k id w) :
    ∃ o, (s.pc (i, o)).Forwards k id w := by
  obtain ⟨o, hres | ⟨hres, -⟩⟩ := h
  · exact ⟨o, Or.inl hres⟩
  · exact ⟨o, Or.inr hres⟩

/-- A value of `i` and one of `k` that every write changes by `app`: they agree
up to the write on its way. -/
def Sync {α : Type} (app : Nat × Write → α → α) (a b : α) (s : Net ι γ) (i k : ι) : Prop :=
  (a = b ∧ ∀ id w, ¬ Ahead s i k id w) ∨ ∃ id w, Ahead s i k id w ∧ a = app (id, w) b

variable {Edge : ι → ι → Prop} {s : Net ι γ} {i k : ι}

/-- What `i` is ahead by is what the thread in its write section is about. -/
theorem Net.Inv.not_ahead (h : s.Inv Edge) {o : Origin ι γ} (ho : (s.pc (i, o)).side = .write)
    (hpc : ∀ id w, ¬ (s.pc (i, o)).Forwards k id w) (id : Nat) (w : Write) :
    ¬ Ahead s i k id w := by
  intro hahead
  obtain ⟨o', ho'⟩ := hahead.forwards
  rw [h.writer_unique ho'.side ho] at ho'
  exact hpc id w ho'

theorem Pc.Forwards.unique {pc : Pc ι} {id id' : Nat} {w w' : Write} (h : pc.Forwards k id w)
    (h' : pc.Forwards k id' w') : id = id' ∧ w = w' := by
  rcases h with ⟨res, rfl⟩ | ⟨res, rfl⟩
  · rcases h' with ⟨res', he⟩ | ⟨res', he⟩
    · cases he
      exact ⟨rfl, rfl⟩
    · cases he
  · rcases h' with ⟨res', he⟩ | ⟨res', he⟩
    · cases he
    · cases he
      exact ⟨rfl, rfl⟩

theorem Net.Inv.ahead_unique (h : s.Inv Edge) {id id' : Nat} {w w' : Write}
    (ha : Ahead s i k id w) (ha' : Ahead s i k id' w') : id = id' ∧ w = w' := by
  obtain ⟨o, ho⟩ := ha.forwards
  obtain ⟨o', ho'⟩ := ha'.forwards
  rw [h.writer_unique ho'.side ho.side] at ho'
  exact ho.unique ho'

theorem Pc.Forwards.call {pc : Pc ι} {id : Nat} {w : Write} (h : pc.Forwards k id w) :
    pc.call = some ⟨id, .write w⟩ := by
  rcases h with ⟨res, rfl⟩ | ⟨res, rfl⟩ <;> rfl

/-- No write is on its way to a running server or being worked on there. -/
def Quiet (s : Net ι γ) : Prop :=
  ∀ x, (s.node x.1).running = true → ∀ id w,
    ⟨id, .write w⟩ ∉ s.requests x ∧ (s.pc x).call ≠ some ⟨id, .write w⟩

theorem Sync.eq_of_quiet {α : Type} {app : Nat × Write → α → α} {a b : α}
    (hsync : Sync app a b s i k) (hup : (s.node i).running = true) (hq : Quiet s) : a = b := by
  rcases hsync with ⟨heq, -⟩ | ⟨id, w, hahead, -⟩
  · exact heq
  · obtain ⟨o, ho⟩ := hahead.forwards
    exact absurd ho.call (hq (i, o) hup id w).2

/-- Steps of clients do not touch the connections between servers. -/
theorem Sync.congr {α : Type} {app : Nat × Write → α → α} {a b : α} {s' : Net ι γ}
    (hpc : s'.pc = s.pc) (hrq : s'.requests (k, .peer i) = s.requests (k, .peer i))
    (hsync : Sync app a b s i k) : Sync app a b s' i k := by
  unfold Sync Ahead AtSuccessor
  rw [hpc, hrq]
  exact hsync

variable [DecidableEq ι] [DecidableEq γ]

/-! ## Steps of threads -/

section Thread

variable {x : Link ι γ} {n : Node ι} {pc : Pc ι} {io : Io ι}
  {rq : Link ι γ → List Call} {rp : Link ι γ → List WireMsg}

/-- Only the successor's thread takes a forwarded write on. -/
theorem atSuccessor_elsewhere (hwire : Wire s x io rq rp) (hi : x.1 ≠ i) (hk : x ≠ (k, .peer i))
    (id : Nat) (w : Write) : AtSuccessor (s.after x n pc rq rp) i k id w
      ↔ AtSuccessor s i k id w := by
  have hpc : (s.after x n pc rq rp).pc (k, .peer i) = s.pc (k, .peer i) :=
    Net.after_pc_of_ne fun he => hk he.symm
  have hrq : rq (k, .peer i) = s.requests (k, .peer i) := by
    cases hwire with
    | accept _ => exact Function.update_of_ne (fun he => hk he.symm) ..
    | forward =>
      refine Function.update_of_ne (fun he => hi ?_) ..
      cases he
      rfl
    | _ => rfl
  unfold AtSuccessor
  rw [hpc, Net.after_requests, hrq]

/-- Where neither end takes part, nothing changes between them. -/
theorem ahead_elsewhere (hwire : Wire s x io rq rp) (hi : x.1 ≠ i) (hk : x ≠ (k, .peer i))
    (id : Nat) (w : Write) : Ahead (s.after x n pc rq rp) i k id w ↔ Ahead s i k id w := by
  have hpcs : ∀ o, (s.after x n pc rq rp).pc (i, o) = s.pc (i, o) := fun o =>
    Net.after_pc_of_ne fun he => hi (congrArg Prod.fst he).symm
  unfold Ahead
  simp only [hpcs, atSuccessor_elsewhere hwire hi hk]

/-- The successor's thread has the write until it applies it. -/
theorem atSuccessor_there (hki : k ≠ i) (hstage : Stage out (s.requests (k, .peer i))
      (s.pc (k, .peer i)) (s.replies (k, .peer i)))
    (hstep : ThreadStep (s.node k) (s.pc (k, .peer i)) io n pc)
    (hwire : Wire s (k, .peer i) io rq rp)
    (hwriting : ∀ id w next, s.pc (k, .peer i) ≠ .writing id w next) (id : Nat) (w : Write) :
    AtSuccessor (s.after (k, .peer i) n pc rq rp) i k id w ↔ AtSuccessor s i k id w := by
  unfold AtSuccessor
  rw [Net.after_pc_self, Net.after_requests]
  cases hwire with
  | accept hrq =>
    obtain ⟨hpc, rfl, -⟩ := hstep.accept_inv
    obtain ⟨-, rfl, -⟩ := hstage.of_requests hrq hpc
    rw [Function.update_self, hrq, hpc]
    rename_i c
    obtain ⟨id', r⟩ := c
    cases r with
    | write w' => simp [Pc.pending]
    | read q => simp [Pc.pending]
  | tau =>
    generalize hpc : s.pc (k, .peer i) = pc₀ at hstep hwriting ⊢
    cases hstep with
    | apply => exact absurd rfl (hwriting _ _ _)
    | _ => exact Iff.rfl
  | forward =>
    obtain ⟨id', w', res, -, hpc, rfl, -⟩ := hstep.forward_inv
    rw [Function.update_of_ne (by simp [hki.symm]), hpc]
    exact Iff.rfl
  | collect _ =>
    obtain ⟨id', w', res, hpc, rfl, -⟩ := hstep.collect_inv
    rw [hpc]
    exact Iff.rfl
  | lost _ =>
    obtain ⟨id', w', res, hpc, rfl, -⟩ := hstep.lost_inv
    rw [hpc]
    exact Iff.rfl
  | send =>
    obtain ⟨c, hpc, rfl, -⟩ := hstep.send_inv
    rw [hpc]
    exact Iff.rfl

theorem ahead_at_successor (hki : k ≠ i) (hstage : Stage out (s.requests (k, .peer i))
      (s.pc (k, .peer i)) (s.replies (k, .peer i)))
    (hstep : ThreadStep (s.node k) (s.pc (k, .peer i)) io n pc)
    (hwire : Wire s (k, .peer i) io rq rp)
    (hwriting : ∀ id w next, s.pc (k, .peer i) ≠ .writing id w next) (id : Nat) (w : Write) :
    Ahead (s.after (k, .peer i) n pc rq rp) i k id w ↔ Ahead s i k id w := by
  have hpcs : ∀ o, (s.after (k, .peer i) n pc rq rp).pc (i, o) = s.pc (i, o) := fun o =>
    Net.after_pc_of_ne fun he => hki (congrArg Prod.fst he).symm
  unfold Ahead
  simp only [hpcs, atSuccessor_there hki hstage hstep hwire hwriting]

/-- A thread of the server that begins no write for `k` and ends none. -/
theorem ahead_of_not_forwards (hki : k ≠ x.1) (hold : ∀ id w, ¬ (s.pc x).Forwards k id w)
    (hnew : ∀ id w, ¬ pc.Forwards k id w)
    (hrq : rq (k, .peer x.1) = s.requests (k, .peer x.1)) (id : Nat) (w : Write) :
    Ahead (s.after x n pc rq rp) x.1 k id w ↔ Ahead s x.1 k id w := by
  have hpc : (s.after x n pc rq rp).pc (k, .peer x.1) = s.pc (k, .peer x.1) :=
    Net.after_pc_of_ne fun he => hki (congrArg Prod.fst he)
  have hat : AtSuccessor (s.after x n pc rq rp) x.1 k id w ↔ AtSuccessor s x.1 k id w := by
    unfold AtSuccessor
    rw [hpc, Net.after_requests, hrq]
  refine exists_congr fun o => ?_
  by_cases ho : (x.1, o) = x
  · rw [ho, Net.after_pc_self]
    refine iff_of_false (fun hf => hnew id w ?_) fun hf => hold id w ?_
    · exact hf.imp_right fun h => h.1
    · exact hf.imp_right fun h => h.1
  · rw [Net.after_pc_of_ne ho, hat]

/-- After a step of the writer, too, nobody else of its server is inside. -/
theorem Net.Inv.writer_after (h : s.Inv Edge) (hside : (s.pc x).side = .write) {o : Origin ι γ}
    (ho : ((s.after x n pc rq rp).pc (x.1, o)).side = .write) : (x.1, o) = x := by
  by_cases hox : (x.1, o) = x
  · exact hox
  · rw [Net.after_pc_of_ne hox] at ho
    have heq : o = x.2 := h.writer_unique ho hside
    rw [heq]

/-- The writer sends its write to `k`: it is the same write that is on its way. -/
theorem ahead_forwarded (h : s.Inv Edge) {id₀ : Nat} {w₀ : Write} {res : Int}
    (hpc : s.pc x = .applied id₀ w₀ res (some k))
    (hrq : rq (k, .peer x.1) = [⟨id₀, .write w₀⟩]) (id : Nat) (w : Write) :
    Ahead (s.after x n (.waiting id₀ w₀ res k) rq rp) x.1 k id w ↔ Ahead s x.1 k id w := by
  have hside : (s.pc x).side = .write := by
    rw [hpc]
    rfl
  constructor
  · intro hahead
    obtain ⟨o, ho⟩ := hahead.forwards
    rw [h.writer_after hside ho.side, Net.after_pc_self] at ho
    rcases ho with ⟨res', he⟩ | ⟨res', he⟩
    · cases he
    · cases he
      exact ⟨x.2, Or.inl ⟨res, hpc⟩⟩
  · intro hahead
    obtain ⟨o, ho⟩ := hahead.forwards
    have heq : o = x.2 := h.writer_unique ho.side hside
    rw [heq, show s.pc (x.1, x.2) = _ from hpc] at ho
    rcases ho with ⟨res', he⟩ | ⟨res', he⟩
    · cases he
      exact ⟨x.2, Or.inr ⟨⟨res, Net.after_pc_self⟩, Or.inl hrq⟩⟩
    · cases he

/-- The writer hears from `k`: there is no write on its way before or after. -/
theorem ahead_collected (h : s.Inv Edge) (hup : (s.node k).running = true) {id₀ : Nat} {w₀ : Write}
    {res : Int} (hpc : s.pc x = .waiting id₀ w₀ res k) {r : WireMsg} {rest : List WireMsg}
    (hrp : s.replies (k, .peer x.1) = r :: rest) (hnew : ∀ id w, ¬ pc.Forwards k id w)
    (id : Nat) (w : Write) :
    Ahead (s.after x n pc rq rp) x.1 k id w ↔ Ahead s x.1 k id w := by
  have hside : (s.pc x).side = .write := by
    rw [hpc]
    rfl
  have hwaits : (s.pc (x.1, x.2)).awaits = some (k, ⟨id₀, .write w₀⟩) := by
    rw [show s.pc (x.1, x.2) = _ from hpc]
    rfl
  obtain ⟨-, hrq, hrecv, -⟩ := (h.outstanding hup hwaits).of_replies hrp
  refine iff_of_false ?_ ?_
  · intro hahead
    obtain ⟨o, ho⟩ := hahead.forwards
    rw [h.writer_after hside ho.side, Net.after_pc_self] at ho
    exact hnew id w ho
  · rintro ⟨o, ⟨res', ho⟩ | ⟨-, hat⟩⟩
    · have heq : o = x.2 := h.writer_unique (by rw [ho]; rfl) hside
      rw [heq, show s.pc (x.1, x.2) = _ from hpc] at ho
      cases ho
    · rcases hat with hat | hat
      · rw [hrq] at hat
        cases hat
      · rw [hrecv] at hat
        cases hat

/-- The server's own threads, as long as none of them applies a write for
`k`. -/
theorem ahead_at_server (h : s.Inv Edge) (hki : k ≠ x.1) (hup : (s.node k).running = true)
    (hopen : s.pc (k, .peer x.1) ≠ .closed) (hstep : ThreadStep (s.node x.1) (s.pc x) io n pc)
    (hwire : Wire s x io rq rp) (hwriting : ∀ id w, s.pc x ≠ .writing id w (some k)) (id : Nat)
    (w : Write) : Ahead (s.after x n pc rq rp) x.1 k id w ↔ Ahead s x.1 k id w := by
  have hx : (k, Origin.peer x.1) ≠ x := fun he => hki (congrArg Prod.fst he)
  cases hwire with
  | tau =>
    refine ahead_of_not_forwards hki ?_ ?_ rfl id w
    · generalize s.pc x = pc₀ at hstep
      intro id w hf
      rcases hf with ⟨res, rfl⟩ | ⟨res, rfl⟩ <;> cases hstep
    · generalize hpc : s.pc x = pc₀ at hstep
      intro id w hf
      rcases hf with ⟨res, rfl⟩ | ⟨res, rfl⟩ <;> cases hstep
      exact hwriting id w hpc
  | accept hrq =>
    obtain ⟨hpc, rfl, -⟩ := hstep.accept_inv
    refine ahead_of_not_forwards hki ?_ ?_ (Function.update_of_ne hx ..) id w
    · rw [hpc]
      exact Pc.not_forwards nofun nofun
    · exact Pc.not_forwards nofun nofun
  | send =>
    obtain ⟨c, hpc, rfl, -⟩ := hstep.send_inv
    refine ahead_of_not_forwards hki ?_ ?_ rfl id w
    · rw [hpc]
      exact Pc.not_forwards nofun nofun
    · exact Pc.not_forwards nofun nofun
  | @forward k' c =>
    obtain ⟨id₀, w₀, res, hc, hpc, rfl, -⟩ := hstep.forward_inv
    by_cases hk : k' = k
    · subst hk
      have hempty : s.requests (k', .peer x.1) = [] := by
        have hstage := h.free_handle (by rw [hpc]; rfl) (by rw [hpc]; rfl) hup
        generalize s.requests (k', .peer x.1) = rq₀ at hstage ⊢
        generalize s.replies (k', .peer x.1) = rp₀ at hstage
        generalize s.pc (k', .peer x.1) = pc₀ at hstage hopen
        cases hstage with
        | quiet => rfl
        | closed => exact absurd rfl hopen
      refine ahead_forwarded h hpc ?_ id w
      rw [Function.update_self, hempty, hc]
      rfl
    · refine ahead_of_not_forwards hki ?_ (Pc.not_forwards_waiting hk)
        (Function.update_of_ne ?_ ..) id w
      · rw [hpc]
        exact Pc.not_forwards_applied hk
      · intro he
        cases he
        exact hk rfl
  | @collect k' r rest hrp =>
    obtain ⟨id₀, w₀, res, hpc, rfl, -⟩ := hstep.collect_inv
    by_cases hk : k' = k
    · subst hk
      refine ahead_collected h hup hpc hrp ?_ id w
      exact Pc.not_forwards nofun nofun
    · refine ahead_of_not_forwards hki ?_ ?_ rfl id w
      · rw [hpc]
        exact Pc.not_forwards_waiting hk
      · exact Pc.not_forwards nofun nofun
  | @lost k' hgone =>
    obtain ⟨id₀, w₀, res, hpc, rfl, -⟩ := hstep.lost_inv
    have hk : k' ≠ k := by
      intro heq
      subst heq
      rcases hgone with hdown | hclosed
      · rw [hup] at hdown
        cases hdown
      · exact hopen hclosed
    refine ahead_of_not_forwards hki ?_ ?_ rfl id w
    · rw [hpc]
      exact Pc.not_forwards_waiting hk
    · exact Pc.not_forwards nofun nofun

/-! ## Steps that apply a write -/

/-- The server applies a write for its successor: the two agreed before. -/
theorem Sync.apply_here {α : Type} {app : Nat × Write → α → α} {a b : α} (h : s.Inv Edge)
    {id : Nat} {w : Write} {res : Int} (hpc : s.pc x = .writing id w (some k))
    (hsync : Sync app a b s x.1 k) :
    Sync app (app (id, w) a) b (s.after x n (.applied id w res (some k)) rq rp) x.1 k := by
  have hnone : ∀ id' w', ¬ Ahead s x.1 k id' w' := by
    refine h.not_ahead (o := x.2) ?_ ?_
    · rw [show s.pc (x.1, x.2) = _ from hpc]
      rfl
    · rw [show s.pc (x.1, x.2) = _ from hpc]
      exact Pc.not_forwards nofun nofun
  rcases hsync with ⟨rfl, -⟩ | ⟨id', w', hahead, -⟩
  · exact Or.inr ⟨id, w, ⟨x.2, Or.inl ⟨res, Net.after_pc_self⟩⟩, rfl⟩
  · exact absurd hahead (hnone id' w')

/-- The successor applies the write: now the two agree. -/
theorem Sync.apply_there {α : Type} {app : Nat × Write → α → α} {a b : α} (h : s.Inv Edge)
    (hki : k ≠ i) (hup : (s.node k).running = true) {id : Nat} {w : Write} {res : Int}
    {next : Option ι} (hpc : s.pc (k, .peer i) = .writing id w next) (hsync : Sync app a b s i k) :
    Sync app a (app (id, w) b)
      (s.after (k, .peer i) n (.applied id w res next) s.requests s.replies) i k := by
  obtain ⟨out, hstage, hout⟩ := h.peer k i hup
  obtain ⟨rfl, hrq, -⟩ := hstage.of_call (show (s.pc (k, .peer i)).call = some ⟨id, .write w⟩ by
    rw [hpc]
    rfl)
  obtain ⟨o, ho⟩ := (hout ⟨id, .write w⟩).mp rfl
  have hside := (Pc.side_of_awaits ho).1
  have hwait : ∃ res, s.pc (i, o) = .waiting id w res k := by
    generalize s.pc (i, o) = pc₀ at ho
    cases pc₀ <;> cases ho
    exact ⟨_, rfl⟩
  have hahead : Ahead s i k id w := ⟨o, Or.inr ⟨hwait, Or.inr (by rw [hpc]; rfl)⟩⟩
  refine Or.inl ⟨?_, ?_⟩
  · rcases hsync with ⟨-, hnone⟩ | ⟨id', w', hahead', hab⟩
    · exact absurd hahead (hnone id w)
    · obtain ⟨rfl, rfl⟩ := h.ahead_unique hahead hahead'
      exact hab
  · intro id' w' hahead'
    have hpcs : ∀ o', (s.after (k, .peer i) n (.applied id w res next) s.requests s.replies).pc
        (i, o') = s.pc (i, o') := fun o' =>
      Net.after_pc_of_ne fun he => hki (congrArg Prod.fst he).symm
    obtain ⟨o', hf | ⟨-, hat⟩⟩ := hahead'
    · obtain ⟨res', hf⟩ := hf
      rw [hpcs] at hf
      have heq : o' = o := h.writer_unique (by rw [hf]; rfl) hside
      obtain ⟨res'', hw⟩ := hwait
      rw [heq, hw] at hf
      cases hf
    · rcases hat with hat | hat
      · rw [Net.after_requests, hrq] at hat
        cases hat
      · rw [Net.after_pc_self] at hat
        cases hat

/-- Every other step leaves the two as they are. -/
theorem Sync.frame {α : Type} {app : Nat × Write → α → α} {a b : α} (h : s.Inv Edge) (hki : k ≠ i)
    (hup : (s.node k).running = true) (hopen : s.pc (k, .peer i) ≠ .closed)
    (hstep : ThreadStep (s.node x.1) (s.pc x) io n pc) (hwire : Wire s x io rq rp)
    (hhere : x.1 = i → ∀ id w, s.pc x ≠ .writing id w (some k))
    (hthere : x = (k, .peer i) → ∀ id w next, s.pc x ≠ .writing id w next)
    (hsync : Sync app a b s i k) : Sync app a b (s.after x n pc rq rp) i k := by
  have hiff : ∀ id w, Ahead (s.after x n pc rq rp) i k id w ↔ Ahead s i k id w := by
    by_cases hi : x.1 = i
    · subst hi
      exact ahead_at_server h hki hup hopen hstep hwire (hhere rfl)
    · by_cases hk : x = (k, .peer i)
      · subst hk
        obtain ⟨out, hstage, -⟩ := h.peer k i hup
        exact ahead_at_successor hki hstage hstep hwire (hthere rfl)
      · exact ahead_elsewhere hwire hi hk
  unfold Sync
  simp only [hiff]
  exact hsync

/-! ## Tables -/

/-- A write on the map of a table. -/
def written (e : Nat × Write) (M : KvMap) : KvMap := e.2.onMap M

/-- A step leaves the server's table in step with a map `M` on the other side
that stays as it is, when the server forwards what it applies or applies what
changes nothing. -/
theorem Sync.thread {M : KvMap} (h : s.Inv Edge) (hki : k ≠ i) (hup : (s.node k).running = true)
    (hopen : s.pc (k, .peer i) ≠ .closed) (hstep : ThreadStep (s.node x.1) (s.pc x) io n pc)
    (hwire : Wire s x io rq rp)
    (hhere : x.1 = i → ∀ id w next, s.pc x = .writing id w next →
      next = some k ∨ w.onMap (s.node i).replica.map = (s.node i).replica.map)
    (hthere : x = (k, .peer i) → ∀ id w next, s.pc x ≠ .writing id w next)
    (hsync : Sync written (s.node i).replica.map M s i k) :
    Sync written ((s.after x n pc rq rp).node i).replica.map M (s.after x n pc rq rp) i k := by
  by_cases hi : x.1 = i
  · subst hi
    rw [Net.after_node_self]
    by_cases hwriting : ∃ id w next, s.pc x = .writing id w next
    · obtain ⟨id, w, next, hpc⟩ := hwriting
      have hnext := hhere rfl id w next hpc
      rw [hpc] at hstep
      obtain ⟨rfl, rfl, rfl⟩ := hstep.writing_inv
      cases hwire
      dsimp only
      rw [Replica.write_map]
      by_cases hk : next = some k
      · subst hk
        exact Sync.apply_here h hpc hsync
      · rw [hnext.resolve_left hk]
        refine Sync.frame h hki hup hopen (hpc ▸ .apply) .tau (fun _ id' w' he => ?_) hthere hsync
        rw [hpc] at he
        cases he
        exact hk rfl
    · have hnot : ∀ id w next, s.pc x ≠ .writing id w next := fun id w next he =>
        hwriting ⟨id, w, next, he⟩
      rw [(hstep.keeps_data hnot).1]
      exact Sync.frame h hki hup hopen hstep hwire (fun _ id w => hnot id w _) hthere hsync
  · rw [Net.after_node_of_ne (Ne.symm hi)]
    exact Sync.frame h hki hup hopen hstep hwire (fun he => absurd he hi) hthere hsync

/-- The two tables stay in step where the successor only applies what comes over
the handle. -/
theorem Sync.thread_both (h : s.Inv Edge) (hki : k ≠ i) (hup : (s.node k).running = true)
    (hopen : s.pc (k, .peer i) ≠ .closed) (hstep : ThreadStep (s.node x.1) (s.pc x) io n pc)
    (hwire : Wire s x io rq rp)
    (hhere : x.1 = i → ∀ id w next, s.pc x = .writing id w next →
      next = some k ∨ w.onMap (s.node i).replica.map = (s.node i).replica.map)
    (hthere : x.1 = k → ∀ id w next, s.pc x = .writing id w next → x = (k, .peer i))
    (hsync : Sync written (s.node i).replica.map (s.node k).replica.map s i k) :
    Sync written ((s.after x n pc rq rp).node i).replica.map
      ((s.after x n pc rq rp).node k).replica.map (s.after x n pc rq rp) i k := by
  by_cases hwriting : x.1 = k ∧ ∃ id w next, s.pc x = .writing id w next
  · obtain ⟨hk, id, w, next, hpc⟩ := hwriting
    obtain rfl := hthere hk id w next hpc
    rw [hpc] at hstep
    obtain ⟨rfl, rfl, rfl⟩ := hstep.writing_inv
    cases hwire
    rw [Net.after_node_self, Net.after_node_of_ne hki.symm]
    dsimp only
    rw [Replica.write_map]
    exact Sync.apply_there h hki hup hpc hsync
  · have hdata : ((s.after x n pc rq rp).node k).replica = (s.node k).replica := by
      by_cases hk : x.1 = k
      · exact (Net.after_data hstep (fun id w next he => hwriting ⟨hk, id, w, next, he⟩) _).1
      · rw [Net.after_node_of_ne (Ne.symm hk)]
    rw [hdata]
    exact Sync.thread h hki hup hopen hstep hwire hhere
      (fun he id w next hpc => hwriting ⟨congrArg Prod.fst he, id, w, next, hpc⟩) hsync

end Thread

end KvStorage
