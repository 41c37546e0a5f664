import KvStorage.Client.Remote
import KvStorage.Lib.Linearizable
import KvStorage.Wire.Duplex
import KvStorage.Wire.Protobuf
import Mathlib.Algebra.Order.BigOperators.Group.Finset

/-!
# Many connections to one server

Any number of connections, with a thread of one server at the end of each. They are all there from
the start: `accept` is no step here, and a connection that has been closed stays closed, its number
is not given to another one. The threads hand their requests to one object: `invoke` and what it
works on, here any sequential object that does with a request what the step of `S` says, `none`
standing for the result -1.

What the callers see is the history of this object. Each connection has one call open at most
(`Pending`), `invoke` takes it once, and what is returned is what `invoke` said to it, so the atomic
object simulates the service (`Tracks`).
-/

namespace KvStorage.Duplex

open CLib Framing Linearizability Transition

variable {ι σ M : Type}

/-- What the threads share, the connections, and the calls and returns so far. -/
structure Service (ι σ M : Type) where
  val : σ
  line : ι → Line M
  history : List (Event M (Option M))

/-- What a step on a connection does to the rest. A call has a new number. -/
inductive Effect (S : Spec σ M (Option M)) (v : σ) (h : List (Event M (Option M))) :
    Label M → σ → List (Event M (Option M)) → Prop
  | tau : Effect S v h .tau v h
  | fault : Effect S v h .fault v h
  | close : Effect S v h .close v h
  | forget : Effect S v h .forget v h
  | call {id : Nat} {m : M} : (∀ m', .call id m' ∉ h) →
      Effect S v h (.call id m) v (h ++ [.call id m])
  | refuse {id : Nat} {m : M} : (∀ m', .call id m' ∉ h) →
      Effect S v h (.refuse id m) v (h ++ [.call id m])
  | invoke {m : M} {res : Option M} {v' : σ} : S.step v m res v' →
      Effect S v h (.invoke m res) v' h
  | unsent {m r : M} {v' : σ} : S.step v m (some r) v' → Effect S v h (.unsent m r) v' h
  | ret {id : Nat} {r : M} : Effect S v h (.ret id r) v (h ++ [.ret id (some r)])

/-- A new connection. -/
def Line.new : Line M := ⟨.idle, .receiving (.length []), [], []⟩

variable [DecidableEq ι]

/-- One step on the connection `i`. -/
inductive Service.Step (codec : Codec M) (S : Spec σ M (Option M)) (capacity : Nat) (i : ι)
    (lab : Label M) : Service ι σ M → Service ι σ M → Prop
  | step {s : Service ι σ M} {l' : Line M} {v' : σ} {h' : List (Event M (Option M))} :
      Line.Step codec capacity lab (s.line i) l' → Effect S s.val s.history lab v' h' →
      Step codec S capacity i lab s ⟨v', Function.update s.line i l', h'⟩

/-- The service: all runs in which no reply is forgotten. -/
def service (ι : Type) [DecidableEq ι] (codec : Codec M) (S : Spec σ M (Option M))
    (capacity : Nat) : System (Service ι σ M) where
  init s := s = ⟨S.init, fun _ => .new, []⟩
  step s s' := ∃ i lab, lab ≠ .forget ∧ Service.Step codec S capacity i lab s s'

/-- The runs in which no transfer and no `malloc` fails, `invoke` does not return -1 and no
connection is closed. -/
def undisturbed (ι : Type) [DecidableEq ι] (codec : Codec M) (S : Spec σ M (Option M))
    (capacity : Nat) : System (Service ι σ M) where
  init s := s = ⟨S.init, fun _ => .new, []⟩
  step s s' := ∃ i lab, Label.Good lab ∧ Service.Step codec S capacity i lab s s'

/-- Such a run is a run of the service. -/
theorem reachable_of_undisturbed {codec : Codec M} {S : Spec σ M (Option M)} {capacity : Nat}
    {s : Service ι σ M} (hs : (undisturbed ι codec S capacity).Reachable s) :
    (service ι codec S capacity).Reachable s := by
  induction hs with
  | init h0 => exact .init h0
  | step _ hstep ih =>
    obtain ⟨i, lab, hgood, hstep⟩ := hstep
    refine ih.step ⟨i, lab, fun he => ?_, hstep⟩
    rw [he] at hgood
    exact hgood

/-! ## Every history is linearizable -/

/-- The open call of a connection, as the atomic object has it. -/
def Pending.status : Pending M → Option (Nat × Status M (Option M))
  | .none => Option.none
  | .called id m => some (id, .called m)
  | .done id m res => some (id, .done m res)

/-- The atomic object has the open calls of the connections, and no call is open on two of them. -/
structure Tracks (codec : Codec M) (s : Service ι σ M) (a : Atomic σ M (Option M))
    (pending : ι → Pending M) : Prop where
  val : a.val = s.val
  history : a.history = s.history
  phase : ∀ i, ∃ n, Phase codec (pending i) n (s.line i)
  status : ∀ i id st, (pending i).status = some (id, st) → a.status id = some st
  apart : ∀ i j id st st', (pending i).status = some (id, st) →
    (pending j).status = some (id, st') → i = j
  fresh : ∀ id st, a.status id = some st → .call id st.op ∈ s.history

section Tracks

variable {codec : Codec M} {S : Spec σ M (Option M)} {capacity : Nat} {s s' : Service ι σ M}
  {a : Atomic σ M (Option M)} {pending : ι → Pending M} {i : ι} {lab : Label M}

theorem phase_update {line : ι → Line M} (hphase : ∀ j, ∃ n, Phase codec (pending j) n (line j))
    {p : Pending M} {n : Nat} {l : Line M} (hl : Phase codec p n l) :
    ∀ j, ∃ n, Phase codec (Function.update pending i p j) n (Function.update line i l j) := by
  intro j
  by_cases hj : j = i
  · subst hj
    rw [Function.update_self, Function.update_self]
    exact ⟨n, hl⟩
  · rw [Function.update_of_ne hj, Function.update_of_ne hj]
    exact hphase j

/-- The call `id` moves on, and with it the connection `i`, which it is the open call of if of
any. -/
theorem Tracks.move (h : Tracks codec s a pending) (st : Status M (Option M)) (v' : σ)
    {p : Pending M} {id : Nat} {h' : List (Event M (Option M))} {l' : Line M} {n : Nat}
    (hl : Phase codec p n l') (hsub : s.history ⊆ h') (hcall : .call id st.op ∈ h')
    (hp : ∀ id' st', p.status = some (id', st') →
      id' = id ∧ st' = st ∨ id' ≠ id ∧ (pending i).status = some (id', st'))
    (hmine : ∀ j st', (pending j).status = some (id, st') → j = i) :
    Tracks codec ⟨v', Function.update s.line i l', h'⟩
      ⟨v', Function.update a.status id (some st), h'⟩ (Function.update pending i p) where
  val := rfl
  history := rfl
  phase := phase_update h.phase hl
  status := by
    intro j id' st' hj
    show Function.update a.status id (some st) id' = some st'
    by_cases hji : j = i
    · subst hji
      rw [Function.update_self] at hj
      rcases hp id' st' hj with ⟨rfl, rfl⟩ | ⟨hid, hold⟩
      · exact Function.update_self ..
      · rw [Function.update_of_ne hid]
        exact h.status j id' st' hold
    · rw [Function.update_of_ne hji] at hj
      have hid : id' ≠ id := fun he => hji (hmine j st' (he ▸ hj))
      rw [Function.update_of_ne hid]
      exact h.status j id' st' hj
  apart := by
    have hother : ∀ j id' st₁ st₂, j ≠ i → p.status = some (id', st₁) →
        (pending j).status = some (id', st₂) → False := by
      intro j id' st₁ st₂ hji hpi hj
      rcases hp id' st₁ hpi with ⟨rfl, -⟩ | ⟨-, hold⟩
      · exact hji (hmine j st₂ hj)
      · exact hji (h.apart j i id' st₂ st₁ hj hold)
    intro j k id' st₁ st₂ hj hk
    by_cases hji : j = i
    · by_cases hki : k = i
      · rw [hji, hki]
      · rw [hji, Function.update_self] at hj
        rw [Function.update_of_ne hki] at hk
        exact (hother k id' st₁ st₂ hki hj hk).elim
    · rw [Function.update_of_ne hji] at hj
      by_cases hki : k = i
      · rw [hki, Function.update_self] at hk
        exact (hother j id' st₂ st₁ hji hk hj).elim
      · rw [Function.update_of_ne hki] at hk
        exact h.apart j k id' st₁ st₂ hj hk
  fresh := by
    intro id' st' hid
    replace hid : Function.update a.status id (some st) id' = some st' := hid
    by_cases he : id' = id
    · rw [he, Function.update_self, Option.some.injEq] at hid
      rw [he, ← hid]
      exact hcall
    · rw [Function.update_of_ne he] at hid
      exact hsub (h.fresh id' st' hid)

/-- A step that says nothing to the callers or the object is no step of the atomic object. -/
theorem Tracks.keep (h : Tracks codec s a pending) {n : Nat} {l' : Line M}
    (hl : Phase codec (pending i) n l') :
    Tracks codec ⟨s.val, Function.update s.line i l', s.history⟩ a pending where
  val := h.val
  history := h.history
  phase := by
    have hphase := phase_update (i := i) h.phase hl
    rwa [Function.update_eq_self] at hphase
  status := h.status
  apart := h.apart
  fresh := h.fresh

omit [DecidableEq ι] in
/-- A new number belongs to no call of the atomic object. -/
theorem Tracks.unused (h : Tracks codec s a pending) {id : Nat}
    (hnew : ∀ m', .call id m' ∉ s.history) : a.status id = none := by
  rw [Option.eq_none_iff_forall_ne_some]
  exact fun st hst => hnew st.op (h.fresh id st hst)

/-- A call with a new number. -/
theorem Tracks.call (h : Tracks codec s a pending) {p : Pending M} {id n : Nat} {m : M}
    {l' : Line M} (hnew : ∀ m', .call id m' ∉ s.history) (hl : Phase codec p n l')
    (hp : ∀ id' st', p.status = some (id', st') →
      id' = id ∧ st' = .called m ∨ (pending i).status = some (id', st')) :
    ∃ a', Relation.ReflTransGen (atomic S).step a a' ∧ ∃ pending',
      Tracks codec ⟨s.val, Function.update s.line i l', s.history ++ [.call id m]⟩ a' pending' := by
  obtain ⟨val, status, history⟩ := a
  obtain rfl : val = s.val := h.val
  obtain rfl : history = s.history := h.history
  have hnone := h.unused hnew
  have hother : ∀ j st', (pending j).status ≠ some (id, st') := by
    intro j st' hj
    cases hnone.symm.trans (h.status j id st' hj)
  have hmoved := h.move (.called m) s.val hl (List.subset_append_left _ _)
    (List.mem_append_right _ (List.mem_singleton_self _))
    (fun id' st' hst => (hp id' st' hst).imp_right fun hold =>
      ⟨fun he => hother i st' (by rw [hold, he]), hold⟩) fun j st' hj => absurd hj (hother j st')
  exact ⟨_, .single (.call hnone), _, hmoved⟩

/-- `invoke` takes an open call. -/
theorem Tracks.act (h : Tracks codec s a pending) {id n : Nat} {m : M} {res : Option M} {v' : σ}
    {l' : Line M} (hopen : pending i = .called id m) (hv : S.step s.val m res v')
    (hl : Phase codec (.done id m res) n l') :
    ∃ a', Relation.ReflTransGen (atomic S).step a a' ∧ ∃ pending',
      Tracks codec ⟨v', Function.update s.line i l', s.history⟩ a' pending' := by
  obtain ⟨val, status, history⟩ := a
  obtain rfl : val = s.val := h.val
  obtain rfl : history = s.history := h.history
  have hmine : (pending i).status = some (id, .called m) := by
    rw [hopen]
    rfl
  have hst := h.status i id _ hmine
  have hcall : .call id m ∈ s.history := h.fresh id _ hst
  have hmoved := h.move (.done m res) v' hl (List.Subset.refl _) hcall
    (fun id' st' hst' => by cases hst'; exact Or.inl ⟨rfl, rfl⟩)
    fun j st' hj => h.apart j i id _ _ hj hmine
  exact ⟨_, .single (.act hst hv), _, hmoved⟩

/-- What `invoke` said is returned. -/
theorem Tracks.ret (h : Tracks codec s a pending) {id n : Nat} {m r : M} {l' : Line M}
    (hopen : pending i = .done id m (some r)) (hl : Phase codec .none n l') :
    ∃ a', Relation.ReflTransGen (atomic S).step a a' ∧ ∃ pending', Tracks codec
      ⟨s.val, Function.update s.line i l', s.history ++ [.ret id (some r)]⟩ a' pending' := by
  obtain ⟨val, status, history⟩ := a
  obtain rfl : val = s.val := h.val
  obtain rfl : history = s.history := h.history
  have hmine : (pending i).status = some (id, .done m (some r)) := by
    rw [hopen]
    rfl
  have hst := h.status i id _ hmine
  have hcall : .call id m ∈ s.history := h.fresh id _ hst
  have hmoved := h.move (.returned m (some r)) s.val hl
    (List.subset_append_left _ [.ret id (some r)]) (List.mem_append_left _ hcall)
    (fun id' st' hst' => by cases hst') fun j st' hj => h.apart j i id _ _ hj hmine
  exact ⟨_, .single (.ret hst), _, hmoved⟩

/-- The atomic object makes each step of the service, or none. -/
theorem Tracks.step (h : Tracks codec s a pending) (hforget : lab ≠ .forget)
    (hstep : Service.Step codec S capacity i lab s s') :
    ∃ a', Relation.ReflTransGen (atomic S).step a a' ∧ ∃ pending', Tracks codec s' a' pending' := by
  obtain ⟨hline, heffect⟩ := hstep
  obtain ⟨n₀, hphase⟩ := h.phase i
  obtain ⟨p, n, hmoves, hl⟩ := hphase.moves hline hforget
  obtain ⟨val, status, history⟩ := a
  obtain rfl : val = s.val := h.val
  obtain rfl : history = s.history := h.history
  cases heffect with
  | forget => exact absurd rfl hforget
  | tau | fault | close =>
    -- nothing that the callers or the object see
    generalize hp : pending i = q at hmoves
    cases hmoves
    exact ⟨_, .refl, pending, h.keep (hp ▸ hl)⟩
  | @call id m hnew =>
    generalize hq : pending i = q at hmoves
    cases hmoves with
    | call => exact h.call hnew hl fun id' st' hst => by cases hst; exact Or.inl ⟨rfl, rfl⟩
  | @refuse id m hnew =>
    generalize hq : pending i = q at hmoves
    cases hmoves with
    | refuse =>
      -- called, and never open: the old call of the connection, if any, is where it was
      refine h.call hnew hl fun id' st' hst => Or.inr ?_
      rwa [hq]
  | @invoke m res v' hv =>
    generalize hq : pending i = q at hmoves
    cases hmoves with
    | invoke => exact h.act hq hv hl
  | @unsent m r v' hv =>
    generalize hq : pending i = q at hmoves
    cases hmoves with
    | unsent => exact h.act hq hv hl
  | @ret id r =>
    generalize hq : pending i = q at hmoves
    cases hmoves with
    | ret => exact h.ret hq hl

omit [DecidableEq ι] in
/-- An open call has been made. -/
theorem Tracks.call_mem (h : Tracks codec s a pending) {id : Nat} {m : M}
    (hp : pending i = .called id m) : .call id m ∈ s.history :=
  h.fresh id (.called m) (h.status i id _ (by rw [hp]; rfl))

end Tracks

/-! ## A call that is served at once -/

section Served

variable {codec : Codec M} {S : Spec σ M (Option M)} {capacity : Nat} {s : Service ι σ M}
  {line : ι → Line M} {i : ι} {l l' : Line M} {v v' : σ} {h h' : List (Event M (Option M))}
  {lab : Label M}

/-- One more step on the same connection. -/
theorem step_update (hline : Line.Step codec capacity lab l l') (heffect : Effect S v h lab v' h') :
    Service.Step codec S capacity i lab ⟨v, Function.update line i l, h⟩
      ⟨v', Function.update line i l', h'⟩ := by
  have hline' : Line.Step codec capacity lab (Function.update line i l i) l' := by
    rwa [Function.update_self]
  have hstep : Service.Step codec S capacity i lab ⟨v, Function.update line i l, h⟩ _ :=
    .step hline' heffect
  rwa [Function.update_idem] at hstep

/-- A step on the connection `i` that is no call and disturbs nothing. -/
def Quietly (codec : Codec M) (S : Spec σ M (Option M)) (capacity : Nat) (i : ι)
    (s s' : Service ι σ M) : Prop :=
  ∃ lab, ¬ Label.IsCall lab ∧ Label.Good lab ∧ Service.Step codec S capacity i lab s s'

theorem quietly_step (hline : Line.Step codec capacity lab l l') (heffect : Effect S v h lab v' h')
    (hcall : ¬ lab.IsCall) (hgood : lab.Good) : Quietly codec S capacity i
      ⟨v, Function.update line i l, h⟩ ⟨v', Function.update line i l', h'⟩ :=
  ⟨lab, hcall, hgood, step_update hline heffect⟩

theorem quietly_steps (hsteps : Relation.ReflTransGen (Line.Step codec capacity .tau) l l') :
    Relation.ReflTransGen (Quietly codec S capacity i)
      ⟨v, Function.update line i l, h⟩ ⟨v, Function.update line i l', h⟩ :=
  Relation.ReflTransGen.lift (fun l => (⟨v, Function.update line i l, h⟩ : Service ι σ M))
    (fun _ _ hstep => quietly_step hstep .tau not_false trivial) _ _ hsteps

/-- Where there is room for a whole frame, a call can be served with nothing else in between. -/
theorem served (hi : s.line i = .new) (hcap : 65537 ≤ capacity) {id : Nat}
    (hnew : ∀ m', .call id m' ∉ s.history) {m r : M} (hm : FitsFrame codec m)
    (hr : FitsFrame codec r) (hv : S.step s.val m (some r) v') :
    ∃ s₁, Service.Step codec S capacity i (.call id m) s s₁ ∧
      s₁.history = s.history ++ [.call id m] ∧
      Relation.ReflTransGen (Quietly codec S capacity i) s₁
        ⟨v', s.line, s.history ++ [.call id m] ++ [.ret id (some r)]⟩ := by
  have hself : Function.update s.line i .new = s.line := by
    rw [← hi, Function.update_eq_self]
  have hcall : Line.Step codec capacity (.call id m) (s.line i)
      ⟨.sending id (.ofMessage codec.format m), .receiving (.length []), [], []⟩ := by
    rw [hi]
    exact .call hm
  refine ⟨_, .step hcall (.call hnew), rfl, ?_⟩
  -- one function after the other, each to its end
  refine (quietly_steps (writes_all (Outgoing.bytes_ofMessage_ne_nil _ m)
    (room_of_fits hm hcap))).trans ?_
  refine (quietly_steps (receives_all hm (Awaits.start _ m))).trans ?_
  refine .head (quietly_step (.invoke fun r' he => Option.some.inj he ▸ hr) (.invoke hv)
    not_false trivial) ?_
  refine (quietly_steps (sends_all (Outgoing.bytes_ofMessage_ne_nil _ r)
    (room_of_fits hr hcap))).trans ?_
  obtain ⟨l, hread, hreply⟩ : ∃ l, Relation.ReflTransGen (Line.Step codec capacity .tau)
      ⟨.receiving id (.length []), .receiving (.length []), [],
        (Outgoing.ofMessage codec.format r).bytes⟩ l ∧
      Line.Step codec capacity (.ret id r) l ⟨.idle, .receiving (.length []), [], []⟩ :=
    reads_all hr (Awaits.start codec.format r)
  have hready : Function.update s.line i ⟨.idle, .receiving (.length []), [], []⟩ = s.line := hself
  refine (quietly_steps hread).trans ?_
  rw [← hready]
  refine .single ?_
  rw [Function.update_idem]
  exact quietly_step hreply .ret not_false trivial

theorem reachable_served (hs : (undisturbed ι codec S capacity).Reachable s)
    (hi : s.line i = .new) (hcap : 65537 ≤ capacity) {id : Nat}
    (hnew : ∀ m', .call id m' ∉ s.history) {m r : M} (hm : FitsFrame codec m)
    (hr : FitsFrame codec r) (hv : S.step s.val m (some r) v') :
    (undisturbed ι codec S capacity).Reachable
      ⟨v', s.line, s.history ++ [.call id m] ++ [.ret id (some r)]⟩ := by
  obtain ⟨s₁, hcall, -, hsteps⟩ := served hi hcap hnew hm hr hv
  refine (hs.step ⟨i, .call id m, trivial, hcall⟩).trans (Relation.ReflTransGen.mono ?_ _ _ hsteps)
  rintro s s' ⟨lab, -, hgood, hstep⟩
  exact ⟨i, lab, hgood, hstep⟩

end Served

theorem service_simulates (codec : Codec M) (S : Spec σ M (Option M)) (capacity : Nat) :
    (service ι codec S capacity).Simulates (atomic S)
      fun s a => ∃ pending, Tracks codec s a pending where
  init := by
    intro s hs
    subst hs
    exact ⟨_, rfl, fun _ => .none, rfl, rfl, fun _ => ⟨2, .ready⟩, nofun, nofun, nofun⟩
  step := by
    rintro s s' a ⟨pending, h⟩ ⟨i, lab, hforget, hstep⟩
    exact h.step hforget hstep

/-- **The connections are transparent.** In every run the calls and returns are those of one object
that handles whole requests one after the other, each at most once and between its call and its
return, and the object is where these requests lead to. -/
theorem calls_linearizable {codec : Codec M} {S : Spec σ M (Option M)} {capacity : Nat}
    {s : Service ι σ M} (hs : (service ι codec S capacity).Reachable s) :
    ∃ order, Linearization S s.history order ∧ S.Run S.init order s.val := by
  obtain ⟨a, ha, pending, h⟩ := (service_simulates codec S capacity).reachable hs
  obtain ⟨order, hexp⟩ := atomic_explains ha
  have hlin := hexp.linearization
  have hrun := hexp.run
  rw [h.history] at hlin
  rw [h.val] at hrun
  exact ⟨order, hlin, hrun⟩

/-- `invoke` as this object, with any clock and any pattern of failing allocations. -/
def invokeSpec {W : Type} (next : Option (Remote W)) (x : Server × W) :
    Spec (Server × W) WireMsg (Option WireMsg) where
  init := x
  step x m res x' := ∃ clock al al' rc reply,
    invoke next clock m.toMessageT x al = .ok (((rc, reply), x'), al') ∧
      if rc = -1 then res = none else ∃ r, reply.content al' = .ok (r, al') ∧ res = some r

/-- `invoke` between `message_t__unpack` and `message_t__pack`. -/
def handle {W : Type} (next : Option (Remote W)) (clock : Timeval × Timeval) (m : WireMsg) :
    StateT (Server × W) CM (Int × WireMsg) := do
  let (rc, reply) ← invoke next clock m.toMessageT
  if rc = -1 then pure (rc, m)
  else
    let r ← reply.content
    pure (rc, r)

theorem handle_run {W : Type} {next : Option (Remote W)} {clock : Timeval × Timeval}
    {m r : WireMsg} {x x' : Server × W} {reply : MessageT} {al al' : Allocs}
    (hinvoke : invoke next clock m.toMessageT x al = .ok (((0, reply), x'), al'))
    (hr : reply.content al' = .ok (r, al')) :
    handle next clock m x al = .ok (((0, r), x'), al') := by
  unfold handle
  rw [state_bind_ok hinvoke]
  dsimp only
  rw [if_neg (show ¬ (0 : Int) = -1 by decide), state_bind_ok (state_lift_ok hr)]
  rfl

/-- A client asks an empty server for its size. -/
theorem calls_linearizable_size : ∃ s : Service Unit (Server × Unit) WireMsg,
    s.history = [.call 0 (bareWire OP_SIZE), .ret 0 (some (sizeReply 0))] ∧
    ∃ order, Linearization (invokeSpec none (emptyServer, ())) s.history order ∧
      (invokeSpec none (emptyServer, ())).Run (emptyServer, ()) order s.val := by
  have hstep : (invokeSpec none (emptyServer, ())).step (emptyServer, ()) (bareWire OP_SIZE)
      (some (sizeReply 0)) (emptyServer.counted noTime, ()) :=
    ⟨noTime, allocated, allocated, 0, _, invokeSize_run noTime () (by decide) allocated,
      sizeReply 0, rfl, rfl⟩
  have hserved : (undisturbed Unit protoCodec.toCodec
      (invokeSpec none (emptyServer, ())) 65537).Reachable
      ⟨(emptyServer.counted noTime, ()), fun _ => .new,
        [.call 0 (bareWire OP_SIZE), .ret 0 (some (sizeReply 0))]⟩ :=
    reachable_served (s := ⟨_, fun _ => .new, []⟩) (i := ()) (.init rfl) rfl le_rfl nofun
      (fitsFrame_of protoCodec rfl (show OP_SIZE ≠ 0 by decide) (by decide))
      (fitsFrame_of protoCodec rfl (show OP_SIZE + 1 ≠ 0 by decide) (sizeReply_fits 0)) hstep
  exact ⟨_, rfl, calls_linearizable (reachable_of_undisturbed hserved)⟩

/-! ## Every call comes to an end -/

/-- A step that no one outside has to bring about: no new call and no fault. -/
def Label.Due : Label M → Prop
  | .tau | .invoke _ _ | .ret _ _ => True
  | _ => False

/-- Every connection is in a phase, with `left i` steps until its next call at most. -/
def InPhase (codec : Codec M) (s : Service ι σ M) (left : ι → Nat) : Prop :=
  ∀ i, ∃ p, Phase codec p (left i) (s.line i)

section Ends

variable {codec : Codec M} {S : Spec σ M (Option M)} {capacity : Nat} {s s' : Service ι σ M}
  {left : ι → Nat} {i : ι} {lab : Label M}

theorem exists_inPhase (hs : (service ι codec S capacity).Reachable s) :
    ∃ left, InPhase codec s left := by
  obtain ⟨a, -, pending, h⟩ := (service_simulates codec S capacity).reachable hs
  choose left hleft using h.phase
  exact ⟨left, fun i => ⟨pending i, hleft i⟩⟩

/-- A step that is not a call uses up one of the steps left. -/
theorem InPhase.step [Fintype ι] (h : InPhase codec s left) (hcall : ¬ lab.IsCall)
    (hforget : lab ≠ .forget) (hstep : Service.Step codec S capacity i lab s s') :
    ∃ left', InPhase codec s' left' ∧ ∑ j, left' j < ∑ j, left j := by
  obtain ⟨hline, -⟩ := hstep
  obtain ⟨p, hp⟩ := h i
  obtain ⟨p', n', hlt, -, hp'⟩ := hp.goes hline hcall hforget
  refine ⟨Function.update left i n', fun j => ?_, ?_⟩
  · by_cases hj : j = i
    · subst hj
      show ∃ p, Phase codec p (Function.update left j n' j) (Function.update s.line j _ j)
      rw [Function.update_self, Function.update_self]
      exact ⟨p', hp'⟩
    · show ∃ p, Phase codec p (Function.update left i n' j) (Function.update s.line i _ j)
      rw [Function.update_of_ne hj, Function.update_of_ne hj]
      exact h j
  · -- the others have as many steps left as before
    refine Finset.sum_lt_sum (fun j _ => ?_) ⟨i, Finset.mem_univ i, ?_⟩
    · by_cases hj : j = i
      · subst hj
        rw [Function.update_self]
        exact hlt.le
      · rw [Function.update_of_ne hj]
    · rwa [Function.update_self]

theorem InPhase.run [Fintype ι] (h : InPhase codec s left) {f : Nat → Service ι σ M}
    (hf : f 0 = s) (n : Nat) (hsteps : ∀ k < n, ∃ i lab, ¬ Label.IsCall lab ∧ lab ≠ .forget ∧
      Service.Step codec S capacity i lab (f k) (f (k + 1))) :
    ∃ left', InPhase codec (f n) left' ∧ n + ∑ j, left' j ≤ ∑ j, left j := by
  induction n with
  | zero =>
    refine ⟨left, hf ▸ h, ?_⟩
    omega
  | succ n ih =>
    obtain ⟨left₁, h₁, hle⟩ := ih fun k hk => hsteps k (by omega)
    obtain ⟨i, lab, hcall, hforget, hstep⟩ := hsteps n (Nat.lt_succ_self n)
    obtain ⟨left₂, h₂, hlt⟩ := h₁.step hcall hforget hstep
    refine ⟨left₂, h₂, ?_⟩
    omega

/-- Steps of the connections lead to states of the service. -/
theorem reachable_run {f : Nat → Service ι σ M} (hs : (service ι codec S capacity).Reachable (f 0))
    (n : Nat) (hsteps : ∀ k < n, ∃ i lab, ¬ Label.IsCall lab ∧ lab ≠ .forget ∧
      Service.Step codec S capacity i lab (f k) (f (k + 1))) :
    (service ι codec S capacity).Reachable (f n) := by
  induction n with
  | zero => exact hs
  | succ n ih =>
    obtain ⟨i, lab, -, hforget, hstep⟩ := hsteps n (Nat.lt_succ_self n)
    exact (ih fun k hk => hsteps k (by omega)).step ⟨i, lab, hforget, hstep⟩

/-- Where the requests made have answers and no step is due, nobody is in a call. -/
theorem rest_of_reachable (hs : (service ι codec S capacity).Reachable s) (hcap : 0 < capacity)
    (hS : ∀ id m, .call id m ∈ s.history →
      ∃ res v', S.step s.val m res v' ∧ ∀ r, res = some r → FitsFrame codec r)
    (hrest : ∀ i lab s', Label.Due lab → ¬ Service.Step codec S capacity i lab s s') (i : ι) :
    ¬ (s.line i).caller.InCall := by
  intro hcall
  obtain ⟨a, -, pending, h⟩ := (service_simulates codec S capacity).reachable hs
  obtain ⟨n, hp⟩ := h.phase i
  -- the thread is before `invoke`, or one of the two ends can transfer something
  rcases hp.progress hcap hcall with ⟨id, m, hopen, hm⟩ | ⟨lab, l', hstep, rfl | ⟨id, r, rfl⟩⟩
  · obtain ⟨res, v', hv, hfit⟩ := hS id m (h.call_mem hopen)
    have hline : s.line i = ⟨(s.line i).caller, .invoking m, (s.line i).up, (s.line i).down⟩ := by
      rw [← hm]
    have hstep : Line.Step codec capacity (.invoke m res) (s.line i)
        ⟨(s.line i).caller, .invoked codec res, (s.line i).up, (s.line i).down⟩ := by
      rw [hline]
      exact .invoke hfit
    exact hrest i (.invoke m res) _ trivial (.step hstep (.invoke hv))
  · exact hrest i .tau _ trivial (.step hstep .tau)
  · exact hrest i (.ret id r) _ trivial (.step hstep .ret)

end Ends

/-- **Calls come to an end.** Whatever has happened and whatever fails from now on, there are at
most 262153 steps for each connection until the next call; and where no step is due, and there
would be a result for each request made, nobody waits in a call. -/
theorem calls_end [Fintype ι] {codec : Codec M} {S : Spec σ M (Option M)} {capacity : Nat}
    (hcap : 0 < capacity) {s : Service ι σ M} (hs : (service ι codec S capacity).Reachable s)
    {f : Nat → Service ι σ M} (hf : f 0 = s) {n : Nat}
    (hsteps : ∀ k < n, ∃ i lab, ¬ Label.IsCall lab ∧ lab ≠ .forget ∧
      Service.Step codec S capacity i lab (f k) (f (k + 1))) :
    n ≤ 262153 * Fintype.card ι ∧
      ((∀ id m, .call id m ∈ (f n).history →
          ∃ res v', S.step (f n).val m res v' ∧ ∀ r, res = some r → FitsFrame codec r) →
        (∀ i lab s', Label.Due lab → ¬ Service.Step codec S capacity i lab (f n) s') →
        ∀ i, ¬ ((f n).line i).caller.InCall) := by
  obtain ⟨left, hleft⟩ := exists_inPhase hs
  obtain ⟨left', hleft', hle⟩ := hleft.run hf n hsteps
  refine ⟨?_, rest_of_reachable (reachable_run (hf ▸ hs) n hsteps) hcap⟩
  have hmost : ∑ j, left j ≤ ∑ _j : ι, 262153 := by
    refine Finset.sum_le_sum fun j _ => ?_
    obtain ⟨p, hp⟩ := hleft j
    exact hp.le
  rw [Finset.sum_const_nat fun _ _ => rfl, Finset.card_univ] at hmost
  omega

/-! ### A PUT and a GET -/

/-- `invoke` on a server that starts empty and has no successor. -/
def fromEmpty : Spec (Server × Unit) WireMsg (Option WireMsg) := invokeSpec none (emptyServer, ())

theorem handle_put {x : Server} (h : x.table.WF) : ∃ x', x'.table.WF ∧
    x'.table.map = x.table.map.insert keyA [1] ∧
    fromEmpty.step (x, ()) (putWire keyA [1]) (some (putReply keyA [1])) (x', ()) ∧
    handle none noTime (putWire keyA [1]) (x, ()) allocated
      = .ok (((0, putReply keyA [1]), (x', ())), allocated) := by
  obtain ⟨x', hrun, hwf, hmap⟩ :=
    invoke_put_allocated noTime h hashable_keyA (v := [1]) (by decide) (by decide)
  exact ⟨x', hwf, hmap, ⟨noTime, allocated, allocated, 0, _, hrun, putReply keyA [1], rfl, rfl⟩,
    handle_run hrun rfl⟩

theorem handle_get {x : Server} (h : x.table.WF) (hx : x.table.map.lookup keyA = some [1]) :
    fromEmpty.step (x, ()) (keyWire OP_GET keyA) (some (getReplyWire keyA (some [1])))
      (x.counted noTime, ()) ∧
    handle none noTime (keyWire OP_GET keyA) (x, ()) allocated
      = .ok (((0, getReplyWire keyA (some [1])), (x.counted noTime, ())), allocated) := by
  have hix : x.table.Indexes (keyMessage OP_GET keyA).key := h.indexes hashable_keyA
  have hrun := invokeGet_found h noTime () hix hx
  rw [← invoke_get none noTime rfl] at hrun
  exact ⟨⟨noTime, allocated, allocated, 0, _, hrun, getReplyWire keyA (some [1]), rfl, rfl⟩,
    handle_run hrun rfl⟩

theorem putA_request : FitsFrame protoCodec.toCodec (putWire keyA [1]) :=
  fitsFrame_of protoCodec rfl (show OP_PUT ≠ 0 by decide) (by decide)

theorem putA_reply : FitsFrame protoCodec.toCodec (putReply keyA [1]) :=
  fitsFrame_of protoCodec rfl (show OP_PUT + 1 ≠ 0 by decide) (by decide)

theorem getA_request : FitsFrame protoCodec.toCodec (keyWire OP_GET keyA) :=
  fitsFrame_of protoCodec rfl (show OP_GET ≠ 0 by decide) (by decide)

theorem getA_reply : FitsFrame protoCodec.toCodec (getReplyWire keyA (some [1])) :=
  fitsFrame_of protoCodec rfl (show OP_GET + 1 ≠ 0 by decide) (by decide)

/-- The first client stores `a`, the second one asks for it. -/
def putGet : List (Event WireMsg (Option WireMsg)) :=
  [.call 0 (putWire keyA [1]), .ret 0 (some (putReply keyA [1])), .call 1 (keyWire OP_GET keyA),
    .ret 1 (some (getReplyWire keyA (some [1])))]

/-- Both requests have an answer where `a` is stored. -/
theorem putGet_answers {x : Server} (h : x.table.WF) (hx : x.table.map.lookup keyA = some [1])
    (id : Nat) (m : WireMsg) (hcall : .call id m ∈ putGet) :
    ∃ r v', fromEmpty.step (x, ()) m (some r) v' ∧ FitsFrame protoCodec.toCodec r := by
  simp only [putGet, List.mem_cons, Event.call.injEq, reduceCtorEq, List.not_mem_nil, or_false,
    false_or] at hcall
  rcases hcall with ⟨-, rfl⟩ | ⟨-, rfl⟩
  · obtain ⟨x', -, -, hstep, -⟩ := handle_put h
    exact ⟨_, _, hstep, putA_reply⟩
  · exact ⟨_, _, (handle_get h hx).1, getA_reply⟩

/-- Where no call is under way on any connection, no step is due. -/
theorem not_due_new {codec : Codec M} {capacity : Nat} {lab : Label M} {l' : Line M}
    (hdue : lab.Due) : ¬ Line.Step codec capacity lab .new l' := by
  unfold Line.new
  intro hstep
  cases hstep with
  | receive heq ht => exact Incoming.not_takes_start _ heq ht
  | received heq ht => exact Incoming.not_takes_start _ heq ht
  | _ => exact hdue.elim

/-- The PUT has returned; the GET is called, and answered without a disturbance. -/
theorem putGet_served : ∃ (x : Server) (s : Service (Fin 2) (Server × Unit) WireMsg),
    x.table.WF ∧ x.table.map.lookup keyA = some [1] ∧
    (undisturbed (Fin 2) protoCodec.toCodec fromEmpty 65537).Reachable s ∧
    s.history = putGet.take 3 ∧
    Relation.ReflTransGen (Quietly protoCodec.toCodec fromEmpty 65537 1) s
      ⟨(x, ()), fun _ => .new, putGet⟩ := by
  obtain ⟨x, hwf, hmap, hput, -⟩ := handle_put emptyServer_wf
  have hstored : x.table.map.lookup keyA = some [1] := by
    rw [hmap, Finmap.lookup_insert]
  have h1 : (undisturbed (Fin 2) protoCodec.toCodec fromEmpty 65537).Reachable
      ⟨(x, ()), fun _ => .new, putGet.take 2⟩ :=
    reachable_served (s := ⟨_, fun _ => .new, []⟩) (i := 0) (.init rfl) rfl le_rfl nofun
      putA_request putA_reply hput
  have hnew : ∀ m', .call 1 m' ∉ putGet.take 2 := by
    intro m' hm'
    simp [putGet] at hm'
  obtain ⟨s, hcall, hhistory, hsteps⟩ : ∃ s : Service (Fin 2) (Server × Unit) WireMsg,
      Service.Step protoCodec.toCodec fromEmpty 65537 1 (.call 1 (keyWire OP_GET keyA))
        ⟨(x, ()), fun _ => .new, putGet.take 2⟩ s ∧
      s.history = putGet.take 2 ++ [.call 1 (keyWire OP_GET keyA)] ∧
      Relation.ReflTransGen (Quietly protoCodec.toCodec fromEmpty 65537 1) s _ :=
    served rfl le_rfl hnew getA_request getA_reply (handle_get hwf hstored).1
  exact ⟨x.counted noTime, s, hwf, hstored,
    h1.step ⟨1, .call 1 (keyWire OP_GET keyA), trivial, hcall⟩, hhistory, hsteps⟩

/-- From the call of the GET on, to where no step is due. -/
theorem calls_end_putGet : ∃ (f : Nat → Service (Fin 2) (Server × Unit) WireMsg) (n : Nat),
    (service (Fin 2) protoCodec.toCodec fromEmpty 65537).Reachable (f 0) ∧
    (f 0).history = putGet.take 3 ∧ (f n).history = putGet ∧ n ≤ 262153 * Fintype.card (Fin 2) ∧
    ∀ i, ¬ ((f n).line i).caller.InCall := by
  obtain ⟨x, s, hwf, hstored, hs, hhistory, hsteps⟩ := putGet_served
  obtain ⟨f, n, rfl, hlast, hquiet⟩ := System.exists_sequence hsteps
  have hrun : ∀ k < n, ∃ i lab, ¬ Label.IsCall lab ∧ lab ≠ .forget ∧
      Service.Step protoCodec.toCodec fromEmpty 65537 i lab (f k) (f (k + 1)) := by
    intro k hk
    obtain ⟨lab, hcall, hgood, hstep⟩ := hquiet k hk
    refine ⟨1, lab, hcall, fun he => ?_, hstep⟩
    rw [he] at hgood
    exact hgood
  obtain ⟨hle, hrest⟩ := calls_end (by decide) (reachable_of_undisturbed hs) rfl hrun
  rw [hlast] at hrest
  refine ⟨f, n, reachable_of_undisturbed hs, hhistory, by rw [hlast], hle, ?_⟩
  rw [hlast]
  refine hrest (fun id m hcall => ?_) fun i lab s' hdue hstep => ?_
  · obtain ⟨r, v', hv, hr⟩ := putGet_answers hwf hstored id m hcall
    exact ⟨some r, v', hv, fun r' he => Option.some.inj he ▸ hr⟩
  · obtain ⟨hline, -⟩ := hstep
    exact not_due_new hdue hline

/-! ## Calls that nothing disturbs are answered -/

/-- Nobody has given up, and every call is open or has returned. -/
structure Answering (codec : Codec M) (s : Service ι σ M) (pending : ι → Pending M) : Prop where
  phase : ∀ i, ∃ n, Phase codec (pending i) n (s.line i)
  healthy : ∀ i, (s.line i).Healthy
  open_or_returned : ∀ id m, .call id m ∈ s.history →
    (∃ i st, (pending i).status = some (id, st)) ∨ ∃ r, .ret id (some r) ∈ s.history

section Answering

variable {codec : Codec M} {S : Spec σ M (Option M)} {capacity : Nat} {s s' : Service ι σ M}
  {pending : ι → Pending M}

/-- An open call stays open until it returns. -/
theorem Moves.status {lab : Label M} {p p' : Pending M} (h : Moves lab p p') {id : Nat}
    {st : Status M (Option M)} (hp : p.status = some (id, st)) :
    (∃ st', p'.status = some (id, st')) ∨ ∃ r, lab = .ret id r := by
  cases h with
  | tau => exact Or.inl ⟨st, hp⟩
  | fault => exact Or.inl ⟨st, hp⟩
  | close => exact Or.inl ⟨st, hp⟩
  | refuse => exact Or.inl ⟨st, hp⟩
  | call => cases hp
  | invoke =>
    cases hp
    exact Or.inl ⟨_, rfl⟩
  | unsent =>
    cases hp
    exact Or.inl ⟨_, rfl⟩
  | ret =>
    cases hp
    exact Or.inr ⟨_, rfl⟩

theorem Effect.history {v v' : σ} {h h' : List (Event M (Option M))} {lab : Label M}
    (he : Effect S v h lab v' h') : h ⊆ h' ∧ (∀ id m, .call id m ∈ h' → .call id m ∈ h ∨
      lab = .call id m ∨ lab = .refuse id m) ∧ ∀ id r, lab = .ret id r → .ret id (some r) ∈ h' := by
  cases he with
  | call =>
    refine ⟨List.subset_append_left _ _, fun id m hin => ?_, nofun⟩
    rcases List.mem_append.mp hin with hold | hnew
    · exact Or.inl hold
    · cases List.mem_singleton.mp hnew
      exact Or.inr (Or.inl rfl)
  | refuse =>
    refine ⟨List.subset_append_left _ _, fun id m hin => ?_, nofun⟩
    rcases List.mem_append.mp hin with hold | hnew
    · exact Or.inl hold
    · cases List.mem_singleton.mp hnew
      exact Or.inr (Or.inr rfl)
  | ret =>
    refine ⟨List.subset_append_left _ _, fun id m hin => ?_, fun id r he => ?_⟩
    · rcases List.mem_append.mp hin with hold | hnew
      · exact Or.inl hold
      · cases List.mem_singleton.mp hnew
    · cases he
      exact List.mem_append_right _ (List.mem_singleton_self _)
  | _ => exact ⟨List.Subset.refl _, fun _ _ => Or.inl, nofun⟩

theorem Answering.step {i : ι} {lab : Label M} (h : Answering codec s pending) (hgood : lab.Good)
    (hstep : Service.Step codec S capacity i lab s s') :
    ∃ pending', Answering codec s' pending' := by
  obtain ⟨hline, heffect⟩ := hstep
  obtain ⟨hsub, hcalls, hrets⟩ := heffect.history
  obtain ⟨n₀, hphase⟩ := h.phase i
  obtain ⟨p, n, hmoves, hl⟩ := hphase.moves hline fun he => by
    rw [he] at hgood
    exact hgood
  refine ⟨Function.update pending i p, phase_update h.phase hl, fun j => ?_, fun id m hin => ?_⟩
  · by_cases hj : j = i
    · subst hj
      show Line.Healthy (Function.update s.line j _ j)
      rw [Function.update_self]
      exact hphase.healthy (h.healthy j) hline hgood
    · show Line.Healthy (Function.update s.line i _ j)
      rw [Function.update_of_ne hj]
      exact h.healthy j
  · -- an old call, a new one, or one that is refused, which is no undisturbed step
    rcases hcalls id m hin with hold | rfl | rfl
    · rcases h.open_or_returned id m hold with ⟨j, st, hst⟩ | ⟨r, hr⟩
      · by_cases hj : j = i
        · subst hj
          rcases hmoves.status hst with ⟨st', hst'⟩ | ⟨r, hr⟩
          · exact Or.inl ⟨j, st', by rwa [Function.update_self]⟩
          · exact Or.inr ⟨r, hrets id r hr⟩
        · exact Or.inl ⟨j, st, by rwa [Function.update_of_ne hj]⟩
      · exact Or.inr ⟨r, hsub hr⟩
    · generalize pending i = q at hmoves
      cases hmoves with
      | call => exact Or.inl ⟨i, _, by rw [Function.update_self]; rfl⟩
    · exact hgood.elim

theorem exists_answering (hs : (undisturbed ι codec S capacity).Reachable s) :
    ∃ pending, Answering codec s pending := by
  refine hs.invariant (I := fun s => ∃ pending, Answering codec s pending) ?_ ?_
  · intro s hs
    subst hs
    exact ⟨fun _ => .none, fun _ => ⟨2, .ready⟩, fun _ => ⟨nofun, nofun⟩, nofun⟩
  · rintro s s' ⟨pending, h⟩ ⟨i, lab, hgood, hstep⟩
    exact h.step hgood hstep

end Answering

/-- **Undisturbed calls are answered.** Where no step is due any more, and the requests made have
answers, every call has returned, and with what one object says that handles the requests one after
the other. -/
theorem calls_answered {codec : Codec M} {S : Spec σ M (Option M)} {capacity : Nat}
    (hcap : 0 < capacity) {s : Service ι σ M} (hs : (undisturbed ι codec S capacity).Reachable s)
    (hS : ∀ id m, .call id m ∈ s.history →
      ∃ r v', S.step s.val m (some r) v' ∧ FitsFrame codec r)
    (hrest : ∀ i lab s', Label.Due lab → ¬ Service.Step codec S capacity i lab s s') :
    (∀ id m, .call id m ∈ s.history → ∃ r, .ret id (some r) ∈ s.history) ∧
      ∃ order, Linearization S s.history order ∧ S.Run S.init order s.val := by
  refine ⟨fun id m hin => ?_, calls_linearizable (reachable_of_undisturbed hs)⟩
  obtain ⟨pending, h⟩ := exists_answering hs
  rcases h.open_or_returned id m hin with ⟨i, st, hst⟩ | hr
  · -- the caller of an open call would still be inside it
    have hidle := rest_of_reachable (reachable_of_undisturbed hs) hcap (fun id m hcall => by
      obtain ⟨r, v', hv, hr⟩ := hS id m hcall
      exact ⟨some r, v', hv, fun r' he => Option.some.inj he ▸ hr⟩) hrest i
    obtain ⟨n, hphase⟩ := h.phase i
    rw [hphase.none_of_healthy (h.healthy i) hidle] at hst
    cases hst
  · exact hr

theorem calls_answered_putGet : ∃ s : Service (Fin 2) (Server × Unit) WireMsg,
    s.history = putGet ∧
    (∀ id m, .call id m ∈ s.history → ∃ r, .ret id (some r) ∈ s.history) ∧
    ∃ order, Linearization fromEmpty s.history order ∧
      fromEmpty.Run (emptyServer, ()) order s.val := by
  obtain ⟨x, s, hwf, hstored, hs, -, hsteps⟩ := putGet_served
  have hend : (undisturbed (Fin 2) protoCodec.toCodec fromEmpty 65537).Reachable
      ⟨(x, ()), fun _ => .new, putGet⟩ := by
    refine hs.trans (Relation.ReflTransGen.mono ?_ _ _ hsteps)
    rintro s s' ⟨lab, -, hgood, hstep⟩
    exact ⟨1, lab, hgood, hstep⟩
  refine ⟨_, rfl, calls_answered (by decide) hend (putGet_answers hwf hstored) ?_⟩
  rintro i lab s' hdue ⟨hline, -⟩
  exact not_due_new hdue hline

end KvStorage.Duplex
