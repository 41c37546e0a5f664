import KvStorage.Lib.Monitor
import KvStorage.Lib.Transition

/-!
# The reader/writer monitor (`server_skeleton.c`)

`start_read`, `end_read`, `start_write` and `end_write` with any number of
threads. What such a body does between taking the mutex and giving it back, or
sleeping on the condition variable, is one step. A thread that sleeps gets the
mutex back after a broadcast, or spuriously without one, and tests its condition
again.

There are fewer threads than an `int` counts, so the counters do not wrap.
-/

namespace KvStorage

open Monitor

variable {κ : Type} [DecidableEq κ]

/-- What a thread is doing: sleeping in `pthread_cond_wait`, woken by a broadcast
or not, inside one of the two sections, or neither. -/
inductive Place
  | outside
  | sleepsRead (woken : Bool)
  | reading
  | sleepsWrite (woken : Bool)
  | writing
  deriving DecidableEq

/-- The two counters and the threads. The counters are `int`s; each is at most the number of
threads, so with fewer than 2^31 of them they hold what is counted here. -/
structure RwMonitor (κ : Type) where
  nReaders : Int
  nWriters : Int
  place : κ → Place

namespace RwMonitor

/-- `pthread_cond_broadcast`, for one thread. -/
def wake : Place → Place
  | .sleepsRead _ => .sleepsRead true
  | .sleepsWrite _ => .sleepsWrite true
  | p => p

/-- Thread `k` goes on to `p`. -/
def move (m : RwMonitor κ) (k : κ) (p : Place) : RwMonitor κ :=
  { m with place := Function.update m.place k p }

omit [DecidableEq κ] in
def broadcast (m : RwMonitor κ) : RwMonitor κ := { m with place := fun k => wake (m.place k) }

/-- The loop of `start_read`, once the mutex is held. -/
def startRead (m : RwMonitor κ) (k : κ) : RwMonitor κ :=
  if 0 < m.nWriters then m.move k (.sleepsRead false)
  else { m.move k .reading with nReaders := m.nReaders + 1 }

def endRead (m : RwMonitor κ) (k : κ) : RwMonitor κ :=
  let m := { m.move k .outside with nReaders := m.nReaders - 1 }
  if m.nReaders = 0 then m.broadcast else m

/-- The loop of `start_write`, once the mutex is held. -/
def startWrite (m : RwMonitor κ) (k : κ) : RwMonitor κ :=
  if 0 < m.nReaders ∨ 0 < m.nWriters then m.move k (.sleepsWrite false)
  else { m.move k .writing with nWriters := m.nWriters + 1 }

def endWrite (m : RwMonitor κ) (k : κ) : RwMonitor κ :=
  { m.move k .outside with nWriters := m.nWriters - 1 }.broadcast

/-- One step of a thread. -/
inductive Step : RwMonitor κ → RwMonitor κ → Prop
  | startRead {m : RwMonitor κ} {k : κ} : m.place k = .outside → Step m (m.startRead k)
  | wakeRead {m : RwMonitor κ} {k : κ} {woken : Bool} : m.place k = .sleepsRead woken →
      Step m (m.startRead k)
  | endRead {m : RwMonitor κ} {k : κ} : m.place k = .reading → Step m (m.endRead k)
  | startWrite {m : RwMonitor κ} {k : κ} : m.place k = .outside → Step m (m.startWrite k)
  | wakeWrite {m : RwMonitor κ} {k : κ} {woken : Bool} : m.place k = .sleepsWrite woken →
      Step m (m.startWrite k)
  | endWrite {m : RwMonitor κ} {k : κ} : m.place k = .writing → Step m (m.endWrite k)

end RwMonitor

open RwMonitor

/-- All runs, from the initial values of the counters. -/
def rwMonitor (κ : Type) [DecidableEq κ] : Transition.System (RwMonitor κ) where
  init m := m = ⟨0, 0, fun _ => .outside⟩
  step := Step

/-! ## Exclusion -/

/-- The side of the monitor a thread is on. -/
def Place.side : Place → Section
  | reading => .read
  | writing => .write
  | _ => .outside

theorem Place.side_eq_read {p : Place} : p.side = .read ↔ p = .reading := by
  cases p <;> simp [side]

theorem Place.side_eq_write {p : Place} : p.side = .write ↔ p = .writing := by
  cases p <;> simp [side]

namespace RwMonitor

variable {m : RwMonitor κ} {k : κ}

@[simp] theorem side_wake (p : Place) : (wake p).side = p.side := by
  cases p <;> rfl

theorem place_move_self (p : Place) : (m.move k p).place k = p := Function.update_self ..

theorem place_move_of_ne {k' : κ} (h : k' ≠ k) (p : Place) :
    (m.move k p).place k' = m.place k' := Function.update_of_ne h ..

/-- The counters count the threads inside. -/
def Counted (m : RwMonitor κ) : Prop :=
  Counts m.nReaders m.nWriters fun k => (m.place k).side

omit [DecidableEq κ] in
theorem Counted.broadcast (h : m.Counted) : m.broadcast.Counted :=
  h.congr fun k => side_wake (m.place k)

theorem Counted.startRead (h : m.Counted) (hk : (m.place k).side = .outside) :
    (m.startRead k).Counted := by
  unfold RwMonitor.startRead
  split
  next _ =>
    refine h.congr fun k' => ?_
    by_cases hk' : k' = k
    · rw [hk', place_move_self, hk]
      rfl
    · rw [place_move_of_ne hk']
  next hfree =>
    refine Counts.startRead (k := k) h (fun k' hk' => ?_) hk ?_ hfree
    · exact congrArg Place.side (place_move_of_ne hk' _)
    · exact congrArg Place.side (place_move_self _)

theorem Counted.endRead (h : m.Counted) (hk : m.place k = .reading) : (m.endRead k).Counted := by
  have hleft : ({ m.move k .outside with nReaders := m.nReaders - 1 } : RwMonitor κ).Counted := by
    refine Counts.endRead (k := k) h (fun k' hk' => ?_) (by rw [hk]; rfl) ?_
    · exact congrArg Place.side (place_move_of_ne hk' _)
    · exact congrArg Place.side (place_move_self _)
  unfold RwMonitor.endRead
  dsimp only
  split
  · exact hleft.broadcast
  · exact hleft

theorem Counted.startWrite (h : m.Counted) (hk : (m.place k).side = .outside) :
    (m.startWrite k).Counted := by
  unfold RwMonitor.startWrite
  split
  next _ =>
    refine h.congr fun k' => ?_
    by_cases hk' : k' = k
    · rw [hk', place_move_self, hk]
      rfl
    · rw [place_move_of_ne hk']
  next hfree =>
    refine Counts.startWrite (k := k) h (fun k' hk' => ?_) ?_ hfree
    · exact congrArg Place.side (place_move_of_ne hk' _)
    · exact congrArg Place.side (place_move_self _)

theorem Counted.endWrite (h : m.Counted) (hk : m.place k = .writing) : (m.endWrite k).Counted := by
  refine Counted.broadcast (Counts.endWrite (k := k) h (fun k' hk' => ?_) (by rw [hk]; rfl) ?_)
  · exact congrArg Place.side (place_move_of_ne hk' _)
  · exact congrArg Place.side (place_move_self _)

theorem Counted.step {m' : RwMonitor κ} (h : m.Counted) (hs : Step m m') : m'.Counted := by
  cases hs with
  | startRead hk => exact h.startRead (by rw [hk]; rfl)
  | wakeRead hk => exact h.startRead (by rw [hk]; rfl)
  | endRead hk => exact h.endRead hk
  | startWrite hk => exact h.startWrite (by rw [hk]; rfl)
  | wakeWrite hk => exact h.startWrite (by rw [hk]; rfl)
  | endWrite hk => exact h.endWrite hk

theorem counted_of_reachable (h : (rwMonitor κ).Reachable m) : m.Counted := by
  refine h.invariant (I := Counted) ?_ fun m m' h hs => h.step hs
  intro m hm
  subst hm
  exact .initial

end RwMonitor

/-- **The monitor excludes.** In every reachable state the counters are the
numbers of threads in a read and in a write section, at most one thread writes,
nobody reads meanwhile, and no counter is negative. -/
theorem monitor_excludes {m : RwMonitor κ} (h : (rwMonitor κ).Reachable m) :
    ({k | m.place k = .reading}.Finite ∧ m.nReaders = {k | m.place k = .reading}.ncard) ∧
    ({k | m.place k = .writing}.Finite ∧ m.nWriters = {k | m.place k = .writing}.ncard) ∧
    m.nWriters ≤ 1 ∧ ¬ (0 < m.nReaders ∧ 0 < m.nWriters) ∧ 0 ≤ m.nReaders ∧ 0 ≤ m.nWriters := by
  have hcounts : Counts m.nReaders m.nWriters fun k => (m.place k).side := counted_of_reachable h
  obtain ⟨hreaders, hwriters⟩ := hcounts.ncard
  simp only [Place.side_eq_read] at hreaders
  simp only [Place.side_eq_write] at hwriters
  exact ⟨hreaders, hwriters, hcounts.nWriters_le_one, hcounts.not_both, hcounts.nReaders_nonneg,
    hcounts.nWriters_nonneg⟩

/-- Two threads read. -/
theorem monitor_excludes_twoReaders : ∃ m : RwMonitor (Fin 2),
    m.nReaders = 2 ∧ m.nReaders = {k | m.place k = .reading}.ncard := by
  have h0 := Transition.System.Reachable.init (M := rwMonitor (Fin 2)) rfl
  have h1 := h0.step (.startRead (k := 0) rfl)
  have h2 := h1.step (.startRead (k := 1) rfl)
  exact ⟨_, rfl, (monitor_excludes h2).1.2⟩

/-! ## Wake-ups -/

/-- What a thread waits for. -/
inductive WaitLoop
  | read
  | write
  deriving DecidableEq

/-- The conditions of the two wait loops. -/
def WaitLoop.holds : WaitLoop → Int × Int → Prop
  | read, (_, nWriters) => 0 < nWriters
  | write, (nReaders, nWriters) => 0 < nReaders ∨ 0 < nWriters

/-- The loop in which a thread sleeps that has not been woken since. -/
def Place.asleep : Place → Option WaitLoop
  | sleepsRead false => some .read
  | sleepsWrite false => some .write
  | _ => none

namespace RwMonitor

variable {m : RwMonitor κ} {k : κ}

@[simp] theorem asleep_wake (p : Place) : (wake p).asleep = none := by
  cases p <;> rfl

/-- Whoever sleeps un-notified has to. -/
def NoneMissed (m : RwMonitor κ) : Prop :=
  Attended WaitLoop.holds (m.nReaders, m.nWriters) fun k => (m.place k).asleep

omit [DecidableEq κ] in
/-- After a broadcast nobody sleeps un-notified. -/
theorem noneMissed_broadcast (m : RwMonitor κ) : m.broadcast.NoneMissed := by
  intro k a hk
  have hnone : (m.broadcast.place k).asleep = none := asleep_wake (m.place k)
  exact absurd (hnone.symm.trans hk) nofun

/-- Only the thread that moves can fall asleep. -/
theorem asleep_move (p : Place) :
    (fun k' => ((m.move k p).place k').asleep)
      = Function.update (fun k' => (m.place k').asleep) k p.asleep := by
  funext k'
  by_cases hk' : k' = k
  · subst hk'
    rw [place_move_self, Function.update_self]
  · rw [place_move_of_ne hk', Function.update_of_ne hk']

/-- The thread goes on without sleeping, and the counters let nobody through. -/
theorem NoneMissed.go (h : m.NoneMissed) {p : Place} (hp : p.asleep = none)
    {nReaders nWriters : Int}
    (hd : ∀ a, WaitLoop.holds a (m.nReaders, m.nWriters) → WaitLoop.holds a (nReaders, nWriters)) :
    NoneMissed { m.move k p with nReaders := nReaders, nWriters := nWriters } := by
  refine Attended.mono h hd fun k' a hk' => ?_
  by_cases hkk : k' = k
  · rw [hkk, show ({ m.move k p with nReaders := nReaders, nWriters := nWriters } :
      RwMonitor κ).place k = p from place_move_self p, hp] at hk'
    cases hk'
  · rwa [show ({ m.move k p with nReaders := nReaders, nWriters := nWriters } :
      RwMonitor κ).place k' = m.place k' from place_move_of_ne hkk p] at hk'

theorem NoneMissed.startRead (h : m.NoneMissed) (hc : m.Counted) : (m.startRead k).NoneMissed := by
  unfold RwMonitor.startRead
  split
  next hwait => exact Attended.sleep h (a := .read) hwait (asleep_move _)
  next _ =>
    refine h.go rfl fun a ha => ?_
    cases a with
    | read => exact ha
    | write =>
      have hpos := Counts.nReaders_nonneg hc
      exact Or.inl (show 0 < m.nReaders + 1 by omega)

theorem NoneMissed.startWrite (h : m.NoneMissed) (hc : m.Counted) :
    (m.startWrite k).NoneMissed := by
  unfold RwMonitor.startWrite
  split
  next hwait => exact Attended.sleep h (a := .write) hwait (asleep_move _)
  next _ =>
    have hpos := Counts.nWriters_nonneg hc
    refine h.go rfl fun a ha => ?_
    cases a with
    | read => exact show 0 < m.nWriters + 1 by omega
    | write => exact Or.inr (show 0 < m.nWriters + 1 by omega)

/-- Without the broadcast readers are left, so a writer still has to wait. -/
theorem NoneMissed.endRead (h : m.NoneMissed) (hc : m.Counted) (hk : m.place k = .reading) :
    (m.endRead k).NoneMissed := by
  unfold RwMonitor.endRead
  dsimp only
  split
  next _ => exact noneMissed_broadcast _
  next hleft =>
    have hpos : 0 < m.nReaders := Counts.nReaders_pos hc (k := k) (by rw [hk]; rfl)
    refine h.go rfl fun a ha => ?_
    cases a with
    | read => exact ha
    | write => exact Or.inl (show 0 < m.nReaders - 1 by omega)

theorem NoneMissed.step {m' : RwMonitor κ} (h : m.NoneMissed) (hc : m.Counted) (hs : Step m m') :
    m'.NoneMissed := by
  cases hs with
  | startRead _ => exact h.startRead hc
  | wakeRead _ => exact h.startRead hc
  | endRead hk => exact h.endRead hc hk
  | startWrite _ => exact h.startWrite hc
  | wakeWrite _ => exact h.startWrite hc
  | endWrite _ => exact noneMissed_broadcast _

theorem noneMissed_of_reachable (h : (rwMonitor κ).Reachable m) : m.NoneMissed := by
  refine h.invariant_of (I := Counted) (J := NoneMissed) (fun m h => counted_of_reachable h) ?_ ?_
  · intro m hm
    subst hm
    exact .nobody
  · intro m m' hc _ h hs
    exact h.step hc hs

end RwMonitor

/-- **No wake-up is lost.** In every reachable state a thread that sleeps and has
not been woken since it went to sleep still has to wait; where nobody is inside,
nobody sleeps un-notified. -/
theorem no_wakeup_lost {m : RwMonitor κ} (h : (rwMonitor κ).Reachable m) :
    (∀ k, m.place k = .sleepsRead false → 0 < m.nWriters) ∧
    (∀ k, m.place k = .sleepsWrite false → 0 < m.nReaders ∨ 0 < m.nWriters) ∧
    ((∀ k, m.place k ≠ .reading ∧ m.place k ≠ .writing) →
      ∀ k, m.place k ≠ .sleepsRead false ∧ m.place k ≠ .sleepsWrite false) := by
  have hmissed := noneMissed_of_reachable h
  have hcounts : Counts m.nReaders m.nWriters fun k => (m.place k).side := counted_of_reachable h
  have hread : ∀ k, m.place k = .sleepsRead false → 0 < m.nWriters := by
    intro k hk
    exact hmissed k .read (congrArg Place.asleep hk)
  have hwrite : ∀ k, m.place k = .sleepsWrite false → 0 < m.nReaders ∨ 0 < m.nWriters := by
    intro k hk
    exact hmissed k .write (congrArg Place.asleep hk)
  refine ⟨hread, hwrite, fun hnobody k => ?_⟩
  have hnoReader : ¬ 0 < m.nReaders := by
    intro hpos
    obtain ⟨k', hk'⟩ := hcounts.exists_reader hpos
    exact (hnobody k').1 (Place.side_eq_read.mp hk')
  have hnoWriter : ¬ 0 < m.nWriters := by
    intro hpos
    obtain ⟨k', hk'⟩ := hcounts.exists_writer hpos
    exact (hnobody k').2 (Place.side_eq_write.mp hk')
  refine ⟨fun hk => hnoWriter (hread k hk), fun hk => ?_⟩
  rcases hwrite k hk with hpos | hpos
  · exact hnoReader hpos
  · exact hnoWriter hpos

/-- A writer sleeps while a thread reads, and is woken by its end. -/
theorem no_wakeup_lost_reader : ∃ m m' : RwMonitor (Fin 2), m.place 1 = .sleepsWrite false ∧
    (0 < m.nReaders ∨ 0 < m.nWriters) ∧ Step m m' ∧ m'.place 1 = .sleepsWrite true := by
  have h0 := Transition.System.Reachable.init (M := rwMonitor (Fin 2)) rfl
  have h1 := h0.step (.startRead (k := 0) rfl)
  have h2 := h1.step (.startWrite (k := 1) rfl)
  exact ⟨_, _, rfl, (no_wakeup_lost h2).2.1 1 rfl, .endRead (k := 0) rfl, rfl⟩

end KvStorage
