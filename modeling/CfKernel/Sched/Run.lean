import CfKernel.Sched.Lifecycle

/-!
# Runs of the scheduler

What holds in every run: a thread has exactly one place, the run queue is served in the order in
which threads enter it, and a zombie does not run again. Hence a ready thread waits for its turn
and no longer.
-/

namespace CfKernel.Sched

open Lib Lib.Eff

variable {gone : Nat → Prop} {s : Scheduler} {q z : List Nat} {t : Nat} {x : Thread}

section Steps

/-- The events by which the current thread gives way. -/
def Switches : Event → Scheduler → Prop
  | .yield, _ | .exit, _ => True
  | .sleep _, s => ¬ (s.current = 0 ∨ s.current = s.idleThread)
  | .resched, s => s.reschedulePending = true
  | _, _ => False

/-- A switch serves the queue, and no other event takes a thread from its place. -/
def Ordered (e : Event) (s s' : Scheduler) (q q' : List Nat) : Prop :=
  (Switches e s → Serves q s' q') ∧ (¬ Switches e s → q <+: q')

theorem Sound.ordered (h : Sound gone s q z) {e : Event} (he : Possible e s) :
    (e.run s).1 ≠ .error .fault ∧
      ∃ q' z', Sound gone (schedStep e s) q' z' ∧ Ordered e s (schedStep e s) q q' := by
  suffices hcases : (∃ s' q' z', e.run s = (.ok (), s') ∧ Sound gone s' q' z' ∧
      Ordered e s s' q q') ∨ ∃ code, e.run s = (.error (.code code), s) ∧ ¬ Switches e s by
    rw [schedStep]
    obtain ⟨s', q', z', hrun, h'⟩ | ⟨code, hrun, hs⟩ := hcases <;> rw [hrun]
    · exact ⟨by simp, q', z', h'⟩
    · exact ⟨by simp, q, z, h, fun h => absurd h hs, fun _ => List.prefix_refl q⟩
  cases e with
  | add withProcess =>
    obtain ⟨s', q', hrun, h', hq⟩ := h.spawn withProcess
    exact .inl ⟨s', q', z, hrun, h', False.elim, fun _ => hq⟩
  | yield =>
    obtain ⟨s', q', hrun, h', hserves⟩ := h.yield
    exact .inl ⟨s', q', z, hrun, h', fun _ => hserves, fun hn => absurd trivial hn⟩
  | sleep ticks =>
    obtain ⟨s', q', z', hrun, h', -, hq⟩ := h.sleep ticks
    exact .inl ⟨s', q', z', hrun, h', fun hs => by rwa [if_neg (by exact hs)] at hq,
      fun hn => by rwa [if_pos (by exact not_not.mp hn)] at hq⟩
  | wake =>
    obtain ⟨s', q', z', hrun, h', hq, -⟩ := h.wake
    exact .inl ⟨s', q', z', hrun, h', False.elim, fun _ => hq⟩
  | tick =>
    obtain ⟨s', q', z', hrun, h', hq, -⟩ := h.tick
    exact .inl ⟨s', q', z', hrun, h', False.elim, fun _ => hq⟩
  | resched =>
    obtain ⟨s', q', hrun, h', hq⟩ := h.resched
    exact .inl ⟨s', q', z, hrun, h', fun hs => by rwa [if_pos (by exact hs)] at hq,
      fun hn => by rwa [if_neg (by exact hn)] at hq⟩
  | exit =>
    obtain ⟨s', q', hrun, h', hserves⟩ := h.exit (he rfl)
    exact .inl ⟨s', q', z, hrun, h', fun _ => hserves, fun hn => absurd trivial hn⟩
  | reap p =>
    rcases h.reap p with ⟨code, hrun⟩ | ⟨s', hrun, h'⟩
    · exact .inr ⟨code, hrun, id⟩
    · exact .inl ⟨s', q, z, hrun, h', False.elim, fun _ => List.prefix_refl q⟩

theorem Sound.event (h : Sound gone s q z) {e : Event} (he : Possible e s) :
    (e.run s).1 ≠ .error .fault ∧ ∃ q' z', Sound gone (schedStep e s) q' z' := by
  obtain ⟨hok, q', z', h', -⟩ := h.ordered he
  exact ⟨hok, q', z', h'⟩

theorem sound_schedInit : Sound (fun _ => False) schedInit [] [] := by
  have hinit : schedInit = { unstarted with
      threads := Heap.empty.push ⟨.runnable, 0, 0, 0⟩
      links := unstarted.links.alone (.thread 1)
      idleThread := 1 } := by
    rw [schedInit, threadCreate_run]
    rfl
  have hcell : ∀ u, schedInit.threads.cell u =
      if u = 1 then some ⟨.runnable, 0, 0, 0⟩ else none := by
    intro u
    rw [hinit]
    change Function.update (fun _ => none) 1 _ u = _
    rw [Function.update_apply]
  have hrole : ∀ u state p, schedInit.role u = some (state, p) → u = 1 := by
    intro u state p hu
    by_contra hne
    rw [Scheduler.role, hcell, if_neg hne] at hu
    cases hu
  have hidle : schedInit.idleThread = 1 := by rw [hinit]
  have hprocs : ∀ p, schedInit.procs.cell p = none := by
    intro p
    rw [hinit]
    rfl
  constructor
  · constructor
    case ring =>
      rw [hinit]
      exact ⟨⟨rfl, rfl⟩, List.nodup_singleton _⟩
    case sleepers =>
      rw [hinit]
      rfl
    case idle =>
      rw [hidle, Scheduler.role, hcell, if_pos rfl]
      exact ⟨_, _, rfl, by decide⟩
    case live =>
      intro t ht
      rcases ht with ht | ht | ⟨rfl, ht⟩
      · cases ht
      · cases ht
      · rw [hinit] at ht
        exact absurd rfl ht
    case idleOut => exact ⟨List.not_mem_nil, List.not_mem_nil⟩
    case place =>
      intro t state p ht hti
      rw [hidle] at hti
      exact absurd (hrole t state p ht) hti
    case unlinked =>
      intro t ht hti _
      rw [hidle] at hti
      obtain ⟨x, hx⟩ := cell_of_role ht
      rw [hcell, if_neg hti] at hx
      cases hx
    case owner =>
      intro t state p ht hp
      cases hrole t state p ht
      rw [Scheduler.role, hcell, if_pos rfl] at ht
      cases ht
      exact absurd rfl hp
    case proc =>
      intro p y hy
      rw [hprocs] at hy
      cases hy
    case fifo =>
      rw [hinit]
      rfl
    case gone => exact fun _ h => h.elim
  · intro hne
    rw [hinit] at hne
    exact absurd rfl hne

end Steps

inductive Place where
  | current
  | runQueue
  | sleepQueue
  | gone

/-- `q` and `z` are the run queue and the sleep queue. -/
def At (s : Scheduler) (q z : List Nat) (t : Nat) : Place → Prop
  | .current => s.current = t
  | .runQueue => t ∈ q
  | .sleepQueue => t ∈ z
  | .gone => ∀ x, s.threads.cell t = some x → x.state = .zombie

/-- The state of a thread in each place, if it is not gone. -/
def Place.state : Place → ThreadState
  | .current => .running
  | .runQueue => .runnable
  | .sleepQueue => .sleeping
  | .gone => .zombie

/-- The places of all threads, with the two queues as the links give them. -/
structure Placed (s : Scheduler) (q z : List Nat) : Prop where
  runQueue : s.links.Ring .runQueue (q.map .thread)
  sleepQueue : Path (NextSleep s.threads.cell) s.sleepQueue z 0
  once : q.Nodup ∧ z.Nodup
  idle : s.idleThread ∉ q ∧ s.idleThread ∉ z
  /-- Threads have the numbers from 1 on. -/
  one : ∀ t, 0 < t → t < s.threads.next → t ≠ s.idleThread → ∃! place, At s q z t place
  state : ∀ t x place, s.threads.cell t = some x → t ≠ s.idleThread → At s q z t place →
    x.state = place.state
  /-- What was taken out of the run queue to run entered it first, in this order. -/
  fifo : s.enqueued = s.dispatched ++ q

section Placed

section

variable (h : Sound gone s q z)
include h

theorem Sound.at_unique (ht : 0 < t) (hti : t ≠ s.idleThread) : ∃! place, At s q z t place := by
  cases hcell : s.threads.cell t with
  | none =>
    have hnone : s.role t = none := by rw [Scheduler.role, hcell, Option.map_none]
    have hgone : At s q z t .gone := by
      intro x hx
      cases hcell.symm.trans hx
    refine ⟨.gone, hgone, fun place hplace => ?_⟩
    cases place with
    | current => exact absurd hnone (h.base.live t (.inr (.inr ⟨hplace.symm, ht.ne'⟩)))
    | runQueue => exact absurd hnone (h.base.live t (.inl hplace))
    | sleepQueue => exact absurd hnone (h.base.live t (.inr (.inl hplace)))
    | gone => rfl
  | some x =>
    have hrole := role_of_cell hcell
    obtain ⟨hrunning, hrunnable, hsleeping⟩ := h.base.place _ _ _ hrole hti
    have hcurrent : s.current = t ↔ x.state = .running := by
      refine ⟨?_, hrunning⟩
      rintro rfl
      obtain ⟨p, hp⟩ := h.running ht.ne' hti
      rw [hrole] at hp
      exact congrArg Prod.fst (Option.some.inj hp)
    have hgone : At s q z t .gone ↔ x.state = .zombie :=
      ⟨fun hg => hg x hcell, fun hz y hy => Option.some.inj (hcell.symm.trans hy) ▸ hz⟩
    -- The state alone decides which place it is.
    cases hstate : x.state with
    | runnable =>
      refine ⟨.runQueue, hrunnable.mp hstate, fun place hplace => ?_⟩
      cases place with
      | current => exact ThreadState.noConfusion (hstate.symm.trans (hcurrent.mp hplace))
      | runQueue => rfl
      | sleepQueue => exact ThreadState.noConfusion (hstate.symm.trans (hsleeping.mpr hplace))
      | gone => exact ThreadState.noConfusion (hstate.symm.trans (hgone.mp hplace))
    | running =>
      refine ⟨.current, hcurrent.mpr hstate, fun place hplace => ?_⟩
      cases place with
      | current => rfl
      | runQueue => exact ThreadState.noConfusion (hstate.symm.trans (hrunnable.mpr hplace))
      | sleepQueue => exact ThreadState.noConfusion (hstate.symm.trans (hsleeping.mpr hplace))
      | gone => exact ThreadState.noConfusion (hstate.symm.trans (hgone.mp hplace))
    | zombie =>
      refine ⟨.gone, hgone.mpr hstate, fun place hplace => ?_⟩
      cases place with
      | current => exact ThreadState.noConfusion (hstate.symm.trans (hcurrent.mp hplace))
      | runQueue => exact ThreadState.noConfusion (hstate.symm.trans (hrunnable.mpr hplace))
      | sleepQueue => exact ThreadState.noConfusion (hstate.symm.trans (hsleeping.mpr hplace))
      | gone => rfl
    | sleeping =>
      refine ⟨.sleepQueue, hsleeping.mp hstate, fun place hplace => ?_⟩
      cases place with
      | current => exact ThreadState.noConfusion (hstate.symm.trans (hcurrent.mp hplace))
      | runQueue => exact ThreadState.noConfusion (hstate.symm.trans (hrunnable.mpr hplace))
      | sleepQueue => rfl
      | gone => exact ThreadState.noConfusion (hstate.symm.trans (hgone.mp hplace))

theorem Sound.state_of_at (hx : s.threads.cell t = some x)
    (hti : t ≠ s.idleThread) {place : Place} (hplace : At s q z t place) :
    x.state = place.state := by
  obtain ⟨-, hrunnable, hsleeping⟩ := h.base.place _ _ _ (role_of_cell hx) hti
  cases place with
  | current =>
    obtain rfl : s.current = t := hplace
    obtain ⟨p, hp⟩ := h.running (Heap.ne_zero hx) hti
    rw [role_of_cell hx] at hp
    exact congrArg Prod.fst (Option.some.inj hp)
  | runQueue => exact hrunnable.mpr hplace
  | sleepQueue => exact hsleeping.mpr hplace
  | gone => exact hplace x hx

theorem Sound.placed : Placed s q z where
  runQueue := h.base.ring
  sleepQueue := h.base.sleepers
  once := ⟨h.base.queueNodup, h.base.sleepersNodup⟩
  idle := h.base.idleOut
  one _ ht _ hti := h.at_unique ht hti
  state _ _ _ hx hti hplace := h.state_of_at hx hti hplace
  fifo := h.base.fifo

theorem Sound.withGone (hx : s.threads.cell t = some x)
    (hz : x.state = .zombie) : Sound (fun u => u = t) s q z := by
  refine ⟨{ h.base with gone := ?_ }, h.running⟩
  rintro u rfl
  refine ⟨Heap.lt_next hx, ?_, fun state p hp => ?_⟩
  · rintro rfl
    obtain ⟨state, p, hp, hstate⟩ := h.base.idle
    rw [role_of_cell hx] at hp
    cases hp
    exact hstate hz
  · rw [role_of_cell hx] at hp
    cases hp
    exact hz

theorem Sound.not_scheduled (ht : gone t) : s.current ≠ t ∨ t = 0 := by
  obtain ⟨-, hti, hgone⟩ := h.base.gone t ht
  by_contra hcur
  obtain ⟨hcur, hne⟩ := not_or.mp hcur
  rw [not_not] at hcur
  subst hcur
  obtain ⟨p, hp⟩ := h.running hne hti
  exact ThreadState.noConfusion (hgone _ _ hp)

end

end Placed

/-- In every run each thread is in exactly one place, the run queue is first in, first out, and a
thread that has ended is neither running nor waiting to run from then on. -/
theorem threads_placed (hrun : Reach schedStep Possible schedInit s) :
    (∃ q z, Placed s q z) ∧ (∀ e, Possible e s → (e.run s).1 ≠ .error .fault) ∧
    ∀ t x s', s.threads.cell t = some x → x.state = .zombie → Reach schedStep Possible s s' →
      s'.current ≠ t ∧ ∃ q z, Placed s' q z ∧ At s' q z t .gone ∧ t ∉ q := by
  have hsound : ∃ q z, Sound (fun _ => False) s q z :=
    hrun.invariant (fun s => ∃ q z, Sound (fun _ => False) s q z) ⟨[], [], sound_schedInit⟩
      fun e s ⟨q, z, h⟩ he => (h.event he).2
  obtain ⟨q, z, h⟩ := hsound
  refine ⟨⟨q, z, h.placed⟩, fun e he => (h.event he).1, ?_⟩
  intro t x s' hx hz hrun'
  have hsound' : ∃ q z, Sound (fun u => u = t) s' q z :=
    hrun'.invariant (fun s => ∃ q z, Sound (fun u => u = t) s q z) ⟨q, z, h.withGone hx hz⟩
      fun e s ⟨q, z, h⟩ he => (h.event he).2
  obtain ⟨q', z', h'⟩ := hsound'
  have ht0 := Heap.ne_zero hx
  obtain ⟨-, hti, hgone⟩ := h'.base.gone t rfl
  have hat : At s' q' z' t .gone := fun y hy => hgone _ _ (role_of_cell hy)
  refine ⟨(h'.not_scheduled rfl).resolve_right ht0, q', z', h'.placed, hat, fun htq => ?_⟩
  obtain ⟨y, hy⟩ := cell_of_role (h'.base.live t (.inl htq))
  have hqueued : At s' q' z' t .runQueue := htq
  have hrunnable := h'.state_of_at hy hti hqueued
  exact ThreadState.noConfusion ((hat y hy).symm.trans hrunnable)

/-- A thread of a process runs and sleeps, and another one runs. -/
def slept : Scheduler :=
  schedStep (.sleep 5) (schedStep .yield (schedStep (.add false) (schedStep (.add true) schedInit)))

theorem threads_placed_slept :
    (∃ q z, Placed slept q z) ∧ slept.current = 3 ∧ slept.sleepQueue = 2 := by
  have hpossible : ∀ e s, e ≠ Event.exit → Possible e s := fun e s hne he => absurd he hne
  have hrun : Reach schedStep Possible schedInit slept :=
    .step (.sleep 5) (.step .yield (.step (.add false) (.step (.add true) .start
      (hpossible _ _ (by simp))) (hpossible _ _ (by simp))) (hpossible _ _ (by simp)))
      (hpossible _ _ (by simp))
  exact ⟨(threads_placed hrun).1, by decide +kernel, by decide +kernel⟩

/-! ## Turns -/

/-- `s'` comes from `s` by events of which `k` are switches. -/
inductive Switched (s : Scheduler) : Nat → Scheduler → Prop where
  | start : Switched s 0 s
  | other {k : Nat} {s' : Scheduler} (e : Event) : Switched s k s' → Possible e s' →
    ¬ Switches e s' → Switched s k (schedStep e s')
  | switch {k : Nat} {s' : Scheduler} (e : Event) : Switched s k s' → Possible e s' →
    Switches e s' → Switched s (k + 1) (schedStep e s')

theorem Sound.switched {k : Nat} {s' : Scheduler} (h : Sound gone s q z) (hk : Switched s k s')
    (hle : k ≤ q.length) : ∃ q' z', Sound gone s' q' z' ∧ q.drop k <+: q' := by
  induction hk with
  | start => exact ⟨q, z, h, List.prefix_refl q⟩
  | other e _ he hs ih =>
    obtain ⟨q₁, z₁, h₁, hq⟩ := ih hle
    obtain ⟨-, q', z', h', -, hkept⟩ := h₁.ordered he
    exact ⟨q', z', h', hq.trans (hkept hs)⟩
  | switch e _ he hs ih =>
    obtain ⟨_, z₁, h₁, r, rfl⟩ := ih (by omega)
    obtain ⟨-, q', z', h', hserves, -⟩ := h₁.ordered he
    rw [List.drop_eq_getElem_cons (by omega), List.cons_append] at hserves
    exact ⟨q', z', h', (List.prefix_append _ r).trans (hserves hs _ _ rfl).2⟩

/-- In every run a thread with `k` threads before it in the run queue gets the processor at the
switch after the next `k`. -/
theorem runQueue_inTurn (hrun : Reach schedStep Possible schedInit s) :
    ∃ q z, Placed s q z ∧ ∀ k t s' e, q[k]? = some t → Switched s k s' → Possible e s' →
      Switches e s' → (schedStep e s').current = t := by
  obtain ⟨q, z, h⟩ := hrun.invariant (fun s => ∃ q z, Sound (fun _ => False) s q z)
    ⟨[], [], sound_schedInit⟩ fun e s ⟨q, z, h⟩ he => (h.event he).2
  refine ⟨q, z, h.placed, fun k t s' e hk hsw he hs => ?_⟩
  obtain ⟨hlt, rfl⟩ := List.getElem?_eq_some_iff.mp hk
  obtain ⟨_, z₁, h₁, r, rfl⟩ := h.switched hsw hlt.le
  obtain ⟨-, _, _, -, hserves, -⟩ := h₁.ordered he
  rw [List.drop_eq_getElem_cons hlt, List.cons_append] at hserves
  exact (hserves hs _ _ rfl).1

/-- Two threads that have been added. -/
def bothReady : Scheduler := schedStep (.add false) (schedStep (.add false) schedInit)

theorem runQueue_inTurn_bothReady : (schedStep .yield (schedStep .yield bothReady)).current = 3 := by
  obtain ⟨q, z, hplaced, hturn⟩ := runQueue_inTurn (s := bothReady)
    (.step _ (.step _ .start fun h => by cases h) fun h => by cases h)
  have hq : [2, 3] = q := hplaced.fifo
  exact hturn 1 3 _ .yield (by rw [← hq]; rfl)
    (.switch .yield .start (fun h => by cases h) trivial) (fun h => by cases h) trivial

end CfKernel.Sched
