import CfKernel.Sched.Queues

/-!
# Scheduler calls

Between two calls the current thread runs, unless it is the idle thread or there is none yet. Each
call keeps this and touches no thread that was freed.
-/

namespace CfKernel.Sched

open Lib Lib.Eff Function

structure Sound (gone : Nat → Prop) (s : Scheduler) (q z : List Nat) : Prop where
  base : Base gone s q z
  running : s.current ≠ 0 → s.current ≠ s.idleThread → ∃ p, s.role s.current = some (.running, p)

variable {gone : Nat → Prop} {s s' : Scheduler} {q q' z z' : List Nat} {t p : Nat}
variable {state state' : ThreadState} {x : Thread}

section Parts

theorem loadThread (h : s.threads.cell t = some x) : (threads.load t : SchedM _) s = (.ok x, s) :=
  Field.load_run (l := threads) h

theorem storeThread (h : s.threads.cell t = some x) (f : Thread → Thread) :
    (threads.store t f : SchedM Unit) s = (.ok (), { s with threads := s.threads.edit t f }) :=
  Field.store_run (l := threads) h f

theorem Base.queueNodup (h : Base gone s q z) : q.Nodup :=
  (List.nodup_map_iff fun _ _ => LinkRef.thread.inj).mp (List.nodup_cons.mp h.ring.nodup).2

theorem nextSleep_functional (cell : Nat → Option Thread) (a b b' : Nat)
    (h : NextSleep cell a b) (h' : NextSleep cell a b') : b = b' := by
  obtain ⟨x, hx, rfl⟩ := h
  obtain ⟨x', hx', rfl⟩ := h'
  rw [Option.some.inj (hx.symm.trans hx')]

theorem not_nextSleep_zero (s : Scheduler) (b : Nat) : ¬ NextSleep s.threads.cell 0 b := by
  rintro ⟨x, hx, -⟩
  exact Heap.ne_zero hx rfl

theorem Base.sleepersNodup (h : Base gone s q z) : z.Nodup :=
  h.sleepers.nodup (nextSleep_functional _) (not_nextSleep_zero s)

theorem sleepers_edit {H : Heap Thread} {a b : Nat} {l : List Nat} (f : Thread → Thread)
    (h : Path (NextSleep H.cell) a l b) (hf : t ∉ l ∨ ∀ x, (f x).nextSleep = x.nextSleep) :
    Path (NextSleep (H.edit t f).cell) a l b := by
  apply h.congr
  rintro u hu n ⟨x, hx, rfl⟩
  by_cases hut : u = t
  · subst hut
    exact ⟨f x, by rw [Heap.cell_edit hx, update_self],
      hf.resolve_left (not_not.mpr hu) x⟩
  · refine ⟨x, ?_, rfl⟩
    change update H.cell t ((H.cell t).map f) u = some x
    rw [update_of_ne hut, hx]

theorem Base.role_ne_zero (hrole : s.role t ≠ none) : t ≠ 0 := by
  obtain ⟨x, hx⟩ := cell_of_role hrole
  exact Heap.ne_zero hx

end Parts

section Yield

/-- The first thread of the queue `q` runs now, and the others have kept their order. -/
def Serves (q : List Nat) (s' : Scheduler) (q' : List Nat) : Prop :=
  ∀ t r, q = t :: r → s'.current = t ∧ r <+: q'

/-- No thread but the idle one has the state of a running thread. -/
def NoneRunning (s : Scheduler) : Prop := ∀ t p, s.role t = some (.running, p) → t = s.idleThread

theorem Base.requeueCurrent_run (h : Base gone s q z)
    (hc : s.current ≠ 0 → s.current ≠ s.idleThread → ∀ p, s.role s.current ≠ some (.runnable, p)) :
    ∃ s₁ q₁, requeueCurrent s.current s = (.ok (), s₁) ∧ Base gone s₁ q₁ z ∧
      s₁.current = s.current ∧ q <+: q₁ ∧ NoneRunning s₁ := by
  by_cases hcur : s.current ≠ 0 ∧ s.current ≠ s.idleThread
  · obtain ⟨hne, hni⟩ := hcur
    have hrole := h.live s.current (.inr (.inr ⟨rfl, hne⟩))
    obtain ⟨x, hx⟩ := cell_of_role hrole
    rw [requeueCurrent, bind_run, Eff.read, andThen_ok, if_pos ⟨hne, hni⟩, bind_ok (loadThread hx)]
    obtain ⟨hrunning, hrunnable, hsleeping⟩ := h.place _ _ _ (role_of_cell hx) hni
    have hout : s.current ∉ q := fun hq =>
      hc hne hni x.proc (by rw [role_of_cell hx, hrunnable.mpr hq])
    by_cases hrun : x.state = .running
    · have hnext := h.unlinked _ hrole hni hout
      obtain ⟨L, hadd, hring, hlinks⟩ := runqueueAdd_run h.ring
        (fun t ht => h.live t (.inl ht)) hx hni hout (.inl hnext)
      rw [if_pos hrun, hadd]
      have hrole' := role_edit ({ s with
        links := L
        threads := s.threads.edit s.current fun x => { x with state := .runnable }
        enqueued := s.enqueued ++ [s.current] }) hx (fun x => { x with state := .runnable }) rfl
      refine ⟨_, q ++ [s.current], rfl, ?_, rfl, List.prefix_append .., ?_⟩
      · have hz : s.current ∉ z := fun hz => by
          rw [hsleeping.mpr hz] at hrun
          cases hrun
        refine h.change (role_of_cell hx) hrole' hring (fun _ hnot => absurd (by simp) hnot)
          (sleepers_edit _ h.sleepers (.inr fun _ => rfl)) h.stillRunning
          (fun _ => ⟨by simp, by simp, by simp [hz]⟩) (fun hidle => absurd hidle hni) ?zombie ?fifo
          fun u hu huq => hlinks u huq hu
        case zombie =>
          intro hzombie
          rw [hrun] at hzombie
          cases hzombie
        case fifo => rw [h.fifo, List.append_assoc]
      · intro t p ht
        rw [hrole'] at ht
        obtain ⟨-, ⟨⟩⟩ | ⟨htc, ht⟩ := update_at_iff.mp ht
        by_contra hti
        exact htc ((h.place t _ p ht hti).1 rfl).symm
    · rw [if_neg hrun]
      refine ⟨s, q, rfl, h, rfl, List.prefix_refl q, fun t p ht => ?_⟩
      by_contra hti
      have hcur := (h.place t _ p ht hti).1 rfl
      rw [← hcur, role_of_cell hx] at ht
      exact hrun (congrArg Prod.fst (Option.some.inj ht))
  · refine ⟨s, q, ?_, h, rfl, List.prefix_refl q, fun t p ht => ?_⟩
    · rw [requeueCurrent, bind_run, Eff.read, andThen_ok, if_neg hcur, pure_run]
    · by_contra hti
      have hct := (h.place t _ p ht hti).1 rfl
      exact hcur ⟨hct ▸ Base.role_ne_zero (role_ne_none ht), hct ▸ hti⟩

theorem finishYield_run (hx : s.threads.cell t = some x) :
    (if t = 0 ∨ t = s.current then
      if s.current ≠ 0 then setState s.current .running else pure ()
    else schedActivateThread t) s =
      (.ok (), { s with
        current := t
        threads := s.threads.edit t fun x => { x with state := .running } }) := by
  have ht := Heap.ne_zero hx
  by_cases hcur : t = s.current
  · subst hcur
    rw [if_pos (.inr rfl), if_pos ht, setState_run hx]
  · have hx' : (Scheduler.threads { s with current := t }).cell t = some x := hx
    rw [if_neg (not_or.mpr ⟨ht, hcur⟩), schedActivateThread, if_neg ht, bind_run, modify_run,
      andThen_ok, setState_run hx']

theorem Base.dispatch (h : Base gone s q z) (hnone : NoneRunning s) :
    ∃ s' q', (do
        let next ← runqueueNext
        if next = 0 ∨ next = s.current then
          if s.current ≠ 0 then setState s.current .running else pure ()
        else schedActivateThread next : SchedM Unit) s = (.ok (), s') ∧ Sound gone s' q' z ∧
      Serves q s' q' := by
  have hrunning : ∀ {c : Nat} u r, s.role u = some (.running, r) → u ≠ s.idleThread → c = u :=
    fun u r hu hui => absurd (hnone u r hu) hui
  cases q with
  | nil =>
    obtain ⟨state, p, hrole, hstate⟩ := h.idle
    obtain ⟨x, hx⟩ := cell_of_role (role_ne_none hrole)
    rw [bind_ok (runqueueNext_nil h.ring), finishYield_run hx]
    refine ⟨_, [], rfl, ⟨?_, fun _ hni => absurd rfl hni⟩, nofun⟩
    have hrole' := role_edit ({ s with
      current := s.idleThread
      threads := s.threads.edit s.idleThread fun x => { x with state := .running } }) hx
      (fun x => { x with state := .running }) rfl
    refine h.change (role_of_cell hx) hrole' h.ring (fun hni => absurd rfl hni)
      (sleepers_edit _ h.sleepers (.inr fun _ => rfl)) (fun u r _ hu hui => hrunning u r hu hui)
      (fun hni => absurd rfl hni) (fun _ => ⟨h.idleOut.1, h.idleOut.2, by simp⟩) ?_ h.fifo
    rw [role_of_cell hx] at hrole
    cases hrole
    exact fun hz => absurd hz hstate
  | cons t q =>
    have hlive : ∀ u ∈ t :: q, s.role u ≠ none := fun u hu => h.live u (.inl hu)
    obtain ⟨x, hx⟩ := cell_of_role (hlive t List.mem_cons_self)
    obtain ⟨L, hnext, hring, hlink, hlinks⟩ := runqueueNext_cons h.ring hlive
    have hx' : (Scheduler.threads { s with
      links := L, dispatched := s.dispatched ++ [t] }).cell t = some x := hx
    rw [bind_ok hnext, finishYield_run hx']
    have hti : t ≠ s.idleThread := fun hti => h.idleOut.1 (hti ▸ List.mem_cons_self)
    obtain ⟨-, hrunnable, hsleeping⟩ := h.place _ _ _ (role_of_cell hx) hti
    have hstate := hrunnable.mpr List.mem_cons_self
    have htq : t ∉ q := (List.nodup_cons.mp h.queueNodup).1
    have hrole' := role_edit ({ s with
      links := L
      dispatched := s.dispatched ++ [t]
      current := t
      threads := s.threads.edit t fun x => { x with state := .running } }) hx
      (fun x => { x with state := .running }) rfl
    refine ⟨_, q, rfl, ⟨?_, fun _ _ => ⟨x.proc, by rw [hrole', update_self]⟩⟩, ?_⟩
    rotate_left
    · rintro _ _ ⟨⟩
      exact ⟨rfl, List.prefix_refl q⟩
    have hz : t ∉ z := fun hz => by
      rw [hsleeping.mpr hz] at hstate
      cases hstate
    refine h.change (role_of_cell hx) hrole' hring (fun _ _ => hlink)
      (sleepers_edit _ h.sleepers (.inr fun _ => rfl)) (fun u r _ hu hui => hrunning u r hu hui)
      (fun _ => ⟨fun _ => rfl, by simp [htq], by simp [hz]⟩) (fun hidle => absurd hidle hti) ?zombie
      ?fifo fun u hu _ => hlinks u hu
    case zombie =>
      intro hz
      rw [hstate] at hz
      cases hz
    case fifo => rw [h.fifo, List.append_assoc, List.singleton_append]

theorem Base.yield (h : Base gone s q z)
    (hc : s.current ≠ 0 → s.current ≠ s.idleThread → ∀ p, s.role s.current ≠ some (.runnable, p)) :
    ∃ s' q', kschedYield s = (.ok (), s') ∧ Sound gone s' q' z ∧ Serves q s' q' := by
  obtain ⟨s₁, _, hrequeue, h₁, hcur, ⟨l, rfl⟩, hnone⟩ := h.requeueCurrent_run hc
  obtain ⟨s', q', hrun, hsound, hserves⟩ := h₁.dispatch hnone
  refine ⟨s', q', ?_, hsound, ?_⟩
  rotate_left
  · rintro t r rfl
    obtain ⟨ht, hr⟩ := hserves t (r ++ l) rfl
    exact ⟨ht, (List.prefix_append r l).trans hr⟩
  rw [hcur] at hrun
  rw [kschedYield, bind_run, Eff.read, andThen_ok, bind_ok hrequeue, hrun]

theorem Sound.notRunnable (h : Sound gone s q z) (hne : s.current ≠ 0)
    (hni : s.current ≠ s.idleThread) (p : Nat) : s.role s.current ≠ some (.runnable, p) := by
  obtain ⟨r, hr⟩ := h.running hne hni
  rw [hr]
  simp

theorem Sound.yield (h : Sound gone s q z) :
    ∃ s' q', kschedYield s = (.ok (), s') ∧ Sound gone s' q' z ∧ Serves q s' q' :=
  h.base.yield h.notRunnable

end Yield

section Stop

def Thread.asleep (x : Thread) (wakeupTick nextSleep : Nat) : Thread :=
  { x with state := .sleeping, wakeupTick, nextSleep }

/-- The state in which a thread that goes to sleep gives way. -/
def Scheduler.asleep (s : Scheduler) (ticks : Nat) : Scheduler :=
  { s with
    sleepQueue := s.current
    threads := s.threads.edit s.current fun x =>
      x.asleep ((s.pitTicks + if ticks = 0 then 1 else ticks) % 2 ^ 64) s.sleepQueue }

theorem asleep_cell (hx : s.threads.cell s.current = some x) (ticks : Nat) :
    (s.asleep ticks).threads.cell s.current =
      some (x.asleep ((s.pitTicks + if ticks = 0 then 1 else ticks) % 2 ^ 64) s.sleepQueue) := by
  change (s.threads.edit s.current _).cell s.current = _
  rw [Heap.cell_edit hx, update_self]

theorem schedSleep_run (hgo : ¬ (s.current = 0 ∨ s.current = s.idleThread))
    (hx : s.threads.cell s.current = some x) (ticks : Nat) :
    schedSleep ticks s = kschedYield (s.asleep ticks) := by
  rw [schedSleep, bind_run, Eff.read, andThen_ok, bind_run, Eff.read, andThen_ok, if_neg hgo,
    bind_run, Eff.read, andThen_ok, bind_run, Eff.read, andThen_ok, bind_run, storeThread hx,
    andThen_ok, bind_run, modify_run, andThen_ok]
  rfl

theorem Sound.sleep (h : Sound gone s q z) (ticks : Nat) :
    ∃ s' q' z', schedSleep ticks s = (.ok (), s') ∧ Sound gone s' q' z' ∧
      z' = (if s.current = 0 ∨ s.current = s.idleThread then z else s.current :: z) ∧
      if s.current = 0 ∨ s.current = s.idleThread then q <+: q' else Serves q s' q' := by
  by_cases hstop : s.current = 0 ∨ s.current = s.idleThread
  · refine ⟨s, q, z, ?_, h, by rw [if_pos hstop], by rw [if_pos hstop]⟩
    rw [schedSleep, bind_run, Eff.read, andThen_ok, bind_run, Eff.read, andThen_ok, if_pos hstop,
      pure_run]
  obtain ⟨hne, hni⟩ := not_or.mp hstop
  obtain ⟨p, hrole⟩ := h.running hne hni
  obtain ⟨x, hx⟩ := cell_of_role (role_ne_none hrole)
  obtain ⟨-, hrunnable, hsleeping⟩ := h.base.place _ _ _ hrole hni
  have hq : s.current ∉ q := fun hq => ThreadState.noConfusion (hrunnable.mpr hq)
  have hz : s.current ∉ z := fun hz => ThreadState.noConfusion (hsleeping.mpr hz)
  -- The current thread is the first of the sleep queue before it gives way.
  have hrole' : (s.asleep ticks).role = update s.role s.current (some (.sleeping, x.proc)) :=
    role_edit (s.asleep ticks) hx _ rfl
  have hbase : Base gone (s.asleep ticks) q (s.current :: z) := by
    refine h.base.change (role_of_cell hx) hrole' h.base.ring
      (fun _ hq => h.base.unlinked _ (role_ne_none hrole) hni hq)
      ⟨rfl, s.sleepQueue, ⟨_, asleep_cell hx ticks, rfl⟩,
        sleepers_edit _ h.base.sleepers (.inl hz)⟩
      h.base.stillRunning (fun _ => ⟨by simp, by simp [hq], by simp⟩)
      (fun hidle => absurd hidle hni) ?_ h.base.fifo
    rw [role_of_cell hx] at hrole
    have hstate : x.state = .running := congrArg Prod.fst (Option.some.inj hrole)
    intro hzombie
    exact ThreadState.noConfusion (hstate.symm.trans hzombie)
  have hnot : ∀ p, (s.asleep ticks).role s.current ≠ some (.runnable, p) := by
    intro p
    rw [hrole', update_self]
    simp
  obtain ⟨s', q', hyield, hsound, hserves⟩ := hbase.yield fun _ _ => hnot
  exact ⟨s', q', _, by rw [schedSleep_run hstop hx, hyield], hsound, by rw [if_neg hstop],
    by rwa [if_neg hstop]⟩

theorem Sound.markExit (h : Sound gone s q z) (hidle : s.current ≠ s.idleThread) :
    ∃ s₁, Sched.markExit s.current s = (.ok (), s₁) ∧ Base gone s₁ q z ∧
      s₁.current = s.current ∧ ∀ p, s₁.role s.current ≠ some (.runnable, p) := by
  by_cases hzero : s.current = 0
  · refine ⟨s, by rw [Sched.markExit, if_pos hzero, pure_run], h.base, rfl, fun p hp => ?_⟩
    exact Base.role_ne_zero (role_ne_none hp) hzero
  obtain ⟨p, hrole⟩ := h.running hzero hidle
  obtain ⟨x, hx⟩ := cell_of_role (role_ne_none hrole)
  obtain ⟨-, hrunnable, hsleeping⟩ := h.base.place _ _ _ hrole hidle
  have hq : s.current ∉ q := fun hq => ThreadState.noConfusion (hrunnable.mpr hq)
  have hz : s.current ∉ z := fun hz => ThreadState.noConfusion (hsleeping.mpr hz)
  obtain ⟨P, hend, hkept⟩ : ∃ P, endProcess x.proc s = (.ok (), { s with procs := P }) ∧
      ProcsKept s.current .zombie s { s with procs := P } := by
    by_cases hp : x.proc = 0
    · exact ⟨s.procs, by rw [endProcess, if_neg (not_not.mpr hp)]; rfl, procsKept_of_eq rfl⟩
    obtain ⟨y, hy, hthread⟩ := h.base.owner _ _ _ (role_of_cell hx) hp
    refine ⟨s.procs.edit x.proc fun y => { y with alive := false }, ?_, ?_, ?_⟩
    · rw [endProcess, if_pos hp]
      exact Field.store_run (l := procs) hy _
    · intro r y' hy'
      rw [Heap.cell_edit hy] at hy'
      rcases update_at_iff.mp hy' with ⟨rfl, ⟨⟩⟩ | ⟨-, hy'⟩
      · exact ⟨y, hy, rfl, fun _ => .inr ⟨hthread, rfl⟩⟩
      · exact ⟨y', hy', rfl, .inl⟩
    · intro r y' hy'
      rw [Heap.cell_edit hy]
      by_cases hr : r = x.proc
      · rw [hr, update_self]
        rw [hr, hy] at hy'
        cases hy'
        exact ⟨_, rfl, rfl⟩
      · rw [update_of_ne hr]
        exact ⟨y', hy', rfl⟩
  have hx₁ : (Scheduler.threads { s with procs := P }).cell s.current = some x := hx
  have hrole' := role_edit ({ s with
    procs := P, threads := s.threads.edit s.current fun x => { x with state := .zombie } }) hx
    (fun x => { x with state := .zombie }) rfl
  refine ⟨{ s with
    procs := P, threads := s.threads.edit s.current fun x => { x with state := .zombie } },
    ?_, ?_, rfl, ?_⟩
  · rw [Sched.markExit, if_neg hzero, bind_ok (loadThread hx), bind_ok hend, setState_run hx₁]
  · exact h.base.change (role_of_cell hx) hrole' h.base.ring
      (fun _ hq => h.base.unlinked _ (role_ne_none hrole) hidle hq)
      (sleepers_edit _ h.base.sleepers (.inr fun _ => rfl)) h.base.stillRunning
      (fun _ => ⟨by simp, by simp [hq], by simp [hz]⟩) (fun hi => absurd hi hidle) (fun _ => rfl)
      h.base.fifo (fun _ _ _ => rfl) ⟨hkept.back, hkept.forth⟩
  · intro r
    rw [hrole', update_self]
    simp

theorem Sound.exit (h : Sound gone s q z) (hidle : s.current ≠ s.idleThread) :
    ∃ s' q', threadExit s = (.ok (), s') ∧ Sound gone s' q' z ∧ Serves q s' q' := by
  obtain ⟨s₁, hmark, h₁, hcur, hnot⟩ := h.markExit hidle
  obtain ⟨s', q', hyield, hsound⟩ := h₁.yield fun _ _ p => by
    rw [hcur]
    exact hnot p
  refine ⟨s', q', ?_, hsound⟩
  rw [threadExit, bind_run, Eff.read, andThen_ok, bind_ok hmark, hyield]

end Stop

end CfKernel.Sched
