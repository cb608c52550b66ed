import CfKernel.Lib.Path
import CfKernel.Sched.Scheduler

/-!
# The queues and the states of threads

`Base gone s q z` holds at every point between two calls and inside them: the links of the run queue
go through `q` and those of the sleep queue through `z`, a thread is in the run queue exactly when
it is runnable and in the sleep queue exactly when it sleeps, and whatever thread runs is the
current one. The threads in `gone` are zombies or freed.
-/

namespace CfKernel.Sched

open Lib Lib.Eff Function

def NextSleep (cell : Nat → Option Thread) (a b : Nat) : Prop :=
  ∃ x, cell a = some x ∧ x.nextSleep = b

/-- The state and the process of a thread that is there. -/
def Scheduler.role (s : Scheduler) (t : Nat) : Option (ThreadState × Nat) :=
  (s.threads.cell t).map fun x => (x.state, x.proc)

structure Base (gone : Nat → Prop) (s : Scheduler) (q z : List Nat) : Prop where
  ring : s.links.Ring .runQueue (q.map .thread)
  sleepers : Path (NextSleep s.threads.cell) s.sleepQueue z 0
  idle : ∃ state p, s.role s.idleThread = some (state, p) ∧ state ≠ .zombie
  live : ∀ t, t ∈ q ∨ t ∈ z ∨ t = s.current ∧ t ≠ 0 → s.role t ≠ none
  idleOut : s.idleThread ∉ q ∧ s.idleThread ∉ z
  place : ∀ t state p, s.role t = some (state, p) → t ≠ s.idleThread →
    (state = .running → s.current = t) ∧ (state = .runnable ↔ t ∈ q) ∧ (state = .sleeping ↔ t ∈ z)
  unlinked : ∀ t, s.role t ≠ none → t ≠ s.idleThread → t ∉ q → s.links.next (.thread t) = none
  owner : ∀ t state p, s.role t = some (state, p) → p ≠ 0 →
    ∃ y, s.procs.cell p = some y ∧ y.thread = t
  proc : ∀ p y, s.procs.cell p = some y → ∃ state, s.role y.thread = some (state, p) ∧
    y.thread ≠ s.idleThread ∧ (y.alive = false → state = .zombie)
  fifo : s.enqueued = s.dispatched ++ q
  gone : ∀ t, gone t → t < s.threads.next ∧ t ≠ s.idleThread ∧
    ∀ state p, s.role t = some (state, p) → state = .zombie

variable {gone : Nat → Prop} {s s' : Scheduler} {q q' z z' : List Nat} {t p : Nat}
variable {state state' : ThreadState} {x : Thread}

section Roles

theorem cell_of_role (h : s.role t ≠ none) : ∃ x, s.threads.cell t = some x := by
  rw [Scheduler.role, Ne, Option.map_eq_none_iff] at h
  exact Option.ne_none_iff_exists'.mp h

theorem role_of_cell (h : s.threads.cell t = some x) : s.role t = some (x.state, x.proc) := by
  rw [Scheduler.role, h, Option.map_some]

theorem role_ne_none (h : s.role t = some (state, p)) : s.role t ≠ none := by
  rw [h]
  exact Option.some_ne_none _

theorem valid_of_role (h : s.role t ≠ none) : s.valid (.thread t) = true := by
  obtain ⟨x, hx⟩ := cell_of_role h
  rw [Scheduler.valid, hx, Option.isSome_some]

theorem role_update {v : Scheduler} {c : Option Thread}
    (h : v.threads.cell = update s.threads.cell t c) :
    v.role = update s.role t (c.map fun x => (x.state, x.proc)) := by
  funext u
  rw [Scheduler.role, h]
  by_cases hu : u = t
  · rw [hu, update_self, update_self]
  · rw [update_of_ne hu, update_of_ne hu, Scheduler.role]

theorem role_edit (s' : Scheduler) (hx : s.threads.cell t = some x) (f : Thread → Thread)
    (hs : s'.threads = s.threads.edit t f) :
    s'.role = update s.role t (some ((f x).state, (f x).proc)) :=
  role_update (c := some (f x)) (by rw [hs, Heap.cell_edit hx])

end Roles

section Runs

variable {a y n : LinkRef}

section

variable (h : s.valid y = true)
include h

theorem deref_run : deref (some y) s = (.ok y, s) := by
  simp only [deref, Eff.read, h, if_true]

theorem linkNext_run : linkNext y s = (.ok (s.links.next y), s) := by
  rw [linkNext, bind_ok (deref_run h)]
  rfl

theorem linkPrev_run : linkPrev y s = (.ok (s.links.prev y), s) := by
  rw [linkPrev, bind_ok (deref_run h)]
  rfl

theorem linkInit_run : linkInit y s = (.ok (), { s with links := s.links.alone y }) := by
  rw [linkInit, bind_ok (deref_run h), modify_run]

end

theorem linkBefore_run {r : LinkRef} (ha : s.valid a = true) (hr : s.links.prev a = some r)
    (hr' : s.valid r = true) (hy : s.valid y = true) :
    linkBefore a y s = (.ok (), { s with links := s.links.insert r y a }) := by
  rw [linkBefore, bind_ok (linkPrev_run ha), hr, bind_ok (deref_run hr'),
    bind_ok (deref_run hy), modify_run]

theorem linkRemove_run {r : LinkRef} (hy : s.valid y = true) (hr : s.links.prev y = some r)
    (hr' : s.valid r = true) (hn : s.links.next y = some n) (hn' : s.valid n = true) :
    linkRemove y s = (.ok (), { s with links := s.links.remove r y n }) := by
  rw [linkRemove, bind_ok (linkPrev_run hy), hr, bind_ok (linkNext_run hy),
    hn, bind_ok (deref_run hn'), bind_ok (deref_run hr'), modify_run]

theorem setState_run (hx : s.threads.cell t = some x) (state : ThreadState) :
    setState t state s =
      (.ok (), { s with threads := s.threads.edit t fun x => { x with state } }) :=
  Field.store_run (l := threads) hx _

theorem valid_of_mem (hlive : ∀ t ∈ q, s.role t ≠ none)
    (hy : y ∈ LinkRef.runQueue :: q.map LinkRef.thread) : s.valid y = true := by
  rcases List.mem_cons.mp hy with rfl | hy
  · rfl
  · obtain ⟨t, ht, rfl⟩ := List.mem_map.mp hy
    exact valid_of_role (hlive t ht)

theorem thread_not_mem (ht : t ∉ q) :
    LinkRef.thread t ∉ LinkRef.runQueue :: q.map LinkRef.thread := by
  intro hmem
  rcases List.mem_cons.mp hmem with hmem | hmem
  · cases hmem
  · obtain ⟨u, hu, heq⟩ := List.mem_map.mp hmem
    cases heq
    exact ht hu

theorem runqueueAdd_run (hring : s.links.Ring .runQueue (q.map .thread))
    (hlive : ∀ t ∈ q, s.role t ≠ none) (hx : s.threads.cell t = some x) (ht : t ≠ s.idleThread)
    (htq : t ∉ q)
    (hnext : s.links.next (.thread t) = none ∨ s.links.next (.thread t) = some (.thread t)) :
    ∃ L : Links LinkRef, runqueueAdd t s = (.ok (), { s with
        links := L
        threads := s.threads.edit t fun x => { x with state := .runnable }
        enqueued := s.enqueued ++ [t] }) ∧
      L.Ring .runQueue ((q ++ [t]).map .thread) ∧
      ∀ u, u ∉ q → u ≠ t → L.next (.thread u) = s.links.next (.thread u) := by
  have hvalid : s.valid (.thread t) = true := valid_of_role (role_ne_none (role_of_cell hx))
  -- The link is made ready first, which nothing else sees.
  obtain ⟨L₀, hinit, hring₀, hother₀⟩ : ∃ L₀ : Links LinkRef,
      readyLink t (s.links.next (.thread t)) s = (.ok (), { s with links := L₀ }) ∧
      L₀.Ring .runQueue (q.map .thread) ∧
      ∀ u, u ≠ t → L₀.next (.thread u) = s.links.next (.thread u) := by
    by_cases hnone : s.links.next (.thread t) = none
    · refine ⟨s.links.alone (.thread t), ?_, ?_, ?_⟩
      · rw [readyLink, if_pos hnone, linkInit_run hvalid]
      · have hne : ∀ y ∈ LinkRef.runQueue :: q.map LinkRef.thread, y ≠ .thread t := by
          rintro y hy rfl
          exact thread_not_mem htq hy
        exact hring.congr (fun y hy => update_of_ne (hne y hy) _ _)
          fun y hy => update_of_ne (hne y hy) _ _
      · exact fun u hu => update_of_ne (fun h => hu (LinkRef.thread.inj h)) _ _
    · exact ⟨s.links, by rw [readyLink, if_neg hnone]; rfl, hring, fun _ _ => rfl⟩
  obtain ⟨r, hr, hprev, hring'⟩ := hring₀.insert (thread_not_mem htq)
  refine ⟨L₀.insert r (.thread t) .runQueue, ?_, by rwa [List.map_append], ?_⟩
  · have hx₀ : (Scheduler.threads { s with links := L₀ }).cell t = some x := hx
    have hnot : ¬ (s.links.next (.thread t) ≠ none ∧
        s.links.next (.thread t) ≠ some (.thread t)) := by
      rintro ⟨h, h'⟩
      exact hnext.elim h h'
    have hrole := role_edit ({ s with
      links := L₀, threads := s.threads.edit t fun x => { x with state := .runnable } }) hx
      (fun x => { x with state := .runnable }) rfl
    have hlive' : ∀ u ∈ q, Scheduler.role { s with
        links := L₀, threads := s.threads.edit t fun x => { x with state := .runnable } } u ≠
        none := by
      intro u hu
      have hut : u ≠ t := fun h => htq (h ▸ hu)
      rw [hrole, update_of_ne hut]
      exact hlive u hu
    have ht' : Scheduler.role { s with
        links := L₀, threads := s.threads.edit t fun x => { x with state := .runnable } } t ≠
        none := by
      rw [hrole, update_self]
      exact Option.some_ne_none _
    rw [runqueueAdd, bind_run, Eff.read, andThen_ok, if_neg (not_or.mpr ⟨Heap.ne_zero hx, ht⟩),
      bind_ok (linkNext_run hvalid), if_neg hnot, bind_ok hinit, bind_run, setState_run hx₀,
      andThen_ok, bind_ok (linkBefore_run rfl hprev (valid_of_mem hlive' hr) (valid_of_role ht')),
      modify_run]
  · intro u hu hut
    have hur : LinkRef.thread u ≠ r := by
      rintro rfl
      exact thread_not_mem hu hr
    refine (update_of_ne hur _ _).trans ((update_of_ne ?_ _ _).trans
      (hother₀ u hut))
    exact fun h => hut (LinkRef.thread.inj h)

theorem runqueueNext_nil (hring : s.links.Ring .runQueue []) :
    runqueueNext s = (.ok s.idleThread, s) := by
  rw [runqueueNext, bind_ok (linkNext_run rfl), hring.next_nil, if_neg (not_not.mpr rfl)]
  rfl

theorem runqueueNext_cons (hring : s.links.Ring .runQueue ((t :: q).map .thread))
    (hlive : ∀ u ∈ t :: q, s.role u ≠ none) :
    ∃ L : Links LinkRef, runqueueNext s = (.ok t, { s with
        links := L
        dispatched := s.dispatched ++ [t] }) ∧
      L.Ring .runQueue (q.map .thread) ∧ L.next (.thread t) = none ∧
      ∀ u, u ≠ t → L.next (.thread u) = s.links.next (.thread u) := by
  rw [List.map_cons] at hring
  have hfirst : s.links.Ring .runQueue ([] ++ LinkRef.thread t :: q.map LinkRef.thread) := hring
  have hvalid : s.valid (.thread t) = true := valid_of_role (hlive t List.mem_cons_self)
  obtain ⟨p, hp, n, hn, hprev, hnext, hring'⟩ := hfirst.remove
  obtain rfl := List.mem_singleton.mp hp
  refine ⟨s.links.remove .runQueue (.thread t) n, ?_, hring', update_self _ _ _, ?_⟩
  · have hn' : s.valid n = true :=
      valid_of_mem (fun u hu => hlive u (List.mem_cons_of_mem t hu)) hn
    rw [runqueueNext, bind_ok (linkNext_run rfl), hring.next_cons, if_pos (by simp),
      bind_ok (deref_run hvalid), bind_run, linkData, pure_run, andThen_ok,
      bind_ok (linkRemove_run hvalid hprev rfl hnext hn'), bind_run, modify_run, andThen_ok,
      pure_run]
  · intro u hu
    have hut : LinkRef.thread u ≠ LinkRef.thread t := fun h => hu (LinkRef.thread.inj h)
    have hhead : LinkRef.thread u ≠ LinkRef.runQueue := by simp
    exact (update_of_ne hut _ _).trans (update_of_ne hhead _ _)

end Runs

section Change

/-- The processes stay, and one ends only with the thread `t`, which becomes a zombie. -/
structure ProcsKept (t : Nat) (state : ThreadState) (s s' : Scheduler) : Prop where
  back : ∀ r y', s'.procs.cell r = some y' → ∃ y, s.procs.cell r = some y ∧
    y'.thread = y.thread ∧ (y'.alive = false → y.alive = false ∨ y.thread = t ∧ state = .zombie)
  forth : ∀ r y, s.procs.cell r = some y → ∃ y', s'.procs.cell r = some y' ∧ y'.thread = y.thread

theorem procsKept_of_eq (h : s'.procs = s.procs) : ProcsKept t state s s' := by
  constructor
  · intro r y' hy'
    rw [h] at hy'
    exact ⟨y', hy', rfl, .inl⟩
  · intro r y hy
    rw [← h] at hy
    exact ⟨y, hy, rfl⟩

/-- The role of one thread changes, and its places in the queues; the others keep theirs. -/
theorem Base.edit {role : Option (ThreadState × Nat)} (h : Base gone s q z)
    (hrole : s'.role = update s.role t role)
    (hring : s'.links.Ring .runQueue (q'.map .thread))
    (hlink : role ≠ none → t ≠ s.idleThread → t ∉ q' → s'.links.next (.thread t) = none)
    (hsleepers : Path (NextSleep s'.threads.cell) s'.sleepQueue z' 0)
    (hlive : t ∈ q' ∨ t ∈ z' ∨ t = s'.current ∧ t ≠ 0 → role ≠ none)
    (hrunning : ∀ u r, u ≠ t → s.role u = some (.running, r) → u ≠ s.idleThread → s'.current = u)
    (hplace : ∀ state p, role = some (state, p) → t ≠ s.idleThread →
      (state = .running → s'.current = t) ∧ (state = .runnable ↔ t ∈ q') ∧
        (state = .sleeping ↔ t ∈ z'))
    (hout : t = s.idleThread → t ∉ q' ∧ t ∉ z' ∧ ∃ state p, role = some (state, p) ∧ state ≠ .zombie)
    (howner : ∀ u state p, s'.role u = some (state, p) → p ≠ 0 →
      ∃ y, s'.procs.cell p = some y ∧ y.thread = u)
    (hproc : ∀ p y, s'.procs.cell p = some y → ∃ state, s'.role y.thread = some (state, p) ∧
      y.thread ≠ s.idleThread ∧ (y.alive = false → state = .zombie))
    (hgone : gone t → ∀ state p, role = some (state, p) → state = .zombie)
    (hfifo : s'.enqueued = s'.dispatched ++ q')
    (hlinks : ∀ u, u ≠ t → u ∉ q → s'.links.next (.thread u) = s.links.next (.thread u) := by
      exact fun _ _ _ => rfl)
    (hsize : s.threads.next ≤ s'.threads.next := by exact le_rfl)
    (hidle : s'.idleThread = s.idleThread := by rfl)
    (hq : ∀ u, u ≠ t → (u ∈ q' ↔ u ∈ q) := by simp +contextual)
    (hz : ∀ u, u ≠ t → (u ∈ z' ↔ u ∈ z) := by simp +contextual)
    (hcurrent : s'.current = s.current ∨ s'.current = t := by
      first | exact .inl rfl | exact .inr rfl) : Base gone s' q' z' := by
  have hself : s'.role t = role := by rw [hrole, update_self]
  have hother : ∀ u, u ≠ t → s'.role u = s.role u := fun u hu => by
    rw [hrole, update_of_ne hu]
  constructor
  case ring => exact hring
  case sleepers => exact hsleepers
  case idle =>
    rw [hidle]
    by_cases hit : s.idleThread = t
    · rw [hit, hself]
      exact (hout hit.symm).2.2
    · rw [hother _ hit]
      exact h.idle
  case live =>
    intro u hu
    by_cases hut : u = t
    · subst hut
      rw [hself]
      exact hlive hu
    rw [hother u hut]
    apply h.live
    rw [hq u hut, hz u hut] at hu
    rcases hu with hu | hu | ⟨rfl, hu⟩
    · exact .inl hu
    · exact .inr (.inl hu)
    · exact .inr (.inr ⟨hcurrent.resolve_right hut, hu⟩)
  case idleOut =>
    rw [hidle]
    by_cases hit : s.idleThread = t
    · obtain ⟨hiq, hiz, -⟩ := hout hit.symm
      rw [hit]
      exact ⟨hiq, hiz⟩
    · rw [hq _ hit, hz _ hit]
      exact h.idleOut
  case place =>
    intro u state r hu hui
    rw [hidle] at hui
    by_cases hut : u = t
    · subst hut
      exact hplace state r (hself.symm.trans hu) hui
    · rw [hother u hut] at hu
      obtain ⟨hrun, hrunnable, hsleep⟩ := h.place u state r hu hui
      refine ⟨?_, hrunnable.trans (hq u hut).symm, hsleep.trans (hz u hut).symm⟩
      rintro rfl
      exact hrunning u r hut hu hui
  case unlinked =>
    intro u hu hui huq
    rw [hidle] at hui
    by_cases hut : u = t
    · subst hut
      exact hlink (hself ▸ hu) hui huq
    · rw [hother u hut] at hu
      rw [hq u hut] at huq
      exact (hlinks u hut huq).trans (h.unlinked u hu hui huq)
  case owner => exact howner
  case proc =>
    rw [hidle]
    exact hproc
  case fifo => exact hfifo
  case gone =>
    intro u hu
    obtain ⟨hlt, hui, hold⟩ := h.gone u hu
    rw [hidle]
    refine ⟨hlt.trans_le hsize, hui, fun state r hr => ?_⟩
    by_cases hut : u = t
    · subst hut
      exact hgone hu state r (hself.symm.trans hr)
    · exact hold state r ((hother u hut).symm.trans hr)

theorem Base.stillRunning (h : Base gone s q z) (u r : Nat) (_ : u ≠ t)
    (hu : s.role u = some (.running, r)) (hui : u ≠ s.idleThread) : s.current = u :=
  (h.place u _ r hu hui).1 rfl

theorem Base.change (h : Base gone s q z) (hold : s.role t = some (state, p))
    (hrole : s'.role = update s.role t (some (state', p)))
    (hring : s'.links.Ring .runQueue (q'.map .thread))
    (hlink : t ≠ s.idleThread → t ∉ q' → s'.links.next (.thread t) = none)
    (hsleepers : Path (NextSleep s'.threads.cell) s'.sleepQueue z' 0)
    (hrunning : ∀ u r, u ≠ t → s.role u = some (.running, r) → u ≠ s.idleThread → s'.current = u)
    (hplace : t ≠ s.idleThread → (state' = .running → s'.current = t) ∧
      (state' = .runnable ↔ t ∈ q') ∧ (state' = .sleeping ↔ t ∈ z'))
    (hout : t = s.idleThread → t ∉ q' ∧ t ∉ z' ∧ state' ≠ .zombie)
    (hzombie : state = .zombie → state' = .zombie) (hfifo : s'.enqueued = s'.dispatched ++ q')
    (hlinks : ∀ u, u ≠ t → u ∉ q → s'.links.next (.thread u) = s.links.next (.thread u) := by
      exact fun _ _ _ => rfl)
    (hprocs : ProcsKept t state' s s' := by exact procsKept_of_eq rfl)
    (hsize : s.threads.next ≤ s'.threads.next := by exact le_rfl)
    (hidle : s'.idleThread = s.idleThread := by rfl)
    (hq : ∀ u, u ≠ t → (u ∈ q' ↔ u ∈ q) := by simp +contextual)
    (hz : ∀ u, u ≠ t → (u ∈ z' ↔ u ∈ z) := by simp +contextual)
    (hcurrent : s'.current = s.current ∨ s'.current = t := by
      first | exact .inl rfl | exact .inr rfl) : Base gone s' q' z' := by
  have hself : s'.role t = some (state', p) := by rw [hrole, update_self]
  have hother : ∀ u, u ≠ t → s'.role u = s.role u := fun u hu => by
    rw [hrole, update_of_ne hu]
  refine h.edit hrole hring (fun _ => hlink) hsleepers (fun _ => Option.some_ne_none _) hrunning
    ?place ?out ?owner ?proc ?gone hfifo hlinks hsize hidle hq hz hcurrent
  case place =>
    rintro _ _ ⟨⟩
    exact hplace
  case out =>
    intro hti
    obtain ⟨htq, htz, hne⟩ := hout hti
    exact ⟨htq, htz, _, _, rfl, hne⟩
  case owner =>
    intro u state'' r hu hr
    obtain ⟨state, hu⟩ : ∃ state, s.role u = some (state, r) := by
      by_cases hut : u = t
      · subst hut
        cases hself.symm.trans hu
        exact ⟨state, hold⟩
      · exact ⟨state'', (hother u hut).symm.trans hu⟩
    obtain ⟨y, hy, rfl⟩ := h.owner u state r hu hr
    obtain ⟨y', hy', heq⟩ := hprocs.forth r y hy
    exact ⟨y', hy', heq⟩
  case proc =>
    intro r y' hy'
    obtain ⟨y, hy, heq, halive⟩ := hprocs.back r y' hy'
    obtain ⟨state'', hr, hyi, hdead⟩ := h.proc r y hy
    rw [heq]
    by_cases hyt : y.thread = t
    · rw [hyt] at hr hyi ⊢
      cases hold.symm.trans hr
      refine ⟨state', hself, hyi, fun hy' => ?_⟩
      rcases halive hy' with hy' | ⟨-, hz⟩
      · exact hzombie (hdead hy')
      · exact hz
    · refine ⟨state'', (hother _ hyt).trans hr, hyi, fun hy' => ?_⟩
      rcases halive hy' with hy' | ⟨hyt', -⟩
      · exact hdead hy'
      · exact absurd hyt' hyt
  case gone =>
    rintro ht _ _ ⟨⟩
    exact hzombie ((h.gone t ht).2.2 state p hold)

theorem Base.congr (h : Base gone s q z) (hthreads : s'.threads = s.threads)
    (hlinks : s'.links = s.links) (hprocs : s'.procs = s.procs) (hcurrent : s'.current = s.current)
    (hidle : s'.idleThread = s.idleThread) (hsleep : s'.sleepQueue = s.sleepQueue)
    (henq : s'.enqueued = s.enqueued) (hdis : s'.dispatched = s.dispatched) : Base gone s' q z := by
  obtain ⟨_, _, _, _, _, _, _, _, _, _⟩ := s
  obtain ⟨_, _, _, _, _, _, _, _, _, _⟩ := s'
  subst hthreads hlinks hprocs hcurrent hidle hsleep henq hdis
  exact ⟨h.1, h.2, h.3, h.4, h.5, h.6, h.7, h.8, h.9, h.10, h.11⟩

end Change

end CfKernel.Sched
