import CfKernel.Sched.Calls
import CfKernel.Sched.Dates

/-!
# Waking, creating and reaping threads

The loop over the sleep queue, a new thread on its way to the run queue, and a zombie that is freed
with its process.
-/

namespace CfKernel.Sched

open Lib Lib.Eff Function

variable {gone : Nat → Prop} {s s' : Scheduler} {q q' z z' : List Nat} {t p : Nat}
variable {x : Thread}

section Wake

theorem readSlot_run {pre : List Nat} {mid : Nat}
    (h : Path (NextSleep s.threads.cell) s.sleepQueue pre mid) :
    readSlot pre.getLast? s = (.ok mid, s) := by
  rcases List.eq_nil_or_concat pre with rfl | ⟨pre, b, rfl⟩
  · rw [← path_nil.mp h]
    rfl
  · rw [List.concat_eq_append] at h ⊢
    obtain ⟨c, -, rfl, n, ⟨x, hx, rfl⟩, rfl⟩ := path_append.mp h
    rw [List.getLast?_concat, readSlot, bind_ok (loadThread hx), pure_run]

theorem Base.writeSlot_run {pre post : List Nat} (h : Base gone s q (pre ++ t :: post))
    (hx : s.threads.cell t = some x) :
    ∃ a H, writeSlot x.nextSleep pre.getLast? s =
        (.ok (), { s with sleepQueue := a, threads := H }) ∧
      H.next = s.threads.next ∧ H.cell t = some x ∧
      (∀ u, (H.cell u).map (fun x => (x.state, x.proc)) = s.role u) ∧
      Path (NextSleep H.cell) a (pre ++ post) 0 := by
  have hnodup := h.sleepersNodup
  have hpath := h.sleepers
  rcases List.eq_nil_or_concat pre with rfl | ⟨pre, b, rfl⟩
  · obtain ⟨-, n, ⟨y, hy, rfl⟩, hrest⟩ := hpath
    cases hx.symm.trans hy
    exact ⟨x.nextSleep, s.threads, rfl, rfl, hx, fun _ => rfl, hrest⟩
  · rw [List.concat_eq_append, List.append_assoc, List.singleton_append] at hpath hnodup
    rw [List.concat_eq_append, List.append_assoc, List.singleton_append, List.getLast?_concat]
    obtain ⟨y, hy⟩ := cell_of_role (h.live b (.inr (.inl (by simp))))
    have htb : t ≠ b := by
      rintro rfl
      simp [List.nodup_append] at hnodup
    have hcell := Heap.cell_edit hy fun y => { y with nextSleep := x.nextSleep }
    refine ⟨s.sleepQueue, s.threads.edit b fun y => { y with nextSleep := x.nextSleep },
      storeThread hy _, rfl, by rw [hcell, update_of_ne htb, hx], ?_, ?_⟩
    · intro u
      rw [hcell]
      by_cases hub : u = b
      · rw [hub, update_self, role_of_cell hy, Option.map_some]
      · rw [update_of_ne hub, Scheduler.role]
    · have hkeep : ∀ u, u ≠ b → ∀ n, NextSleep s.threads.cell u n →
          NextSleep (s.threads.edit b fun y => { y with nextSleep := x.nextSleep }).cell u n := by
        rintro u hub n ⟨w, hw, rfl⟩
        exact ⟨w, by rw [hcell, update_of_ne hub, hw], rfl⟩
      rw [List.nodup_append] at hnodup
      obtain ⟨-, hright, hapart⟩ := hnodup
      apply hpath.unlink (y := x.nextSleep)
      · rintro n ⟨w, hw, rfl⟩
        rw [Option.some.inj (hx.symm.trans hw)]
      · exact ⟨{ y with nextSleep := x.nextSleep }, by rw [hcell, update_self], rfl⟩
      · exact fun u hu => hkeep u (hapart u hu b (by simp))
      · refine fun u hu => hkeep u ?_
        rintro rfl
        exact (List.nodup_cons.mp hright).1 (by simp [hu])

def Thread.awake (x : Thread) : Thread := { x with nextSleep := 0, wakeupTick := 0 }

theorem Sound.wakeThread_run {pre post : List Nat} (h : Sound gone s q (pre ++ t :: post))
    (hx : s.threads.cell t = some x) :
    ∃ s', wakeThread pre.getLast? t s = (.ok (), s') ∧ Sound gone s' (q ++ [t]) (pre ++ post) := by
  have hbase := h.base
  have hmem : t ∈ pre ++ t :: post := by simp
  have hti : t ≠ s.idleThread := fun hti => hbase.idleOut.2 (hti ▸ hmem)
  obtain ⟨-, hrunnable, hsleeping⟩ := hbase.place _ _ _ (role_of_cell hx) hti
  have hstate := hsleeping.mpr hmem
  have htq : t ∉ q := fun htq => ThreadState.noConfusion (hstate.symm.trans (hrunnable.mpr htq))
  have htz : t ∉ pre ++ post := by
    have hnodup := hbase.sleepersNodup
    rw [List.nodup_middle] at hnodup
    exact (List.nodup_cons.mp hnodup).1
  obtain ⟨a, H, hwrite, hsize, hHt, hHrole, hpath⟩ := hbase.writeSlot_run hx
  have hcell : (H.edit t Thread.awake).cell = update H.cell t (some x.awake) :=
    Heap.cell_edit hHt _
  have hx₂ : (H.edit t Thread.awake).cell t = some x.awake := by rw [hcell, update_self]
  have hrole₂ : Scheduler.role { s with sleepQueue := a, threads := H.edit t Thread.awake } =
      s.role := by
    refine (role_update (s := { s with threads := H }) hcell).trans (funext fun u => ?_)
    rw [← hHrole u]
    by_cases hut : u = t
    · rw [hut, update_self, hHt]
      rfl
    · rw [update_of_ne hut]
      rfl
  obtain ⟨L, hadd, hring, hlinks⟩ := runqueueAdd_run
    (s := { s with sleepQueue := a, threads := H.edit t Thread.awake }) hbase.ring
    (fun u hu => by rw [hrole₂]; exact hbase.live u (.inl hu)) hx₂ hti htq
    (.inl (hbase.unlinked t (role_ne_none (role_of_cell hx)) hti htq))
  have hrole' := role_edit
    (s := { s with sleepQueue := a, threads := H.edit t Thread.awake }) { s with
      sleepQueue := a
      links := L
      threads := (H.edit t Thread.awake).edit t fun x => { x with state := .runnable }
      enqueued := s.enqueued ++ [t] } hx₂ (fun x => { x with state := .runnable }) rfl
  rw [hrole₂] at hrole'
  have hrun : wakeThread pre.getLast? t s =
      runqueueAdd t { s with sleepQueue := a, threads := H.edit t Thread.awake } := by
    rw [wakeThread, bind_ok (loadThread hx), bind_ok hwrite, bind_ok (storeThread hHt _)]
    rfl
  refine ⟨_, hrun.trans hadd, ?_, fun hne hni => ?_⟩
  · exact hbase.change (role_of_cell hx) hrole' hring (fun _ hnot => absurd (by simp) hnot)
      (sleepers_edit _ (sleepers_edit _ hpath (.inl htz)) (.inl htz)) hbase.stillRunning
      (fun _ => ⟨by simp, by simp, by simpa using htz⟩) (fun hidle => absurd hidle hti)
      (fun hz => ThreadState.noConfusion (hstate.symm.trans hz))
      (by rw [hbase.fifo, List.append_assoc]) (fun u hu huq => hlinks u huq hu)
      (procsKept_of_eq rfl) hsize.ge
  · obtain ⟨r, hr⟩ := h.running hne hni
    have hct : s.current ≠ t := by
      intro hct
      rw [hct, role_of_cell hx, hstate] at hr
      cases hr
    exact ⟨r, by rw [hrole', update_of_ne hct, hr]⟩

theorem Base.lt_next (h : Base gone s q z) (ht : t ∈ z) : t < s.threads.next := by
  obtain ⟨x, hx⟩ := cell_of_role (h.live t (.inr (.inl ht)))
  exact Heap.lt_next hx

theorem Base.wakeAt_eq {E : Nat → Prop} (h : Base gone s q z) (h' : Base gone s' q' z')
    (hdated : Dated E s s') (hE : ¬ E t) (ht : t ∈ z) (ht' : t ∈ z') :
    s'.wakeAt t = s.wakeAt t := by
  obtain ⟨x', hx'⟩ := cell_of_role (h'.live t (.inr (.inl ht')))
  exact hdated.wakeAt (h.lt_next ht) hE hx'

/-- The loop passes `pre` and has `post` before it; of `post` the threads stay whose tick has not
come. -/
theorem Sound.wakeFrom_run {n : Nat} {pre post : List Nat} (h : Sound gone s q (pre ++ post))
    (hn : post.length < n) :
    ∃ s' q' z', wakeFrom n pre.getLast? s = (.ok (), s') ∧ Sound gone s' q' (pre ++ z') ∧
      q <+: q' ∧
      (∀ t, t ∈ z' ↔ t ∈ post ∧ s.pitTicks < s.wakeAt t) ∧
      Dated (fun t => t ∈ post ∧ s.wakeAt t ≤ s.pitTicks) s s' := by
  induction n generalizing s q pre post with
  | zero => exact absurd hn (Nat.not_lt_zero _)
  | succ n ih =>
    obtain ⟨mid, hpre, hpost⟩ := path_append.mp h.base.sleepers
    cases post with
    | nil =>
      refine ⟨s, q, [], ?_, h, List.prefix_refl q, by simp, Std.Refl.refl s⟩
      rw [wakeFrom, bind_ok (readSlot_run hpre), if_pos (path_nil.mp hpost), pure_run]
    | cons t post =>
      obtain ⟨rfl, -⟩ := hpost
      rw [List.length_cons] at hn
      obtain ⟨x, hx⟩ := cell_of_role (h.base.live mid (.inr (.inl (by simp))))
      have hwake : s.wakeAt mid = x.wakeupTick := Sched.wakeAt_eq hx
      rw [wakeFrom, bind_ok (readSlot_run hpre), if_neg (Heap.ne_zero hx),
        bind_ok (loadThread hx), bind_run, Eff.read, andThen_ok]
      by_cases hdue : x.wakeupTick ≤ s.pitTicks
      · obtain ⟨s₁, hrun, h₁⟩ := h.wakeThread_run hx
        have hdated : Dated (· = mid) s s₁ := by
          have := dated_wakeThread pre.getLast? mid s
          rwa [hrun] at this
        have hnodup := h.base.sleepersNodup
        have hmid : mid ∉ post :=
          (List.nodup_cons.mp (List.nodup_append.mp hnodup).2.1).1
        -- The threads behind it still wait for the same ticks.
        have hsame : ∀ u ∈ post, s₁.wakeAt u = s.wakeAt u := by
          intro u hu
          have hne : u ≠ mid := fun hum => hmid (hum ▸ hu)
          exact h.base.wakeAt_eq h₁.base hdated hne (by simp [hu]) (by simp [hu])
        obtain ⟨s', q', z', hrest, hsound, hq, hmem, hdated'⟩ := ih h₁ (by omega)
        rw [hdated.clock] at hmem hdated'
        refine ⟨s', q', z', by rw [if_pos hdue, bind_ok hrun, hrest], hsound,
          (List.prefix_append q [mid]).trans hq, ?_, (hdated.mono ?_).trans (hdated'.mono ?_)⟩
        · intro u
          rw [hmem, List.mem_cons]
          constructor
          · rintro ⟨hu, hlt⟩
            exact ⟨.inr hu, by rwa [hsame u hu] at hlt⟩
          · rintro ⟨rfl | hu, hlt⟩
            · omega
            · exact ⟨hu, by rwa [hsame u hu]⟩
        · rintro u rfl
          exact ⟨List.mem_cons_self, by omega⟩
        · rintro u ⟨hu, hle⟩
          exact ⟨List.mem_cons_of_mem mid hu, by rwa [hsame u hu] at hle⟩
      · rw [if_neg hdue]
        have hsplit : pre ++ mid :: post = (pre ++ [mid]) ++ post := by simp
        rw [hsplit] at h
        obtain ⟨s', q', z', hrest, hsound, hq, hmem, hdated⟩ := ih h (by omega)
        rw [List.getLast?_concat] at hrest
        rw [List.append_assoc, List.singleton_append] at hsound
        refine ⟨s', q', mid :: z', hrest, hsound, hq, fun u => ?_, hdated.mono ?_⟩
        · rw [List.mem_cons, List.mem_cons, hmem]
          constructor
          · rintro (rfl | ⟨hu, hlt⟩)
            · exact ⟨.inl rfl, by omega⟩
            · exact ⟨.inr hu, hlt⟩
          · rintro ⟨rfl | hu, hlt⟩
            · exact .inl rfl
            · exact .inr ⟨hu, hlt⟩
        · rintro u ⟨hu, hle⟩
          exact ⟨List.mem_cons_of_mem mid hu, hle⟩

theorem Base.length_sleepers_lt (h : Base gone s q z) : z.length < s.threads.next := by
  have hsub : z.toFinset ⊆ Finset.Ioo 0 s.threads.next := by
    intro t ht
    obtain ⟨x, hx⟩ := cell_of_role (h.live t (.inr (.inl (List.mem_toFinset.mp ht))))
    exact Finset.mem_Ioo.mpr ⟨Nat.pos_of_ne_zero (Heap.ne_zero hx), Heap.lt_next hx⟩
  have hcard := Finset.card_le_card hsub
  rw [List.toFinset_card_of_nodup h.sleepersNodup, Nat.card_Ioo] at hcard
  have := s.threads.next_pos
  omega

section

variable (h : Sound gone s q z)
include h

theorem Sound.wake :
    ∃ s' q' z', schedWakeSleepers s = (.ok (), s') ∧ Sound gone s' q' z' ∧ q <+: q' ∧
      (∀ t, t ∈ z' ↔ t ∈ z ∧ s.pitTicks < s.wakeAt t) ∧
      Dated (fun t => t ∈ z ∧ s.wakeAt t ≤ s.pitTicks) s s' := by
  have hstart : Sound gone s q ([] ++ z) := h
  obtain ⟨s', q', z', hrun, hsound⟩ := hstart.wakeFrom_run h.base.length_sleepers_lt
  refine ⟨s', q', z', ?_, hsound⟩
  rw [schedWakeSleepers, bind_run, Eff.read, andThen_ok]
  exact hrun

theorem Sound.congr (hthreads : s'.threads = s.threads)
    (hlinks : s'.links = s.links) (hprocs : s'.procs = s.procs) (hcurrent : s'.current = s.current)
    (hidle : s'.idleThread = s.idleThread) (hsleep : s'.sleepQueue = s.sleepQueue)
    (henq : s'.enqueued = s.enqueued) (hdis : s'.dispatched = s.dispatched) :
    Sound gone s' q z := by
  refine ⟨h.base.congr hthreads hlinks hprocs hcurrent hidle hsleep henq hdis, ?_⟩
  rw [hcurrent, hidle]
  have hrole : s'.role = s.role := by
    funext u
    rw [Scheduler.role, Scheduler.role, hthreads]
  rw [hrole]
  exact h.running

theorem Sound.tick :
    ∃ s' q' z', pitTick s = (.ok (), s') ∧ Sound gone s' q' z' ∧ q <+: q' ∧
      s'.pitTicks = (s.pitTicks + 1) % 2 ^ 32 ∧
      (∀ t, t ∈ z' ↔ t ∈ z ∧ (s.pitTicks + 1) % 2 ^ 32 < s.wakeAt t) ∧
      ∀ t ∈ z', s'.wakeAt t = s.wakeAt t := by
  have h₁ : Sound gone { s with pitTicks := (s.pitTicks + 1) % 2 ^ 32 } q z :=
    h.congr rfl rfl rfl rfl rfl rfl rfl rfl
  obtain ⟨s', q', z', hwake, h', hq, hmem, hdated⟩ := h₁.wake
  refine ⟨{ s' with reschedulePending := true }, q', z', ?_,
    h'.congr rfl rfl rfl rfl rfl rfl rfl rfl, hq, hdated.clock, hmem, fun t ht => ?_⟩
  · rw [pitTick, bind_run, modify_run, andThen_ok, schedTick, bind_ok hwake, modify_run]
  · obtain ⟨htz, hlt⟩ := (hmem t).mp ht
    have hkept : s'.wakeAt t = s.wakeAt t :=
      h₁.base.wakeAt_eq h'.base hdated (fun hdue => absurd hdue.2 (not_le.mpr hlt)) htz ht
    exact hkept

theorem Sound.resched : ∃ s' q', schedMaybeResched s = (.ok (), s') ∧ Sound gone s' q' z ∧
    if s.reschedulePending = true then Serves q s' q' else q <+: q' := by
  by_cases hpending : s.reschedulePending = true
  · have h₁ : Sound gone { s with reschedulePending := false } q z :=
      h.congr rfl rfl rfl rfl rfl rfl rfl rfl
    obtain ⟨s', q', hyield, h', hserves⟩ := h₁.yield
    refine ⟨s', q', ?_, h', by rwa [if_pos hpending]⟩
    rw [schedMaybeResched, bind_run, Eff.read, andThen_ok, if_pos hpending, bind_run, modify_run,
      andThen_ok, hyield]
  · refine ⟨s, q, ?_, h, by rw [if_neg hpending]⟩
    rw [schedMaybeResched, bind_run, Eff.read, andThen_ok, if_neg hpending, pure_run]

end

end Wake

section Spawn

theorem Base.role_fresh (s : Scheduler) : s.role s.threads.next = none := by
  rw [Scheduler.role, s.threads.cell_fresh _ le_rfl, Option.map_none]

theorem Base.created {H : Heap Thread} {P : Heap Process} {L : Links LinkRef}
    (h : Base gone s q z) (ht : t = s.threads.next) (hsize : H.next = s.threads.next + 1)
    (hcell : H.cell = update s.threads.cell t (some ⟨.runnable, 0, 0, p⟩))
    (hring : L.Ring .runQueue ((q ++ [t]).map .thread))
    (hlinks : ∀ u, u ≠ t → u ∉ q → L.next (.thread u) = s.links.next (.thread u))
    (hfresh : s.procs.cell p = none) (hp : p ≠ 0 → P.cell p = some ⟨true, t⟩)
    (hprocs : ∀ r, r ≠ p → P.cell r = s.procs.cell r) :
    Base gone { s with
      threads := H, links := L, procs := P, enqueued := s.enqueued ++ [t] } (q ++ [t]) z := by
  have hnone : s.role t = none := by rw [ht, Base.role_fresh]
  have hne : ∀ u, s.role u ≠ none → u ≠ t := fun u hu hut => hu (hut ▸ hnone)
  obtain ⟨_, _, hidle, -⟩ := h.idle
  have hti := hne _ (role_ne_none hidle)
  have hrole := role_update (v := { s with
    threads := H, links := L, procs := P, enqueued := s.enqueued ++ [t] }) hcell
  refine h.edit hrole hring (fun _ _ hnot => absurd (by simp) hnot) ?sleepers
    (fun _ => Option.some_ne_none _) h.stillRunning ?place (fun h => absurd h.symm hti) ?owner ?proc
    ?gone (by rw [h.fifo, List.append_assoc]) hlinks (hsize.ge.trans' (Nat.le_succ _))
  case sleepers =>
    apply h.sleepers.congr
    rintro u - n ⟨x, hx, hn⟩
    refine ⟨x, ?_, hn⟩
    rw [hcell, update_of_ne (hne u (role_ne_none (role_of_cell hx))), hx]
  case place =>
    rintro _ _ ⟨⟩ -
    have htz : t ∉ z := fun htz => h.live t (.inr (.inl htz)) hnone
    exact ⟨by simp, by simp, by simp [htz]⟩
  case owner =>
    intro u state' r hu hr
    rw [hrole] at hu
    rcases update_at_iff.mp hu with ⟨rfl, ⟨⟩⟩ | ⟨-, hu⟩
    · exact ⟨_, hp hr, rfl⟩
    · obtain ⟨y, hy, hyu⟩ := h.owner u state' r hu hr
      have hrp : r ≠ p := by
        rintro rfl
        rw [hfresh] at hy
        cases hy
      exact ⟨y, (hprocs r hrp).trans hy, hyu⟩
  case proc =>
    intro r y hy
    rw [hrole]
    by_cases hrp : r = p
    · subst hrp
      cases (hp (Heap.ne_zero hy)).symm.trans hy
      exact ⟨_, update_self .., hti.symm, by simp⟩
    · obtain ⟨state', hr, hyi, hdead⟩ := h.proc r y ((hprocs r hrp).symm.trans hy)
      exact ⟨state', by rw [update_of_ne (hne _ (role_ne_none hr)), hr], hyi, hdead⟩
  case gone =>
    intro hgone
    exact absurd (h.gone t hgone).1 (by omega)

theorem threadCreate_run (s : Scheduler) :
    threadCreate s = (.ok s.threads.next, { s with
      threads := s.threads.push ⟨.runnable, 0, 0, 0⟩
      links := s.links.alone (.thread s.threads.next) }) := by
  have hvalid : Scheduler.valid { s with threads := s.threads.push ⟨.runnable, 0, 0, 0⟩ }
      (.thread s.threads.next) = true := by
    rw [Scheduler.valid]
    rw [Heap.cell_push, update_self, Option.isSome_some]
  have hnew : (threads.new ⟨.runnable, 0, 0, 0⟩ : SchedM Nat) s =
      (.ok s.threads.next, { s with threads := s.threads.push ⟨.runnable, 0, 0, 0⟩ }) := rfl
  rw [threadCreate, bind_ok hnew, bind_ok (linkInit_run hvalid), pure_run]

theorem attachProcess_run (hx : s.threads.cell t = some ⟨.runnable, 0, 0, 0⟩) (withProcess : Bool) :
    ∃ P H p, attachProcess t withProcess s = (.ok (), { s with procs := P, threads := H }) ∧
      H.next = s.threads.next ∧ H.cell = update s.threads.cell t
        (some ⟨.runnable, 0, 0, p⟩) ∧ s.procs.cell p = none ∧
      (p ≠ 0 → P.cell p = some ⟨true, t⟩) ∧ ∀ r, r ≠ p → P.cell r = s.procs.cell r := by
  cases withProcess with
  | false =>
    refine ⟨s.procs, s.threads, 0, rfl, rfl, ?_, s.procs.cell_zero, fun h => absurd rfl h,
      fun _ _ => rfl⟩
    rw [← hx, update_eq_self]
  | true =>
    have hx' : (Scheduler.threads { s with procs := s.procs.push ⟨true, t⟩ }).cell t =
      some ⟨.runnable, 0, 0, 0⟩ := hx
    have hnew : (procs.new ⟨true, t⟩ : SchedM Nat) s =
        (.ok s.procs.next, { s with procs := s.procs.push ⟨true, t⟩ }) := rfl
    refine ⟨s.procs.push ⟨true, t⟩, s.threads.edit t fun x => { x with proc := s.procs.next },
      s.procs.next, ?_, rfl, Heap.cell_edit hx _, s.procs.cell_fresh _ le_rfl, ?_, ?_⟩
    · rw [attachProcess, bind_ok hnew, storeThread hx']
    · exact fun _ => by rw [Heap.cell_push, update_self]
    · exact fun r hr => by rw [Heap.cell_push, update_of_ne hr]

theorem Sound.spawn (h : Sound gone s q z) (withProcess : Bool) :
    ∃ s' q', Sched.spawn withProcess s = (.ok (), s') ∧ Sound gone s' q' z ∧ q <+: q' := by
  have hbase := h.base
  obtain ⟨t, ht⟩ : ∃ t, t = s.threads.next := ⟨_, rfl⟩
  have hnone : s.role t = none := by rw [ht, Base.role_fresh]
  have hne : ∀ u, s.role u ≠ none → u ≠ t := fun u hu hut => hu (hut ▸ hnone)
  have htq : t ∉ q := fun htq => hbase.live t (.inl htq) hnone
  obtain ⟨_, _, hidleRole, -⟩ := hbase.idle
  have hti : t ≠ s.idleThread := (hne _ (role_ne_none hidleRole)).symm
  obtain ⟨P, H, p, hattach, hHnext, hHcell, hfresh, hp, hother⟩ := attachProcess_run
    (s := { s with
      threads := s.threads.push ⟨.runnable, 0, 0, 0⟩, links := s.links.alone (.thread t) })
    (t := t) (by rw [ht]; exact update_self ..) withProcess
  have hcell : H.cell = update s.threads.cell t (some ⟨.runnable, 0, 0, p⟩) := by
    rw [hHcell, Heap.cell_push, ← ht, update_idem]
  have hx : H.cell t = some ⟨.runnable, 0, 0, p⟩ := by rw [hcell, update_self]
  have hrole : Scheduler.role { s with
      procs := P, threads := H, links := s.links.alone (.thread t) } =
        update s.role t (some (.runnable, p)) :=
    role_update (c := some ⟨.runnable, 0, 0, p⟩) hcell
  have hring : (s.links.alone (.thread t)).Ring .runQueue (q.map .thread) := by
    have hneq : ∀ y ∈ LinkRef.runQueue :: q.map LinkRef.thread, y ≠ .thread t := by
      rintro y hy rfl
      exact thread_not_mem htq hy
    exact hbase.ring.congr (fun y hy => update_of_ne (hneq y hy) _ _)
      fun y hy => update_of_ne (hneq y hy) _ _
  have hlive : ∀ u ∈ q, Scheduler.role { s with
      procs := P, threads := H, links := s.links.alone (.thread t) } u ≠ none := by
    intro u hu
    have hu' := hbase.live u (.inl hu)
    rwa [hrole, update_of_ne (hne u hu')]
  obtain ⟨L, hadd, hring', hlinks⟩ := runqueueAdd_run hring hlive hx hti htq
    (.inr (update_self ..))
  have hedit := (Heap.cell_edit hx fun x => { x with state := .runnable }).trans
    (by rw [hcell, update_idem])
  rw [Sched.spawn, bind_run, threadCreate_run, andThen_ok, ← ht, bind_ok hattach]
  refine ⟨_, q ++ [t], hadd, ⟨hbase.created ht hHnext hedit hring' (fun u hut huq => ?_)
    hfresh hp hother, fun hne0 hni => ?_⟩, List.prefix_append ..⟩
  · rw [hlinks u huq hut]
    exact update_of_ne (fun heq => hut (LinkRef.thread.inj heq)) _ _
  · obtain ⟨r, hr⟩ := h.running hne0 hni
    exact ⟨r, by rw [role_update hedit, update_of_ne (hne _ (role_ne_none hr)), hr]⟩

end Spawn

section Reap

theorem Base.freed {y : Process} (h : Base gone s q z) (hy : s.procs.cell p = some y)
    (hdead : y.alive = false) (hcur : y.thread ≠ s.current) :
    Base gone { s with
      threads := s.threads.free y.thread, procs := s.procs.free p } q z := by
  obtain ⟨state, hrole, hyi, hzombie⟩ := h.proc p y hy
  obtain rfl := hzombie hdead
  obtain ⟨-, hrunnable, hsleeping⟩ := h.place _ _ _ hrole hyi
  have hyq : y.thread ∉ q := fun hyq => ThreadState.noConfusion (hrunnable.mpr hyq)
  have hyz : y.thread ∉ z := fun hyz => ThreadState.noConfusion (hsleeping.mpr hyz)
  have hrole' := role_update (v := { s with
    threads := s.threads.free y.thread, procs := s.procs.free p }) (Heap.cell_free ..)
  refine h.edit hrole' h.ring (fun h => absurd rfl h) ?sleepers ?live h.stillRunning nofun
    (fun h => absurd h hyi) ?owner ?proc nofun h.fifo
  case sleepers =>
    apply h.sleepers.congr
    rintro u hu n ⟨x, hx, hn⟩
    have hut : u ≠ y.thread := fun hut => hyz (hut ▸ hu)
    exact ⟨x, (update_of_ne hut _ _).trans hx, hn⟩
  case live =>
    rintro (hu | hu | ⟨hu, -⟩)
    · exact absurd hu hyq
    · exact absurd hu hyz
    · exact absurd hu hcur
  case owner =>
    intro u state' r hu hr
    rw [hrole'] at hu
    obtain ⟨-, ⟨⟩⟩ | ⟨hut, hu⟩ := update_at_iff.mp hu
    obtain ⟨y', hy', rfl⟩ := h.owner u state' r hu hr
    have hrp : r ≠ p := by
      rintro rfl
      cases hy.symm.trans hy'
      exact hut rfl
    exact ⟨y', (update_of_ne hrp _ _).trans hy', rfl⟩
  case proc =>
    intro r y' hy'
    rw [Heap.cell_free] at hy'
    obtain ⟨-, ⟨⟩⟩ | ⟨hrp, hy'⟩ := update_at_iff.mp hy'
    obtain ⟨state', hr, hyi', hdead'⟩ := h.proc r y' hy'
    have hyy : y'.thread ≠ y.thread := by
      intro heq
      rw [heq, hrole] at hr
      cases hr
      exact hrp rfl
    exact ⟨state', by rw [hrole', update_of_ne hyy, hr], hyi', hdead'⟩

theorem Sound.reap (h : Sound gone s q z) (p : Nat) :
    (∃ e, procReap p s = (.error (.code e), s)) ∨
      ∃ s', procReap p s = (.ok (), s') ∧ Sound gone s' q z := by
  cases hp : s.procs.cell p with
  | none => exact .inl ⟨.processNotFound, by rw [procReap, bind_run, Eff.read, andThen_ok, hp]; rfl⟩
  | some y =>
    cases halive : y.alive with
    | true =>
      refine .inl ⟨.busy, ?_⟩
      rw [procReap, bind_run, Eff.read, andThen_ok, hp]
      dsimp only
      rw [if_pos halive, fail_run]
    | false =>
      right
      obtain ⟨state, hrole, hyi, hzombie⟩ := h.base.proc p y hp
      obtain rfl := hzombie halive
      obtain ⟨x, hx⟩ := cell_of_role (role_ne_none hrole)
      have hy0 := Heap.ne_zero hx
      have hcur : y.thread ≠ s.current := by
        intro hcur
        obtain ⟨r, hr⟩ := h.running (hcur ▸ hy0) (hcur ▸ hyi)
        rw [← hcur, hrole] at hr
        cases hr
      obtain ⟨-, hrunnable, -⟩ := h.base.place _ _ _ hrole hyi
      have hyq : y.thread ∉ q := fun hyq => ThreadState.noConfusion (hrunnable.mpr hyq)
      have hnext := h.base.unlinked _ (role_ne_none hrole) hyi hyq
      have hremove : runqueueRemove y.thread s = (.ok (), s) := by
        rw [runqueueRemove, if_neg hy0, bind_ok (linkNext_run (valid_of_role (role_ne_none hrole))),
          if_pos (.inl hnext), pure_run]
      have hfree : (threads.release y.thread : SchedM Unit) s =
          (.ok (), { s with threads := s.threads.free y.thread }) :=
        Field.release_run (l := threads) hx
      refine ⟨{ s with threads := s.threads.free y.thread, procs := s.procs.free p }, ?_,
        h.base.freed hp halive hcur, ?_⟩
      · rw [procReap, bind_run, Eff.read, andThen_ok, hp]
        dsimp only
        rw [halive, if_neg Bool.false_ne_true, bind_run, reapThread, if_neg hy0, bind_ok hremove,
          hfree, andThen_ok]
        exact Field.release_run (l := procs) hp
      · intro hne hni
        obtain ⟨r, hr⟩ := h.running hne hni
        refine ⟨r, ?_⟩
        rw [Scheduler.role]
        change (update s.threads.cell y.thread none s.current).map _ = _
        rw [update_of_ne (Ne.symm hcur)]
        exact hr

end Reap

end CfKernel.Sched
