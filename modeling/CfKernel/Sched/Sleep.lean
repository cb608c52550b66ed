import CfKernel.Sched.Run

/-!
# Sleeping for a number of ticks

`sched_sleep` keeps the tick to wake at as a 64-bit number, and `sched_wake_sleepers` compares it
with a counter of 32 bits. A thread whose tick is below `2 ^ 32` leaves the sleep queue with exactly
that tick; one whose tick is not stays there for ever, as the counter starts again at zero.
-/

namespace CfKernel.Sched

open Lib Lib.Eff

variable {s s' : Scheduler} {q z : List Nat} {c n k w : Nat}

def OnSleepQueue (s : Scheduler) (t : Nat) : Prop :=
  ∃ l, Path (NextSleep s.threads.cell) s.sleepQueue l 0 ∧ t ∈ l

theorem Sound.onSleepQueue_iff {gone : Nat → Prop} (h : Sound gone s q z) :
    OnSleepQueue s c ↔ c ∈ z := by
  refine ⟨?_, fun hc => ⟨z, h.base.sleepers, hc⟩⟩
  rintro ⟨l, hl, hc⟩
  rwa [hl.unique (nextSleep_functional _) (not_nextSleep_zero s) h.base.sleepers] at hc

/-- The states that events lead to, with the number of timer ticks among the events. -/
inductive After (s₀ : Scheduler) : Nat → Scheduler → Prop where
  | start : After s₀ 0 s₀
  | tick {k : Nat} {s : Scheduler} : After s₀ k s → After s₀ (k + 1) (schedStep .tick s)
  | other {k : Nat} {s : Scheduler} (e : Event) : After s₀ k s → e ≠ .tick → Possible e s →
      After s₀ k (schedStep e s)

structure Waiting (c w : Nat) (s : Scheduler) (q z : List Nat) : Prop where
  sound : Sound (fun _ => False) s q z
  mem : c ∈ z
  wakeAt : s.wakeAt c = w

/-- What a call does that neither puts the current thread to sleep nor looks at the clock. -/
theorem Waiting.kept (h : Waiting c w s q z) {q' : List Nat}
    (hsound : Sound (fun _ => False) s' q' z) (hdated : Dated (fun _ => False) s s') :
    s'.pitTicks = s.pitTicks ∧ Waiting c w s' q' z :=
  ⟨hdated.clock, hsound, h.mem,
    (h.sound.base.wakeAt_eq hsound.base hdated id h.mem h.mem).trans h.wakeAt⟩

theorem dated_schedSleep (ticks : Nat) (s : Scheduler) :
    Dated (· = s.current) s (schedSleep ticks s).2 := by
  rw [schedSleep, bind_run, Eff.read, andThen_ok]
  refine (?_ : Moves (Dated (· = s.current)) _) s
  refine (dated_read _).bind fun idle => ?_
  split
  · exact moves_pure _
  refine (dated_read _).bind fun now => (dated_read _).bind fun head =>
    Moves.bind (dated_store (.inl rfl)) fun _ => Moves.bind ?_ fun _ => dated_kschedYield
  exact dated_modify (fun _ => rfl) fun _ => rfl

theorem Waiting.ne_current (h : Waiting c w s q z) : c ≠ s.current := by
  rintro rfl
  have hrole := h.sound.base.live _ (.inr (.inl h.mem))
  have hidle : s.current ≠ s.idleThread := fun hi => h.sound.base.idleOut.2 (hi ▸ h.mem)
  obtain ⟨p, hp⟩ := h.sound.running (Base.role_ne_zero hrole) hidle
  exact ThreadState.noConfusion ((h.sound.base.place _ _ _ hp hidle).2.2.mpr h.mem)

theorem Waiting.other (h : Waiting c w s q z) (hlt : s.pitTicks < w) {e : Event} (he : e ≠ .tick)
    (hp : Possible e s) :
    (schedStep e s).pitTicks = s.pitTicks ∧ ∃ q' z', Waiting c w (schedStep e s) q' z' := by
  have hok : ∀ {s' q'}, e.run s = (.ok (), s') → Sound (fun _ => False) s' q' z →
      Moves (Dated fun _ => False) e.run →
      (schedStep e s).pitTicks = s.pitTicks ∧ ∃ q' z', Waiting c w (schedStep e s) q' z' := by
    intro s' q' hrun hsound hmoves
    have hdated := hmoves s
    rw [schedStep]
    rw [hrun] at hdated ⊢
    exact ⟨(h.kept hsound hdated).1, q', z, (h.kept hsound hdated).2⟩
  cases e with
  | add withProcess =>
    obtain ⟨s', q', hrun, hs', -⟩ := h.sound.spawn withProcess
    exact hok hrun hs' (dated_spawn withProcess)
  | yield =>
    obtain ⟨s', q', hrun, hs', -⟩ := h.sound.yield
    exact hok hrun hs' dated_kschedYield
  | sleep ticks =>
    obtain ⟨s', q', z', hrun, hs', hz', -⟩ := h.sound.sleep ticks
    have hdated := dated_schedSleep ticks s
    have hrun' : (Event.sleep ticks).run s = (.ok (), s') := hrun
    rw [hrun] at hdated
    rw [schedStep, hrun']
    have hmem : c ∈ z' := by
      rw [hz']
      split
      · exact h.mem
      · exact List.mem_cons_of_mem _ h.mem
    exact ⟨hdated.clock, q', z', hs', hmem,
      (h.sound.base.wakeAt_eq hs'.base hdated h.ne_current h.mem hmem).trans h.wakeAt⟩
  | wake =>
    obtain ⟨s', q', z', hrun, hs', -, hmem, hdated⟩ := h.sound.wake
    have hrun' : Event.wake.run s = (.ok (), s') := hrun
    rw [schedStep, hrun']
    have hlater : s.pitTicks < s.wakeAt c := h.wakeAt ▸ hlt
    have hmem' : c ∈ z' := (hmem c).mpr ⟨h.mem, hlater⟩
    exact ⟨hdated.clock, q', z', hs', hmem', (h.sound.base.wakeAt_eq hs'.base hdated
      (fun hdue => absurd hdue.2 (not_le.mpr hlater)) h.mem hmem').trans h.wakeAt⟩
  | tick => exact absurd rfl he
  | resched =>
    obtain ⟨s', q', hrun, hs', -⟩ := h.sound.resched
    exact hok hrun hs' dated_schedMaybeResched
  | exit =>
    obtain ⟨s', q', hrun, hs', -⟩ := h.sound.exit (hp rfl)
    exact hok hrun hs' dated_threadExit
  | reap p =>
    rcases h.sound.reap p with ⟨e, hrun⟩ | ⟨s', hrun, hs'⟩
    · have hrun' : (Event.reap p).run s = (.error (.code e), s) := hrun
      rw [schedStep, hrun']
      exact ⟨rfl, q, z, h⟩
    · exact hok hrun hs' (dated_procReap p)

/-- The tick that a thread waits for takes it off the queue, and no earlier one does. -/
theorem Waiting.tick (h : Waiting c w s q z) :
    (schedStep .tick s).pitTicks = (s.pitTicks + 1) % 2 ^ 32 ∧
    ((s.pitTicks + 1) % 2 ^ 32 < w → ∃ q' z', Waiting c w (schedStep .tick s) q' z') ∧
    (w ≤ (s.pitTicks + 1) % 2 ^ 32 → ¬ OnSleepQueue (schedStep .tick s) c) := by
  obtain ⟨s', q', z', hrun, hs', -, hclock, hmem, hwake⟩ := h.sound.tick
  have hrun' : Event.tick.run s = (.ok (), s') := hrun
  rw [schedStep, hrun']
  refine ⟨hclock, fun hlt => ?_, fun hle hon => ?_⟩
  · have hmem' : c ∈ z' := (hmem c).mpr ⟨h.mem, h.wakeAt ▸ hlt⟩
    exact ⟨q', z', hs', hmem', (hwake c hmem').trans h.wakeAt⟩
  · have hlt := ((hmem c).mp (hs'.onSleepQueue_iff.mp hon)).2
    rw [h.wakeAt] at hlt
    omega

theorem Sound.sleeps (h : Sound (fun _ => False) s q z)
    (hgo : ¬ (s.current = 0 ∨ s.current = s.idleThread)) (hT : s.pitTicks < 2 ^ 32) (hn : 1 ≤ n)
    (hn' : n < 2 ^ 31) : (schedStep (.sleep n) s).pitTicks = s.pitTicks ∧
    ∃ q' z', Waiting s.current (s.pitTicks + n) (schedStep (.sleep n) s) q' z' := by
  obtain ⟨s', q', z', hrun, hs', hz', -⟩ := h.sleep n
  have hrun' : (Event.sleep n).run s = (.ok (), s') := hrun
  rw [if_neg hgo] at hz'
  subst hz'
  rw [schedStep, hrun']
  obtain ⟨x, hx⟩ := cell_of_role (h.base.live s.current (.inr (.inr ⟨rfl, (not_or.mp hgo).1⟩)))
  have hcell := asleep_cell hx n
  have hdated : Dated (fun _ => False) (s.asleep n) s' := by
    have := dated_kschedYield (E := fun _ => False) (s.asleep n)
    rwa [← schedSleep_run hgo hx, hrun] at this
  refine ⟨hdated.clock, q', _, hs', List.mem_cons_self, ?_⟩
  obtain ⟨x', hx'⟩ := cell_of_role (hs'.base.live s.current (.inr (.inl List.mem_cons_self)))
  rw [hdated.wakeAt (Heap.lt_next hcell) id hx', wakeAt_eq hcell, Thread.asleep,
    if_neg (by omega), Nat.mod_eq_of_lt (by omega)]

section Count

variable {s₀ : Scheduler} {T : Nat}

theorem After.waiting (h₀ : ∃ q z, Waiting c w s₀ q z) (hT : s₀.pitTicks = T % 2 ^ 32)
    (h : After s₀ k s) (hlater : ∀ j ≤ k, (T + j) % 2 ^ 32 < w) :
    s.pitTicks = (T + k) % 2 ^ 32 ∧ ∃ q z, Waiting c w s q z := by
  induction h with
  | start => exact ⟨hT, h₀⟩
  | tick _ ih =>
    obtain ⟨hclock, q, z, hw⟩ := ih fun j hj => hlater j (by omega)
    obtain ⟨hclock', hstay, -⟩ := hw.tick
    rw [hclock, Nat.mod_add_mod, Nat.add_assoc] at hclock' hstay
    exact ⟨hclock', hstay (hlater _ le_rfl)⟩
  | other e _ he hp ih =>
    obtain ⟨hclock, q, z, hw⟩ := ih hlater
    have hlt := hlater _ le_rfl
    obtain ⟨hclock', q', z', hw'⟩ := hw.other (hclock ▸ hlt) he hp
    exact ⟨hclock'.trans hclock, q', z', hw'⟩

theorem exists_after (s₀ : Scheduler) (k : Nat) : ∃ s, After s₀ k s := by
  induction k with
  | zero => exact ⟨s₀, .start⟩
  | succ k ih =>
    obtain ⟨s, hs⟩ := ih
    exact ⟨_, hs.tick⟩

end Count

theorem exists_sound (hrun : Reach schedStep Possible schedInit s) (T : Nat) :
    ∃ q z, Sound (fun _ => False) { s with pitTicks := T } q z := by
  obtain ⟨q, z, h⟩ : ∃ q z, Sound (fun _ => False) s q z :=
    hrun.invariant (fun s => ∃ q z, Sound (fun _ => False) s q z) ⟨[], [], sound_schedInit⟩
      fun e s ⟨q, z, h⟩ he => (h.event he).2
  exact ⟨q, z, h.congr rfl rfl rfl rfl rfl rfl rfl rfl⟩

/-- Whatever the counter shows when a thread goes to sleep for `n` ticks, and whatever happens
meanwhile, it is on the sleep queue until the `n`-th tick; and that tick takes it off exactly when
the counter has not started again at zero. -/
theorem sleep_ends_iff (r : Scheduler) (T n : Nat) (hrun : Reach schedStep Possible schedInit r)
    (hT : T < 2 ^ 32) (hn : 1 ≤ n) (hn' : n < 2 ^ 31)
    (hgo : ¬ (r.current = 0 ∨ r.current = r.idleThread)) :
    (∀ k s, After (schedStep (.sleep n) { r with pitTicks := T }) k s → k < n →
      OnSleepQueue s r.current) ∧
    ((∀ s, After (schedStep (.sleep n) { r with pitTicks := T }) (n - 1) s →
      ¬ OnSleepQueue (schedStep .tick s) r.current) ↔ T + n < 2 ^ 32) := by
  obtain ⟨q, z, hsound⟩ := exists_sound hrun T
  obtain ⟨hclock, hwaiting⟩ := hsound.sleeps hgo hT hn hn'
  have hclock' : (schedStep (.sleep n) { r with pitTicks := T }).pitTicks = T % 2 ^ 32 :=
    hclock.trans (Nat.mod_eq_of_lt hT).symm
  have hbefore : ∀ k < n, ∀ j ≤ k, (T + j) % 2 ^ 32 < T + n := by
    intro k hk j hj
    have := Nat.mod_le (T + j) (2 ^ 32)
    omega
  refine ⟨fun k s hs hk => ?_, fun hoff => ?_, fun hlt s hs => ?_⟩
  · obtain ⟨-, q', z', hw⟩ := hs.waiting hwaiting hclock' (hbefore k hk)
    exact hw.sound.onSleepQueue_iff.mpr hw.mem
  · by_contra hge
    obtain ⟨s, hs⟩ := exists_after (schedStep (.sleep n) { r with pitTicks := T }) (n - 1)
    -- The counter stays below `2 ^ 32`, so it never reaches the tick.
    obtain ⟨-, q', z', hw⟩ := hs.tick.waiting hwaiting hclock' fun j _ => by omega
    exact hoff s hs (hw.sound.onSleepQueue_iff.mpr hw.mem)
  · obtain ⟨hpit, q', z', hw⟩ := hs.waiting hwaiting hclock' (hbefore (n - 1) (by omega))
    exact hw.tick.2.2 (by dsimp only at hpit ⊢; omega)

def alone : Scheduler := schedStep .yield (schedStep (.add false) schedInit)

theorem reach_alone : Reach schedStep Possible schedInit alone := by
  have hadded : Reach schedStep Possible schedInit (schedStep (.add false) schedInit) :=
    .step (Event.add false) .start fun h => by cases h
  exact .step Event.yield hadded fun h => by cases h

theorem alone_current : ¬ (alone.current = 0 ∨ alone.current = alone.idleThread) := by
  decide +kernel

theorem sleep_ends_iff_alone :
    (∀ k s, After (schedStep (.sleep 5) { alone with pitTicks := 0xFFFFFFF0 }) k s → k < 5 →
      OnSleepQueue s alone.current) ∧
    ∀ s, After (schedStep (.sleep 5) { alone with pitTicks := 0xFFFFFFF0 }) 4 s →
      ¬ OnSleepQueue (schedStep .tick s) alone.current := by
  obtain ⟨hon, hoff⟩ := sleep_ends_iff alone 0xFFFFFFF0 5 reach_alone (by decide) (by decide)
    (by decide) alone_current
  exact ⟨hon, hoff.mpr (by decide)⟩

/-- With the counter at its largest value, the tick that a sleep of one tick waits for shows zero. -/
theorem sleep_misses_wrap :
    (schedStep .tick (schedStep (.sleep 1) { alone with pitTicks := 0xFFFFFFFF })).pitTicks = 0 ∧
    OnSleepQueue (schedStep .tick (schedStep (.sleep 1) { alone with pitTicks := 0xFFFFFFFF }))
      alone.current := by
  obtain ⟨q, z, hsound⟩ := exists_sound reach_alone 0xFFFFFFFF
  obtain ⟨hclock, hwaiting⟩ := hsound.sleeps (n := 1) alone_current (by decide) (by decide)
    (by decide)
  obtain ⟨hpit, q', z', hw⟩ := After.start.tick.waiting hwaiting (T := 0xFFFFFFFF)
    (hclock.trans (by decide)) fun j _ => by dsimp only; omega
  exact ⟨hpit.trans (by decide), hw.sound.onSleepQueue_iff.mpr hw.mem⟩

end CfKernel.Sched
