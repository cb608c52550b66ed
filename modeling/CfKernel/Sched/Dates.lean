import CfKernel.Sched.Scheduler

/-!
# Wakeup ticks

`Dated E s s'` says that the clock has not moved from `s` to `s'` and that no thread outside `E` has
got another wakeup tick. Only `sched_sleep` and the loop over the sleep queue write that field, so
every other call moves the state along `Dated` with nothing in `E`.
-/

namespace CfKernel.Sched

open Lib Lib.Eff Function

/-- The tick that a thread waits for; 0 when it is not there. -/
def Scheduler.wakeAt (s : Scheduler) (t : Nat) : Nat :=
  ((s.threads.cell t).map Thread.wakeupTick).getD 0

structure Dated (E : Nat → Prop) (s s' : Scheduler) : Prop where
  clock : s'.pitTicks = s.pitTicks
  grows : s.threads.next ≤ s'.threads.next
  same : ∀ t < s.threads.next, ¬ E t → ∀ x', s'.threads.cell t = some x' →
    ∃ x, s.threads.cell t = some x ∧ x'.wakeupTick = x.wakeupTick

variable {E E' : Nat → Prop} {s s' : Scheduler} {t : Nat}

theorem wakeAt_eq {x : Thread} (h : s.threads.cell t = some x) : s.wakeAt t = x.wakeupTick := by
  rw [Scheduler.wakeAt, h]
  rfl

theorem Dated.wakeAt {x' : Thread} (h : Dated E s s') (ht : t < s.threads.next) (hE : ¬ E t)
    (hx' : s'.threads.cell t = some x') : s'.wakeAt t = s.wakeAt t := by
  obtain ⟨x, hx, heq⟩ := h.same t ht hE x' hx'
  rw [wakeAt_eq hx', wakeAt_eq hx, heq]

theorem Dated.mono (h : Dated E s s') (hE : ∀ t, E t → E' t) : Dated E' s s' :=
  ⟨h.clock, h.grows, fun t ht hnot => h.same t ht fun he => hnot (hE t he)⟩

theorem dated_of_threads (hthreads : s'.threads = s.threads) (hclock : s'.pitTicks = s.pitTicks) :
    Dated E s s' := by
  refine ⟨hclock, by rw [hthreads], fun t _ _ x' hx' => ⟨x', ?_, rfl⟩⟩
  rwa [← hthreads]

instance : Std.Refl (Dated E) := ⟨fun _ => dated_of_threads rfl rfl⟩

theorem Dated.trans {s'' : Scheduler} (h : Dated E s s') (h' : Dated E s' s'') : Dated E s s'' := by
  refine ⟨h'.clock.trans h.clock, h.grows.trans h'.grows, fun t ht hE x'' hx'' => ?_⟩
  obtain ⟨x', hx', heq⟩ := h'.same t (ht.trans_le h.grows) hE x'' hx''
  obtain ⟨x, hx, heq'⟩ := h.same t ht hE x' hx'
  exact ⟨x, hx, heq.trans heq'⟩

instance : IsTrans Scheduler (Dated E) := ⟨fun _ _ _ => Dated.trans⟩

section Parts

variable {α : Type}

theorem dated_read (f : Scheduler → Except (Trap Errno) α) :
    Moves (Dated E) (Eff.read f : SchedM α) := fun s => Std.Refl.refl s

theorem dated_modify {g : Scheduler → Scheduler} (hthreads : ∀ s, (g s).threads = s.threads)
    (hclock : ∀ s, (g s).pitTicks = s.pitTicks) : Moves (Dated E) (Eff.modify g : SchedM Unit) :=
  fun s => dated_of_threads (hthreads s) (hclock s)

theorem dated_store {f : Thread → Thread} (hf : E t ∨ ∀ x, (f x).wakeupTick = x.wakeupTick) :
    Moves (Dated E) (threads.store t f : SchedM Unit) := by
  rw [Field.store]
  refine (dated_read _).bind fun _ s => ⟨rfl, le_rfl, fun u hu hE x' hx' => ?_⟩
  rcases update_at_iff.mp hx' with ⟨rfl, heq⟩ | ⟨-, hx'⟩
  · obtain ⟨x, hx, rfl⟩ := Option.map_eq_some_iff.mp heq
    exact ⟨x, hx, hf.resolve_left hE x⟩
  · exact ⟨x', hx', rfl⟩

theorem dated_new (x : Thread) : Moves (Dated E) (threads.new x : SchedM Nat) := by
  intro s
  refine ⟨rfl, Nat.le_succ _, fun u hu _ x' hx' => ?_⟩
  change update s.threads.cell s.threads.next (some x) u = some x' at hx'
  rw [update_of_ne hu.ne] at hx'
  exact ⟨x', hx', rfl⟩

theorem dated_release : Moves (Dated E) (threads.release t : SchedM Unit) := by
  rw [Field.release]
  refine (dated_read _).bind fun _ s => ⟨rfl, le_rfl, fun u hu _ x' hx' => ?_⟩
  obtain ⟨-, ⟨⟩⟩ | ⟨-, hx'⟩ := update_at_iff.mp hx'
  exact ⟨x', hx', rfl⟩

theorem dated_storeProc (p : Nat) (f : Process → Process) :
    Moves (Dated E) (procs.store p f : SchedM Unit) := by
  rw [Field.store]
  exact (dated_read _).bind fun _ => dated_modify (fun _ => rfl) fun _ => rfl

theorem dated_releaseProc (p : Nat) : Moves (Dated E) (procs.release p : SchedM Unit) := by
  rw [Field.release]
  exact (dated_read _).bind fun _ => dated_modify (fun _ => rfl) fun _ => rfl

end Parts

section Queues

theorem dated_linkNext (x : LinkRef) : Moves (Dated E) (linkNext x) :=
  (dated_read _).bind fun _ => dated_read _

theorem dated_linkPrev (x : LinkRef) : Moves (Dated E) (linkPrev x) :=
  (dated_read _).bind fun _ => dated_read _

theorem dated_linkInit (x : LinkRef) : Moves (Dated E) (linkInit x) :=
  (dated_read _).bind fun _ => dated_modify (fun _ => rfl) fun _ => rfl

theorem dated_linkBefore (a x : LinkRef) : Moves (Dated E) (linkBefore a x) :=
  (dated_linkPrev a).bind fun _ => (dated_read _).bind fun _ => (dated_read _).bind fun _ =>
    dated_modify (fun _ => rfl) fun _ => rfl

theorem dated_linkRemove (x : LinkRef) : Moves (Dated E) (linkRemove x) :=
  (dated_linkPrev x).bind fun _ => (dated_linkNext x).bind fun _ => (dated_read _).bind fun _ =>
    (dated_read _).bind fun _ => dated_modify (fun _ => rfl) fun _ => rfl

theorem dated_setState (t : Nat) (state : ThreadState) : Moves (Dated E) (setState t state) :=
  dated_store (.inr fun _ => rfl)

theorem dated_readyLink (t : Nat) (next : Option LinkRef) : Moves (Dated E) (readyLink t next) := by
  rw [readyLink]
  split
  · exact dated_linkInit _
  · exact moves_pure _

theorem dated_runqueueAdd (t : Nat) : Moves (Dated E) (runqueueAdd t) := by
  rw [runqueueAdd]
  refine (dated_read _).bind fun idle => ?_
  split
  · exact moves_pure _
  refine (dated_linkNext _).bind fun next => ?_
  split
  · exact moves_pure _
  exact (dated_readyLink _ _).bind fun _ => (dated_setState _ _).bind fun _ =>
    (dated_linkBefore _ _).bind fun _ => dated_modify (fun _ => rfl) fun _ => rfl

theorem dated_runqueueRemove (t : Nat) : Moves (Dated E) (runqueueRemove t) := by
  rw [runqueueRemove]
  split
  · exact moves_pure _
  refine (dated_linkNext _).bind fun next => ?_
  split
  · exact moves_pure _
  · exact dated_linkRemove _

theorem dated_linkData (x : LinkRef) : Moves (Dated E) (linkData x) := by
  cases x with
  | runQueue => exact moves_fail _
  | thread t => exact moves_pure _

theorem dated_runqueueNext : Moves (Dated E) runqueueNext := by
  rw [runqueueNext]
  refine (dated_linkNext _).bind fun next => ?_
  split
  · refine (dated_read _).bind fun _ => (dated_linkData _).bind fun _ =>
      (dated_linkRemove _).bind fun _ => Moves.bind ?_ fun _ => moves_pure _
    exact dated_modify (fun _ => rfl) fun _ => rfl
  · exact dated_read _

theorem dated_schedActivateThread (t : Nat) : Moves (Dated E) (schedActivateThread t) := by
  rw [schedActivateThread]
  split
  · exact moves_pure _
  · refine Moves.bind ?_ fun _ => dated_setState _ _
    exact dated_modify (fun _ => rfl) fun _ => rfl

end Queues

section Calls

theorem dated_requeueCurrent (c : Nat) : Moves (Dated E) (requeueCurrent c) := by
  rw [requeueCurrent]
  refine (dated_read _).bind fun idle => ?_
  split
  · refine (dated_read _).bind fun x => ?_
    split
    · exact dated_runqueueAdd _
    · exact moves_pure _
  · exact moves_pure _

theorem dated_kschedYield : Moves (Dated E) kschedYield := by
  rw [kschedYield]
  refine (dated_read _).bind fun current => (dated_requeueCurrent _).bind fun _ =>
    dated_runqueueNext.bind fun next => ?_
  split
  · split
    · exact dated_setState _ _
    · exact moves_pure _
  · exact dated_schedActivateThread _

theorem dated_writeSlot (new : Nat) (link : Option Nat) : Moves (Dated E) (writeSlot new link) := by
  cases link with
  | none => exact dated_modify (fun _ => rfl) fun _ => rfl
  | some t => exact dated_store (.inr fun _ => rfl)

theorem dated_wakeThread (link : Option Nat) (t : Nat) :
    Moves (Dated (· = t)) (wakeThread link t) := by
  refine (dated_read _).bind fun _ => (dated_writeSlot _ _).bind fun _ =>
    Moves.bind ?_ fun _ => dated_runqueueAdd t
  exact dated_store (.inl rfl)

theorem dated_schedMaybeResched : Moves (Dated E) schedMaybeResched := by
  rw [schedMaybeResched]
  refine (dated_read _).bind fun pending => ?_
  split
  · refine Moves.bind ?_ fun _ => dated_kschedYield
    exact dated_modify (fun _ => rfl) fun _ => rfl
  · exact moves_pure _

theorem dated_spawn (withProcess : Bool) : Moves (Dated E) (spawn withProcess) := by
  refine Moves.bind ?_ fun t => Moves.bind ?_ fun _ => dated_runqueueAdd t
  · exact (dated_new _).bind fun _ => (dated_linkInit _).bind fun _ => moves_pure _
  · cases withProcess with
    | false => exact moves_pure _
    | true =>
      refine Moves.bind ?_ fun _ => dated_store (.inr fun _ => rfl)
      exact fun s => dated_of_threads rfl rfl

theorem dated_threadExit : Moves (Dated E) threadExit := by
  refine (dated_read _).bind fun current => Moves.bind ?_ fun _ => dated_kschedYield
  rw [markExit]
  split
  · exact moves_pure _
  refine (dated_read _).bind fun x => Moves.bind ?_ fun _ => dated_setState _ _
  rw [endProcess]
  split
  · exact dated_storeProc _ _
  · exact moves_pure _

theorem dated_procReap (p : Nat) : Moves (Dated E) (procReap p) := by
  refine (dated_read _).bind fun found => ?_
  cases found with
  | none => exact moves_fail _
  | some y =>
    dsimp only
    split
    · exact moves_fail _
    refine Moves.bind ?_ fun _ => dated_releaseProc _
    rw [reapThread]
    split
    · exact moves_pure _
    · exact (dated_runqueueRemove _).bind fun _ => dated_release

end Calls

end CfKernel.Sched
