import CfKernel.Errno
import CfKernel.Lib.Heap
import CfKernel.Lib.Ring
import CfKernel.Lib.Run

/-!
# The scheduler

`sched.c` with the links of `list.h`, and what `exec.c`, `thread.c` and `proc.c` do to threads. A
thread that was freed cannot be touched. Stacks, contexts, page directories and signals are left
out: no function here reads them. `enqueued` and `dispatched` are not in the code; they record the
threads that were put into the run queue and those that were taken out of it to run, in order.
-/

namespace CfKernel.Sched

open Lib Lib.Eff

inductive ThreadState where
  | runnable
  | running
  | zombie
  | sleeping
  deriving DecidableEq

/-- `Thread` without its link. Pointers are numbers, and `NULL` is zero. -/
structure Thread where
  state : ThreadState
  wakeupTick : Nat
  nextSleep : Nat
  proc : Nat

/-- `process_t` as far as threads are concerned. -/
structure Process where
  alive : Bool
  thread : Nat

/-- The places that hold a `Link`. -/
inductive LinkRef where
  | runQueue
  | thread (t : Nat)
  deriving DecidableEq

structure Scheduler where
  threads : Heap Thread
  links : Links LinkRef
  procs : Heap Process
  current : Nat
  idleThread : Nat
  sleepQueue : Nat
  pitTicks : Nat
  reschedulePending : Bool
  enqueued : List Nat
  dispatched : List Nat

abbrev SchedM := Eff (Trap Errno) Scheduler

def threads : Field Scheduler (Heap Thread) :=
  ⟨Scheduler.threads, fun h s => { s with threads := h }⟩

def procs : Field Scheduler (Heap Process) := ⟨Scheduler.procs, fun h s => { s with procs := h }⟩

section Links

/-- The link can be accessed: it is the head of the queue or in a thread that is there. -/
def Scheduler.valid (s : Scheduler) : LinkRef → Bool
  | .runQueue => true
  | .thread t => (s.threads.cell t).isSome

def deref (r : Option LinkRef) : SchedM LinkRef := Eff.read fun s =>
  match r with
  | none => .error .fault
  | some x => if s.valid x then .ok x else .error .fault

def linkNext (x : LinkRef) : SchedM (Option LinkRef) := do
  let x ← deref (some x)
  Eff.read fun s => .ok (s.links.next x)

def linkPrev (x : LinkRef) : SchedM (Option LinkRef) := do
  let x ← deref (some x)
  Eff.read fun s => .ok (s.links.prev x)

def linkInit (x : LinkRef) : SchedM Unit := do
  let x ← deref (some x)
  Eff.modify fun s => { s with links := s.links.alone x }

def linkBefore (a x : LinkRef) : SchedM Unit := do
  let p ← linkPrev a
  let p ← deref p
  let x ← deref (some x)
  Eff.modify fun s => { s with links := s.links.insert p x a }

def linkRemove (x : LinkRef) : SchedM Unit := do
  let p ← linkPrev x
  let n ← linkNext x
  let n ← deref n
  let p ← deref p
  Eff.modify fun s => { s with links := s.links.remove p x n }

end Links

section RunQueue

def setState (t : Nat) (state : ThreadState) : SchedM Unit :=
  threads.store t fun x => { x with state }

/-- A link that is in no list is made a list of its own. -/
def readyLink (t : Nat) (next : Option LinkRef) : SchedM Unit :=
  if next = none then linkInit (.thread t) else pure ()

def runqueueAdd (t : Nat) : SchedM Unit := do
  let idle ← Eff.read fun s => .ok s.idleThread
  if t = 0 ∨ t = idle then pure ()
  else do
    let next ← linkNext (.thread t)
    if next ≠ none ∧ next ≠ some (.thread t) then pure ()
    else do
      readyLink t next
      setState t .runnable
      linkBefore .runQueue (.thread t)
      Eff.modify fun s => { s with enqueued := s.enqueued ++ [t] }

def runqueueRemove (t : Nat) : SchedM Unit :=
  if t = 0 then pure ()
  else do
    let next ← linkNext (.thread t)
    if next = none ∨ next = some (.thread t) then pure () else linkRemove (.thread t)

/-- The link is in a thread, since the queue is not empty. -/
def linkData : LinkRef → SchedM Nat
  | .runQueue => Eff.fail .fault
  | .thread t => pure t

def runqueueNext : SchedM Nat := do
  let next ← linkNext .runQueue
  if next ≠ some .runQueue then do
    let link ← deref next
    let t ← linkData link
    linkRemove link
    Eff.modify fun s => { s with dispatched := s.dispatched ++ [t] }
    pure t
  else Eff.read fun s => .ok s.idleThread

def schedActivateThread (t : Nat) : SchedM Unit :=
  if t = 0 then pure ()
  else do
    Eff.modify fun s => { s with current := t }
    setState t .running

end RunQueue

section Calls

/-- The start of `ksched_yield`: a running thread goes to the end of the queue. -/
def requeueCurrent (c : Nat) : SchedM Unit := do
  let idle ← Eff.read fun s => .ok s.idleThread
  if c ≠ 0 ∧ c ≠ idle then do
    let x ← threads.load c
    if x.state = .running then runqueueAdd c else pure ()
  else pure ()

def kschedYield : SchedM Unit := do
  let current ← Eff.read fun s => .ok s.current
  requeueCurrent current
  let next ← runqueueNext
  if next = 0 ∨ next = current then
    if current ≠ 0 then setState current .running else pure ()
  else schedActivateThread next

def schedSleep (ticks : Nat) : SchedM Unit := do
  let current ← Eff.read fun s => .ok s.current
  let idle ← Eff.read fun s => .ok s.idleThread
  if current = 0 ∨ current = idle then pure ()
  else do
    let now ← Eff.read fun s => .ok s.pitTicks
    let head ← Eff.read fun s => .ok s.sleepQueue
    threads.store current fun x =>
      { x with
        wakeupTick := (now + if ticks = 0 then 1 else ticks) % 2 ^ 64
        state := .sleeping
        nextSleep := head }
    Eff.modify fun s => { s with sleepQueue := current }
    kschedYield

/-- `*link`, where `link` is the address of `sleep_queue` or of a thread's `next_sleep`. -/
def readSlot : Option Nat → SchedM Nat
  | none => Eff.read fun s => .ok s.sleepQueue
  | some t => do
    let x ← threads.load t
    pure x.nextSleep

def writeSlot (new : Nat) : Option Nat → SchedM Unit
  | none => Eff.modify fun s => { s with sleepQueue := new }
  | some t => threads.store t fun x => { x with nextSleep := new }

/-- The thread `t` that `link` points to goes to the run queue. -/
def wakeThread (link : Option Nat) (t : Nat) : SchedM Unit := do
  let x ← threads.load t
  writeSlot x.nextSleep link
  threads.store t fun x => { x with nextSleep := 0, wakeupTick := 0 }
  runqueueAdd t

/-- The loop of `sched_wake_sleepers`, at `link`. -/
def wakeFrom : Nat → Option Nat → SchedM Unit
  | 0, _ => Eff.fail .fault
  | n + 1, link => do
    let t ← readSlot link
    if t = 0 then pure ()
    else do
      let x ← threads.load t
      let now ← Eff.read fun s => .ok s.pitTicks
      if x.wakeupTick ≤ now then do
        wakeThread link t
        wakeFrom n link
      else wakeFrom n (some t)

/-- Each turn passes a thread of the sleep queue or takes one out: there are enough turns when no
thread is in the queue twice. -/
def schedWakeSleepers : SchedM Unit := do
  let turns ← Eff.read fun s => .ok s.threads.next
  wakeFrom turns none

def schedTick : SchedM Unit := do
  schedWakeSleepers
  Eff.modify fun s => { s with reschedulePending := true }

/-- `pit_irq`: the counter has 32 bits. -/
def pitTick : SchedM Unit := do
  Eff.modify fun s => { s with pitTicks := (s.pitTicks + 1) % 2 ^ 32 }
  schedTick

def schedMaybeResched : SchedM Unit := do
  let pending ← Eff.read fun s => .ok s.reschedulePending
  if pending then do
    Eff.modify fun s => { s with reschedulePending := false }
    kschedYield
  else pure ()

/-- `thread_create` with memory. -/
def threadCreate : SchedM Nat := do
  let t ← threads.new ⟨.runnable, 0, 0, 0⟩
  linkInit (.thread t)
  pure t

/-- `proc_create` and `proc_attach_thread`, for a thread of a new process. -/
def attachProcess (t : Nat) : Bool → SchedM Unit
  | false => pure ()
  | true => do
    let p ← procs.new ⟨true, t⟩
    threads.store t fun x => { x with proc := p }

/-- A new thread, of a new process or of the kernel, goes to `sched_add`. -/
def spawn (withProcess : Bool) : SchedM Unit := do
  let t ← threadCreate
  attachProcess t withProcess
  runqueueAdd t

/-- The process of a thread ends, if it has one. -/
def endProcess (p : Nat) : SchedM Unit :=
  if p ≠ 0 then procs.store p fun y => { y with alive := false } else pure ()

/-- `proc_mark_exit`, and the end of a thread without a process. -/
def markExit (t : Nat) : SchedM Unit :=
  if t = 0 then pure ()
  else do
    let x ← threads.load t
    endProcess x.proc
    setState t .zombie

/-- `SYS_exit` and `thread_exit`. -/
def threadExit : SchedM Unit := do
  let current ← Eff.read fun s => .ok s.current
  markExit current
  kschedYield

/-- What `proc_reap` does with the thread. -/
def reapThread (t : Nat) : SchedM Unit :=
  if t = 0 then pure ()
  else do
    runqueueRemove t
    threads.release t

/-- `proc_reap`, with the process that the number stands for. -/
def procReap (p : Nat) : SchedM Unit := do
  let found ← Eff.read fun s => .ok (s.procs.cell p)
  match found with
  | none => Eff.fail (.code .processNotFound)
  | some y =>
    if y.alive then Eff.fail (.code .busy)
    else do
      reapThread y.thread
      procs.release p

end Calls

inductive Event where
  | add (withProcess : Bool)
  | yield
  | sleep (ticks : Nat)
  | wake
  | tick
  | resched
  | exit
  | reap (p : Nat)

def Event.run : Event → SchedM Unit
  | .add withProcess => spawn withProcess
  | .yield => kschedYield
  | .sleep ticks => schedSleep ticks
  | .wake => schedWakeSleepers
  | .tick => pitTick
  | .resched => schedMaybeResched
  | .exit => threadExit
  | .reap p => procReap p

def schedStep (e : Event) (s : Scheduler) : Scheduler := (e.run s).2

/-- The idle thread halts in a loop and never ends. -/
def Possible (e : Event) (s : Scheduler) : Prop := e = .exit → s.current ≠ s.idleThread

def unstarted : Scheduler where
  threads := Heap.empty
  links := Links.alone ⟨fun _ => none, fun _ => none⟩ .runQueue
  procs := Heap.empty
  current := 0
  idleThread := 0
  sleepQueue := 0
  pitTicks := 0
  reschedulePending := false
  enqueued := []
  dispatched := []

/-- `sched_init`, with memory. -/
def schedInit : Scheduler :=
  { (threadCreate unstarted).2 with idleThread := 1 }

end CfKernel.Sched
