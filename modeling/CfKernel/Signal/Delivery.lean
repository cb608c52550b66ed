import CfKernel.Signal.Queue

/-!
# Delivery of signals

A thread's signal state is a mask, the set of pending ordinary signals and the queue of real-time
ones. `signal_fetch` looks at the front of the queue only: a masked signal there hides every one
behind it. What is outstanding is read off the history of adds and fetches, so that the property is
stated without the state; it holds exactly where no masked front hides an unmasked signal.
-/

namespace CfKernel.Signal

open Lib Lib.Eff Function

section Sets

/-- `sigset_t`: 64 bits in two words, `unsigned long` being 32 bits wide. -/
structure SigSet where
  bits : Fin 2 → BitVec 32

variable {sig j : Int} {set : SigSet}

def IsSignal (sig : Int) : Prop := ¬(sig < sigMin ∨ sigMax < sig)

instance (sig : Int) : Decidable (IsSignal sig) := inferInstanceAs (Decidable (¬_))

theorem word_lt (h : IsSignal sig) : (sig - 1).toNat / 32 < 2 := by
  simp only [IsSignal, sigMin, sigMax] at h
  omega

def word (sig : Int) (h : IsSignal sig) : Fin 2 := ⟨(sig - 1).toNat / 32, word_lt h⟩

def offset (sig : Int) : Nat := (sig - 1).toNat % 32

def sigemptyset : SigSet := ⟨fun _ => 0#32⟩

def sigaddset (set : SigSet) (sig : Int) : SigSet :=
  if h : IsSignal sig then
    ⟨update set.bits (word sig h) (set.bits (word sig h) ||| 1#32 <<< offset sig)⟩
  else set

def sigdelset (set : SigSet) (sig : Int) : SigSet :=
  if h : IsSignal sig then
    ⟨update set.bits (word sig h) (set.bits (word sig h) &&& ~~~(1#32 <<< offset sig))⟩
  else set

def sigismember (set : SigSet) (sig : Int) : Bool :=
  if h : IsSignal sig then decide (set.bits (word sig h) &&& 1#32 <<< offset sig ≠ 0#32) else false

theorem offset_lt (sig : Int) : offset sig < 32 := Nat.mod_lt _ (by decide)

theorem sigismember_eq (h : IsSignal sig) :
    sigismember set sig = (set.bits (word sig h)).getLsbD (offset sig) := by
  have hbit : (BitVec.twoPow 32 (offset sig)).getLsbD (offset sig) = true := by
    rw [BitVec.getLsbD_twoPow, decide_eq_true (offset_lt sig), decide_eq_true rfl, Bool.and_self]
  have hne : BitVec.twoPow 32 (offset sig) ≠ 0#32 := by
    intro he
    rw [he, BitVec.getLsbD_zero] at hbit
    cases hbit
  rw [sigismember, dif_pos h, ← BitVec.twoPow_eq, BitVec.and_twoPow]
  cases (set.bits (word sig h)).getLsbD (offset sig) with
  | true => rw [if_pos rfl, decide_eq_true hne]
  | false => rw [if_neg Bool.false_ne_true, decide_eq_false (not_not_intro rfl)]

theorem sigismember_isSignal (h : sigismember set sig = true) : IsSignal sig := by
  by_contra hsig
  rw [sigismember, dif_neg hsig] at h
  cases h

theorem signal_eq (h : IsSignal sig) (h' : IsSignal j) (hword : word j h' = word sig h)
    (hoff : offset j = offset sig) : j = sig := by
  have hw : (j - 1).toNat / 32 = (sig - 1).toNat / 32 := Fin.val_eq_of_eq hword
  simp only [offset] at hoff
  simp only [IsSignal, sigMin, sigMax] at h h'
  omega

/-- A change of one word, told by its bits: the bit of `sig` by `b`, the others by what they were. -/
theorem sigismember_update {v : BitVec 32} {b : Bool} (h : IsSignal sig)
    (hself : v.getLsbD (offset sig) = b)
    (hother : ∀ k, k < 32 → k ≠ offset sig →
      v.getLsbD k = (set.bits (word sig h)).getLsbD k) :
    sigismember ⟨update set.bits (word sig h) v⟩ j =
      if j = sig then b else sigismember set j := by
  by_cases hj : IsSignal j
  · rw [sigismember_eq hj]
    change (update set.bits (word sig h) v (word j hj)).getLsbD (offset j) = _
    by_cases hword : word j hj = word sig h
    · rw [hword, update_self]
      by_cases hoff : offset j = offset sig
      · rw [hoff, hself, if_pos (signal_eq h hj hword hoff)]
      · have hne : j ≠ sig := fun he => hoff (he ▸ rfl)
        rw [if_neg hne, hother _ (offset_lt j) hoff, sigismember_eq hj, hword]
    · have hne : j ≠ sig := by
        rintro rfl
        exact hword rfl
      rw [update_of_ne hword, if_neg hne, sigismember_eq hj]
  · have hne : j ≠ sig := by
      rintro rfl
      exact hj h
    rw [if_neg hne, sigismember, sigismember, dif_neg hj, dif_neg hj]

theorem sigismember_sigaddset (h : IsSignal sig) :
    sigismember (sigaddset set sig) j = if j = sig then true else sigismember set j := by
  rw [sigaddset, dif_pos h, ← BitVec.twoPow_eq]
  refine sigismember_update h ?_ fun k hk hne => ?_
  · rw [BitVec.getLsbD_or, BitVec.getLsbD_twoPow, decide_eq_true (offset_lt sig),
      decide_eq_true rfl, Bool.and_self, Bool.or_true]
  · rw [BitVec.getLsbD_or, BitVec.getLsbD_twoPow, decide_eq_false hne.symm, Bool.and_false,
      Bool.or_false]

theorem sigismember_sigdelset (h : IsSignal sig) :
    sigismember (sigdelset set sig) j = if j = sig then false else sigismember set j := by
  rw [sigdelset, dif_pos h, ← BitVec.twoPow_eq]
  refine sigismember_update h ?_ fun k hk hne => ?_
  · rw [BitVec.getLsbD_and, BitVec.getLsbD_not, BitVec.getLsbD_twoPow,
      decide_eq_true (offset_lt sig), decide_eq_true rfl, Bool.and_self, Bool.not_true,
      Bool.and_false, Bool.and_false]
  · rw [BitVec.getLsbD_and, BitVec.getLsbD_not, BitVec.getLsbD_twoPow, decide_eq_true hk,
      decide_eq_false hne.symm, Bool.and_false, Bool.not_false, Bool.and_true, Bool.and_true]

theorem sigismember_sigemptyset (sig : Int) : sigismember sigemptyset sig = false := by
  by_cases h : IsSignal sig
  · rw [sigismember_eq h, sigemptyset, BitVec.getLsbD_zero]
  · rw [sigismember, dif_neg h]

end Sets

section Source

structure SigState where
  mask : SigSet
  pending : SigSet
  rtQueue : Rtq

abbrev SigM := Eff (Trap SigError) SigState

def rtQueue : Field SigState Rtq := ⟨SigState.rtQueue, fun q s => { s with rtQueue := q }⟩

/-- `SIGRTMIN` to `SIGRTMAX`. -/
def IsRealtime (sig : Int) : Prop := 34 ≤ sig ∧ sig ≤ 64

instance (sig : Int) : Decidable (IsRealtime sig) := inferInstanceAs (Decidable (_ ∧ _))

def signalThreadInit : SigM Unit := do
  modify fun s => { s with mask := sigemptyset, pending := sigemptyset }
  rtQueue.zoom rtqInit

def signalAdd (sig : Int) (info : Option SigInfo) : SigM Unit :=
  if sig < sigMin ∨ sigMax < sig then fail (.code .minusEinval)
  else if IsRealtime sig then rtQueue.zoom (rtqEnqueue sig info)
  else modify fun s => { s with pending := sigaddset s.pending sig }

/-- The front of the real-time queue, if it is not masked. -/
def unmaskedFront : SigM (Option RtqEntry) := do
  let empty ← rtQueue.zoom rtqIsEmpty
  if empty then pure none else do
    let peeked ← attempt (rtQueue.zoom rtqPeek)
    match peeked with
    | .error (.code _) => pure none
    | .error .fault => fail .fault
    | .ok e => Eff.read fun s => .ok (if sigismember s.mask e.sig then none else some e)

/-- The first number from `SIG_MIN` to `SIG_MAX` that is pending and not masked. -/
def scanPending (s : SigState) : Option Int :=
  ((List.range 64).map fun n => sigMin + n).find? fun sig =>
    sigismember s.pending sig && !sigismember s.mask sig

def fetchPending : SigM RtqEntry := do
  let found ← Eff.read fun s => .ok (scanPending s)
  match found with
  | none => fail (.code .minusEnoent)
  | some sig => do
    modify fun s => { s with pending := sigdelset s.pending sig }
    pure ⟨sig, SigInfo.ofSig sig⟩

def signalFetch : SigM RtqEntry := do
  let front ← unmaskedFront
  match front with
  -- the code of `rtq_dequeue` is not looked at: the entry was just seen
  | some _ => rtQueue.zoom rtqDequeue
  | none => fetchPending

def signalBlock (set : SigSet) : SigM Unit :=
  modify fun s => { s with mask := ⟨fun i => s.mask.bits i ||| set.bits i⟩ }

def signalUnblock (set : SigSet) : SigM Unit :=
  modify fun s => { s with mask := ⟨fun i => s.mask.bits i &&& ~~~set.bits i⟩ }

def signalHasPendingUnmasked : SigM Bool := do
  let front ← unmaskedFront
  match front with
  | some _ => pure true
  | none => Eff.read fun s => .ok (scanPending s).isSome

end Source

section History

inductive SigCall where
  | add (sig : Int) (info : Option SigInfo)
  | block (set : SigSet)
  | unblock (set : SigSet)
  | fetch

/-- What happened: the adds that returned 0 and the signals fetched. -/
inductive SigEvent where
  | added (e : RtqEntry)
  | fetched (e : RtqEntry)

structure SigRun where
  state : SigState
  log : List SigEvent

def SigRun.step (c : SigCall) (w : SigRun) : SigRun :=
  match c with
  | .add sig info =>
    match signalAdd sig info w.state with
    | (.ok (), s) => ⟨s, w.log ++ [.added (payload sig info)]⟩
    | (.error _, s) => { w with state := s }
  | .block set => { w with state := (signalBlock set w.state).2 }
  | .unblock set => { w with state := (signalUnblock set w.state).2 }
  | .fetch =>
    match signalFetch w.state with
    | (.ok e, s) => ⟨s, w.log ++ [.fetched e]⟩
    | (.error _, s) => { w with state := s }

/-- A thread's state after `signal_thread_init` in memory that held `s`. -/
def SigRun.start (s : SigState) : SigRun := ⟨(signalThreadInit s).2, []⟩

/-- The real-time signals added and not yet fetched, oldest first. -/
def waiting (log : List SigEvent) : List RtqEntry :=
  log.foldl (fun l ev => match ev with
    | .added e => if IsRealtime e.sig then l ++ [e] else l
    | .fetched e => if IsRealtime e.sig then l.erase e else l) []

/-- The ordinary signal was added and not fetched since. -/
def ordinary (sig : Int) (log : List SigEvent) : Bool :=
  log.foldl (fun b ev => match ev with
    | .added e => b || decide (e.sig = sig ∧ ¬IsRealtime sig)
    | .fetched e => b && decide (e.sig ≠ sig)) false

def Outstanding (log : List SigEvent) (sig : Int) : Prop :=
  ordinary sig log = true ∨ ∃ e ∈ waiting log, e.sig = sig

def realtimeAdded (log : List SigEvent) : List RtqEntry := log.filterMap fun ev => match ev with
  | .added e => if IsRealtime e.sig then some e else none
  | .fetched _ => none

def realtimeFetched (log : List SigEvent) : List RtqEntry := log.filterMap fun ev => match ev with
  | .added _ => none
  | .fetched e => if IsRealtime e.sig then some e else none

variable {log : List SigEvent} {e : RtqEntry} {sig j : Int}

theorem waiting_added_realtime (h : IsRealtime e.sig) :
    waiting (log ++ [.added e]) = waiting log ++ [e] := by
  rw [waiting, List.foldl_append]
  exact if_pos h

theorem waiting_added_ordinary (h : ¬IsRealtime e.sig) :
    waiting (log ++ [.added e]) = waiting log := by
  rw [waiting, List.foldl_append]
  exact if_neg h

theorem waiting_fetched_realtime (h : IsRealtime e.sig) :
    waiting (log ++ [.fetched e]) = (waiting log).erase e := by
  rw [waiting, List.foldl_append]
  exact if_pos h

theorem waiting_fetched_ordinary (h : ¬IsRealtime e.sig) :
    waiting (log ++ [.fetched e]) = waiting log := by
  rw [waiting, List.foldl_append]
  exact if_neg h

theorem ordinary_added :
    ordinary sig (log ++ [.added e]) =
      (ordinary sig log || decide (e.sig = sig ∧ ¬IsRealtime sig)) := by
  rw [ordinary, List.foldl_append]
  rfl

theorem ordinary_fetched :
    ordinary sig (log ++ [.fetched e]) = (ordinary sig log && decide (e.sig ≠ sig)) := by
  rw [ordinary, List.foldl_append]
  rfl

end History

section Invariant

/-- The queue and the pending set hold what is outstanding. -/
structure Tracks (w : SigRun) : Prop where
  queue : ∃ us fs, Holds w.state.rtQueue us fs ∧ waiting w.log = us.map w.state.rtQueue.pool
  realtime : ∀ e ∈ waiting w.log, IsRealtime e.sig
  pending : ∀ sig, sigismember w.state.pending sig = ordinary sig w.log
  once : realtimeAdded w.log = realtimeFetched w.log ++ waiting w.log

variable {w : SigRun} {e : RtqEntry} {sig : Int} {rest : List RtqEntry}

theorem IsRealtime.isSignal (h : IsRealtime sig) : IsSignal sig := by
  obtain ⟨hmin, hmax⟩ := h
  simp only [IsSignal, sigMin, sigMax]
  omega

theorem ordinary_not_realtime (h : ordinary sig log = true) : ¬IsRealtime sig := by
  induction log using List.reverseRecOn with
  | nil => cases h
  | append_singleton log ev ih =>
    cases ev with
    | added e =>
      rw [ordinary_added, Bool.or_eq_true, decide_eq_true_iff] at h
      exact h.elim ih And.right
    | fetched e =>
      rw [ordinary_fetched, Bool.and_eq_true] at h
      exact ih h.1

section Runs

variable {q : Rtq} {us fs : List (Fin 64)} {s : SigState}

theorem unmaskedFront_nil (h : Holds s.rtQueue [] fs) : unmaskedFront s = (.ok none, s) := by
  rw [unmaskedFront, bind_ok (Field.zoom_run (isEmpty_run h)), decide_eq_true rfl, if_pos rfl]
  rfl

theorem unmaskedFront_cons {i : Fin 64} (h : Holds s.rtQueue (i :: us) fs) :
    unmaskedFront s = (.ok (if sigismember s.mask (s.rtQueue.pool i).sig then none
      else some (s.rtQueue.pool i)), s) := by
  rw [unmaskedFront, bind_ok (Field.zoom_run (isEmpty_run h)),
    decide_eq_false (List.cons_ne_nil i us), if_neg Bool.false_ne_true,
    bind_ok (attempt_run (Field.zoom_run (peek_cons h)))]
  rfl

theorem scanPending_some (h : scanPending s = some sig) :
    sigismember s.pending sig = true ∧ sigismember s.mask sig = false := by
  have hp := List.find?_some h
  rw [Bool.and_eq_true, Bool.not_eq_true'] at hp
  exact hp

theorem scanPending_none (h : scanPending s = none) (hsig : sigismember s.pending sig = true) :
    sigismember s.mask sig = true := by
  have hmem : sig ∈ (List.range 64).map fun n : Nat => sigMin + n := by
    have hs := sigismember_isSignal hsig
    simp only [IsSignal, sigMin, sigMax] at hs
    refine List.mem_map.mpr ⟨(sig - 1).toNat, List.mem_range.mpr (by omega), ?_⟩
    simp only [sigMin]
    omega
  have hp := List.find?_eq_none.mp h sig hmem
  rw [hsig, Bool.true_and, Bool.not_eq_true, Bool.not_eq_false'] at hp
  exact hp

theorem fetchPending_some (h : scanPending s = some sig) : fetchPending s =
    (.ok ⟨sig, SigInfo.ofSig sig⟩, { s with pending := sigdelset s.pending sig }) := by
  rw [fetchPending, bind_run, Eff.read, andThen_ok, h]
  rfl

theorem fetchPending_none (h : scanPending s = none) :
    fetchPending s = (.error (.code .minusEnoent), s) := by
  rw [fetchPending, bind_run, Eff.read, andThen_ok, h]
  rfl

end Runs

/-- The oldest real-time signal, if it can be delivered. -/
def SigRun.front (w : SigRun) : Option RtqEntry :=
  (waiting w.log).head?.filter fun e => !sigismember w.state.mask e.sig

theorem front_run (hw : Tracks w) : unmaskedFront w.state = (.ok w.front, w.state) := by
  obtain ⟨us, fs, hq, hwait⟩ := hw.queue
  rw [SigRun.front, hwait]
  cases us with
  | nil => exact unmaskedFront_nil hq
  | cons i us =>
    rw [unmaskedFront_cons hq, List.map_cons, List.head?_cons, Option.filter_some]
    cases sigismember w.state.mask (w.state.rtQueue.pool i).sig <;> rfl

theorem front_some (h : w.front = some e) :
    (∃ rest, waiting w.log = e :: rest) ∧ sigismember w.state.mask e.sig = false := by
  rw [SigRun.front, Option.filter_eq_some_iff, Bool.not_eq_true'] at h
  exact ⟨List.head?_eq_some_iff.mp h.1, h.2⟩

theorem front_none (h : w.front = none) (hwait : waiting w.log = e :: rest) :
    sigismember w.state.mask e.sig = true := by
  rw [SigRun.front, hwait, List.head?_cons, Option.filter_eq_none_iff] at h
  simpa using h e rfl

theorem fetch_front (hw : Tracks w) (h : w.front = some e) :
    ∃ q rest us fs, signalFetch w.state = (.ok e, { w.state with rtQueue := q }) ∧
      waiting w.log = e :: rest ∧ Holds q us fs ∧ rest = us.map q.pool := by
  obtain ⟨⟨rest, hwait⟩, _⟩ := front_some h
  obtain ⟨us, fs, hq, hmap⟩ := hw.queue
  rw [hwait] at hmap
  cases us with
  | nil => cases hmap
  | cons i us =>
    obtain ⟨he, hrest⟩ := List.cons.inj hmap
    obtain ⟨q, hrun, hq', hmap'⟩ := dequeue_cons hq
    refine ⟨q, rest, us, i :: fs, ?_, hwait, hq', hrest.trans hmap'.symm⟩
    rw [signalFetch, bind_ok (front_run hw), h, he]
    exact Field.zoom_run hrun

theorem fetch_pending (hw : Tracks w) (h : w.front = none) :
    signalFetch w.state = fetchPending w.state := by
  rw [signalFetch, bind_ok (front_run hw), h]

theorem hasPending_run (hw : Tracks w) : signalHasPendingUnmasked w.state =
    (.ok (w.front.isSome || (scanPending w.state).isSome), w.state) := by
  rw [signalHasPendingUnmasked, bind_ok (front_run hw)]
  cases w.front <;> rfl

end Invariant

section Steps

variable {w : SigRun}

theorem start_eq (s : SigState) :
    ∃ q, SigRun.start s = ⟨⟨sigemptyset, sigemptyset, q⟩, []⟩ ∧ ∃ fs, Holds q [] fs := by
  obtain ⟨q, hrun, hq⟩ := init_run s.rtQueue
  have hinit : signalThreadInit s = (.ok (), ⟨sigemptyset, sigemptyset, q⟩) := by
    rw [signalThreadInit, bind_run, modify_run, andThen_ok]
    exact Field.zoom_run hrun
  exact ⟨q, by rw [SigRun.start, hinit], _, hq⟩

theorem tracks_start (s : SigState) : Tracks (SigRun.start s) := by
  obtain ⟨q, hstart, fs, hq⟩ := start_eq s
  rw [hstart]
  exact ⟨⟨[], fs, hq, rfl⟩, fun e he => absurd he List.not_mem_nil, sigismember_sigemptyset, rfl⟩

theorem tracks_addPending {e : RtqEntry} (hw : Tracks w) (hsig : IsSignal e.sig)
    (hrt : ¬IsRealtime e.sig) : Tracks ⟨{ w.state with pending := sigaddset w.state.pending e.sig },
      w.log ++ [.added e]⟩ := by
  have hwait : waiting (w.log ++ [.added e]) = waiting w.log := waiting_added_ordinary hrt
  constructor
  case queue => rw [hwait]; exact hw.queue
  case realtime => rw [hwait]; exact hw.realtime
  case pending =>
    intro j
    rw [sigismember_sigaddset hsig, ordinary_added, hw.pending]
    split_ifs with hj
    · rw [hj, decide_eq_true ⟨rfl, hrt⟩, Bool.or_true]
    · rw [decide_eq_false (fun h => hj h.1.symm), Bool.or_false]
  case once =>
    rw [hwait, realtimeAdded, realtimeFetched, List.filterMap_append, List.filterMap_append]
    simp only [List.filterMap_cons, List.filterMap_nil, if_neg hrt, List.append_nil]
    exact hw.once

theorem tracks_addQueue {e : RtqEntry} {q : Rtq} {us fs : List (Fin 64)} (hw : Tracks w)
    (hrt : IsRealtime e.sig) (hq : Holds q us fs) (hmap : us.map q.pool = waiting w.log ++ [e]) :
    Tracks ⟨{ w.state with rtQueue := q }, w.log ++ [.added e]⟩ := by
  have hwait : waiting (w.log ++ [.added e]) = waiting w.log ++ [e] := waiting_added_realtime hrt
  constructor
  case queue => exact ⟨us, fs, hq, hwait.trans hmap.symm⟩
  case realtime =>
    intro e' he'
    rw [hwait, List.mem_append, List.mem_singleton] at he'
    rcases he' with he' | rfl
    · exact hw.realtime e' he'
    · exact hrt
  case pending =>
    intro j
    have hne : ¬(e.sig = j ∧ ¬IsRealtime j) := fun h => h.2 (h.1 ▸ hrt)
    rw [ordinary_added, hw.pending, decide_eq_false hne, Bool.or_false]
  case once =>
    rw [hwait, realtimeAdded, realtimeFetched, List.filterMap_append, List.filterMap_append]
    simp only [List.filterMap_cons, List.filterMap_nil, if_pos hrt, List.append_nil]
    rw [← List.append_assoc]
    exact congrArg (· ++ [e]) hw.once

theorem add_realtime {sig : Int} (info : Option SigInfo) (hw : Tracks w) (hrt : IsRealtime sig)
    (hlen : (waiting w.log).length ≠ 64) :
    ∃ q us fs, signalAdd sig info w.state = (.ok (), { w.state with rtQueue := q }) ∧
      Holds q us fs ∧ us.map q.pool = waiting w.log ++ [payload sig info] := by
  obtain ⟨us, fs, hq, hwait⟩ := hw.queue
  rw [hwait, List.length_map] at hlen
  obtain ⟨q, us', fs', hrun, hq', hmap⟩ := enqueue_room info hq hrt.isSignal hlen
  refine ⟨q, us', fs', ?_, hq', by rw [hmap, hwait]⟩
  rw [signalAdd, if_neg hrt.isSignal, if_pos hrt]
  exact Field.zoom_run hrun

theorem add_full {sig : Int} (info : Option SigInfo) (hw : Tracks w) (hrt : IsRealtime sig)
    (hlen : (waiting w.log).length = 64) :
    signalAdd sig info w.state = (.error (.code .busy), w.state) := by
  obtain ⟨us, fs, hq, hwait⟩ := hw.queue
  rw [hwait, List.length_map] at hlen
  rw [signalAdd, if_neg hrt.isSignal, if_pos hrt,
    Field.zoom_run (enqueue_full hq hrt.isSignal hlen)]
  rfl

theorem tracks_add (sig : Int) (info : Option SigInfo) (hw : Tracks w) :
    Tracks (w.step (.add sig info)) := by
  by_cases hsig : sig < sigMin ∨ sigMax < sig
  · have hrun : signalAdd sig info w.state = (.error (.code .minusEinval), w.state) := by
      rw [signalAdd, if_pos hsig, fail_run]
    rw [SigRun.step, hrun]
    exact hw
  by_cases hrt : IsRealtime sig
  · by_cases hlen : (waiting w.log).length = 64
    · rw [SigRun.step, add_full info hw hrt hlen]
      exact hw
    · obtain ⟨q, us, fs, hrun, hq, hmap⟩ := add_realtime info hw hrt hlen
      rw [SigRun.step, hrun]
      exact tracks_addQueue hw hrt hq hmap
  · have hrun : signalAdd sig info w.state =
        (.ok (), { w.state with pending := sigaddset w.state.pending sig }) := by
      rw [signalAdd, if_neg hsig, if_neg hrt, modify_run]
    rw [SigRun.step, hrun]
    exact tracks_addPending (e := payload sig info) hw hsig hrt

theorem tracks_fetch (hw : Tracks w) : Tracks (w.step .fetch) := by
  cases hfront : w.front with
  | some e =>
    obtain ⟨q, rest, us, fs, hrun, hwait, hq, hrest⟩ := fetch_front hw hfront
    have hrt : IsRealtime e.sig := hw.realtime e (hwait ▸ List.mem_cons_self)
    have hwait' : waiting (w.log ++ [.fetched e]) = rest := by
      rw [waiting_fetched_realtime hrt, hwait, List.erase_cons_head]
    rw [SigRun.step, hrun]
    constructor
    case queue => exact ⟨us, fs, hq, hwait'.trans hrest⟩
    case realtime =>
      intro e' he'
      rw [hwait'] at he'
      exact hw.realtime e' (hwait ▸ List.mem_cons_of_mem e he')
    case pending =>
      intro j
      rw [ordinary_fetched, hw.pending]
      cases hj : ordinary j w.log with
      | false => rfl
      | true =>
        have hne : e.sig ≠ j := fun he => ordinary_not_realtime hj (he ▸ hrt)
        rw [decide_eq_true hne, Bool.and_self]
    case once =>
      have honce := hw.once
      rw [hwait', realtimeAdded, realtimeFetched, List.filterMap_append, List.filterMap_append]
      simp only [List.filterMap_cons, List.filterMap_nil, if_pos hrt, List.append_nil]
      rw [List.append_assoc, List.singleton_append, ← hwait]
      exact honce
  | none =>
    cases hscan : scanPending w.state with
    | none =>
      rw [SigRun.step, fetch_pending hw hfront, fetchPending_none hscan]
      exact hw
    | some sig =>
      obtain ⟨hpend, _⟩ := scanPending_some hscan
      have hrt : ¬IsRealtime sig := ordinary_not_realtime (hw.pending sig ▸ hpend)
      have hwait : waiting (w.log ++ [.fetched ⟨sig, SigInfo.ofSig sig⟩]) = waiting w.log :=
        waiting_fetched_ordinary hrt
      rw [SigRun.step, fetch_pending hw hfront, fetchPending_some hscan]
      constructor
      case queue => rw [hwait]; exact hw.queue
      case realtime => rw [hwait]; exact hw.realtime
      case pending =>
        intro j
        rw [sigismember_sigdelset (sigismember_isSignal hpend), ordinary_fetched, hw.pending]
        split_ifs with hj
        · rw [hj, decide_eq_false (not_not_intro rfl), Bool.and_false]
        · rw [decide_eq_true (Ne.symm hj), Bool.and_true]
      case once =>
        rw [hwait, realtimeAdded, realtimeFetched, List.filterMap_append, List.filterMap_append]
        simp only [List.filterMap_cons, List.filterMap_nil, if_neg hrt, List.append_nil]
        exact hw.once

theorem tracks_step (c : SigCall) (w : SigRun) (hw : Tracks w) : Tracks (w.step c) := by
  cases c with
  | add sig info => exact tracks_add sig info hw
  | block set => exact ⟨hw.queue, hw.realtime, hw.pending, hw.once⟩
  | unblock set => exact ⟨hw.queue, hw.realtime, hw.pending, hw.once⟩
  | fetch => exact tracks_fetch hw

end Steps

section Delivery

/-- What signal delivery is to do in a state: a fetch succeeds exactly when something outstanding is
not masked, never returns a masked signal, takes the oldest real-time signal that is not masked if
there is one, and no real-time signal is fetched more often than it was added. -/
structure Delivers (w : SigRun) : Prop where
  succeeds : (∃ e, (signalFetch w.state).1 = .ok e) ↔
    ∃ sig, Outstanding w.log sig ∧ sigismember w.state.mask sig = false
  unmasked : ∀ e, (signalFetch w.state).1 = .ok e → sigismember w.state.mask e.sig = false
  oldest : ∀ e, (waiting w.log).find? (fun e => !sigismember w.state.mask e.sig) = some e →
    (signalFetch w.state).1 = .ok e
  once : ∀ e, (realtimeFetched w.log).count e ≤ (realtimeAdded w.log).count e
  hasPending : ∃ b, (signalHasPendingUnmasked w.state).1 = .ok b ∧
    (b = true ↔ ∃ e, (signalFetch w.state).1 = .ok e)

/-- The oldest real-time signal is masked only if all are. -/
def FrontFair (w : SigRun) : Prop :=
  ∀ e rest, waiting w.log = e :: rest → sigismember w.state.mask e.sig = true →
    ∀ e' ∈ rest, sigismember w.state.mask e'.sig = true

variable {w : SigRun}

theorem delivers_front {e : RtqEntry} (hw : Tracks w) (hfront : w.front = some e) : Delivers w := by
  obtain ⟨q, rest, _, _, hrun, hwait, _⟩ := fetch_front hw hfront
  obtain ⟨_, hmask⟩ := front_some hfront
  have hres : (signalFetch w.state).1 = .ok e := by rw [hrun]
  constructor
  case succeeds =>
    have hout : Outstanding w.log e.sig := .inr ⟨e, hwait ▸ List.mem_cons_self, rfl⟩
    exact ⟨fun _ => ⟨e.sig, hout, hmask⟩, fun _ => ⟨e, hres⟩⟩
  case unmasked =>
    intro e' he'
    cases hres.symm.trans he'
    exact hmask
  case oldest =>
    intro e' he'
    rw [hwait, List.find?_cons_of_pos (by rw [hmask]; rfl)] at he'
    cases he'
    exact hres
  case once =>
    intro e
    rw [hw.once, List.count_append]
    exact Nat.le_add_right _ _
  case hasPending =>
    rw [hasPending_run hw, hfront]
    exact ⟨true, rfl, fun _ => ⟨e, hres⟩, fun _ => rfl⟩

theorem delivers_pending (hw : Tracks w) (hfront : w.front = none)
    (hmasked : ∀ e ∈ waiting w.log, sigismember w.state.mask e.sig = true) : Delivers w := by
  have hres : (∃ e, (signalFetch w.state).1 = .ok e) ↔ (scanPending w.state).isSome = true := by
    rw [fetch_pending hw hfront]
    cases hscan : scanPending w.state with
    | none =>
      rw [fetchPending_none hscan]
      refine ⟨?_, fun h => Bool.noConfusion h⟩
      rintro ⟨e, he⟩
      cases he
    | some sig =>
      rw [fetchPending_some hscan]
      exact ⟨fun _ => rfl, fun _ => ⟨_, rfl⟩⟩
  constructor
  case succeeds =>
    rw [hres]
    constructor
    · intro h
      obtain ⟨sig, hscan⟩ := Option.isSome_iff_exists.mp h
      obtain ⟨hpend, hmask⟩ := scanPending_some hscan
      exact ⟨sig, .inl (hw.pending sig ▸ hpend), hmask⟩
    · rintro ⟨sig, hout, hmask⟩
      rcases hout with hord | ⟨e, he, rfl⟩
      · by_contra hnone
        rw [Option.not_isSome_iff_eq_none] at hnone
        rw [scanPending_none hnone ((hw.pending sig).trans hord)] at hmask
        cases hmask
      · rw [hmasked e he] at hmask
        cases hmask
  case unmasked =>
    intro e he
    rw [fetch_pending hw hfront] at he
    cases hscan : scanPending w.state with
    | none =>
      rw [fetchPending_none hscan] at he
      cases he
    | some sig =>
      rw [fetchPending_some hscan] at he
      cases he
      exact (scanPending_some hscan).2
  case oldest =>
    intro e he
    have hmask := List.find?_some he
    rw [hmasked e (List.mem_of_find?_eq_some he)] at hmask
    cases hmask
  case once =>
    intro e
    rw [hw.once, List.count_append]
    exact Nat.le_add_right _ _
  case hasPending =>
    rw [hasPending_run hw, hfront]
    exact ⟨_, rfl, hres.symm⟩

theorem frontFair_of_delivers (hw : Tracks w) (h : Delivers w) : FrontFair w := by
  intro e rest hwait hmask e' he'
  by_contra hopen
  rw [Bool.not_eq_true] at hopen
  have hfront : w.front = none := by
    rw [SigRun.front, hwait, List.head?_cons, Option.filter_some, hmask]
    rfl
  have hmem : e' ∈ waiting w.log := hwait ▸ List.mem_cons_of_mem e he'
  have hsome : ((waiting w.log).find? fun e => !sigismember w.state.mask e.sig).isSome = true :=
    List.find?_isSome.mpr ⟨e', hmem, by rw [hopen]; rfl⟩
  obtain ⟨e₁, he₁⟩ := Option.isSome_iff_exists.mp hsome
  have hres := h.oldest e₁ he₁
  have hrt := hw.realtime e₁ (List.mem_of_find?_eq_some he₁)
  rw [fetch_pending hw hfront] at hres
  cases hscan : scanPending w.state with
  | none =>
    rw [fetchPending_none hscan] at hres
    cases hres
  | some sig =>
    rw [fetchPending_some hscan] at hres
    cases hres
    exact ordinary_not_realtime (hw.pending sig ▸ (scanPending_some hscan).1) hrt

end Delivery

/-- In every state of every sequence of calls, delivery works exactly where the front of the
real-time queue is not a masked signal with unmasked ones behind it. -/
theorem signal_delivers (s : SigState) {w : SigRun}
    (h : Reach SigRun.step (fun _ _ => True) (SigRun.start s) w) : Delivers w ↔ FrontFair w := by
  have hw : Tracks w := h.invariant Tracks (tracks_start s) fun c w hw _ => tracks_step c w hw
  refine ⟨frontFair_of_delivers hw, fun hfair => ?_⟩
  cases hfront : w.front with
  | some e => exact delivers_front hw hfront
  | none =>
    refine delivers_pending hw hfront ?_
    cases hwait : waiting w.log with
    | nil => exact fun e he => absurd he List.not_mem_nil
    | cons e rest =>
      have hmask := front_none hfront hwait
      intro e' he'
      rcases List.mem_cons.mp he' with rfl | he'
      · exact hmask
      · exact hfair e rest hwait hmask e' he'

/-- Memory before `signal_thread_init`. -/
def SigState.blank : SigState := ⟨sigemptyset, sigemptyset, .blank⟩

/-- What delivery looks at, apart from the queue. -/
def SigRun.view (w : SigRun) : SigSet × SigSet × List SigEvent :=
  (w.state.mask, w.state.pending, w.log)

theorem view_add {w : SigRun} (sig : Int) (hw : Tracks w) (hrt : IsRealtime sig)
    (hlen : (waiting w.log).length ≠ 64) : (w.step (.add sig none)).view =
      (w.state.mask, w.state.pending, w.log ++ [.added (payload sig none)]) := by
  obtain ⟨q, _, _, hrun, _⟩ := add_realtime none hw hrt hlen
  rw [SigRun.step, hrun]
  rfl

theorem view_start (s : SigState) : (SigRun.start s).view = (sigemptyset, sigemptyset, []) := by
  obtain ⟨q, hstart, _⟩ := start_eq s
  rw [hstart]
  rfl

theorem view_added :
    ((SigRun.start .blank).step (.add 34 none)).view =
      (sigemptyset, sigemptyset, [.added (payload 34 none)]) := by
  obtain ⟨hmask, hpending, hlog⟩ : _ ∧ _ ∧ _ := by
    simpa only [SigRun.view, Prod.mk.injEq] using view_start .blank
  rw [view_add 34 (tracks_start .blank) (by decide) (by rw [hlog]; decide), hmask, hpending, hlog]
  rfl

theorem signal_delivers_added : Delivers ((SigRun.start .blank).step (.add 34 none)) := by
  have hreach : Reach SigRun.step (fun _ _ => True) (SigRun.start .blank)
      ((SigRun.start .blank).step (.add 34 none)) := Reach.step _ Reach.start trivial
  refine (signal_delivers .blank hreach).mpr ?_
  obtain ⟨_, _, hlog⟩ : _ ∧ _ ∧ _ := by
    simpa only [SigRun.view, Prod.mk.injEq] using view_added
  intro e rest hwait
  rw [hlog] at hwait
  have hrest : rest = [] := (List.cons.inj hwait).2.symm
  rw [hrest]
  exact fun _ e' he' => absurd he' List.not_mem_nil

/-- Signal 34 waits masked at the front: 35 behind it is not masked and not delivered. -/
theorem masked_front_hides :
    ∃ w, Reach SigRun.step (fun _ _ => True) (SigRun.start .blank) w ∧
      Outstanding w.log 35 ∧ sigismember w.state.mask 35 = false ∧
      signalFetch w.state = (.error (.code .minusEnoent), w.state) := by
  obtain ⟨w₁, hw₁⟩ : ∃ w, w = (SigRun.start .blank).step (.add 34 none) := ⟨_, rfl⟩
  obtain ⟨w₂, hw₂⟩ : ∃ w, w = w₁.step (.add 35 none) := ⟨_, rfl⟩
  obtain ⟨w₃, hw₃⟩ : ∃ w, w = w₂.step (.block (sigaddset sigemptyset 34)) := ⟨_, rfl⟩
  have htracks₁ : Tracks w₁ := hw₁ ▸ tracks_add 34 none (tracks_start .blank)
  have htracks₂ : Tracks w₂ := hw₂ ▸ tracks_add 35 none htracks₁
  have htracks₃ : Tracks w₃ := hw₃ ▸ tracks_step _ w₂ htracks₂
  have hreach₁ : Reach SigRun.step (fun _ _ => True) (SigRun.start .blank) w₁ :=
    hw₁ ▸ Reach.step _ Reach.start trivial
  have hreach₂ : Reach SigRun.step (fun _ _ => True) (SigRun.start .blank) w₂ :=
    hw₂ ▸ Reach.step _ hreach₁ trivial
  have hreach₃ : Reach SigRun.step (fun _ _ => True) (SigRun.start .blank) w₃ :=
    hw₃ ▸ Reach.step _ hreach₂ trivial
  have hview₁ := view_added
  rw [← hw₁] at hview₁
  obtain ⟨hmask₁, hpending₁, hlog₁⟩ : _ ∧ _ ∧ _ := by
    simpa only [SigRun.view, Prod.mk.injEq] using hview₁
  have hview₂ := view_add 35 htracks₁ (by decide) (by rw [hlog₁]; decide)
  rw [← hw₂, hmask₁, hpending₁, hlog₁] at hview₂
  obtain ⟨hmask₂, hpending₂, hlog₂⟩ : _ ∧ _ ∧ _ := by
    simpa only [SigRun.view, Prod.mk.injEq] using hview₂
  have hmask : w₃.state.mask = ⟨fun i => w₂.state.mask.bits i |||
      (sigaddset sigemptyset 34).bits i⟩ := by rw [hw₃]; rfl
  have hpending : w₃.state.pending = sigemptyset := by rw [hw₃, ← hpending₂]; rfl
  have hlog : w₃.log = [.added (payload 34 none)] ++ [.added (payload 35 none)] := by
    rw [hw₃, ← hlog₂]
    rfl
  rw [hmask₂] at hmask
  have hfront : w₃.front = none := by
    rw [SigRun.front, hlog, hmask]
    decide
  have hscan : scanPending w₃.state = none := by
    rw [scanPending, hpending, hmask]
    decide
  refine ⟨w₃, hreach₃, ?_, ?_, ?_⟩
  · rw [hlog]
    exact .inr ⟨payload 35 none, by decide, rfl⟩
  · rw [hmask]
    decide
  · rw [fetch_pending htracks₃ hfront, fetchPending_none hscan]

end CfKernel.Signal
