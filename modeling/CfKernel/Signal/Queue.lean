import CfKernel.Lib.Bytes
import CfKernel.Lib.LinkStore
import CfKernel.Lib.Run

/-!
# The queue of real-time signals

`rtq_t` is a pool of 64 entries on two rings, the used and the free ones. An entry is taken from the
front of the free ring and put at the end of the used one; dequeued, it returns to the front of the
free ring. `Holds q us fs` gives the two rings; the queue's contents are the payloads along `us`.
-/

namespace CfKernel.Signal

open Lib Lib.Eff Function

def sigMin : Int := 1

def sigMax : Int := 64

inductive RtLink where
  | usedHead
  | freeHead
  | entry (i : Fin 64)
  deriving DecidableEq

structure SigInfo where
  signo : Int
  errno : Int
  code : Int
  addr : Nat
  status : Int
  deriving DecidableEq

/-- The information about a signal that came with none. -/
def SigInfo.ofSig (sig : Int) : SigInfo := ⟨sig, 0, 0, 0, 0⟩

structure RtqEntry where
  sig : Int
  info : SigInfo
  deriving DecidableEq

def RtqEntry.clear : RtqEntry := ⟨0, SigInfo.ofSig 0⟩

structure Rtq where
  links : Links RtLink
  pool : Fin 64 → RtqEntry
  count : Nat

/-- The codes as the source returns them: `EINVAL` and `ENOENT` are negative there already, so
`-EINVAL` and `-ENOENT` are positive. -/
inductive SigError where
  | busy
  | minusEinval
  | minusEnoent
  deriving DecidableEq

abbrev RtqM := Eff (Trap SigError) Rtq

/-- All links lie in the queue's own storage. -/
def lists : LinkStore Rtq RtLink where
  links := ⟨Rtq.links, fun l q => { q with links := l }⟩
  valid _ _ := true

def linkData : RtLink → RtqM (Fin 64)
  | .entry i => pure i
  | _ => fail .fault

def setEntry (i : Fin 64) (e : RtqEntry) : RtqM Unit :=
  modify fun q => { q with pool := update q.pool i e }

def rtqInitEntry (i : Fin 64) : RtqM Unit := do
  setEntry i .clear
  lists.linkInit (.entry i)
  lists.linkAfter .freeHead (.entry i)

def rtqInit : RtqM Unit := do
  lists.linkInit .usedHead
  lists.linkInit .freeHead
  (List.finRange 64).forM rtqInitEntry
  modify fun q => { q with count := 0 }

def rtqIsEmpty : RtqM Bool := lists.listIsEmpty .usedHead

def rtqIsFull : RtqM Bool := lists.listIsEmpty .freeHead

def payload (sig : Int) (info : Option SigInfo) : RtqEntry := ⟨sig, info.getD (SigInfo.ofSig sig)⟩

/-- The node after a list's head, if there is one. -/
def firstNode (h : RtLink) (e : SigError) : RtqM RtLink := do
  let node ← lists.next h
  match node with
  | none => fail (.code e)
  | some node => if node = h then fail (.code e) else pure node

def rtqEnqueue (sig : Int) (info : Option SigInfo) : RtqM Unit :=
  if sig < sigMin ∨ sigMax < sig then fail (.code .minusEinval) else do
    let full ← rtqIsFull
    if full then fail (.code .busy) else do
      let node ← firstNode .freeHead .busy
      lists.linkRemove node
      let i ← linkData node
      setEntry i (payload sig info)
      lists.linkBefore .usedHead (.entry i)
      modify fun q => { q with count := u32 (q.count + 1) }

def rtqDequeue : RtqM RtqEntry := do
  let empty ← rtqIsEmpty
  if empty then fail (.code .minusEnoent) else do
    let node ← firstNode .usedHead .minusEnoent
    lists.linkRemove node
    let i ← linkData node
    let e ← Eff.read fun q => .ok (q.pool i)
    setEntry i .clear
    lists.linkAfter .freeHead (.entry i)
    modify fun q => { q with count := if 0 < q.count then q.count - 1 else q.count }
    pure e

def rtqPeek : RtqM RtqEntry := do
  let empty ← rtqIsEmpty
  if empty then fail (.code .minusEnoent) else do
    let node ← firstNode .usedHead .minusEnoent
    let i ← linkData node
    Eff.read fun q => .ok (q.pool i)

/-- The used and the free entries, in the order of their rings. -/
structure Holds (q : Rtq) (us fs : List (Fin 64)) : Prop where
  used : q.links.Ring .usedHead (us.map .entry)
  free : q.links.Ring .freeHead (fs.map .entry)
  all : (us ++ fs).Perm (List.finRange 64)
  count : q.count = us.length

variable {q : Rtq} {us fs l : List (Fin 64)} {i : Fin 64} {L L' : Links RtLink}

section Rings

theorem entry_mem {h : RtLink} (hh : ∀ i, h ≠ .entry i) (l : List (Fin 64)) :
    .entry i ∈ h :: l.map RtLink.entry ↔ i ∈ l := by
  simp [(hh i).symm]

theorem used_ne (i : Fin 64) : RtLink.usedHead ≠ .entry i := RtLink.noConfusion

theorem free_ne (i : Fin 64) : RtLink.freeHead ≠ .entry i := RtLink.noConfusion

variable {m : List (Fin 64)}

theorem rings_apart {h k : RtLink} (hh : ∀ i, h ≠ .entry i)
    (hk : ∀ i, k ≠ .entry i) (hne : h ≠ k) (hlm : ∀ i ∈ l, i ∉ m) :
    ∀ y ∈ h :: l.map RtLink.entry, y ∉ k :: m.map RtLink.entry := by
  intro y hy hy'
  rcases List.mem_cons.mp hy with rfl | hy
  · rcases List.mem_cons.mp hy' with he | hy'
    · exact hne he
    · obtain ⟨i, _, he⟩ := List.mem_map.mp hy'
      exact hh i he.symm
  · obtain ⟨i, hi, rfl⟩ := List.mem_map.mp hy
    exact hlm i hi ((entry_mem hk m).mp hy')

/-- A step on the entries `m` and the head `k` that leaves the ring at `h` as it is. -/
theorem ring_frame {h k : RtLink} (hh : ∀ i, h ≠ .entry i)
    (hk : ∀ i, k ≠ .entry i) (hne : h ≠ k) (hlm : ∀ i ∈ l, i ∉ m) {ks : List RtLink}
    (hks : ∀ y ∈ ks, y ∈ k :: m.map RtLink.entry) (hr : L.Ring h (l.map .entry))
    (hsame : LinkStore.SameOutside ks L L') : L'.Ring h (l.map .entry) :=
  hsame.ring hr fun y hy hy' => rings_apart hh hk hne hlm y hy (hks y hy')

section

variable (h : Holds q us fs)
include h

theorem Holds.nodup : (us ++ fs).Nodup :=
  h.all.nodup_iff.mpr (List.nodup_finRange 64)

theorem Holds.length : us.length + fs.length = 64 := by
  rw [← List.length_append, h.all.length_eq, List.length_finRange]

theorem Holds.apart : ∀ i ∈ us, i ∉ fs := fun i hi hi' =>
  (List.nodup_append.mp h.nodup).2.2 i hi i hi' rfl

theorem Holds.fs_eq_nil : fs = [] ↔ us.length = 64 := by
  have := h.length
  rw [← List.length_eq_zero_iff]
  omega

end

end Rings

section Runs

theorem isEmpty_run (h : Holds q us fs) : rtqIsEmpty q = (.ok (decide (us = [])), q) := by
  rw [rtqIsEmpty, LinkStore.listIsEmpty_run h.used rfl, decide_eq_decide.mpr List.map_eq_nil_iff]

theorem isFull_run (h : Holds q us fs) : rtqIsFull q = (.ok (decide (fs = [])), q) := by
  rw [rtqIsFull, LinkStore.listIsEmpty_run h.free rfl, decide_eq_decide.mpr List.map_eq_nil_iff]

theorem firstNode_run {h : RtLink} {e : SigError} (hh : ∀ i, h ≠ .entry i)
    (hr : q.links.Ring h ((i :: l).map .entry)) : firstNode h e q = (.ok (.entry i), q) := by
  have hnext : (lists.links.get q).next h = some (.entry i) := hr.next_cons
  rw [firstNode, bind_ok (LinkStore.next_run rfl), hnext]
  change (if RtLink.entry i = h then fail (.code e) else pure (.entry i) : RtqM RtLink) q = _
  rw [if_neg (hh i).symm, pure_run]

theorem linkData_run : linkData (.entry i) q = (.ok i, q) := rfl

theorem setEntry_run (e : RtqEntry) :
    setEntry i e q = (.ok (), { q with pool := update q.pool i e }) := rfl

theorem map_update (hi : i ∉ l) (pool : Fin 64 → RtqEntry) (e : RtqEntry) :
    l.map (update pool i e) = l.map pool :=
  List.map_congr_left fun _ hj => update_of_ne (ne_of_mem_of_not_mem hj hi) _ _

end Runs

section Enqueue

variable {sig : Int} {info : Option SigInfo}

theorem enqueue_full (h : Holds q us fs) (hsig : ¬(sig < sigMin ∨ sigMax < sig))
    (hlen : us.length = 64) : rtqEnqueue sig info q = (.error (.code .busy), q) := by
  have hfs : fs = [] := h.fs_eq_nil.mpr hlen
  rw [rtqEnqueue, if_neg hsig, bind_ok (isFull_run h), decide_eq_true hfs, if_pos rfl, fail_run]

theorem enqueue_room (info : Option SigInfo) (h : Holds q us fs) (hsig : ¬(sig < sigMin ∨ sigMax < sig))
    (hlen : us.length ≠ 64) : ∃ q' us' fs', rtqEnqueue sig info q = (.ok (), q') ∧
      Holds q' us' fs' ∧ us'.map q'.pool = us.map q.pool ++ [payload sig info] := by
  have hne : fs ≠ [] := fun he => hlen (h.fs_eq_nil.mp he)
  obtain ⟨i, fs', rfl⟩ := List.exists_cons_of_ne_nil hne
  have hnodup := h.nodup
  rw [List.nodup_append, List.nodup_cons] at hnodup
  obtain ⟨_, ⟨hifs, _⟩, _⟩ := hnodup
  have hius : i ∉ us := fun hi => h.apart i hi List.mem_cons_self
  -- the entry leaves the free ring
  have hring : (lists.links.get q).Ring .freeHead ([] ++ .entry i :: fs'.map .entry) := h.free
  obtain ⟨L, hremove, hfree, hsame⟩ :=
    LinkStore.linkRemove_run (ε := SigError) hring fun _ _ => rfl
  have hused : L.Ring .usedHead (us.map .entry) :=
    ring_frame used_ne free_ne RtLink.noConfusion h.apart (fun _ hy => hy) h.used hsame
  -- it joins the used one
  obtain ⟨L', hbefore, hused', hsame'⟩ := LinkStore.linkBefore_run (ε := SigError) (S := lists)
    (s := { q with links := L, pool := update q.pool i (payload sig info) })
    (x := .entry i) hused (fun hi => hius ((entry_mem used_ne us).mp hi)) fun _ _ => rfl
  have hfree' : L'.Ring .freeHead (fs'.map .entry) := by
    refine ring_frame free_ne used_ne RtLink.noConfusion (m := i :: us) ?_ ?_ hfree hsame'
    · intro j hj hj'
      rcases List.mem_cons.mp hj' with rfl | hj'
      · exact hifs hj
      · exact h.apart j hj' (List.mem_cons_of_mem i hj)
    · intro y hy
      simp only [List.mem_cons, List.map_cons] at hy ⊢
      tauto
  refine ⟨{ q with
      links := L', pool := update q.pool i (payload sig info), count := u32 (q.count + 1) },
    us ++ [i], fs', ?_, ⟨?_, hfree', ?_, ?_⟩, ?_⟩
  · rw [rtqEnqueue, if_neg hsig, bind_ok (isFull_run h), decide_eq_false (List.cons_ne_nil i fs'),
      if_neg Bool.false_ne_true, bind_ok (firstNode_run free_ne h.free), bind_ok hremove,
      bind_ok linkData_run, bind_run, setEntry_run, andThen_ok, bind_run]
    exact congrArg _ hbefore
  · rw [List.map_append]
    exact hused'
  · rw [List.append_assoc]
    exact h.all
  · have hlt : us.length < 64 := by
      have hl := h.length
      rw [List.length_cons] at hl
      omega
    rw [h.count, List.length_append, List.length_singleton]
    exact Nat.mod_eq_of_lt (by omega)
  · change (us ++ [i]).map (update q.pool i (payload sig info)) = _
    rw [List.map_append, map_update hius, List.map_singleton, update_self]

end Enqueue

section Dequeue

theorem dequeue_cons (h : Holds q (i :: us) fs) :
    ∃ q', rtqDequeue q = (.ok (q.pool i), q') ∧ Holds q' us (i :: fs) ∧
      us.map q'.pool = us.map q.pool := by
  have hnodup := h.nodup
  rw [List.cons_append, List.nodup_cons, List.mem_append, not_or] at hnodup
  obtain ⟨⟨hius, hifs⟩, _⟩ := hnodup
  have hapart : ∀ j ∈ fs, j ∉ i :: us := fun j hj hj' => h.apart j hj' hj
  -- the entry leaves the used ring
  have hring : (lists.links.get q).Ring .usedHead ([] ++ .entry i :: us.map .entry) := h.used
  obtain ⟨L, hremove, hused, hsame⟩ :=
    LinkStore.linkRemove_run (ε := SigError) hring fun _ _ => rfl
  have hfree : L.Ring .freeHead (fs.map .entry) :=
    ring_frame free_ne used_ne RtLink.noConfusion hapart (fun _ hy => hy) h.free hsame
  -- it goes back to the free one
  obtain ⟨L', hafter, hfree', hsame'⟩ := LinkStore.linkAfter_run (ε := SigError) (S := lists)
    (s := { q with links := L, pool := update q.pool i .clear })
    (x := .entry i) hfree (fun hi => hifs ((entry_mem free_ne fs).mp hi)) fun _ _ => rfl
  have hused' : L'.Ring .usedHead (us.map .entry) := by
    refine ring_frame used_ne free_ne RtLink.noConfusion (m := i :: fs) ?_ ?_ hused hsame'
    · intro j hj hj'
      rcases List.mem_cons.mp hj' with rfl | hj'
      · exact hius hj
      · exact h.apart j (List.mem_cons_of_mem i hj) hj'
    · intro y hy
      simp only [List.mem_cons, List.map_cons] at hy ⊢
      tauto
  refine ⟨{ q with
      links := L', pool := update q.pool i .clear,
      count := if 0 < q.count then q.count - 1 else q.count }, ?_, ⟨hused', hfree', ?_, ?_⟩,
    map_update hius q.pool .clear⟩
  · rw [rtqDequeue, bind_ok (isEmpty_run h), decide_eq_false (List.cons_ne_nil i us),
      if_neg Bool.false_ne_true, bind_ok (firstNode_run used_ne h.used), bind_ok hremove,
      bind_ok linkData_run, bind_run, Eff.read, andThen_ok, bind_run, setEntry_run, andThen_ok,
      bind_run]
    exact congrArg _ hafter
  · exact List.perm_middle.trans h.all
  · rw [h.count, List.length_cons, if_pos (Nat.succ_pos _), Nat.add_sub_cancel]

theorem peek_cons (h : Holds q (i :: us) fs) : rtqPeek q = (.ok (q.pool i), q) := by
  rw [rtqPeek, bind_ok (isEmpty_run h), decide_eq_false (List.cons_ne_nil i us),
    if_neg Bool.false_ne_true, bind_ok (firstNode_run used_ne h.used), bind_ok linkData_run,
    Eff.read]

end Dequeue

section Init

theorem initEntry_run (hused : q.links.Ring .usedHead []) (hi : i ∉ fs)
    (hfree : q.links.Ring .freeHead (fs.map .entry)) : ∃ q', rtqInitEntry i q = (.ok (), q') ∧
      q'.links.Ring .usedHead [] ∧ q'.links.Ring .freeHead ((i :: fs).map .entry) := by
  have hout : RtLink.entry i ∉ RtLink.freeHead :: fs.map .entry :=
    fun h => hi ((entry_mem free_ne fs).mp h)
  -- `LinkInit` touches the entry only
  have halone : LinkStore.SameOutside [.entry i] q.links (q.links.alone (.entry i)) := fun y hy =>
    have hne : y ≠ .entry i := fun he => hy (he ▸ List.mem_singleton_self _)
    ⟨update_of_ne hne _ _, update_of_ne hne _ _⟩
  have hused₁ : (q.links.alone (.entry i)).Ring .usedHead [] :=
    halone.ring hused fun y hy hy' => by
      rw [List.mem_singleton.mp hy] at hy'
      exact used_ne i (List.mem_singleton.mp hy')
  have hfree₁ : (q.links.alone (.entry i)).Ring .freeHead (fs.map .entry) :=
    halone.ring hfree fun y hy hy' => hout (List.mem_singleton.mp hy' ▸ hy)
  obtain ⟨L, hafter, hfree', hsame⟩ := LinkStore.linkAfter_run (ε := SigError) (S := lists)
    (s := { q with
      links := q.links.alone (.entry i), pool := update q.pool i .clear })
    (x := .entry i) hfree₁ hout fun _ _ => rfl
  refine ⟨{ q with links := L, pool := update q.pool i .clear }, ?_, ?_, hfree'⟩
  · rw [rtqInitEntry, bind_run, setEntry_run, andThen_ok, bind_ok (LinkStore.linkInit_run rfl)]
    exact hafter
  · refine ring_frame (l := []) (m := i :: fs) used_ne free_ne RtLink.noConfusion
      (fun j hj => absurd hj List.not_mem_nil) ?_ hused₁ hsame
    intro y hy
    simp only [List.mem_cons, List.map_cons] at hy ⊢
    tauto

theorem initEntries_run (l : List (Fin 64)) (hused : q.links.Ring .usedHead [])
    (hfree : q.links.Ring .freeHead (fs.map .entry)) (hl : (l.reverse ++ fs).Nodup) :
    ∃ q', l.forM rtqInitEntry q = (.ok (), q') ∧ q'.links.Ring .usedHead [] ∧
      q'.links.Ring .freeHead ((l.reverse ++ fs).map .entry) := by
  induction l generalizing q fs with
  | nil => exact ⟨q, rfl, hused, hfree⟩
  | cons i l ih =>
    rw [List.reverse_cons, List.append_assoc, List.singleton_append] at hl ⊢
    have hi : i ∉ fs := (List.nodup_cons.mp (List.nodup_append.mp hl).2.1).1
    obtain ⟨q₁, hrun₁, hused₁, hfree₁⟩ := initEntry_run hused hi hfree
    obtain ⟨q₂, hrun₂, hused₂, hfree₂⟩ := ih hused₁ hfree₁ hl
    refine ⟨q₂, ?_, hused₂, hfree₂⟩
    change (rtqInitEntry i >>= fun _ => l.forM rtqInitEntry) q = _
    rw [bind_ok hrun₁, hrun₂]

theorem alone_ring (L : Links RtLink) (h : RtLink) : (L.alone h).Ring h [] :=
  ⟨⟨update_self _ _ _, update_self _ _ _⟩, List.nodup_singleton h⟩

theorem init_run (q : Rtq) :
    ∃ q', rtqInit q = (.ok (), q') ∧ Holds q' [] (List.finRange 64).reverse := by
  obtain ⟨q₁, hq₁⟩ : ∃ q₁ : Rtq,
      q₁ = { q with links := (q.links.alone .usedHead).alone .freeHead } := ⟨_, rfl⟩
  have hused : q₁.links.Ring .usedHead [] := by
    have hne : ∀ y ∈ [RtLink.usedHead], y ≠ .freeHead := by decide
    rw [hq₁]
    exact (alone_ring q.links .usedHead).congr
      (fun y hy => update_of_ne (hne y hy) _ _)
      fun y hy => update_of_ne (hne y hy) _ _
  have hfree : q₁.links.Ring .freeHead (([] : List (Fin 64)).map .entry) := by
    rw [hq₁]
    exact alone_ring _ _
  have hnodup : ((List.finRange 64).reverse ++ []).Nodup := by
    rw [List.append_nil, List.nodup_reverse]
    exact List.nodup_finRange 64
  obtain ⟨q₂, hrun, hused₂, hfree₂⟩ := initEntries_run (List.finRange 64) hused hfree hnodup
  rw [List.append_nil] at hfree₂
  refine ⟨{ q₂ with count := 0 }, ?_, hused₂, hfree₂, List.reverse_perm _, rfl⟩
  rw [rtqInit, bind_ok (LinkStore.linkInit_run rfl), bind_ok (LinkStore.linkInit_run rfl), bind_run]
  change andThen _ ((List.finRange 64).forM rtqInitEntry
    { q with links := (q.links.alone .usedHead).alone .freeHead }) = _
  rw [← hq₁, hrun, andThen_ok, modify_run]

end Init

section Sequences

inductive RtqCall where
  | enqueue (sig : Int) (info : Option SigInfo)
  | dequeue

/-- A queue in use: the payloads of the enqueues and the results of the dequeues that succeeded. -/
structure RtqRun where
  queue : Rtq
  accepted : List RtqEntry
  delivered : List RtqEntry

def RtqRun.step (c : RtqCall) (w : RtqRun) : RtqRun :=
  match c with
  | .enqueue sig info =>
    match rtqEnqueue sig info w.queue with
    | (.ok (), q) => { w with queue := q, accepted := w.accepted ++ [payload sig info] }
    | (.error _, q) => { w with queue := q }
  | .dequeue =>
    match rtqDequeue w.queue with
    | (.ok e, q) => { w with queue := q, delivered := w.delivered ++ [e] }
    | (.error _, q) => { w with queue := q }

/-- The queue after `rtq_init` in memory that held `q`. -/
def RtqRun.start (q : Rtq) : RtqRun := ⟨(rtqInit q).2, [], []⟩

end Sequences

/-- Memory before `rtq_init`. -/
def Rtq.blank : Rtq := ⟨⟨fun _ => none, fun _ => none⟩, fun _ => .clear, 0⟩

end CfKernel.Signal
