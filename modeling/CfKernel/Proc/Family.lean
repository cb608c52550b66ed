import CfKernel.Proc.Invariant

/-!
# Parents and children

A child's slot keeps the number of its parent. As long as no process is collected before its
children, that number stands for the process that created the child, and `SYS_waitpid` collects
only the caller's own children. A child that outlives its collected parent becomes a child of the
next process with the parent's number.
-/

namespace CfKernel.Proc

open Lib Lib.Eff Syscall Fd Ramfs Function

namespace System

/-- What `proc_find_child` finds for a process, and what it waits for, it has created itself. -/
structure OwnChildren (s : System) : Prop where
  found : ∀ c childPid i, s.Running c →
    procFindChild s.table (s.table.procCurrent c).pid childPid = some i →
    s.creators i = s.serialOf c
  awaited : ∀ c w, s.waiting c = some w → s.creators w.child = s.serialOf c

/-- The request does not collect a process that has children in the table. -/
def NoOrphans (r : Caller × Request) (s : System) : Prop :=
  ∀ w, r.2 = .finishWait (.ok ()) → s.waiting r.1 = some w →
    (s.table.procs w.child).alive = false →
    ∀ j, s.table.used j = true → (s.table.procs j).ppid ≠ w.childPid

/-- The creator of each process still has its slot. -/
def Family (s : System) : Prop :=
  ∀ j, s.table.used j = true →
    ∃ c, s.Present c ∧ (s.table.procs j).ppid = callerPid c ∧ s.creators j = s.serialOf c

variable {s : System} {c d : Caller} {i j : Fin maxProcs} {w : Wait} {r : Caller × Request}

theorem Family.ownChildren (hf : Family s) (h : Sound s) : OwnChildren s := by
  have hown : ∀ c j, s.Present c → s.table.used j = true →
      (s.table.procs j).ppid = callerPid c → s.creators j = s.serialOf c := by
    intro c j hc hj hppid
    obtain ⟨d, hd, hd', hcreator⟩ := hf j hj
    rwa [callerPid_inj (hd'.symm.trans hppid)] at hcreator
  constructor
  · intro c childPid i hc hfind
    obtain ⟨hused, -, hppid⟩ := procFindChild_spec hfind
    exact hown c i hc.present hused (hppid.trans (h.pid_eq hc.present))
  · intro c w hw
    obtain ⟨hrun, hused, -, hppid⟩ := h.waits c w hw
    exact hown c w.child hrun.present hused hppid

section

variable (hfree : freeSlot s.table = some i)
include hfree

theorem Present.exec (hc : s.Present c) (hd : s.Present d) : (s.exec c).Present d := by
  have hdi := hd.ne_free (used_of_freeSlot hfree)
  cases d with
  | none => trivial
  | some j => exact (used_exec hfree hc).mpr (.inr ⟨fun h => hdi (congrArg some h), hd⟩)

theorem exec_slot (hc : s.Present c) :
    (s.exec c).table.procs i = newProcess s.table c i ∧
      (s.exec c).creators i = s.serialOf c := by
  rw [exec_eq hfree hc]
  exact ⟨ProcTable.setSlot_procs_self, update_self _ _ _⟩

theorem exec_slot_of_ne (hc : s.Present c) (hji : j ≠ i) :
    (s.exec c).table.procs j = s.table.procs j ∧ (s.exec c).creators j = s.creators j := by
  rw [exec_eq hfree hc]
  exact ⟨ProcTable.setSlot_procs_of_ne hji, update_of_ne hji _ _⟩

end

section

variable (hf : Family s)
include hf

theorem Family.exec (h : Sound s) (hc : s.Running c) : Family (s.exec c) := by
  cases hfree : freeSlot s.table with
  | none =>
    rw [System.exec, hfree]
    exact hf
  | some i =>
    have hpres := hc.present
    intro j hj
    rcases (used_exec hfree hpres).mp hj with rfl | ⟨hji, hj⟩
    · obtain ⟨hproc, hcreator⟩ := exec_slot hfree hpres
      refine ⟨c, hpres.exec hfree hpres, ?_, ?_⟩
      · rw [hproc]
        exact h.pid_eq hpres
      · rw [hcreator, serialOf_exec hfree hpres (hpres.ne_free (used_of_freeSlot hfree))]
    · obtain ⟨hproc, hcreator⟩ := exec_slot_of_ne hfree hpres hji
      obtain ⟨d, hd, hppid, hserial⟩ := hf j hj
      refine ⟨d, Present.exec hfree hpres hd, by rw [hproc, hppid], ?_⟩
      rw [hcreator, serialOf_exec hfree hpres (hd.ne_free (used_of_freeSlot hfree)), hserial]

theorem Family.exit (c : Caller) (code : Int) :
    Family { s with table := s.table.procMarkExit c code } := by
  intro j hj
  have hused := procMarkExit_used s.table c code
  obtain ⟨d, hd, hppid, hserial⟩ := hf j ((hused j).symm.trans hj)
  refine ⟨d, ?_, (procMarkExit_procs s.table c code j).2.trans hppid, hserial⟩
  cases d with
  | none => trivial
  | some i => exact (hused i).trans hd

theorem Family.waitpid (c : Caller) (childPid options : Int) :
    Family (System.waitpid c childPid options s).2 := by
  unfold System.waitpid
  split_ifs with hopt
  · exact hf
  cases procFindChild s.table (s.table.procCurrent c).pid childPid with
  | none => exact hf
  | some i => exact hf

theorem Family.collect (h : Sound s) {k : Kernel} (hw : s.waiting c = some w)
    (hno : ∀ j, s.table.used j = true → (s.table.procs j).ppid ≠ w.childPid) :
    Family (s.collect c w.child k) := by
  obtain ⟨-, hchild, hpid, -⟩ := h.waits c w hw
  intro j hj
  obtain ⟨hji, hj⟩ := used_collect.mp hj
  obtain ⟨d, hd, hppid, hserial⟩ := hf j hj
  have hne : d ≠ some w.child := by
    rintro rfl
    apply hno j hj
    rw [hppid, ← hpid, h.numbered.slot _ hchild, callerPid]
  refine ⟨d, ?_, by rw [procs_collect hji, hppid], hserial⟩
  cases d with
  | none => trivial
  | some i => exact used_collect.mpr ⟨fun h => hne (congrArg some h), hd⟩

theorem Family.fileCall (c : Caller) (r : FileCall) : Family (s.fileCall c r) := by
  rw [System.fileCall]
  cases pidTable (s.table.procCurrent c).pid with
  | none => exact hf
  | some p => exact hf

theorem Family.step (h : Sound s) (hr : Allowed r s)
    (hno : NoOrphans r s) : Family (System.step r s) := by
  obtain ⟨c, r⟩ := r
  cases r with
  | exec => exact hf.exec h hr.1
  | exit code => exact hf.exit c code
  | waitpid childPid options => exact hf.waitpid c childPid options
  | finishWait copied =>
    change Family (System.finishWait c copied s).2
    rcases h.finishWait_cases c copied with hs | hs | ⟨w, k, hw, halive, rfl, hs, -⟩
    · rwa [hs]
    · rw [hs]
      exact hf
    · rw [hs]
      exact hf.collect h hw (hno w rfl hw halive)
  | file call => exact hf.fileCall c call

end

section Orphans

variable {s₀ : System}

/-- A process that names a free slot as its parent gets a new parent as soon as `exec` has filled
the slot. Each `exec` fills one, so that the induction is on the number of free slots. -/
theorem exists_stolen {n : Nat} (hrun : Reach step Allowed s₀ s) (h : Sound s) (hc : s.Running c)
    (hidle : s.waiting c = none) (hi : s.table.used i = false) (hj : s.table.used j = true)
    (hppid : (s.table.procs j).ppid = callerPid (some i))
    (hn : (Finset.univ.filter fun k => s.table.used k = false).card = n) :
    ∃ s', Reach step Allowed s₀ s' ∧ ¬ OwnChildren s' := by
  induction n generalizing s with
  | zero =>
    rw [Finset.card_eq_zero, Finset.filter_eq_empty_iff] at hn
    exact absurd hi (hn (Finset.mem_univ i))
  | succ n ih =>
    obtain ⟨f, hfree⟩ := exists_freeSlot hi
    have hpres := hc.present
    have hfused := used_of_freeSlot hfree
    have hrun' : Reach step Allowed s₀ (s.exec c) :=
      Reach.step (c, Request.exec) hrun ⟨hc, .inl hidle⟩
    have h' := h.exec hc
    have hjf : j ≠ f := by
      rintro rfl
      exact absurd (hfused.symm.trans hj) Bool.false_ne_true
    obtain ⟨hproc, hcreator⟩ := exec_slot_of_ne hfree hpres hjf
    have hj' : (s.exec c).table.used j = true := (used_exec hfree hpres).mpr (.inr ⟨hjf, hj⟩)
    rw [← hproc] at hppid
    by_cases hfi : f = i
    · -- The new process is younger than the child's creator.
      subst hfi
      refine ⟨s.exec c, hrun', fun hown => ?_⟩
      have hnew : (s.exec c).Running (some f) := by
        refine ⟨(used_exec hfree hpres).mpr (.inl rfl), ?_⟩
        rw [(exec_slot hfree hpres).1]
        rfl
      have hstolen := hown.found (some f) _ j hnew (h'.numbered.procFindChild hj'
        (hppid.trans (h'.pid_eq hnew.present).symm))
      rw [hcreator, serialOf_exec_self hfree hpres] at hstolen
      have := h.creator j hj
      omega
    · have hi' : (s.exec c).table.used i = false := by
        rw [exec_eq hfree hpres]
        exact (ProcTable.setSlot_used_of_ne (Ne.symm hfi)).trans hi
      have hidle' : (s.exec c).waiting c = none := by
        rw [exec_eq hfree hpres]
        exact hidle
      apply ih hrun' h' (hc.exec hfree hpres) hidle' hi' hj' hppid
      have hfilter : (Finset.univ.filter fun k => (s.exec c).table.used k = false) =
          (Finset.univ.filter fun k => s.table.used k = false).erase f := by
        ext k
        have hk := used_exec (j := k) hfree hpres
        by_cases hkf : k = f
        · subst hkf
          simp [hk.mpr (.inl rfl)]
        · have hsame : (s.exec c).table.used k = s.table.used k := by
            rw [exec_eq hfree hpres]
            exact ProcTable.setSlot_used_of_ne hkf
          simp [hsame, hkf]
      rw [hfilter, Finset.card_erase_of_mem (by simpa using hfused), hn, Nat.add_sub_cancel]

/-- After a process is collected before one of its children, some run ends with a process that finds
a child it did not create. -/
theorem exists_stolen_of_orphan (h : Sound s) (hno : ¬ NoOrphans r s) :
    ∃ s', Reach step Allowed (step r s) s' ∧ ¬ OwnChildren s' := by
  obtain ⟨c, r⟩ := r
  simp only [NoOrphans, not_forall, not_not] at hno
  obtain ⟨w, hreq, hw, halive, j, hj, hppid⟩ := hno
  subst hreq
  obtain ⟨k, hcollect, hinv, honly, htable⟩ := h.finishWait_collect hw halive
  have hstep : step (c, Request.finishWait (.ok ())) s = s.collect c w.child k :=
    congrArg Prod.snd hcollect
  rw [hstep]
  obtain ⟨hc, hchild, hpid, hparent⟩ := h.waits c w hw
  have hnum := h.numbered.slot _ hchild
  -- The child is not its own parent: the parent waits and has not ended.
  have hji : j ≠ w.child := by
    rintro rfl
    rw [hparent, ← hpid, hnum] at hppid
    exact hc.ne_ended halive (callerPid_inj hppid)
  apply exists_stolen .start (h.collect hw halive hinv honly htable) (hc.collect halive)
    (i := w.child) (j := j)
  · exact update_self _ _ _
  · exact ProcTable.setSlot_used_self
  · exact used_collect.mpr ⟨hji, hj⟩
  · rw [procs_collect hji, hppid, ← hpid, hnum, callerPid]
  · rfl

end Orphans

section Runs

variable {alloc : Nat → Bool} {root : Nat} {t t₀ : Tree}

theorem sound_reached (hmount : mountRamfs (unmounted alloc) = (.ok root, t₀))
    (hdirs : Reach dirStep OnVnode t₀ t) (hrun : Reach step Allowed (start t root) s) :
    Sound s := by
  have ht : Ramfs.Sound root (fun _ => 0) t :=
    hdirs.invariant (Ramfs.Sound root fun _ => 0) (sound_mounted hmount) fun r s => sound_dirStep
  exact hrun.invariant Sound (Sound.start ht) fun r s h hr => h.step hr

/-- Callers wait only for their own children in every run that collects no process before its
children, and a run that does so can be continued to one that breaks it. No exit code is returned
twice in any run. -/
theorem waitpid_collects_own_children (hmount : mountRamfs (unmounted alloc) = (.ok root, t₀))
    (hdirs : Reach dirStep OnVnode t₀ t) :
    (∀ s, Reach step (fun r s => Allowed r s ∧ NoOrphans r s) (start t root) s → OwnChildren s) ∧
    (∀ s r, Reach step Allowed (start t root) s → Allowed r s → ¬ NoOrphans r s →
      ∃ s', Reach step Allowed (step r s) s' ∧ ¬ OwnChildren s') ∧
    ∀ s, Reach step Allowed (start t root) s → (s.collected.map Prod.fst).Nodup := by
  have ht : Ramfs.Sound root (fun _ => 0) t :=
    hdirs.invariant (Ramfs.Sound root fun _ => 0) (sound_mounted hmount) fun r s => sound_dirStep
  refine ⟨?_, ?_, fun s hrun => (sound_reached hmount hdirs hrun).once⟩
  · intro s hrun
    have hboth := hrun.invariant (fun s => Sound s ∧ Family s) ⟨Sound.start ht, nofun⟩
      fun r s h hr => ⟨h.1.step hr.1, h.2.step h.1 hr.1 hr.2⟩
    exact hboth.2.ownChildren hboth.1
  · intro s r hrun hr hno
    exact exists_stolen_of_orphan (sound_reached hmount hdirs hrun) hno

/-- In every run a wait for a child that has ended succeeds: the exit code goes to the parent, the
slot and the descriptors of the child are free, and no other table changes. -/
theorem waitpid_frees_child (hmount : mountRamfs (unmounted alloc) = (.ok root, t₀))
    (hdirs : Reach dirStep OnVnode t₀ t) (hrun : Reach step Allowed (start t root) s)
    (hw : s.waiting c = some w) (hended : (s.table.procs w.child).alive = false) :
    ∃ s', finishWait c (.ok ()) s = (.ok (some w.childPid), s') ∧ s'.waiting c = none ∧
      s'.collected = s.collected ++ [(s.serials w.child, (s.table.procs w.child).exitCode)] ∧
      s'.table.used w.child = false ∧
      (∀ fd, (s'.kernel.fds (tableOf (some w.child), fd)).used = false) ∧
      ∀ p fd, p ≠ tableOf (some w.child) → s'.kernel.fds (p, fd) = s.kernel.fds (p, fd) := by
  have h := sound_reached hmount hdirs hrun
  obtain ⟨k, hfinish, hinv, honly, htable⟩ := h.finishWait_collect hw hended
  have hfree : (s.collect c w.child k).table.used w.child = false := ProcTable.setSlot_used_self
  exact ⟨_, hfinish, update_self _ _ _, rfl, hfree,
    (h.collect hw hended hinv honly htable).entry_of_free hfree, fun p fd => honly.fds (p, fd)⟩

end Runs

section Adoption

def emptyRoot : Tree := (mountRamfs (unmounted fun _ => true)).2

def proc1 : Caller := some ⟨0, by decide⟩

def proc2 : Caller := some ⟨1, by decide⟩

def proc3 : Caller := some ⟨2, by decide⟩

/-- Process 1 creates process 2, which creates process 3. -/
def grandchild : System :=
  step (proc2, Request.exec) (step (proc1, Request.exec)
    (step (none, Request.exec) (start emptyRoot 1)))

theorem reach_grandchild :
    Reach step (fun r s => Allowed r s ∧ NoOrphans r s) (start emptyRoot 1) grandchild := by
  refine Reach.step _ (Reach.step _ (Reach.step _ .start ?_) ?_) ?_
  · exact ⟨⟨trivial, .inl rfl⟩, nofun⟩
  · exact ⟨⟨⟨by decide +kernel, by decide +kernel⟩, .inl rfl⟩, nofun⟩
  · exact ⟨⟨⟨by decide +kernel, by decide +kernel⟩, .inl rfl⟩, nofun⟩

theorem waitpid_collects_own_children_grandchild :
    OwnChildren grandchild ∧ procFindChild grandchild.table 2 3 = proc3 ∧
      grandchild.serialOf proc2 = 2 := by
  have hmount : mountRamfs (unmounted fun _ => true) = (.ok 1, emptyRoot) := rfl
  exact ⟨(waitpid_collects_own_children hmount .start).1 grandchild reach_grandchild,
    by decide +kernel, by decide +kernel⟩

/-- Process 2 ends and process 1 waits for it. -/
def ended : System := step (proc1, Request.waitpid 2 0) (step (proc2, Request.exit 0) grandchild)

theorem reach_ended : Reach step Allowed (start emptyRoot 1) ended := by
  have hgrand := reach_grandchild.invariant (Reach step Allowed (start emptyRoot 1)) .start
    fun r s h hr => h.step r hr.1
  refine Reach.step _ (Reach.step _ hgrand ?_) ?_
  · exact ⟨⟨by decide +kernel, by decide +kernel⟩, .inl rfl⟩
  · exact ⟨⟨by decide +kernel, by decide +kernel⟩, .inl rfl⟩

theorem waitpid_frees_child_ended :
    ∃ s', finishWait proc1 (.ok ()) ended = (.ok (some 2), s') ∧ s'.collected = [(2, 0)] := by
  have hmount : mountRamfs (unmounted fun _ => true) = (.ok 1, emptyRoot) := rfl
  obtain ⟨s', hfinish, -, hcollected, -⟩ := waitpid_frees_child hmount .start reach_ended
    (c := proc1) (w := ⟨⟨1, by decide⟩, 2⟩) rfl (by decide +kernel)
  exact ⟨s', hfinish, hcollected⟩

/-- Process 2 ends and process 1 collects it. -/
def orphaned : System :=
  step (proc1, Request.finishWait (.ok ())) (step (proc1, Request.waitpid 2 0)
    (step (proc2, Request.exit 0) grandchild))

def adopted : System := step (proc1, Request.exec) orphaned

theorem reach_adopted : Reach step Allowed (start emptyRoot 1) adopted := by
  refine Reach.step _ (Reach.step _ reach_ended ?_) ?_
  · exact ⟨⟨by decide +kernel, by decide +kernel⟩, .inr ⟨_, rfl⟩⟩
  · exact ⟨⟨by decide +kernel, by decide +kernel⟩,
      .inl (Option.isNone_iff_eq_none.mp (by decide +kernel))⟩

/-- The new process 2, the fourth that was created, finds process 3, which the old process 2, the
second that was created, left behind. -/
theorem orphan_adopted :
    Reach step Allowed (start emptyRoot 1) adopted ∧ adopted.Running proc2 ∧
      (adopted.table.procCurrent proc2).pid = 2 ∧
      procFindChild adopted.table 2 3 = proc3 ∧ adopted.serialOf proc2 = 4 ∧
      adopted.creators ⟨2, by decide⟩ = 2 ∧ ¬ OwnChildren adopted := by
  have hrun : adopted.Running proc2 := ⟨by decide +kernel, by decide +kernel⟩
  have hfind : procFindChild adopted.table (adopted.table.procCurrent proc2).pid 3 = proc3 := by
    decide +kernel
  have hserial : adopted.serialOf proc2 = 4 := by decide +kernel
  have hcreator : adopted.creators ⟨2, by decide⟩ = 2 := by decide +kernel
  refine ⟨reach_adopted, hrun, by decide +kernel, by decide +kernel, hserial, hcreator, ?_⟩
  intro hown
  have hsame := hown.found proc2 3 ⟨2, by decide⟩ hrun hfind
  rw [hcreator, hserial] at hsame
  exact absurd hsame (by decide)

end Adoption

end System

end CfKernel.Proc
