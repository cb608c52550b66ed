import CfKernel.Proc.System

/-!
# Slots, tables and waiting processes

What holds between any two steps: a slot in use holds its own number and a process that no other
slot holds, a free slot has no descriptor table, an entry in use was made by the process that sees
it, and a process that waits has the child it waits for.
-/

namespace CfKernel.Proc

open Lib Lib.Eff Syscall Fd Ramfs Function

namespace System

structure Sound (s : System) : Prop where
  numbered : Numbered s.table
  serial : ∀ i, s.table.used i = true → 0 < s.serials i ∧ s.serials i ≤ s.created
  serial_inj : ∀ i j, s.table.used i = true → s.table.used j = true →
    s.serials i = s.serials j → i = j
  creator : ∀ i, s.table.used i = true → s.creators i ≤ s.created
  fds : Inv (fun _ => 0) s.kernel
  tables : ∀ i, s.table.used i = false → s.kernel.tablesUsed (tableOf (some i)) = false
  opener : ∀ c fd, s.Present c → (s.kernel.fds (tableOf c, fd)).used = true →
    s.openers (tableOf c, fd) = s.serialOf c
  waits : ∀ c w, s.waiting c = some w → s.Running c ∧ s.table.used w.child = true ∧
    (s.table.procs w.child).pid = w.childPid ∧ (s.table.procs w.child).ppid = callerPid c
  past : ∀ x ∈ s.collected, x.1 ≤ s.created ∧ ∀ i, s.table.used i = true → s.serials i ≠ x.1
  once : (s.collected.map Prod.fst).Nodup

variable {s : System} {c d : Caller} {i j : Fin maxProcs} {w : Wait}

theorem Running.present (h : s.Running c) : s.Present c := by
  cases c with
  | none => trivial
  | some i => exact h.1

theorem Present.ne_free (h : s.Present c) (hi : s.table.used i = false) : c ≠ some i := by
  rintro rfl
  exact absurd (hi.symm.trans h) Bool.false_ne_true

theorem Running.ne_ended (h : s.Running c) (hi : (s.table.procs i).alive = false) : c ≠ some i := by
  rintro rfl
  exact absurd (hi.symm.trans h.2) Bool.false_ne_true

namespace Sound

theorem pid_eq (h : Sound s) (hc : s.Present c) : (s.table.procCurrent c).pid = callerPid c := by
  cases c with
  | none => exact h.numbered.boot
  | some i => exact h.numbered.slot i hc

theorem serialOf_inj (h : Sound s) (hc : s.Present c) (hd : s.Present d)
    (hcd : s.serialOf c = s.serialOf d) : c = d := by
  cases c with
  | none =>
    cases d with
    | none => rfl
    | some j => exact absurd hcd (h.serial j hd).1.ne
  | some i =>
    cases d with
    | none => exact absurd hcd (h.serial i hc).1.ne'
    | some j => exact congrArg some (h.serial_inj i j hc hd hcd)

theorem entry_of_free (h : Sound s) (hi : s.table.used i = false) (fd : Fin fdMax) :
    (s.kernel.fds (tableOf (some i), fd)).used = false :=
  h.fds.unused _ (h.tables i hi)

theorem start {t : Tree} {root : Nat} (ht : Ramfs.Sound root (fun _ => 0) t) :
    Sound (System.start t root) where
  numbered := ⟨rfl, nofun⟩
  serial := nofun
  serial_inj := nofun
  creator := nofun
  fds := inv_booted ht
  tables _ _ := rfl
  opener _ _ _ := nofun
  waits _ _ := nofun
  past := nofun
  once := List.nodup_nil

end Sound

section Exec

section

variable (hfree : freeSlot s.table = some i)
include hfree

section

variable (hc : s.Present c)
include hc

theorem exec_eq :
    s.exec c = { s with
      table := s.table.setSlot i (newProcess s.table c i) true
      serials := update s.serials i (s.created + 1)
      creators := update s.creators i (s.serialOf c)
      created := s.created + 1 } := by
  rw [exec, hfree]
  rw [procCreate_eq hfree (hc.ne_free (used_of_freeSlot hfree))]

theorem Present.of_exec (hd : (s.exec c).Present d) : d = some i ∨ d ≠ some i ∧ s.Present d := by
  by_cases hdi : d = some i
  · exact .inl hdi
  refine .inr ⟨hdi, ?_⟩
  cases d with
  | none => trivial
  | some j =>
    have hji : j ≠ i := fun h => hdi (congrArg some h)
    rw [exec_eq hfree hc] at hd
    exact (ProcTable.setSlot_used_of_ne hji).symm.trans hd

theorem Running.exec (hd : s.Running d) : (s.exec c).Running d := by
  have hdi := hd.present.ne_free (used_of_freeSlot hfree)
  rw [exec_eq hfree hc]
  cases d with
  | none => trivial
  | some j =>
    have hji : j ≠ i := fun h => hdi (congrArg some h)
    exact ⟨(ProcTable.setSlot_used_of_ne hji).trans hd.1,
      (congrArg Process.alive (ProcTable.setSlot_procs_of_ne hji)).trans hd.2⟩

theorem serialOf_exec (hd : d ≠ some i) : (s.exec c).serialOf d = s.serialOf d := by
  rw [exec_eq hfree hc]
  cases d with
  | none => rfl
  | some j => exact update_of_ne (fun h => hd (congrArg some h)) _ _

theorem serialOf_exec_self : (s.exec c).serialOf (some i) = s.created + 1 := by
  rw [exec_eq hfree hc]
  exact update_self _ _ _

theorem used_exec : (s.exec c).table.used j = true ↔ j = i ∨ j ≠ i ∧ s.table.used j = true := by
  rw [exec_eq hfree hc]
  by_cases hji : j = i
  · subst hji
    simp
  · simp [hji]

end

end

theorem Sound.exec (h : Sound s) (hc : s.Running c) : Sound (s.exec c) := by
  cases hfree : freeSlot s.table with
  | none =>
    rw [System.exec, hfree]
    exact h
  | some i =>
    have hpres := hc.present
    have hunused := used_of_freeSlot hfree
    have hused := fun j => (used_exec (j := j) hfree hpres).mp
    have hpresent := fun d => Present.of_exec (d := d) hfree hpres
    have hserialOf := fun d => serialOf_exec (d := d) hfree hpres
    have hrunning := fun d => Running.exec (d := d) hfree hpres
    rw [exec_eq hfree hpres] at hused hpresent hserialOf hrunning ⊢
    constructor
    case numbered =>
      refine ⟨h.numbered.boot, fun j hj => ?_⟩
      rcases hused j hj with rfl | ⟨hji, hj⟩
      · simp [newProcess]
      · simpa [hji] using h.numbered.slot j hj
    case serial =>
      intro j hj
      rcases hused j hj with rfl | ⟨hji, hj⟩
      · simp
      · have := h.serial j hj
        simp only [update_of_ne hji]
        omega
    case serial_inj =>
      -- The new number is larger than every number before it.
      intro j k hj hk hjk
      rcases hused j hj with rfl | ⟨hji, hj'⟩ <;> rcases hused k hk with rfl | ⟨hki, hk'⟩
      · rfl
      · have := h.serial k hk'
        simp only [update_self, update_of_ne hki] at hjk
        omega
      · have := h.serial j hj'
        simp only [update_self, update_of_ne hji] at hjk
        omega
      · simp only [update_of_ne hji, update_of_ne hki] at hjk
        exact h.serial_inj j k hj' hk' hjk
    case creator =>
      intro j hj
      rcases hused j hj with rfl | ⟨hji, hj⟩
      · cases c with
        | none => simp [serialOf]
        | some k => simpa [serialOf] using (h.serial k hpres).2.trans (Nat.le_succ _)
      · simpa [hji] using (h.creator j hj).trans (Nat.le_succ _)
    case fds => exact h.fds
    case tables =>
      intro j hj
      have hji : j ≠ i := by
        rintro rfl
        simp at hj
      exact h.tables j (by simpa [hji] using hj)
    case opener =>
      intro d fd hd hfd
      rcases hpresent d hd with rfl | ⟨hdi, hd⟩
      · exact absurd ((h.entry_of_free hunused fd).symm.trans hfd) Bool.false_ne_true
      · rw [hserialOf d hdi]
        exact h.opener d fd hd hfd
    case waits =>
      intro d w hw
      obtain ⟨hrun, hchild, hwait⟩ := h.waits d w hw
      have hne : w.child ≠ i := by
        rintro rfl
        simp [hunused] at hchild
      exact ⟨hrunning d hrun, by simpa [hne] using hchild, by simpa [hne] using hwait⟩
    case past =>
      intro x hx
      obtain ⟨hle, hpast⟩ := h.past x hx
      refine ⟨hle.trans (Nat.le_succ _), fun j hj => ?_⟩
      rcases hused j hj with rfl | ⟨hji, hj⟩
      · simp only [update_self]
        omega
      · simpa [hji] using hpast j hj
    case once => exact h.once

end Exec

section Exit

theorem procMarkExit_procs (t : ProcTable) (c : Caller) (code : Int) (j : Fin maxProcs) :
    ((t.procMarkExit c code).procs j).pid = (t.procs j).pid ∧
      ((t.procMarkExit c code).procs j).ppid = (t.procs j).ppid := by
  cases c with
  | none => exact ⟨rfl, rfl⟩
  | some i =>
    rw [ProcTable.procMarkExit, ProcTable.setCurrent]
    by_cases hji : j = i
    · subst hji
      rw [ProcTable.setSlot_procs_self]
      exact ⟨rfl, rfl⟩
    · rw [ProcTable.setSlot_procs_of_ne hji]
      exact ⟨rfl, rfl⟩

theorem procMarkExit_used (t : ProcTable) (c : Caller) (code : Int) (j : Fin maxProcs) :
    (t.procMarkExit c code).used j = t.used j := by
  cases c with
  | none => rfl
  | some i =>
    rw [ProcTable.procMarkExit, ProcTable.setCurrent]
    by_cases hji : j = i
    · subst hji
      rw [ProcTable.setSlot_used_self]
    · rw [ProcTable.setSlot_used_of_ne hji]

theorem procMarkExit_alive {t : ProcTable} {i : Fin maxProcs} (hc : c ≠ some i) (code : Int) :
    ((t.procMarkExit c code).procs i).alive = (t.procs i).alive := by
  cases c with
  | none => rfl
  | some j =>
    rw [ProcTable.procMarkExit, ProcTable.setCurrent,
      ProcTable.setSlot_procs_of_ne fun h => hc (congrArg some h.symm)]

theorem Sound.exit (h : Sound s) (hc : s.waiting c = none) (code : Int) :
    Sound { s with table := s.table.procMarkExit c code } := by
  have hused := procMarkExit_used s.table c code
  have hsame := procMarkExit_procs s.table c code
  constructor
  case numbered =>
    constructor
    · cases c with
      | none => exact h.numbered.boot
      | some i => exact h.numbered.boot
    · intro j hj
      exact (hsame j).1.trans (h.numbered.slot j ((hused j).symm.trans hj))
  case serial => exact fun j hj => h.serial j ((hused j).symm.trans hj)
  case serial_inj =>
    exact fun j k hj hk => h.serial_inj j k ((hused j).symm.trans hj) ((hused k).symm.trans hk)
  case creator => exact fun j hj => h.creator j ((hused j).symm.trans hj)
  case fds => exact h.fds
  case tables => exact fun j hj => h.tables j ((hused j).symm.trans hj)
  case opener =>
    intro d fd hd hfd
    cases d with
    | none => exact h.opener none fd trivial hfd
    | some j => exact h.opener (some j) fd ((hused j).symm.trans hd) hfd
  case waits =>
    intro d w hw
    obtain ⟨hrun, hchild, hpid, hppid⟩ := h.waits d w hw
    have hdc : c ≠ d := by
      rintro rfl
      rw [hc] at hw
      cases hw
    refine ⟨?_, (hused _).trans hchild, (hsame _).1.trans hpid, (hsame _).2.trans hppid⟩
    cases d with
    | none => trivial
    | some j => exact ⟨(hused j).trans hrun.1, (procMarkExit_alive hdc code).trans hrun.2⟩
  case past =>
    intro x hx
    exact ⟨(h.past x hx).1, fun j hj => (h.past x hx).2 j ((hused j).symm.trans hj)⟩
  case once => exact h.once

end Exit

section Waitpid

theorem Sound.setWaiting (h : Sound s) (c : Caller) (new : Option Wait)
    (hnew : ∀ w, new = some w → s.Running c ∧ s.table.used w.child = true ∧
      (s.table.procs w.child).pid = w.childPid ∧ (s.table.procs w.child).ppid = callerPid c) :
    Sound { s with waiting := update s.waiting c new } := by
  refine { h with waits := ?_ }
  intro d w hw
  rcases update_at_iff.mp hw with ⟨rfl, heq⟩ | ⟨-, hw⟩
  · exact hnew w heq
  · exact h.waits d w hw

theorem Sound.waitpid (h : Sound s) (hc : s.Running c) (childPid options : Int) :
    Sound (System.waitpid c childPid options s).2 := by
  unfold System.waitpid
  split_ifs with hopt
  · exact h
  cases hfind : procFindChild s.table (s.table.procCurrent c).pid childPid with
  | none => exact h
  | some i =>
    obtain ⟨hused, hpid, hppid⟩ := procFindChild_spec hfind
    apply h.setWaiting
    rintro _ ⟨⟩
    exact ⟨hc, hused, hpid, hppid.trans (h.pid_eq hc.present)⟩

end Waitpid

section FinishWait

variable {k : Kernel}

theorem sysWaitpid_run (h : Inv (fun _ => 0) k) {p : Pid} (hp : 0 < p.val) :
    ∃ k', sysWaitpid true p k = (.ok (), k') ∧ Inv (fun _ => 0) k' ∧ OnlyTable p k k' ∧
      k'.tablesUsed p = false := by
  obtain ⟨out, k', hrun, -, hinv⟩ := h.run_keeps p (.waitpid true p)
  change sysWaitpid true p k = (out, k') at hrun
  have honly : OnlyTable p k (sysWaitpid true p k).2 := moves_sysWaitpid true k
  rw [hrun] at honly
  cases hused : k.tablesUsed p with
  | false =>
    have hskip : sysWaitpid true p k = (.ok (), k) := by
      rw [sysWaitpid, bind_run, Eff.read, andThen_ok, hused, if_neg (by simp)]
      rfl
    exact ⟨k, hskip, h, Std.Refl.refl k, hused⟩
  | true =>
    obtain ⟨k₁, hclose, -⟩ := h.closeAll_run p (List.finRange fdMax)
    have hreap : sysWaitpid true p k =
        (.ok (), { k₁ with tablesUsed := update k₁.tablesUsed p false }) := by
      rw [sysWaitpid, bind_run, Eff.read, andThen_ok, hused, if_pos ⟨rfl, hp, rfl⟩, reapFds,
        bind_ok hclose]
      rfl
    cases hrun.symm.trans hreap
    exact ⟨_, hreap, hinv, honly, update_self _ _ _⟩

def collect (s : System) (c : Caller) (i : Fin maxProcs) (k : Kernel) : System :=
  { s with
    waiting := update s.waiting c none
    kernel := k
    table := s.table.setSlot i Process.zero false
    collected := s.collected ++ [(s.serials i, (s.table.procs i).exitCode)] }

theorem Sound.finishWait_collect (h : Sound s) (hw : s.waiting c = some w)
    (halive : (s.table.procs w.child).alive = false) :
    ∃ k, System.finishWait c (.ok ()) s = (.ok (some w.childPid), s.collect c w.child k) ∧
      Inv (fun _ => 0) k ∧ OnlyTable (tableOf (some w.child)) s.kernel k ∧
      k.tablesUsed (tableOf (some w.child)) = false := by
  obtain ⟨-, hused, hpid, -⟩ := h.waits c w hw
  have hnum : w.childPid = callerPid (some w.child) := hpid.symm.trans (h.numbered.slot _ hused)
  obtain ⟨k, hrun, hinv, honly, htable⟩ := sysWaitpid_run h.fds (p := tableOf (some w.child))
    (Nat.succ_pos _)
  have hclose : closeChildFds w.childPid s.kernel = (.ok (), k) := by
    rw [closeChildFds, hnum, pidTable_callerPid]
    exact hrun
  have hbound : 0 < w.childPid ∧ w.childPid ≤ maxProcs := by
    have := w.child.isLt
    rw [hnum, callerPid]
    omega
  have hindex : ∀ hlt, (⟨(w.childPid - 1).toNat, hlt⟩ : Fin maxProcs) = w.child := by
    intro hlt
    apply Fin.ext
    change (w.childPid - 1).toNat = w.child.val
    rw [hnum, callerPid]
    omega
  have hreap : ProcTable.procReap w.childPid s.table =
      (.ok (), s.table.setSlot w.child Process.zero false) := by
    simp only [ProcTable.procReap, dif_pos hbound, hindex, hused, hpid, halive, ne_eq,
      not_true_eq_false, Bool.true_eq_false, or_self, if_false, Bool.false_eq_true]
  refine ⟨k, ?_, hinv, honly, htable⟩
  simp only [System.finishWait, hw, halive, Bool.false_eq_true, if_false, hclose, hreap, collect]

theorem used_collect : (s.collect c i k).table.used j = true ↔ j ≠ i ∧ s.table.used j = true := by
  change (s.table.setSlot i Process.zero false).used j = true ↔ _
  by_cases hji : j = i
  · subst hji
    simp
  · simp [hji]

theorem procs_collect (hji : j ≠ i) : (s.collect c i k).table.procs j = s.table.procs j :=
  ProcTable.setSlot_procs_of_ne hji

theorem Running.collect (hd : s.Running d) (hi : (s.table.procs i).alive = false) :
    (s.collect c i k).Running d := by
  cases d with
  | none => trivial
  | some j =>
    have hji : j ≠ i := fun h => hd.ne_ended hi (congrArg some h)
    exact ⟨used_collect.mpr ⟨hji, hd.1⟩, (congrArg Process.alive (procs_collect hji)).trans hd.2⟩

theorem Sound.collect (h : Sound s) {k : Kernel} (hw : s.waiting c = some w)
    (halive : (s.table.procs w.child).alive = false) (hinv : Inv (fun _ => 0) k)
    (honly : OnlyTable (tableOf (some w.child)) s.kernel k)
    (htable : k.tablesUsed (tableOf (some w.child)) = false) : Sound (s.collect c w.child k) := by
  obtain ⟨-, hchild, hpid, hppid⟩ := h.waits c w hw
  have hused : ∀ {j}, (s.collect c w.child k).table.used j = true →
      j ≠ w.child ∧ s.table.used j = true := fun hj => used_collect.mp hj
  constructor
  case numbered =>
    refine ⟨h.numbered.boot, fun j hj => ?_⟩
    obtain ⟨hji, hj⟩ := hused hj
    rw [procs_collect hji]
    exact h.numbered.slot j hj
  case serial => exact fun j hj => h.serial j (hused hj).2
  case serial_inj => exact fun j j' hj hj' => h.serial_inj j j' (hused hj).2 (hused hj').2
  case creator => exact fun j hj => h.creator j (hused hj).2
  case fds => exact hinv
  case tables =>
    intro j hj
    by_cases hji : j = w.child
    · rw [hji]
      exact htable
    · have hj' : s.table.used j = false := (ProcTable.setSlot_used_of_ne hji).symm.trans hj
      exact (honly.tablesUsed _ fun heq => hji (Option.some.inj (tableOf_inj heq))).trans
        (h.tables j hj')
  case opener =>
    intro d fd hd hfd
    have hd' : d ≠ some w.child ∧ s.Present d := by
      cases d with
      | none => exact ⟨nofun, trivial⟩
      | some j => exact ⟨fun h => (hused hd).1 (Option.some.inj h), (hused hd).2⟩
    apply h.opener d fd hd'.2
    rw [← honly.fds (tableOf d, fd) fun heq => hd'.1 (tableOf_inj heq)]
    exact hfd
  case waits =>
    intro d w' hw'
    obtain ⟨-, ⟨⟩⟩ | ⟨hdc, hw'⟩ := update_at_iff.mp hw'
    obtain ⟨hrun, hchild', hpid', hppid'⟩ := h.waits d w' hw'
    -- Only its parent waits for a child.
    have hne : w'.child ≠ w.child := by
      intro heq
      rw [heq, hppid] at hppid'
      exact hdc (callerPid_inj hppid').symm
    rw [procs_collect hne]
    exact ⟨hrun.collect halive, used_collect.mpr ⟨hne, hchild'⟩, hpid', hppid'⟩
  case past =>
    intro x hx
    rcases List.mem_append.mp hx with hx | hx
    · exact ⟨(h.past x hx).1, fun j hj => (h.past x hx).2 j (hused hj).2⟩
    · rw [List.mem_singleton.mp hx]
      refine ⟨(h.serial _ hchild).2, fun j hj heq => ?_⟩
      exact (hused hj).1 (h.serial_inj j _ (hused hj).2 hchild heq)
  case once =>
    change ((s.collected ++ [_]).map Prod.fst).Nodup
    rw [List.map_append, List.nodup_append]
    refine ⟨h.once, List.nodup_singleton _, ?_⟩
    rintro a ha b hb rfl
    obtain ⟨x, hx, rfl⟩ := List.mem_map.mp ha
    rw [List.map_singleton, List.mem_singleton] at hb
    exact (h.past x hx).2 _ hchild hb.symm

theorem Sound.finishWait_cases (h : Sound s) (c : Caller) (copied : Except Errno Unit) :
    (System.finishWait c copied s).2 = s ∨
    (System.finishWait c copied s).2 = { s with waiting := update s.waiting c none } ∨
    ∃ w k, s.waiting c = some w ∧ (s.table.procs w.child).alive = false ∧ copied = .ok () ∧
      (System.finishWait c copied s).2 = s.collect c w.child k ∧ Inv (fun _ => 0) k ∧
      OnlyTable (tableOf (some w.child)) s.kernel k ∧
      k.tablesUsed (tableOf (some w.child)) = false := by
  cases hw : s.waiting c with
  | none => exact .inl (by simp only [System.finishWait, hw])
  | some w =>
    cases halive : (s.table.procs w.child).alive with
    | true => exact .inl (by simp only [System.finishWait, hw, halive, if_true])
    | false =>
      cases copied with
      | error e =>
        exact .inr (.inl (by
          simp only [System.finishWait, hw, halive, Bool.false_eq_true, if_false]))
      | ok u =>
        obtain ⟨k, hrun, hrest⟩ := h.finishWait_collect hw halive
        exact .inr (.inr ⟨w, k, rfl, halive, rfl, congrArg Prod.snd hrun, hrest⟩)

theorem Sound.finishWait (h : Sound s) (c : Caller) (copied : Except Errno Unit) :
    Sound (System.finishWait c copied s).2 := by
  rcases h.finishWait_cases c copied with hs | hs | ⟨w, k, hw, halive, -, hs, hinv, honly, htable⟩
  · rwa [hs]
  · rw [hs]
    exact h.setWaiting c none nofun
  · rw [hs]
    exact h.collect hw halive hinv honly htable

end FinishWait

section FileCall

theorem FileCall.table (r : FileCall) (p : Pid) : r.1.table p = p := by
  obtain ⟨r, hr⟩ := r
  cases r with
  | waitpid ready child => exact absurd rfl (hr ready child)
  | _ => rfl

theorem Sound.fileCall (h : Sound s) (hc : s.Running c) (r : FileCall) :
    Sound (s.fileCall c r) := by
  have hpid : pidTable (s.table.procCurrent c).pid = some (tableOf c) := by
    rw [h.pid_eq hc.present, pidTable_callerPid]
  obtain ⟨out, k, hrun, -, hinv⟩ := h.fds.run_keeps (tableOf c) r.1
  have honly := moves_run (tableOf c) r.1 s.kernel
  rw [FileCall.table, hrun] at honly
  have hstep : fdStep (tableOf c, r.1) s.kernel = k := congrArg Prod.snd hrun
  rw [System.fileCall, hpid]
  dsimp only
  rw [hstep]
  refine { h with fds := hinv, tables := ?_, opener := ?_ }
  · intro i hi
    have hne : tableOf (some i) ≠ tableOf c := fun heq =>
      hc.present.ne_free hi (tableOf_inj heq).symm
    exact (honly.tablesUsed _ hne).trans (h.tables i hi)
  · intro d fd hd hfd
    dsimp only at hfd ⊢
    by_cases hsame : k.fds (tableOf d, fd) = s.kernel.fds (tableOf d, fd)
    · rw [if_pos hsame]
      rw [hsame] at hfd
      exact h.opener d fd hd hfd
    · -- Only the caller's own table changes.
      rw [if_neg hsame]
      by_cases hdc : tableOf d = tableOf c
      · rw [tableOf_inj hdc]
        rfl
      · exact absurd (honly.fds _ hdc) hsame

end FileCall

theorem Sound.step {r : Caller × Request} (h : Sound s) (hr : Allowed r s) :
    Sound (System.step r s) := by
  obtain ⟨c, r⟩ := r
  obtain ⟨hc, hidle⟩ := hr
  cases r with
  | exec => exact h.exec hc
  | exit code =>
    rcases hidle with hidle | ⟨copied, hbad⟩
    · exact h.exit hidle code
    · cases hbad
  | waitpid childPid options => exact h.waitpid hc childPid options
  | finishWait copied => exact h.finishWait c copied
  | file call => exact h.fileCall hc call

end System

end CfKernel.Proc
