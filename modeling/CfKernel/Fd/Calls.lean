import CfKernel.Fd.Counts

/-!
# System calls on open files

Each call keeps the counts exact, whether it succeeds or fails, and touches no object that is gone.
-/

namespace CfKernel.Fd

open Lib Lib.Eff Fat Ramfs Function

variable {k k' : Kernel} {owed : Nat → Nat} {f v : Nat} {x : OpenFile} {pid : Pid}
variable {i j : Pid × Fin fdMax} {e : FdEntry} {α β : Type} {m : KernelM α} {g : α → KernelM β}

/-- The call ends without a fault in a state with exact counts. -/
def Keeps (owed : Nat → Nat) (m : KernelM α) (k : Kernel) : Prop :=
  ∃ out k', m k = (out, k') ∧ out ≠ .error .fault ∧ Inv owed k'

theorem Keeps.fail (h : Inv owed k) (e : Errno) : Keeps owed (failWith e : KernelM α) k :=
  ⟨_, k, rfl, by simp, h⟩

theorem Keeps.pure (h : Inv owed k) (a : α) : Keeps owed (Pure.pure a : KernelM α) k :=
  ⟨_, k, rfl, by simp, h⟩

theorem Inv.keeps_ok {a : α} (h : Inv owed k') (hrun : m k = (.ok a, k')) : Keeps owed m k :=
  ⟨_, k', hrun, by simp, h⟩

theorem Keeps.step {a : α}
    (hrun : m k = (.ok a, k')) (h : Keeps owed (g a) k') : Keeps owed (m >>= g) k := by
  obtain ⟨out, k'', hrun', hout, hinv⟩ := h
  exact ⟨out, k'', (bind_ok hrun).trans hrun', hout, hinv⟩

theorem Keeps.stop {e : Errno}
    (hrun : m k = (.error (.code e), k')) (h : Inv owed k') : Keeps owed (m >>= g) k :=
  ⟨_, k', bind_error hrun, by simp, h⟩

theorem Inv.withTree {t : Tree} (h : Inv owed k) (ht : Sound k.root k.openOn t) :
    Inv owed { k with tree := t } :=
  ⟨ht, h.count, h.dead, h.unused⟩

theorem Inv.onTree_keeps {m : TreeM α} (h : Inv owed k)
    (hm : Answers m k.tree (Sound k.root k.openOn) fun _ => Sound k.root k.openOn) :
    Keeps owed (tree.zoom m) k := by
  obtain ⟨out, t, hrun, hout, ht⟩ := hm.noFault
  exact ⟨out, _, onTree hrun, hout, h.withTree ht⟩

section Tables

theorem Inv.syscallGetFdTable_run (h : Inv owed k) (pid : Pid) :
    ∃ k', syscallGetFdTable pid k = (.ok (), k') ∧ Inv owed k' ∧ k'.tablesUsed pid = true ∧
      k'.files = k.files := by
  by_cases hpid : k.tablesUsed pid = true
  · exact ⟨k, by rw [syscallGetFdTable, modify_run, if_pos hpid], h, hpid, rfl⟩
  refine ⟨{ k with fds := clearTable pid k.fds, tablesUsed := update k.tablesUsed pid true },
    by rw [syscallGetFdTable, modify_run, if_neg hpid], ?_, update_self .., rfl⟩
  have hempty : ∀ i : Pid × Fin fdMax, i.1 = pid → (k.fds i).used = false := by
    rintro i rfl
    exact h.unused i (by simpa using hpid)
  have hslots : ∀ f, entryCount (clearTable pid k.fds) (FdEntry.holds f) = k.slots f := by
    intro f
    apply entryCount_congr
    intro i
    by_cases hi : i.1 = pid
    · rw [clearTable, if_pos hi, holds_unused (hempty i hi), holds_unused rfl]
    · rw [clearTable, if_neg hi]
  refine ⟨h.sound, ?_, ?_, ?_⟩
  · intro f x hx
    obtain ⟨hcount, hpos⟩ := h.count f x hx
    exact ⟨hcount.trans (by rw [← hslots f]; rfl), hpos⟩
  · intro f hf
    obtain ⟨hzero, howed⟩ := h.dead f hf
    exact ⟨(hslots f).trans hzero, howed⟩
  · intro i hi
    change (clearTable pid k.fds i).used = false
    by_cases hpid' : i.1 = pid
    · rw [clearTable, if_pos hpid']
    · rw [clearTable, if_neg hpid']
      change update k.tablesUsed pid true i.1 = false at hi
      rw [update_of_ne hpid'] at hi
      exact h.unused i hi

theorem Inv.fdClose_keeps (h : Inv owed k) (pid : Pid) (fd : Int) : Keeps owed (fdClose pid fd) k := by
  rw [fdClose]
  cases fdIndex fd with
  | none => exact .fail h _
  | some i =>
    rcases h.fdCloseAt_run (pid, i) with ⟨hrun, -⟩ | ⟨k', hrun, hinv, -⟩
    · exact ⟨_, k, hrun, by simp, h⟩
    · exact hinv.keeps_ok hrun

theorem fdGet_run (pid : Pid) (fd : Int) (k : Kernel) :
    ∃ f, fdGet pid fd k = (.ok f, k) ∧
      (f ≠ 0 → ∃ i, fdIndex fd = some i ∧ (k.fds (pid, i)).used = true ∧
        (k.fds (pid, i)).file = f) := by
  rw [fdGet]
  cases hfd : fdIndex fd with
  | none => exact ⟨0, rfl, fun h => absurd rfl h⟩
  | some i =>
    refine ⟨if (k.fds (pid, i)).used then (k.fds (pid, i)).file else 0, rfl, ?_⟩
    intro hne
    by_cases hused : (k.fds (pid, i)).used = true
    · exact ⟨i, rfl, hused, by rw [if_pos hused]⟩
    · rw [if_neg hused] at hne
      exact absurd rfl hne

theorem Inv.fdDup_keeps (h : Inv owed k) (hpid : k.tablesUsed pid = true) (oldfd : Int) :
    Keeps owed (fdDup pid oldfd) k := by
  obtain ⟨f, hget, hslot⟩ := fdGet_run pid oldfd k
  apply Keeps.step hget
  split_ifs with hf
  · exact .fail h _
  obtain ⟨i, -, hused, rfl⟩ := hslot hf
  obtain ⟨x, hx⟩ := h.live_of_used hused
  rcases h.fdAlloc_run hx hpid with ⟨e, hrun⟩ | ⟨fd, k', hrun, hinv⟩
  · exact .stop hrun h
  · exact .step hrun (.pure hinv _)

/-- The file is in another slot, so that closing the slot's old file does not take it away. -/
theorem Inv.fdAllocAt_keeps (h : Inv owed k) (hi : k.tablesUsed i.1 = true) (hij : j ≠ i)
    (hj : (k.fds j).used = true) : Keeps owed (fdAllocAt i (k.fds j).file) k := by
  obtain ⟨x, hx⟩ := h.live_of_used hj
  have hentry : getEntry i k = (.ok (k.fds i), k) := rfl
  apply Keeps.step hentry
  by_cases hused : (k.fds i).used = true
  · rw [if_pos hused]
    by_cases hsame : (k.fds i).file = (k.fds j).file
    · rw [if_pos hsame]
      exact .pure h _
    rw [if_neg hsame]
    rcases h.fdCloseAt_run i with ⟨-, hnot⟩ | ⟨k₁, hrun₁, hinv, hfds, htables⟩
    · rw [hused] at hnot
      cases hnot
    have hj₁ : k₁.fds j = k.fds j := by rw [hfds, update_of_ne hij]
    obtain ⟨y, hy⟩ := hinv.live_of_used (i := j) (by rw [hj₁, hj])
    rw [hj₁] at hy
    obtain ⟨k', hrun', hinv', -⟩ := hinv.installFile_run hy
      (by rw [hfds, update_self]) (by rw [htables, hi])
    exact .step hrun₁ (hinv'.keeps_ok hrun')
  · rw [if_neg hused]
    obtain ⟨k', hrun', hinv', -⟩ := h.installFile_run hx (by simpa using hused) hi
    exact hinv'.keeps_ok hrun'

theorem fdIndex_inj {a b : Int} {n : Fin fdMax} (ha : fdIndex a = some n) (hb : fdIndex b = some n) :
    a = b := by
  unfold fdIndex at ha hb
  split at ha
  · split at hb
    · have h1 := congrArg Fin.val (Option.some.inj ha)
      have h2 := congrArg Fin.val (Option.some.inj hb)
      simp only at h1 h2
      omega
    · cases hb
  · cases ha

theorem Inv.fdDup2_keeps (h : Inv owed k) (hpid : k.tablesUsed pid = true) (oldfd newfd : Int) :
    Keeps owed (fdDup2 pid oldfd newfd) k := by
  rw [fdDup2]
  cases hnew : fdIndex newfd with
  | none => exact .fail h _
  | some i =>
    obtain ⟨f, hget, hslot⟩ := fdGet_run pid oldfd k
    apply Keeps.step hget
    by_cases hf : f = 0
    · rw [if_pos hf]
      exact .fail h _
    rw [if_neg hf]
    by_cases heq : oldfd = newfd
    · rw [if_pos heq]
      exact .pure h _
    rw [if_neg heq]
    obtain ⟨j, hold, hused, rfl⟩ := hslot hf
    have hji : (pid, j) ≠ (pid, i) := by
      intro hpair
      obtain rfl := (Prod.mk.inj hpair).2
      exact heq (fdIndex_inj hold hnew)
    exact h.fdAllocAt_keeps hpid hji hused

end Tables

section Open

theorem Inv.newFile {t : Tree} (h : Inv owed k)
    (ht : Sound k.root (update k.openOn v (k.openOn v + 1)) t) :
    Inv (update owed k.files.next 1)
      { k with tree := t, files := k.files.push ⟨v, 1⟩ } := by
  obtain ⟨hslots, howed⟩ := h.dead _ k.files.cell_next
  constructor
  case sound =>
    have hopen : { k with tree := t, files := k.files.push ⟨v, 1⟩ }.openOn =
        update k.openOn v (k.openOn v + 1) := by
      funext w
      have hcount := Heap.count_push k.files ⟨v, 1⟩ fun y => y.vn == w
      by_cases hw : w = v
      · subst hw
        rw [if_pos (beq_self_eq_true w)] at hcount
        rw [update_self]
        exact hcount
      · rw [if_neg (by simpa using Ne.symm hw)] at hcount
        rw [update_of_ne hw]
        exact hcount
    rw [hopen]
    exact ht
  case count =>
    intro a y hy
    rcases update_at_iff.mp hy with ⟨rfl, ⟨⟩⟩ | ⟨ha, hy⟩
    · rw [update_self]
      exact ⟨by change 1 = k.slots _ + 1; rw [hslots], Nat.one_pos⟩
    · rw [update_of_ne ha]
      exact h.count a y hy
  case dead =>
    intro a ha
    obtain ⟨-, ⟨⟩⟩ | ⟨hne, ha⟩ := update_at_iff.mp ha
    rw [update_of_ne hne]
    exact h.dead a ha
  case unused => exact h.unused

theorem Inv.vfsOpen_run (h : Inv (fun _ => 0) k) (path : List UInt8) (create : Bool) :
    (∃ e k', vfsOpen path create k = (.error (.code e), k') ∧ Inv (fun _ => 0) k') ∨
    ∃ f k', vfsOpen path create k = (.ok f, k') ∧
      Inv (update (fun _ => 0) f 1) k' := by
  have hrun : vfsOpen path create k = (tree.zoom (vfsFindOrCreate k.root path create) >>=
      fun vn => if vn = 0 then failWith .internal else openVnode vn) k := rfl
  rw [hrun, bind_run]
  rcases h.sound.vfsFindOrCreate path create with ⟨w, t, hrun, ht, hw⟩ | ⟨_, t, hrun, ⟨e, rfl⟩, ht⟩
  case inr =>
    rw [onTree hrun, andThen_error]
    exact .inl ⟨e, _, rfl, h.withTree ht⟩
  obtain ⟨kids, hwf⟩ := ht.wellFormed
  obtain ⟨x, n, hx, -, -⟩ := hwf.attached_vnode hw
  rw [onTree hrun, andThen_ok, if_neg (Heap.ne_zero hx), openVnode, bind_run]
  have hsame : Same t { t with alloc := fun n => t.alloc (n + 1) } := ⟨rfl, rfl, rfl⟩
  have halloc : tree.zoom allocate { k with tree := t } =
      (.ok (t.alloc 0), { k with tree := { t with alloc := fun n => t.alloc (n + 1) } }) := rfl
  rw [halloc, andThen_ok]
  by_cases ha : t.alloc 0 = true
  · obtain ⟨t', hrun', ht'⟩ := (ht.same hsame).vnodeRef (hsame.attached hw)
    rw [if_pos ha, bind_ok (onTree (k := { k with tree := { t with alloc := _ } }) hrun')]
    exact .inr ⟨_, _, rfl, h.newFile ht'⟩
  · rw [if_neg ha]
    exact .inl ⟨_, _, rfl, h.withTree (ht.same hsame)⟩

theorem Inv.installOpened_keeps (h : Inv (update (fun _ => 0) f 1) k) (pid : Pid) :
    Keeps (fun _ => 0) (installOpened pid f) k := by
  obtain ⟨k₁, hrun₁, hinv₁, hpid, -⟩ := h.syscallGetFdTable_run pid
  apply Keeps.step hrun₁
  have hf : 0 < update (fun _ => 0) f 1 f := by
    rw [update_self]
    exact Nat.one_pos
  have hback : update (update (fun _ => 0) f 1) f
      (update (fun _ => 0) f 1 f - 1) = fun _ => (0 : Nat) := by
    rw [update_self, update_idem]
    exact update_eq_self f (fun _ => (0 : Nat))
  obtain ⟨x, hx⟩ := hinv₁.live_of_owed hf
  rcases hinv₁.fdAlloc_run hx hpid with ⟨e, hrun⟩ | ⟨fd, k₂, hrun, hinv₂⟩
  · obtain ⟨k', hrun', hinv', -⟩ := hinv₁.fileUnref_run hf
    rw [hback] at hinv'
    apply Keeps.step (attempt_run hrun)
    exact Keeps.step hrun' ⟨_, k', rfl, by simp, hinv'⟩
  · obtain ⟨k', hrun', hinv', -⟩ := hinv₂.fileUnref_run hf
    rw [hback] at hinv'
    apply Keeps.step (attempt_run hrun)
    exact hinv'.keeps_ok hrun'

end Open

section Reap

theorem Inv.closeIfUsed_run (h : Inv owed k) (i : Pid × Fin fdMax) :
    ∃ k', closeIfUsed i k = (.ok (), k') ∧ Inv owed k' ∧ (k'.fds i).used = false ∧
      ∀ j, (k.fds j).used = false → (k'.fds j).used = false := by
  have hrun : closeIfUsed i k = (if (k.fds i).used then fdCloseAt i else Pure.pure ()) k := rfl
  rw [hrun]
  split_ifs with hused
  · rcases h.fdCloseAt_run i with ⟨-, hnot⟩ | ⟨k', hrun', hinv, hfds, -⟩
    · rw [hused] at hnot
      cases hnot
    refine ⟨k', hrun', hinv, by rw [hfds, update_self], fun j hj => ?_⟩
    rw [hfds]
    by_cases hji : j = i
    · rw [hji, update_self]
    · rwa [update_of_ne hji]
  · exact ⟨k, rfl, h, by simpa using hused, fun _ hj => hj⟩

theorem Inv.closeAll_run (h : Inv owed k) (pid : Pid) (l : List (Fin fdMax)) :
    ∃ k', closeAll pid l k = (.ok (), k') ∧ Inv owed k' ∧
      (∀ fd ∈ l, (k'.fds (pid, fd)).used = false) ∧
      ∀ j, (k.fds j).used = false → (k'.fds j).used = false := by
  induction l generalizing k with
  | nil => exact ⟨k, rfl, h, by simp, fun _ hj => hj⟩
  | cons fd l ih =>
    obtain ⟨k₁, hrun₁, hinv₁, hfd, hkeep₁⟩ := h.closeIfUsed_run (pid, fd)
    obtain ⟨k', hrun, hinv, hall, hkeep⟩ := ih hinv₁
    refine ⟨k', by rw [closeAll, bind_ok hrun₁, hrun], hinv, ?_, ?_⟩
    · intro a ha
      rcases List.mem_cons.mp ha with rfl | ha
      · exact hkeep _ hfd
      · exact hall a ha
    · exact fun j hj => hkeep j (hkeep₁ j hj)

theorem Inv.reapFds_keeps (h : Inv owed k) (pid : Pid) : Keeps owed (reapFds pid) k := by
  obtain ⟨k', hrun, hinv, hall, -⟩ := h.closeAll_run pid (List.finRange fdMax)
  apply Keeps.step hrun
  refine ⟨_, _, rfl, by simp, hinv.sound, hinv.count, hinv.dead, ?_⟩
  rintro ⟨p, fd⟩ hi
  by_cases hp : p = pid
  · subst hp
    exact hall fd (List.mem_finRange fd)
  · change update k'.tablesUsed pid false p = false at hi
    rw [update_of_ne hp] at hi
    exact hinv.unused (p, fd) hi

end Reap

section Calls

variable (h : Inv (fun _ => 0) k)
include h

theorem Inv.resolved_keeps (a : PathArg) (g : List UInt8 → KernelM β)
    (hg : ∀ path, Keeps (fun _ => 0) (g path) k) : Keeps (fun _ => 0) (resolved a >>= g) k := by
  cases hpath : a.resolve with
  | error e =>
    have hrun : resolved a k = (.error (.code e), k) := by
      rw [resolved, Eff.read, hpath]
      rfl
    exact .stop hrun h
  | ok path =>
    have hrun : resolved a k = (.ok path, k) := by
      rw [resolved, Eff.read, hpath]
      rfl
    exact .step hrun (hg path)

theorem Inv.sysOpen_keeps (pid : Pid) (a : PathArg) (create : Bool) :
    Keeps (fun _ => 0) (sysOpen pid a create) k := by
  apply h.resolved_keeps
  intro path
  rcases h.vfsOpen_run path create with ⟨e, k', hrun, hinv⟩ | ⟨f, k', hrun, hinv⟩
  · exact .stop hrun hinv
  · exact .step hrun (hinv.installOpened_keeps pid)

theorem removePath_run (call : RemoveCall) (path : List UInt8) :
    Answers (removePath call k.root path) k.tree (Sound k.root k.openOn)
      fun _ => Sound k.root k.openOn := by
  refine ((h.sound.vfsLookup path).mono (fun _ _ hw => hw) ?_).bind ?_
  · rintro e _ ⟨he, rfl⟩
    exact ⟨he, h.sound⟩
  rintro w _ ⟨rfl, hw⟩
  obtain ⟨kids, hwf⟩ := h.sound.wellFormed
  obtain ⟨x, n, hx, -, -⟩ := hwf.attached_vnode hw
  refine .step (loadVnode hx) ?_
  cases call.refuses x.type with
  | some e => exact ends_fail ⟨⟨e, rfl⟩, h.sound⟩
  | none => exact h.sound.vfsUnlink path

theorem Inv.run_keeps (pid : Pid) (r : FdRequest) : Keeps (fun _ => 0) (r.run pid) k := by
  obtain ⟨k₁, hrun₁, hinv₁, hpid, -⟩ := h.syscallGetFdTable_run pid
  cases r with
  | openPath a create => exact h.sysOpen_keeps pid a create
  | close fd => exact .step hrun₁ (hinv₁.fdClose_keeps pid fd)
  | mkdir a =>
    apply h.resolved_keeps
    intro path
    have hroot : (Eff.read fun k => .ok k.root : KernelM Nat) k = (.ok k.root, k) := rfl
    exact .step hroot (h.onTree_keeps (h.sound.vfsMkdir path))
  | remove call a =>
    apply h.resolved_keeps
    intro path
    have hroot : (Eff.read fun k => .ok k.root : KernelM Nat) k = (.ok k.root, k) := rfl
    exact .step hroot (h.onTree_keeps (removePath_run h call path))
  | waitpid ready child =>
    have hused : (Eff.read fun k => .ok (k.tablesUsed child) : KernelM Bool) k =
      (.ok (k.tablesUsed child), k) := rfl
    apply Keeps.step hused
    split_ifs with hready
    · exact h.reapFds_keeps child
    · exact .pure h _
  | dup oldfd => exact .step hrun₁ (hinv₁.fdDup_keeps hpid oldfd)
  | dup2 oldfd newfd => exact .step hrun₁ (hinv₁.fdDup2_keeps hpid oldfd newfd)

end Calls

end CfKernel.Fd
