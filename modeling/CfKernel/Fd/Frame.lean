import CfKernel.Fd.Calls

/-!
# What a call leaves alone

A call works on the descriptor table of one process: its own, or the child's in `SYS_waitpid`. No
entry and no flag of another table changes, however the call ends.
-/

namespace CfKernel.Fd

open Lib Lib.Eff Ramfs Function

/-- Outside the table of `pid` nothing changes. -/
structure OnlyTable (pid : Pid) (k k' : Kernel) : Prop where
  fds : ∀ i, i.1 ≠ pid → k'.fds i = k.fds i
  tablesUsed : ∀ q, q ≠ pid → k'.tablesUsed q = k.tablesUsed q

variable {pid : Pid} {α β : Type} {i : Pid × Fin fdMax} {f : Nat}

instance : Std.Refl (OnlyTable pid) := ⟨fun _ => ⟨fun _ _ => rfl, fun _ _ => rfl⟩⟩

instance : IsTrans Kernel (OnlyTable pid) :=
  ⟨fun _ _ _ h h' => ⟨fun i hi => (h'.fds i hi).trans (h.fds i hi),
    fun q hq => (h'.tablesUsed q hq).trans (h.tablesUsed q hq)⟩⟩

section Parts

theorem moves_onTree (m : TreeM α) : Moves (OnlyTable pid) (tree.zoom m) :=
  fun _ => ⟨fun _ _ => rfl, fun _ _ => rfl⟩

theorem moves_read (g : Kernel → Except (Trap Errno) α) :
    Moves (OnlyTable pid) (Eff.read g : KernelM α) :=
  fun k => Std.Refl.refl k

theorem moves_storeFile (g : OpenFile → OpenFile) :
    Moves (OnlyTable pid) (files.store f g : KernelM Unit) := by
  rw [Field.store]
  exact (moves_read _).bind fun _ _ => ⟨fun _ _ => rfl, fun _ _ => rfl⟩

theorem moves_releaseFile : Moves (OnlyTable pid) (files.release f : KernelM Unit) := by
  rw [Field.release]
  exact (moves_read _).bind fun _ _ => ⟨fun _ _ => rfl, fun _ _ => rfl⟩

theorem moves_setEntry (hi : i.1 = pid) (e : FdEntry) : Moves (OnlyTable pid) (setEntry i e) := by
  intro k
  refine ⟨fun j hj => update_of_ne ?_ _ _, fun _ _ => rfl⟩
  rintro rfl
  exact hj hi

theorem moves_syscallGetFdTable : Moves (OnlyTable pid) (syscallGetFdTable pid) := by
  intro k
  rw [syscallGetFdTable, modify_run]
  split_ifs with hused
  · exact Std.Refl.refl k
  · exact ⟨fun j hj => if_neg hj, fun q hq => update_of_ne hq _ _⟩

end Parts

section Files

theorem moves_vfsClose : Moves (OnlyTable pid) (vfsClose f) := by
  rw [vfsClose]
  refine (moves_read _).bind fun x => ?_
  split
  · exact moves_storeFile _
  · refine Moves.bind ?_ fun _ => moves_releaseFile
    rw [dropVnode]
    split
    · exact moves_pure _
    · exact moves_onTree _

theorem moves_fileUnref : Moves (OnlyTable pid) (fileUnref f) := by
  rw [fileUnref]
  refine (moves_read _).bind fun x => ?_
  split
  · exact moves_vfsClose
  · exact moves_storeFile _

theorem moves_vfsOpen (path : List UInt8) (create : Bool) :
    Moves (OnlyTable pid) (vfsOpen path create) := by
  rw [vfsOpen]
  refine (moves_read _).bind fun root => (moves_onTree _).bind fun vn => ?_
  split
  · exact moves_fail _
  · rw [openVnode]
    refine (moves_onTree _).bind fun got => ?_
    split
    · exact (moves_onTree _).bind fun _ _ => ⟨fun _ _ => rfl, fun _ _ => rfl⟩
    · exact moves_fail _

end Files

section Entries

variable (hi : i.1 = pid)
include hi

theorem moves_installFile : Moves (OnlyTable pid) (installFile i f) := by
  rw [installFile]
  exact Moves.bind (moves_storeFile _) fun _ => moves_setEntry hi _

theorem moves_fdCloseAt : Moves (OnlyTable pid) (fdCloseAt i) := by
  rw [fdCloseAt]
  refine (moves_read _).bind fun e => ?_
  split
  · exact moves_fail _
  · rw [closeEntry]
    exact (moves_setEntry hi _).bind fun _ => moves_fileUnref

theorem moves_fdAllocAt : Moves (OnlyTable pid) (fdAllocAt i f) := by
  rw [fdAllocAt]
  refine (moves_read _).bind fun e => ?_
  split
  · split
    · exact moves_pure _
    · exact (moves_fdCloseAt hi).bind fun _ => moves_installFile hi
  · exact moves_installFile hi

theorem moves_closeIfUsed : Moves (OnlyTable pid) (closeIfUsed i) := by
  rw [closeIfUsed]
  refine (moves_read _).bind fun e => ?_
  split
  · exact moves_fdCloseAt hi
  · exact moves_pure _

end Entries

section Tables

theorem moves_fdAlloc : Moves (OnlyTable pid) (fdAlloc pid f) := by
  rw [fdAlloc]
  refine (moves_read _).bind fun found => ?_
  cases found with
  | none => exact moves_fail _
  | some fd => exact (moves_installFile (i := (pid, fd)) rfl).bind fun _ => moves_pure _

theorem moves_fdClose (fd : Int) : Moves (OnlyTable pid) (fdClose pid fd) := by
  rw [fdClose]
  cases fdIndex fd with
  | none => exact moves_fail _
  | some i => exact moves_fdCloseAt rfl

theorem moves_fdGet (fd : Int) : Moves (OnlyTable pid) (fdGet pid fd) := by
  rw [fdGet]
  cases fdIndex fd with
  | none => exact moves_pure _
  | some i => exact (moves_read _).bind fun _ => moves_pure _

theorem moves_fdDup (oldfd : Int) : Moves (OnlyTable pid) (fdDup pid oldfd) := by
  rw [fdDup]
  refine (moves_fdGet oldfd).bind fun f => ?_
  split
  · exact moves_fail _
  · exact moves_fdAlloc.bind fun _ => moves_pure _

theorem moves_fdDup2 (oldfd newfd : Int) : Moves (OnlyTable pid) (fdDup2 pid oldfd newfd) := by
  rw [fdDup2]
  cases fdIndex newfd with
  | none => exact moves_fail _
  | some i =>
    refine (moves_fdGet oldfd).bind fun f => ?_
    split
    · exact moves_fail _
    · split
      · exact moves_pure _
      · exact moves_fdAllocAt rfl

theorem moves_closeAll (l : List (Fin fdMax)) : Moves (OnlyTable pid) (closeAll pid l) := by
  induction l with
  | nil => exact moves_pure _
  | cons fd l ih => exact (moves_closeIfUsed (i := (pid, fd)) rfl).bind fun _ => ih

theorem moves_installOpened : Moves (OnlyTable pid) (installOpened pid f) := by
  rw [installOpened]
  refine moves_syscallGetFdTable.bind fun _ => ?_
  have hattempt : Moves (OnlyTable pid) (Eff.attempt (fdAlloc pid f)) := fun k => moves_fdAlloc k
  refine hattempt.bind fun out => ?_
  cases out with
  | ok fd => exact moves_fileUnref
  | error e => exact moves_fileUnref.bind fun _ => moves_fail _

theorem moves_sysWaitpid (ready : Bool) : Moves (OnlyTable pid) (sysWaitpid ready pid) := by
  rw [sysWaitpid]
  refine (moves_read _).bind fun used => ?_
  split
  · rw [reapFds]
    exact (moves_closeAll _).bind fun _ _ =>
      ⟨fun _ _ => rfl, fun q hq => update_of_ne hq _ _⟩
  · exact moves_pure _

end Tables

def FdRequest.table (pid : Pid) : FdRequest → Pid
  | .waitpid _ child => child
  | _ => pid

theorem moves_run (pid : Pid) (r : FdRequest) : Moves (OnlyTable (r.table pid)) (r.run pid) := by
  cases r with
  | openPath a create =>
    refine (moves_read _).bind fun path => (moves_vfsOpen path create).bind fun f => ?_
    exact moves_installOpened
  | close fd => exact moves_syscallGetFdTable.bind fun _ => moves_fdClose fd
  | mkdir a => exact (moves_read _).bind fun path => (moves_read _).bind fun root => moves_onTree _
  | remove call a =>
    exact (moves_read _).bind fun path => (moves_read _).bind fun root => moves_onTree _
  | waitpid ready child => exact moves_sysWaitpid ready
  | dup oldfd => exact moves_syscallGetFdTable.bind fun _ => moves_fdDup oldfd
  | dup2 oldfd newfd => exact moves_syscallGetFdTable.bind fun _ => moves_fdDup2 oldfd newfd

end CfKernel.Fd
