import CfKernel.Proc.Family

/-!
# Descriptors of one process

A process sees the descriptor table that its pid indexes. In every run the table of a new process is
empty, and whatever a process sees later it has put there itself.
-/

namespace CfKernel.Proc

open Lib Lib.Eff Syscall Fd Ramfs

namespace System

/-- What `syscall_get_fd_table` gives to a process. -/
def descriptors (s : System) (c : Caller) (fd : Fin fdMax) : Option FdEntry :=
  (pidTable (s.table.procCurrent c).pid).map fun p => (syscallGetFdTable p s.kernel).2.fds (p, fd)

/-- The process that last changed a descriptor that a process sees. -/
def openerOf (s : System) (c : Caller) (fd : Fin fdMax) : Option Nat :=
  (pidTable (s.table.procCurrent c).pid).map fun p => s.openers (p, fd)

/-- Nothing that another process has opened is visible. -/
structure Isolated (s : System) : Prop where
  /-- A new process has a table, and no entry of it is in use. -/
  fresh : ∀ c i, s.Running c → freeSlot s.table = some i →
    ((s.exec c).table.procs i).pid = i + 1 ∧
    ∀ fd, ∃ e, (s.exec c).descriptors (some i) fd = some e ∧ e.used = false
  /-- An entry in use was made by the process that sees it. -/
  own : ∀ c fd e, s.Running c → s.descriptors c fd = some e → e.used = true →
    s.openerOf c fd = some (s.serialOf c)
  /-- No two processes use one table, and the serial numbers tell them apart. -/
  apart : ∀ c d, s.Running c → s.Running d → c ≠ d →
    pidTable (s.table.procCurrent c).pid ≠ pidTable (s.table.procCurrent d).pid ∧
    s.serialOf c ≠ s.serialOf d

variable {s : System} {c d : Caller} {i : Fin maxProcs}

theorem Sound.pidTable_eq (h : Sound s) (hc : s.Present c) :
    pidTable (s.table.procCurrent c).pid = some (tableOf c) := by
  rw [h.pid_eq hc, pidTable_callerPid]

theorem Sound.descriptors_eq (h : Sound s) (hc : s.Present c) (fd : Fin fdMax) :
    s.descriptors c fd = some ((syscallGetFdTable (tableOf c) s.kernel).2.fds (tableOf c, fd)) := by
  rw [descriptors, h.pidTable_eq hc, Option.map_some]

theorem syscallGetFdTable_entry (p : Pid) (fd : Fin fdMax) (k : Kernel) :
    (syscallGetFdTable p k).2.fds (p, fd) = k.fds (p, fd) ∨
      ((syscallGetFdTable p k).2.fds (p, fd)).used = false := by
  rw [syscallGetFdTable, modify_run]
  split_ifs with hused
  · exact .inl rfl
  · exact .inr (by simp [clearTable])

theorem Sound.isolated (h : Sound s) : Isolated s where
  fresh c i hc hfree := by
    have hpres := hc.present
    have h' := h.exec hc
    have hi : (s.exec c).table.used i = true := (used_exec hfree hpres).mpr (.inl rfl)
    refine ⟨h'.numbered.slot i hi, fun fd => ⟨_, h'.descriptors_eq (c := some i) hi fd, ?_⟩⟩
    have hkernel : (s.exec c).kernel = s.kernel := by rw [exec_eq hfree hpres]
    rcases syscallGetFdTable_entry (tableOf (some i)) fd (s.exec c).kernel with heq | hunused
    · rw [heq, hkernel]
      exact h.entry_of_free (used_of_freeSlot hfree) fd
    · exact hunused
  own c fd e hc he hused := by
    rw [h.descriptors_eq hc.present, Option.some.injEq] at he
    subst he
    rw [openerOf, h.pidTable_eq hc.present, Option.map_some]
    rcases syscallGetFdTable_entry (tableOf c) fd s.kernel with heq | hunused
    · rw [heq] at hused
      exact congrArg some (h.opener c fd hc.present hused)
    · exact absurd (hunused.symm.trans hused) Bool.false_ne_true
  apart c d hc hd hcd := by
    rw [h.pidTable_eq hc.present, h.pidTable_eq hd.present]
    constructor
    · exact fun heq => hcd (tableOf_inj (Option.some.inj heq))
    · exact fun heq => hcd (h.serialOf_inj hc.present hd.present heq)

section Runs

variable {alloc : Nat → Bool} {root : Nat} {t t₀ : Tree}

/-- In every run, also when `SYS_waitpid` fails half-way, a process starts without descriptors and
sees only those it has opened itself. -/
theorem descriptors_isolated (hmount : mountRamfs (unmounted alloc) = (.ok root, t₀))
    (hdirs : Reach dirStep OnVnode t₀ t) (hrun : Reach step Allowed (start t root) s) :
    Isolated s :=
  (sound_reached hmount hdirs hrun).isolated

end Runs

def openFile : FileCall := ⟨openA, nofun⟩

def oneOpened : System :=
  step (proc1, Request.file openFile) (step (none, Request.exec) (start emptyRoot 1))

theorem descriptors_isolated_oneOpened :
    Isolated oneOpened ∧ oneOpened.descriptors proc1 ⟨3, by decide⟩ = some ⟨1, true⟩ ∧
      oneOpened.openerOf proc1 ⟨3, by decide⟩ = some 1 := by
  have hmount : mountRamfs (unmounted fun _ => true) = (.ok 1, emptyRoot) := rfl
  refine ⟨descriptors_isolated hmount .start
    (Reach.step _ (Reach.step _ .start ⟨trivial, .inl rfl⟩) ⟨?_, .inl rfl⟩), ?_, ?_⟩
  · exact ⟨by decide +kernel, by decide +kernel⟩
  · decide +kernel
  · decide +kernel

end System

end CfKernel.Proc
