import CfKernel.Fd.Frame
import CfKernel.Fd.Run

/-!
# Processes and their descriptors

The process table of `proc.c` together with the descriptor tables of `syscall.c`, under `exec`,
`SYS_exit`, `SYS_waitpid` and the calls on files, made by any process at any time. A process in
`SYS_waitpid` may stand in the loop that yields until the child has ended, while others run; its
next step is `finishWait`.

A pid is the number of a slot and is handed out again. Serial numbers, which the code does not have,
tell the processes apart that had one pid: the boot process is 0, and the others are counted from 1.
-/

namespace CfKernel.Proc

open Lib Lib.Eff Syscall Fd Ramfs Function

/-- The slot of the running process, or `none` for the boot process. -/
abbrev Caller := Option (Fin maxProcs)

/-- What `SYS_waitpid` keeps while it yields: the child's slot and the argument. -/
structure Wait where
  child : Fin maxProcs
  childPid : Int

structure System where
  table : ProcTable
  kernel : Kernel
  waiting : Caller → Option Wait
  /-- The serial number of the process in a slot, and that of the process that created it. -/
  serials : Fin maxProcs → Nat
  creators : Fin maxProcs → Nat
  created : Nat
  /-- The process whose call last changed the entry. -/
  openers : Pid × Fin fdMax → Nat
  /-- The processes that a `SYS_waitpid` returned, with their exit codes. -/
  collected : List (Nat × Int)

def freeSlot (t : ProcTable) : Option (Fin maxProcs) :=
  (List.finRange maxProcs).find? fun i => !t.used i

def procFindChild (t : ProcTable) (parentPid childPid : Int) : Option (Fin maxProcs) :=
  (List.finRange maxProcs).find? fun i =>
    t.used i && decide ((t.procs i).pid = childPid) && decide ((t.procs i).ppid = parentPid)

/-- The index into `g_fd_tables`, if the pid is one. -/
def pidTable (pid : Int) : Option Pid :=
  if h : 0 ≤ pid ∧ pid < 64 then some ⟨pid.toNat, by omega⟩ else none

namespace System

variable (s : System)

def serialOf : Caller → Nat
  | none => 0
  | some i => s.serials i

def Present : Caller → Prop
  | none => True
  | some i => s.table.used i = true

/-- The process has a slot and has not ended. -/
def Running : Caller → Prop
  | none => True
  | some i => s.table.used i = true ∧ (s.table.procs i).alive = true

/-- `exec_elf_context` up to the new thread: everything before `proc_create` may fail, and then the
table stays as it is. -/
def exec (c : Caller) (s : System) : System :=
  match freeSlot s.table with
  | none => s
  | some i =>
    { s with
      table := s.table.procCreate c
      serials := update s.serials i (s.created + 1)
      creators := update s.creators i (s.serialOf c)
      created := s.created + 1 }

/-- `SYS_waitpid` up to its loop. -/
def waitpid (c : Caller) (childPid options : Int) : Eff Errno System Unit := fun s =>
  let child := procFindChild s.table (s.table.procCurrent c).pid childPid
  if options ≠ 0 then (.error .notSupported, s)
  else match child with
    | none => (.error .noChildProcess, s)
    | some i => (.ok (), { s with waiting := update s.waiting c (some ⟨i, childPid⟩) })

def closeChildFds (childPid : Int) : KernelM Unit :=
  match pidTable childPid with
  | none => pure ()
  | some p => sysWaitpid true p

/-- A turn of the loop of `SYS_waitpid` and, when the child has ended, what follows the loop.
`copied` is what `copy_to_user` says of the status; without a status pointer that is success. The
value is the pid that the call returns, or `none` while it goes on waiting. -/
def finishWait (c : Caller) (copied : Except Errno Unit) : Eff (Trap Errno) System (Option Int) :=
  fun s =>
    match s.waiting c with
    | none => (.ok none, s)
    | some w =>
      if (s.table.procs w.child).alive then (.ok none, s)
      else
        let status := (s.table.procs w.child).exitCode
        let woken := { s with waiting := update s.waiting c none }
        match copied with
        | .error e => (.error (.code e), woken)
        | .ok _ =>
          match closeChildFds w.childPid s.kernel with
          | (.error e, k) => (.error e, { woken with kernel := k })
          | (.ok _, k) =>
            match ProcTable.procReap w.childPid s.table with
            | (.error e, t) => (.error (.code e), { woken with kernel := k, table := t })
            | (.ok _, t) =>
              (.ok (some w.childPid), { woken with
                kernel := k
                table := t
                collected := s.collected ++ [(s.serials w.child, status)] })

/-- The calls that work on the caller's own table. -/
abbrev FileCall := {r : FdRequest // ∀ ready child, r ≠ .waitpid ready child}

def fileCall (c : Caller) (r : FileCall) (s : System) : System :=
  match pidTable (s.table.procCurrent c).pid with
  | none => s
  | some p =>
    let k := fdStep (p, r.1) s.kernel
    { s with
      kernel := k
      openers := fun i => if k.fds i = s.kernel.fds i then s.openers i else s.serialOf c }

inductive Request where
  | exec
  | exit (code : Int)
  | waitpid (childPid options : Int)
  | finishWait (copied : Except Errno Unit)
  | file (r : FileCall)

def step (r : Caller × Request) (s : System) : System :=
  match r.2 with
  | .exec => s.exec r.1
  | .exit code => { s with table := s.table.procMarkExit r.1 code }
  | .waitpid childPid options => (waitpid r.1 childPid options s).2
  | .finishWait copied => (finishWait r.1 copied s).2
  | .file call => s.fileCall r.1 call

/-- Only a process that has not ended runs, and one that waits does nothing else. -/
def Allowed (r : Caller × Request) (s : System) : Prop :=
  s.Running r.1 ∧ (s.waiting r.1 = none ∨ ∃ copied, r.2 = .finishWait copied)

/-- Before the first process, on a mounted root. -/
def start (t : Tree) (root : Nat) : System where
  table := procInit
  kernel := booted t root
  waiting _ := none
  serials _ := 0
  creators _ := 0
  created := 0
  openers _ := 0
  collected := []

end System

section Table

variable {t : ProcTable} {i j : Fin maxProcs} {c d : Caller} {parentPid childPid : Int}

theorem used_of_freeSlot (h : freeSlot t = some i) : t.used i = false := by
  have hfree := List.find?_some h
  simpa using hfree

theorem exists_freeSlot (h : t.used i = false) : ∃ f, freeSlot t = some f := by
  rw [← Option.isSome_iff_exists, freeSlot, List.find?_isSome]
  exact ⟨i, List.mem_finRange i, by simpa using h⟩

/-- The slot that `proc_create` fills. -/
def newProcess (t : ProcTable) (c : Caller) (i : Fin maxProcs) : Process :=
  ⟨(i : Int) + 1, (t.procCurrent c).pid, 0, true, ProcTable.inheritedCwd (t.procCurrent c)⟩

theorem procCreate_eq (h : freeSlot t = some i) (hc : c ≠ some i) :
    t.procCreate c = t.setSlot i (newProcess t c i) true := by
  have hcurrent : (t.setSlot i Process.zero true).procCurrent c = t.procCurrent c := by
    cases c with
    | none => rfl
    | some j => exact ProcTable.setSlot_procs_of_ne fun hj => hc (congrArg some hj)
  have halloc : t.procAllocSlot = some (i, t.setSlot i Process.zero true) := by
    rw [ProcTable.procAllocSlot, ← freeSlot, h, Option.map_some]
  simp only [ProcTable.procCreate, halloc, hcurrent, ProcTable.setSlot_setSlot, newProcess]

theorem procFindChild_spec (h : procFindChild t parentPid childPid = some i) :
    t.used i = true ∧ (t.procs i).pid = childPid ∧ (t.procs i).ppid = parentPid := by
  have hi := List.find?_some h
  simpa [and_assoc] using hi

/-- Every slot in use holds its own number. -/
structure Numbered (t : ProcTable) : Prop where
  boot : t.boot.pid = 0
  slot : ∀ i, t.used i = true → (t.procs i).pid = i + 1

theorem Numbered.procFindChild (h : Numbered t) (hj : t.used j = true)
    (hppid : (t.procs j).ppid = parentPid) :
    Proc.procFindChild t parentPid (t.procs j).pid = some j := by
  have hsome : ∃ i, Proc.procFindChild t parentPid (t.procs j).pid = some i := by
    rw [← Option.isSome_iff_exists, Proc.procFindChild, List.find?_isSome]
    exact ⟨j, List.mem_finRange j, by simp [hj, hppid]⟩
  obtain ⟨i, hi⟩ := hsome
  obtain ⟨hused, hpid, -⟩ := procFindChild_spec hi
  rw [h.slot i hused, h.slot j hj] at hpid
  rw [hi, Option.some.injEq]
  exact Fin.ext (by omega)

def callerPid : Caller → Int
  | none => 0
  | some i => i + 1

theorem callerPid_inj (h : callerPid c = callerPid d) : c = d := by
  cases c with
  | none =>
    cases d with
    | none => rfl
    | some j =>
      simp only [callerPid] at h
      omega
  | some i =>
    cases d with
    | none =>
      simp only [callerPid] at h
      omega
    | some j =>
      simp only [callerPid] at h
      exact congrArg some (Fin.ext (by omega))

theorem boot_table_lt : 0 < 64 := Nat.succ_pos 63

theorem slot_table_lt (i : Fin maxProcs) : i.val + 1 < 64 := Nat.succ_lt_succ i.isLt

def tableOf : Caller → Pid
  | none => ⟨0, boot_table_lt⟩
  | some i => ⟨i.val + 1, slot_table_lt i⟩

theorem pidTable_callerPid (c : Caller) : pidTable (callerPid c) = some (tableOf c) := by
  cases c with
  | none => rfl
  | some i =>
    have hi : i.val < 63 := i.isLt
    rw [pidTable, callerPid, dif_pos (by omega)]
    exact congrArg some (Fin.ext (by simp only [tableOf]; omega))

theorem tableOf_inj (h : tableOf c = tableOf d) : c = d := by
  cases c with
  | none =>
    cases d with
    | none => rfl
    | some j => exact absurd (congrArg Fin.val h) (Nat.succ_ne_zero _).symm
  | some i =>
    cases d with
    | none => exact absurd (congrArg Fin.val h) (Nat.succ_ne_zero _)
    | some j => exact congrArg some (Fin.ext (Nat.succ_injective (congrArg Fin.val h)))

end Table

end CfKernel.Proc
