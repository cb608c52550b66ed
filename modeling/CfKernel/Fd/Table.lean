import CfKernel.Ramfs.Walk
import CfKernel.Syscall.Processes

/-!
# Open files and descriptors

`vfs_open` and `vfs_close` with the reference counts of `ref.c`, the descriptor tables of `fd.c`,
and the system calls that use them, on a ramfs mounted as the root. A process is the index of its
table. What a call finds in user memory, in the caller's working directory and on the kernel stack
is part of the request, and so is whether `SYS_waitpid` gets as far as the child's descriptors.
-/

namespace CfKernel.Fd

open Lib Lib.Eff Fat Ramfs Syscall Function

/-- `struct file` without flags and offset. -/
structure OpenFile where
  vn : Nat
  refcount : Nat
  deriving DecidableEq

structure FdEntry where
  file : Nat
  used : Bool
  deriving DecidableEq

def fdMax : Nat := 256

/-- `g_fd_tables` has one table for each process. -/
abbrev Pid := Fin 64

structure Kernel where
  tree : Tree
  root : Nat
  files : Heap OpenFile
  fds : Pid × Fin fdMax → FdEntry
  tablesUsed : Pid → Bool

abbrev KernelM := Eff (Trap Errno) Kernel

def tree : Field Kernel Tree := ⟨Kernel.tree, fun t k => { k with tree := t }⟩

def files : Field Kernel (Heap OpenFile) := ⟨Kernel.files, fun h k => { k with files := h }⟩

def failWith {α : Type} (e : Errno) : KernelM α := Eff.fail (.code e)

def fileRef (f : Nat) : KernelM Unit := files.store f fun x => { x with refcount := x.refcount + 1 }

def dropVnode (vn : Nat) : KernelM Unit := if vn = 0 then pure () else tree.zoom (vnodeUnref vn)

def vfsClose (f : Nat) : KernelM Unit := do
  let x ← files.load f
  if 1 < x.refcount then files.store f fun x => { x with refcount := x.refcount - 1 }
  else do
    dropVnode x.vn
    files.release f

def fileUnref (f : Nat) : KernelM Unit := do
  let x ← files.load f
  if x.refcount ≤ 1 then vfsClose f
  else files.store f fun x => { x with refcount := x.refcount - 1 }

/-- The end of `vfs_open`, with the vnode. -/
def openVnode (vn : Nat) : KernelM Nat := do
  if ← tree.zoom allocate then do
    tree.zoom (vnodeRef vn)
    files.new ⟨vn, 1⟩
  else failWith .outOfMemory

def vfsOpen (path : List UInt8) (create : Bool) : KernelM Nat := do
  let root ← Eff.read fun k => .ok k.root
  let vn ← tree.zoom (vfsFindOrCreate root path create)
  if vn = 0 then failWith .internal else openVnode vn

def setEntry (i : Pid × Fin fdMax) (e : FdEntry) : KernelM Unit :=
  Eff.modify fun k => { k with fds := update k.fds i e }

def getEntry (i : Pid × Fin fdMax) : KernelM FdEntry := Eff.read fun k => .ok (k.fds i)

/-- The descriptors 0 to 2 are never handed out. -/
def fdFindFree (pid : Pid) (k : Kernel) : Option (Fin fdMax) :=
  (List.finRange fdMax).find? fun i => decide (3 ≤ i.val) && !(k.fds (pid, i)).used

def installFile (i : Pid × Fin fdMax) (f : Nat) : KernelM Unit := do
  fileRef f
  setEntry i ⟨f, true⟩

def fdAlloc (pid : Pid) (f : Nat) : KernelM (Fin fdMax) := do
  match ← Eff.read fun k => .ok (fdFindFree pid k) with
  | none => failWith .tooManyOpenFiles
  | some fd => do
    installFile (pid, fd) f
    pure fd

def fdIndex (fd : Int) : Option (Fin fdMax) :=
  if h : 0 ≤ fd ∧ fd < fdMax then some ⟨fd.toNat, by omega⟩ else none

def closeEntry (i : Pid × Fin fdMax) (f : Nat) : KernelM Unit := do
  setEntry i ⟨0, false⟩
  fileUnref f

def fdCloseAt (i : Pid × Fin fdMax) : KernelM Unit := do
  let e ← getEntry i
  if e.used = false then failWith .badFileDescriptor else closeEntry i e.file

def fdClose (pid : Pid) (fd : Int) : KernelM Unit :=
  match fdIndex fd with
  | none => failWith .badFileDescriptor
  | some i => fdCloseAt (pid, i)

/-- `NULL` is zero. -/
def fdGet (pid : Pid) (fd : Int) : KernelM Nat :=
  match fdIndex fd with
  | none => pure 0
  | some i => do
    let e ← getEntry (pid, i)
    pure (if e.used then e.file else 0)

def fdAllocAt (i : Pid × Fin fdMax) (f : Nat) : KernelM Unit := do
  let e ← getEntry i
  if e.used then
    if e.file = f then pure ()
    else do
      fdCloseAt i
      installFile i f
  else installFile i f

def fdDup (pid : Pid) (oldfd : Int) : KernelM Unit := do
  let f ← fdGet pid oldfd
  if f = 0 then failWith .badFileDescriptor
  else do
    let _ ← fdAlloc pid f

def fdDup2 (pid : Pid) (oldfd newfd : Int) : KernelM Unit :=
  match fdIndex newfd with
  | none => failWith .invalidArgument
  | some i => do
    let f ← fdGet pid oldfd
    if f = 0 then failWith .badFileDescriptor
    else if oldfd = newfd then pure () else fdAllocAt (pid, i) f

def clearTable (pid : Pid) (fds : Pid × Fin fdMax → FdEntry) : Pid × Fin fdMax → FdEntry :=
  fun i => if i.1 = pid then ⟨0, false⟩ else fds i

/-- `syscall_get_fd_table`: the table is cleared when it is first used. -/
def syscallGetFdTable (pid : Pid) : KernelM Unit := Eff.modify fun k =>
  if k.tablesUsed pid then k
  else { k with
    fds := clearTable pid k.fds
    tablesUsed := update k.tablesUsed pid true }

/-- The path argument of a system call. -/
structure PathArg where
  user : UserMemory
  address : Nat
  cwd : List UInt8
  stack : Bytes

/-- `copy_user_string` and `syscall_resolve_path`. -/
def PathArg.resolve (a : PathArg) : Except Errno (List UInt8) := do
  let pathname ← copyUserString a.user syscallPathMax a.address
  let (result, resolved) := syscallResolvePath a.cwd pathname syscallPathMax a.stack
  result
  pure (cString resolved syscallPathMax)

def resolved (a : PathArg) : KernelM (List UInt8) := Eff.read fun _ => a.resolve.mapError .code

/-- `SYS_open` with the file: whether or not the table takes it, the caller's reference goes. -/
def installOpened (pid : Pid) (f : Nat) : KernelM Unit := do
  syscallGetFdTable pid
  match ← Eff.attempt (fdAlloc pid f) with
  | .ok _ => fileUnref f
  | .error e => do
    fileUnref f
    Eff.fail e

def sysOpen (pid : Pid) (a : PathArg) (create : Bool) : KernelM Unit := do
  let path ← resolved a
  let f ← vfsOpen path create
  installOpened pid f

def sysClose (pid : Pid) (fd : Int) : KernelM Unit := do
  syscallGetFdTable pid
  fdClose pid fd

def sysMkdir (a : PathArg) : KernelM Unit := do
  let path ← resolved a
  let root ← Eff.read fun k => .ok k.root
  tree.zoom (vfsMkdir root path)

inductive RemoveCall where
  | rmdir
  | unlink

/-- The type of the target that the call refuses, and how. -/
def RemoveCall.refuses : RemoveCall → VnodeType → Option Errno
  | .rmdir, type => if type ≠ .dir then some .notDirectory else none
  | .unlink, type => if type = .dir then some .isDirectory else none

def removePath (call : RemoveCall) (root : Nat) (path : List UInt8) : TreeM Unit := do
  let target ← vfsLookup root path
  let t ← vnodes.load target
  match call.refuses t.type with
  | some e => Ramfs.failWith e
  | none => vfsUnlink root path

/-- `SYS_rmdir` and `SYS_unlink`. -/
def sysRemove (call : RemoveCall) (a : PathArg) : KernelM Unit := do
  let path ← resolved a
  let root ← Eff.read fun k => .ok k.root
  tree.zoom (removePath call root path)

def closeIfUsed (i : Pid × Fin fdMax) : KernelM Unit := do
  let e ← getEntry i
  if e.used then fdCloseAt i else pure ()

def closeAll (pid : Pid) : List (Fin fdMax) → KernelM Unit
  | [] => pure ()
  | fd :: rest => do
    closeIfUsed (pid, fd)
    closeAll pid rest

def markTableUnused (pid : Pid) : KernelM Unit :=
  Eff.modify fun k => { k with tablesUsed := update k.tablesUsed pid false }

/-- The descriptors of a child that `SYS_waitpid` reaps. -/
def reapFds (child : Pid) : KernelM Unit := do
  closeAll child (List.finRange fdMax)
  markTableUnused child

def sysWaitpid (ready : Bool) (child : Pid) : KernelM Unit := do
  let used ← Eff.read fun k => .ok (k.tablesUsed child)
  if ready = true ∧ 0 < child.val ∧ used = true then reapFds child else pure ()

inductive FdRequest where
  | openPath (a : PathArg) (create : Bool)
  | close (fd : Int)
  | mkdir (a : PathArg)
  | remove (call : RemoveCall) (a : PathArg)
  | waitpid (ready : Bool) (child : Pid)
  | dup (oldfd : Int)
  | dup2 (oldfd newfd : Int)

def FdRequest.run (pid : Pid) : FdRequest → KernelM Unit
  | .openPath a create => sysOpen pid a create
  | .close fd => sysClose pid fd
  | .mkdir a => sysMkdir a
  | .remove call a => sysRemove call a
  | .waitpid ready child => sysWaitpid ready child
  | .dup oldfd => do
    syscallGetFdTable pid
    fdDup pid oldfd
  | .dup2 oldfd newfd => do
    syscallGetFdTable pid
    fdDup2 pid oldfd newfd

def fdStep (r : Pid × FdRequest) (k : Kernel) : Kernel := (r.2.run r.1 k).2

def booted (t : Tree) (root : Nat) : Kernel :=
  ⟨t, root, Heap.empty, fun _ => ⟨0, false⟩, fun _ => false⟩

end CfKernel.Fd
