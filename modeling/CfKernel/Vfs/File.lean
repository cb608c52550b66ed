import CfKernel.Vfs.Path

/-!
# Open files

`file.c` and the file system calls over any number of open files. Each open file keeps its own
copy of the vnode that `vfs_open` got for it; an operation through the file works on that copy and
on the volume. A file also records the path it was opened on, which the code does not keep.
-/

namespace CfKernel.Vfs

open Lib Lib.Eff Fat

structure OpenFile where
  path : List UInt8
  node : FatNode
  offset : Nat

/-- The volume, and the files that were opened; a closed file leaves its place empty. -/
structure VfsState where
  fat : FatState
  files : List (Option OpenFile)

abbrev VfsM := Eff Errno VfsState

def VfsState.file (st : VfsState) (i : Nat) : Option OpenFile := st.files[i]?.join

def onFat {α : Type} (m : FatM α) : VfsM α := fun st =>
  ((m st.fat).1, { st with fat := (m st.fat).2 })

/-- Runs a vnode operation on the vnode of the open file `f` with descriptor `i`. -/
def onVnode {α : Type} (i : Nat) (f : OpenFile) (m : FatM α) : VfsM α := fun st =>
  let run := m { st.fat with node := f.node }
  (run.1, { fat := run.2, files := st.files.set i (some { f with node := run.2.node }) })

def fdGet (i : Nat) : VfsM OpenFile := fun st =>
  match st.file i with
  | some f => (.ok f, st)
  | none => (.error .badFileDescriptor, st)

def setOffset (i : Nat) (offset : Nat) : VfsM Unit :=
  Eff.modify fun st =>
    { st with files := st.files.modify i fun f => f.map fun f => { f with offset := offset } }

def vfsOpen (sb : FatSuper) (path : List UInt8) (create : Bool) : VfsM Unit := do
  let vn ← onFat (vfsOpenVnode sb path create)
  Eff.modify fun st => { st with files := st.files ++ [some { path, node := vn, offset := 0 }] }

def vfsClose (i : Nat) : VfsM Unit := do
  let _ ← fdGet i
  Eff.modify fun st => { st with files := st.files.set i none }

/-- The tests on `done` after the vnode operation; the offset moves when it succeeded. -/
def vfsTransferDone (i len : Nat) (f : OpenFile) (result : Except Errno Unit) (done : Nat) :
    VfsM Unit :=
  if len < done then Eff.fail .ioError
  else if 0xFFFFFFFF - f.offset < done then Eff.fail .invalidArgument
  else
    match result with
    | .error e => Eff.fail e
    | .ok _ => setOffset i (f.offset + done)

/-- `vfs_generic_read` and `vfs_generic_write`, which differ in the vnode operation. -/
def vfsTransfer (i len : Nat) (op : Nat → FatM Unit) : VfsM Unit := do
  let f ← fdGet i
  onFat (Eff.modify fun s => { s with out := 0 })
  let result ← Eff.attempt (onVnode i f (op f.offset))
  let done ← onFat (Eff.read fun s => .ok s.out)
  vfsTransferDone i len f result done

def vfsGenericRead (sb : FatSuper) (i len : Nat) : VfsM Unit :=
  vfsTransfer i len fun off => fatReadVn sb off len

def vfsGenericWrite (sb : FatSuper) (i : Nat) (buf : Bytes) (len : Nat) : VfsM Unit :=
  vfsTransfer i len fun off => fatWriteVn sb buf off len

def vfsGenericSeek (i off : Nat) : VfsM Unit := do
  let _ ← fdGet i
  setOffset i (u32 off)

/-- `SYS_ftruncate`; `length` is the register, a negative `int` from `0x80000000` on. -/
def sysFtruncate (sb : FatSuper) (i length : Nat) : VfsM Unit := do
  let f ← fdGet i
  if 0x7FFFFFFF < length then Eff.fail .invalidArgument
  else onVnode i f (fatTruncateVn sb length)

inductive FileRequest where
  | openFile (path : List UInt8) (create : Bool)
  | read (i len : Nat)
  | write (i : Nat) (buf : Bytes) (len : Nat)
  | seek (i off : Nat)
  | ftruncate (i length : Nat)
  | close (i : Nat)
  | unlink (path : List UInt8)

def FileRequest.exec (sb : FatSuper) : FileRequest → VfsM Unit
  | .openFile path create => vfsOpen sb path create
  | .read i len => vfsGenericRead sb i len
  | .write i buf len => vfsGenericWrite sb i buf len
  | .seek i off => vfsGenericSeek i off
  | .ftruncate i length => sysFtruncate sb i length
  | .close i => vfsClose i
  | .unlink path => onFat (vfsUnlink sb path)

def FileRequest.step (sb : FatSuper) (r : FileRequest) (st : VfsState) : VfsState :=
  (r.exec sb st).2

/-- No other open file is about the entry of the vnode. -/
def Alone (st : VfsState) (i : Nat) (f : OpenFile) : Prop :=
  ∀ j g, st.file j = some g → j ≠ i → vnodeSlot g.node ≠ vnodeSlot f.node

/-- The requests after which every open file still agrees with the volume: no path goes through
`.` or `..`; an open creates only where `CreateSafe` holds; a file is resized only through its one
open vnode; and an entry is unlinked only when no file is open on it. -/
def StepSafe (sb : FatSuper) (r : FileRequest) (st : VfsState) : Prop :=
  match r with
  | .openFile path create =>
    NoDots path ∧ (create = true → CreateSafe sb st.fat.disk path)
  | .write i _ len => ∀ f, st.file i = some f →
      len = 0 ∨ f.offset + len ≤ f.node.size ∨ Alone st i f
  | .ftruncate i _ => ∀ f, st.file i = some f → Alone st i f
  | .unlink path => NoDots path ∧ ∀ j g a, st.file j = some g →
      sb.Finds st.fat.disk (fatRootNode sb) (components path) a → vnodeSlot g.node ≠ some a
  | .read _ _ => True
  | .seek _ _ => True
  | .close _ => True

/-- A chain that is reached from a live entry or from an open vnode. -/
inductive Reached (sb : FatSuper) (st : VfsState) : Option Nat → List Nat → Prop where
  | entry {o : Option Nat} {c : Nat} {l : List Nat} : sb.Holder st.fat.disk o c →
      sb.Chain st.fat.disk c l → Reached sb st o l
  | vnode {i : Nat} {f : OpenFile} {l : List Nat} : st.file i = some f →
      sb.Chain st.fat.disk f.node.firstCluster l → Reached sb st (vnodeSlot f.node) l

/-- Open files on one path agree, and chains of different entries have no cluster in common. -/
structure Coherent (sb : FatSuper) (st : VfsState) : Prop where
  size : ∀ i j f g, st.file i = some f → st.file j = some g →
    components f.path = components g.path → f.node.size = g.node.size
  contents : ∀ i j f g, st.file i = some f → st.file j = some g →
    components f.path = components g.path → f.node.isDir = false →
    ∃ c, sb.Observes st.fat.disk f.node c ∧ sb.Observes st.fat.disk g.node c
  chained : ∀ i f, st.file i = some f → ∃ l, sb.Chain st.fat.disk f.node.firstCluster l
  apart : ∀ o o' l m, Reached sb st o l → Reached sb st o' m → o ≠ o' → ∀ x ∈ l, x ∉ m

end CfKernel.Vfs
