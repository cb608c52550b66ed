import CfKernel.Errno
import CfKernel.Lib.LinkStore

/-!
# Mounting and the root of the file system

The mounts hang on one list; the root of the VFS is a variable that a mount at `/` sets and the
unmount of a mount with that root vnode clears. What the operations of a file-system type return is
part of the call: a mount may store a root vnode, as those of FAT and ext2 do, or leave that to
`root_vnode`, as ramfs does. None of them writes it when it is unmounted.
-/

namespace CfKernel.Vfs.Mounts

open Lib Lib.Eff Function

/-- Which operations a file-system type has. -/
structure FsType where
  mountOp : Bool
  unmountOp : Bool
  rootVnodeOp : Bool
  deriving DecidableEq

structure Mount where
  type : FsType
  rootVnode : Nat
  source : List UInt8
  target : List UInt8
  deriving DecidableEq

inductive LinkRef where
  | mounts
  | mount (a : Nat)
  deriving DecidableEq

/-- `g_mounts` with the mounts in memory, and `g_root_vnode`; address 0 is `NULL`. -/
structure MountTable where
  links : Links LinkRef
  mounts : Nat → Option Mount
  root : Nat

/-- An error is a code of `mount.c` or whatever nonzero an operation of the type returned. -/
inductive MountError where
  | errno (e : Errno)
  | operation (r : Int)
  deriving DecidableEq

abbrev MountM := Eff (Trap MountError) MountTable

/-- What the allocations and operations of a mount return. -/
structure MountOutcome where
  calloc : Option Nat
  sourceCopied : Bool
  targetCopied : Bool
  mount : Int
  /-- The root vnode that the mount operation stored. -/
  mountRoot : Nat
  rootVnode : Int
  /-- The vnode that `root_vnode` returned. -/
  outRoot : Nat

def MountTable.valid (s : MountTable) : LinkRef → Bool
  | .mounts => true
  | .mount a => (s.mounts a).isSome

def lists : LinkStore MountTable LinkRef where
  links := ⟨MountTable.links, fun l s => { s with links := l }⟩
  valid := MountTable.valid

section Source

def failWith {α : Type} (e : Errno) : MountM α := fail (.code (.errno e))

def loadMount (a : Nat) : MountM Mount :=
  Eff.read fun s => (s.mounts a).elim (.error .fault) .ok

def setMount (a : Nat) (m : Option Mount) : MountM Unit :=
  modify fun s => { s with mounts := update s.mounts a m }

def editMount (a : Nat) (f : Mount → Mount) : MountM Unit := do
  let m ← loadMount a
  setMount a (some (f m))

def freeMount (a : Nat) : MountM Unit := do
  let _ ← loadMount a
  setMount a none

def getRoot : MountM Nat := Eff.read fun s => .ok s.root

def setRoot (v : Nat) : MountM Unit := modify fun s => { s with root := v }

def mountOf : LinkRef → MountM Nat
  | .mount a => pure a
  | .mounts => fail .fault

def turns : Nat := 2 ^ 32

def hasTarget (target : List UInt8) (it : LinkRef) : MountM Bool := do
  let a ← mountOf it
  let m ← loadMount a
  pure (decide (m.target = target))

/-- The loop of `find_mount_by_target`, which is also that of `mount_do_unmount`. -/
def findMountByTarget (target : List UInt8) : MountM (Option LinkRef) :=
  lists.findEntry .mounts (hasTarget target) turns

def slash : List UInt8 := [0x2F]

/-- A failed mount frees what it has allocated. -/
def abandon (a : Nat) (e : MountError) : MountM Unit := do
  freeMount a
  fail (.code e)

/-- An operation of the type that may store the root vnode, if the type has it: `r` is what it
returns and `v` the vnode. -/
def runOperation (present : Bool) (a : Nat) (r : Int) (v : Nat) : MountM Unit :=
  if present then
    if r ≠ 0 then abandon a (.operation r)
    else editMount a fun m => { m with rootVnode := v }
  else pure ()

def runMount (a : Nat) (fst : FsType) (o : MountOutcome) : MountM Unit :=
  runOperation fst.mountOp a o.mount o.mountRoot

/-- On failure the unmount operation is called, and its result is not looked at. -/
def runRootVnode (a : Nat) (fst : FsType) (o : MountOutcome) : MountM Unit :=
  runOperation fst.rootVnodeOp a o.rootVnode o.outRoot

/-- The end of `mount_do_mount`. -/
def updateRoot (target : List UInt8) (a : Nat) : MountM Unit :=
  if target = slash then do
    let root ← getRoot
    let m ← loadMount a
    if root = 0 then setRoot m.rootVnode
    else if root ≠ m.rootVnode then setRoot m.rootVnode
    else pure ()
  else pure ()

def addMount (fst : FsType) (source : Option (List UInt8)) (target : List UInt8) (a : Nat)
    (o : MountOutcome) : MountM Unit := do
  setMount a (some ⟨fst, 0, source.getD [], target⟩)
  if !o.sourceCopied || !o.targetCopied then abandon a (.errno .outOfMemory)
  else do
    lists.linkInit (.mount a)
    runMount a fst o
    runRootVnode a fst o
    lists.linkBefore .mounts (.mount a)
    updateRoot target a

def mountDoMount (fst : Option FsType) (source target : Option (List UInt8)) (o : MountOutcome) :
    MountM Unit :=
  match fst, target with
  | some fst, some target => do
    let found ← findMountByTarget target
    if found.isSome then failWith .alreadyExists
    else match o.calloc with
    | none => failWith .outOfMemory
    | some a => addMount fst source target a o
  | _, _ => failWith .invalidArgument

def clearRoot (v : Nat) : MountM Unit := do
  let root ← getRoot
  if root = v then setRoot 0 else pure ()

/-- `unmount` is what the type's operation returns. -/
def removeMount (a : Nat) (unmount : Int) : MountM Unit := do
  let m ← loadMount a
  if m.type.unmountOp ∧ unmount ≠ 0 then fail (.code (.operation unmount))
  else do
    clearRoot m.rootVnode
    lists.linkRemove (.mount a)
    freeMount a

def mountDoUnmount (target : Option (List UInt8)) (unmount : Int) : MountM Unit :=
  match target with
  | none => failWith .invalidArgument
  | some target => do
    let found ← findMountByTarget target
    match found with
    | none => failWith .notFound
    | some it => do
      let a ← mountOf it
      removeMount a unmount

/-- `mount_init`, in memory without mounts. -/
def mountInit : MountTable where
  links := (⟨fun _ => none, fun _ => none⟩ : Links LinkRef).alone .mounts
  mounts _ := none
  root := 0

end Source

section Lists

def mountNodes (l : List (Nat × Mount)) : List LinkRef := l.map fun x => .mount x.1

/-- The mounts of the list, in order, each with its address. -/
structure Listed (s : MountTable) (l : List (Nat × Mount)) : Prop where
  ring : s.links.Ring .mounts (mountNodes l)
  mount : ∀ x ∈ l, s.mounts x.1 = some x.2

variable {s s' : MountTable} {l l₁ l₂ : List (Nat × Mount)} {a : Nat} {m : Mount}
variable {x : Nat × Mount} {target : List UInt8}

theorem mem_mountNodes {y : LinkRef} : y ∈ mountNodes l ↔ ∃ x ∈ l, y = .mount x.1 := by
  simp only [mountNodes, List.mem_map, eq_comm]

theorem mountNodes_append : mountNodes (l₁ ++ l₂) = mountNodes l₁ ++ mountNodes l₂ :=
  List.map_append

theorem Listed.valid (h : Listed s l) :
    ∀ y ∈ LinkRef.mounts :: mountNodes l, lists.valid s y = true := by
  intro y hy
  rcases List.mem_cons.mp hy with rfl | hy
  · rfl
  · obtain ⟨x, hx, rfl⟩ := mem_mountNodes.mp hy
    change (s.mounts x.1).isSome = true
    rw [h.mount x hx, Option.isSome_some]

theorem Listed.nodup (h : Listed s l) : (l.map Prod.fst).Nodup := by
  have hnodup := (List.nodup_cons.mp h.ring.nodup).2
  rw [mountNodes, ← comp_def LinkRef.mount Prod.fst, ← List.map_map] at hnodup
  exact List.Nodup.of_map _ hnodup

section

variable (h : s.mounts a = some m)
include h

theorem loadMount_run : loadMount a s = (.ok m, s) := by
  simp only [loadMount, Eff.read, h, Option.elim_some]

theorem editMount_run (f : Mount → Mount) : editMount a f s =
    (.ok (), { s with mounts := update s.mounts a (some (f m)) }) := by
  rw [editMount, bind_ok (loadMount_run h)]
  rfl

theorem freeMount_run : freeMount a s = (.ok (), { s with mounts := update s.mounts a none }) := by
  rw [freeMount, bind_ok (loadMount_run h)]
  rfl

theorem hasTarget_run : hasTarget target (.mount a) s = (.ok (decide (m.target = target)), s) := by
  rw [hasTarget, mountOf, bind_ok (pure_run _ _), bind_ok (loadMount_run h), pure_run]

end

theorem Listed.congr (h : Listed s l) (ha : ∀ x ∈ l, x.1 ≠ a)
    (hlinks : LinkStore.SameOutside [.mount a] s.links s'.links)
    (hmounts : ∀ b, b ≠ a → s'.mounts b = s.mounts b) : Listed s' l := by
  refine ⟨hlinks.ring h.ring fun y hy hya => ?_, fun x hx => ?_⟩
  · rw [List.mem_singleton.mp hya] at hy
    rcases List.mem_cons.mp hy with he | hy
    · cases he
    · obtain ⟨x, hx, he⟩ := mem_mountNodes.mp hy
      exact ha x hx (LinkRef.mount.inj he).symm
  · rw [hmounts x.1 (ha x hx), h.mount x hx]

end Lists

section Search

variable {s : MountTable} {l : List (Nat × Mount)} {target : List UInt8}

def at? (l : List (Nat × Mount)) (target : List UInt8) : Option (Nat × Mount) :=
  l.find? fun x => decide (x.2.target = target)

theorem findMountByTarget_run (h : Listed s l) (hlt : l.length < turns) :
    findMountByTarget target s = (.ok ((at? l target).map fun x => .mount x.1), s) := by
  obtain ⟨P, hP⟩ : ∃ P : LinkRef → Bool, ∀ x ∈ l, P (.mount x.1) = decide (x.2.target = target) := by
    refine ⟨fun y => match y with
      | .mounts => false
      | .mount a => (s.mounts a).any fun m => decide (m.target = target), fun x hx => ?_⟩
    simp only [h.mount x hx, Option.any_some]
  have htest : ∀ y ∈ mountNodes l, hasTarget target y s = (.ok (P y), s) := by
    intro y hy
    obtain ⟨x, hx, rfl⟩ := mem_mountNodes.mp hy
    rw [hasTarget_run (h.mount x hx), hP x hx]
  have hlen : (mountNodes l).length < turns := by rwa [mountNodes, List.length_map]
  rw [findMountByTarget, lists.findEntry_run h.ring h.valid htest hlen, mountNodes, List.find?_map,
    at?]
  have hfind : l.find? (P ∘ fun x => .mount x.1) =
      l.find? fun x => decide (x.2.target = target) :=
    List.find?_congr fun x hx => hP x hx
  rw [hfind]

end Search

end CfKernel.Vfs.Mounts
