import CfKernel.Fat.Dir
import CfKernel.Lib.Heap

/-!
# The nodes of a ramfs

`ramfs.c`, `dir.c` and the vnodes of `vnode.c` on a mounted ramfs. Nodes and vnodes are objects
with addresses, and `NULL` is the address zero: a directory holds the address of its first child,
each child that of the next one, and a node and its vnode hold the addresses of each other. The
state carries the outcomes of the allocations to come. The loops over siblings have as many turns
as addresses have been handed out; a list that did not end within them would run in a circle.
-/

namespace CfKernel.Ramfs

open Lib Fat

/-- `struct ramfs_node` without the contents of a file. -/
structure RamfsNode where
  name : List UInt8
  type : VnodeType
  vnodeCache : Nat
  parent : Nat
  sibling : Nat
  children : Nat
  deriving DecidableEq

structure Vnode where
  type : VnodeType
  refcnt : Nat
  fsData : Nat
  deriving DecidableEq

structure Tree where
  nodes : Heap RamfsNode
  vnodes : Heap Vnode
  root : Nat
  alloc : Nat → Bool

abbrev TreeM := Eff (Trap Errno) Tree

def nodes : Field Tree (Heap RamfsNode) := ⟨Tree.nodes, fun h s => { s with nodes := h }⟩

def vnodes : Field Tree (Heap Vnode) := ⟨Tree.vnodes, fun h s => { s with vnodes := h }⟩

def failWith {α : Type} (e : Errno) : TreeM α := Eff.fail (.code e)

def allocate : TreeM Bool := fun s =>
  (.ok (s.alloc 0), { s with alloc := fun n => s.alloc (n + 1) })

def vnodeCreate (type : VnodeType) (fsData : Nat) : TreeM Nat := do
  if ← allocate then vnodes.new ⟨type, 1, fsData⟩ else pure 0

/-- The node and its name are two allocations. -/
def ramfsNodeCreate (name : List UInt8) (type : VnodeType) : TreeM Nat := do
  if ← allocate then
    if ← allocate then nodes.new ⟨name, type, 0, 0, 0, 0⟩ else pure 0
  else pure 0

def ramfsNodeVnode (node : Nat) : TreeM Nat := do
  let n ← nodes.load node
  if n.vnodeCache = 0 then do
    let vn ← vnodeCreate n.type node
    nodes.store node fun n => { n with vnodeCache := vn }
    pure vn
  else pure n.vnodeCache

def ramfsNodeFree (node : Nat) : TreeM Unit := nodes.release node

def clearCache (node vn : Nat) : TreeM Unit := do
  let n ← nodes.load node
  if n.vnodeCache = vn then nodes.store node fun n => { n with vnodeCache := 0 } else pure ()

def ramfsDestroyVnode (vn : Nat) : TreeM Unit := do
  let v ← vnodes.load vn
  if v.fsData = 0 then pure ()
  else do
    clearCache v.fsData vn
    vnodes.store vn fun v => { v with fsData := 0 }
    ramfsNodeFree v.fsData

def vnodeRef (vn : Nat) : TreeM Unit := vnodes.store vn fun v => { v with refcnt := v.refcnt + 1 }

def vnodeUnref (vn : Nat) : TreeM Unit := do
  let v ← vnodes.load vn
  if v.refcnt = 0 then pure ()
  else do
    vnodes.store vn fun v => { v with refcnt := v.refcnt - 1 }
    if v.refcnt - 1 = 0 then do
      ramfsDestroyVnode vn
      vnodes.release vn
    else pure ()

def ramfsNodeRelease (node : Nat) : TreeM Unit := do
  let n ← nodes.load node
  if n.vnodeCache = 0 then ramfsNodeFree node
  else do
    nodes.store node fun n => { n with vnodeCache := 0 }
    vnodeUnref n.vnodeCache

def turns : TreeM Nat := Eff.read fun s => .ok s.nodes.next

def findChildFrom (name : List UInt8) : Nat → Nat → TreeM Nat
  | 0, _ => Eff.fail .fault
  | n + 1, child =>
    if child = 0 then pure 0
    else do
      let c ← nodes.load child
      if c.name = name then pure child else findChildFrom name n c.sibling

def ramfsFindChild (dir : Nat) (name : List UInt8) : TreeM Nat := do
  let d ← nodes.load dir
  let n ← turns
  findChildFrom name n d.children

def dot : List UInt8 := [0x2E]

def dotdot : List UInt8 := [0x2E, 0x2E]

/-- `return *out ? ERR_SUCCESS : ERR_OUT_OF_MEMORY`. -/
def orOutOfMemory (vn : Nat) : TreeM Nat := if vn = 0 then failWith .outOfMemory else pure vn

def parentOrSelf (node parent : Nat) : Nat := if parent = 0 then node else parent

def ramfsLookupParent (node : Nat) : TreeM Nat := do
  let n ← nodes.load node
  let vn ← ramfsNodeVnode (parentOrSelf node n.parent)
  orOutOfMemory vn

def ramfsLookupChild (node : Nat) (name : List UInt8) : TreeM Nat := do
  let child ← ramfsFindChild node name
  if child = 0 then failWith .notFound
  else do
    let vn ← ramfsNodeVnode child
    orOutOfMemory vn

def ramfsLookupVn (dir : Nat) (name : List UInt8) : TreeM Nat := do
  let d ← vnodes.load dir
  if d.type ≠ .dir then failWith .notDirectory
  else if d.fsData = 0 then failWith .invalidArgument
  else if name = dot then pure dir
  else if name = dotdot then ramfsLookupParent d.fsData
  else ramfsLookupChild d.fsData name

/-- The names `ramfs_create_vn` takes. -/
def ValidName (name : List UInt8) : Prop :=
  name ≠ [] ∧ 0x2F ∉ name ∧ name ≠ dot ∧ name ≠ dotdot

instance : DecidablePred ValidName := fun _ => inferInstanceAs (Decidable (_ ∧ _))

def Creatable (type : VnodeType) : Prop :=
  type = .file ∨ type = .dir ∨ type = .dev ∨ type = .exec

instance : DecidablePred Creatable := fun _ => inferInstanceAs (Decidable (_ ∨ _))

/-- The new child goes to the front of its directory's list. -/
def linkChild (parent child : Nat) : TreeM Unit := do
  let p ← nodes.load parent
  nodes.store child fun c => { c with sibling := p.children }
  nodes.store parent fun p => { p with children := child }

/-- `ramfs_create_vn` with the node it made. -/
def attachChild (parent child : Nat) : TreeM Nat := do
  nodes.store child fun c => { c with parent := parent }
  let vn ← ramfsNodeVnode child
  if vn = 0 then do
    nodes.store child fun c => { c with parent := 0 }
    ramfsNodeRelease child
    failWith .outOfMemory
  else do
    linkChild parent child
    pure vn

def createChild (parent : Nat) (name : List UInt8) (type : VnodeType) : TreeM Nat := do
  let found ← ramfsFindChild parent name
  if found ≠ 0 then failWith .alreadyExists
  else do
    let child ← ramfsNodeCreate name type
    if child = 0 then failWith .outOfMemory else attachChild parent child

def ramfsCreateVn (dir : Nat) (name : List UInt8) (type : VnodeType) : TreeM Nat := do
  let d ← vnodes.load dir
  if d.type ≠ .dir then failWith .notDirectory
  else if ¬ ValidName name then failWith .invalidArgument
  else if ¬ Creatable type then failWith .notSupported
  else if d.fsData = 0 then failWith .invalidArgument
  else createChild d.fsData name type

/-- `struct ramfs_node **link`: the field of a node that holds the address of a child. -/
inductive Link where
  | children (node : Nat)
  | sibling (node : Nat)

def Link.load : Link → TreeM Nat
  | .children p => do pure (← nodes.load p).children
  | .sibling p => do pure (← nodes.load p).sibling

def Link.store (child : Nat) : Link → TreeM Unit
  | .children p => nodes.store p fun n => { n with children := child }
  | .sibling p => nodes.store p fun n => { n with sibling := child }

def removeChild (link : Link) (child : Nat) (c : RamfsNode) : TreeM Unit :=
  if c.type = .dir ∧ c.children ≠ 0 then failWith .directoryNotEmpty
  else do
    link.store c.sibling
    nodes.store child fun c => { c with parent := 0, sibling := 0 }
    ramfsNodeRelease child

def unlinkFrom (name : List UInt8) : Nat → Link → TreeM Unit
  | 0, _ => Eff.fail .fault
  | n + 1, link => do
    let child ← link.load
    if child = 0 then failWith .notFound
    else do
      let c ← nodes.load child
      if c.name = name then removeChild link child c else unlinkFrom name n (.sibling child)

def ramfsUnlinkVn (dir : Nat) (name : List UInt8) : TreeM Unit := do
  let d ← vnodes.load dir
  if d.type ≠ .dir then failWith .notDirectory
  else if name = [] ∨ name = dot ∨ name = dotdot then failWith .invalidArgument
  else if d.fsData = 0 then failWith .invalidArgument
  else do
    let n ← turns
    unlinkFrom name n (.children d.fsData)

def readdirFrom (index : Nat) : Nat → Nat → Nat → TreeM (List UInt8 × VnodeType)
  | 0, _, _ => Eff.fail .fault
  | n + 1, current, child =>
    if child = 0 then failWith .notFound
    else do
      let c ← nodes.load child
      if current ≠ index then readdirFrom index n (current + 1) c.sibling
      else pure (c.name, c.type)

def ramfsReaddirVn (vn index : Nat) : TreeM (List UInt8 × VnodeType) := do
  let v ← vnodes.load vn
  if v.type ≠ .dir then failWith .notDirectory
  else if v.fsData = 0 then failWith .invalidArgument
  else do
    let d ← nodes.load v.fsData
    let n ← turns
    readdirFrom index n 0 d.children

/-- `ramfs_mount_fn`; the mount itself is one more allocation. -/
def ramfsMountFn : TreeM Unit := do
  if ← allocate then do
    let root ← ramfsNodeCreate [] .dir
    if root = 0 then failWith .outOfMemory else Eff.modify fun s => { s with root := root }
  else failWith .outOfMemory

def ramfsRootVnode : TreeM Nat := do
  let root ← Eff.read fun s => .ok s.root
  if root = 0 then failWith .invalidArgument
  else do
    let vn ← ramfsNodeVnode root
    orOutOfMemory vn

/-- The parts of `mount_do_mount` that make the root of the new ramfs. -/
def mountRamfs : TreeM Nat := do
  ramfsMountFn
  ramfsRootVnode

def unmounted (alloc : Nat → Bool) : Tree := ⟨Heap.empty, Heap.empty, 0, alloc⟩

end CfKernel.Ramfs
