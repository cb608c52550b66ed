import CfKernel.Lib.Bytes
import CfKernel.Lib.LinkStore

/-!
# Ports, messages and the service registry

Messages hang on the inbox of their port, services on the registry, all in intrusive lists of heap
objects. A call that allocates is given what `calloc` returns. A loop along a list is bounded by the
number of addresses.
-/

namespace CfKernel.Ipc

open Lib Lib.Eff Function

structure Message where
  id : Nat
  src : Nat
  type : Nat
  flags : Nat
  len : Nat
  data : Bytes

structure Port where
  id : Nat
  name : List UInt8
  pending : Nat

structure Service where
  name : List UInt8
  port : Nat

inductive LinkRef where
  | registry
  | service (a : Nat)
  | inbox (p : Nat)
  | message (a : Nat)
  deriving DecidableEq

/-- The state of `ipc.c` with its part of the heap; address 0 is `NULL`. -/
structure IpcState where
  links : Links LinkRef
  messages : Nat → Option Message
  ports : Nat → Option Port
  services : Nat → Option Service
  nextPortId : Nat
  nextMsgId : Nat

inductive IpcError where
  | einval
  | enomem
  | eagain
  | e2big
  | enoent
  | eexist
  deriving DecidableEq

abbrev IpcM := Eff (Trap IpcError) IpcState

def IpcState.valid (s : IpcState) : LinkRef → Bool
  | .registry => true
  | .service a => (s.services a).isSome
  | .inbox p => (s.ports p).isSome
  | .message a => (s.messages a).isSome

def lists : LinkStore IpcState LinkRef where
  links := ⟨IpcState.links, fun l s => { s with links := l }⟩
  valid := IpcState.valid

section Memory

variable {α : Type}

def load (cells : IpcState → Nat → Option α) (a : Nat) : IpcM α :=
  Eff.read fun s => (cells s a).elim (.error .fault) .ok

def setMessage (a : Nat) (m : Option Message) : IpcM Unit :=
  modify fun s => { s with messages := update s.messages a m }

def setService (a : Nat) (x : Option Service) : IpcM Unit :=
  modify fun s => { s with services := update s.services a x }

def setPort (p : Nat) (x : Option Port) : IpcM Unit :=
  modify fun s => { s with ports := update s.ports p x }

def editPort (p : Nat) (f : Port → Port) : IpcM Unit := do
  let x ← load IpcState.ports p
  setPort p (some (f x))

def freeMessage (a : Nat) : IpcM Unit := do
  let _ ← load IpcState.messages a
  setMessage a none

def freeService (a : Nat) : IpcM Unit := do
  let _ ← load IpcState.services a
  setService a none

def freePort (p : Nat) : IpcM Unit := do
  let _ ← load IpcState.ports p
  setPort p none

/-- `LinkData` on the inboxes and on the registry. -/
def messageOf : LinkRef → IpcM Nat
  | .message a => pure a
  | _ => fail .fault

def serviceOf : LinkRef → IpcM Nat
  | .service a => pure a
  | _ => fail .fault

def turns : Nat := 2 ^ 32

end Memory

section Messages

def ipcMaxData : Nat := 256

def freeQueueLoop (p : Nat) : Nat → IpcM Unit
  | 0 => fail .fault
  | n + 1 => do
    let empty ← lists.listIsEmpty (.inbox p)
    if empty then pure () else do
      let node ← lists.next (.inbox p)
      let node ← lists.deref node
      lists.linkRemove node
      let a ← messageOf node
      freeMessage a
      freeQueueLoop p n

def ipcFreeQueue (p : Nat) : IpcM Unit := do
  freeQueueLoop p turns
  editPort p fun x => { x with pending := 0 }

def nextPortId : IpcM Nat := fun s =>
  (.ok s.nextPortId, { s with nextPortId := u32 (s.nextPortId + 1) })

def nextMsgId : IpcM Nat := fun s =>
  (.ok s.nextMsgId, { s with nextMsgId := u32 (s.nextMsgId + 1) })

def ipcPortCreate (calloc : Option Nat) : IpcM Nat :=
  match calloc with
  | none => pure 0
  | some p => do
    let id ← nextPortId
    setPort p (some ⟨id, [], 0⟩)
    lists.linkInit (.inbox p)
    pure p

/-- The zeroed data of a new message with the caller's bytes copied in. -/
def messageData (data : Option Bytes) (len : Nat) : Bytes :=
  if 0 < len then splice (fun _ => 0) 0 len (data.getD fun _ => 0) else fun _ => 0

def ipcSend (dst src type : Nat) (data : Option Bytes) (len : Nat) (calloc : Option Nat) :
    IpcM Unit :=
  if dst = 0 ∨ data.isNone ∧ len ≠ 0 then fail (.code .einval)
  else if ipcMaxData < len then fail (.code .e2big)
  else match calloc with
  | none => fail (.code .enomem)
  | some a => do
    let id ← nextMsgId
    setMessage a (some ⟨id, src, type, 0, len, messageData data len⟩)
    lists.linkBefore (.inbox dst) (.message a)
    editPort dst fun x => { x with pending := u32 (x.pending + 1) }

/-- The caller's buffer filled from a message: bytes past the length stay. -/
def Message.copyTo (m out : Message) : Message :=
  { m with data := if 0 < m.len then splice out.data 0 m.len m.data else out.data }

def ipcRecv (p : Nat) (out : Option Message) : IpcM Message :=
  match out with
  | none => fail (.code .einval)
  | some out =>
    if p = 0 then fail (.code .einval) else do
      let empty ← lists.listIsEmpty (.inbox p)
      if empty then fail (.code .eagain) else do
        let node ← lists.next (.inbox p)
        let node ← lists.deref node
        lists.linkRemove node
        let a ← messageOf node
        editPort p fun x => { x with pending := u32 (x.pending + 2 ^ 32 - 1) }
        let m ← load IpcState.messages a
        freeMessage a
        pure (m.copyTo out)

def ipcPending (p : Nat) : IpcM Nat :=
  if p = 0 then pure 0 else do
    let x ← load IpcState.ports p
    pure x.pending

end Messages

section Services

def ipcNameMax : Nat := 32

/-- `ipc_copy_name`: as many bytes of the string as fit with the terminator. -/
def ipcCopyName (src : List UInt8) : List UInt8 := src.take (ipcNameMax - 1)

def findServiceLoop (name : List UInt8) : Nat → LinkRef → IpcM Nat
  | 0, _ => fail .fault
  | n + 1, it =>
    if it = .registry then pure 0 else do
      let a ← serviceOf it
      let x ← load IpcState.services a
      if x.name = name then pure a else do
        let next ← lists.next it
        let next ← lists.deref next
        findServiceLoop name n next

/-- The address of the service, 0 if there is none. -/
def ipcFindService (name : Option (List UInt8)) : IpcM Nat :=
  match name with
  | none => pure 0
  | some name => do
    let it ← lists.next .registry
    let it ← lists.deref it
    findServiceLoop name turns it

def ipcRegisterService (name : Option (List UInt8)) (p : Nat) (calloc : Option Nat) : IpcM Unit :=
  match name with
  | none => fail (.code .einval)
  | some n =>
    if p = 0 then fail (.code .einval) else do
      let found ← ipcFindService name
      if found ≠ 0 then fail (.code .eexist)
      else match calloc with
      | none => fail (.code .enomem)
      | some a => do
        setService a (some ⟨ipcCopyName n, p⟩)
        editPort p fun x => { x with name := ipcCopyName n }
        lists.linkBefore .registry (.service a)

def ipcUnregisterService (name : Option (List UInt8)) : IpcM Unit := do
  let a ← ipcFindService name
  if a = 0 then fail (.code .enoent) else do
    lists.linkRemove (.service a)
    freeService a

/-- The body of the loop of `ipc_unregister_port`. -/
def dropService (p a : Nat) : IpcM Unit := do
  let x ← load IpcState.services a
  if x.port = p then do
    lists.linkRemove (.service a)
    freeService a
  else pure ()

def unregisterPortLoop (p : Nat) : Nat → LinkRef → IpcM Unit
  | 0, _ => fail .fault
  | n + 1, it =>
    if it = .registry then pure () else do
      let next ← lists.next it
      let next ← lists.deref next
      let a ← serviceOf it
      dropService p a
      unregisterPortLoop p n next

def ipcUnregisterPort (p : Nat) : IpcM Unit :=
  if p = 0 then fail (.code .einval) else do
    let it ← lists.next .registry
    let it ← lists.deref it
    unregisterPortLoop p turns it

def ipcLookupService (name : Option (List UInt8)) : IpcM Nat := do
  let a ← ipcFindService name
  if a = 0 then pure 0 else do
    let x ← load IpcState.services a
    pure x.port

def ipcPortDestroy (p : Nat) : IpcM Unit :=
  if p = 0 then pure () else do
    ipcUnregisterPort p
    ipcFreeQueue p
    freePort p

/-- The state after `ipc_init`: an empty registry and no port. -/
def ipcInit : IpcState where
  links := (⟨fun _ => none, fun _ => none⟩ : Links LinkRef).alone .registry
  messages _ := none
  ports _ := none
  services _ := none
  nextPortId := 1
  nextMsgId := 1

end Services

end CfKernel.Ipc
