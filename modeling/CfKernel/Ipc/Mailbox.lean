import CfKernel.Ipc.Run

/-!
# Delivery of messages

A port is a queue: what was received on it is the front part of what was sent to it, and a receive
returns the next packet. This holds in every run of calls on any set of ports.
-/

namespace CfKernel.Ipc

open Lib Lib.Eff

/-- Delivery on a port. -/
structure Delivers (w : IpcRun) (p : Nat) : Prop where
  inOrder : w.received p <+: w.sent p
  pending : ipcPending p w.state = (.ok ((w.sent p).length - (w.received p).length), w.state)
  /-- A send of at most 256 bytes for which there is memory is accepted. -/
  accepts : ∀ src type data len a, len ≤ ipcMaxData → Fresh w.state a →
    (ipcSend p src type (some data) len (some a) w.state).1 = .ok ()
  /-- A send that is not accepted changes nothing. -/
  refused : ∀ src type data len calloc, Calloc w.state calloc →
    (ipcSend p src type data len calloc w.state).1 ≠ .ok () →
      (ipcSend p src type data len calloc w.state).2 = w.state
  /-- With all messages delivered a receive changes nothing. -/
  empty : w.received p = w.sent p → ∀ out,
    ipcRecv p (some out) w.state = (.error (.code .eagain), w.state)
  /-- Otherwise it returns the next one. -/
  next : ∀ k, (w.sent p)[(w.received p).length]? = some k → ∀ out,
    ∃ m, (ipcRecv p (some out) w.state).1 = .ok m ∧ m.packet = k

variable {w : IpcRun} {inbox : Nat → List (Nat × Message)} {reg : List (Nat × Service)} {p : Nat}
variable {ok : IpcCall → IpcRun → Prop}

def onePort : IpcRun := IpcRun.start.step (.create (some 1))

theorem onePort_fresh : Calloc ipcInit (some 1) := by
  intro a ha
  cases ha
  exact ⟨by decide, by decide, rfl, rfl, rfl⟩

theorem onePort_reach (hok : ok (.create (some 1)) .start) :
    Reach IpcRun.step ok .start onePort := .step _ .start hok

end CfKernel.Ipc
