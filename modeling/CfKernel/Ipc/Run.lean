import CfKernel.Ipc.Calls
import CfKernel.Lib.Run

/-!
# Sequences of calls

A run keeps what was sent and received on every port and which services are registered, as the
results of the calls tell it. `Kept` ties these records to the lists of the state, and `RegEffect`
says what one call does to the registry, in the records and in the list.
-/

namespace CfKernel.Ipc

open Lib Lib.Eff Function

/-- What a message carries: its source, its type and its first `len` bytes. -/
structure Packet where
  src : Nat
  type : Nat
  len : Nat
  bytes : List UInt8

def packetOf (src type len : Nat) (data : Bytes) : Packet :=
  ⟨src, type, len, (List.range len).map data⟩

def Message.packet (m : Message) : Packet := packetOf m.src m.type m.len m.data

inductive IpcCall where
  | create (calloc : Option Nat)
  | destroy (p : Nat)
  | send (dst src type : Nat) (data : Option Bytes) (len : Nat) (calloc : Option Nat)
  | recv (p : Nat) (out : Option Message)
  | register (name : Option (List UInt8)) (p : Nat) (calloc : Option Nat)
  | unregister (name : Option (List UInt8))
  | unregisterPort (p : Nat)

structure IpcRun where
  state : IpcState
  sent : Nat → List Packet
  received : Nat → List Packet
  services : List UInt8 → Option Nat

/-- The registered services without those of port `p`. -/
def dropPort (p : Nat) (services : List UInt8 → Option Nat) : List UInt8 → Option Nat := fun n =>
  if services n = some p then none else services n

/-- The records after a call that returned `IPC_OK`. -/
def IpcRun.record (w : IpcRun) : IpcCall → IpcState → IpcRun
  | .create _, s => { w with state := s }
  | .destroy p, s =>
    if p = 0 then { w with state := s }
    else { state := s
           sent := update w.sent p []
           received := update w.received p []
           services := dropPort p w.services }
  | .send dst src type data len _, s =>
    { w with
      state := s
      sent := update w.sent dst
        (w.sent dst ++ [packetOf src type len (data.getD fun _ => 0)]) }
  | .recv _ _, s => { w with state := s }
  | .register name p _, s =>
    { w with state := s, services := name.elim w.services fun n =>
        update w.services n (some p) }
  | .unregister name, s =>
    { w with state := s, services := name.elim w.services fun n =>
        update w.services n none }
  | .unregisterPort p, s => { w with state := s, services := dropPort p w.services }

def IpcRun.recordRecv (w : IpcRun) (p : Nat) (m : Message) (s : IpcState) : IpcRun :=
  { w with state := s, received := update w.received p (w.received p ++ [m.packet]) }

/-- A call that returns a code: the records change if it is `IPC_OK`. -/
def IpcRun.perform (w : IpcRun) (c : IpcCall) (m : IpcM Unit) : IpcRun :=
  match m w.state with
  | (.ok (), s) => w.record c s
  | (.error _, s) => { w with state := s }

def IpcRun.step (c : IpcCall) (w : IpcRun) : IpcRun :=
  match c with
  | .create calloc => { w with state := (ipcPortCreate calloc w.state).2 }
  | .destroy p => w.perform c (ipcPortDestroy p)
  | .send dst src type data len calloc => w.perform c (ipcSend dst src type data len calloc)
  | .recv p out =>
    match ipcRecv p out w.state with
    | (.ok m, s) => w.recordRecv p m s
    | (.error _, s) => { w with state := s }
  | .register name p calloc => w.perform c (ipcRegisterService name p calloc)
  | .unregister name => w.perform c (ipcUnregisterService name)
  | .unregisterPort p => w.perform c (ipcUnregisterPort p)

def IpcRun.start : IpcRun := ⟨ipcInit, fun _ => [], fun _ => [], fun _ => none⟩

/-- A caller's port: `NULL` or one that is there. -/
def PortArg (s : IpcState) (p : Nat) : Prop := p = 0 ∨ s.ports p ≠ none

/-- What `calloc` may do: fail, or return memory that nothing uses. -/
def Calloc (s : IpcState) (calloc : Option Nat) : Prop := ∀ a, calloc = some a → Fresh s a

def Allowed (c : IpcCall) (w : IpcRun) : Prop :=
  match c with
  | .create calloc => Calloc w.state calloc
  | .destroy p => PortArg w.state p
  | .send dst _ _ _ _ calloc => PortArg w.state dst ∧ Calloc w.state calloc
  | .recv p _ => PortArg w.state p
  | .register _ p calloc => PortArg w.state p ∧ Calloc w.state calloc
  | .unregister _ => True
  | .unregisterPort _ => True

structure Kept (w : IpcRun) (inbox : Nat → List (Nat × Message)) (reg : List (Nat × Service)) :
    Prop where
  sound : Sound w.state inbox reg
  counted : Counted w.state inbox
  port : ∀ p, w.state.ports p ≠ none → p ≠ 0
  log : ∀ p, w.sent p = w.received p ++ (inbox p).map fun x => x.2.packet

/-- What a call does to the registry, as recorded and as it is. -/
inductive RegEffect (c : IpcCall) (services : List UInt8 → Option Nat) (reg : List (Nat × Service)) :
    (List UInt8 → Option Nat) → List (Nat × Service) → Prop where
  | same : RegEffect c services reg services reg
  | added (n : List UInt8) (p a : Nat) (hc : c = .register (some n) p (some a)) (hp : p ≠ 0)
      (hfree : findIn n reg = 0) :
      RegEffect c services reg (update services n (some p))
        (reg ++ [(a, ⟨ipcCopyName n, p⟩)])
  | removed (n : List UInt8) (l₁ l₂ : List (Nat × Service)) (x : Nat × Service)
      (hreg : reg = l₁ ++ x :: l₂) (hname : x.2.name = n) :
      RegEffect c services reg (update services n none) (l₁ ++ l₂)
  | port (p : Nat) : RegEffect c services reg (dropPort p services) (withoutPort p reg)

section Packets

variable {m out : Message} {src type len id : Nat} {data : Option Bytes}

theorem copyTo_packet (m out : Message) : (m.copyTo out).packet = m.packet := by
  change packetOf m.src m.type m.len (m.copyTo out).data = packetOf m.src m.type m.len m.data
  refine congrArg (Packet.mk m.src m.type m.len) (List.map_congr_left fun i hi => ?_)
  rw [List.mem_range] at hi
  change (if 0 < m.len then splice out.data 0 m.len m.data else out.data) i = m.data i
  rw [if_pos (by omega), splice_inside (Nat.zero_le i) (by omega), Nat.sub_zero]

theorem send_packet (id src type len : Nat) (data : Option Bytes) :
    (⟨id, src, type, 0, len, messageData data len⟩ : Message).packet =
      packetOf src type len (data.getD fun _ => 0) := by
  refine congrArg (Packet.mk src type len) (List.map_congr_left fun i hi => ?_)
  have hlt : i < len := List.mem_range.mp hi
  change messageData data len i = _
  rw [messageData, if_pos (by omega), splice_inside (Nat.zero_le i) (by omega), Nat.sub_zero]

end Packets

section Steps

variable {w : IpcRun} {inbox : Nat → List (Nat × Message)} {reg : List (Nat × Service)}
variable {calloc : Option Nat} {p : Nat} {name : Option (List UInt8)}

theorem kept_start : Kept .start (fun _ => []) [] where
  sound :=
    { inboxRing := fun _ hp => absurd rfl hp
      registryRing := ⟨⟨rfl, rfl⟩, List.nodup_singleton _⟩
      message := fun _ _ hx => absurd hx List.not_mem_nil
      service := fun _ hx => absurd hx List.not_mem_nil
      apart := fun _ _ _ _ hx => absurd hx List.not_mem_nil
      dead := fun _ _ => rfl
      messageAddress := fun _ ha => absurd rfl ha
      serviceAddress := fun _ ha => absurd rfl ha }
  counted := by
    intro p x hx
    cases hx
  port := fun _ hp => absurd rfl hp
  log := fun _ => rfl

/-- The result of a step: the lists afterwards and what became of the registry. -/
def Steps (c : IpcCall) (w : IpcRun) (reg : List (Nat × Service)) : Prop :=
  ∃ inbox' reg', Kept (w.step c) inbox' reg' ∧
    RegEffect c w.services reg (w.step c).services reg'

theorem steps_refused {c : IpcCall} {m : IpcM Unit} {e : Trap IpcError} (hw : Kept w inbox reg)
    (hrun : m w.state = (.error e, w.state)) (hstep : w.step c = w.perform c m) :
    Steps c w reg := by
  have hsame : w.step c = w := by
    rw [hstep, IpcRun.perform, hrun]
  rw [Steps, hsame]
  exact ⟨inbox, reg, hw, .same⟩

theorem steps_create (hw : Kept w inbox reg)
    (hc : Calloc w.state calloc) : Steps (.create calloc) w reg := by
  cases calloc with
  | none => exact ⟨inbox, reg, hw, .same⟩
  | some a =>
    have ha := hc a rfl
    obtain ⟨s', x, hrun, hsound, hcount, hports⟩ := create_ok hw.sound hw.counted ha
    have hstep : w.step (.create (some a)) = { w with state := s' } := by
      rw [IpcRun.step, hrun]
    rw [Steps, hstep]
    refine ⟨inbox, reg, ⟨hsound, hcount, ?_, hw.log⟩, .same⟩
    intro p hp
    by_cases hpa : p = a
    · rw [hpa]
      exact ha.1.ne'
    · rw [hports, update_of_ne hpa] at hp
      exact hw.port p hp

theorem steps_destroy (hw : Kept w inbox reg) (hp : PortArg w.state p) :
    Steps (.destroy p) w reg := by
  by_cases hp0 : p = 0
  · have hrun : ipcPortDestroy p w.state = (.ok (), w.state) := by
      rw [ipcPortDestroy, if_pos hp0, pure_run]
    have hstep : w.step (.destroy p) = w := by
      rw [IpcRun.step, IpcRun.perform, hrun]
      exact if_pos hp0
    rw [Steps, hstep]
    exact ⟨inbox, reg, hw, .same⟩
  · have hlive := hp.resolve_left hp0
    obtain ⟨s', hrun, hsound, hcount, hports⟩ := destroy_ok hw.sound hw.counted hlive hp0
    rw [Steps, IpcRun.step, IpcRun.perform, hrun]
    dsimp only [IpcRun.record]
    rw [if_neg hp0]
    refine ⟨_, _, ⟨hsound, hcount, ?_, ?_⟩, .port p⟩
    · intro q hq
      by_cases hqp : q = p
      · rw [hqp]
        exact hp0
      · rw [hports, update_of_ne hqp] at hq
        exact hw.port q hq
    · intro q
      change update w.sent p [] q = update w.received p [] q ++ _
      by_cases hqp : q = p
      · rw [hqp, update_self, update_self, update_self]
        rfl
      · rw [update_of_ne hqp, update_of_ne hqp, update_of_ne hqp]
        exact hw.log q

theorem send_refused (s : IpcState) {p len : Nat} (src type : Nat) {data : Option Bytes}
    {calloc : Option Nat} (h : (p = 0 ∨ data.isNone ∧ len ≠ 0) ∨ ipcMaxData < len ∨ calloc = none) :
    ∃ e, ipcSend p src type data len calloc s = (.error e, s) := by
  by_cases harg : p = 0 ∨ data.isNone ∧ len ≠ 0
  · exact ⟨_, by rw [ipcSend.eq_def, if_pos harg, fail_run]⟩
  by_cases hlen : ipcMaxData < len
  · exact ⟨_, by rw [ipcSend.eq_def, if_neg harg, if_pos hlen, fail_run]⟩
  · rw [(h.resolve_left harg).resolve_left hlen]
    exact ⟨_, by rw [ipcSend, if_neg harg, if_neg hlen, fail_run]⟩

theorem steps_send {src type len : Nat} {data : Option Bytes}
    (hw : Kept w inbox reg) (hp : PortArg w.state p) (hc : Calloc w.state calloc) :
    Steps (.send p src type data len calloc) w reg := by
  by_cases href : (p = 0 ∨ data.isNone ∧ len ≠ 0) ∨ ipcMaxData < len ∨ calloc = none
  · obtain ⟨e, hrun⟩ := send_refused w.state src type href
    exact steps_refused hw hrun rfl
  obtain ⟨harg, hrest⟩ := not_or.mp href
  obtain ⟨hlen, hsome⟩ := not_or.mp hrest
  obtain ⟨a, rfl⟩ := Option.ne_none_iff_exists'.mp hsome
  have hlive := hp.resolve_left fun h => harg (.inl h)
  obtain ⟨s', m, hrun, hsound, hcount, hnone, id, hm⟩ :=
    send_ok hw.sound hw.counted hlive harg hlen (hc a rfl)
  rw [Steps, IpcRun.step, IpcRun.perform, hrun]
  refine ⟨_, reg, ⟨hsound, hcount, ?_, ?_⟩, .same⟩
  · exact fun q hq => hw.port q fun hn => hq ((hnone q).mpr hn)
  · intro q
    change update w.sent p _ q = w.received q ++ _
    by_cases hqp : q = p
    · rw [hqp, update_self, update_self, hw.log p, List.map_append,
        List.append_assoc, List.map_singleton, hm, send_packet]
    · rw [update_of_ne hqp, update_of_ne hqp]
      exact hw.log q

theorem steps_recv {out : Option Message} (hw : Kept w inbox reg)
    (hp : PortArg w.state p) : Steps (.recv p out) w reg := by
  have hfail : (∃ e, ipcRecv p out w.state = (.error e, w.state)) → Steps (.recv p out) w reg := by
    rintro ⟨e, hrun⟩
    have hstep : w.step (.recv p out) = w := by
      rw [IpcRun.step, hrun]
    rw [Steps, hstep]
    exact ⟨inbox, reg, hw, .same⟩
  cases out with
  | none => exact hfail ⟨_, rfl⟩
  | some out =>
    by_cases hp0 : p = 0
    · exact hfail ⟨_, by rw [ipcRecv, if_pos hp0, fail_run]⟩
    have hlive := hp.resolve_left hp0
    cases hl : inbox p with
    | nil => exact hfail ⟨_, recv_empty hw.sound hlive hp0 hl out⟩
    | cons x l =>
      obtain ⟨s', hrun, hsound, hcount, hnone⟩ := recv_ok hw.sound hw.counted hlive hp0 hl out
      have hstep : w.step (.recv p (some out)) = w.recordRecv p (x.2.copyTo out) s' := by
        rw [IpcRun.step, hrun]
      rw [Steps, hstep]
      refine ⟨_, reg, ⟨hsound, hcount, ?_, ?_⟩, .same⟩
      · exact fun q hq => hw.port q fun hn => hq ((hnone q).mpr hn)
      · intro q
        change w.sent q = update w.received p _ q ++ _
        by_cases hqp : q = p
        · rw [hqp, update_self, update_self, hw.log p, hl, copyTo_packet,
            List.map_cons, List.append_assoc, List.singleton_append]
        · rw [update_of_ne hqp, update_of_ne hqp]
          exact hw.log q

theorem steps_register
    (hw : Kept w inbox reg) (hp : PortArg w.state p) (hc : Calloc w.state calloc) :
    Steps (.register name p calloc) w reg := by
  cases name with
  | none => exact steps_refused (m := ipcRegisterService none p calloc) hw rfl rfl
  | some n =>
    by_cases hp0 : p = 0
    · have hrun : ipcRegisterService (some n) p calloc w.state = (.error (.code .einval), w.state) := by
        rw [ipcRegisterService.eq_def]
        exact congrFun (if_pos hp0) w.state
      exact steps_refused hw hrun rfl
    by_cases hfree : findIn n reg = 0
    swap
    · have hrun : ipcRegisterService (some n) p calloc w.state = (.error (.code .eexist), w.state) := by
        rw [ipcRegisterService.eq_def]
        change (if p = 0 then _ else _ : IpcM Unit) w.state = _
        rw [if_neg hp0, bind_ok (find_run hw.sound), if_pos hfree, fail_run]
      exact steps_refused hw hrun rfl
    cases calloc with
    | none =>
      have hrun : ipcRegisterService (some n) p none w.state = (.error (.code .enomem), w.state) := by
        rw [ipcRegisterService, if_neg hp0, bind_ok (find_run hw.sound), hfree,
          if_neg (not_not_intro rfl), fail_run]
      exact steps_refused hw hrun rfl
    | some a =>
      obtain ⟨s', hrun, hsound, hcount, hnone⟩ :=
        register_ok hw.sound hw.counted (hp.resolve_left hp0) hp0 hfree (hc a rfl)
      have hstep : w.step (.register (some n) p (some a)) = { w with
          state := s', services := update w.services n (some p) } := by
        rw [IpcRun.step, IpcRun.perform, hrun]
        rfl
      rw [Steps, hstep]
      refine ⟨inbox, _, ⟨hsound, hcount, ?_, hw.log⟩, .added n p a rfl hp0 hfree⟩
      exact fun q hq => hw.port q fun hn => hq ((hnone q).mpr hn)

theorem Kept.setRegistry {s' : IpcState} {services : List UInt8 → Option Nat}
    {reg' : List (Nat × Service)} (hw : Kept w inbox reg) (hsound : Sound s' inbox reg')
    (hports : s'.ports = w.state.ports) :
    Kept { w with state := s', services := services } inbox reg' where
  sound := hsound
  counted q x hx := hw.counted q x (hports ▸ hx)
  port q hq := hw.port q (hports ▸ hq)
  log := hw.log

theorem steps_unregister (hw : Kept w inbox reg) : Steps (.unregister name) w reg := by
  cases name with
  | none =>
    have hrun : ipcUnregisterService none w.state = (.error (.code .enoent), w.state) := rfl
    exact steps_refused hw hrun rfl
  | some n =>
    rcases findIn_cases hw.sound n with ⟨hfree, _⟩ | ⟨l₁, x, l₂, hreg, hfind, hx0, hname⟩
    · exact steps_refused hw (unregister_none hw.sound hfree) rfl
    · have hsound := hw.sound
      rw [hreg] at hsound hfind
      obtain ⟨s', hrun, hsound', hports, _⟩ := unregister_ok hsound hx0 hfind
      have hstep : w.step (.unregister (some n)) = { w with
          state := s', services := update w.services n none } := by
        rw [IpcRun.step, IpcRun.perform, hrun]
        rfl
      rw [Steps, hstep]
      exact ⟨inbox, _, hw.setRegistry hsound' hports, .removed n l₁ l₂ x hreg hname⟩

theorem steps_unregisterPort (hw : Kept w inbox reg) : Steps (.unregisterPort p) w reg := by
  by_cases hp0 : p = 0
  · have hrun : ipcUnregisterPort p w.state = (.error (.code .einval), w.state) := by
      rw [ipcUnregisterPort, if_pos hp0, fail_run]
    exact steps_refused hw hrun rfl
  · obtain ⟨s', hrun, hsound, hports, _⟩ := unregisterPort_run hw.sound hp0
    have hstep : w.step (.unregisterPort p) = { w with
        state := s', services := dropPort p w.services } := by
      rw [IpcRun.step, IpcRun.perform, hrun]
      rfl
    rw [Steps, hstep]
    exact ⟨inbox, _, hw.setRegistry hsound hports, .port p⟩

theorem steps_of_allowed (c : IpcCall) (hw : Kept w inbox reg) (hc : Allowed c w) :
    Steps c w reg := by
  cases c with
  | create calloc => exact steps_create hw hc
  | destroy p => exact steps_destroy hw hc
  | send dst src type data len calloc => exact steps_send hw hc.1 hc.2
  | recv p out => exact steps_recv hw hc
  | register name p calloc => exact steps_register hw hc.1 hc.2
  | unregister name => exact steps_unregister hw
  | unregisterPort p => exact steps_unregisterPort hw

end Steps

end CfKernel.Ipc
