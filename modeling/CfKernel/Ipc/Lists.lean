import CfKernel.Ipc.Port

/-!
# The inboxes and the registry as lists

`Sound s inbox reg` reads the rings of a state: `inbox p` are the messages of port `p` and `reg` the
services, each with its address. Every function then is what it does to one of these lists, and
`Sound.setInbox` and `Sound.setRegistry` say once what a change of one of them leaves alone.
-/

namespace CfKernel.Ipc

open Lib Lib.Eff Function

def messageNodes (l : List (Nat × Message)) : List LinkRef := l.map fun x => .message x.1

def serviceNodes (l : List (Nat × Service)) : List LinkRef := l.map fun x => .service x.1

structure Sound (s : IpcState) (inbox : Nat → List (Nat × Message)) (reg : List (Nat × Service)) :
    Prop where
  inboxRing : ∀ p, s.ports p ≠ none → s.links.Ring (.inbox p) (messageNodes (inbox p))
  registryRing : s.links.Ring .registry (serviceNodes reg)
  message : ∀ p, ∀ x ∈ inbox p, s.messages x.1 = some x.2
  service : ∀ x ∈ reg, s.services x.1 = some x.2
  apart : ∀ p q, p ≠ q → ∀ x ∈ inbox p, ∀ y ∈ inbox q, x.1 ≠ y.1
  dead : ∀ p, s.ports p = none → inbox p = []
  messageAddress : ∀ a, s.messages a ≠ none → 0 < a ∧ a < 2 ^ 32
  serviceAddress : ∀ a, s.services a ≠ none → 0 < a ∧ a < 2 ^ 32

/-- The counter of every port is the length of its inbox. -/
def Counted (s : IpcState) (inbox : Nat → List (Nat × Message)) : Prop :=
  ∀ p x, s.ports p = some x → x.pending = (inbox p).length

variable {s s' : IpcState} {inbox : Nat → List (Nat × Message)} {reg reg' : List (Nat × Service)}
variable {p a : Nat} {l : List (Nat × Message)} {k : List LinkRef} {L : Links LinkRef}

section Nodes

theorem mem_messageNodes {y : LinkRef} : y ∈ messageNodes l ↔ ∃ x ∈ l, y = .message x.1 := by
  simp only [messageNodes, List.mem_map, eq_comm]

theorem mem_serviceNodes {y : LinkRef} : y ∈ serviceNodes reg ↔ ∃ x ∈ reg, y = .service x.1 := by
  simp only [serviceNodes, List.mem_map, eq_comm]

theorem length_lt_of_nodup {α : Type} {f : Nat → LinkRef} {l : List (Nat × α)}
    (hnodup : (l.map fun x => f x.1).Nodup) (haddr : ∀ x ∈ l, 0 < x.1 ∧ x.1 < 2 ^ 32) :
    l.length < 2 ^ 32 := by
  rw [← comp_def f Prod.fst, ← List.map_map] at hnodup
  rw [← List.length_map (f := Prod.fst)]
  exact Links.addresses_lt (by decide) hnodup.of_map (List.forall_mem_map.mpr haddr)

section

variable (h : Sound s inbox reg)
include h

theorem Sound.inbox_lt (hp : s.ports p ≠ none) : (inbox p).length < 2 ^ 32 :=
  length_lt_of_nodup (List.nodup_cons.mp (h.inboxRing p hp).nodup).2 fun x hx =>
    h.messageAddress x.1 (by simp [h.message p x hx])

theorem Sound.registry_lt : reg.length < 2 ^ 32 :=
  length_lt_of_nodup (List.nodup_cons.mp h.registryRing.nodup).2 fun x hx =>
    h.serviceAddress x.1 (by simp [h.service x hx])

theorem Sound.valid_inbox (hp : s.ports p ≠ none) :
    ∀ y ∈ LinkRef.inbox p :: messageNodes (inbox p), lists.valid s y = true := by
  intro y hy
  rcases List.mem_cons.mp hy with rfl | hy
  · exact Option.isSome_iff_ne_none.mpr hp
  · obtain ⟨x, hx, rfl⟩ := mem_messageNodes.mp hy
    change (s.messages x.1).isSome = true
    rw [h.message p x hx, Option.isSome_some]

theorem Sound.valid_registry :
    ∀ y ∈ LinkRef.registry :: serviceNodes reg, lists.valid s y = true := by
  intro y hy
  rcases List.mem_cons.mp hy with rfl | hy
  · rfl
  · obtain ⟨x, hx, rfl⟩ := mem_serviceNodes.mp hy
    change (s.services x.1).isSome = true
    rw [h.service x hx, Option.isSome_some]

end

end Nodes

section Frames

open LinkStore

/-- A node that belongs to no inbox but that of `p`. -/
def OnlyAt (inbox : Nat → List (Nat × Message)) (p : Nat) (y : LinkRef) : Prop :=
  y = .inbox p ∨ ∃ a, y = .message a ∧ ∀ q, q ≠ p → ∀ x ∈ inbox q, x.1 ≠ a

theorem Sound.onlyAt (h : Sound s inbox reg) :
    ∀ y ∈ LinkRef.inbox p :: messageNodes (inbox p), OnlyAt inbox p y := by
  intro y hy
  rcases List.mem_cons.mp hy with rfl | hy
  · exact .inl rfl
  · obtain ⟨x, hx, rfl⟩ := mem_messageNodes.mp hy
    exact .inr ⟨x.1, rfl, fun q hq y hy => h.apart q p hq y hy x hx⟩

theorem Sound.setInbox (h : Sound s inbox reg) (hring : s'.links.Ring (.inbox p) (messageNodes l))
    (hsame : SameOutside k s.links s'.links) (hks : ∀ y ∈ k, OnlyAt inbox p y)
    (hmessage : ∀ x ∈ l, s'.messages x.1 = some x.2)
    (hother : ∀ q, q ≠ p → ∀ x ∈ inbox q, s'.messages x.1 = s.messages x.1)
    (hapart : ∀ x ∈ l, ∀ q, q ≠ p → ∀ y ∈ inbox q, y.1 ≠ x.1)
    (haddress : ∀ a, s'.messages a ≠ none → 0 < a ∧ a < 2 ^ 32) (hp : s'.ports p ≠ none)
    (hports : ∀ q, q ≠ p → s'.ports q = s.ports q := by exact fun _ _ => rfl)
    (hservices : s'.services = s.services := by rfl) : Sound s' (update inbox p l) reg := by
  constructor
  case inboxRing =>
    intro q hq
    by_cases hqp : q = p
    · rw [hqp, update_self]
      exact hring
    · rw [update_of_ne hqp]
      refine hsame.ring (h.inboxRing q (hports q hqp ▸ hq)) fun y hy hyk => ?_
      rcases hks y hyk with rfl | ⟨a, rfl, ha⟩
      · rcases List.mem_cons.mp hy with he | hy
        · exact hqp (LinkRef.inbox.inj he).symm
        · obtain ⟨x, _, he⟩ := mem_messageNodes.mp hy
          cases he
      · rcases List.mem_cons.mp hy with he | hy
        · cases he
        · obtain ⟨x, hx, he⟩ := mem_messageNodes.mp hy
          exact ha q hqp x hx (LinkRef.message.inj he).symm
  case registryRing =>
    refine hsame.ring h.registryRing fun y hy hyk => ?_
    rcases List.mem_cons.mp hy with rfl | hy
    · rcases hks _ hyk with he | ⟨a, he, _⟩ <;> cases he
    · obtain ⟨x, _, rfl⟩ := mem_serviceNodes.mp hy
      rcases hks _ hyk with he | ⟨a, he, _⟩ <;> cases he
  case message =>
    intro q x hx
    by_cases hqp : q = p
    · rw [hqp, update_self] at hx
      exact hmessage x hx
    · rw [update_of_ne hqp] at hx
      rw [hother q hqp x hx, h.message q x hx]
  case service => rw [hservices]; exact h.service
  case apart =>
    intro q r hqr x hx y hy
    by_cases hqp : q = p
    · have hrp : r ≠ p := fun he => hqr (hqp.trans he.symm)
      rw [hqp, update_self] at hx
      rw [update_of_ne hrp] at hy
      exact (hapart x hx r hrp y hy).symm
    · rw [update_of_ne hqp] at hx
      by_cases hrp : r = p
      · rw [hrp, update_self] at hy
        exact hapart y hy q hqp x hx
      · rw [update_of_ne hrp] at hy
        exact h.apart q r hqr x hx y hy
  case dead =>
    intro q hq
    have hqp : q ≠ p := by
      rintro rfl
      exact hp hq
    rw [update_of_ne hqp]
    exact h.dead q (hports q hqp ▸ hq)
  case messageAddress => exact haddress
  case serviceAddress => rw [hservices]; exact h.serviceAddress

theorem Sound.setRegistry (h : Sound s inbox reg)
    (hring : s'.links.Ring .registry (serviceNodes reg')) (hsame : SameOutside k s.links s'.links)
    (hks : ∀ y ∈ k, y = .registry ∨ ∃ a, y = .service a)
    (hservice : ∀ x ∈ reg', s'.services x.1 = some x.2)
    (haddress : ∀ a, s'.services a ≠ none → 0 < a ∧ a < 2 ^ 32)
    (hports : ∀ q, s'.ports q = none ↔ s.ports q = none := by exact fun _ => Iff.rfl)
    (hmessages : s'.messages = s.messages := by rfl) : Sound s' inbox reg' := by
  constructor
  case inboxRing =>
    intro q hq
    refine hsame.ring (h.inboxRing q fun hn => hq ((hports q).mpr hn)) fun y hy hyk => ?_
    rcases List.mem_cons.mp hy with rfl | hy
    · rcases hks _ hyk with he | ⟨a, he⟩ <;> cases he
    · obtain ⟨x, _, rfl⟩ := mem_messageNodes.mp hy
      rcases hks _ hyk with he | ⟨a, he⟩ <;> cases he
  case registryRing => exact hring
  case message => rw [hmessages]; exact h.message
  case service => exact hservice
  case apart => exact h.apart
  case dead => exact fun q hq => h.dead q ((hports q).mp hq)
  case messageAddress => rw [hmessages]; exact h.messageAddress
  case serviceAddress => exact haddress

end Frames

end CfKernel.Ipc
