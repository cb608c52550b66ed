import CfKernel.Ipc.Lists

/-!
# What each call does to the lists

One lemma for each call and outcome: the result, and the inboxes and the registry afterwards.
-/

namespace CfKernel.Ipc

open Lib Lib.Eff Function

def Fresh (s : IpcState) (a : Nat) : Prop :=
  0 < a ∧ a < 2 ^ 32 ∧ s.messages a = none ∧ s.ports a = none ∧ s.services a = none

variable {s s' : IpcState} {inbox : Nat → List (Nat × Message)} {reg reg' : List (Nat × Service)}
variable {p a n : Nat} {m : Message} {l : List (Nat × Message)}

section Memory

variable {α : Type} {cells : IpcState → Nat → Option α} {x : α}

theorem load_run (h : cells s a = some x) : load cells a s = (.ok x, s) := by
  simp only [load, Eff.read, h, Option.elim_some]

theorem editPort_run {x : Port} (h : s.ports p = some x) (f : Port → Port) :
    editPort p f s = (.ok (), { s with ports := update s.ports p (some (f x)) }) := by
  rw [editPort, bind_ok (load_run h)]
  rfl

theorem freeMessage_run (h : s.messages a = some m) :
    freeMessage a s = (.ok (), { s with messages := update s.messages a none }) := by
  rw [freeMessage, bind_ok (load_run h)]
  rfl

theorem freeService_run {x : Service} (h : s.services a = some x) :
    freeService a s = (.ok (), { s with services := update s.services a none }) := by
  rw [freeService, bind_ok (load_run h)]
  rfl

theorem freePort_run {x : Port} (h : s.ports p = some x) :
    freePort p s = (.ok (), { s with ports := update s.ports p none }) := by
  rw [freePort, bind_ok (load_run h)]
  rfl

end Memory

theorem Sound.setPorts (h : Sound s inbox reg) {ports : Nat → Option Port}
    (hports : ∀ q, ports q = none ↔ s.ports q = none) :
    Sound { s with ports := ports } inbox reg where
  inboxRing q hq := h.inboxRing q fun hn => hq ((hports q).mpr hn)
  registryRing := h.registryRing
  message := h.message
  service := h.service
  apart := h.apart
  dead q hq := h.dead q ((hports q).mp hq)
  messageAddress := h.messageAddress
  serviceAddress := h.serviceAddress

theorem update_port_none {x y : Port} (h : s.ports p = some x) (q : Nat) :
    update s.ports p (some y) q = none ↔ s.ports q = none := by
  by_cases hq : q = p
  · rw [hq, update_self, h]
    exact ⟨fun he => absurd he (Option.some_ne_none _), fun he => absurd he (Option.some_ne_none _)⟩
  · rw [update_of_ne hq]

theorem Counted.update {x : Port} {ports : Nat → Option Port} (h : Counted s inbox)
    (hx : x.pending = l.length) (hports : ports = update s.ports p (some x)) :
    ∀ q y, ports q = some y → y.pending = (update inbox p l q).length := by
  intro q y hy
  rw [hports] at hy
  rcases update_at_iff.mp hy with ⟨rfl, ⟨⟩⟩ | ⟨hq, hy⟩
  · rwa [update_self]
  · rw [update_of_ne hq]
    exact h q y hy

theorem bounded_update {α : Type} {cells : Nat → Option α} {v : Option α} {B : Nat → Prop}
    (h : ∀ b, cells b ≠ none → B b) (hv : v ≠ none → B a) (b : Nat)
    (hb : update cells a v b ≠ none) : B b := by
  by_cases hba : b = a
  · subst hba
    rw [update_self] at hb
    exact hv hb
  · rw [update_of_ne hba] at hb
    exact h b hb

section Send

variable {src type len : Nat} {data : Option Bytes}

theorem Sound.ne_fresh (h : Sound s inbox reg) (ha : s.messages a = none) :
    ∀ q, ∀ y ∈ inbox q, y.1 ≠ a := by
  intro q y hy he
  have hsome := h.message q y hy
  rw [he, ha] at hsome
  cases hsome

theorem linkMessage_run (h : Sound s inbox reg) (hp : s.ports p ≠ none) (ha : Fresh s a) (k : Nat)
    (m : Message) :
    ∃ L, (lists.linkBefore (.inbox p) (.message a) : IpcM Unit) { s with
          nextMsgId := k, messages := update s.messages a (some m) } =
        (.ok (), { s with
          nextMsgId := k, messages := update s.messages a (some m), links := L }) ∧
      Sound { s with nextMsgId := k, messages := update s.messages a (some m), links := L }
        (update inbox p (inbox p ++ [(a, m)])) reg := by
  obtain ⟨hpos, hlt, hnone, _⟩ := ha
  have hmem := h.ne_fresh hnone
  have hkeep : ∀ q, ∀ y ∈ inbox q, update s.messages a (some m) y.1 = s.messages y.1 :=
    fun q y hy => update_of_ne (hmem q y hy) _ _
  have hout : LinkRef.message a ∉ LinkRef.inbox p :: messageNodes (inbox p) := by
    intro hin
    rcases List.mem_cons.mp hin with he | hin
    · cases he
    · obtain ⟨y, hy, he⟩ := mem_messageNodes.mp hin
      exact hmem p y hy (LinkRef.message.inj he).symm
  have hvalid : ∀ y ∈ LinkRef.message a :: LinkRef.inbox p :: messageNodes (inbox p), lists.valid
      { s with nextMsgId := k, messages := update s.messages a (some m) } y = true := by
    intro y hy
    rcases List.mem_cons.mp hy with rfl | hy
    · change (update s.messages a (some m) a).isSome = true
      rw [update_self, Option.isSome_some]
    rcases List.mem_cons.mp hy with rfl | hy
    · exact Option.isSome_iff_ne_none.mpr hp
    · obtain ⟨z, hz, rfl⟩ := mem_messageNodes.mp hy
      change (update s.messages a (some m) z.1).isSome = true
      rw [hkeep p z hz, h.message p z hz, Option.isSome_some]
  obtain ⟨L, hbefore, hring', hsame⟩ := LinkStore.linkBefore_run (ε := IpcError) (S := lists)
    (s := { s with nextMsgId := k, messages := update s.messages a (some m) }) (h.inboxRing p hp)
    hout hvalid
  refine ⟨L, hbefore, h.setInbox ?_ hsame ?_ ?_ (fun q _ => hkeep q) ?_
    (bounded_update h.messageAddress fun _ => ⟨hpos, hlt⟩) hp⟩
  · rw [messageNodes, List.map_append]
    exact hring'
  · intro y hy
    rcases List.mem_cons.mp hy with rfl | hy
    · exact .inr ⟨a, rfl, fun q _ => hmem q⟩
    · exact h.onlyAt y hy
  · intro y hy
    rcases List.mem_append.mp hy with hy | hy
    · exact (hkeep p y hy).trans (h.message p y hy)
    · rw [List.mem_singleton.mp hy]
      exact update_self ..
  · intro y hy q hq z hz
    rcases List.mem_append.mp hy with hy | hy
    · exact h.apart q p hq z hz y hy
    · rw [List.mem_singleton.mp hy]
      exact hmem q z hz

theorem send_ok (h : Sound s inbox reg) (hcount : Counted s inbox) (hp : s.ports p ≠ none)
    (harg : ¬(p = 0 ∨ data.isNone ∧ len ≠ 0)) (hlen : ¬ipcMaxData < len) (ha : Fresh s a) :
    ∃ s' m, ipcSend p src type data len (some a) s = (.ok (), s') ∧
      Sound s' (update inbox p (inbox p ++ [(a, m)])) reg ∧
      Counted s' (update inbox p (inbox p ++ [(a, m)])) ∧
      (∀ q, s'.ports q = none ↔ s.ports q = none) ∧
      ∃ id, m = ⟨id, src, type, 0, len, messageData data len⟩ := by
  obtain ⟨x, hx⟩ := Option.ne_none_iff_exists'.mp hp
  obtain ⟨m, hm⟩ : ∃ m, m = (⟨s.nextMsgId, src, type, 0, len, messageData data len⟩ : Message) :=
    ⟨_, rfl⟩
  obtain ⟨L, hlink, hsound⟩ := linkMessage_run h hp ha (u32 (s.nextMsgId + 1)) m
  have hcounter : u32 (x.pending + 1) = (inbox p ++ [(a, m)]).length := by
    have hlt := hsound.inbox_lt (p := p) hp
    rw [update_self] at hlt
    rw [hcount p x hx]
    rw [List.length_append, List.length_singleton] at hlt ⊢
    exact u32_of_lt hlt
  refine ⟨_, m, ?_, hsound.setPorts (update_port_none hx),
    hcount.update (x := { x with pending := u32 (x.pending + 1) }) hcounter rfl,
    update_port_none hx, s.nextMsgId, hm⟩
  rw [ipcSend, if_neg harg, if_neg hlen, bind_run, nextMsgId, andThen_ok, ← hm]
  refine (bind_ok rfl).trans ((bind_ok hlink).trans ?_)
  exact editPort_run (s := { s with
    nextMsgId := u32 (s.nextMsgId + 1)
    messages := update s.messages a (some m)
    links := L }) hx _

end Send

section Receive

theorem recv_empty (h : Sound s inbox reg) (hp : s.ports p ≠ none) (hp0 : p ≠ 0)
    (hempty : inbox p = []) (out : Message) :
    ipcRecv p (some out) s = (.error (.code .eagain), s) := by
  have hring := h.inboxRing p hp
  rw [hempty] at hring
  have hrun : (lists.listIsEmpty (.inbox p) : IpcM Bool) s = (.ok (decide ([] = ([] : List LinkRef))), s) :=
    LinkStore.listIsEmpty_run hring (h.valid_inbox hp _ List.mem_cons_self)
  rw [ipcRecv, if_neg hp0, bind_ok hrun, decide_eq_true rfl, if_pos rfl, fail_run]

theorem takeMessage_run (h : Sound s inbox reg) (hp : s.ports p ≠ none)
    (hcons : inbox p = (a, m) :: l) :
    ∃ L, (lists.listIsEmpty (.inbox p) : IpcM Bool) s = (.ok false, s) ∧
      (lists.next (.inbox p) : IpcM _) s = (.ok (some (.message a)), s) ∧
      (lists.deref (some (.message a)) : IpcM _) s = (.ok (.message a), s) ∧
      (lists.linkRemove (.message a) : IpcM Unit) s = (.ok (), { s with links := L }) ∧
      s.messages a = some m ∧
      Sound { s with links := L, messages := update s.messages a none }
        (update inbox p l) reg := by
  have hvalid := h.valid_inbox hp
  have hring := h.inboxRing p hp
  rw [hcons] at hring hvalid
  have hnodup := (List.nodup_cons.mp hring.nodup).2
  have hin : ∀ q, ∀ y ∈ inbox q, (q = p → y ∈ l) → y.1 ≠ a := by
    intro q y hy hyl he
    by_cases hq : q = p
    · refine (List.nodup_cons.mp hnodup).1 (mem_messageNodes.mpr ⟨y, hyl hq, ?_⟩)
      rw [he]
    · exact h.apart q p hq y hy (a, m) (hcons ▸ List.mem_cons_self) he
  have hring' : (lists.links.get s).Ring (.inbox p) ([] ++ .message a :: messageNodes l) := hring
  obtain ⟨L, hremove, hringL, hsame⟩ := LinkStore.linkRemove_run (ε := IpcError) hring' hvalid
  have hempty := LinkStore.listIsEmpty_run (ε := IpcError) (S := lists) hring
    (hvalid _ List.mem_cons_self)
  have hnext := LinkStore.next_run (ε := IpcError) (hvalid _ List.mem_cons_self)
  have hlink : (lists.links.get s).next (.inbox p) = some (.message a) := hring.next_cons
  rw [hlink] at hnext
  have hne : messageNodes ((a, m) :: l) ≠ [] := List.cons_ne_nil _ _
  rw [decide_eq_false hne] at hempty
  have hother : ∀ q, q ≠ p → ∀ y ∈ inbox q, update s.messages a none y.1 = s.messages y.1 :=
    fun q hq y hy => update_of_ne (hin q y hy fun he => absurd he hq) _ _
  refine ⟨L, hempty, hnext, LinkStore.deref_run (hvalid _ (by simp [messageNodes])), hremove,
    h.message p (a, m) (hcons ▸ List.mem_cons_self), ?_⟩
  refine h.setInbox hringL hsame ?_ ?_ hother ?_ (bounded_update h.messageAddress (by simp)) hp
  · have honly := h.onlyAt (p := p)
    rw [hcons] at honly
    exact honly
  · intro y hy
    have hyp : y ∈ inbox p := hcons ▸ List.mem_cons_of_mem _ hy
    change update s.messages a none y.1 = some y.2
    rw [update_of_ne (hin p y hyp fun _ => hy), h.message p y hyp]
  · exact fun y hy q hq z hz => h.apart q p hq z hz y (hcons ▸ List.mem_cons_of_mem _ hy)

theorem recv_ok (h : Sound s inbox reg) (hcount : Counted s inbox) (hp : s.ports p ≠ none)
    (hp0 : p ≠ 0) (hcons : inbox p = (a, m) :: l) (out : Message) :
    ∃ s', ipcRecv p (some out) s = (.ok (m.copyTo out), s') ∧
      Sound s' (update inbox p l) reg ∧ Counted s' (update inbox p l) ∧
      ∀ q, s'.ports q = none ↔ s.ports q = none := by
  obtain ⟨x, hx⟩ := Option.ne_none_iff_exists'.mp hp
  obtain ⟨L, hempty, hnext, hderef, hremove, hm, hsound⟩ := takeMessage_run h hp hcons
  have hcounter : u32 (x.pending + 2 ^ 32 - 1) = l.length := by
    have hlt := h.inbox_lt hp
    rw [hcons, List.length_cons] at hlt
    rw [hcount p x hx, hcons, List.length_cons, u32]
    omega
  have hedit := editPort_run (s := { s with links := L }) hx fun x =>
    { x with pending := u32 (x.pending + 2 ^ 32 - 1) }
  have hm₂ : IpcState.messages { s with
    links := L
    ports := update s.ports p (some { x with pending := u32 (x.pending + 2 ^ 32 - 1) }) } a =
      some m := hm
  refine ⟨_, ?_, hsound.setPorts (update_port_none hx),
    hcount.update (x := { x with pending := u32 (x.pending + 2 ^ 32 - 1) }) hcounter rfl,
    update_port_none hx⟩
  rw [ipcRecv, if_neg hp0, bind_ok hempty, if_neg Bool.false_ne_true, bind_ok hnext,
    bind_ok hderef, bind_ok hremove, messageOf, bind_ok (pure_run _ _), bind_ok hedit,
    bind_ok (load_run hm₂), bind_ok (freeMessage_run hm₂), pure_run]

end Receive

section Create

theorem create_ok (h : Sound s inbox reg) (hcount : Counted s inbox) (ha : Fresh s a) :
    ∃ s' x, ipcPortCreate (some a) s = (.ok a, s') ∧ Sound s' inbox reg ∧ Counted s' inbox ∧
      s'.ports = update s.ports a (some x) := by
  obtain ⟨_, _, _, hnone, _⟩ := ha
  have hempty : inbox a = [] := h.dead a hnone
  have hvalid : lists.valid { s with
      nextPortId := u32 (s.nextPortId + 1)
      ports := update s.ports a (some ⟨s.nextPortId, [], 0⟩) } (.inbox a) = true := by
    change (update s.ports a (some _) a).isSome = true
    rw [update_self, Option.isSome_some]
  refine ⟨{ s with
      nextPortId := u32 (s.nextPortId + 1)
      ports := update s.ports a (some ⟨s.nextPortId, [], 0⟩)
      links := s.links.alone (.inbox a) }, ⟨s.nextPortId, [], 0⟩, ?_, ?_, ?_, rfl⟩
  · rw [ipcPortCreate, bind_run, nextPortId, andThen_ok]
    exact (bind_ok rfl).trans (bind_ok (LinkStore.linkInit_run hvalid))
  · rw [← update_eq_self a inbox, hempty]
    refine h.setInbox ?_ LinkStore.sameOutside_alone ?_ ?_ (fun _ _ _ _ => rfl) ?_ h.messageAddress
      ?_ fun q hq => update_of_ne hq _ _
    · exact ⟨⟨update_self _ _ _, update_self _ _ _⟩, List.nodup_singleton _⟩
    · exact fun y hy => .inl (List.mem_singleton.mp hy)
    · exact fun y hy => absurd hy List.not_mem_nil
    · exact fun y hy => absurd hy List.not_mem_nil
    · exact fun he => absurd ((update_self ..).symm.trans he) (Option.some_ne_none _)
  · rw [← update_eq_self a inbox, hempty]
    exact hcount.update rfl rfl

end Create

section Find

variable {name : List UInt8} {l₁ l₂ : List (Nat × Service)}

/-- The address of the first service of that name, 0 if there is none. -/
def findIn (name : List UInt8) (l : List (Nat × Service)) : Nat :=
  ((l.find? fun x => x.2.name = name).map Prod.fst).getD 0

theorem serviceNodes_append : serviceNodes (l₁ ++ l₂) = serviceNodes l₁ ++ serviceNodes l₂ :=
  List.map_append

theorem Sound.ring_split {x : Nat × Service} (h : Sound s inbox (l₁ ++ x :: l₂)) :
    (lists.links.get s).Ring .registry (serviceNodes l₁ ++ .service x.1 :: serviceNodes l₂) := by
  have hring := h.registryRing
  rw [serviceNodes_append] at hring
  exact hring

/-- Where a loop along the registry is when `l₂` is left. -/
def restOf (l₂ : List (Nat × Service)) : LinkRef := (serviceNodes l₂).headD .registry

theorem next_registry (h : Sound s inbox reg) :
    (lists.next .registry : IpcM _) s = (.ok (some (restOf reg)), s) := by
  have hnext : (lists.links.get s).next .registry = some (restOf reg) := h.registryRing.next_head
  rw [LinkStore.next_run rfl, hnext]

theorem next_service {x : Nat × Service} (h : Sound s inbox (l₁ ++ x :: l₂)) :
    (lists.next (.service x.1) : IpcM _) s = (.ok (some (restOf l₂)), s) := by
  have hring := h.ring_split
  have hmem : LinkRef.service x.1 ∈ LinkRef.registry :: serviceNodes (l₁ ++ x :: l₂) :=
    List.mem_cons_of_mem _ (mem_serviceNodes.mpr ⟨x, by simp, rfl⟩)
  have hnext : (lists.links.get s).next (.service x.1) = some (restOf l₂) := hring.next_mid
  rw [LinkStore.next_run (h.valid_registry _ hmem), hnext]

theorem deref_rest (h : Sound s inbox (l₁ ++ l₂)) :
    (lists.deref (some (restOf l₂)) : IpcM _) s = (.ok (restOf l₂), s) := by
  refine LinkStore.deref_run (h.valid_registry _ ?_)
  cases l₂ with
  | nil => exact List.mem_cons_self
  | cons x l₂ => exact List.mem_cons_of_mem _ (mem_serviceNodes.mpr ⟨x, by simp, rfl⟩)

theorem findServiceLoop_run (h : Sound s inbox (l₁ ++ l₂)) (hn : l₂.length < n) :
    findServiceLoop name n (restOf l₂) s = (.ok (findIn name l₂), s) := by
  induction n generalizing l₁ l₂ with
  | zero => exact absurd hn (Nat.not_lt_zero _)
  | succ n ih =>
    cases l₂ with
    | nil =>
      rw [findServiceLoop, restOf, serviceNodes, List.map_nil, List.headD_nil, if_pos rfl, pure_run]
      rfl
    | cons x l₂ =>
      have hx : s.services x.1 = some x.2 := h.service x (by simp)
      have hrest : Sound s inbox ((l₁ ++ [x]) ++ l₂) := by simpa using h
      have hit : restOf (x :: l₂) = .service x.1 := rfl
      rw [findServiceLoop, hit, if_neg LinkRef.noConfusion, serviceOf, bind_ok (pure_run _ _),
        bind_ok (load_run hx)]
      by_cases hname : x.2.name = name
      · have hfind : findIn name (x :: l₂) = x.1 := by
          rw [findIn, List.find?_cons, decide_eq_true hname]
          rfl
        rw [if_pos hname, pure_run, hfind]
      · have hfind : findIn name (x :: l₂) = findIn name l₂ := by
          rw [findIn, List.find?_cons, decide_eq_false hname]
          rfl
        rw [if_neg hname, bind_ok (next_service h), bind_ok (deref_rest hrest),
          ih hrest (by rw [List.length_cons] at hn; omega), hfind]

theorem find_run (h : Sound s inbox reg) :
    ipcFindService (some name) s = (.ok (findIn name reg), s) := by
  have hreg : Sound s inbox ([] ++ reg) := h
  rw [ipcFindService, bind_ok (next_registry h), bind_ok (deref_rest hreg),
    findServiceLoop_run (n := turns) hreg h.registry_lt]

theorem findIn_cases (h : Sound s inbox reg) (name : List UInt8) :
    (findIn name reg = 0 ∧ ∀ x ∈ reg, x.2.name ≠ name) ∨
      ∃ l₁ x l₂, reg = l₁ ++ x :: l₂ ∧ findIn name reg = x.1 ∧ x.1 ≠ 0 ∧ x.2.name = name := by
  cases hfind : reg.find? fun x => x.2.name = name with
  | none =>
    refine .inl ⟨by rw [findIn, hfind]; rfl, fun x hx he => ?_⟩
    have hno := List.find?_eq_none.mp hfind x hx
    exact hno (decide_eq_true he)
  | some x =>
    have hmem := List.mem_of_find?_eq_some hfind
    obtain ⟨l₁, l₂, hreg⟩ := List.append_of_mem hmem
    have hname : x.2.name = name := by simpa using List.find?_some hfind
    have hpos := (h.serviceAddress x.1 (by rw [h.service x hmem]; exact Option.some_ne_none _)).1
    exact .inr ⟨l₁, x, l₂, hreg, by rw [findIn, hfind]; rfl, hpos.ne', hname⟩

end Find

section Services

variable {name : List UInt8} {l₁ l₂ : List (Nat × Service)} {x : Nat × Service}

theorem lookup_run (h : Sound s inbox reg) : ipcLookupService (some name) s =
    (.ok (((reg.find? fun x => x.2.name = name).map fun x => x.2.port).getD 0), s) := by
  rw [ipcLookupService, bind_ok (find_run h)]
  cases hfind : reg.find? fun x => x.2.name = name with
  | none =>
    have hzero : findIn name reg = 0 := by rw [findIn, hfind]; rfl
    rw [if_pos hzero, pure_run]
    rfl
  | some x =>
    have hmem := List.mem_of_find?_eq_some hfind
    have hx := h.service x hmem
    have haddr : findIn name reg = x.1 := by rw [findIn, hfind]; rfl
    have hpos := (h.serviceAddress x.1 (by rw [hx]; exact Option.some_ne_none _)).1
    rw [haddr, if_neg hpos.ne', bind_ok (load_run hx), pure_run]
    rfl

theorem Sound.ne_fresh_service (h : Sound s inbox reg) (ha : s.services a = none) :
    ∀ y ∈ reg, y.1 ≠ a := by
  intro y hy he
  have hsome := h.service y hy
  rw [he, ha] at hsome
  cases hsome

theorem registry_or_service (reg : List (Nat × Service)) :
    ∀ y ∈ LinkRef.registry :: serviceNodes reg, y = .registry ∨ ∃ a, y = .service a := by
  intro y hy
  rcases List.mem_cons.mp hy with rfl | hy
  · exact .inl rfl
  · obtain ⟨u, _, rfl⟩ := mem_serviceNodes.mp hy
    exact .inr ⟨u.1, rfl⟩

theorem register_ok (h : Sound s inbox reg) (hcount : Counted s inbox) (hp : s.ports p ≠ none)
    (hp0 : p ≠ 0) (hname : findIn name reg = 0) (ha : Fresh s a) :
    ∃ s', ipcRegisterService (some name) p (some a) s = (.ok (), s') ∧
      Sound s' inbox (reg ++ [(a, ⟨ipcCopyName name, p⟩)]) ∧ Counted s' inbox ∧
      ∀ q, s'.ports q = none ↔ s.ports q = none := by
  obtain ⟨hpos, hlt, _, _, hnone⟩ := ha
  obtain ⟨x, hx⟩ := Option.ne_none_iff_exists'.mp hp
  have hmem := h.ne_fresh_service hnone
  have hkeep : ∀ v, ∀ y ∈ reg, update s.services a (some v) y.1 = s.services y.1 :=
    fun v y hy => update_of_ne (hmem y hy) _ _
  have hout : LinkRef.service a ∉ LinkRef.registry :: serviceNodes reg := by
    intro hin
    rcases List.mem_cons.mp hin with he | hin
    · cases he
    · obtain ⟨z, hz, he⟩ := mem_serviceNodes.mp hin
      exact hmem z hz (LinkRef.service.inj he).symm
  have hvalid : ∀ z ∈ LinkRef.service a :: LinkRef.registry :: serviceNodes reg, lists.valid { s with
      services := update s.services a (some ⟨ipcCopyName name, p⟩)
      ports := update s.ports p (some { x with name := ipcCopyName name }) } z = true := by
    intro z hz
    rcases List.mem_cons.mp hz with rfl | hz
    · change (update s.services a (some _) a).isSome = true
      rw [update_self, Option.isSome_some]
    rcases List.mem_cons.mp hz with rfl | hz
    · rfl
    · obtain ⟨u, hu, rfl⟩ := mem_serviceNodes.mp hz
      change (update s.services a (some _) u.1).isSome = true
      rw [hkeep _ u hu, h.service u hu, Option.isSome_some]
  obtain ⟨L, hbefore, hring', hsame⟩ := LinkStore.linkBefore_run (ε := IpcError) (S := lists)
    (s := { s with
      services := update s.services a (some ⟨ipcCopyName name, p⟩)
      ports := update s.ports p (some { x with name := ipcCopyName name }) }) h.registryRing hout
    hvalid
  have hset : setService a (some ⟨ipcCopyName name, p⟩) s = (.ok (), { s with
      services := update s.services a (some ⟨ipcCopyName name, p⟩) }) := rfl
  have hedit := editPort_run
    (s := { s with services := update s.services a (some ⟨ipcCopyName name, p⟩) }) hx
    fun x => { x with name := ipcCopyName name }
  refine ⟨{ s with
      services := update s.services a (some ⟨ipcCopyName name, p⟩)
      ports := update s.ports p (some { x with name := ipcCopyName name })
      links := L }, ?_, h.setRegistry ?_ hsame ?_ ?_
    (bounded_update h.serviceAddress fun _ => ⟨hpos, hlt⟩) (update_port_none hx), ?_,
    update_port_none hx⟩
  · rw [ipcRegisterService, if_neg hp0, bind_ok (find_run h), hname, if_neg (not_not_intro rfl),
      bind_ok hset, bind_ok hedit]
    exact hbefore
  · rw [serviceNodes_append]
    exact hring'
  · intro z hz
    rcases List.mem_cons.mp hz with rfl | hz
    · exact .inr ⟨a, rfl⟩
    · exact registry_or_service _ z hz
  · intro z hz
    rcases List.mem_append.mp hz with hz | hz
    · exact (hkeep _ z hz).trans (h.service z hz)
    · rw [List.mem_singleton.mp hz]
      exact update_self ..
  · rw [← update_eq_self p inbox]
    exact hcount.update (x := { x with name := ipcCopyName name }) (hcount p x hx) rfl

theorem removeService_run (h : Sound s inbox (l₁ ++ x :: l₂)) :
    ∃ s', (do lists.linkRemove (.service x.1); freeService x.1 : IpcM Unit) s = (.ok (), s') ∧
      Sound s' inbox (l₁ ++ l₂) ∧ s'.ports = s.ports ∧ s'.messages = s.messages := by
  have hring := h.ring_split
  have hvalid := h.valid_registry
  rw [serviceNodes_append] at hvalid
  obtain ⟨L, hremove, hring', hsame⟩ := LinkStore.linkRemove_run (ε := IpcError) hring hvalid
  have hx : s.services x.1 = some x.2 := h.service x (by simp)
  have hnodup := (List.nodup_cons.mp hring.nodup).2
  rw [List.nodup_append, List.nodup_cons] at hnodup
  have hne : ∀ y ∈ l₁ ++ l₂, y.1 ≠ x.1 := by
    intro y hy he
    rcases List.mem_append.mp hy with hy | hy
    · exact hnodup.2.2 _ (mem_serviceNodes.mpr ⟨y, hy, rfl⟩) _ List.mem_cons_self (by rw [he])
    · exact hnodup.2.1.1 (mem_serviceNodes.mpr ⟨y, hy, by rw [he]⟩)
  refine ⟨{ s with links := L, services := update s.services x.1 none }, ?_, ?_, rfl, rfl⟩
  · rw [bind_ok hremove]
    exact freeService_run (s := { s with links := L }) hx
  · refine h.setRegistry ?_ hsame ?_ ?_ (bounded_update h.serviceAddress nofun)
    · rw [serviceNodes_append]
      exact hring'
    · have hnodes := registry_or_service (l₁ ++ x :: l₂)
      rw [serviceNodes_append] at hnodes
      exact hnodes
    · intro y hy
      change update s.services x.1 none y.1 = some y.2
      have hmem : y ∈ l₁ ++ x :: l₂ := by
        rcases List.mem_append.mp hy with hy | hy <;> simp [hy]
      rw [update_of_ne (hne y hy), h.service y hmem]

theorem unregister_none (h : Sound s inbox reg) (hname : findIn name reg = 0) :
    ipcUnregisterService (some name) s = (.error (.code .enoent), s) := by
  rw [ipcUnregisterService, bind_ok (find_run h), if_pos hname, fail_run]

theorem unregister_ok (h : Sound s inbox (l₁ ++ x :: l₂)) (hx : x.1 ≠ 0)
    (hname : findIn name (l₁ ++ x :: l₂) = x.1) :
    ∃ s', ipcUnregisterService (some name) s = (.ok (), s') ∧ Sound s' inbox (l₁ ++ l₂) ∧
      s'.ports = s.ports ∧ s'.messages = s.messages := by
  obtain ⟨s', hrun, hrest⟩ := removeService_run h
  refine ⟨s', ?_, hrest⟩
  rw [ipcUnregisterService, bind_ok (find_run h), hname, if_neg hx]
  exact hrun

def withoutPort (p : Nat) (l : List (Nat × Service)) : List (Nat × Service) :=
  l.filter fun x => x.2.port ≠ p

theorem unregisterPortLoop_run (h : Sound s inbox (l₁ ++ l₂)) (hn : l₂.length < n) :
    ∃ s', unregisterPortLoop p n (restOf l₂) s = (.ok (), s') ∧
      Sound s' inbox (l₁ ++ withoutPort p l₂) ∧ s'.ports = s.ports ∧ s'.messages = s.messages := by
  induction n generalizing s l₁ l₂ with
  | zero => exact absurd hn (Nat.not_lt_zero _)
  | succ n ih =>
    cases l₂ with
    | nil =>
      refine ⟨s, ?_, h, rfl, rfl⟩
      rw [unregisterPortLoop, restOf, serviceNodes, List.map_nil, List.headD_nil, if_pos rfl,
        pure_run]
    | cons x l₂ =>
      have hlen : l₂.length < n := by
        rw [List.length_cons] at hn
        omega
      have hx : s.services x.1 = some x.2 := h.service x (by simp)
      have hrest : Sound s inbox ((l₁ ++ [x]) ++ l₂) := by simpa using h
      have hit : restOf (x :: l₂) = .service x.1 := rfl
      rw [unregisterPortLoop, hit, if_neg LinkRef.noConfusion, bind_ok (next_service h),
        bind_ok (deref_rest hrest), serviceOf, bind_ok (pure_run _ _), bind_run]
      by_cases hport : x.2.port = p
      · obtain ⟨s₁, hremove, hsound, hports, hmessages⟩ := removeService_run h
        obtain ⟨s₂, hrun, hsound₂, hports₂, hmessages₂⟩ := ih hsound hlen
        have hdrop : dropService p x.1 s = (.ok (), s₁) := by
          rw [dropService, bind_ok (load_run hx), if_pos hport]
          exact hremove
        refine ⟨s₂, ?_, ?_, hports₂.trans hports, hmessages₂.trans hmessages⟩
        · rw [hdrop, andThen_ok, hrun]
        · rw [withoutPort, List.filter_cons_of_neg (by simpa using hport)]
          exact hsound₂
      · obtain ⟨s₂, hrun, hsound₂, hsame⟩ := ih hrest hlen
        have hdrop : dropService p x.1 s = (.ok (), s) := by
          rw [dropService, bind_ok (load_run hx), if_neg hport, pure_run]
        refine ⟨s₂, ?_, ?_, hsame⟩
        · rw [hdrop, andThen_ok, hrun]
        · rw [withoutPort, List.filter_cons_of_pos (by simpa using hport)]
          rw [List.append_assoc] at hsound₂
          exact hsound₂

theorem unregisterPort_run (h : Sound s inbox reg) (hp0 : p ≠ 0) :
    ∃ s', ipcUnregisterPort p s = (.ok (), s') ∧ Sound s' inbox (withoutPort p reg) ∧
      s'.ports = s.ports ∧ s'.messages = s.messages := by
  have hreg : Sound s inbox ([] ++ reg) := h
  obtain ⟨s', hrun, hrest⟩ := unregisterPortLoop_run (p := p) hreg h.registry_lt
  refine ⟨s', ?_, hrest⟩
  rw [ipcUnregisterPort, if_neg hp0, bind_ok (next_registry h), bind_ok (deref_rest hreg)]
  exact hrun

end Services

section Destroy

theorem freeQueueLoop_run (h : Sound s inbox reg) (hp : s.ports p ≠ none)
    (hl : inbox p = l) (hn : l.length < n) :
    ∃ s', freeQueueLoop p n s = (.ok (), s') ∧ Sound s' (update inbox p []) reg ∧
      s'.ports = s.ports := by
  induction n generalizing s inbox l with
  | zero => exact absurd hn (Nat.not_lt_zero _)
  | succ n ih =>
    cases l with
    | nil =>
      have hring := h.inboxRing p hp
      rw [hl] at hring
      have hempty : (lists.listIsEmpty (.inbox p) : IpcM Bool) s =
          (.ok (decide ([] = ([] : List LinkRef))), s) :=
        LinkStore.listIsEmpty_run hring (h.valid_inbox hp _ List.mem_cons_self)
      refine ⟨s, ?_, ?_, rfl⟩
      · rw [freeQueueLoop, bind_ok hempty, decide_eq_true rfl, if_pos rfl, pure_run]
      · rw [← hl, update_eq_self]
        exact h
    | cons x l =>
      obtain ⟨L, hempty, hnext, hderef, hremove, hm, hsound⟩ := takeMessage_run h hp hl
      have hlen : l.length < n := by
        rw [List.length_cons] at hn
        omega
      obtain ⟨s', hrun, hsound', hports⟩ := ih hsound hp (update_self _ _ _) hlen
      refine ⟨s', ?_, ?_, hports⟩
      · rw [freeQueueLoop, bind_ok hempty, if_neg Bool.false_ne_true, bind_ok hnext, bind_ok hderef,
          bind_ok hremove, messageOf, bind_ok (pure_run _ _),
          bind_ok (freeMessage_run (s := { s with links := L }) hm)]
        exact hrun
      · rw [update_idem] at hsound'
        exact hsound'

theorem freeQueue_run (h : Sound s inbox reg) {x : Port} (hx : s.ports p = some x) :
    ∃ s', ipcFreeQueue p s = (.ok (), s') ∧ Sound s' (update inbox p []) reg ∧
      s'.ports = update s.ports p (some { x with pending := 0 }) := by
  have hp : s.ports p ≠ none := by
    rw [hx]
    exact Option.some_ne_none _
  obtain ⟨s₁, hrun, hsound, hports⟩ := freeQueueLoop_run h hp rfl (h.inbox_lt hp)
  have hx₁ : s₁.ports p = some x := hports ▸ hx
  refine ⟨{ s₁ with ports := update s₁.ports p (some { x with pending := 0 }) }, ?_,
    hsound.setPorts (update_port_none hx₁), by rw [hports]⟩
  have hloop : freeQueueLoop p turns s = (.ok (), s₁) := hrun
  rw [ipcFreeQueue, bind_ok hloop]
  exact editPort_run hx₁ _

theorem destroy_ok (h : Sound s inbox reg) (hcount : Counted s inbox) (hp : s.ports p ≠ none)
    (hp0 : p ≠ 0) :
    ∃ s', ipcPortDestroy p s = (.ok (), s') ∧
      Sound s' (update inbox p []) (withoutPort p reg) ∧
      Counted s' (update inbox p []) ∧ s'.ports = update s.ports p none := by
  obtain ⟨x, hx⟩ := Option.ne_none_iff_exists'.mp hp
  obtain ⟨s₁, hrun₁, hsound₁, hports₁, _⟩ := unregisterPort_run h hp0
  have hx₁ : s₁.ports p = some x := hports₁ ▸ hx
  obtain ⟨s₂, hrun₂, hsound₂, hports₂⟩ := freeQueue_run hsound₁ hx₁
  have hx₂ : s₂.ports p = some { x with pending := 0 } := by rw [hports₂, update_self]
  have hports : update s₂.ports p none = update s.ports p none := by
    rw [hports₂, hports₁, update_idem]
  have hother : ∀ q, q ≠ p → s₂.ports q = s.ports q := fun q hq => by
    rw [hports₂, update_of_ne hq, hports₁]
  refine ⟨{ s₂ with ports := update s₂.ports p none }, ?_, ?_, ?_, hports⟩
  · rw [ipcPortDestroy, if_neg hp0, bind_ok hrun₁, bind_ok hrun₂]
    exact freePort_run hx₂
  · refine { hsound₂ with inboxRing := fun q hq => ?_, dead := fun q hq => ?_ }
    · refine hsound₂.inboxRing q fun hn => hq ?_
      exact update_at_iff.mpr ((em (q = p)).imp (⟨·, rfl⟩) (⟨·, hn⟩))
    · rcases update_at_iff.mp hq with ⟨rfl, -⟩ | ⟨-, hq⟩
      · rw [update_self]
      · exact hsound₂.dead q hq
  · intro q y hy
    obtain ⟨-, ⟨⟩⟩ | ⟨hq, hy⟩ := update_at_iff.mp hy
    rw [hother q hq] at hy
    rw [update_of_ne hq]
    exact hcount q y hy

end Destroy

end CfKernel.Ipc
