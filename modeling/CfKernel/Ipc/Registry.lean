import CfKernel.Ipc.Mailbox

/-!
# The registry as a map

A service is stored under the first 31 bytes of its name and looked up by all of it. As long as the
names that get registered fit, the registry is the map from names to ports that the results of the
calls tell. A longer name is accepted and not found again.
-/

namespace CfKernel.Ipc

open Lib Lib.Eff Function

/-- The registry answers as the map that the run has recorded. -/
structure IsMap (w : IpcRun) : Prop where
  lookup : ∀ n, (ipcLookupService (some n) w.state).1 = .ok ((w.services n).getD 0)
  register : ∀ n p calloc, w.state.ports p ≠ none → Calloc w.state calloc →
    (ipcRegisterService (some n) p calloc w.state).1 =
      if (w.services n).isSome then .error (.code .eexist)
      else if calloc.isNone then .error (.code .enomem) else .ok ()
  unregister : ∀ n, (ipcUnregisterService (some n) w.state).1 =
    if (w.services n).isSome then .ok () else .error (.code .enoent)

/-- A name that gets registered fits into its field. -/
def ShortName (c : IpcCall) (w : IpcRun) : Prop :=
  ∀ n p calloc, c = .register (some n) p calloc →
    (ipcRegisterService (some n) p calloc w.state).1 = .ok () → n.length < ipcNameMax

/-- The services of the registry, each under a name of its own. -/
structure Names (services : List UInt8 → Option Nat) (reg : List (Nat × Service)) : Prop where
  nodup : (reg.map fun x => x.2.name).Nodup
  port : ∀ n q, services n = some q ↔ ∃ x ∈ reg, x.2.name = n ∧ x.2.port = q

variable {services services' : List UInt8 → Option Nat} {reg reg' : List (Nat × Service)}
variable {c : IpcCall} {w : IpcRun} {inbox : Nat → List (Nat × Message)} {n : List UInt8}

section Names

theorem copyName_short (h : n.length < ipcNameMax) : ipcCopyName n = n :=
  List.take_of_length_le (Nat.le_sub_one_of_lt h)

theorem copyName_length (n : List UInt8) : (ipcCopyName n).length < ipcNameMax := by
  have hle : (ipcCopyName n).length ≤ ipcNameMax - 1 := List.length_take_le _ _
  exact lt_of_le_of_lt hle (by decide)

theorem Names.find (h : Names services reg) (n : List UInt8) :
    (reg.find? fun x => x.2.name = n).map (fun x => x.2.port) = services n := by
  cases hfind : reg.find? fun x => x.2.name = n with
  | none =>
    cases hn : services n with
    | none => rfl
    | some q =>
      obtain ⟨x, hx, hname, _⟩ := (h.port n q).mp hn
      exact absurd (decide_eq_true hname) (List.find?_eq_none.mp hfind x hx)
  | some x =>
    have hname : x.2.name = n := by simpa using List.find?_some hfind
    exact ((h.port n x.2.port).mpr ⟨x, List.mem_of_find?_eq_some hfind, hname, rfl⟩).symm

theorem names_added {p a : Nat} (h : Names services reg) (hn : n.length < ipcNameMax)
    (hfree : ∀ x ∈ reg, x.2.name ≠ n) :
    Names (update services n (some p)) (reg ++ [(a, ⟨ipcCopyName n, p⟩)]) := by
  rw [copyName_short hn]
  constructor
  · rw [List.map_append, List.nodup_append]
    refine ⟨h.nodup, List.nodup_singleton _, ?_⟩
    rintro m hm k hk rfl
    obtain ⟨x, hx, hname⟩ := List.mem_map.mp hm
    exact hfree x hx (hname.trans (List.mem_singleton.mp hk))
  · intro k q
    simp only [List.mem_append, List.mem_singleton]
    by_cases hk : k = n
    · rw [hk, update_self]
      constructor
      · intro hq
        exact ⟨_, .inr rfl, rfl, Option.some.inj hq⟩
      · rintro ⟨x, hx | rfl, hname, hq⟩
        · exact absurd hname (hfree x hx)
        · rw [← hq]
    · rw [update_of_ne hk, h.port]
      constructor
      · rintro ⟨x, hx, hrest⟩
        exact ⟨x, .inl hx, hrest⟩
      · rintro ⟨x, hx | rfl, hname, hq⟩
        · exact ⟨x, hx, hname, hq⟩
        · exact absurd hname.symm hk

theorem names_removed {l₁ l₂ : List (Nat × Service)} {x : Nat × Service}
    (h : Names services (l₁ ++ x :: l₂)) (hname : x.2.name = n) :
    Names (update services n none) (l₁ ++ l₂) := by
  have hnodup := h.nodup
  rw [List.map_append, List.map_cons] at hnodup
  have hperm := (List.nodup_middle.mp hnodup)
  rw [List.nodup_cons, ← List.map_append] at hperm
  have hother : ∀ y ∈ l₁ ++ l₂, y.2.name ≠ n := fun y hy he =>
    hperm.1 (List.mem_map.mpr ⟨y, hy, he.trans hname.symm⟩)
  refine ⟨hperm.2, fun k q => ?_⟩
  by_cases hk : k = n
  · rw [hk, update_self]
    constructor
    · intro hq
      cases hq
    · rintro ⟨y, hy, he, _⟩
      exact absurd he (hother y hy)
  · rw [update_of_ne hk, h.port]
    constructor
    · rintro ⟨y, hy, he, hq⟩
      refine ⟨y, ?_, he, hq⟩
      rw [List.mem_append, List.mem_cons] at hy
      rcases hy with hy | rfl | hy
      · exact List.mem_append_left _ hy
      · exact absurd (he.symm.trans hname) hk
      · exact List.mem_append_right _ hy
    · rintro ⟨y, hy, hrest⟩
      refine ⟨y, ?_, hrest⟩
      rcases List.mem_append.mp hy with hy | hy <;> simp [hy]

theorem names_withoutPort (h : Names services reg) (p : Nat) :
    Names (dropPort p services) (withoutPort p reg) := by
  refine ⟨(List.filter_sublist.map _).nodup h.nodup, fun k q => ?_⟩
  rw [dropPort]
  constructor
  · intro hk
    by_cases hp : services k = some p
    · rw [if_pos hp] at hk
      cases hk
    · rw [if_neg hp] at hk
      obtain ⟨x, hx, hname, hq⟩ := (h.port k q).mp hk
      have hne : x.2.port ≠ p := by
        rintro rfl
        exact hp (hq ▸ hk)
      exact ⟨x, List.mem_filter.mpr ⟨hx, by simpa using hne⟩, hname, hq⟩
  · rintro ⟨x, hx, hname, hq⟩
    obtain ⟨hx, hne⟩ := List.mem_filter.mp hx
    have hk := (h.port k q).mpr ⟨x, hx, hname, hq⟩
    have hqp : q ≠ p := by
      rw [← hq]
      simpa using hne
    rw [hk, if_neg fun he => hqp (Option.some.inj he)]

end Names

theorem names_effect (h : Names services reg) (hw : ∃ s inbox, Sound s inbox reg)
    (hshort : ∀ n p a, c = .register (some n) p (some a) → p ≠ 0 → findIn n reg = 0 →
      n.length < ipcNameMax) (heffect : RegEffect c services reg services' reg') :
    Names services' reg' := by
  obtain ⟨s, inbox, hsound⟩ := hw
  cases heffect with
  | same => exact h
  | added n p a hc hp hfree =>
    refine names_added h (hshort n p a hc hp hfree) ?_
    rcases findIn_cases hsound n with ⟨_, hno⟩ | ⟨_, x, _, _, hfind, hx0, _⟩
    · exact hno
    · exact absurd (hfind.symm.trans hfree) hx0
  | removed n l₁ l₂ x hreg hname =>
    rw [hreg] at h
    exact names_removed h hname
  | port p => exact names_withoutPort h p

section Laws

theorem register_run {p : Nat} {calloc : Option Nat} (hw : Kept w inbox reg)
    (hp : w.state.ports p ≠ none) (hc : Calloc w.state calloc) :
    (ipcRegisterService (some n) p calloc w.state).1 =
      if findIn n reg ≠ 0 then .error (.code .eexist)
      else if calloc.isNone then .error (.code .enomem) else .ok () := by
  have hp0 := hw.port p hp
  by_cases hfree : findIn n reg = 0
  · rw [if_neg (not_not_intro hfree)]
    cases calloc with
    | none =>
      rw [ipcRegisterService, if_neg hp0, bind_ok (find_run hw.sound), hfree,
        if_neg (not_not_intro rfl), fail_run]
      rfl
    | some a =>
      obtain ⟨s', hrun, _⟩ := register_ok hw.sound hw.counted hp hp0 hfree (hc a rfl)
      rw [hrun]
      rfl
  · rw [if_pos hfree, ipcRegisterService.eq_def]
    change ((if p = 0 then _ else _ : IpcM Unit) w.state).1 = _
    rw [if_neg hp0, bind_ok (find_run hw.sound), if_pos hfree, fail_run]

theorem findIn_ne_zero (hw : Kept w inbox reg) (hnames : Names w.services reg) :
    findIn n reg ≠ 0 ↔ (w.services n).isSome = true := by
  rcases findIn_cases hw.sound n with ⟨hzero, hno⟩ | ⟨l₁, x, l₂, hreg, hfind, hx0, hname⟩
  · rw [hzero]
    refine ⟨fun h => absurd rfl h, fun h => ?_⟩
    obtain ⟨q, hq⟩ := Option.isSome_iff_exists.mp h
    obtain ⟨x, hx, hname, _⟩ := (hnames.port n q).mp hq
    exact absurd hname (hno x hx)
  · have hmem : x ∈ reg := by simp [hreg]
    rw [hfind, (hnames.port n x.2.port).mpr ⟨x, hmem, hname, rfl⟩]
    exact ⟨fun _ => rfl, fun _ => hx0⟩

theorem isMap_of_names (hw : Kept w inbox reg) (hnames : Names w.services reg) : IsMap w := by
  constructor
  case lookup =>
    intro n
    rw [lookup_run hw.sound, hnames.find]
  case register =>
    intro n p calloc hp hc
    rw [register_run hw hp hc]
    exact if_congr (findIn_ne_zero hw hnames) rfl rfl
  case unregister =>
    intro n
    by_cases hfree : findIn n reg = 0
    · rw [unregister_none hw.sound hfree, if_neg fun h => (findIn_ne_zero hw hnames).mpr h hfree]
    · rw [if_pos ((findIn_ne_zero hw hnames).mp hfree)]
      rcases findIn_cases hw.sound n with ⟨hzero, _⟩ | ⟨l₁, x, l₂, hreg, hfind, hx0, _⟩
      · exact absurd hzero hfree
      · have hsound := hw.sound
        rw [hreg] at hsound hfind
        obtain ⟨s', hrun, _⟩ := unregister_ok hsound hx0 hfind
        rw [hrun]

/-- What is stored fits its field, whatever was registered. -/
def Fits (reg : List (Nat × Service)) : Prop := ∀ x ∈ reg, x.2.name.length < ipcNameMax

theorem fits_effect (h : Fits reg) (heffect : RegEffect c services reg services' reg') :
    Fits reg' := by
  cases heffect with
  | same => exact h
  | added n p a =>
    intro x hx
    rcases List.mem_append.mp hx with hx | hx
    · exact h x hx
    · rw [List.mem_singleton.mp hx]
      exact copyName_length n
  | removed n l₁ l₂ x hreg =>
    intro y hy
    refine h y ?_
    rw [hreg]
    rcases List.mem_append.mp hy with hy | hy <;> simp [hy]
  | port p => exact fun x hx => h x (List.mem_filter.mp hx).1

theorem long_not_found (hw : Kept w inbox reg) (hfits : Fits reg) (hn : ipcNameMax ≤ n.length) :
    findIn n reg = 0 := by
  rcases findIn_cases hw.sound n with ⟨hzero, _⟩ | ⟨_, x, _, hreg, _, _, hname⟩
  · exact hzero
  · have hlt := hfits x (by simp [hreg])
    rw [hname] at hlt
    omega

/-- A name that does not fit is accepted, and the map is broken: it is not found again. -/
theorem long_name_lost {p a : Nat} (hw : Kept w inbox reg) (hfits : Fits reg)
    (hn : ipcNameMax ≤ n.length) (hp : w.state.ports p ≠ none) (ha : Fresh w.state a) :
    (ipcRegisterService (some n) p (some a) w.state).1 = .ok () ∧
      (w.step (.register (some n) p (some a))).services n = some p ∧
      (ipcLookupService (some n) (w.step (.register (some n) p (some a))).state).1 = .ok 0 := by
  have hp0 := hw.port p hp
  have hfree := long_not_found hw hfits hn
  obtain ⟨s', hrun, _⟩ := register_ok hw.sound hw.counted hp hp0 hfree ha
  have hallowed : Allowed (.register (some n) p (some a)) w :=
    ⟨.inr hp, fun b hb => Option.some.inj hb ▸ ha⟩
  obtain ⟨inbox', reg', hw', heffect⟩ := steps_of_allowed _ hw hallowed
  have hnot := long_not_found hw' (fits_effect hfits heffect) hn
  refine ⟨by rw [hrun], ?_, ?_⟩
  · rw [IpcRun.step, IpcRun.perform, hrun]
    exact update_self _ _ _
  · rw [ipcLookupService, bind_ok (find_run hw'.sound), if_pos hnot, pure_run]

end Laws

theorem exists_names (h : Reach IpcRun.step (fun c w => Allowed c w ∧ ShortName c w) .start w) :
    ∃ inbox reg, Kept w inbox reg ∧ Names w.services reg ∧ Fits reg := by
  refine h.invariant (fun w => ∃ inbox reg, Kept w inbox reg ∧ Names w.services reg ∧ Fits reg)
    ⟨_, _, kept_start, ⟨List.nodup_nil, fun n q => ?_⟩, fun x hx => absurd hx List.not_mem_nil⟩ ?_
  · refine ⟨fun hq => ?_, ?_⟩
    · cases hq
    · rintro ⟨x, hx, _⟩
      cases hx
  · rintro c w ⟨inbox, reg, hw, hnames, hfits⟩ ⟨hc, hshort⟩
    obtain ⟨inbox', reg', hw', heffect⟩ := steps_of_allowed c hw hc
    refine ⟨inbox', reg', hw', ?_, fits_effect hfits heffect⟩
    refine names_effect hnames ⟨_, _, hw.sound⟩ ?_ heffect
    rintro n p a rfl hp0 hfree
    refine hshort n p (some a) rfl ?_
    obtain ⟨hp, hcalloc⟩ := hc
    obtain ⟨s', hrun, _⟩ :=
      register_ok hw.sound hw.counted (hp.resolve_left hp0) hp0 hfree (hcalloc a rfl)
    rw [hrun]

/-- While the names that get registered fit, the registry is the recorded map; as soon as one does
not, it is not. -/
theorem registry_isMap (h : Reach IpcRun.step (fun c w => Allowed c w ∧ ShortName c w) .start w) :
    IsMap w ∧ ∀ n p a, w.state.ports p ≠ none → Fresh w.state a → ipcNameMax ≤ n.length →
      (ipcRegisterService (some n) p (some a) w.state).1 = .ok () ∧
        ¬IsMap (w.step (.register (some n) p (some a))) := by
  obtain ⟨inbox, reg, hw, hnames, hfits⟩ := exists_names h
  refine ⟨isMap_of_names hw hnames, fun n p a hp ha hn => ?_⟩
  obtain ⟨hok, hservices, hlookup⟩ := long_name_lost hw hfits hn hp ha
  refine ⟨hok, fun hmap => ?_⟩
  have hfound := hmap.lookup n
  rw [hservices, hlookup] at hfound
  exact hw.port p hp (Except.ok.inj hfound).symm

theorem onePort_short : Allowed (.create (some 1)) .start ∧ ShortName (.create (some 1)) .start :=
  ⟨onePort_fresh, fun _ _ _ hc => IpcCall.noConfusion hc⟩

theorem registry_isMap_onePort :
    IsMap onePort ∧ ∀ n, ipcNameMax ≤ n.length →
      ¬IsMap (onePort.step (.register (some n) 1 (some 2))) := by
  have h := registry_isMap (onePort_reach onePort_short)
  have hfresh : Fresh onePort.state 2 := ⟨by decide, by decide, rfl, rfl, rfl⟩
  exact ⟨h.1, fun n hn => (h.2 n 1 2 (Option.some_ne_none _) hfresh hn).2⟩

/-- A name of 32 bytes: registered with `IPC_OK`, and the lookup that follows returns `NULL`. -/
theorem name_of_32_lost :
    (ipcRegisterService (some (List.replicate 32 0x61)) 1 (some 2) onePort.state).1 = .ok () ∧
      (ipcLookupService (some (List.replicate 32 0x61))
        (onePort.step (.register (some (List.replicate 32 0x61)) 1 (some 2))).state).1 = .ok 0 := by
  obtain ⟨inbox, reg, hw, _, hfits⟩ := exists_names (onePort_reach onePort_short)
  have hfresh : Fresh onePort.state 2 := ⟨by decide, by decide, rfl, rfl, rfl⟩
  have hport : onePort.state.ports 1 ≠ none := Option.some_ne_none _
  have hlost := long_name_lost (n := List.replicate 32 0x61) hw hfits (by decide) hport hfresh
  exact ⟨hlost.1, hlost.2.2⟩

end CfKernel.Ipc
