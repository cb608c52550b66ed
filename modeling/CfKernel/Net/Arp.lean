import CfKernel.Net.Checksum

/-!
# The ARP cache

`arp.c`. The cache has sixteen entries; a new address takes the place of the first entry when none
is left. Against the history of insertions, the newest one first, an entry is always the newest for
its address, and nothing is lost as long as there are not more addresses than entries.
-/

namespace CfKernel.Net

open Lib Function

abbrev IpAddr : Type := Fin 4 → UInt8

abbrev MacAddr : Type := Fin 6 → UInt8

structure ArpEntry where
  ip : IpAddr
  mac : MacAddr
  valid : Bool

abbrev ArpCache : Type := Fin 16 → ArpEntry

/-- The first entry for which the test of one of the loops succeeds. -/
def arpScan (p : ArpEntry → Bool) (c : ArpCache) : Option (Fin 16) :=
  (List.finRange 16).find? fun i => p (c i)

def ArpEntry.isFor (ip : IpAddr) (e : ArpEntry) : Bool := e.valid && decide (e.ip = ip)

def netArpInit (c : ArpCache) : ArpCache := fun i => { c i with valid := false }

def netArpInsert (ip : IpAddr) (mac : MacAddr) (c : ArpCache) : ArpCache :=
  match arpScan (·.isFor ip) c with
  | some i => update c i { c i with mac }
  | none => update c ((arpScan (! ·.valid) c).getD 0) ⟨ip, mac, true⟩

def netArpLookup (ip : IpAddr) (c : ArpCache) : Option MacAddr :=
  (arpScan (·.isFor ip) c).map fun i => (c i).mac

inductive NetStatus where
  | ok | invalid
  deriving DecidableEq

/-- `net_arp_process`: the sender's addresses are at 22 and 28, the operation at 20. -/
def netArpProcess (frame : Bytes) (len : Nat) (c : ArpCache) : NetStatus × ArpCache :=
  if len < 14 + 28 then (.invalid, c)
  else if beWord frame 12 ≠ 0x0806 then (.invalid, c)
  else if beWord frame 20 = 2 then
    (.ok, netArpInsert (fun k => frame (28 + k)) (fun k => frame (22 + k)) c)
  else if beWord frame 20 = 1 then
    (.ok, netArpInsert (fun k => frame (28 + k)) (fun k => frame (22 + k)) c)
  else (.ok, c)

inductive ArpCall where
  | insert (ip : IpAddr) (mac : MacAddr)
  | process (frame : Bytes) (len : Nat)

def ArpCall.run (c : ArpCache) : ArpCall → ArpCache
  | insert ip mac => netArpInsert ip mac c
  | process frame len => (netArpProcess frame len c).2

def ArpCall.inserts : ArpCall → Option (IpAddr × MacAddr)
  | insert ip mac => some (ip, mac)
  | process frame len =>
    if 42 ≤ len ∧ beWord frame 12 = 0x0806 ∧ (beWord frame 20 = 1 ∨ beWord frame 20 = 2) then
      some (fun k => frame (28 + k), fun k => frame (22 + k))
    else none

/-- All insertions of a run, the newest first. -/
def arpHistory (calls : List ArpCall) : List (IpAddr × MacAddr) :=
  (calls.filterMap ArpCall.inserts).reverse

variable {c : ArpCache} {ip : IpAddr} {mac : MacAddr} {i j : Fin 16}
variable {h : List (IpAddr × MacAddr)} {p : ArpEntry → Bool}

theorem run_of_inserts (call : ArpCall) (c : ArpCache) :
    call.run c = (call.inserts.map fun x => netArpInsert x.1 x.2 c).getD c := by
  cases call with
  | insert ip mac => rfl
  | process frame len =>
    simp only [ArpCall.run, netArpProcess, ArpCall.inserts]
    split_ifs <;> first | rfl | omega

theorem arpScan_some (hi : arpScan p c = some i) : p (c i) = true :=
  List.find?_some (p := fun i => p (c i)) hi

theorem arpScan_none (hn : arpScan p c = none) (i : Fin 16) : p (c i) = false := by
  simpa using List.find?_eq_none.mp hn i (List.mem_finRange i)

theorem isFor_iff {e : ArpEntry} : e.isFor ip = true ↔ e.valid = true ∧ e.ip = ip := by
  simp [ArpEntry.isFor]

structure ArpInv (c : ArpCache) (h : List (IpAddr × MacAddr)) : Prop where
  unique : ∀ i j, (c i).valid = true → (c j).valid = true → (c i).ip = (c j).ip → i = j
  newest : ∀ i, (c i).valid = true → h.lookup (c i).ip = some (c i).mac
  last : ∀ x ∈ h.head?, ∃ i, (c i).isFor x.1 = true
  complete : (h.map Prod.fst).toFinset.card ≤ 16 → ∀ x ∈ h, ∃ i, (c i).isFor x.1 = true

theorem arpInv_init (c : ArpCache) : ArpInv (netArpInit c) [] where
  unique i j hi := by cases hi
  newest i hi := by cases hi
  last := by simp
  complete := by simp

theorem ArpInv.mem_history (hc : ArpInv c h) (hi : (c i).valid = true) :
    (c i).ip ∈ h.map Prod.fst := by
  obtain ⟨l₁, l₂, rfl, -⟩ := List.lookup_eq_some_iff.mp (hc.newest i hi)
  simp

/-- Sixteen valid entries and an address that is in none of them are seventeen addresses. -/
theorem ArpInv.overflow (hc : ArpInv c h) (hall : ∀ i, (c i).valid = true)
    (hnew : ∀ i, (c i).ip ≠ ip) : 16 < (((ip, mac) :: h).map Prod.fst).toFinset.card := by
  have hinj : Injective fun i => (c i).ip := fun i j hij => hc.unique i j (hall i) (hall j) hij
  have hsub : insert ip (Finset.univ.image fun i => (c i).ip) ⊆
      (((ip, mac) :: h).map Prod.fst).toFinset := by
    intro a ha
    rw [List.mem_toFinset, List.map_cons, List.mem_cons]
    rcases Finset.mem_insert.mp ha with rfl | ha
    · exact .inl rfl
    · obtain ⟨i, -, rfl⟩ := Finset.mem_image.mp ha
      exact .inr (hc.mem_history (hall i))
  have hcard := Finset.card_le_card hsub
  rw [Finset.card_insert_of_notMem (by simpa using fun i => hnew i),
    Finset.card_image_of_injective _ hinj, Finset.card_univ, Fintype.card_fin] at hcard
  exact hcard

/-- The entry at `j` becomes that of `ip`, which no other entry is for. -/
theorem ArpInv.put (hc : ArpInv c h) (hfree : ∀ i, i ≠ j → (c i).isFor ip = false)
    (hlost : (((ip, mac) :: h).map Prod.fst).toFinset.card ≤ 16 → (c j).valid = true →
      (c j).ip = ip) :
    ArpInv (update c j ⟨ip, mac, true⟩) ((ip, mac) :: h) := by
  have hother : ∀ i, i ≠ j → (c i).valid = true → (c i).ip ≠ ip := fun i hij hi heq => by
    simpa [hfree i hij] using isFor_iff.mpr ⟨hi, heq⟩
  have hhere : (update c j ⟨ip, mac, true⟩ j).isFor ip = true := by simp [isFor_iff]
  constructor
  case unique =>
    intro i k hi hk heq
    by_cases hij : i = j <;> by_cases hkj : k = j <;>
      simp only [hij, hkj, update_self, ne_eq, not_false_eq_true, update_of_ne] at hi hk heq ⊢
    · exact absurd heq.symm (hother k hkj hk)
    · exact absurd heq (hother i hij hi)
    · exact hc.unique i k hi hk heq
  case newest =>
    intro i hi
    by_cases hij : i = j
    · simp [hij]
    · rw [update_of_ne hij] at hi ⊢
      rw [List.lookup_cons, beq_false_of_ne (hother i hij hi), hc.newest i hi]
  case last =>
    intro x hx
    obtain rfl : (ip, mac) = x := by simpa using hx
    exact ⟨j, hhere⟩
  case complete =>
    intro hcard x hx
    have hle : (h.map Prod.fst).toFinset.card ≤ 16 := by
      refine le_trans (Finset.card_le_card fun a ha => ?_) hcard
      simp only [List.mem_toFinset, List.map_cons, List.mem_cons] at ha ⊢
      exact .inr ha
    rcases List.mem_cons.mp hx with rfl | hx
    · exact ⟨j, hhere⟩
    · obtain ⟨i, hi⟩ := hc.complete hle x hx
      by_cases hij : i = j
      · -- the entry that is written was for the same address
        obtain ⟨hv, heq⟩ := isFor_iff.mp (hij ▸ hi)
        exact ⟨j, by rwa [← heq, hlost hcard hv]⟩
      · exact ⟨i, by rwa [update_of_ne hij]⟩

theorem ArpInv.insert (hc : ArpInv c h) (ip : IpAddr) (mac : MacAddr) :
    ArpInv (netArpInsert ip mac c) ((ip, mac) :: h) := by
  unfold netArpInsert
  cases hfor : arpScan (·.isFor ip) c with
  | some i =>
    obtain ⟨hv, heq⟩ := isFor_iff.mp (arpScan_some hfor)
    have hentry : ({ c i with mac } : ArpEntry) = ⟨ip, mac, true⟩ := by simp [hv, heq]
    simp only [hentry]
    refine hc.put (fun k hk => ?_) fun _ _ => heq
    by_contra hne
    obtain ⟨hkv, hkip⟩ := isFor_iff.mp (Bool.not_eq_false _ ▸ hne)
    exact hk (hc.unique k i hkv hv (hkip.trans heq.symm))
  | none =>
    have hfree := arpScan_none hfor
    refine hc.put (fun k _ => hfree k) fun hcard hv => ?_
    cases hroom : arpScan (! ·.valid) c with
    | some i =>
      rw [hroom, Option.getD_some] at hv
      simpa [hv] using arpScan_some hroom
    | none =>
      have hall : ∀ k, (c k).valid = true := fun k => by simpa using arpScan_none hroom k
      have hnew : ∀ k, (c k).ip ≠ ip := fun k heq => by
        simpa [hfree k] using isFor_iff.mpr ⟨hall k, heq⟩
      exact absurd hcard (not_le.mpr (hc.overflow hall hnew))

theorem arpInv_run (c : ArpCache) (calls : List ArpCall) :
    ArpInv (calls.foldl ArpCall.run (netArpInit c)) (arpHistory calls) := by
  induction calls using List.reverseRecOn with
  | nil => exact arpInv_init c
  | append_singleton calls call ih =>
    rw [List.foldl_append, List.foldl_cons, List.foldl_nil, run_of_inserts, arpHistory,
      List.filterMap_append, List.reverse_append]
    cases hx : call.inserts with
    | none => simpa [hx, arpHistory] using ih
    | some x => simpa [hx, arpHistory] using ih.insert x.1 x.2

theorem lookup_isSome (hi : (c i).isFor ip = true) : (netArpLookup ip c).isSome = true := by
  rw [netArpLookup, Option.isSome_map]
  by_contra hnone
  have := arpScan_none (Option.not_isSome_iff_eq_none.mp hnone) i
  rw [hi] at this
  cases this

/-- After any run no address is in two entries, and a lookup fails or returns the newest hardware
address. It finds the address inserted last, and every address while there have been at most
sixteen. Frames that are too short or of another type change nothing. -/
theorem arp_cache_correct (c₀ : ArpCache) (calls : List ArpCall) :
    let c := calls.foldl ArpCall.run (netArpInit c₀)
    let h := arpHistory calls
    (∀ i j, (c i).valid = true → (c j).valid = true → (c i).ip = (c j).ip → i = j) ∧
    (∀ ip, netArpLookup ip c = none ∨ netArpLookup ip c = h.lookup ip) ∧
    (∀ x ∈ h.head?, netArpLookup x.1 c = some x.2) ∧
    ((h.map Prod.fst).toFinset.card ≤ 16 → ∀ ip ∈ h.map Prod.fst,
      netArpLookup ip c = h.lookup ip ∧ (netArpLookup ip c).isSome = true) ∧
    ∀ frame len, len < 42 ∨ beWord frame 12 ≠ 0x0806 →
      netArpProcess frame len c = (.invalid, c) := by
  intro c h
  have hc : ArpInv c h := arpInv_run c₀ calls
  have hlookup : ∀ ip, netArpLookup ip c = none ∨ netArpLookup ip c = h.lookup ip := by
    intro ip
    unfold netArpLookup
    cases hscan : arpScan (·.isFor ip) c with
    | none => exact .inl rfl
    | some i =>
      obtain ⟨hv, rfl⟩ := isFor_iff.mp (arpScan_some hscan)
      exact .inr (hc.newest i hv).symm
  have hfound : ∀ ip i, (c i).isFor ip = true → netArpLookup ip c = h.lookup ip := by
    intro ip i hi
    refine (hlookup ip).resolve_left fun hnone => ?_
    simpa [hnone] using lookup_isSome hi
  refine ⟨hc.unique, hlookup, fun x hx => ?_, fun hcard ip hip => ?_, fun frame len hbad => ?_⟩
  · obtain ⟨i, hi⟩ := hc.last x hx
    obtain ⟨t, ht⟩ := List.head?_eq_some_iff.mp hx
    rw [hfound x.1 i hi, ht, List.lookup_cons_self]
  · obtain ⟨x, hx, rfl⟩ := List.mem_map.mp hip
    obtain ⟨i, hi⟩ := hc.complete hcard x hx
    exact ⟨hfound _ i hi, lookup_isSome hi⟩
  · unfold netArpProcess
    split_ifs <;> first | rfl | omega

end CfKernel.Net
