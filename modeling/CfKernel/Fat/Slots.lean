import CfKernel.Fat.Dir

/-!
# Directory slots

A directory is the list of its slot addresses in the order `fat_iter_dir` visits them. The walk
with a callback is a scan of that list; its live slots are those before the end mark that hold
neither a deleted entry nor a long name nor a label.
-/

namespace CfKernel.Fat

open Lib Lib.Eff

/-- Slot `a` holds an entry that the walk hands to its callback. -/
def slotLive (d : Disk) (a : Nat) : Bool :=
  d a ≠ 0xE5 && !(d (a + 11) = 0x0F || d (a + 11) &&& 0x08 ≠ 0)

def liveSlots (d : Disk) : List Nat → List Nat
  | [] => []
  | a :: l => if d a = 0 then [] else if slotLive d a then a :: liveSlots d l else liveSlots d l

def scanSlots {γ : Type} (cb : DirCallback γ) (d : Disk) : List Nat → γ → Scan γ
  | [], ctx => .go ctx
  | a :: l, ctx =>
    match fatVisit cb d a (a / 512) (a % 512) ctx with
    | .stop ctx => .stop ctx
    | .go ctx => scanSlots cb d l ctx

/-- The node that a lookup of the entry in slot `a` returns. -/
def nodeAt (d : Disk) (a : Nat) : FatNode := fatNodeOf (direntAt d a) (a / 512) (a % 512)

def entryName (d : Disk) (a : Nat) : List UInt8 := fatNameToStr (direntAt d a).name

variable {γ : Type} {cb : DirCallback γ} {d d' : Disk} {a b : Nat} {l m : List Nat} {ctx : γ}

theorem direntAt_congr {off : Nat} {buf : Bytes} (h : ∀ k < 32, buf (off + k) = d (a + k)) :
    direntAt buf off = direntAt d a := by
  have h16 : ∀ o, o + 2 ≤ 32 → le16 buf (off + o) = le16 d (a + o) := by
    intro o ho
    have h0 := h o (by omega)
    have h1 := h (o + 1) (by omega)
    rw [le16_eq, le16_eq, h0, Nat.add_assoc, Nat.add_assoc, h1]
  have h32 : le32 buf (off + 28) = le32 d (a + 28) := by
    have h0 := h 28 (by omega)
    have h1 := h 29 (by omega)
    have h2 := h 30 (by omega)
    have h3 := h 31 (by omega)
    rw [le32_eq, le32_eq, h0, Nat.add_assoc off, Nat.add_assoc a, h1, Nat.add_assoc off,
      Nat.add_assoc a, h2, Nat.add_assoc off, Nat.add_assoc a, h3]
  have hname : (List.range 11).map (fun i => buf (off + i)) =
      (List.range 11).map fun i => d (a + i) :=
    List.map_congr_left fun i hi => h i (by have := List.mem_range.mp hi; omega)
  simp only [direntAt, h 11 (by omega), h16 20 (by omega), h16 26 (by omega), h32, hname]

theorem fatVisit_congr {off : Nat} {buf : Bytes} (h : ∀ k < 32, buf (off + k) = d (a + k))
    (sector offset : Nat) :
    fatVisit cb buf off sector offset ctx = fatVisit cb d a sector offset ctx := by
  have h0 := h 0 (by omega)
  rw [Nat.add_zero, Nat.add_zero] at h0
  simp only [fatVisit, direntAt_congr h, h0]

theorem scanSlots_append : scanSlots cb d (l ++ m) ctx = match scanSlots cb d l ctx with
    | .stop ctx => .stop ctx | .go ctx => scanSlots cb d m ctx := by
  induction l generalizing ctx with
  | nil => rfl
  | cons a l ih =>
    simp only [List.cons_append, scanSlots]
    cases fatVisit cb d a (a / 512) (a % 512) ctx with
    | stop ctx => rfl
    | go ctx => exact ih

theorem slotLive_iff : slotLive d a = true ↔
    d a ≠ 0xE5 ∧ ¬ (d (a + 11) = 0x0F ∨ d (a + 11) &&& 0x08 ≠ 0) := by
  simp [slotLive]

theorem fatVisit_eq (sector offset : Nat) :
    fatVisit cb d a sector offset ctx =
      if d a = 0 then .stop ctx
      else if slotLive d a then
        match cb (direntAt d a) (entryName d a) sector offset ctx with
        | (true, ctx) => .stop ctx
        | (false, ctx) => .go ctx
      else .go ctx := by
  unfold fatVisit entryName
  have hattr : (direntAt d a).attr = d (a + 11) := rfl
  by_cases h0 : d a = 0
  · simp only [if_pos h0]
  · by_cases hlive : slotLive d a = true
    · obtain ⟨h1, h2⟩ := slotLive_iff.mp hlive
      exact (if_neg h0).trans ((if_neg h1).trans ((if_neg h2).trans
        ((if_neg h0).trans (if_pos hlive)).symm))
    · simp only [if_neg h0, if_neg hlive, hattr]
      split_ifs with h1 h2
      · rfl
      · rfl
      · exact absurd (slotLive_iff.mpr ⟨h1, h2⟩) hlive

theorem scanSlots_lookup (name : List UInt8) :
    (scanSlots (fatLookupCb name) d l none).ctx =
      ((liveSlots d l).find? fun a => strcasecmpEq (entryName d a) name).map (nodeAt d) := by
  induction l with
  | nil => rfl
  | cons a l ih =>
    simp only [scanSlots, fatVisit_eq, liveSlots]
    split_ifs with h0 h1
    · rfl
    · by_cases hm : strcasecmpEq (entryName d a) name = true
      · simp only [fatLookupCb, hm, if_true, List.find?_cons, Option.map_some, Scan.ctx]
        rfl
      · simp only [fatLookupCb, hm, if_false, List.find?_cons, Bool.false_eq_true] at ih ⊢
        exact ih
    · exact ih

theorem scanSlots_empty : (scanSlots fatEmptyCb d l false).ctx =
    (liveSlots d l).any fun a => !isDotName (entryName d a) := by
  induction l with
  | nil => rfl
  | cons a l ih =>
    simp only [scanSlots, fatVisit_eq, liveSlots]
    split_ifs with h0 h1
    · rfl
    · by_cases hm : isDotName (entryName d a) = true
      · simp only [fatEmptyCb, hm, if_true, List.any_cons, Bool.not_true, Bool.false_or]
        exact ih
      · simp only [fatEmptyCb, hm, if_false, List.any_cons, Bool.false_eq_true, Scan.ctx]
        simp
    · exact ih

theorem mem_of_mem_liveSlots (h : a ∈ liveSlots d l) : a ∈ l := by
  induction l with
  | nil => cases h
  | cons b l ih =>
    simp only [liveSlots] at h
    split_ifs at h with h0 h1
    · cases h
    · rcases List.mem_cons.mp h with rfl | h
      · simp
      · exact List.mem_cons_of_mem _ (ih h)
    · exact List.mem_cons_of_mem _ (ih h)

theorem live_of_mem_liveSlots (h : a ∈ liveSlots d l) : d a ≠ 0 ∧ slotLive d a = true := by
  induction l with
  | nil => cases h
  | cons b l ih =>
    simp only [liveSlots] at h
    split_ifs at h with h0 h1
    · cases h
    · rcases List.mem_cons.mp h with rfl | h
      · exact ⟨h0, h1⟩
      · exact ih h
    · exact ih h

theorem liveSlots_congr (h : ∀ a ∈ l, d' a = d a ∧ d' (a + 11) = d (a + 11)) :
    liveSlots d' l = liveSlots d l := by
  induction l with
  | nil => rfl
  | cons a l ih =>
    obtain ⟨h0, h11⟩ := h a (by simp)
    have hlive : slotLive d' a = slotLive d a := by rw [slotLive, slotLive, h0, h11]
    rw [liveSlots, liveSlots, h0, hlive, ih fun b hb => h b (by simp [hb])]

/-- Two parts of a directory: the second is seen only when the first has no end mark. -/
theorem liveSlots_append : liveSlots d (l ++ m) =
    liveSlots d l ++ if ∀ a ∈ l, d a ≠ 0 then liveSlots d m else [] := by
  induction l with
  | nil => simp [liveSlots]
  | cons a l ih =>
    simp only [List.cons_append, liveSlots, List.forall_mem_cons, ih]
    split_ifs <;> simp_all

namespace FatSuper

variable (sb : FatSuper)

def clusterSlots (c : Nat) : List Nat :=
  (List.range (16 * sb.sectorsPerCluster)).map fun k => sb.clusterAddr c + 32 * k

def chainSlots (l : List Nat) : List Nat := l.flatMap sb.clusterSlots

def sectorSlots (lba : Nat) : List Nat := (List.range 16).map fun k => lba * 512 + 32 * k

/-- The slots of the fixed root directory of FAT12 and FAT16. -/
def rootSlots : List Nat :=
  ((List.range sb.rootDirSectors).flatMap fun s => sectorSlots (sb.rootDirStart + s)).take
    sb.rootEntries

/-- The directory with first cluster `c`; cluster `0` stands for the fixed root. -/
inductive DirSlots (d : Disk) : Nat → List Nat → Prop where
  | root : sb.type ≠ .fat32 → DirSlots d 0 sb.rootSlots
  | chain {c : Nat} {l : List Nat} : c ≠ 0 → sb.Chain d c l → DirSlots d c (sb.chainSlots l)

variable {sb} {c x n off lba entries : Nat} {slots : List Nat}

theorem DirSlots.unique {slots' : List Nat} (h : sb.DirSlots d c slots)
    (h' : sb.DirSlots d c slots') : slots = slots' := by
  cases h with
  | root ht =>
    cases h' with
    | root _ => rfl
    | chain hc _ => exact absurd rfl hc
  | chain hc hl =>
    cases h' with
    | root _ => exact absurd rfl hc
    | chain _ hl' => rw [hl.unique hl']

theorem map_slots_succ (base n : Nat) : (List.range (n + 1)).map (fun k => base + 32 * k) =
    base :: (List.range n).map fun k => base + 32 + 32 * k := by
  rw [List.range_succ_eq_map, List.map_cons, List.map_map, Nat.mul_zero, Nat.add_zero]
  refine congrArg (base :: ·) (List.map_congr_left fun k _ => ?_)
  simp only [Function.comp_apply]
  omega

theorem fatIterCluster_eq (sb : FatSuper) (cb : DirCallback γ) (d : Disk) (buf : Bytes)
    (lba n off base : Nat) (ctx : γ)
    (hbuf : ∀ k < 32 * n, buf (off + k) = d (base + off + k)) (hbase : base = lba * 512) :
    fatIterCluster sb cb buf lba n off ctx =
      scanSlots cb d ((List.range n).map fun k => base + off + 32 * k) ctx := by
  induction n generalizing off ctx with
  | zero => rfl
  | succ n ih =>
    have hsec : lba + off / sb.bytesPerSector = (base + off) / 512 := by
      rw [sb.sound.bps]
      omega
    have hoff : off % sb.bytesPerSector = (base + off) % 512 := by
      rw [sb.sound.bps]
      omega
    rw [map_slots_succ, fatIterCluster, scanSlots, hsec, hoff,
      fatVisit_congr fun k hk => hbuf k (by omega)]
    cases fatVisit cb d (base + off) ((base + off) / 512) ((base + off) % 512) ctx with
    | stop ctx => rfl
    | go ctx =>
      refine (ih (off + 32) ctx fun k hk => ?_).trans ?_
      · have h := hbuf (32 + k) (by omega)
        rw [← Nat.add_assoc, ← Nat.add_assoc] at h
        exact h
      · rw [← Nat.add_assoc]

theorem clusterSize_div (sb : FatSuper) : sb.clusterSize / 32 = 16 * sb.sectorsPerCluster := by
  rw [clusterSize_eq]
  omega

theorem fatIterChain_eq (n : Nat) (hl : sb.Chain d c l) (hc : c ≠ 0) (hn : l.length ≤ n) (ctx : γ) :
    fatIterChain sb cb d n c ctx = .ok (scanSlots cb d (sb.chainSlots l) ctx).ctx := by
  induction l generalizing c n ctx with
  | nil => exact absurd hl hc
  | cons x l ih =>
    cases n with
    | zero => simp at hn
    | succ n =>
      obtain ⟨rfl, next, hlink, hnext⟩ := path_cons.mp hl
      have hcl := fatIterCluster_eq sb cb d (window d (sb.clusterAddr c)) (fatClusterToLba sb c)
        (sb.clusterSize / 32) 0 (sb.clusterAddr c) ctx
        (fun k _ => by rw [window_apply, Nat.zero_add, Nat.add_zero]) (by rw [hlink.1.lba]; rfl)
      simp only [Nat.add_zero, clusterSize_div] at hcl
      simp only [fatIterChain, hlink.1.readCluster, bind, Except.bind, clusterSize_div, hcl]
      rw [chainSlots, List.flatMap_cons, scanSlots_append, clusterSlots]
      cases scanSlots cb d ((List.range (16 * sb.sectorsPerCluster)).map
          fun k => sb.clusterAddr c + 32 * k) ctx with
      | stop ctx => rfl
      | go ctx =>
        simp only [hlink.2]
        cases l with
        | nil =>
          obtain rfl : next = 0 := hnext
          rfl
        | cons y l =>
          have h0 := Chain.head_ne_zero hnext
          rw [if_neg h0]
          exact ih n hnext h0 (by simpa using hn) ctx

theorem fatIterRootSector_eq (sb : FatSuper) (cb : DirCallback γ) (buf : Bytes)
    (lba n off entries : Nat) (ctx : γ) (hoff : off + 32 * n ≤ 512)
    (hbuf : ∀ k < 32 * n, buf (off + k) = d (lba * 512 + off + k)) :
    ∃ e, fatIterRootSector sb cb buf lba n off entries ctx =
      match scanSlots cb d (((List.range n).map fun k => lba * 512 + off + 32 * k).take
          (sb.rootEntries - entries)) ctx with
      | .stop ctx => (.stop ctx, e)
      | .go ctx => if entries + n ≤ max entries sb.rootEntries then (.go ctx, entries + n)
          else (.stop ctx, e) := by
  induction n generalizing off entries ctx with
  | zero => exact ⟨0, by simp [fatIterRootSector, scanSlots]⟩
  | succ n ih =>
    by_cases hfull : sb.rootEntries ≤ entries
    · refine ⟨entries + 1, ?_⟩
      rw [fatIterRootSector, if_pos hfull, Nat.sub_eq_zero_of_le hfull, List.take_zero]
      simp only [scanSlots]
      rw [if_neg (by omega)]
    · obtain ⟨m, hm⟩ : ∃ m, sb.rootEntries - entries = m + 1 :=
        ⟨sb.rootEntries - (entries + 1), by omega⟩
      have hm' : sb.rootEntries - (entries + 1) = m := by omega
      have hsec : (lba * 512 + off) / 512 = lba := by omega
      have hmod : (lba * 512 + off) % 512 = off := by omega
      rw [map_slots_succ, hm, List.take_succ_cons, fatIterRootSector, if_neg hfull, scanSlots,
        hsec, hmod, fatVisit_congr fun k hk => hbuf k (by omega)]
      cases fatVisit cb d (lba * 512 + off) lba off ctx with
      | stop ctx => exact ⟨entries + 1, rfl⟩
      | go ctx =>
        obtain ⟨e, he⟩ := ih (off + 32) (entries + 1) ctx (by omega) fun k hk => by
          have h := hbuf (32 + k) (by omega)
          rwa [← Nat.add_assoc, ← Nat.add_assoc, Nat.add_assoc (lba * 512) off 32] at h
        refine ⟨e, ?_⟩
        rw [hm', ← Nat.add_assoc, Nat.add_assoc entries, Nat.add_comm 1 n,
          show max (entries + 1) sb.rootEntries = max entries sb.rootEntries by omega] at he
        exact he

theorem rootSectors_succ (base k n : Nat) :
    (List.range (n + 1)).flatMap (fun s => sectorSlots (base + (k + s))) =
      sectorSlots (base + k) ++
        (List.range n).flatMap fun s => sectorSlots (base + (k + 1 + s)) := by
  rw [List.range_succ_eq_map, List.flatMap_cons, Nat.add_zero, List.flatMap_map]
  refine congrArg _ (List.flatMap_congr fun s _ => ?_)
  rw [Nat.succ_eq_add_one, Nat.add_right_comm k 1 s, Nat.add_assoc k s 1]

theorem fatIterRoot_eq (sb : FatSuper) (cb : DirCallback γ) (d : Disk) (n k entries : Nat)
    (ctx : γ) (hk : k + n = sb.rootDirSectors) (hent : entries ≤ sb.rootEntries) :
    fatIterRoot sb cb d n k entries ctx = .ok (scanSlots cb d
      (((List.range n).flatMap fun s => sectorSlots (sb.rootDirStart + (k + s))).take
        (sb.rootEntries - entries)) ctx).ctx := by
  induction n generalizing k entries ctx with
  | zero => simp [fatIterRoot, scanSlots, Scan.ctx]
  | succ n ih =>
    have hdata := sb.sound.dataStart
    have hcount := sb.dataStart_le
    have hread := sb.readSectors_ok d (show sb.rootDirStart + k + 1 ≤ sb.sectorCount by omega)
    obtain ⟨e, he⟩ := fatIterRootSector_eq (d := d) sb cb
      (window d ((sb.rootDirStart + k) * 512)) (sb.rootDirStart + k) 16 0 entries ctx (by decide)
      fun j _ => by rw [window_apply, Nat.zero_add, Nat.add_zero]
    rw [Nat.add_zero] at he
    have hlen : (sectorSlots (sb.rootDirStart + k)).length = 16 := by simp [sectorSlots]
    rw [fatIterRoot, fatReadSector, hread]
    simp only [bind, Except.bind, sb.sound.bps]
    rw [show 512 / 32 = 16 from rfl, he, rootSectors_succ, List.take_append, hlen, scanSlots_append]
    rw [sectorSlots]
    cases scanSlots cb d ((((List.range 16).map fun j => (sb.rootDirStart + k) * 512 + 32 * j)).take
        (sb.rootEntries - entries)) ctx with
    | stop ctx => rfl
    | go ctx =>
      split_ifs with hle
      · rw [Nat.sub_sub]
        exact ih (k + 1) (entries + 16) ctx (by omega) (by omega)
      · rw [show sb.rootEntries - entries - 16 = 0 by omega, List.take_zero]
        rfl

theorem fatIterDir_disk (cb : DirCallback γ) (ctx : γ) (h : sb.DirSlots d c slots) :
    (if c = 0 ∧ sb.type ≠ .fat32 then fatIterRoot sb cb d sb.rootDirSectors 0 0 ctx
      else fatIterChain sb cb d sb.clusterCount c ctx) = .ok (scanSlots cb d slots ctx).ctx := by
  cases h with
  | root ht =>
    rw [if_pos ⟨rfl, ht⟩, fatIterRoot_eq sb cb d _ 0 0 ctx (Nat.zero_add _) (Nat.zero_le _)]
    simp only [Nat.zero_add, Nat.sub_zero, rootSlots]
  | chain hc0 hl =>
    rw [if_neg fun hh => hc0 hh.1]
    exact fatIterChain_eq _ hl hc0 hl.length_le ctx

theorem fatIterDir_spec {node : FatNode} {s : FatState} (cb : DirCallback γ) (ctx : γ)
    (h : sb.DirSlots s.disk node.firstCluster slots) :
    ∃ mem, fatIterDir sb cb node ctx s =
        (.ok (scanSlots cb s.disk slots ctx).ctx, { s with mem := mem }) ∨
      fatIterDir sb cb node ctx s = (.error .outOfMemory, { s with mem := mem }) := by
  obtain ⟨mem, hm | hm⟩ := malloc_cases s
  · refine ⟨mem, .inl ?_⟩
    rw [fatIterDir, bind_ok hm]
    exact onDisk_run (fatIterDir_disk cb ctx h)
  · exact ⟨mem, .inr (by rw [fatIterDir, bind_error hm])⟩

end FatSuper

end CfKernel.Fat
