import CfKernel.Fat.Slots
import CfKernel.Fat.FileSpec

/-!
# What the directory operations do

`fat_lookup_vn` finds the first live slot with the name. `fat_find_free_slot` takes the first free
slot or extends the directory. `fat_create_vn` fills that slot (`EntryAdded`) and `fat_unlink_vn`
marks one as deleted and frees its chain (`EntryRemoved`).
-/

namespace CfKernel.Fat

open Lib Lib.Eff

namespace FatSuper

variable {sb : FatSuper} {a b c x n off lba : Nat} {d d' d'' : Disk} {l l' p q slots : List Nat}
variable {s : FatState} {dir : FatNode}

theorem mem_sectorSlots (h : a ∈ sectorSlots lba) :
    a % 32 = 0 ∧ lba * 512 ≤ a ∧ a + 32 ≤ (lba + 1) * 512 := by
  obtain ⟨k, hk, rfl⟩ := List.mem_map.mp h
  have := List.mem_range.mp hk
  omega

theorem mem_rootSlots (h : a ∈ sb.rootSlots) :
    a % 32 = 0 ∧ sb.rootDirStart * 512 ≤ a ∧ a + 32 ≤ sb.dataStart * 512 := by
  obtain ⟨k, hk, ha⟩ := List.mem_flatMap.mp (List.mem_of_mem_take h)
  have hk' := List.mem_range.mp hk
  obtain ⟨h0, hlo, hhi⟩ := mem_sectorSlots ha
  have hdata := sb.sound.dataStart
  have hstart : sb.rootDirStart * 512 ≤ (sb.rootDirStart + k) * 512 :=
    Nat.mul_le_mul_right _ (Nat.le_add_right _ _)
  have hend : (sb.rootDirStart + k + 1) * 512 ≤ sb.dataStart * 512 :=
    Nat.mul_le_mul_right _ (by omega)
  exact ⟨h0, hstart.trans hlo, hhi.trans hend⟩

theorem mem_clusterSlots (h : a ∈ sb.clusterSlots c) :
    a % 32 = 0 ∧ ∀ k < 32, sb.InCluster c (a + k) := by
  obtain ⟨j, hj, rfl⟩ := List.mem_map.mp h
  have hj' := List.mem_range.mp hj
  refine ⟨?_, fun k hk => ⟨by omega, ?_⟩⟩
  · unfold clusterAddr
    omega
  · rw [clusterSize_eq]
    omega

theorem mem_chainSlots : a ∈ sb.chainSlots l ↔ ∃ x ∈ l, a ∈ sb.clusterSlots x := List.mem_flatMap

theorem DirSlots.slot (h : sb.DirSlots d c slots) (ha : a ∈ slots) : sb.Slot a := by
  have hdata := sb.dataStart_le
  cases h with
  | root ht =>
    have := mem_rootSlots ha
    exact ⟨this.1, this.2.1, by omega⟩
  | chain hc hl =>
    obtain ⟨x, hx, hax⟩ := mem_chainSlots.mp ha
    have hm := mem_clusterSlots hax
    have h0 := hm.2 0 (by decide)
    rw [Nat.add_zero] at h0
    refine ⟨hm.1, h0.ge, ?_⟩
    have hsec := (hl.isCluster hx).sectors_le
    have hvol := sb.sound.volume_le
    have hlt := h0.2
    rw [clusterSize_eq] at hlt
    unfold clusterAddr at hlt
    refine Nat.div_lt_of_lt_mul ?_
    omega

theorem fatAllocVnode_cases (s : FatState) :
    ∃ mem, fatAllocVnode s = (.ok (), { s with mem := mem }) ∨
      fatAllocVnode s = (.error .outOfMemory, { s with mem := mem }) := by
  obtain ⟨mem, hm | hm⟩ := malloc_cases s
  · obtain ⟨mem', hm' | hm'⟩ := malloc_cases { s with mem := mem }
    · exact ⟨mem', .inl (by rw [fatAllocVnode, bind_ok hm, hm'])⟩
    · exact ⟨mem', .inr (by rw [fatAllocVnode, bind_ok hm, hm'])⟩
  · exact ⟨mem, .inr (by rw [fatAllocVnode, bind_error hm])⟩

theorem fatLookupVn_spec (name : List UInt8) (hdir : dir.isDir = true)
    (h : sb.DirSlots s.disk dir.firstCluster slots) :
    ∃ mem, (∃ a, (liveSlots s.disk slots).find?
          (fun a => strcasecmpEq (entryName s.disk a) name) = some a ∧
        fatLookupVn sb dir name s = (.ok (nodeAt s.disk a), { s with mem := mem })) ∨
      ((liveSlots s.disk slots).find? (fun a => strcasecmpEq (entryName s.disk a) name) = none ∧
        fatLookupVn sb dir name s = (.error .notFound, { s with mem := mem })) ∨
      fatLookupVn sb dir name s = (.error .outOfMemory, { s with mem := mem }) := by
  have hnot : ¬ dir.isDir = false := by rw [hdir]; decide
  obtain ⟨mem, hit | hit⟩ := fatIterDir_spec (fatLookupCb name) none h
  · rw [scanSlots_lookup] at hit
    cases hf : (liveSlots s.disk slots).find? fun a => strcasecmpEq (entryName s.disk a) name with
    | none =>
      rw [hf] at hit
      exact ⟨mem, .inr (.inl ⟨rfl, by rw [fatLookupVn, if_neg hnot, bind_ok hit]; rfl⟩)⟩
    | some a =>
      rw [hf] at hit
      have hrest : fatLookupVn sb dir name s = (fatAllocVnode >>= fun _ =>
          pure (nodeAt s.disk a)) { s with mem := mem } := by
        rw [fatLookupVn, if_neg hnot, bind_ok hit]
        rfl
      obtain ⟨mem', hvn | hvn⟩ := fatAllocVnode_cases { s with mem := mem }
      · exact ⟨mem', .inl ⟨a, rfl, by rw [hrest, bind_ok hvn]; rfl⟩⟩
      · exact ⟨mem', .inr (.inr (by rw [hrest, bind_error hvn]))⟩
  · exact ⟨mem, .inr (.inr (by rw [fatLookupVn, if_neg hnot, bind_error hit]))⟩

theorem fatSectorSlot_eq (d : Disk) (buf : Bytes) (n off base : Nat)
    (hbuf : ∀ k < 32 * n, buf (off + k) = d (base + off + k)) :
    fatSectorSlot buf n off = (((List.range n).map fun k => base + off + 32 * k).find?
      fun a => slotIsFree (d a)).map fun a => a - base := by
  induction n generalizing off with
  | zero => rfl
  | succ n ih =>
    have h0 := hbuf 0 (by omega)
    rw [Nat.add_zero, Nat.add_zero] at h0
    rw [fatSectorSlot, map_slots_succ, List.find?_cons, h0]
    split_ifs with hf
    · rw [hf, Option.map_some, Nat.add_sub_cancel_left]
    · rw [Bool.not_eq_true] at hf
      rw [hf, ih (off + 32) fun k hk => ?_, ← Nat.add_assoc base off 32]
      have h := hbuf (32 + k) (by omega)
      rwa [← Nat.add_assoc, ← Nat.add_assoc, Nat.add_assoc base off 32] at h

theorem fatSectorSlot_sector (d : Disk) (lba : Nat) :
    fatSectorSlot (window d (lba * 512)) 16 0 =
      ((sectorSlots lba).find? fun a => slotIsFree (d a)).map fun a => a - lba * 512 := by
  have h := fatSectorSlot_eq d (window d (lba * 512)) 16 0 (lba * 512)
    fun k _ => by rw [window_apply, Nat.zero_add, Nat.add_zero]
  rwa [Nat.add_zero] at h

theorem sectorSlots_find {g : Nat → Bool} (h : (sectorSlots lba).find? g = some a) :
    a / 512 = lba ∧ a % 512 = a - lba * 512 := by
  obtain ⟨-, hlo, hhi⟩ := mem_sectorSlots (List.mem_of_find?_eq_some h)
  omega

theorem fatClusterSlot_eq (n lba : Nat) (hend : lba + n ≤ sb.sectorCount) :
    fatClusterSlot sb d n lba =
      .ok ((((List.range n).flatMap fun s => sectorSlots (lba + s)).find?
        fun a => slotIsFree (d a)).map fun a => (a / 512, a % 512)) := by
  induction n generalizing lba with
  | zero => rfl
  | succ n ih =>
    have hsplit : (List.range (n + 1)).flatMap (fun s => sectorSlots (lba + s)) =
        sectorSlots lba ++ (List.range n).flatMap fun s => sectorSlots (lba + 1 + s) := by
      rw [List.range_succ_eq_map, List.flatMap_cons, Nat.add_zero, List.flatMap_map]
      refine congrArg _ (List.flatMap_congr fun s _ => ?_)
      rw [Nat.succ_eq_add_one, Nat.add_right_comm lba 1 s, Nat.add_assoc lba s 1]
    rw [fatClusterSlot, fatReadSector, sb.readSectors_ok d (by omega), hsplit, List.find?_append]
    simp only [bind, Except.bind, sb.sound.bps]
    rw [show 512 / 32 = 16 from rfl, fatSectorSlot_sector]
    cases hf : (sectorSlots lba).find? fun a => slotIsFree (d a) with
    | some a =>
      obtain ⟨h1, h2⟩ := sectorSlots_find hf
      simp only [Option.map_some, Option.some_or, h1, h2]
    | none =>
      simp only [Option.map_none, Option.none_or]
      exact ih (lba + 1) (by omega)

theorem clusterSlots_eq (sb : FatSuper) (c : Nat) :
    sb.clusterSlots c = (List.range sb.sectorsPerCluster).flatMap fun s =>
      sectorSlots (sb.dataStart + (c - 2) * sb.sectorsPerCluster + s) := by
  have key : ∀ n base, (List.range (16 * n)).map (fun k => base * 512 + 32 * k) =
      (List.range n).flatMap fun s => sectorSlots (base + s) := by
    intro n base
    induction n with
    | zero => rfl
    | succ n ih =>
      have h16 : List.range (16 * (n + 1)) = List.range (16 * n) ++ (List.range 16).map (16 * n + ·) :=
        List.range_add
      rw [h16, List.map_append, ih, List.range_succ (n := n), List.flatMap_append,
        List.flatMap_singleton, List.map_map]
      refine congrArg _ (List.map_congr_left fun k _ => ?_)
      simp only [Function.comp_apply]
      omega
  exact key _ _

theorem fatChainSlot_succ {next : Nat} (hlink : sb.Link s.disk c next) (m : Nat) :
    fatChainSlot sb (m + 1) c s =
      match (sb.clusterSlots c).find? fun a => slotIsFree (s.disk a) with
      | some a => (.ok (a / 512, a % 512), s)
      | none => (if next ≠ 0 then fatChainSlot sb m next
          else fatAppendCluster sb c >>= fun x =>
            pure (fatClusterToLba sb x, 0) : FatM (Nat × Nat)) s := by
  have hend := hlink.1.sectors_le.trans sb.sound.volume_le
  have hslot := fatClusterSlot_eq (d := s.disk) sb.sectorsPerCluster
    (sb.dataStart + (c - 2) * sb.sectorsPerCluster) hend
  rw [← clusterSlots_eq, ← hlink.1.lba] at hslot
  rw [fatChainSlot, bind_ok (onDisk_run hslot)]
  cases (sb.clusterSlots c).find? fun a => slotIsFree (s.disk a) with
  | some a => rfl
  | none => exact bind_ok (onDisk_run hlink.2)

theorem fatChainSlot_spec {f : Nat} (n : Nat) (hl : sb.Chain s.disk f (p ++ c :: q))
    (hn : (c :: q).length ≤ n) :
    (∃ a, (sb.chainSlots (c :: q)).find? (fun a => slotIsFree (s.disk a)) = some a ∧
        fatChainSlot sb n c s = (.ok (a / 512, a % 512), s)) ∨
      ((sb.chainSlots (c :: q)).find? (fun a => slotIsFree (s.disk a)) = none ∧
        ∃ mem, (∃ x d', fatChainSlot sb n c s =
            (.ok (sb.clusterAddr x / 512, sb.clusterAddr x % 512),
              { s with disk := d', mem := mem }) ∧
          sb.Grown s.disk d' (p ++ c :: q) (p ++ c :: q ++ [x]) ∧
          sb.Chain d' f (p ++ c :: q ++ [x])) ∨
        ∃ e, fatChainSlot sb n c s = (.error e, { s with mem := mem }) ∧
          (e = .noSpaceLeft → sb.Full s.disk)) := by
  induction q generalizing p c n with
  | nil =>
    obtain ⟨_, -, hc⟩ := path_append.mp hl
    obtain ⟨rfl, next, hlink, hnext⟩ := path_cons.mp hc
    obtain rfl : next = 0 := hnext
    obtain ⟨m, rfl⟩ : ∃ m, n = m + 1 := ⟨n - 1, by simp at hn; omega⟩
    rw [fatChainSlot_succ hlink m, chainSlots, List.flatMap_singleton]
    rename_i c
    cases hf : (sb.clusterSlots c).find? fun a => slotIsFree (s.disk a) with
    | some a => exact .inl ⟨a, rfl, rfl⟩
    | none =>
      refine .inr ⟨rfl, ?_⟩
      obtain ⟨mem, ⟨x, d', hrun, hg, hch⟩ | ⟨e, hrun, hfull⟩⟩ := fatAppendCluster_spec hl
      · refine ⟨mem, .inl ⟨x, d', ?_, hg, hch⟩⟩
        have hx : sb.IsCluster x := hch.isCluster (by simp)
        have h1 : sb.clusterAddr x / 512 = fatClusterToLba sb x := by
          rw [hx.lba, clusterAddr, Nat.mul_div_cancel _ (by decide)]
        have h2 : sb.clusterAddr x % 512 = 0 := Nat.mul_mod_left _ _
        simp only [ne_eq, not_true_eq_false, if_false, h1, h2]
        rw [bind_ok hrun]
        rfl
      · refine ⟨mem, .inr ⟨e, ?_, hfull⟩⟩
        simp only [ne_eq, not_true_eq_false, if_false]
        rw [bind_error hrun]
  | cons y q ih =>
    obtain ⟨_, -, hc⟩ := path_append.mp hl
    obtain ⟨rfl, next, hlink, hnext⟩ := path_cons.mp hc
    have h0 := Chain.head_ne_zero hnext
    cases hnext.head_eq
    obtain ⟨m, rfl⟩ : ∃ m, n = m + 1 := ⟨n - 1, by simp at hn; omega⟩
    rw [fatChainSlot_succ hlink m, chainSlots, List.flatMap_cons, List.find?_append]
    rename_i c
    cases hf : (sb.clusterSlots c).find? fun a => slotIsFree (s.disk a) with
    | some a => exact .inl ⟨a, rfl, rfl⟩
    | none =>
      have happ : ∀ r, p ++ c :: r = (p ++ [c]) ++ r := fun r => by simp
      rw [happ] at hl ⊢
      rw [Option.none_or]
      simp only [if_pos h0]
      exact ih m hl (by simpa using hn)

theorem fatRootSectorSlot_eq (sb : FatSuper) (d : Disk) (buf : Bytes) (base n off entries : Nat)
    (hbuf : ∀ k < 32 * n, buf (off + k) = d (base + off + k)) :
    ∃ e, fatRootSectorSlot sb buf n off entries =
      match (((List.range n).map fun k => base + off + 32 * k).take
          (sb.rootEntries - entries)).find? fun a => slotIsFree (d a) with
      | some a => .ok (some (a - base), e)
      | none => if entries + n ≤ max entries sb.rootEntries then .ok (none, entries + n)
          else .error .noSpaceLeft := by
  induction n generalizing off entries with
  | zero => exact ⟨0, by simp [fatRootSectorSlot]⟩
  | succ n ih =>
    by_cases hfull : sb.rootEntries ≤ entries
    · refine ⟨0, ?_⟩
      rw [fatRootSectorSlot, if_pos hfull, Nat.sub_eq_zero_of_le hfull, List.take_zero,
        List.find?_nil]
      rw [if_neg (by omega)]
    · obtain ⟨m, hm⟩ : ∃ m, sb.rootEntries - entries = m + 1 :=
        ⟨sb.rootEntries - (entries + 1), by omega⟩
      have hm' : sb.rootEntries - (entries + 1) = m := by omega
      have h0 := hbuf 0 (by omega)
      rw [Nat.add_zero, Nat.add_zero] at h0
      rw [map_slots_succ, hm, List.take_succ_cons, List.find?_cons, fatRootSectorSlot,
        if_neg hfull, h0]
      cases hf : slotIsFree (d (base + off)) with
      | true => exact ⟨entries + 1, by simp only [if_true, Nat.add_sub_cancel_left]⟩
      | false =>
        obtain ⟨e, he⟩ := ih (off + 32) (entries + 1) fun k hk => by
          have h := hbuf (32 + k) (by omega)
          rwa [← Nat.add_assoc, ← Nat.add_assoc, Nat.add_assoc base off 32] at h
        refine ⟨e, ?_⟩
        rw [hm', ← Nat.add_assoc, Nat.add_assoc entries, Nat.add_comm 1 n,
          show max (entries + 1) sb.rootEntries = max entries sb.rootEntries by omega] at he
        rw [if_neg (by decide), he]

theorem fatRootSlot_eq (sb : FatSuper) (d : Disk) (n k entries : Nat)
    (hk : k + n = sb.rootDirSectors) (hent : entries ≤ sb.rootEntries) :
    fatRootSlot sb d n k entries =
      match (((List.range n).flatMap fun s => sectorSlots (sb.rootDirStart + (k + s))).take
          (sb.rootEntries - entries)).find? fun a => slotIsFree (d a) with
      | some a => .ok (a / 512, a % 512)
      | none => .error .noSpaceLeft := by
  induction n generalizing k entries with
  | zero => simp [fatRootSlot]
  | succ n ih =>
    have hdata := sb.sound.dataStart
    have hcount := sb.dataStart_le
    have hread := sb.readSectors_ok d (show sb.rootDirStart + k + 1 ≤ sb.sectorCount by omega)
    obtain ⟨e, he⟩ := fatRootSectorSlot_eq sb d (window d ((sb.rootDirStart + k) * 512))
      ((sb.rootDirStart + k) * 512) 16 0 entries
      fun j _ => by rw [window_apply, Nat.zero_add, Nat.add_zero]
    rw [Nat.add_zero] at he
    rw [fatRootSlot, fatReadSector, hread, rootSectors_succ, List.take_append, List.find?_append]
    simp only [bind, Except.bind, sb.sound.bps]
    rw [show 512 / 32 = 16 from rfl, he, ← sectorSlots]
    cases hf : ((sectorSlots (sb.rootDirStart + k)).take (sb.rootEntries - entries)).find?
        fun a => slotIsFree (d a) with
    | some a =>
      obtain ⟨-, hlo, hhi⟩ := mem_sectorSlots
        (List.mem_of_mem_take (List.mem_of_find?_eq_some hf))
      have h1 : a / 512 = sb.rootDirStart + k := by omega
      have h2 : a % 512 = a - (sb.rootDirStart + k) * 512 := by omega
      simp only [Option.some_or, h1, h2]
    | none =>
      have hlen : (sectorSlots (sb.rootDirStart + k)).length = 16 := by simp [sectorSlots]
      rw [Option.none_or, hlen]
      split_ifs with hle
      · rw [Nat.sub_sub]
        exact ih (k + 1) (entries + 16) (by omega) (by omega)
      · rw [show sb.rootEntries - entries - 16 = 0 by omega, List.take_zero]
        rfl

/-- The slot `fat_find_free_slot` returns for a directory, and the disk it leaves. -/
inductive SlotTaken (sb : FatSuper) (d : Disk) (c : Nat) (slots : List Nat) : Disk → Nat → Prop where
  | found {a : Nat} : slots.find? (fun a => slotIsFree (d a)) = some a → SlotTaken sb d c slots d a
  | appended {l : List Nat} {x : Nat} {d' : Disk} : c ≠ 0 → sb.Chain d c l →
      slots.find? (fun a => slotIsFree (d a)) = none → sb.Grown d d' l (l ++ [x]) →
      sb.Chain d' c (l ++ [x]) → SlotTaken sb d c slots d' (sb.clusterAddr x)

/-- `fat_find_free_slot`: the first free slot, or the first slot of a cluster appended to the
directory; a fixed root directory is never extended. -/
theorem fatFindFreeSlot_spec (h : sb.DirSlots s.disk dir.firstCluster slots) :
    ∃ mem, (∃ d' a, fatFindFreeSlot sb dir s =
          (.ok (a / 512, a % 512), { s with disk := d', mem := mem }) ∧
        sb.SlotTaken s.disk dir.firstCluster slots d' a) ∨
      ∃ e, fatFindFreeSlot sb dir s = (.error e, { s with mem := mem }) ∧
        slots.find? (fun a => slotIsFree (s.disk a)) = none ∧
        (e = .noSpaceLeft → dir.firstCluster = 0 ∨ sb.Full s.disk) := by
  generalize hc : dir.firstCluster = c at h ⊢
  cases h with
  | root ht =>
    have hroot := fatRootSlot_eq sb s.disk sb.rootDirSectors 0 0 (Nat.zero_add _) (Nat.zero_le _)
    simp only [Nat.zero_add, Nat.sub_zero] at hroot
    rw [← rootSlots] at hroot
    rw [fatFindFreeSlot, if_pos ⟨hc, ht⟩]
    cases hf : sb.rootSlots.find? fun a => slotIsFree (s.disk a) with
    | some a =>
      rw [hf] at hroot
      exact ⟨s.mem, .inl ⟨s.disk, a, onDisk_run hroot, .found hf⟩⟩
    | none =>
      rw [hf] at hroot
      exact ⟨s.mem, .inr ⟨.noSpaceLeft, onDisk_fail hroot, rfl, fun _ => .inl rfl⟩⟩
  | chain hc0 hl =>
    rename_i l
    rw [fatFindFreeSlot, if_neg fun hh => hc0 (hc ▸ hh.1), if_neg (hc ▸ hc0), hc]
    cases l with
    | nil => exact absurd hl hc0
    | cons y q =>
      cases hl.head_eq
      rcases fatChainSlot_spec (p := []) sb.clusterCount hl hl.length_le with
        ⟨a, hf, hrun⟩ | ⟨hf, mem, ⟨x, d', hrun, hg, hch⟩ | ⟨e, hrun, hfull⟩⟩
      · exact ⟨s.mem, .inl ⟨s.disk, a, hrun, .found hf⟩⟩
      · exact ⟨mem, .inl ⟨d', _, hrun, .appended hc0 hl hf hg hch⟩⟩
      · exact ⟨mem, .inr ⟨e, hrun, hf, fun hns => .inr (hfull hns)⟩⟩

theorem clusterAddr_mem_clusterSlots (sb : FatSuper) (x : Nat) :
    sb.clusterAddr x ∈ sb.clusterSlots x :=
  List.mem_map.mpr ⟨0, List.mem_range.mpr (by have := sb.sound.spc_pos; omega), by simp⟩

theorem SlotTaken.dirSlots (h : sb.DirSlots d c slots) (ht : sb.SlotTaken d c slots d' a) :
    ∃ slots', sb.DirSlots d' c slots' ∧ a ∈ slots' := by
  cases ht with
  | found hf => exact ⟨slots, h, List.mem_of_find?_eq_some hf⟩
  | appended hc hl hf hg hch =>
    exact ⟨_, .chain hc hch, mem_chainSlots.mpr ⟨_, by simp, sb.clusterAddr_mem_clusterSlots _⟩⟩

theorem DirSlots.apart (h : sb.DirSlots d c slots) (ha : a ∈ slots) (hx : sb.Free d x) {k : Nat}
    (hk : k < 32) : ¬ sb.InCluster x (a + k) := by
  intro hin
  cases h with
  | root ht =>
    have h1 := hin.ge_data
    have h2 := (mem_rootSlots ha).2.2
    omega
  | chain hc hl =>
    obtain ⟨y, hy, hay⟩ := mem_chainSlots.mp ha
    have := inCluster_unique hx.1 (hl.isCluster hy) hin ((mem_clusterSlots hay).2 k hk)
    exact hx.not_mem hl (this ▸ hy)

end FatSuper

end CfKernel.Fat
