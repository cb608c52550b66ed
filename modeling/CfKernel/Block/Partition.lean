import CfKernel.Block.Device

/-!
# The partition table

`partition_scan` reads four entries of a boot sector nobody vouches for. An entry becomes a device
only when it lies on the disk behind sector 0 and apart from the entries accepted before it, and
the accesses of the devices stay in their ranges: what is written through one partition is not seen
through another, and sector 0 stays as it is.
-/

namespace CfKernel.Block

open Lib Lib.Eff Function

structure MbrEntry where
  status : UInt8
  type : UInt8
  startLba : Nat
  sectorCount : Nat

def mbrEntry (sector : Bytes) (i : Fin 4) : MbrEntry where
  status := sector (446 + i * 16)
  type := sector (446 + i * 16 + 4)
  startLba := le32 sector (446 + i * 16 + 8)
  sectorCount := le32 sector (446 + i * 16 + 12)

/-- The entry is in use, of a type that is read, and lies on the disk behind sector 0. -/
def MbrEntry.Usable (e : MbrEntry) (diskSectors : Nat) : Prop :=
  ¬ (e.type = 0 ∨ e.sectorCount = 0) ∧
  ¬ ((e.status ≠ 0 ∧ e.status ≠ 0x80) ∨ e.type = 0x05 ∨ e.type = 0x0F ∨ e.type = 0x85) ∧
  ¬ (e.startLba = 0 ∨ diskSectors ≤ e.startLba ∨ diskSectors - e.startLba < e.sectorCount)

instance (e : MbrEntry) (n : Nat) : Decidable (e.Usable n) :=
  inferInstanceAs (Decidable (_ ∧ _ ∧ _))

/-- The entries accepted so far, by their slots. -/
structure Accepted where
  starts : Fin 4 → Nat
  counts : Fin 4 → Nat

def Accepted.add (a : Accepted) (i : Fin 4) (e : MbrEntry) : Accepted :=
  ⟨update a.starts i e.startLba, update a.counts i e.sectorCount⟩

def Accepted.Overlaps (a : Accepted) (i : Fin 4) (e : MbrEntry) : Prop :=
  ∃ j < i, a.counts j ≠ 0 ∧ e.startLba < u32 (a.starts j + a.counts j) ∧
    a.starts j < u32 (e.startLba + e.sectorCount)

instance (a : Accepted) (i : Fin 4) (e : MbrEntry) : Decidable (a.Overlaps i e) :=
  inferInstanceAs (Decidable (∃ _, _))

variable {ι σ : Type} [DecidableEq ι] (drv : Driver ι σ)

/-- One turn of the rollback: a filled slot is unregistered and cleared. -/
def rollbackSlot (i : Fin 4) (s : Blocks ι σ) : Blocks ι σ :=
  if (s.partitions i).isSome then
    let t := (blockdevUnregister (.partition i) s).2
    { t with partitions := update t.partitions i none }
  else s

def rollback (s : Blocks ι σ) : Blocks ι σ :=
  { (List.finRange 4).foldl (fun t i => rollbackSlot i t) s with partitionDisk := none }

def withSlot (d : ι) (i : Fin 4) (e : MbrEntry) (s : Blocks ι σ) : Blocks ι σ :=
  { s with partitions := update s.partitions i (some ⟨d, e.startLba, e.sectorCount⟩) }

/-- The turns of the scan for the slots `is`, with the number of devices registered so far. -/
def scanEntries (d : ι) (sector : Bytes) : List (Fin 4) → Accepted → Nat → BlockM ι σ Nat
  | [], _, found => pure found
  | i :: is, a, found =>
    let e := mbrEntry sector i
    if ¬ e.Usable (drv.sectorCount d) ∨ a.Overlaps i e then scanEntries d sector is a found
    else do
      modify (withSlot d i e)
      match ← attempt (blockdevRegister drv (.partition i)) with
      | .error err => do
        modify rollback
        fail err
      | .ok _ => scanEntries d sector is (a.add i e) (found + 1)

def partitionScan (disk : Option ι) : BlockM ι σ Nat := fun s =>
  match disk with
  | none => (.error .invalidArgument, s)
  | some d =>
    if drv.sectorSize d ≠ 512 ∨ drv.sectorCount d = 0 ∨ drv.name d ≠ some "hd0" then
      (.error .invalidArgument, s)
    else match s.partitionDisk with
      | some d' =>
        if d' ≠ d then (.error .busy, s)
        else (.ok ((List.finRange 4).countP fun i => (s.partitions i).isSome), s)
      | none =>
        (do
          match ← diskRead drv d 0 1 (some fun _ => 0) with
          | none => fail .invalidArgument
          | some sector =>
            if sector 510 ≠ 0x55 ∨ sector 511 ≠ 0xAA then fail .notFound
            else do
              modify fun s => { s with partitionDisk := some d }
              scanEntries drv d sector (List.finRange 4) ⟨fun _ => 0, fun _ => 0⟩ 0) s

inductive BlockRequest (ι : Type) where
  | scan (disk : Option ι)
  | read (i : Fin 4) (lba count : Nat) (buf : Option Bytes)
  | write (i : Fin 4) (lba count : Nat) (buf : Option Bytes)

def blockStep : BlockRequest ι → Blocks ι σ → Blocks ι σ
  | .scan disk, s => (partitionScan drv disk s).2
  | .read i lba count buf, s => (blockdevRead drv (.partition i) lba count buf s).2
  | .write i lba count buf, s => (blockdevWrite drv (.partition i) lba count buf s).2

/-- Before the first scan: any disks are registered, the partition slots are zeros. -/
def bootBlocks (drive : σ) (disks : List ι) : Blocks ι σ where
  drive := drive
  registry := disks.map .disk
  partitions _ := none
  partitionDisk := none

/-- The registered partitions lie behind sector 0 of the scanned disk, apart from each other. -/
structure Sound (s : Blocks ι σ) : Prop where
  inside : ∀ {i p}, s.partitions i = some p → 0 < p.startLba ∧
    p.startLba + p.sectorCount ≤ drv.sectorCount p.disk
  disk : ∀ {i p}, s.partitions i = some p → s.partitionDisk = some p.disk
  apart : ∀ {i j p q}, i ≠ j → s.partitions i = some p → s.partitions j = some q →
    p.startLba + p.sectorCount ≤ q.startLba ∨ q.startLba + q.sectorCount ≤ p.startLba
  registered : ∀ i, s.registry.count (.partition i) = (s.partitions i).isSome.toNat

variable {drv} {s t : Blocks ι σ}

theorem sound_boot (drive : σ) (disks : List ι) : Sound drv (bootBlocks drive disks) where
  inside h := by cases h
  disk h := by cases h
  apart _ h := by cases h
  registered i := by
    refine List.count_eq_zero.mpr fun hi => ?_
    obtain ⟨d, -, hd⟩ := List.mem_map.mp hi
    cases hd

/-! ## The scan -/

/-- No partition device is in the registry but those of filled slots, each at most once. -/
def AtMostFilled (s : Blocks ι σ) : Prop :=
  ∀ i, s.registry.count (.partition i) ≤ (s.partitions i).isSome.toNat

theorem rollbackSlot_spec (i : Fin 4) (h : AtMostFilled s) :
    AtMostFilled (rollbackSlot i s) ∧ (rollbackSlot i s).drive = s.drive ∧
      (rollbackSlot i s).partitions = update s.partitions i none := by
  have hi := h i
  by_cases hfilled : (s.partitions i).isSome = true
  · rw [hfilled] at hi
    have herase : (blockdevUnregister (.partition i) s).2 =
        { s with registry := s.registry.erase (.partition i) } := by
      rw [blockdevUnregister]
      split_ifs with hmem
      · rfl
      · rw [List.erase_of_not_mem hmem]
    rw [rollbackSlot, if_pos hfilled, herase]
    refine ⟨fun j => ?_, rfl, rfl⟩
    dsimp only
    by_cases hj : j = i
    · rw [hj, update_self, List.count_erase_self]
      exact Nat.sub_le_of_le_add hi
    · rw [update_of_ne hj, List.count_erase_of_ne fun heq => hj (by cases heq; rfl)]
      exact h j
  · rw [rollbackSlot, if_neg hfilled]
    rw [Bool.not_eq_true, Option.isSome_eq_false_iff, Option.isNone_iff_eq_none] at hfilled
    exact ⟨h, rfl, by rw [← hfilled, update_eq_self]⟩

theorem rollback_spec (drv : Driver ι σ) (h : AtMostFilled s) :
    (rollback s).drive = s.drive ∧ (rollback s).partitions = (fun _ => none) ∧
      Sound drv (rollback s) := by
  have hslots : ∀ is : List (Fin 4), ∀ t : Blocks ι σ, AtMostFilled t →
      AtMostFilled (is.foldl (fun t i => rollbackSlot i t) t) ∧
      (is.foldl (fun t i => rollbackSlot i t) t).drive = t.drive ∧
      ∀ j, (is.foldl (fun t i => rollbackSlot i t) t).partitions j =
        if j ∈ is then none else t.partitions j := by
    intro is
    induction is with
    | nil => exact fun t ht => ⟨ht, rfl, fun j => rfl⟩
    | cons i is ih =>
      intro t ht
      obtain ⟨hfilled, hdrive, hparts⟩ := rollbackSlot_spec i ht
      obtain ⟨hfilled', hdrive', hparts'⟩ := ih (rollbackSlot i t) hfilled
      refine ⟨hfilled', hdrive'.trans hdrive, fun j => ?_⟩
      rw [List.foldl_cons, hparts' j, hparts]
      by_cases hj : j = i
      · simp [hj]
      · simp [hj]
  obtain ⟨hfilled, hdrive, hparts⟩ := hslots (List.finRange 4) s h
  have hnone : (rollback s).partitions = fun _ => none := by
    funext j
    exact (hparts j).trans (if_pos (List.mem_finRange j))
  have hat : ∀ {i p}, (rollback s).partitions i ≠ some p := by
    intro i p hi
    rw [hnone] at hi
    cases hi
  refine ⟨hdrive, hnone, fun hi => absurd hi hat, fun hi => absurd hi hat,
    fun _ hi => absurd hi hat, fun i => ?_⟩
  have hi := hfilled i
  change (rollback s).registry.count (.partition i) ≤ ((rollback s).partitions i).isSome.toNat at hi
  rw [hnone] at hi ⊢
  exact Nat.le_zero.mp hi

/-- Before a turn of the scan: the slots hold the accepted entries, all before the turn's slots. -/
structure Scanning (drv : Driver ι σ) (d : ι) (is : List (Fin 4)) (a : Accepted)
    (s : Blocks ι σ) : Prop where
  sound : Sound drv s
  disk : s.partitionDisk = some d
  slots : ∀ j, s.partitions j = if a.counts j = 0 then none else some ⟨d, a.starts j, a.counts j⟩
  before : ∀ j, a.counts j ≠ 0 → ∀ i ∈ is, j < i

variable {d : ι} {a : Accepted} {i : Fin 4} {is : List (Fin 4)} {e : MbrEntry}

section

variable (h : Scanning drv d (i :: is) a s)
include h

theorem Scanning.slot_free : s.partitions i = none := by
  have hcount : a.counts i = 0 := by
    by_contra hne
    exact lt_irrefl i (h.before i hne i (List.mem_cons_self ..))
  rw [h.slots, if_pos hcount]

theorem Scanning.atMostFilled (e : MbrEntry) : AtMostFilled (withSlot d i e s) := by
  intro j
  have hj := (h.sound.registered j).le
  by_cases hji : j = i
  · rw [hji, h.slot_free] at hj
    rw [hji]
    exact hj.trans (Nat.zero_le _)
  · change _ ≤ (update s.partitions i _ j).isSome.toNat
    rwa [update_of_ne hji]

/-- An accepted entry lies apart from all accepted before; the sums of the test do not wrap. -/
theorem Scanning.apart (he : e.Usable (drv.sectorCount d))
    (hover : ¬ a.Overlaps i e) {j : Fin 4} {q : MbrPartition ι} (hq : s.partitions j = some q) :
    e.startLba + e.sectorCount ≤ q.startLba ∨ q.startLba + q.sectorCount ≤ e.startLba := by
  have hlt := drv.sectorCount_lt d
  have hin := (h.sound.inside hq).2
  have hslot := h.slots j
  rw [hq] at hslot
  split_ifs at hslot with hcount
  cases hslot
  dsimp only at hin ⊢
  obtain ⟨-, -, hrange⟩ := he
  by_contra hboth
  refine hover ⟨j, h.before j hcount i (List.mem_cons_self ..), hcount, ?_, ?_⟩
  · rw [u32_of_lt (hin.trans_lt hlt)]
    omega
  · rw [u32_of_lt (by omega)]
    omega

theorem Scanning.add (hsorted : (i :: is).Pairwise (· < ·))
    (he : e.Usable (drv.sectorCount d)) (hover : ¬ a.Overlaps i e) :
    Scanning drv d is (a.add i e)
      { withSlot d i e s with registry := .partition i :: s.registry } := by
  have hfree := h.slot_free
  have hrange := he.2.2
  have hcount : e.sectorCount ≠ 0 := fun h0 => he.1 (.inr h0)
  have hcases : ∀ {j q}, update s.partitions i
      (some ⟨d, e.startLba, e.sectorCount⟩) j = some q →
      (j = i ∧ q = ⟨d, e.startLba, e.sectorCount⟩) ∨ (j ≠ i ∧ s.partitions j = some q) := by
    intro j q hj
    rcases update_at_iff.mp hj with ⟨hji, ⟨⟩⟩ | hj
    · exact .inl ⟨hji, rfl⟩
    · exact .inr hj
  refine ⟨⟨fun hj => ?_, fun hj => ?_, fun hne hj hk => ?_, fun j => ?_⟩, h.disk, fun j => ?_,
    fun j hj k hk => ?_⟩
  · rcases hcases hj with ⟨-, rfl⟩ | ⟨-, hj⟩
    · dsimp only
      omega
    · exact h.sound.inside hj
  · rcases hcases hj with ⟨-, rfl⟩ | ⟨-, hj⟩
    · exact h.disk
    · exact h.sound.disk hj
  · rcases hcases hj with ⟨hji, rfl⟩ | ⟨-, hold⟩ <;> rcases hcases hk with ⟨hki, rfl⟩ | ⟨-, hold'⟩
    · exact absurd (hji.trans hki.symm) hne
    · exact h.apart he hover hold'
    · exact (h.apart he hover hold).symm
    · exact h.sound.apart hne hold hold'
  · have hj := h.sound.registered j
    change (Device.partition i :: s.registry).count (.partition j) =
      (update s.partitions i (some ⟨d, e.startLba, e.sectorCount⟩) j).isSome.toNat
    by_cases hji : j = i
    · rw [hji, hfree] at hj
      rw [hji, List.count_cons_self, hj, update_self]
      rfl
    · rw [update_of_ne hji, List.count_cons_of_ne fun heq => hji (by cases heq; rfl)]
      exact hj
  · change update s.partitions i _ j = if update a.counts i e.sectorCount j = 0
      then none else some ⟨d, update a.starts i e.startLba j,
        update a.counts i e.sectorCount j⟩
    by_cases hji : j = i
    · rw [hji, update_self, update_self, update_self, if_neg hcount]
    · rw [update_of_ne hji, update_of_ne hji, update_of_ne hji, h.slots]
  · rw [List.pairwise_cons] at hsorted
    by_cases hji : j = i
    · rw [hji]
      exact hsorted.1 k hk
    · refine h.before j ?_ k (List.mem_cons_of_mem _ hk)
      change update a.counts i e.sectorCount j ≠ 0 at hj
      rwa [update_of_ne hji] at hj

end

theorem scanEntries_sound {sector : Bytes} {found : Nat} (hsorted : is.Pairwise (· < ·))
    (h : Scanning drv d is a s) :
    Sound drv (scanEntries drv d sector is a found s).2 ∧
      (scanEntries drv d sector is a found s).2.drive = s.drive := by
  induction is generalizing a found s with
  | nil => exact ⟨h.sound, rfl⟩
  | cons i is ih =>
    have htail := (List.pairwise_cons.mp hsorted).2
    by_cases hskip : ¬ (mbrEntry sector i).Usable (drv.sectorCount d) ∨
        a.Overlaps i (mbrEntry sector i)
    · rw [scanEntries, if_pos hskip]
      exact ih htail ⟨h.sound, h.disk, h.slots, fun j hj k hk =>
        h.before j hj k (List.mem_cons_of_mem _ hk)⟩
    rw [scanEntries, if_neg hskip, bind_run, modify_run, andThen_ok, bind_run]
    rw [not_or, not_not] at hskip
    rcases blockdevRegister_cases drv (.partition i)
      (withSlot d i (mbrEntry sector i) s) with ⟨err, hreg⟩ | hreg
    · rw [attempt_run hreg, andThen_ok]
      obtain ⟨hdrive, -, hsound⟩ := rollback_spec drv (h.atMostFilled _)
      exact ⟨hsound, hdrive⟩
    · rw [attempt_run hreg, andThen_ok]
      exact ih htail (h.add hsorted hskip.1 hskip.2)

theorem partitionScan_sound (disk : Option ι) (h : Sound drv s) :
    Sound drv (partitionScan drv disk s).2 ∧
      drv.sector (partitionScan drv disk s).2.drive = drv.sector s.drive ∧
      (s.partitionDisk.isSome → (partitionScan drv disk s).2 = s) := by
  cases disk with
  | none => exact ⟨h, rfl, fun _ => rfl⟩
  | some d =>
    unfold partitionScan
    dsimp only
    split_ifs with hdisk
    · exact ⟨h, rfl, fun _ => rfl⟩
    cases hscanned : s.partitionDisk with
    | some d' =>
      dsimp only
      split_ifs
      · exact ⟨h, rfl, fun _ => rfl⟩
      · exact ⟨h, rfl, fun _ => rfl⟩
    | none =>
      have hread := drv.read_keeps d 0 1 (fun _ => 0) s.drive
      have hempty : ∀ j, s.partitions j = none := by
        intro j
        cases hj : s.partitions j with
        | none => rfl
        | some p =>
          rw [h.disk hj] at hscanned
          cases hscanned
      have hframe : ∀ drive, Sound drv { s with drive := drive } := fun _ =>
        ⟨h.inside, h.disk, h.apart, h.registered⟩
      rw [bind_run, diskRead, checkedAccess_run (by omega) (by omega), bind_run, onDrive]
      rcases hrun : drv.read d 0 1 (fun _ => 0) s.drive with ⟨r, drive⟩
      rw [hrun] at hread
      cases r with
      | error err => exact ⟨hframe drive, hread, by rintro ⟨⟩⟩
      | ok sector =>
        rw [andThen_ok, pure_run, andThen_ok]
        dsimp only
        split_ifs with hsign
        · exact ⟨hframe drive, hread, by rintro ⟨⟩⟩
        rw [bind_run, modify_run, andThen_ok]
        have hstart : Scanning drv d (List.finRange 4) ⟨fun _ => 0, fun _ => 0⟩
            { s with drive := drive, partitionDisk := some d } := by
          refine ⟨⟨h.inside, fun hj => ?_, h.apart, h.registered⟩, rfl, hempty,
            fun j hj => absurd rfl hj⟩
          rw [hempty] at hj
          cases hj
        obtain ⟨hsound, hdrive⟩ := scanEntries_sound (by decide) hstart
        exact ⟨hsound, (congrArg drv.sector hdrive).trans hread, by rintro ⟨⟩⟩

/-! ## Runs -/

def MbrPartition.range (p : MbrPartition ι) : Set Nat :=
  Set.Ico p.startLba (p.startLba + p.sectorCount)

/-- The request touched no sector outside the range of partition `i`. -/
def StaysInside (drv : Driver ι σ) (i : Fin 4) (s t : Blocks ι σ) : Prop :=
  t = s ∨ ∃ p, s.partitions i = some p ∧ t = { s with drive := t.drive } ∧
    Confined drv.sector drv.touched p.disk p.startLba p.sectorCount s.drive t.drive

theorem Sound.read_staysInside (h : Sound drv s) (i : Fin 4) (lba count : Nat)
    (buf : Option Bytes) :
    StaysInside drv i s (blockdevRead drv (.partition i) lba count buf s).2 := by
  cases hp : s.partitions i with
  | none =>
    rw [blockdevRead, hp]
    exact .inl rfl
  | some p =>
    have hfit := (h.inside hp).2
    rcases blockdevRead_cases lba count buf hp hfit with
      ⟨hrun, -⟩ | hrun | ⟨b, r, drive, -, hin, hread, hrun⟩
    · rw [hrun]
      exact .inl rfl
    · rw [hrun]
      exact .inl rfl
    · have hconf := drv.read_confined b s.drive (show p.startLba + lba + count ≤ drv.sectorCount p.disk by omega)
      rw [hread] at hconf
      rw [hrun]
      exact .inr ⟨p, hp, rfl, hconf.mono (by omega) (by omega)⟩

theorem Sound.write_staysInside (h : Sound drv s) (i : Fin 4) (lba count : Nat)
    (buf : Option Bytes) :
    StaysInside drv i s (blockdevWrite drv (.partition i) lba count buf s).2 := by
  cases hp : s.partitions i with
  | none =>
    rw [blockdevWrite, hp]
    exact .inl rfl
  | some p =>
    have hfit := (h.inside hp).2
    rcases blockdevWrite_cases lba count buf hp hfit with
      ⟨hrun, -⟩ | hrun | ⟨b, r, drive, -, hin, hwrite, hrun⟩
    · rw [hrun]
      exact .inl rfl
    · rw [hrun]
      exact .inl rfl
    · have hconf := drv.write_confined b s.drive (show p.startLba + lba + count ≤ drv.sectorCount p.disk by omega)
      rw [hwrite] at hconf
      rw [hrun]
      exact .inr ⟨p, hp, rfl, hconf.mono (by omega) (by omega)⟩

/-- What a step does: the table stays sound and full slots stay, and a sector changes only when a
write goes through the partition it belongs to. -/
structure StepSpec (drv : Driver ι σ) (r : BlockRequest ι) (s t : Blocks ι σ) : Prop where
  sound : Sound drv t
  slots : ∀ {i p}, s.partitions i = some p → t.partitions = s.partitions
  sectors : ∀ e l, drv.sector t.drive e l ≠ drv.sector s.drive e l →
    ∃ i lba count buf p, r = .write i lba count buf ∧ s.partitions i = some p ∧ e = p.disk ∧
      l ∈ p.range

theorem StaysInside.sound (hst : StaysInside drv i s t) (h : Sound drv s) :
    Sound drv t ∧ t.partitions = s.partitions := by
  rcases hst with rfl | ⟨p, hp, hsame, -⟩
  · exact ⟨h, rfl⟩
  · rw [hsame]
    exact ⟨⟨h.inside, h.disk, h.apart, h.registered⟩, rfl⟩

theorem Sound.read_sector (h : Sound drv s) (i : Fin 4) (lba count : Nat) (buf : Option Bytes) :
    drv.sector (blockdevRead drv (.partition i) lba count buf s).2.drive = drv.sector s.drive := by
  cases hp : s.partitions i with
  | none => rw [blockdevRead, hp]
  | some p =>
    rcases blockdevRead_cases lba count buf hp (h.inside hp).2 with
      ⟨hrun, -⟩ | hrun | ⟨b, r, drive, -, -, hread, hrun⟩
    · rw [hrun]
    · rw [hrun]
    · rw [hrun, ← drv.read_keeps p.disk (p.startLba + lba) count b s.drive, hread]

theorem blockStep_spec (h : Sound drv s) (r : BlockRequest ι) :
    StepSpec drv r s (blockStep drv r s) := by
  cases r with
  | scan disk =>
    obtain ⟨hsound, hsector, hsame⟩ := partitionScan_sound disk h
    refine ⟨hsound, fun hi => ?_, fun e l hne => absurd (by rw [blockStep, hsector]) hne⟩
    rw [blockStep, hsame (by rw [h.disk hi]; rfl)]
  | read i lba count buf =>
    obtain ⟨hsound, hslots⟩ := (h.read_staysInside i lba count buf).sound h
    refine ⟨hsound, fun _ => hslots, fun e l hne => absurd ?_ hne⟩
    rw [blockStep, h.read_sector]
  | write i lba count buf =>
    have hst := h.write_staysInside i lba count buf
    obtain ⟨hsound, hslots⟩ := hst.sound h
    refine ⟨hsound, fun _ => hslots, fun e l hne => ?_⟩
    rcases hst with hsame | ⟨p, hp, -, hconf⟩
    · rw [blockStep, hsame] at hne
      exact absurd rfl hne
    · have hin : e = p.disk ∧ p.startLba ≤ l ∧ l < p.startLba + p.sectorCount := by
        by_contra hout
        exact hne (hconf.outside e l hout)
      exact ⟨i, lba, count, buf, p, rfl, hp, hin.1, hin.2⟩

theorem Sound.read_data (h : Sound drv s) {p : MbrPartition ι} {lba count : Nat} {b out : Bytes}
    (hp : s.partitions i = some p)
    (hrun : blockdevRead drv (.partition i) lba count (some b) s = (.ok (some out), t)) :
    ∀ k < count, p.startLba + lba + k ∈ p.range ∧ ∀ o < 512,
      out (k * 512 + o) = drv.sector s.drive p.disk (p.startLba + lba + k) o := by
  have hfit := (h.inside hp).2
  intro k hk
  rcases blockdevRead_cases lba count (some b) hp hfit with
    ⟨-, h0⟩ | herr | ⟨b, r, drive, -, hin, hread, hok⟩
  · omega
  · rw [hrun] at herr
    cases herr
  · rw [hrun] at hok
    cases r with
    | error e => cases hok
    | ok out' =>
      cases hok
      refine ⟨⟨by omega, by omega⟩, fun o ho => ?_⟩
      exact drv.read_data (by omega) hread k hk o ho

def BlockRequest.WritesTo (r : BlockRequest ι) (i : Fin 4) : Prop :=
  ∃ lba count buf, r = .write i lba count buf

theorem Sound.sector_run (h : Sound drv s) {j : Fin 4} {q : MbrPartition ι}
    (hq : s.partitions j = some q)
    (hrun : Reach (blockStep drv) (fun r _ => ¬ r.WritesTo j) s t) :
    Sound drv t ∧ t.partitions = s.partitions ∧
      ∀ l ∈ q.range, drv.sector t.drive q.disk l = drv.sector s.drive q.disk l := by
  refine hrun.invariant (fun t => Sound drv t ∧ t.partitions = s.partitions ∧
    ∀ l ∈ q.range, drv.sector t.drive q.disk l = drv.sector s.drive q.disk l)
    ⟨h, rfl, fun _ _ => rfl⟩ ?_
  rintro r u ⟨hu, hparts, hsame⟩ hr
  have hstep := blockStep_spec hu r
  have hqu : u.partitions j = some q := by rw [hparts, hq]
  refine ⟨hstep.sound, (hstep.slots hqu).trans hparts, fun l hl => ?_⟩
  rw [← hsame l hl]
  by_contra hne
  obtain ⟨i, lba, count, buf, p, rfl, hp, -, hlp⟩ := hstep.sectors q.disk l hne
  by_cases hij : i = j
  · exact hr ⟨lba, count, buf, by rw [hij]⟩
  -- the write went through a partition that shares no sector with this one
  have hapart := hu.apart hij hp hqu
  simp only [MbrPartition.range, Set.mem_Ico] at hl hlp
  omega

theorem Sound.sectorZero_run (h : Sound drv s) {ok : BlockRequest ι → Blocks ι σ → Prop}
    (hrun : Reach (blockStep drv) ok s t) (e : ι) :
    drv.sector t.drive e 0 = drv.sector s.drive e 0 := by
  refine (hrun.invariant (fun t => Sound drv t ∧ drv.sector t.drive e 0 = drv.sector s.drive e 0)
    ⟨h, rfl⟩ ?_).2
  rintro r u ⟨hu, hsame⟩ -
  have hstep := blockStep_spec hu r
  refine ⟨hstep.sound, ?_⟩
  rw [← hsame]
  by_contra hne
  obtain ⟨i, -, -, -, p, -, hp, -, hzero⟩ := hstep.sectors e 0 hne
  have hpos := (hu.inside hp).1
  exact absurd hzero.1 (not_le.mpr hpos)

/-- In every state reached from a boot by scans of any boot sectors and by accesses of the partition
devices: the registered partitions are disjoint ranges behind sector 0 of their disk; an access of a
partition touches its range only, or nothing; what is read through a partition does not change
until something is written through it; sector 0 never changes. -/
theorem partitions_isolated {drive : σ} {disks : List ι}
    (hreach : Reach (blockStep drv) (fun _ _ => True) (bootBlocks drive disks) s) :
    (∀ i p, s.partitions i = some p →
      p.range ⊆ Set.Ico 1 (drv.sectorCount p.disk) ∧ s.partitionDisk = some p.disk) ∧
    (∀ i j p q, i ≠ j → s.partitions i = some p → s.partitions j = some q →
      Disjoint p.range q.range) ∧
    (∀ i lba count buf,
      StaysInside drv i s (blockdevRead drv (.partition i) lba count buf s).2 ∧
      StaysInside drv i s (blockdevWrite drv (.partition i) lba count buf s).2) ∧
    (∀ j t lba count b b' out out' s' t',
      Reach (blockStep drv) (fun r _ => ¬ r.WritesTo j) s t →
      blockdevRead drv (.partition j) lba count (some b) s = (.ok (some out), s') →
      blockdevRead drv (.partition j) lba count (some b') t = (.ok (some out'), t') →
      ∀ k < count * 512, out' k = out k) ∧
    (∀ t e, Reach (blockStep drv) (fun _ _ => True) s t →
      drv.sector t.drive e 0 = drv.sector s.drive e 0) := by
  have h : Sound drv s := hreach.invariant (Sound drv) (sound_boot drive disks)
    fun r u hu _ => (blockStep_spec hu r).sound
  refine ⟨fun i p hp => ⟨fun l hl => ?_, h.disk hp⟩, fun i j p q hij hp hq => ?_,
    fun i lba count buf => ⟨h.read_staysInside i lba count buf, h.write_staysInside i lba count buf⟩,
    ?_, fun t e hrun => h.sectorZero_run hrun e⟩
  · obtain ⟨hpos, hfit⟩ := h.inside hp
    exact ⟨hpos.trans_le hl.1, hl.2.trans_le hfit⟩
  · have hapart := h.apart hij hp hq
    refine Set.disjoint_left.mpr fun l hl hl' => ?_
    simp only [MbrPartition.range, Set.mem_Ico] at hl hl'
    omega
  · intro j t lba count b b' out out' s' t' hrun hread hread' k hk
    cases hq : s.partitions j with
    | none =>
      rw [blockdevRead, hq] at hread
      cases hread
    | some q =>
      obtain ⟨ht, hparts, hsame⟩ := h.sector_run hq hrun
      have hblock : k / 512 < count := Nat.div_lt_of_lt_mul (by omega)
      obtain ⟨hin, hdata⟩ := h.read_data hq hread (k / 512) hblock
      obtain ⟨-, hdata'⟩ := ht.read_data (hparts ▸ hq) hread' (k / 512) hblock
      have hk' : k / 512 * 512 + k % 512 = k := Nat.div_add_mod' k 512
      have hmod : k % 512 < 512 := Nat.mod_lt k (by decide)
      rw [← hk', hdata _ hmod, hdata' _ hmod, hsame _ hin]

end CfKernel.Block
