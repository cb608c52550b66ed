import CfKernel.Fat.Volume

/-!
# The arithmetic of mounting

`fat_probe_type` and `fat_cluster_to_lba` with the width of every computation. A mark is set when
a result does not fit: an accepted boot sector sets none, whatever its fields and however large the
device, and then the areas of the volume follow one another and clusters do not overlap.
-/

namespace CfKernel.Fat

open Lib Lib.Eff

/-- The state is the mark. -/
abbrev ProbeM := Eff Errno Bool

def arith (bits : Nat) (exact : Int) : ProbeM Nat := fun wrapped =>
  (.ok (exact % 2 ^ bits).toNat, wrapped || decide (exact < 0 ∨ 2 ^ bits ≤ exact))

/-- The test on the root directory of the type. -/
def fatCheckRoot (bpb : FatBpb) (sb : FatLayout) : ProbeM Unit :=
  if sb.type = .fat32 then
    if bpb.sectorsPerFat16.toNat ≠ 0 ∨ sb.rootEntries ≠ 0 ∨ sb.rootCluster < 2 then
      Eff.fail .ioError
    else do
      let stop ← arith 32 (sb.clusterCount + 2)
      if sb.rootCluster ≥ stop then Eff.fail .ioError else pure ()
  else if bpb.sectorsPerFat16.toNat = 0 ∨ sb.rootEntries = 0 then Eff.fail .ioError
  else pure ()

/-- An entry for every cluster, with `entryBytes` bytes each. -/
def fatCheckCapacity (sb : FatLayout) (entryBytes : Nat) : ProbeM Unit := do
  let entries ← arith 64 (sb.clusterCount + 2)
  let capacity ← arith 64 (sb.fatSectors * (sb.bytesPerSector / entryBytes : Nat))
  if entries > capacity then Eff.fail .ioError else pure ()

/-- The last three tests. The first of them computes before it looks at the type. -/
def fatCheckEntries (sb : FatLayout) : ProbeM Unit := do
  let entries ← arith 64 (sb.clusterCount + 2)
  let bytes ← arith 64 (sb.fatSectors * sb.bytesPerSector)
  let twice ← arith 64 (bytes * 2)
  if entries > twice / 3 ∧ sb.type = .fat12 then Eff.fail .ioError
  else
    match sb.type with
    | .fat12 => pure ()
    | .fat16 => fatCheckCapacity sb 2
    | .fat32 => fatCheckCapacity sb 4

/-- `fat_probe_type` from where `fats_area` and `root_dir_sectors` are known to fit. -/
def fatPlaceAreas (sectorCount : Nat) (bpb : FatBpb) (totalSectors fatSectors rootDirSectors
    fatsArea : Nat) : ProbeM FatLayout := do
  let reserved := bpb.reservedSectors.toNat
  let rootDirStart ← arith 32 (reserved + fatsArea)
  let dataStart ← arith 32 (rootDirStart + rootDirSectors)
  let dataSectors ← arith 32 (totalSectors - dataStart)
  let clusterCount := dataSectors / bpb.sectorsPerCluster.toNat
  if clusterCount = 0 then Eff.fail .ioError
  else do
    let sb : FatLayout :=
      { type := fatTypeOf clusterCount
        bytesPerSector := bpb.bytesPerSector.toNat
        sectorsPerCluster := bpb.sectorsPerCluster.toNat
        fatCount := bpb.fatCount.toNat
        rootEntries := bpb.rootEntries.toNat
        fatStart := reserved
        rootDirStart
        dataStart
        rootCluster := bpb.rootCluster.toNat
        volumeSectors := totalSectors
        fatSectors
        rootDirSectors
        clusterCount
        sectorCount }
    fatCheckRoot bpb sb
    fatCheckEntries sb
    pure sb

def fatProbeMarked (sectorSize sectorCount : Nat) (bpb : FatBpb) (totalSectors : Nat) :
    ProbeM FatLayout :=
  let bps := bpb.bytesPerSector.toNat
  let spc := bpb.sectorsPerCluster.toNat
  let reserved := bpb.reservedSectors.toNat
  let fatCount := bpb.fatCount.toNat
  -- `sectors_per_cluster - 1` is only computed when the field is not zero.
  if totalSectors = 0 ∨ bps ≠ 512 ∨ sectorSize ≠ bps ∨ spc = 0 ∨ spc &&& (spc - 1) ≠ 0 ∨
      spc > 128 ∨ reserved = 0 ∨ (fatCount ≠ 1 ∧ fatCount ≠ 2) then Eff.fail .notSupported
  else
    let fatSectors := if bpb.sectorsPerFat16.toNat ≠ 0 then bpb.sectorsPerFat16.toNat
      else bpb.sectorsPerFat32.toNat
    if fatSectors = 0 ∨ fatSectors > totalSectors ∨ totalSectors > sectorCount then
      Eff.fail .ioError
    else do
      let bytes ← arith 32 (bpb.rootEntries.toNat * 32)
      let more ← arith 32 (bytes + bps)
      let up ← arith 32 (more - 1)
      let rootDirSectors := up / bps
      let fatsArea ← arith 32 (fatCount * fatSectors)
      if fatsArea / fatCount ≠ fatSectors ∨ reserved > totalSectors then Eff.fail .ioError
      else do
        let room ← arith 32 (totalSectors - reserved)
        if fatsArea > room then Eff.fail .ioError
        else do
          let rest ← arith 32 (room - fatsArea)
          if rootDirSectors > rest then Eff.fail .ioError
          else fatPlaceAreas sectorCount bpb totalSectors fatSectors rootDirSectors fatsArea

def fatClusterToLbaMarked (sb : FatLayout) (cluster : Nat) : ProbeM Nat := do
  let index ← arith 32 (cluster - 2)
  let offset ← arith 32 (index * sb.sectorsPerCluster)
  arith 32 (sb.dataStart + offset)

variable {sb : FatLayout} {bpb : FatBpb} {w : Bool} {bits : Nat} {rs : List (Nat × Nat)}

theorem arith_nat (n : Nat) : arith 32 n w = (.ok (u32 n), w || decide (2 ^ 32 ≤ n)) := by
  have hmod : ((n : Int) % 2 ^ 32).toNat = u32 n := by
    unfold u32
    omega
  have hiff : ((n : Int) < 0 ∨ (2 ^ 32 : Int) ≤ n) ↔ 2 ^ 32 ≤ n := by omega
  rw [arith, hmod, decide_eq_decide.mpr hiff]

theorem arith_run {x : Int} (h0 : 0 ≤ x) (h1 : x < 2 ^ bits) : arith bits x w = (.ok x.toNat, w) := by
  have hex : ¬ (x < 0 ∨ 2 ^ bits ≤ x) := by omega
  rw [arith, Int.emod_eq_of_lt h0 h1]
  simp [hex]

/-! ## No result of an accepted boot sector wraps -/

/-- The end of `fat_probe_type` for a layout whose entries fit 32 bits. -/
def fatAccept (bpb : FatBpb) (sb : FatLayout) : Except Errno FatLayout :=
  if (sb.type = .fat32 ∧ (bpb.sectorsPerFat16.toNat ≠ 0 ∨ sb.rootEntries ≠ 0 ∨ sb.rootCluster < 2 ∨
        sb.rootCluster ≥ sb.clusterCount + 2)) ∨
      (sb.type ≠ .fat32 ∧ (bpb.sectorsPerFat16.toNat = 0 ∨ sb.rootEntries = 0)) then .error .ioError
  else if sb.clusterCount + 2 > sb.fatSectors * sb.bytesPerSector * 2 / 3 ∧ sb.type = .fat12 then
    .error .ioError
  else if sb.type = .fat16 ∧ sb.clusterCount + 2 > sb.fatSectors * (sb.bytesPerSector / 2) then
    .error .ioError
  else if sb.type = .fat32 ∧ sb.clusterCount + 2 > sb.fatSectors * (sb.bytesPerSector / 4) then
    .error .ioError
  else .ok sb

theorem fatCheckRoot_run (hcc : sb.clusterCount + 2 < 2 ^ 32) :
    fatCheckRoot bpb sb w = (if (sb.type = .fat32 ∧ (bpb.sectorsPerFat16.toNat ≠ 0 ∨
        sb.rootEntries ≠ 0 ∨ sb.rootCluster < 2 ∨ sb.rootCluster ≥ sb.clusterCount + 2)) ∨
        (sb.type ≠ .fat32 ∧ (bpb.sectorsPerFat16.toNat = 0 ∨ sb.rootEntries = 0))
      then .error .ioError else .ok (), w) := by
  rw [fatCheckRoot]
  by_cases htype : sb.type = .fat32
  · rw [if_pos htype]
    by_cases hfirst : bpb.sectorsPerFat16.toNat ≠ 0 ∨ sb.rootEntries ≠ 0 ∨ sb.rootCluster < 2
    · rw [if_pos hfirst, if_pos (.inl ⟨htype, by tauto⟩)]
      rfl
    · rw [if_neg hfirst, bind_ok (arith_run (by omega) (by omega))]
      by_cases hroot : sb.rootCluster ≥ sb.clusterCount + 2
      · rw [if_pos (by omega), if_pos (.inl ⟨htype, by tauto⟩)]
        rfl
      · rw [if_neg (by omega), if_neg (by tauto)]
        rfl
  · rw [if_neg htype]
    by_cases hnone : bpb.sectorsPerFat16.toNat = 0 ∨ sb.rootEntries = 0
    · rw [if_pos hnone, if_pos (.inr ⟨htype, hnone⟩)]
      rfl
    · rw [if_neg hnone, if_neg (by tauto)]
      rfl

theorem fatCheckCapacity_run {n : Nat} (hcc : sb.clusterCount < 2 ^ 32)
    (hfat : sb.fatSectors < 2 ^ 32) (hbps : sb.bytesPerSector = 512) :
    fatCheckCapacity sb n w = (if sb.clusterCount + 2 > sb.fatSectors * (sb.bytesPerSector / n) then
      .error .ioError else .ok (), w) := by
  have hle : sb.bytesPerSector / n ≤ 512 := hbps ▸ Nat.div_le_self _ _
  have hmul : sb.fatSectors * (sb.bytesPerSector / n) ≤ sb.fatSectors * 512 :=
    Nat.mul_le_mul_left _ hle
  rw [fatCheckCapacity, bind_ok (arith_run (by omega) (by omega)), ← Nat.cast_mul,
    bind_ok (arith_run (by omega) (by omega)), Int.toNat_natCast,
    show ((sb.clusterCount : Int) + 2).toNat = sb.clusterCount + 2 by omega]
  split_ifs <;> rfl

theorem fatCheckEntries_run (hcc : sb.clusterCount < 2 ^ 32) (hfat : sb.fatSectors < 2 ^ 32)
    (hbps : sb.bytesPerSector = 512) :
    fatCheckEntries sb w =
      (if sb.clusterCount + 2 > sb.fatSectors * sb.bytesPerSector * 2 / 3 ∧ sb.type = .fat12 then
        .error .ioError
      else if sb.type = .fat16 ∧ sb.clusterCount + 2 > sb.fatSectors * (sb.bytesPerSector / 2) then
        .error .ioError
      else if sb.type = .fat32 ∧ sb.clusterCount + 2 > sb.fatSectors * (sb.bytesPerSector / 4) then
        .error .ioError
      else .ok (), w) := by
  have hmul : sb.fatSectors * sb.bytesPerSector = sb.fatSectors * 512 := by rw [hbps]
  rw [fatCheckEntries, bind_ok (arith_run (by omega) (by omega)), ← Nat.cast_mul,
    bind_ok (arith_run (by omega) (by omega)), bind_ok (arith_run (by omega) (by omega)),
    show ((sb.clusterCount : Int) + 2).toNat = sb.clusterCount + 2 by omega, Int.toNat_natCast,
    show ((sb.fatSectors * sb.bytesPerSector : Nat) * 2 : Int).toNat =
      sb.fatSectors * sb.bytesPerSector * 2 by omega]
  cases htype : sb.type with
  | fat12 =>
    by_cases h : sb.clusterCount + 2 > sb.fatSectors * sb.bytesPerSector * 2 / 3
    · rw [if_pos ⟨h, rfl⟩, if_pos ⟨h, rfl⟩]
      rfl
    · rw [if_neg fun hn => h hn.1, if_neg fun hn => h hn.1, if_neg nofun, if_neg nofun]
      rfl
  | fat16 =>
    rw [if_neg nofun, if_neg nofun]
    dsimp only
    rw [fatCheckCapacity_run hcc hfat hbps]
    simp
  | fat32 =>
    rw [if_neg nofun, if_neg nofun]
    dsimp only
    rw [fatCheckCapacity_run hcc hfat hbps]
    simp

theorem fatAccept_run (hcc : sb.clusterCount + 2 < 2 ^ 32) (hfat : sb.fatSectors < 2 ^ 32)
    (hbps : sb.bytesPerSector = 512) :
    (do fatCheckRoot bpb sb; fatCheckEntries sb; pure sb : ProbeM FatLayout) w =
      (fatAccept bpb sb, w) := by
  rw [bind_run, fatCheckRoot_run hcc, fatAccept]
  split
  · rw [andThen_error]
  · rw [andThen_ok, bind_run, fatCheckEntries_run (by omega) hfat hbps]
    split_ifs <;> rfl

theorem fatPlaceAreas_run {sectorCount total fatSectors rootDirSectors fatsArea : Nat}
    (htotal : total < 2 ^ 32) (hfat : fatSectors < 2 ^ 32) (hpos : 0 < fatsArea)
    (hreserved : 0 < bpb.reservedSectors.toNat) (hbps : bpb.bytesPerSector.toNat = 512)
    (hfit : bpb.reservedSectors.toNat + fatsArea + rootDirSectors ≤ total) :
    fatPlaceAreas sectorCount bpb total fatSectors rootDirSectors fatsArea w =
      (let clusterCount := (total - (bpb.reservedSectors.toNat + fatsArea + rootDirSectors)) /
          bpb.sectorsPerCluster.toNat
       if clusterCount = 0 then .error .ioError
       else fatAccept bpb
        { type := fatTypeOf clusterCount
          bytesPerSector := bpb.bytesPerSector.toNat
          sectorsPerCluster := bpb.sectorsPerCluster.toNat
          fatCount := bpb.fatCount.toNat
          rootEntries := bpb.rootEntries.toNat
          fatStart := bpb.reservedSectors.toNat
          rootDirStart := bpb.reservedSectors.toNat + fatsArea
          dataStart := bpb.reservedSectors.toNat + fatsArea + rootDirSectors
          rootCluster := bpb.rootCluster.toNat
          volumeSectors := total
          fatSectors
          rootDirSectors
          clusterCount
          sectorCount }, w) := by
  have hsize : (total - (bpb.reservedSectors.toNat + fatsArea + rootDirSectors)) /
      bpb.sectorsPerCluster.toNat ≤
        total - (bpb.reservedSectors.toNat + fatsArea + rootDirSectors) := Nat.div_le_self _ _
  rw [fatPlaceAreas]
  dsimp only
  rw [bind_ok (arith_run (by omega) (by omega)),
    show ((bpb.reservedSectors.toNat : Int) + fatsArea).toNat =
      bpb.reservedSectors.toNat + fatsArea by omega, bind_ok (arith_run (by omega) (by omega)),
    show (((bpb.reservedSectors.toNat + fatsArea : Nat) : Int) + rootDirSectors).toNat =
      bpb.reservedSectors.toNat + fatsArea + rootDirSectors by omega,
    bind_ok (arith_run (by omega) (by omega)),
    show ((total : Int) - (bpb.reservedSectors.toNat + fatsArea + rootDirSectors : Nat)).toNat =
      total - (bpb.reservedSectors.toNat + fatsArea + rootDirSectors) by omega]
  split_ifs with hzero
  · rfl
  · exact fatAccept_run (by dsimp only; omega) hfat hbps

/-- The mark is set for the size of the tables at most, and then the next test finds it out. -/
theorem fatProbeMarked_run (sectorSize : Nat) {sectorCount : Nat} (bpb : FatBpb) (total : Nat)
    (hcount : sectorCount < 2 ^ 32) :
    ∃ w', fatProbeMarked sectorSize sectorCount bpb total w =
        (fatProbeLayout sectorSize sectorCount bpb total, w') ∧
      ((fatProbeLayout sectorSize sectorCount bpb total).isOk = true → w' = w) := by
  unfold fatProbeMarked fatProbeLayout
  split
  · next h1 =>
    rw [if_pos h1]
    exact ⟨w, rfl, fun _ => rfl⟩
  next h1 =>
  rw [if_neg h1]
  generalize hfs : (if bpb.sectorsPerFat16.toNat ≠ 0 then bpb.sectorsPerFat16.toNat
    else bpb.sectorsPerFat32.toNat) = fatSectors
  by_cases h2 : fatSectors = 0 ∨ fatSectors > total ∨ total > sectorCount
  · rw [if_pos h2, if_pos h2]
    exact ⟨w, rfl, fun _ => rfl⟩
  rw [if_neg h2, if_neg h2]
  have hbps : bpb.bytesPerSector.toNat = 512 := by tauto
  have hreserved : bpb.reservedSectors.toNat ≠ 0 := by tauto
  have hfc : bpb.fatCount.toNat = 1 ∨ bpb.fatCount.toNat = 2 := by tauto
  have hroot : bpb.rootEntries.toNat < 65536 := bpb.rootEntries.toNat_lt
  rw [not_or, not_or] at h2
  rw [bind_ok (arith_run (by omega) (by omega)), bind_ok (arith_run (by omega) (by omega)),
    bind_ok (arith_run (by omega) (by omega)), ← Nat.cast_mul, bind_ok (arith_nat _)]
  have hup : ((((bpb.rootEntries.toNat : Int) * 32).toNat + bpb.bytesPerSector.toNat : Int).toNat -
      1 : Int).toNat = bpb.rootEntries.toNat * 32 + bpb.bytesPerSector.toNat - 1 := by omega
  rw [hup]
  generalize (bpb.rootEntries.toNat * 32 + bpb.bytesPerSector.toNat - 1) /
    bpb.bytesPerSector.toNat = rootDirSectors
  by_cases hwrap : 2 ^ 32 ≤ bpb.fatCount.toNat * fatSectors
  · -- The product is twice the sectors, and half of what is left of it is not their number.
    have hhalf : u32 (bpb.fatCount.toNat * fatSectors) / bpb.fatCount.toNat ≠ fatSectors := by
      unfold u32
      rcases hfc with hfc | hfc <;> rw [hfc] at hwrap ⊢ <;> omega
    rw [if_pos (.inl hhalf), if_pos (.inl hhalf)]
    exact ⟨_, rfl, nofun⟩
  rw [decide_eq_false hwrap, Bool.or_false, u32_of_lt (by omega)]
  generalize hfats : bpb.fatCount.toNat * fatSectors = fatsArea at hwrap
  have hdiv : fatsArea / bpb.fatCount.toNat = fatSectors := by
    rw [← hfats]
    exact Nat.mul_div_cancel_left _ (by omega)
  have hpos : 0 < fatsArea := by
    rw [← hfats]
    exact Nat.mul_pos (by omega) (by omega)
  by_cases h3 : bpb.reservedSectors.toNat > total
  · rw [if_pos (.inr h3), if_pos (.inr (.inl h3))]
    exact ⟨w, rfl, fun _ => rfl⟩
  rw [if_neg (by tauto), bind_ok (arith_run (by omega) (by omega)),
    show ((total : Int) - bpb.reservedSectors.toNat).toNat = total - bpb.reservedSectors.toNat by
      omega]
  by_cases h4 : fatsArea > total - bpb.reservedSectors.toNat
  · rw [if_pos h4, if_pos (.inr (.inr (.inl h4)))]
    exact ⟨w, rfl, fun _ => rfl⟩
  rw [if_neg h4, bind_ok (arith_run (by omega) (by omega)),
    show (((total - bpb.reservedSectors.toNat : Nat) : Int) - fatsArea).toNat =
      total - bpb.reservedSectors.toNat - fatsArea by omega]
  by_cases h5 : rootDirSectors > total - bpb.reservedSectors.toNat - fatsArea
  · rw [if_pos h5, if_pos (.inr (.inr (.inr h5)))]
    exact ⟨w, rfl, fun _ => rfl⟩
  rw [if_neg h5, if_neg (by tauto), fatPlaceAreas_run (by omega) (by omega) hpos (by omega) hbps
    (by omega)]
  exact ⟨w, rfl, fun _ => rfl⟩

/-! ## The areas of an accepted volume -/

/-- Intervals `(start, length)` from `a` to `b`, each beginning where the one before it ends. -/
def Consecutive : Nat → List (Nat × Nat) → Nat → Prop
  | a, [], b => a = b
  | a, r :: rest, b => r.1 = a ∧ Consecutive (a + r.2) rest b

theorem Consecutive.bounds {a b : Nat} (h : Consecutive a rs b) :
    a ≤ b ∧ ∀ r ∈ rs, a ≤ r.1 ∧ r.1 + r.2 ≤ b := by
  induction rs generalizing a with
  | nil => exact ⟨Nat.le_of_eq h, nofun⟩
  | cons r rest ih =>
    obtain ⟨hstart, hrest⟩ := h
    obtain ⟨hle, hin⟩ := ih hrest
    refine ⟨by omega, List.forall_mem_cons.mpr ⟨by omega, fun x hx => ?_⟩⟩
    have := hin x hx
    omega

theorem Consecutive.pairwise {a b : Nat} (h : Consecutive a rs b) :
    rs.Pairwise fun r r' => r.1 + r.2 ≤ r'.1 := by
  induction rs generalizing a with
  | nil => exact List.Pairwise.nil
  | cons r rest ih =>
    obtain ⟨hstart, hrest⟩ := h
    refine List.pairwise_cons.mpr ⟨fun x hx => ?_, ih hrest⟩
    rw [hstart]
    exact (hrest.bounds.2 x hx).1

/-- The reserved area, the copies of the FAT, the root directory and the data area. -/
def FatLayout.areas (sb : FatLayout) : List (Nat × Nat) :=
  (0, sb.fatStart) :: (List.range sb.fatCount).map
    (fun copy => (sb.fatStart + copy * sb.fatSectors, sb.fatSectors)) ++
  [(sb.rootDirStart, sb.rootDirSectors), (sb.dataStart, sb.volumeSectors - sb.dataStart)]

/-- The mark of a bad cluster. The driver has no test for it. -/
def FatType.badMark : FatType → Nat
  | .fat12 => 0x0FF7
  | .fat16 => 0xFFF7
  | .fat32 => 0x0FFFFFF7

namespace FatLayout.Laid

variable {c c' : Nat}

theorem consecutive (h : sb.Laid) : Consecutive 0 sb.areas sb.volumeSectors := by
  have hroot := h.rootDirStart
  have hdata := h.dataStart
  have hle := h.data_le
  rcases h.fatCount with hfc | hfc <;> rw [hfc] at hroot <;>
    simp [areas, hfc, Consecutive, List.range_succ] <;> omega

theorem cluster_le (h : sb.Laid) (h2 : 2 ≤ c) (hc : c < sb.clusterCount + 2) :
    sb.dataStart + (c - 2) * sb.sectorsPerCluster + sb.sectorsPerCluster ≤ sb.volumeSectors := by
  have hmul : (c - 2 + 1) * sb.sectorsPerCluster ≤ sb.clusterCount * sb.sectorsPerCluster :=
    Nat.mul_le_mul_right _ (by omega)
  have hle := h.data_le
  rw [Nat.add_mul, Nat.one_mul] at hmul
  omega

theorem clusterToLba (h : sb.Laid) (hvol : sb.volumeSectors < 2 ^ 32) (h2 : 2 ≤ c)
    (hc : c < sb.clusterCount + 2) :
    fatClusterToLbaMarked sb c w = (.ok (sb.dataStart + (c - 2) * sb.sectorsPerCluster), w) := by
  have hle := h.cluster_le h2 hc
  have hself : (c - 2) * 1 ≤ (c - 2) * sb.sectorsPerCluster := Nat.mul_le_mul_left _ h.spc_pos
  rw [fatClusterToLbaMarked, bind_ok (arith_run (by omega) (by omega)),
    show ((c : Int) - 2).toNat = c - 2 by omega, ← Nat.cast_mul,
    bind_ok (arith_run (by omega) (by omega)), Int.toNat_natCast, arith_run (by omega) (by omega)]
  norm_cast

theorem cluster_disjoint (hlt : c < c') (h2 : 2 ≤ c) :
    sb.dataStart + (c - 2) * sb.sectorsPerCluster + sb.sectorsPerCluster ≤
      sb.dataStart + (c' - 2) * sb.sectorsPerCluster := by
  have hmul : (c - 2 + 1) * sb.sectorsPerCluster ≤ (c' - 2) * sb.sectorsPerCluster :=
    Nat.mul_le_mul_right _ (by omega)
  rw [Nat.add_mul, Nat.one_mul] at hmul
  omega

/-- On FAT32 the table itself takes the room that keeps the last number below the marks. -/
theorem cluster_lt_marks (h : sb.Laid) (hvol : sb.volumeSectors ≤ 0x10000000)
    (hc : c < sb.clusterCount + 2) : c < sb.type.badMark ∧ isEoc sb.type c = false := by
  have htype := h.type
  unfold fatTypeOf at htype
  split_ifs at htype with h12 h16 <;> rw [htype]
  · exact ⟨by simp only [
    FatType.badMark]; omega, by simp only [isEoc, decide_eq_false_iff_not]; omega⟩
  · exact ⟨by simp only [
    FatType.badMark]; omega, by simp only [isEoc, decide_eq_false_iff_not]; omega⟩
  · have hcap := h.fat32 htype
    have hself : sb.clusterCount * 1 ≤ sb.clusterCount * sb.sectorsPerCluster :=
      Nat.mul_le_mul_left _ h.spc_pos
    have hcopies : 1 * sb.fatSectors ≤ sb.fatCount * sb.fatSectors :=
      Nat.mul_le_mul_right _ (by have := h.fatCount; omega)
    have hdata := h.data_le
    have hstart := h.dataStart
    have hroot := h.rootDirStart
    have hbad : c < 0x0FFFFFF7 := by omega
    have hmask : c &&& 0x0FFFFFFF ≤ c := Nat.and_le_left
    exact ⟨hbad, by simp only [isEoc, decide_eq_false_iff_not]; omega⟩

end FatLayout.Laid

/-- Any boot sector that is accepted, on any device: nothing wrapped, the areas follow one another
up to the end of the volume, and every cluster has sectors of its own in the last of them. -/
theorem fatProbe_layout (sectorSize : Nat) (sectorCount total : UInt32) (bpb : FatBpb)
    (sb : FatLayout) (wrapped : Bool)
    (hprobe : fatProbeMarked sectorSize sectorCount.toNat bpb total.toNat false =
      (.ok sb, wrapped)) :
    wrapped = false ∧
    Consecutive 0 sb.areas sb.volumeSectors ∧
    (sb.areas.Pairwise fun r r' => r.1 + r.2 ≤ r'.1) ∧
    (∀ r ∈ sb.areas, r.1 + r.2 ≤ sb.volumeSectors) ∧
    sb.volumeSectors ≤ sectorCount.toNat ∧
    (∀ c, 2 ≤ c → c < sb.clusterCount + 2 →
      ∃ lba, fatClusterToLbaMarked sb c false = (.ok lba, false) ∧
        sb.dataStart ≤ lba ∧ lba + sb.sectorsPerCluster ≤ sb.volumeSectors ∧
        ∀ c' lba', 2 ≤ c' → c' < sb.clusterCount + 2 → c' ≠ c →
          fatClusterToLbaMarked sb c' false = (.ok lba', false) →
          lba + sb.sectorsPerCluster ≤ lba' ∨ lba' + sb.sectorsPerCluster ≤ lba) ∧
    (sb.volumeSectors ≤ 0x10000000 → ∀ c, 2 ≤ c → c < sb.clusterCount + 2 →
      c < sb.type.badMark ∧ isEoc sb.type c = false) := by
  obtain ⟨w', hrun, hmark⟩ :=
    fatProbeMarked_run (w := false) sectorSize bpb total.toNat sectorCount.toNat_lt
  rw [hprobe] at hrun
  obtain ⟨hok, rfl⟩ := Prod.mk.inj hrun
  obtain ⟨hlaid, hcount⟩ := fatProbeLayout_laid hok.symm
  have hle : sb.volumeSectors ≤ sectorCount.toNat := hcount ▸ hlaid.volume_le
  have hvol : sb.volumeSectors < 2 ^ 32 := hle.trans_lt sectorCount.toNat_lt
  have hcons := hlaid.consecutive
  refine ⟨hmark (by rw [← hok]; rfl), hcons, hcons.pairwise, fun r hr => (hcons.bounds.2 r hr).2,
    hle, fun c h2 hc => ⟨_, hlaid.clusterToLba hvol h2 hc, by omega, hlaid.cluster_le h2 hc, ?_⟩,
    fun hsmall c _ hc => hlaid.cluster_lt_marks hsmall hc⟩
  intro c' lba' h2' hc' hne hlba'
  rw [hlaid.clusterToLba hvol h2' hc'] at hlba'
  cases hlba'
  rcases Nat.lt_or_gt_of_ne hne with hlt | hgt
  · exact .inr (FatLayout.Laid.cluster_disjoint hlt h2')
  · exact .inl (FatLayout.Laid.cluster_disjoint hgt h2)

/-- The boot sector of a 1.44 MB floppy disk. -/
def floppyBpb : FatBpb where
  bytesPerSector := 512
  sectorsPerCluster := 1
  reservedSectors := 1
  fatCount := 2
  rootEntries := 224
  totalSectors16 := 2880
  totalSectors32 := 0
  sectorsPerFat16 := 9
  sectorsPerFat32 := 0
  rootCluster := 0

def floppyLayout : FatLayout where
  type := .fat12
  bytesPerSector := 512
  sectorsPerCluster := 1
  fatCount := 2
  rootEntries := 224
  fatStart := 1
  rootDirStart := 19
  dataStart := 33
  rootCluster := 0
  volumeSectors := 2880
  fatSectors := 9
  rootDirSectors := 14
  clusterCount := 2847
  sectorCount := 2880

theorem fatProbe_layout_floppy :
    fatProbeMarked 512 2880 floppyBpb 2880 false = (.ok floppyLayout, false) ∧
    Consecutive 0 floppyLayout.areas 2880 :=
  have hprobe : fatProbeMarked 512 2880 floppyBpb 2880 false = (.ok floppyLayout, false) := by rfl
  ⟨hprobe, (fatProbe_layout 512 2880 2880 floppyBpb floppyLayout false hprobe).2.1⟩

end CfKernel.Fat
