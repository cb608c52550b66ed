import CfKernel.Fat.Session

/-!
# Runs of requests keep a volume well formed

The exceptions are a shrink whose rounding to clusters wraps, and the creation of an entry over
the end mark of a directory that has old entries behind it.
-/

namespace CfKernel.Fat

open Lib Lib.Eff Function

namespace FatSuper

variable {sb : FatSuper} {d : Disk} {s₀ s : FatState}

/-- In every run of safe requests the volume is well formed in every state reached. -/
theorem reach_wellFormed (hwf : sb.WellFormed s₀.disk)
    (h : Reach (Request.step sb) (fun r s => r.NoDots ∧ sb.RequestSafe r s) s₀ s) :
    sb.WellFormed s.disk :=
  h.invariant (fun s => sb.WellFormed s.disk) hwf fun _ _ hs hr => hs.request hr.1 hr.2

theorem wellFormed_of_empty (ht : sb.type ≠ .fat32) (hroot : liveSlots d sb.rootSlots = [])
    (hcopies : sb.CopiesEqual d) : sb.WellFormed d := by
  have hslots : ∀ slots, sb.DirSlots d (fatRootNode sb).firstCluster slots →
      liveSlots d slots = [] := by
    intro slots hs
    rw [fatRootNode, if_neg ht] at hs
    rw [hs.unique (.root ht), hroot]
  have hdirs : ∀ o c, sb.LiveDir d o c → c = (fatRootNode sb).firstCluster := by
    intro o c hd
    induction hd with
    | root => rfl
    | @sub o c a slots _ hs ha _ _ _ ih =>
      subst ih
      rw [hslots slots hs] at ha
      cases ha
  have hnone : ∀ o c, ¬ sb.Holder d o c := by
    rintro _ _ (ht' | ⟨⟨o, c, slots, hd, hs, ha⟩, -⟩)
    · exact ht ht'
    · cases hdirs o c hd
      rw [hslots slots hs] at ha
      cases ha
  exact
    { chain := fun o c ho => absurd ho (hnone o c)
      disjoint := fun o _ c _ _ _ ho => absurd ho (hnone o c)
      covers := fun a _ ha hdot => absurd (.entry ha hdot) (hnone (some a) _)
      copies := hcopies }

end FatSuper

/-- A FAT12 volume of thirteen sectors: two FAT copies, sixteen root entries, nine clusters. -/
def smallSuper : FatSuper where
  type := .fat12
  bytesPerSector := 512
  sectorsPerCluster := 1
  fatCount := 2
  rootEntries := 16
  fatStart := 1
  rootDirStart := 3
  dataStart := 4
  rootCluster := 0
  volumeSectors := 13
  fatSectors := 1
  rootDirSectors := 1
  clusterCount := 9
  sectorCount := 13
  sound := by constructor <;> decide

theorem smallSuper_probed : fatProbeType smallDev smallBpb 13 = .ok smallSuper := by
  rfl

/-- A call on `d` from a kernel whose allocations all succeed. -/
def stateOn (d : Disk) : FatState where
  disk := d
  mem := fun _ => true
  node := fatRootNode smallSuper
  out := 0
  dst := fun _ => 0

theorem smallSuper_rootSlots :
    smallSuper.rootSlots = (List.range 16).map fun k => 1536 + 32 * k := by rfl

theorem smallSuper_fatBase_add_lt {c k : Nat} (hc : c < smallSuper.fatCount)
    (hk : k < smallSuper.fatSectors * 512) : smallSuper.fatBase c + k < 1536 := by
  have hc' : c < 2 := hc
  have hk' : k < 512 := hk
  have hb : smallSuper.fatBase c = (1 + c * 1) * 512 := rfl
  omega

theorem smallSuper_wellFormed {d : Disk} (h : ∀ a ≤ 1536, d a = 0) : smallSuper.WellFormed d := by
  refine FatSuper.wellFormed_of_empty (by decide) ?_ fun c hc k hk => ?_
  · rw [smallSuper_rootSlots, FatSuper.map_slots_succ, liveSlots, if_pos (h _ le_rfl)]
  · rw [h _ (smallSuper_fatBase_add_lt hc hk).le,
      h _ (smallSuper_fatBase_add_lt (show 0 < smallSuper.fatCount by decide) hk).le]

def blankDisk : Disk := fun _ => 0

theorem blankDisk_cleanDir (c : Nat) : smallSuper.CleanDir blankDisk c := by
  intro slots _ pre a post _ _ _
  cases post with
  | nil => rfl
  | cons b post => rfl

def nameA : List UInt8 := [0x41]

/-- The request that creates the file `A` in the root and writes three bytes to it. -/
def writeNewA : Request := ⟨[], some (nameA, .file), .write (fun _ => 0x78) 0 3⟩

def unlinkA : Request := ⟨[], none, .unlink nameA⟩

theorem writeNewA_unlinkA_wellFormed : smallSuper.WellFormed
    (unlinkA.step smallSuper (writeNewA.step smallSuper (stateOn blankDisk))).disk := by
  have hdots : writeNewA.NoDots := ⟨by simp [writeNewA], by simp [writeNewA]; decide,
    by simp [writeNewA, VnodeOp.name]⟩
  have hsafe : smallSuper.RequestSafe writeNewA (stateOn blankDisk) := by
    intro node t _ _ slots _ pre a post _ _ _
    cases post with
    | nil => rfl
    | cons b post => rfl
  have hdots' : unlinkA.NoDots := ⟨by simp [unlinkA], by simp [unlinkA],
    by simp [unlinkA, VnodeOp.name]; decide⟩
  exact FatSuper.reach_wellFormed (smallSuper_wellFormed fun _ _ => rfl)
    (.step unlinkA (.step writeNewA .start ⟨hdots, hsafe⟩) ⟨hdots', fun _ _ _ => trivial⟩)

/-- Slot 0 of the root is the end mark; behind it slot 1 still holds the name `B` and the first
cluster 5, which is free. -/
def staleDisk : Disk := update (update (fun _ => 0) 1568 0x42) 1594 5

def createA : Request := ⟨[], none, .create nameA .file⟩

theorem createA_staleDisk_not_wellFormed : fatProbeType smallDev smallBpb 13 = .ok smallSuper ∧
    smallSuper.WellFormed staleDisk ∧ createA.NoDots ∧
    ¬ smallSuper.WellFormed (createA.step smallSuper (stateOn staleDisk)).disk := by
  refine ⟨smallSuper_probed, smallSuper_wellFormed fun a ha => ?_, ?_, fun hwf => ?_⟩
  · rw [staleDisk, update_of_ne (by omega), update_of_ne (by omega)]
  · exact ⟨by simp [createA], by simp [createA], by simp [createA, VnodeOp.name]; decide⟩
  · generalize hd : (createA.step smallSuper (stateOn staleDisk)).disk = d at hwf
    have hlive : 1568 ∈ liveSlots d smallSuper.rootSlots := by
      rw [← hd]
      decide +kernel
    have hdot : entryIsDot d 1568 = false := by
      rw [← hd]
      decide +kernel
    have hcl : entryCluster d 1568 = 5 := by
      rw [← hd]
      decide +kernel
    have hnext : fatNextCluster smallSuper d 5 = .error .ioError := by
      rw [← hd]
      rfl
    obtain ⟨l, hl⟩ := hwf.chain _ _ (.entry ⟨none, 0, _, .root, .root (by decide), hlive⟩ hdot)
    rw [hcl] at hl
    cases l with
    | nil => cases hl
    | cons x l =>
      obtain ⟨rfl, n, hlink, -⟩ := path_cons.mp hl
      rw [FatSuper.Link, hnext] at hlink
      exact absurd hlink.2 (by simp)

end CfKernel.Fat
