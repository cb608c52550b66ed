import CfKernel.Fat.FileData
import CfKernel.Fat.Dir

/-!
# Steps of a file

`FileAt` says that the calling vnode is open on the directory slot `a` and that its chain is `l`.
Every file operation is a `FileStep`: the chain afterwards consists of clusters the file had or
that were free, and nothing else on the volume changes but the cluster and size fields of the slot.
-/

namespace CfKernel.Fat

open Lib Lib.Eff

theorem putDirentFields_outside {d : Bytes} {a c z b : Nat} (h : b < a + 20 ∨ a + 32 ≤ b) :
    putDirentFields d a c z b = d b := by
  rw [putDirentFields, putLe32_outside (by omega), putLe16_outside (by omega),
    putLe16_outside (by omega)]

theorem window_putDirentFields (d : Bytes) (p o c z : Nat) :
    window (putDirentFields d (p + o) c z) p = putDirentFields (window d p) o c z := by
  simp only [putDirentFields, putLe16, putLe32, Nat.add_assoc, window_splice]

theorem direntAt_putDirentFields (d : Bytes) (a : Nat) {c z : Nat} (hc : c < 2 ^ 32)
    (hz : z < 2 ^ 32) :
    (direntAt (putDirentFields d a c z) a).cluster = c ∧
      (direntAt (putDirentFields d a c z) a).fileSize = z := by
  have hhi : le16 (putDirentFields d a c z) (a + 20) = c >>> 16 := by
    rw [le16_of_bytes (v := c >>> 16), Nat.mod_eq_of_lt]
    · rw [Nat.shiftRight_eq_div_pow]
      omega
    · intro k hk
      rw [putDirentFields, putLe32_outside (by omega), putLe16_outside (by omega),
        putLe16_apply _ _ _ k hk]
  have hlo : le16 (putDirentFields d a c z) (a + 26) = c % 2 ^ 16 := by
    refine le16_of_bytes fun k hk => ?_
    rw [putDirentFields, putLe32_outside (by omega), putLe16_apply _ _ _ k hk]
  have hsz : le32 (putDirentFields d a c z) (a + 28) = z := by
    rw [putDirentFields, le32_putLe32, Nat.mod_eq_of_lt hz]
  refine ⟨?_, hsz⟩
  simp only [FatDirent.cluster, direntAt, hhi, hlo]
  rw [Nat.or_comm, or_shiftLeft_eq_add (by omega), Nat.shiftRight_eq_div_pow]
  omega

namespace FatSuper

variable {sb : FatSuper} {a c x n i newSize off len : Nat}
variable {d d' d'' : Disk} {l l' p q : List Nat} {s t : FatState}

structure Slot (sb : FatSuper) (a : Nat) : Prop where
  aligned : a % 32 = 0
  ge : sb.rootDirStart * 512 ≤ a
  lt : a / 512 < sb.sectorCount

theorem Slot.fits (h : sb.Slot a) : a % 512 + 32 ≤ 512 := by
  have := h.aligned
  omega

/-- The calling vnode is open on slot `a` and owns the chain `l`. -/
structure FileAt (sb : FatSuper) (s : FatState) (a : Nat) (l : List Nat) : Prop where
  chain : sb.Chain s.disk s.node.firstCluster l
  size_le : s.node.size ≤ l.length * sb.clusterSize
  size_lt : s.node.size < 2 ^ 32
  file : s.node.isDir = false
  slot : sb.Slot a
  hasDirent : s.node.hasDirent = true
  sector : s.node.dirSector = a / 512
  offset : s.node.dirOffset = a % 512
  apart : ∀ x, x ∈ l ∨ sb.Free s.disk x → ∀ k < 32, ¬ sb.InCluster x (a + k)

structure FileStep (sb : FatSuper) (a : Nat) (s t : FatState) (l l' : List Nat) : Prop where
  file : sb.FileAt t a l'
  owned : ∀ x ∈ l', x ∈ l ∨ sb.Free s.disk x
  fat : ∀ x < sb.clusterCount + 2, x ∉ l → x ∉ l' →
    sb.getFatEntry t.disk x = sb.getFatEntry s.disk x
  data : ∀ b, sb.rootDirStart * 512 ≤ b → (∀ x, x ∈ l ∨ x ∈ l' → ¬ sb.InCluster x b) →
    (b < a + 20 ∨ a + 32 ≤ b) → t.disk b = s.disk b
  copies : sb.CopiesEqual s.disk → sb.CopiesEqual t.disk
  attr : t.node.attr = s.node.attr

/-- The directory entry holds the node's cluster and size. -/
def Synced (s : FatState) (a : Nat) : Prop :=
  (direntAt s.disk a).cluster = s.node.firstCluster ∧ (direntAt s.disk a).fileSize = s.node.size

/-- A call that stopped before it wrote the entry: the chain may have grown. -/
structure Stale (a : Nat) (s t : FatState) (l l' : List Nat) : Prop where
  entry : ∀ k < 32, t.disk (a + k) = s.disk (a + k)
  size : t.node.size = s.node.size
  pre : l <+: l'

theorem first_lt (h : sb.Chain d c l) : c < 2 ^ 32 := by
  cases l with
  | nil =>
    obtain rfl : c = 0 := h
    decide
  | cons x l =>
    have hx := h.isCluster (x := x) (by simp)
    have := h.head_eq
    have := sb.clusterCount_lt
    have := hx.2
    omega

theorem FileStep.refl (h : sb.FileAt s a l) : sb.FileStep a s s l l :=
  ⟨h, fun _ hx => .inl hx, fun _ _ _ _ => rfl, fun _ _ _ _ => rfl, id, rfl⟩

theorem FileAt.congr (mem : Nat → Bool) (h : sb.FileAt s a l)
    (hd : ∀ b < sb.rootDirStart * 512, d b = s.disk b) :
    sb.FileAt { s with disk := d, mem := mem } a l where
  chain := h.chain.congr fun x _ => getFatEntry_congr hd x
  size_le := h.size_le
  size_lt := h.size_lt
  file := h.file
  slot := h.slot
  hasDirent := h.hasDirent
  sector := h.sector
  offset := h.offset
  apart x hx := h.apart x (hx.imp_right fun hf => ⟨hf.1, by rw [← hf.2, getFatEntry_congr hd]⟩)

theorem FileStep.congr (mem : Nat → Bool) (h : sb.FileStep a s t l l')
    (hd : ∀ b < sb.rootDirStart * 512, d b = t.disk b)
    (hdata : ∀ b, (∀ x ∈ l', ¬ sb.InCluster x b) → (b < a + 20 ∨ a + 32 ≤ b) → d b = t.disk b) :
    sb.FileStep a s { t with disk := d, mem := mem } l l' where
  file := h.file.congr mem hd
  owned := h.owned
  fat x hx hl hl' := by rw [getFatEntry_congr hd, h.fat x hx hl hl']
  data b hb hx hf := (hdata b (fun x hxl => hx x (.inr hxl)) hf).trans (h.data b hb hx hf)
  copies hc := (h.copies hc).congr hd
  attr := h.attr

theorem FileStep.touched {lo hi : Nat} (mem : Nat → Bool) (h : sb.FileStep a s t l l')
    (ht : sb.Touched t.disk d l' lo hi) (hhi : hi ≤ l'.length * sb.clusterSize) :
    sb.FileStep a s { t with disk := d, mem := mem } l l' :=
  h.congr mem ht.before_data fun _ hb _ => ht.outside hhi hb

/-- Everything a `FileStep` asks for, from the disk, the chain and the size afterwards. -/
theorem FileAt.step {f z : Nat} {mem : Nat → Bool} (h : sb.FileAt s a l) (hl' : sb.Chain d f l')
    (hz : z ≤ l'.length * sb.clusterSize) (hz' : z < 2 ^ 32)
    (howned : ∀ x ∈ l', x ∈ l ∨ sb.Free s.disk x)
    (hfat : ∀ x < sb.clusterCount + 2, x ∉ l → x ∉ l' →
      sb.getFatEntry d x = sb.getFatEntry s.disk x)
    (hdata : ∀ b, sb.rootDirStart * 512 ≤ b → (∀ x, x ∈ l ∨ x ∈ l' → ¬ sb.InCluster x b) →
      d b = s.disk b)
    (hcopies : sb.CopiesEqual s.disk → sb.CopiesEqual d) :
    sb.FileStep a s { s with disk := d, mem := mem,
                             node := { s.node with firstCluster := f, size := z } } l l' := by
  have hfree : ∀ x, x ∈ l' ∨ sb.Free d x → x ∈ l ∨ sb.Free s.disk x := by
    rintro x (hx | hx)
    · exact howned x hx
    · by_cases hxl : x ∈ l
      · exact .inl hxl
      · exact .inr ⟨hx.1, by rw [← hx.2, hfat x hx.1.2 hxl (hx.not_mem hl')]⟩
  exact ⟨⟨hl', hz, hz', h.file, h.slot, h.hasDirent, h.sector, h.offset,
    fun x hx => h.apart x (hfree x hx)⟩, howned, hfat, fun b hb hx _ => hdata b hb hx, hcopies, rfl⟩

theorem Ensured.fileStep (h : sb.FileAt s a l) (he : sb.Ensured s t l l') :
    sb.FileStep a s t l l' := by
  rw [he.rest]
  refine h.step he.chain (h.size_le.trans (Nat.mul_le_mul_right _ he.grown.pre.length_le))
    h.size_lt (fun x hx => ?_) (fun x hx _ hn => he.grown.fat x hx hn)
    (fun b hb hx => he.grown.data b hb fun x hxl _ => hx x (.inr hxl)) he.grown.copies
  by_cases hxl : x ∈ l
  · exact .inl hxl
  · exact .inr (he.grown.fresh x hx hxl)

theorem fatUpdateDirent_run (hslot : sb.Slot a) (hhas : s.node.hasDirent = true)
    (hsector : s.node.dirSector = a / 512) (hoffset : s.node.dirOffset = a % 512) :
    fatUpdateDirent sb s = (.ok (), { s with
      disk := putDirentFields s.disk a s.node.firstCluster s.node.size }) := by
  have hfit := hslot.fits
  have hlt := hslot.lt
  have ha : a / 512 * 512 + a % 512 = a := Nat.div_add_mod' a 512
  rw [fatUpdateDirent, bind_ok (getNode_run s), if_neg (by rw [hhas]; decide),
    if_neg (by rw [hoffset, sb.sound.bps]; omega)]
  refine toDisk_run ?_
  simp only [fatReadSector, fatWriteSector, hsector, hoffset]
  rw [sb.readSectors_ok _ (by omega)]
  simp only [bind, Except.bind]
  rw [sb.writeSectors_ok _ _ (by omega), ← window_putDirentFields, ha, splice_window_self]
  intro b hb
  exact putDirentFields_outside (by omega)

theorem FileAt.updateDirent (h : sb.FileAt s a l) : fatUpdateDirent sb s = (.ok (), { s with
    disk := putDirentFields s.disk a s.node.firstCluster s.node.size }) :=
  fatUpdateDirent_run h.slot h.hasDirent h.sector h.offset

theorem FileStep.updated (h : sb.FileStep a s t l l')
    (hd : t.disk = d) (hdisk : d' = putDirentFields d a t.node.firstCluster t.node.size) :
    sb.FileStep a s { t with disk := d' } l l' ∧ Synced { t with disk := d' } a := by
  subst hd hdisk
  constructor
  · refine h.congr t.mem (fun b hb => putDirentFields_outside ?_)
      fun b _ hb => putDirentFields_outside hb
    have := h.file.slot.ge
    omega
  · exact direntAt_putDirentFields t.disk a (first_lt h.file.chain) h.file.size_lt

end FatSuper

end CfKernel.Fat
