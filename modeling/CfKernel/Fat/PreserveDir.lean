import CfKernel.Fat.TakeSlot
import CfKernel.Fat.Names

/-!
# Directory operations keep a volume well formed

A new entry in the first free slot and the deletion of an entry.
-/

namespace CfKernel.Fat

open Lib Lib.Eff Function

variable {a b : Nat} {l slots : List Nat} {d d' : Disk} {sn name : List UInt8} {attr : UInt8}

theorem liveSlots_deleted (hsame : ∀ b ∈ l, b ≠ a → d' b = d b ∧ d' (b + 11) = d (b + 11))
    (ha : d a ≠ 0) (ha' : d' a = 0xE5) : liveSlots d' l = (liveSlots d l).filter (· ≠ a) := by
  induction l with
  | nil => rfl
  | cons y l ih =>
    have ih' := ih fun b hb => hsame b (by simp [hb])
    by_cases hy : y = a
    · subst hy
      have hdead : slotLive d' y = false := by simp [slotLive, ha']
      rw [liveSlots, liveSlots, if_neg ha, if_neg (by rw [ha']; decide), if_neg (by simp [hdead]),
        ih']
      split_ifs
      · simp
      · rfl
    · obtain ⟨h0, h11⟩ := hsame y (by simp) hy
      have hlive : slotLive d' y = slotLive d y := by rw [slotLive, slotLive, h0, h11]
      rw [liveSlots, liveSlots, h0, hlive]
      split_ifs
      · rfl
      · simp [ih', hy]
      · exact ih'

theorem entryName_of_bytes (n : List UInt8) (hlen : n.length = 11)
    (h : ∀ i < 11, d (a + i) = n.getD i 0) : entryName d a = fatNameToStr n := by
  refine congrArg fatNameToStr (List.ext_getElem (by simp [direntAt, hlen]) fun i hi _ => ?_)
  have hi' : i < 11 := by simpa [direntAt] using hi
  simp [direntAt, h i hi', hlen, hi']

theorem fatDirentBytes_name (n : List UInt8) (attr : UInt8) (c : Nat) {i : Nat} (hi : i < 11) :
    fatDirentBytes n attr c i = n.getD i 0 := by
  simp only [fatDirentBytes]
  rw [putLe16_outside (by omega), putLe16_outside (by omega), update_of_ne (by omega)]

namespace FatSuper

variable {sb : FatSuper} {c x c' parent : Nat} {o o' : Option Nat} {m slots' : List Nat}

theorem nodeAt_of_bytes (hlen : sn.length = 11) (hc : c < 2 ^ 32)
    (h : ∀ k < 32, d (a + k) = fatDirentBytes sn attr c k) : nodeAt d a = newNode a c attr := by
  have hde : direntAt d a = direntAt (fatDirentBytes sn attr c) 0 :=
    direntAt_congr fun k hk => by rw [Nat.zero_add]; exact h k hk
  have hattr : (direntAt (fatDirentBytes sn attr c) 0).attr = attr := by
    simp only [direntAt, fatDirentBytes, Nat.zero_add]
    rw [putLe16_outside (by decide), putLe16_outside (by decide), update_self]
  have hcl : (direntAt (fatDirentBytes sn attr c) 0).cluster = c := by
    have hhi : le16 (fatDirentBytes sn attr c) 20 = c >>> 16 := by
      rw [le16_of_bytes (v := c >>> 16), Nat.mod_eq_of_lt]
      · rw [Nat.shiftRight_eq_div_pow]
        omega
      · intro k hk
        rw [fatDirentBytes, putLe16_outside (by omega), putLe16_apply _ _ _ k hk]
    have hlo : le16 (fatDirentBytes sn attr c) 26 = c % 2 ^ 16 :=
      le16_of_bytes fun k hk => by rw [fatDirentBytes, putLe16_apply _ _ _ k hk]
    simp only [FatDirent.cluster, direntAt, Nat.zero_add, hhi, hlo]
    rw [Nat.or_comm, or_shiftLeft_eq_add (by omega), Nat.shiftRight_eq_div_pow]
    omega
  have hsz : (direntAt (fatDirentBytes sn attr c) 0).fileSize = 0 := by
    refine (le32_of_bytes fun k hk => ?_).trans (Nat.zero_mod _)
    rw [fatDirentBytes, putLe16_outside (by omega), putLe16_outside (by omega),
      update_of_ne (by omega), List.getD_eq_getElem?_getD, List.getElem?_eq_none (by omega)]
    simp [byteOf]
  rw [nodeAt, hde]
  simp only [fatNodeOf, hattr, hcl, hsz, newNode]

theorem dotContents_zero (hdots : ∀ k < sb.clusterSize,
      d' (sb.clusterAddr c + k) = fatDotContents c parent k) {k : Nat}
    (hk : k < 16 * sb.sectorsPerCluster) : d' (sb.clusterAddr c + 32 * k) = 0 ↔ 2 ≤ k := by
  have hcs := sb.clusterSize_eq
  rw [hdots _ (by omega), fatDotContents]
  constructor
  · intro h0
    by_contra hk2
    obtain rfl | rfl : k = 0 ∨ k = 1 := by omega
    · rw [splice_outside (.inl (by omega)), splice_inside (by omega) (by omega),
        fatDirentBytes_name _ _ _ (by omega)] at h0
      exact absurd h0 (by decide)
    · rw [splice_inside (by omega) (by omega), fatDirentBytes_name _ _ _ (by omega)] at h0
      exact absurd h0 (by decide)
  · intro hk2
    rw [splice_outside (.inr (by omega)), splice_outside (.inr (by omega))]

theorem dotContents_isDot {x₀ : Nat} (hdots : ∀ k < sb.clusterSize,
      d' (sb.clusterAddr c + k) = fatDotContents c parent k)
    (hx : x₀ ∈ liveSlots d' (sb.clusterSlots c)) : entryIsDot d' x₀ = true := by
  obtain ⟨k, hk, rfl⟩ := List.mem_map.mp (mem_of_mem_liveSlots hx)
  rw [List.mem_range] at hk
  have hcs := sb.clusterSize_eq
  have hbyte : ∀ i < 32, d' (sb.clusterAddr c + 32 * k + i) =
      fatDotContents c parent (32 * k + i) := fun i hi => by
    rw [Nat.add_assoc]
    exact hdots _ (by omega)
  have hk2 : k < 2 := by
    have h0 := (live_of_mem_liveSlots hx).1
    rw [ne_eq, dotContents_zero hdots hk] at h0
    omega
  rw [entryIsDot]
  obtain rfl | rfl : k = 0 ∨ k = 1 := by omega
  · rw [entryName_of_bytes (0x2E :: List.replicate 10 0x20) rfl fun i hi => ?_]
    · decide
    · rw [hbyte i (by omega), fatDotContents, splice_outside (.inl (by omega)), Nat.mul_zero,
        splice_at_add (by omega), fatDirentBytes_name _ _ _ hi]
  · rw [entryName_of_bytes (0x2E :: 0x2E :: List.replicate 9 0x20) rfl fun i hi => ?_]
    · decide
    · rw [hbyte i (by omega), fatDotContents, Nat.mul_one, splice_at_add (by omega),
        fatDirentBytes_name _ _ _ hi]

theorem dotContents_cleanTail (hdots : ∀ k < sb.clusterSize,
      d' (sb.clusterAddr c + k) = fatDotContents c parent k) :
    CleanTail d' (sb.clusterSlots c) := by
  intro pre a post heq _ ha
  have hget : ∀ i b, (pre ++ a :: post)[i]? = some b →
      i < 16 * sb.sectorsPerCluster ∧ b = sb.clusterAddr c + 32 * i := by
    intro i b hb
    rw [← heq, clusterSlots, List.getElem?_map, Option.map_eq_some_iff] at hb
    obtain ⟨j, hj, rfl⟩ := hb
    obtain ⟨hi, rfl⟩ := List.getElem?_eq_some_iff.mp hj
    simpa using hi
  obtain ⟨hk, rfl⟩ := hget pre.length a (by simp)
  have hk2 := (dotContents_zero hdots hk).mp ha
  cases post with
  | nil => rfl
  | cons b post =>
    obtain ⟨hk', rfl⟩ := hget (pre.length + 1) b (by simp)
    rw [liveSlots, if_pos ((dotContents_zero hdots hk').mpr (by omega))]

theorem newNode_isDir (a c : Nat) (attr : UInt8) :
    (newNode a c attr).isDir = decide (attr &&& 0x10 ≠ 0) := rfl

/-- A short name was put into slot `a`, the first free one of a directory. -/
structure SlotFilled (sb : FatSuper) (d d' : Disk) (slots : List Nat) (a : Nat) (sn : List UInt8)
    (x : Nat) (attr : UInt8) : Prop where
  dir : ∃ c, sb.DirSlots d c slots
  first : slots.find? (fun a => slotIsFree (d a)) = some a
  clean : CleanTail d slots
  short : ∃ name, fatMakeShortName name = .ok sn
  added : ∃ parent, sb.EntryAdded d d' a sn attr x parent
  kind : (attr = 0x10 ∧ x ≠ 0) ∨ (attr = 0x20 ∧ x = 0)

namespace SlotFilled

variable (h : sb.SlotFilled d d' slots a sn x attr)

include h

theorem slot_free : slotIsFree (d a) = true := List.find?_some (p := fun a => slotIsFree (d a)) h.first

theorem slot : sb.Slot a := by
  obtain ⟨c, hs⟩ := h.dir
  exact hs.slot (List.mem_of_find?_eq_some h.first)

theorem first_lt : x < 2 ^ 32 := by
  obtain ⟨parent, hadd⟩ := h.added
  by_cases hx : x = 0
  · rw [hx]
    decide
  · have hcl := (hadd.free hx).1.2
    have := sb.clusterCount_lt
    omega

theorem node_eq : nodeAt d' a = newNode a x attr := by
  obtain ⟨parent, hadd⟩ := h.added
  obtain ⟨name, hshort⟩ := h.short
  exact nodeAt_of_bytes (fatMakeShortName_ok hshort).1 h.first_lt hadd.slot

theorem name_eq : entryName d' a = fatNameToStr sn := by
  obtain ⟨parent, hadd⟩ := h.added
  obtain ⟨name, hshort⟩ := h.short
  refine entryName_of_bytes sn (fatMakeShortName_ok hshort).1 fun i hi => ?_
  rw [hadd.slot i (by omega), fatDirentBytes_name _ _ _ hi]

theorem first_byte : d' a ≠ 0 ∧ d' a ≠ 0xE5 := by
  obtain ⟨parent, hadd⟩ := h.added
  obtain ⟨name, hshort⟩ := h.short
  obtain ⟨-, ch, hhead, h0, he5, -⟩ := fatMakeShortName_ok hshort
  have hb : d' a = ch := by
    have := hadd.slot 0 (by decide)
    rw [Nat.add_zero, fatDirentBytes_name _ _ _ (by decide)] at this
    rw [this]
    cases sn with
    | nil => cases hhead
    | cons y sn =>
      cases hhead
      rfl
  rw [hb]
  exact ⟨h0, he5⟩

theorem slotLive_new : slotLive d' a = true := by
  have hattr : d' (a + 11) = attr := congrArg FatNode.attr h.node_eq
  rw [slotLive_iff, hattr]
  refine ⟨h.first_byte.2, ?_⟩
  rcases h.kind with ⟨rfl, -⟩ | ⟨rfl, -⟩
  · decide
  · decide

theorem notDot : entryIsDot d' a = false := by
  obtain ⟨name, hshort⟩ := h.short
  obtain ⟨-, ch, hhead, h0, -, h20, h2e⟩ := fatMakeShortName_ok hshort
  rw [entryIsDot, h.name_eq]
  cases sn with
  | nil => cases hhead
  | cons y sn =>
    cases hhead
    simp [fatNameToStr, isDotName, h0, h20, h2e]

theorem fat_old (hm : sb.Chain d c m) {y : Nat} (hy : y ∈ m) :
    sb.getFatEntry d' y = sb.getFatEntry d y := by
  obtain ⟨parent, hadd⟩ := h.added
  rw [hadd.fat y (hm.isCluster hy).2, if_neg]
  rintro ⟨hx, rfl⟩
  exact (hadd.free hx).not_mem hm hy

theorem slot_byte (hs : sb.DirSlots d c slots') (hb : b ∈ slots') (hne : b ≠ a) {k : Nat}
    (hk : k < 32) : d' (b + k) = d (b + k) := by
  obtain ⟨parent, hadd⟩ := h.added
  exact hadd.data _ ((hs.slot hb).ge.trans (Nat.le_add_right _ k))
    (slot_byte_ne h.slot (hs.slot hb) hne hk) fun hx => hs.apart hb (hadd.free hx) hk

theorem liveSlots_eq : ∃ p q, liveSlots d slots = p ++ q ∧ liveSlots d' slots = p ++ a :: q := by
  obtain ⟨c, hs⟩ := h.dir
  have hfree := h.slot_free
  have hclean := h.clean
  obtain ⟨-, pre, post, rfl, hpre⟩ := List.find?_eq_some_iff_append.mp h.first
  have hpre' : ∀ b ∈ pre, slotIsFree (d b) = false := fun b hb => by simpa using hpre b hb
  have hsame : ∀ b ∈ pre ++ a :: post, b ≠ a → d' b = d b ∧ d' (b + 11) = d (b + 11) :=
    fun b hb hne => ⟨h.slot_byte hs hb hne (k := 0) (by decide),
      h.slot_byte hs hb hne (by decide)⟩
  exact ⟨_, _, liveSlots_around hpre' hfree hclean,
    liveSlots_filled hs.nodup hpre' hsame h.first_byte.1 h.slotLive_new⟩

theorem mem_liveSlots : b ∈ liveSlots d' slots ↔ b = a ∨ b ∈ liveSlots d slots := by
  obtain ⟨p, q, heq, heq'⟩ := h.liveSlots_eq
  rw [heq, heq']
  simp only [List.mem_append, List.mem_cons]
  tauto

theorem chain_new : sb.Chain d' x (if x = 0 then [] else [x]) := by
  obtain ⟨parent, hadd⟩ := h.added
  split_ifs with hx
  · exact hx
  · have hcl := (hadd.free hx).1
    refine path_cons.mpr ⟨rfl, 0, link_of_eoc hcl ?_, rfl⟩
    rw [hadd.fat x hcl.2, if_pos ⟨hx, rfl⟩]

theorem cleanTail_new (hx : x ≠ 0) (hs : sb.DirSlots d' x slots') : CleanTail d' slots' := by
  obtain ⟨parent, hadd⟩ := h.added
  have hch := h.chain_new
  rw [if_neg hx] at hch
  cases hs.unique (.chain hx hch)
  rw [show sb.chainSlots [x] = sb.clusterSlots x by simp [chainSlots]]
  exact dotContents_cleanTail (hadd.dots hx)

end SlotFilled

/-- `fat_create_vn` filled slot `a`, the first free one of the live directory `o`. -/
structure NewEntry (sb : FatSuper) (d d' : Disk) (o : Option Nat) (slots : List Nat) (a : Nat)
    (sn : List UInt8) (x : Nat) (attr : UInt8) : Prop where
  wf : sb.WellFormed d
  dir : ∃ c, sb.LiveDir d o c ∧ sb.DirSlots d c slots
  first : slots.find? (fun a => slotIsFree (d a)) = some a
  clean : CleanTail d slots
  short : ∃ name, fatMakeShortName name = .ok sn
  added : ∃ parent, sb.EntryAdded d d' a sn attr x parent
  kind : (attr = 0x10 ∧ x ≠ 0) ∨ (attr = 0x20 ∧ x = 0)

namespace NewEntry

variable (h : sb.NewEntry d d' o slots a sn x attr)

include h

theorem filled : sb.SlotFilled d d' slots a sn x attr := by
  obtain ⟨c, -, hs⟩ := h.dir
  exact ⟨⟨c, hs⟩, h.first, h.clean, h.short, h.added, h.kind⟩

theorem not_live : ¬ sb.LiveEntry d a := by
  rintro ⟨_, _, _, -, -, ha⟩
  obtain ⟨h0, hlive⟩ := live_of_mem_liveSlots ha
  have hfree := h.filled.slot_free
  rw [slotIsFree_eq_false.mpr ⟨h0, (slotLive_iff.mp hlive).1⟩] at hfree
  cases hfree

theorem keep_dir (hd : sb.LiveDir d o' c') : o' ≠ some a := by
  rintro rfl
  exact h.not_live hd.liveEntry

theorem frame : sb.TreeFrame d d' (· ≠ some a) (· = a) where
  root := by simp
  dirs o' c' slots' hd' _ hs' := by
    obtain ⟨c, hd, hs⟩ := h.dir
    have hold : ∀ b ∈ liveSlots d slots', b ≠ a := by
      rintro b hb rfl
      exact h.not_live ⟨_, _, _, hd', hs', hb⟩
    have hsame : ∀ b ∈ slots', b ≠ a → nodeAt d' b = nodeAt d b ∧ entryName d' b = entryName d b :=
      fun b hb hne => ⟨nodeAt_congr fun k hk => h.filled.slot_byte hs' hb hne hk,
        entryName_congr fun k hk => h.filled.slot_byte hs' hb hne (by omega)⟩
    have hmem : (∀ b ∈ liveSlots d' slots', b = a ∨ b ∈ liveSlots d slots') ∧
        ∀ b ∈ liveSlots d slots', b ∈ liveSlots d' slots' := by
      by_cases ha : a ∈ slots'
      · -- `a` is a slot of one directory only
        cases h.wf.slot_owner hd hd' hs hs' (List.mem_of_find?_eq_some h.first) ha
        cases hd.cluster_unique hd'
        cases hs.unique hs'
        exact ⟨fun b hb => h.filled.mem_liveSlots.mp hb, fun b hb => h.filled.mem_liveSlots.mpr (.inr hb)⟩
      · have heq : liveSlots d' slots' = liveSlots d slots' := liveSlots_congr fun b hb => by
          have hne : b ≠ a := fun hba => ha (hba ▸ hb)
          exact ⟨h.filled.slot_byte hs' hb hne (k := 0) (by decide), h.filled.slot_byte hs' hb hne (by decide)⟩
        rw [heq]
        exact ⟨fun b hb => .inr hb, fun b hb => hb⟩
    refine ⟨slots', hs'.congr fun l hl y hy => h.filled.fat_old hl hy, fun b hb => ?_,
      fun b hb _ => ?_⟩
    · exact (hmem.1 b hb).imp_right fun hb' => ⟨hb', by simpa using hold b hb'⟩
    · exact ⟨hmem.2 b hb, hsame b (mem_of_mem_liveSlots hb) (hold b hb)⟩
  leaf b slots' hb hdir hs' y hy := by
    subst hb
    obtain ⟨parent, hadd⟩ := h.added
    have hnode := h.filled.node_eq
    rw [entryIsDir, hnode] at hdir
    rw [entryCluster, hnode] at hs'
    rcases h.kind with ⟨-, hx⟩ | ⟨rfl, -⟩
    · have hch := h.filled.chain_new
      rw [if_neg hx] at hch
      cases hs'.unique (.chain hx hch)
      exact dotContents_isDot (hadd.dots hx) (by simpa [chainSlots] using hy)
    · rw [newNode_isDir] at hdir
      exact absurd hdir (by decide)

theorem wellFormed : sb.WellFormed d' := by
  obtain ⟨parent, hadd⟩ := h.added
  refine h.frame.wellFormed h.wf (some a) (fun o c m _ _ hm => ?_) ?_ (hadd.copies h.wf.copies)
  · exact ⟨m, hm.congr fun y hy => h.filled.fat_old hm hy, le_rfl, fun y hy => .inl hy⟩
  · rintro b rfl
    rw [entryCluster, entrySize, h.filled.node_eq]
    refine ⟨_, h.filled.chain_new, fun y hy => .inr ⟨rfl, ?_⟩, Nat.zero_le _⟩
    by_cases hx : x = 0
    · simp [hx] at hy
    · obtain rfl : y = x := by simpa [hx] using hy
      exact (hadd.free hx).notOthers

theorem liveEntry_new : sb.LiveEntry d' a := by
  obtain ⟨c, hd, hs⟩ := h.dir
  refine ⟨o, c, slots, ?_, hs.congr fun l hl y hy => h.filled.fat_old hl hy,
    h.filled.mem_liveSlots.mpr (.inl rfl)⟩
  exact h.frame.liveDir_forward (fun _ _ _ _ hd _ _ _ => h.keep_dir hd) hd (h.keep_dir hd)

end NewEntry

/-- `fat_unlink_vn` deleted the live entry in slot `a`, whose chain was `l`. -/
structure Unlinked (sb : FatSuper) (d d' : Disk) (a : Nat) (l : List Nat) : Prop where
  wf : sb.WellFormed d
  live : sb.LiveEntry d a
  notDot : entryIsDot d a = false
  before : sb.Chain d (entryCluster d a) l
  removed : sb.EntryRemoved d d' a l

namespace Unlinked

variable (h : sb.Unlinked d d' a l)

include h

theorem slot : sb.Slot a := by
  obtain ⟨_, _, _, -, hs, ha⟩ := h.live
  exact hs.slot (mem_of_mem_liveSlots ha)

theorem fat_other (ho : sb.Holder d o c) (hne : o ≠ some a) (hm : sb.Chain d c m) {y : Nat}
    (hy : y ∈ m) : sb.getFatEntry d' y = sb.getFatEntry d y := by
  rw [h.removed.fat y (hm.isCluster hy).2, if_neg]
  exact h.wf.disjoint _ _ _ _ _ _ ho (.entry h.live h.notDot) hne hm h.before hy

theorem slot_byte (hb : sb.Slot b) (hne : b ≠ a) {k : Nat} (hk : k < 32) :
    d' (b + k) = d (b + k) := by
  refine h.removed.data _ (hb.ge.trans (Nat.le_add_right _ k)) ?_
  have := slot_byte_ne h.slot hb hne hk
  omega

theorem liveSlots_eq (hs : sb.DirSlots d c slots) :
    liveSlots d' slots = (liveSlots d slots).filter (· ≠ a) := by
  obtain ⟨_, _, _, -, -, ha⟩ := h.live
  exact liveSlots_deleted (fun b hb hne => ⟨h.slot_byte (hs.slot hb) hne (k := 0) (by decide),
    h.slot_byte (hs.slot hb) hne (by decide)⟩) (live_of_mem_liveSlots ha).1 h.removed.deleted

theorem dirSlots (hd : sb.LiveDir d o c) (hne : o ≠ some a) (hs : sb.DirSlots d c slots) :
    sb.DirSlots d' c slots := by
  cases hs with
  | root ht => exact .root ht
  | chain hc hm => exact .chain hc (hm.congr fun y hy => h.fat_other (hd.holder hc) hne hm hy)

theorem frame : sb.TreeFrame d d' (· ≠ some a) (fun _ => False) where
  root := by simp
  dirs o' c' slots' hd' hne hs' := by
    refine ⟨slots', h.dirSlots hd' hne hs', fun b hb => ?_, fun b hb hba => ?_⟩
    · rw [h.liveSlots_eq hs', List.mem_filter] at hb
      exact .inr ⟨hb.1, by simpa using hb.2⟩
    · have hba' : b ≠ a := by simpa using hba
      have hslot := hs'.slot (mem_of_mem_liveSlots hb)
      exact ⟨by rw [h.liveSlots_eq hs']; exact List.mem_filter.mpr ⟨hb, by simpa using hba'⟩,
        nodeAt_congr fun k hk => h.slot_byte hslot hba' hk,
        entryName_congr fun k hk => h.slot_byte hslot hba' (by omega)⟩
  leaf _ _ h := h.elim

theorem wellFormed : sb.WellFormed d' := by
  refine h.frame.wellFormed h.wf none (fun o c m ho hne hm => ?_) (fun _ h => h.elim)
    (h.removed.copies h.wf.copies)
  exact ⟨m, hm.congr fun y hy => h.fat_other ho hne hm hy, le_rfl, fun y hy => .inl hy⟩

end Unlinked

end FatSuper

end CfKernel.Fat
