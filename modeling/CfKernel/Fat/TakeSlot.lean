import CfKernel.Fat.PreserveFile

/-!
# Taking a free slot

`fat_find_free_slot` returns the first free slot, after extending the directory when it has none.
The slot may be the end mark of the directory: filling it brings the slots behind it into view, so
those must not hold entries.
-/

namespace CfKernel.Fat

open Lib Lib.Eff

variable {a b : Nat} {l pre post slots : List Nat} {d d' : Disk}

/-- No entry stands behind the end mark of the directory, when that is its first free slot. -/
def CleanTail (d : Disk) (slots : List Nat) : Prop :=
  ∀ pre a post, slots = pre ++ a :: post → (∀ b ∈ pre, slotIsFree (d b) = false) → d a = 0 →
    liveSlots d post = []

theorem slots_same (d' : Disk) (h : ∀ b ∈ slots, ∀ k < 32, d' (b + k) = d (b + k)) :
    liveSlots d' slots = liveSlots d slots ∧
      ∀ b ∈ slots, nodeAt d' b = nodeAt d b ∧ entryName d' b = entryName d b :=
  ⟨liveSlots_congr fun b hb => ⟨h b hb 0 (by decide), h b hb 11 (by decide)⟩, fun b hb =>
    ⟨nodeAt_congr (h b hb), entryName_congr fun k hk => h b hb k (by omega)⟩⟩

theorem slotIsFree_eq_false {x : UInt8} : slotIsFree x = false ↔ x ≠ 0 ∧ x ≠ 0xE5 := by
  simp [slotIsFree]

theorem liveSlots_around (hpre : ∀ b ∈ pre, slotIsFree (d b) = false)
    (ha : slotIsFree (d a) = true) (hct : CleanTail d (pre ++ a :: post)) :
    liveSlots d (pre ++ a :: post) = liveSlots d pre ++ liveSlots d post := by
  rw [liveSlots_append, if_pos fun b hb => (slotIsFree_eq_false.mp (hpre b hb)).1]
  by_cases h0 : d a = 0
  · rw [hct pre a post rfl hpre h0, liveSlots, if_pos h0]
  · have he5 : d a = 0xE5 := by simpa [slotIsFree, h0] using ha
    have hdead : slotLive d a = false := by simp [slotLive, he5]
    rw [liveSlots, if_neg h0, if_neg (by simp [hdead])]

theorem liveSlots_filled (hnd : (pre ++ a :: post).Nodup)
    (hpre : ∀ b ∈ pre, slotIsFree (d b) = false) (hsame : ∀ b ∈ pre ++ a :: post, b ≠ a →
      d' b = d b ∧ d' (b + 11) = d (b + 11)) (ha' : d' a ≠ 0) (hlive : slotLive d' a = true) :
    liveSlots d' (pre ++ a :: post) = liveSlots d pre ++ a :: liveSlots d post := by
  obtain ⟨-, hnd', hdis⟩ := List.nodup_append.mp hnd
  have hpost : liveSlots d' post = liveSlots d post := liveSlots_congr fun b hb =>
    hsame b (by simp [hb]) fun hba => (List.nodup_cons.mp hnd').1 (hba ▸ hb)
  have hpre' : ∀ b ∈ pre, d' b = d b ∧ d' (b + 11) = d (b + 11) := fun b hb =>
    hsame b (by simp [hb]) (hdis b hb a (by simp))
  rw [liveSlots_append, if_pos, liveSlots_congr hpre', liveSlots, if_neg ha', if_pos hlive, hpost]
  intro b hb
  rw [(hpre' b hb).1]
  exact (slotIsFree_eq_false.mp (hpre b hb)).1

namespace FatSuper

variable {sb : FatSuper} {c x c' : Nat} {o o' : Option Nat} {m slots' : List Nat}

theorem sectorSlots_nodup (lba : Nat) : (sectorSlots lba).Nodup :=
  List.nodup_range.map fun i j h => by
    omega

theorem rootSlots_nodup (sb : FatSuper) : sb.rootSlots.Nodup := by
  refine List.Nodup.sublist (List.take_sublist _ _) (List.nodup_flatMap.mpr
    ⟨fun s _ => sectorSlots_nodup _, List.nodup_range.imp fun {i j} hij a hi hj => ?_⟩)
  have h1 := mem_sectorSlots hi
  have h2 := mem_sectorSlots hj
  omega

theorem chainSlots_nodup (hl : sb.Chain d c l) : (sb.chainSlots l).Nodup := by
  refine List.nodup_flatMap.mpr ⟨fun x _ => List.nodup_range.map fun i j h => ?_, ?_⟩
  · omega
  · refine List.Pairwise.imp_of_mem (fun {x y} hx hy hxy a ha ha' => hxy ?_) hl.nodup
    exact inCluster_unique (hl.isCluster hx) (hl.isCluster hy)
      ((mem_clusterSlots ha).2 0 (by decide)) ((mem_clusterSlots ha').2 0 (by decide))

theorem DirSlots.nodup (h : sb.DirSlots d c slots) : slots.Nodup := by
  cases h with
  | root _ => exact sb.rootSlots_nodup
  | chain _ hl => exact chainSlots_nodup hl

theorem slot_byte_ne (ha : sb.Slot a) (hb : sb.Slot b) (hne : b ≠ a) {k : Nat} (hk : k < 32) :
    b + k < a ∨ a + 32 ≤ b + k := by
  have h1 := ha.aligned
  have h2 := hb.aligned
  omega

theorem DirSlots.congr (h : sb.DirSlots d c slots)
    (hfat : ∀ l, sb.Chain d c l → ∀ x ∈ l, sb.getFatEntry d' x = sb.getFatEntry d x) :
    sb.DirSlots d' c slots := by
  cases h with
  | root ht => exact .root ht
  | chain hc hl => exact .chain hc (hl.congr (hfat _ hl))

theorem Scribbled.frame (h : sb.Scribbled d d' x) :
    sb.TreeFrame d d' (fun _ => True) (fun _ => False) where
  root := trivial
  dirs o c slots _ _ hs := by
    obtain ⟨hlive, hsame⟩ := slots_same d' fun b hb k hk =>
      h.data _ ((hs.slot hb).ge.trans (Nat.le_add_right _ k)) (hs.apart hb h.free hk)
    refine ⟨slots, hs.congr fun l hl y hy => h.fat y (hl.isCluster hy).2, ?_, ?_⟩
    · rw [hlive]
      exact fun b hb => .inr ⟨hb, trivial⟩
    · rw [hlive]
      exact fun b hb _ => ⟨hb, hsame b (mem_of_mem_liveSlots hb)⟩
  leaf _ _ h := h.elim

theorem Scribbled.wellFormed (hwf : sb.WellFormed d) (h : sb.Scribbled d d' x) :
    sb.WellFormed d' := by
  refine h.frame.wellFormed hwf none (fun o c l _ _ hl => ?_) (fun _ h => h.elim)
    (h.copies hwf.copies)
  exact ⟨l, hl.congr fun y hy => h.fat y (hl.isCluster hy).2, le_rfl, fun y hy => .inl hy⟩

/-- The directory at `c` had no free slot and got the zeroed cluster `x` behind its chain `l`. -/
structure DirGrown (sb : FatSuper) (d d' : Disk) (c x : Nat) (l : List Nat) : Prop where
  first : c ≠ 0
  before : sb.Chain d c l
  full : ∀ a ∈ sb.chainSlots l, slotIsFree (d a) = false
  grown : sb.Grown d d' l (l ++ [x])
  chain : sb.Chain d' c (l ++ [x])

namespace DirGrown

variable (h : sb.DirGrown d d' c x l)

include h

theorem not_mem : x ∉ l := by
  have := h.chain.nodup
  rw [List.nodup_append] at this
  exact fun hx => this.2.2 x hx x (by simp) rfl

theorem free : sb.Free d x := h.grown.fresh x (by simp) h.not_mem

theorem slot_byte (hs : sb.DirSlots d c' slots) (hb : b ∈ slots) {k : Nat} (hk : k < 32) :
    d' (b + k) = d (b + k) := by
  refine h.grown.data _ ((hs.slot hb).ge.trans (Nat.le_add_right _ k)) fun y hy hyl => ?_
  obtain rfl : y = x := by simpa [hyl] using hy
  exact hs.apart hb h.free hk

theorem zero (ha : a ∈ sb.clusterSlots x) : d' a = 0 :=
  h.grown.zero x (by simp) h.not_mem a ((mem_clusterSlots ha).2 0 (by decide))

theorem liveSlots_new {l : List Nat} (hl : ∀ a ∈ l, a ∈ sb.clusterSlots x) :
    liveSlots d' l = [] := by
  cases l with
  | nil => rfl
  | cons a l => rw [liveSlots, if_pos (h.zero (hl a (by simp)))]

omit h in
theorem chainSlots_eq : sb.chainSlots (l ++ [x]) = sb.chainSlots l ++ sb.clusterSlots x := by
  simp [chainSlots]

theorem liveSlots_eq : liveSlots d' (sb.chainSlots (l ++ [x])) = liveSlots d (sb.chainSlots l) := by
  obtain ⟨hlive, -⟩ := slots_same d' fun b hb k hk =>
    h.slot_byte (.chain h.first h.before) hb hk
  rw [chainSlots_eq, liveSlots_append, h.liveSlots_new fun a ha => ha, hlive]
  simp

theorem cleanTail : CleanTail d' (sb.chainSlots (l ++ [x])) := by
  intro pre a post heq hpre ha
  rw [chainSlots_eq] at heq
  refine h.liveSlots_new fun b hb => ?_
  -- the end mark is one of the new slots, so everything behind it is
  rcases List.append_eq_append_iff.mp heq with ⟨q, -, hq⟩ | ⟨q, hq, hq'⟩
  · simp [hq, hb]
  · cases q with
    | nil =>
      rw [List.nil_append] at hq'
      simp [← hq', hb]
    | cons y q =>
      obtain ⟨rfl, -⟩ := List.cons_eq_cons.mp hq'
      have hmem : a ∈ sb.chainSlots l := by simp [hq]
      have hfull := (slotIsFree_eq_false.mp (h.full a hmem)).1
      have hbyte := h.slot_byte (.chain h.first h.before) hmem (k := 0) (by decide)
      exact absurd (hbyte.symm.trans ha) hfull

end DirGrown

/-- A directory without free slots was extended by the zeroed cluster `x`. -/
structure DirExtended (sb : FatSuper) (d d' : Disk) (o : Option Nat) (c x : Nat) (l : List Nat) :
    Prop where
  dir : sb.LiveDir d o c
  first : c ≠ 0
  before : sb.Chain d c l
  full : ∀ a ∈ sb.chainSlots l, slotIsFree (d a) = false
  grown : sb.Grown d d' l (l ++ [x])
  chain : sb.Chain d' c (l ++ [x])

namespace DirExtended

variable (h : sb.DirExtended d d' o c x l)

include h

theorem dirGrown : sb.DirGrown d d' c x l := ⟨h.first, h.before, h.full, h.grown, h.chain⟩

theorem free : sb.Free d x := h.dirGrown.free

section

variable (hwf : sb.WellFormed d)
include hwf

theorem chain_other (ho : sb.Holder d o' c') (hne : o' ≠ o)
    (hm : sb.Chain d c' m) : sb.Chain d' c' m := by
  refine hm.congr fun y hy => h.grown.fat y (hm.isCluster hy).2 fun hyl => ?_
  rcases List.mem_append.mp hyl with hyl | hyx
  · exact hwf.disjoint _ _ _ _ _ _ ho (h.dir.holder h.first) hne hm h.before hy hyl
  · obtain rfl : y = x := by simpa using hyx
    exact h.free.not_mem hm hy

theorem dirSlots (hd : sb.LiveDir d o' c') (hs : sb.DirSlots d c' slots) :
    ∃ slots', sb.DirSlots d' c' slots' ∧ liveSlots d' slots' = liveSlots d slots ∧
      ∀ b ∈ liveSlots d slots, nodeAt d' b = nodeAt d b ∧ entryName d' b = entryName d b := by
  obtain ⟨hlive, hsame⟩ := slots_same d' fun b hb k hk => h.dirGrown.slot_byte hs hb hk
  have hsame' := fun b hb => hsame b (mem_of_mem_liveSlots (d := d) hb)
  by_cases hne : o' = o
  · subst hne
    cases hd.cluster_unique h.dir
    cases hs.unique (.chain h.first h.before)
    exact ⟨_, .chain h.first h.chain, h.dirGrown.liveSlots_eq, hsame'⟩
  · refine ⟨slots, ?_, hlive, hsame'⟩
    cases hs with
    | root ht => exact .root ht
    | chain hc hm => exact .chain hc (h.chain_other hwf (hd.holder hc) hne hm)

theorem frame : sb.TreeFrame d d' (fun _ => True) (fun _ => False) where
  root := trivial
  dirs o' c' slots hd _ hs := by
    obtain ⟨slots', hs', heq, hsame⟩ := h.dirSlots hwf hd hs
    refine ⟨slots', hs', ?_, ?_⟩
    · rw [heq]
      exact fun b hb => .inr ⟨hb, trivial⟩
    · rw [heq]
      exact fun b hb _ => ⟨hb, hsame b hb⟩
  leaf _ _ h := h.elim

theorem wellFormed : sb.WellFormed d' := by
  refine (h.frame hwf).wellFormed hwf o (fun o' c' m ho _ hm => ?_) (fun _ h => h.elim)
    (h.grown.copies hwf.copies)
  by_cases hne : o' = o
  · subst hne
    cases ho.cluster_unique (h.dir.holder h.first)
    cases hm.unique h.before
    refine ⟨_, h.chain, by simp, fun y hy => ?_⟩
    rcases List.mem_append.mp hy with hy | hy
    · exact .inl hy
    · obtain rfl : y = x := by simpa using hy
      exact .inr ⟨rfl, h.free.notOthers⟩
  · exact ⟨m, h.chain_other hwf ho hne hm, le_rfl, fun y hy => .inl hy⟩

end

end DirExtended

/-- The directory at `c` as it is, or with one more cluster. -/
def SlotReady (sb : FatSuper) (d d' : Disk) (o : Option Nat) (c : Nat) : Prop :=
  d' = d ∨ ∃ x l, sb.DirExtended d d' o c x l

theorem SlotReady.dirSlots (hwf : sb.WellFormed d) (h : sb.SlotReady d d' o c)
    (hd : sb.LiveDir d o' c') (hs : sb.DirSlots d c' slots) : sb.WellFormed d' ∧
      sb.LiveDir d' o' c' ∧ ∃ slots', sb.DirSlots d' c' slots' ∧
        liveSlots d' slots' = liveSlots d slots ∧
        ∀ b ∈ liveSlots d slots, nodeAt d' b = nodeAt d b ∧ entryName d' b = entryName d b := by
  rcases h with rfl | ⟨x, l, hext⟩
  · exact ⟨hwf, hd, slots, hs, rfl, fun _ _ => ⟨rfl, rfl⟩⟩
  · exact ⟨hext.wellFormed hwf, (hext.frame hwf).liveDir_forward (fun _ _ _ _ _ _ _ _ => trivial)
      hd trivial, hext.dirSlots hwf hd hs⟩

/-- The slot that `fat_find_free_slot` returns is the first free one of the directory as it is
afterwards, which has the entries it had. -/
theorem SlotTaken.ready (hs : sb.DirSlots d c slots) (hct : CleanTail d slots)
    (h : sb.SlotTaken d c slots d' a) :
    (d' = d ∨ ∃ x l, sb.DirGrown d d' c x l) ∧ ∃ slots', sb.DirSlots d' c slots' ∧
      slots'.find? (fun a => slotIsFree (d' a)) = some a ∧ CleanTail d' slots' ∧
      liveSlots d' slots' = liveSlots d slots ∧
      ∀ b ∈ liveSlots d slots, ∀ k < 32, d' (b + k) = d (b + k) := by
  cases h with
  | found hf => exact ⟨.inl rfl, slots, hs, hf, hct, rfl, fun _ _ _ _ => rfl⟩
  | @appended l x _ hc hl hf hg hch =>
    cases hs.unique (.chain hc hl)
    have hext : sb.DirGrown d d' c x l := by
      refine ⟨hc, hl, fun a ha => ?_, hg, hch⟩
      simpa using List.find?_eq_none.mp hf a ha
    refine ⟨.inr ⟨x, l, hext⟩, _, .chain hc hch, ?_, hext.cleanTail, hext.liveSlots_eq,
      fun b hb k hk => hext.slot_byte hs (mem_of_mem_liveSlots hb) hk⟩
    rw [DirGrown.chainSlots_eq, List.find?_append, List.find?_eq_none.mpr, Option.none_or]
    · obtain ⟨n, hn⟩ : ∃ n, 16 * sb.sectorsPerCluster = n + 1 :=
        ⟨16 * sb.sectorsPerCluster - 1, by have := sb.sound.spc_pos; omega⟩
      have hzero := hext.zero (sb.clusterAddr_mem_clusterSlots x)
      rw [clusterSlots, hn, map_slots_succ, List.find?_cons_of_pos]
      simp [slotIsFree, hzero]
    · intro b hb
      rw [show d' b = d b from hext.slot_byte (.chain hc hl) hb (k := 0) (by decide)]
      exact List.find?_eq_none.mp hf b hb

theorem SlotTaken.taken (hd : sb.LiveDir d o c) (hs : sb.DirSlots d c slots)
    (hct : CleanTail d slots) (h : sb.SlotTaken d c slots d' a) :
    sb.SlotReady d d' o c ∧ ∃ slots', sb.DirSlots d' c slots' ∧
      slots'.find? (fun a => slotIsFree (d' a)) = some a ∧ CleanTail d' slots' := by
  obtain ⟨hready, slots', hs', hf, hct', -⟩ := h.ready hs hct
  refine ⟨?_, slots', hs', hf, hct'⟩
  rcases hready with rfl | ⟨x, l, hg⟩
  · exact .inl rfl
  · exact .inr ⟨x, l, hd, hg.first, hg.before, hg.full, hg.grown, hg.chain⟩

end FatSuper

end CfKernel.Fat
