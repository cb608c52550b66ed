import CfKernel.Fat.TreeFrame

/-!
# File operations keep a volume well formed

A file operation changes table entries and bytes of the file's own clusters and of free ones, and
the cluster and size fields of its directory slot. Every directory is made of other clusters, so
the live entries are the same before and after.
-/

namespace CfKernel.Fat

open Lib Lib.Eff

namespace FatSuper

variable {sb : FatSuper} {a b c x : Nat} {o : Option Nat} {l l' slots : List Nat}
variable {d d' : Disk} {s t : FatState}

/-- An operation on the file in slot `a` of a well-formed volume through a vnode with chain `l`;
afterwards the entry has chain `l'`. -/
structure FileChange (sb : FatSuper) (d d' : Disk) (a : Nat) (l l' : List Nat) : Prop where
  wf : sb.WellFormed d
  live : sb.LiveEntry d a
  notDot : entryIsDot d a = false
  isFile : entryIsDir d a = false
  clusters : ∀ x ∈ l, sb.IsCluster x ∧ sb.NotOthers d (some a) x
  chain : sb.Chain d' (entryCluster d' a) l'
  covers : entrySize d' a ≤ l'.length * sb.clusterSize
  owned : ∀ x ∈ l', x ∈ l ∨ sb.Free d x
  fat : ∀ x < sb.clusterCount + 2, x ∉ l → ¬ sb.Free d x →
    sb.getFatEntry d' x = sb.getFatEntry d x
  data : ∀ b, sb.rootDirStart * 512 ≤ b → (∀ x, x ∈ l ∨ sb.Free d x → ¬ sb.InCluster x b) →
    (b < a + 20 ∨ a + 32 ≤ b) → d' b = d b
  copies : sb.CopiesEqual d → sb.CopiesEqual d'

/-- After a call that stopped before it wrote the entry, the entry has the chain it had. -/
theorem Stale.entry_chain (ht : Stale a s t l l') (hat : sb.Attached s a l)
    (h : sb.FileStep a s t l l') : ∃ m, sb.Chain t.disk (entryCluster t.disk a) m ∧
      entrySize t.disk a ≤ m.length * sb.clusterSize ∧ (∀ x ∈ m, x ∈ l') ∧ Tracked t a := by
  have hnode := nodeAt_congr ht.entry
  have hnone : entryCluster s.disk a = 0 → entrySize s.disk a = 0 → s.node.size = 0 →
      ∃ m, sb.Chain t.disk (entryCluster t.disk a) m ∧
      entrySize t.disk a ≤ m.length * sb.clusterSize ∧ (∀ x ∈ m, x ∈ l') ∧ Tracked t a := by
    intro hcl hsz hns
    have hcl' : entryCluster t.disk a = 0 := by rw [entryCluster, hnode, ← hcl, entryCluster]
    have hsz' : entrySize t.disk a = 0 := by rw [entrySize, hnode, ← hsz, entrySize]
    exact ⟨[], hcl', hsz'.le.trans (Nat.zero_le _), by simp, .inr ⟨hcl', hsz', ht.size.trans hns⟩⟩
  rcases hat.entry with hs | ⟨hcl, hsz, hns⟩
  · cases l with
    | nil =>
      -- the entry still says "no cluster", whatever the node has allocated
      have h0 : s.node.firstCluster = 0 := hat.file.chain
      have hz : s.node.size = 0 := by simpa using hat.file.size_le
      exact hnone (hs.1.trans h0) (hs.2.trans hz) hz
    | cons y q =>
      obtain ⟨r, hr⟩ := ht.pre
      have hfirst : t.node.firstCluster = s.node.firstCluster := by
        rw [hat.file.chain.head_eq]
        have hc := h.file.chain
        rw [← hr] at hc
        exact hc.head_eq
      have hcl : entryCluster t.disk a = t.node.firstCluster := by
        rw [entryCluster, hnode, hfirst]
        exact hs.1
      have hsz : entrySize t.disk a = t.node.size := by
        rw [entrySize, hnode, ht.size]
        exact hs.2
      refine ⟨l', ?_, ?_, fun x hx => hx, .inl ⟨hcl, hsz⟩⟩
      · rw [hcl]
        exact h.file.chain
      · rw [hsz]
        exact h.file.size_le
  · exact hnone hcl hsz hns

/-- The table and every byte the rest of the volume can see, after a step through an attached
vnode. -/
theorem FileStep.change (h : sb.FileStep a s t l l') (hwf : sb.WellFormed s.disk)
    (hat : sb.Attached s a l) (ht : Synced t a ∨ Stale a s t l l') :
    ∃ m, sb.FileChange s.disk t.disk a l m ∧ Tracked t a := by
  have key : ∃ m, sb.Chain t.disk (entryCluster t.disk a) m ∧
      entrySize t.disk a ≤ m.length * sb.clusterSize ∧ (∀ x ∈ m, x ∈ l') ∧ Tracked t a := by
    rcases ht with ht | ht
    · refine ⟨l', ?_, ?_, fun x hx => hx, .inl ht⟩
      · rw [show entryCluster t.disk a = t.node.firstCluster from ht.1]
        exact h.file.chain
      · rw [show entrySize t.disk a = t.node.size from ht.2]
        exact h.file.size_le
    · exact ht.entry_chain hat h
  obtain ⟨m, hm, hcov, hsub, hent⟩ := key
  exact ⟨m,
    { wf := hwf
      live := hat.live
      notDot := hat.notDot
      isFile := hat.isFile
      clusters := fun x hx => ⟨hat.file.chain.isCluster hx, hat.mine x hx⟩
      chain := hm
      covers := hcov
      owned := fun x hx => h.owned x (hsub x hx)
      fat := fun x hx hxl hxf => h.fat x hx hxl fun hxl' => (h.owned x hxl').elim hxl hxf
      data := fun b hb hx hf =>
        h.data b hb (fun x hxl => hx x (hxl.elim .inl fun hxl' => h.owned x hxl')) hf
      copies := h.copies }, hent⟩

namespace FileChange

variable (hch : sb.FileChange d d' a l l')
variable {m : List Nat}

include hch

theorem chain_other (ho : sb.Holder d o c) (hne : o ≠ some a)
    (hm : sb.Chain d c m) : sb.Chain d' c m := by
  refine hm.congr fun x hx => hch.fat x (hm.isCluster hx).2 (fun hxl => ?_) fun hf =>
    hf.not_mem hm hx
  exact (hch.clusters x hxl).2 o c m ho hne hm hx

section

variable (h : sb.LiveDir d o c)
include h

section

variable (hs : sb.DirSlots d c slots)
include hs

theorem dirSlots : sb.DirSlots d' c slots := by
  cases hs with
  | root ht => exact .root ht
  | chain hc hm =>
    refine .chain hc (hch.chain_other (h.holder hc) ?_ hm)
    rintro rfl
    exact absurd hch.isFile (by rw [h.isDir]; decide)

theorem slot_byte (hb : b ∈ slots) {k : Nat}
    (hk : k < 32) (hfld : b ≠ a ∨ k < 20) : d' (b + k) = d (b + k) := by
  have hslot := hs.slot hb
  have haslot : sb.Slot a := by
    obtain ⟨_, _, _, -, hs', ha'⟩ := hch.live
    exact hs'.slot (mem_of_mem_liveSlots ha')
  refine hch.data _ (hslot.ge.trans (Nat.le_add_right _ _)) ?_ ?_
  · rintro x (hx | hx)
    · refine h.slot_apart hs hb (hch.clusters x hx).1 (hch.clusters x hx).2 ?_ hk
      rintro rfl
      exact absurd hch.isFile (by rw [h.isDir]; decide)
    · exact hs.apart hb hx hk
  · have h1 := hslot.aligned
    have h2 := haslot.aligned
    omega

theorem liveSlots_eq : liveSlots d' slots = liveSlots d slots :=
  liveSlots_congr fun b hb =>
    ⟨hch.slot_byte h hs hb (k := 0) (by decide) (.inr (by decide)),
      hch.slot_byte h hs hb (by decide) (.inr (by decide))⟩

theorem name_eq (hb : b ∈ slots) : entryName d' b = entryName d b :=
  entryName_congr fun _ hk =>
    hch.slot_byte h hs hb (by omega) (.inr (by omega))

theorem nodeAt_eq (hb : b ∈ slots) (hne : b ≠ a) : nodeAt d' b = nodeAt d b :=
  nodeAt_congr fun _ hk => hch.slot_byte h hs hb hk (.inl hne)

end

end

theorem isFile_after : entryIsDir d' a = false := by
  obtain ⟨o, c, slots, hd, hs, ha⟩ := hch.live
  rw [entryIsDir_congr (hch.slot_byte hd hs (mem_of_mem_liveSlots ha) (by decide)
    (.inr (by decide)))]
  exact hch.isFile

theorem frame : sb.TreeFrame d d' (· ≠ some a) (· = a) where
  root := by simp
  dirs o c slots hd _ hs := by
    refine ⟨slots, hch.dirSlots hd hs, ?_, ?_⟩
    · rw [hch.liveSlots_eq hd hs]
      intro b hb
      by_cases hba : b = a
      · exact .inl hba
      · exact .inr ⟨hb, by simpa using hba⟩
    · rw [hch.liveSlots_eq hd hs]
      intro b hb hba
      have hb' := mem_of_mem_liveSlots hb
      exact ⟨hb, hch.nodeAt_eq hd hs hb' (by simpa using hba), hch.name_eq hd hs hb'⟩
  leaf b slots hb hdir := by
    subst hb
    rw [hch.isFile_after] at hdir
    cases hdir

theorem wellFormed : sb.WellFormed d' := by
  refine hch.frame.wellFormed hch.wf (some a) (fun o c m ho hne hm => ?_) ?_
    (hch.copies hch.wf.copies)
  · exact ⟨m, hch.chain_other ho hne hm, le_rfl, fun x hx => .inl hx⟩
  · rintro b rfl
    refine ⟨l', hch.chain, fun x hx => .inr ⟨rfl, ?_⟩, hch.covers⟩
    rcases hch.owned x hx with hxl | hxf
    · exact (hch.clusters x hxl).2
    · exact hxf.notOthers

theorem liveDir_forward (hd : sb.LiveDir d o c) : sb.LiveDir d' o c := by
  have hkeep : ∀ {o c}, sb.LiveDir d o c → o ≠ some a := by
    rintro o c hd rfl
    exact absurd hch.isFile (by rw [hd.isDir]; decide)
  exact hch.frame.liveDir_forward (fun _ _ _ _ hd _ _ _ => hkeep hd) hd (hkeep hd)

theorem liveEntry_forward (hb : sb.LiveEntry d b) :
    sb.LiveEntry d' b ∧ entryName d' b = entryName d b ∧ (b ≠ a → nodeAt d' b = nodeAt d b) := by
  obtain ⟨o, c, slots, hd, hs, hb⟩ := hb
  have hb' := mem_of_mem_liveSlots hb
  refine ⟨⟨o, c, slots, hch.liveDir_forward hd, hch.dirSlots hd hs, ?_⟩, hch.name_eq hd hs hb',
    hch.nodeAt_eq hd hs hb'⟩
  rw [hch.liveSlots_eq hd hs]
  exact hb

theorem holder_back (ho : sb.Holder d' o c) (hne : o ≠ some a)
    (hm : sb.Chain d' c m) : sb.Holder d o c ∧ sb.Chain d c m := by
  have hold : sb.Holder d o c := by
    rcases hch.frame.holder hch.wf ho with ⟨hold, -⟩ | ⟨b, rfl, rfl, -⟩
    · exact hold
    · exact absurd rfl hne
  obtain ⟨m₀, hm₀⟩ := hch.wf.chain o c hold
  cases hm.unique (hch.chain_other hold hne hm₀)
  exact ⟨hold, hm₀⟩

end FileChange

theorem FileStep.attached (h : sb.FileStep a s t l l') (hat : sb.Attached s a l)
    {m : List Nat} (hch : sb.FileChange s.disk t.disk a l m) (ht : Tracked t a) :
    sb.Attached t a l' where
  file := h.file
  live := (hch.liveEntry_forward hat.live).1
  notDot := by
    rw [entryIsDot, (hch.liveEntry_forward hat.live).2.1]
    exact hat.notDot
  attr := by
    obtain ⟨o, c, slots, hd, hs, ha⟩ := hat.live
    rw [h.attr, hat.attr]
    exact (hch.slot_byte hd hs (mem_of_mem_liveSlots ha) (k := 11) (by decide)
      (.inr (by decide))).symm
  entry := ht
  mine x hx o c q ho hne hq hxq := by
    obtain ⟨ho', hq'⟩ := hch.holder_back ho hne hq
    rcases h.owned x hx with hxl | hxf
    · exact hat.mine x hxl o c q ho' hne hq' hxq
    · exact hxf.not_mem hq' hxq

/-- A step through an attached vnode. -/
structure FileEffect (sb : FatSuper) (s t : FatState) (a : Nat) (l l' : List Nat) : Prop where
  step : sb.FileStep a s t l l'
  attached : sb.Attached t a l'
  change : ∃ m, sb.FileChange s.disk t.disk a l m

theorem FileEffect.wellFormed (h : sb.FileEffect s t a l l') : sb.WellFormed t.disk := by
  obtain ⟨m, hch⟩ := h.change
  exact hch.wellFormed

theorem FileStep.effect (h : sb.FileStep a s t l l') (hwf : sb.WellFormed s.disk)
    (hat : sb.Attached s a l) (ht : Synced t a ∨ Stale a s t l l') : sb.FileEffect s t a l l' := by
  obtain ⟨m, hch, htr⟩ := h.change hwf hat ht
  exact ⟨h, h.attached hat hch htr, m, hch⟩

theorem Attached.truncate (hat : sb.Attached s a l) (hwf : sb.WellFormed s.disk) (newSize : Nat)
    (hw : newSize < s.node.size → newSize + sb.clusterSize - 1 < 2 ^ 32) :
    ∃ r t l', fatTruncateVn sb newSize s = (r, t) ∧ sb.FileEffect s t a l l' ∧
      sb.Truncated newSize a s t l l' r := by
  obtain ⟨r, t, l', hrun, hstep, hr⟩ := fatTruncateVn_spec newSize hat.file hw
  refine ⟨r, t, l', hrun, hstep.effect hwf hat ?_, hr⟩
  cases r with
  | ok u => exact .inl hr.1
  | error e => exact .inr hr.1

theorem Attached.write (hat : sb.Attached s a l) (hwf : sb.WellFormed s.disk) (buf : Bytes)
    (off len : Nat) :
    ∃ r t l', fatWriteVn sb buf off len s = (r, t) ∧ sb.FileEffect s t a l l' ∧
      (off + len ≤ s.node.size → l' = l ∧ t.node = s.node) ∧
      sb.Written buf off len a s t l l' r := by
  obtain ⟨r, t, l', hrun, hstep, hin, hr⟩ := fatWriteVn_spec buf off len hat.file
  refine ⟨r, t, l', hrun, hstep.effect hwf hat ?_, hin, hr⟩
  cases r with
  | ok u =>
    rcases hr with ⟨-, rfl⟩ | ⟨-, hsync, -⟩
    · have hl : l' = l := Chain.unique hstep.file.chain hat.file.chain
      exact .inr ⟨fun _ _ => rfl, rfl, hl ▸ List.prefix_refl l⟩
    · exact .inl hsync
  | error e => exact hr.1

end FatSuper

end CfKernel.Fat
