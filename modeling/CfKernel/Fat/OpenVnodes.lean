import CfKernel.Fat.NoSpace

/-!
# Open vnodes across changes of the volume

A change of the volume leaves a vnode attached that it does not work on: the vnode's entry stays
live, its clusters stay its own, and its path still leads to it.
-/

namespace CfKernel.Fat

open Lib Lib.Eff

/-- The slot of the entry that a vnode is about; the root of a mount has none. -/
def vnodeSlot (node : FatNode) : Option Nat :=
  if node.hasDirent then some (node.dirSector * 512 + node.dirOffset) else none

theorem vnodeSlot_nodeAt (d : Disk) (a : Nat) : vnodeSlot (nodeAt d a) = some a := by
  change some (a / 512 * 512 + a % 512) = some a
  rw [Nat.div_add_mod']

theorem vnodeSlot_root (sb : FatSuper) : vnodeSlot (fatRootNode sb) = none := by
  unfold fatRootNode
  split_ifs <;> rfl

namespace FatSuper

variable {sb : FatSuper} {a b c x : Nat} {o : Option Nat} {l l' m slots : List Nat}
variable {d d' : Disk} {s t : FatState} {dir : FatNode} {name : List UInt8}
variable {path : List (List UInt8)} {keep : Option Nat → Prop} {new touched : Nat → Prop}
variable {own : List Nat → Prop}

/-- The path leads from `dir` to the entry in slot `a`. -/
inductive Finds (sb : FatSuper) (d : Disk) : FatNode → List (List UInt8) → Nat → Prop where
  | last {dir : FatNode} {name : List UInt8} {a : Nat} :
      sb.Resolves d dir name a → Finds sb d dir [name] a
  | step {dir : FatNode} {name : List UInt8} {rest : List (List UInt8)} {a b : Nat} :
      sb.Resolves d dir name b → Finds sb d (nodeAt d b) rest a → Finds sb d dir (name :: rest) a

theorem Resolves.unique (h : sb.Resolves d dir name a) (h' : sb.Resolves d dir name b) : a = b := by
  obtain ⟨-, o, slots, -, hs, hf⟩ := h
  obtain ⟨-, o', slots', -, hs', hf'⟩ := h'
  cases hs.unique hs'
  rw [hf] at hf'
  exact Option.some.inj hf'

theorem not_finds_nil : ¬ sb.Finds d dir [] a := by
  intro h
  cases h

theorem Finds.unique (h : sb.Finds d dir path a) (h' : sb.Finds d dir path b) : a = b := by
  induction h with
  | last hr =>
    cases h' with
    | last hr' => exact hr.unique hr'
    | step _ hnil => exact absurd hnil not_finds_nil
  | step hr hrest ih =>
    cases h' with
    | last _ => exact absurd hrest not_finds_nil
    | step hr' hrest' =>
      cases hr.unique hr'
      exact ih hrest'

theorem Finds.head (h : sb.Finds d dir path a) :
    ∃ name b, name ∈ path ∧ sb.Resolves d dir name b := by
  cases h with
  | last hr => exact ⟨_, _, by simp, hr⟩
  | step hr _ => exact ⟨_, _, by simp, hr⟩

theorem Finds.liveEntry (h : sb.Finds d dir path a) (hpath : ∀ n ∈ path, isDotName n = false) :
    sb.LiveEntry d a ∧ entryIsDot d a = false := by
  induction h with
  | last hr => exact hr.liveEntry (hpath _ (by simp))
  | step _ _ ih => exact ih fun n hn => hpath n (by simp [hn])

/-- A change of the volume as the vnodes it does not work on see it: entries that `keep` admits
are as before, table entries outside the `touched` clusters too, and a chain takes up only clusters
that were free or touched. -/
structure Shift (sb : FatSuper) (d d' : Disk) (keep : Option Nat → Prop)
    (new touched : Nat → Prop) : Prop where
  wf : sb.WellFormed d
  wf' : sb.WellFormed d'
  frame : sb.TreeFrame d d' keep new
  up : ∀ o c slots b, sb.LiveDir d o c → sb.DirSlots d c slots → b ∈ liveSlots d slots →
    entryIsDot d b = false → keep o
  fat : ∀ x < sb.clusterCount + 2, ¬ sb.Free d x → ¬ touched x →
    sb.getFatEntry d' x = sb.getFatEntry d x
  own : ∀ o c m, sb.Holder d' o c → sb.Chain d' c m → ∀ x ∈ m,
    (∃ c₀ m₀, sb.Holder d o c₀ ∧ sb.Chain d c₀ m₀ ∧ x ∈ m₀) ∨ sb.Free d x ∨ touched x
  keepDir : ∀ b name b', sb.Resolves d (nodeAt d b) name b' → isDotName name = false →
    sb.LiveEntry d b → keep (some b)
  resolves : ∀ dir name b, sb.Resolves d dir name b → isDotName name = false → keep (some b) →
    sb.Resolves d' dir name b

theorem Shift.liveEntry (h : sb.Shift d d' keep new touched) (hb : sb.LiveEntry d b)
    (hdot : entryIsDot d b = false) (hk : keep (some b)) : sb.LiveEntry d' b ∧
      nodeAt d' b = nodeAt d b ∧ entryName d' b = entryName d b := by
  obtain ⟨o, c, slots, hd, hs, hb⟩ := hb
  have ho := h.up o c slots b hd hs hb hdot
  obtain ⟨slots', hs', -, hforth⟩ := h.frame.dirs o c slots hd ho hs
  obtain ⟨hb', hnode, hname⟩ := hforth b hb hk
  exact ⟨⟨o, c, slots', h.frame.liveDir_forward h.up hd ho, hs', hb'⟩, hnode, hname⟩

theorem Shift.finds (h : sb.Shift d d' keep new touched) (hf : sb.Finds d dir path a)
    (hpath : ∀ n ∈ path, isDotName n = false)
    (hlast : ∀ dir name, sb.Resolves d dir name a → isDotName name = false →
      sb.Resolves d' dir name a) : sb.Finds d' dir path a := by
  induction hf with
  | last hr => exact .last (hlast _ _ hr (hpath _ (by simp)))
  | @step dir name rest a b hr hrest ih =>
    have hrest' := ih (fun n hn => hpath n (by simp [hn])) hlast
    have hname := hpath name (by simp)
    obtain ⟨hlive, hdot⟩ := hr.liveEntry hname
    obtain ⟨n, b', hn, hr'⟩ := hrest.head
    have hkb := h.keepDir b n b' hr' (hpath n (by simp [hn])) hlive
    rw [← (h.liveEntry hlive hdot hkb).2.1] at hrest'
    exact .step (h.resolves _ _ _ hr hname hkb) hrest'

theorem Attached.shift (hat : sb.Attached s b l) (h : sb.Shift s.disk t.disk keep new touched)
    (hk : keep (some b)) (hx : ∀ x ∈ l, ¬ touched x) (hnode : t.node = s.node) :
    sb.Attached t b l := by
  obtain ⟨hlive, hentry, hname⟩ := h.liveEntry hat.live hat.notDot hk
  have hnot : ∀ x ∈ l, ¬ sb.Free s.disk x := fun x hxl hf => hf.not_mem hat.file.chain hxl
  refine ⟨⟨?_, ?_, ?_, ?_, hat.file.slot, ?_, ?_, ?_, ?_⟩, hlive, ?_, ?_, ?_, ?_⟩
  · rw [hnode]
    exact hat.file.chain.congr fun x hxl =>
      h.fat x (hat.file.chain.isCluster hxl).2 (hnot x hxl) (hx x hxl)
  · rw [hnode]
    exact hat.file.size_le
  · rw [hnode]
    exact hat.file.size_lt
  · rw [hnode]
    exact hat.file.file
  · rw [hnode]
    exact hat.file.hasDirent
  · rw [hnode]
    exact hat.file.sector
  · rw [hnode]
    exact hat.file.offset
  · rintro x (hxl | hxf) k hk
    · exact hat.file.apart x (.inl hxl) k hk
    · obtain ⟨o, c, slots, -, hs, hb⟩ := hlive
      exact hs.apart (mem_of_mem_liveSlots hb) hxf hk
  · rw [entryIsDot, hname]
    exact hat.notDot
  · rw [hnode, hentry]
    exact hat.attr
  · have hent := hat.entry
    change ((nodeAt s.disk b).firstCluster = s.node.firstCluster ∧
      (nodeAt s.disk b).size = s.node.size) ∨ _ at hent
    rw [entryCluster, entrySize, ← hentry, ← hnode] at hent
    exact hent
  · intro x hxl o c m ho hne hm hxm
    rcases h.own o c m ho hm x hxm with ⟨c₀, m₀, ho₀, hm₀, hxm₀⟩ | hf | ht
    · exact hat.mine x hxl o c₀ m₀ ho₀ hne hm₀ hxm₀
    · exact hnot x hxl hf
    · exact hx x hxl ht

/-- The vnode `node` is open on the live entry in slot `a`, and `l` is its chain. -/
def Opened (sb : FatSuper) (d : Disk) (node : FatNode) (a : Nat) (l : List Nat) : Prop :=
  ∀ s : FatState, s.disk = d → s.node = node → sb.Attached s a l

theorem Attached.opened (hat : sb.Attached s a l) : sb.Opened s.disk s.node a l := by
  intro t hd hn
  rcases s with ⟨_, _, _, _, _⟩
  rcases t with ⟨_, _, _, _, _⟩
  obtain rfl := hd
  obtain rfl := hn
  exact { hat with file := { hat.file with } }

/-- The state in which the vnode is the calling one. -/
def calling (d : Disk) (node : FatNode) : FatState :=
  { disk := d, mem := fun _ => true, node := node, out := 0, dst := fun _ => 0 }

/-- Every read through the vnode returns the bytes of `c`, and its size is theirs. -/
def Observes (sb : FatSuper) (d : Disk) (node : FatNode) (c : List UInt8) : Prop :=
  node.size = c.length ∧ ∀ s : FatState, s.disk = d → s.node = node → sb.ReadsAs s c

namespace Opened

variable {node : FatNode} (h : sb.Opened d node a l)

include h

theorem attached : sb.Attached (calling d node) a l := h _ rfl rfl

theorem slot : vnodeSlot node = some a := by
  have hf := h.attached.file
  have hd : node.hasDirent = true := hf.hasDirent
  have hs : node.dirSector = a / 512 := hf.sector
  have ho : node.dirOffset = a % 512 := hf.offset
  rw [vnodeSlot, if_pos hd, hs, ho, Nat.div_add_mod']

theorem chain : sb.Chain d node.firstCluster l := h.attached.file.chain

theorem unique (h' : sb.Opened d node b m) : a = b ∧ l = m :=
  ⟨Option.some.inj (h.slot.symm.trans h'.slot), h.chain.unique h'.chain⟩

theorem isFile : node.isDir = false := h.attached.file.file

theorem size_eq : node.size = entrySize d a := by
  rcases h.attached.entry with ⟨-, hsz⟩ | ⟨-, hsz, hns⟩
  · exact hsz.symm
  · exact hns.trans hsz.symm

theorem node_eq (hpos : 0 < node.size) : node = nodeAt d a := by
  rcases h.attached.entry with hs | ⟨-, -, hns⟩
  · exact (h.attached.node_eq hs).symm
  · have hns' : node.size = 0 := hns
    omega

theorem observes {c : List UInt8} (hc : sb.Contents d a c) : sb.Observes d node c := by
  have hsize : node.size = c.length := by
    rw [h.attached.contents_eq hc]
    simp [chainBytes, calling]
  refine ⟨hsize, ?_⟩
  rintro s rfl rfl
  have hat := h s rfl rfl
  rw [hat.contents_eq hc]
  exact hat.readsAs

end Opened

/-- A change of the volume that leaves alone the entries in the slots `slot` admits and the vnodes
on them whose chains `own` admits. -/
structure Kept (sb : FatSuper) (d d' : Disk) (slot : Nat → Prop) (own : List Nat → Prop) :
    Prop where
  wf : sb.WellFormed d'
  finds : ∀ dir path b, sb.Finds d dir path b → (∀ n ∈ path, isDotName n = false) → slot b →
    sb.Finds d' dir path b
  entry : ∀ b, sb.LiveEntry d b → entryIsDot d b = false → slot b →
    sb.LiveEntry d' b ∧ entryIsDot d' b = false ∧ nodeAt d' b = nodeAt d b
  opened : ∀ node b l, sb.Opened d node b l → slot b → own l → sb.Opened d' node b l

theorem Kept.refl (hwf : sb.WellFormed d) (slot : Nat → Prop) (own : List Nat → Prop) :
    sb.Kept d d slot own :=
  ⟨hwf, fun _ _ _ hf _ _ => hf, fun _ hb hdot _ => ⟨hb, hdot, rfl⟩, fun _ _ _ ho _ _ => ho⟩

theorem Kept.trans {d₁ : Disk} {slot : Nat → Prop}
    (h : sb.Kept d d₁ (fun _ => True) (fun _ => True)) (h' : sb.Kept d₁ d' slot own) :
    sb.Kept d d' slot own where
  wf := h'.wf
  finds dir path b hf hpath hb := h'.finds dir path b (h.finds dir path b hf hpath trivial) hpath hb
  entry b hb hdot hs := by
    obtain ⟨hb₁, hdot₁, hnode⟩ := h.entry b hb hdot trivial
    obtain ⟨hb', hdot', hnode'⟩ := h'.entry b hb₁ hdot₁ hs
    exact ⟨hb', hdot', hnode'.trans hnode⟩
  opened node b l ho hb hl := h'.opened node b l (h.opened node b l ho trivial trivial) hb hl

theorem Kept.mono {slot slot' : Nat → Prop}
    (h : sb.Kept d d' slot own) (hslot : ∀ b, slot' b → slot b) : sb.Kept d d' slot' own where
  wf := h.wf
  finds dir path b hf hpath hb := h.finds dir path b hf hpath (hslot b hb)
  entry b hb hdot hs := h.entry b hb hdot (hslot b hs)
  opened node b l ho hb hl := h.opened node b l ho (hslot b hb) hl

theorem Shift.kept (h : sb.Shift d d' keep new touched) {slot : Nat → Prop}
    {own : List Nat → Prop} (hslot : ∀ b, sb.LiveEntry d b → slot b → keep (some b))
    (htouch : ∀ s b l, s.disk = d → sb.Attached s b l → slot b → own l → ∀ x ∈ l, ¬ touched x) :
    sb.Kept d d' slot own where
  wf := h.wf'
  finds dir path b hf hpath hb :=
    h.finds hf hpath fun dir name hr hname => h.resolves dir name b hr hname
      (hslot b (hr.liveEntry hname).1 hb)
  entry b hb hdot hs := by
    obtain ⟨hb', hnode, hname⟩ := h.liveEntry hb hdot (hslot b hb hs)
    exact ⟨hb', by rw [entryIsDot, hname, ← entryIsDot, hdot], hnode⟩
  opened node b l ho hb hl := by
    intro t ht hn
    obtain rfl := ht
    have hat := ho { t with disk := d } rfl hn
    exact hat.shift (s := { t with disk := d }) h (hslot b hat.live hb)
      (htouch _ b l rfl hat hb hl) rfl

end FatSuper

end CfKernel.Fat
