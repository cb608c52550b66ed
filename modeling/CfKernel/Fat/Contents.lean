import CfKernel.Fat.RunWellFormed

/-!
# The contents of files

The contents of a file are the first `size` bytes along its chain. Reads return slices of them, a
write overwrites a range of them after zero-extending, a truncation cuts or zero-extends them, and
neither changes any other file or directory.
-/

namespace CfKernel.Fat

open Lib Lib.Eff

def zeroExtend (c : List UInt8) (n : Nat) : List UInt8 := c ++ List.replicate (n - c.length) 0

/-- `c` with `b` in place of its bytes from `off` on. -/
def overwrite (c : List UInt8) (off : Nat) (b : List UInt8) : List UInt8 :=
  c.take off ++ b ++ c.drop (off + b.length)

def bufferBytes (buf : Bytes) (n : Nat) : List UInt8 := (List.range n).map buf

namespace FatSuper

theorem overwrite_eq (old buf : Nat → UInt8) (size off len : Nat) :
    overwrite (zeroExtend ((List.range size).map old) (max size (off + len))) off
        (bufferBytes buf len) =
      (List.range (max size (off + len))).map (writtenByte old size buf off len) := by
  apply List.ext_getElem
  · simp [overwrite, zeroExtend, bufferBytes]
    omega
  · intro i h1 h2
    simp only [overwrite, zeroExtend, bufferBytes, writtenByte, List.getElem_append,
      List.getElem_map, List.getElem_range]
    grind

theorem zeroExtend_take_eq (old : Nat → UInt8) (size n : Nat) :
    zeroExtend (((List.range size).map old).take n) n =
      (List.range n).map fun i => if i < size then old i else 0 := by
  apply List.ext_getElem
  · simp [zeroExtend]
  · intro i h1 h2
    grind [zeroExtend]

theorem take_drop_map_range (old : Nat → UInt8) (size off len : Nat) :
    (((List.range size).map old).drop off).take len =
      (List.range (readCount size off len)).map fun k => old (off + k) := by
  apply List.ext_getElem
  · simp [readCount]
  · intro i h1 h2
    simp

variable {sb : FatSuper} {a b : Nat} {l l' : List Nat} {d d' : Disk} {s t : FatState}
variable {c : List UInt8} {name : List UInt8} {dir : FatNode}

def chainBytes (sb : FatSuper) (d : Disk) (l : List Nat) (n : Nat) : List UInt8 :=
  (List.range n).map fun i => d (sb.fileAddr l i)

/-- The file whose entry is in slot `a` has contents `c`. -/
def Contents (sb : FatSuper) (d : Disk) (a : Nat) (c : List UInt8) : Prop :=
  ∃ l, sb.Chain d (entryCluster d a) l ∧ c = sb.chainBytes d l (entrySize d a)

/-- Every read through the vnode returns the bytes of `c` in its range, unless there is no memory
for its buffer. -/
def ReadsAs (sb : FatSuper) (s : FatState) (c : List UInt8) : Prop :=
  ∀ off len r t, fatReadVn sb off len s = (r, t) → t.disk = s.disk ∧ t.node = s.node ∧
    ((r = .ok () ∧ bufferBytes t.dst t.out = (c.drop off).take len) ∨ r = .error .outOfMemory)

/-- Nothing but the file in slot `a` differs between `d` and `d'`. -/
structure OthersSame (sb : FatSuper) (d d' : Disk) (a : Nat) : Prop where
  dirs : ∀ o c slots, sb.LiveDir d o c → sb.DirSlots d c slots → sb.LiveDir d' o c ∧
    sb.DirSlots d' c slots ∧ liveSlots d' slots = liveSlots d slots ∧
    ∀ b ∈ slots, entryName d' b = entryName d b
  entries : ∀ b, sb.LiveEntry d b → b ≠ a → nodeAt d' b = nodeAt d b
  contents : ∀ b c, sb.LiveEntry d b → entryIsDot d b = false → entryIsDir d b = false → b ≠ a →
    sb.Contents d b c → sb.Contents d' b c

/-- The entry in slot `a` and the vnode agree, and the file has contents `c`. -/
structure FileNow (sb : FatSuper) (s : FatState) (a : Nat) (c : List UInt8) : Prop where
  wf : sb.WellFormed s.disk
  attached : ∃ l, sb.Attached s a l
  contents : sb.Contents s.disk a c
  size : entrySize s.disk a = c.length ∧ s.node.size = c.length
  first : entryCluster s.disk a = s.node.firstCluster
  reads : sb.ReadsAs s c
  lookup : ∀ dir name u, u.disk = s.disk → sb.Resolves s.disk dir name a →
    (∃ mem, fatLookupVn sb dir name u = (.ok s.node, { u with mem := mem })) ∨
      ∃ mem, fatLookupVn sb dir name u = (.error .outOfMemory, { u with mem := mem })

theorem FileChange.byte_other {m : List Nat} {x y : Nat} (hch : sb.FileChange d d' a l l')
    (hb : sb.LiveEntry d b) (hdot : entryIsDot d b = false) (hfile : entryIsDir d b = false)
    (hne : b ≠ a) (hm : sb.Chain d (entryCluster d b) m) (hx : x ∈ m) (hy : sb.InCluster x y) :
    d' y = d y := by
  have hxc := hm.isCluster hx
  apply hch.data y hy.ge
  · rintro z (hz | hz) hzy
    · cases inCluster_unique hxc (hch.clusters z hz).1 hy hzy
      exact (hch.clusters x hz).2 (some b) _ m (.entry hb hdot) (by simpa using hne) hm hx
    · cases inCluster_unique hxc hz.1 hy hzy
      exact hz.not_mem hm hx
  · by_contra hin
    -- then the byte would lie in slot `a`, which belongs to a directory
    obtain ⟨o, c, slots, hd, hs, ha⟩ := hch.live
    have hk : y - a < 32 := by omega
    refine hch.wf.slot_apart hd hs (mem_of_mem_liveSlots ha) (.entry hb hdot) ?_ hm hx hk ?_
    · rintro rfl
      rw [hd.isDir] at hfile
      cases hfile
    · rwa [Nat.add_sub_cancel' (by omega)]

theorem FileChange.othersSame (hch : sb.FileChange d d' a l l') : sb.OthersSame d d' a where
  dirs o c slots hd hs :=
    ⟨hch.liveDir_forward hd, hch.dirSlots hd hs, hch.liveSlots_eq hd hs,
      fun b hb => hch.name_eq hd hs hb⟩
  entries b hb hne := (hch.liveEntry_forward hb).2.2 hne
  contents b c hb hdot hfile hne hc := by
    obtain ⟨m, hm, rfl⟩ := hc
    have hnode := (hch.liveEntry_forward hb).2.2 hne
    have hcov := hch.wf.covers_mul hb hdot hfile hm
    refine ⟨m, ?_, ?_⟩
    · rw [entryCluster, hnode]
      exact hch.chain_other (.entry hb hdot) (by simpa using hne) hm
    · rw [show entrySize d' b = entrySize d b by rw [entrySize, hnode, entrySize]]
      apply List.map_congr_left
      intro i hi
      have hi' : i < m.length * sb.clusterSize := (List.mem_range.mp hi).trans_le hcov
      exact (hch.byte_other hb hdot hfile hne hm (getD_index_mem hi')
        (sb.fileAddr_inCluster m i)).symm

theorem OthersSame.resolves (h : sb.OthersSame d d' a) (hr : sb.Resolves d dir name b) :
    sb.Resolves d' dir name b := by
  obtain ⟨hdir, o, slots, hd, hs, hf⟩ := hr
  obtain ⟨hd', hs', hlive, hname⟩ := h.dirs o _ slots hd hs
  refine ⟨hdir, o, slots, hd', hs', ?_⟩
  rw [hlive, find?_name_congr fun x hx => hname x (mem_of_mem_liveSlots hx), hf]

theorem Attached.readsAs (hat : sb.Attached s a l) :
    sb.ReadsAs s (sb.chainBytes s.disk l s.node.size) := by
  intro off len r t hrun
  obtain ⟨mem, ⟨dst', hread, hbytes, -⟩ | hread⟩ := fatReadVn_spec off len hat.file
  · rw [hread] at hrun
    cases hrun
    refine ⟨rfl, rfl, .inl ⟨rfl, ?_⟩⟩
    rw [chainBytes, take_drop_map_range]
    apply List.map_congr_left
    intro k hk
    exact hbytes k (List.mem_range.mp hk)
  · rw [hread] at hrun
    cases hrun
    exact ⟨rfl, rfl, .inr rfl⟩

theorem Attached.contents_eq (hat : sb.Attached s a l) (hc : sb.Contents s.disk a c) :
    c = sb.chainBytes s.disk l s.node.size := by
  obtain ⟨m, hm, rfl⟩ := hc
  rcases hat.entry with ⟨hcl, hsz⟩ | ⟨-, hsz, hns⟩
  · have hcl' : entryCluster s.disk a = s.node.firstCluster := hcl
    rw [hcl'] at hm
    rw [hm.unique hat.file.chain, show entrySize s.disk a = s.node.size from hsz]
  · simp [chainBytes, hsz, hns]

theorem FileEffect.fileNow (h : sb.FileEffect s t a l l') (hs : Synced t a) :
    sb.FileNow t a (sb.chainBytes t.disk l' t.node.size) where
  wf := h.wellFormed
  attached := ⟨l', h.attached⟩
  contents := by
    refine ⟨l', ?_, ?_⟩
    · rw [show entryCluster t.disk a = t.node.firstCluster from hs.1]
      exact h.attached.file.chain
    · rw [show entrySize t.disk a = t.node.size from hs.2]
  size := by
    rw [show entrySize t.disk a = t.node.size from hs.2]
    simp [chainBytes]
  first := hs.1
  reads := h.attached.readsAs
  lookup dir name u hu hr := by
    obtain ⟨hdir, o, slots, hd, hslots, hf⟩ := hr
    rw [← hu] at hslots hf
    obtain ⟨mem, ⟨b, hb, hrun⟩ | ⟨hnone, -⟩ | hrun⟩ := fatLookupVn_spec name hdir hslots
    · rw [hf] at hb
      cases hb
      have hnode : nodeAt u.disk a = t.node := by rw [hu, h.attached.node_eq hs]
      rw [hnode] at hrun
      exact .inl ⟨mem, hrun⟩
    · rw [hf] at hnone
      cases hnone
    · exact .inr ⟨mem, hrun⟩

theorem length_chainBytes (sb : FatSuper) (d : Disk) (l : List Nat) (n : Nat) :
    (sb.chainBytes d l n).length = n := by
  simp [chainBytes]

theorem Attached.write_contents {buf : Bytes} {off len : Nat} (hat : sb.Attached s a l)
    (hwf : sb.WellFormed s.disk) (hc : sb.Contents s.disk a c)
    (hrun : fatWriteVn sb buf off len s = (.ok (), t)) (hpos : 0 < len) :
    sb.FileNow t a (overwrite (zeroExtend c (max c.length (off + len))) off
      (bufferBytes buf len)) ∧ sb.OthersSame s.disk t.disk a := by
  obtain rfl := hat.contents_eq hc
  obtain ⟨r, u, l', hrun', heff, -, hr⟩ := hat.write hwf buf off len
  rw [hrun] at hrun'
  cases hrun'
  obtain ⟨m, hch⟩ := heff.change
  rcases hr with ⟨h0, -⟩ | ⟨-, hsync, -, hsize, hbytes⟩
  · omega
  refine ⟨?_, hch.othersSame⟩
  have hnow := heff.fileNow hsync
  rw [length_chainBytes, chainBytes, overwrite_eq, ← hsize]
  rwa [chainBytes, List.map_congr_left fun i hi => hbytes i (List.mem_range.mp hi)] at hnow

end FatSuper

/-- The small volume with the empty file `A` in slot 1536, and a vnode open on it. -/
def emptyA : FatState :=
  { (fatCreateVn smallSuper (fatRootNode smallSuper) nameA .file (stateOn blankDisk)).2 with
    node := FatSuper.newNode 1536 0 0x20 }

theorem emptyA_attached : smallSuper.WellFormed emptyA.disk ∧ smallSuper.Attached emptyA 1536 [] ∧
    smallSuper.Contents emptyA.disk 1536 [] := by
  have hrun : (fatCreateVn smallSuper (fatRootNode smallSuper) nameA .file
      (stateOn blankDisk)).1 = .ok (FatSuper.newNode 1536 0 0x20) := by rfl
  obtain ⟨r, t, hcr, hwf, hcur⟩ := FatSuper.Current.create (s := stateOn blankDisk) (.inl rfl)
    (smallSuper_wellFormed fun _ _ => rfl) (fun _ => blankDisk_cleanDir _) nameA .file
  rw [hcr] at hrun
  obtain rfl : r = _ := hrun
  have hdisk : emptyA.disk = t.disk := by rw [emptyA, hcr]
  obtain ⟨hnode, -⟩ := hcur _ rfl
  rw [← hdisk] at hwf hnode
  obtain ⟨a, l, hat⟩ := FatSuper.Current.attached (s := emptyA) hnode hwf (by decide)
  have hsec : (3 : Nat) = a / 512 := hat.file.sector
  have hoff : (0 : Nat) = a % 512 := hat.file.offset
  obtain rfl : a = 1536 := by omega
  obtain rfl : l = [] := hat.file.chain.unique rfl
  refine ⟨hwf, hat, [], ?_, ?_⟩
  · rfl
  · rfl

end CfKernel.Fat
