import CfKernel.Fat.DirSpec

/-!
# Creating and removing entries

`fat_create_vn` adds one entry, for a directory together with a cluster that holds `.` and `..`;
when it fails after taking a cluster it gives the cluster back. `fat_unlink_vn` marks the slot as
deleted and frees the chain of the entry.
-/

namespace CfKernel.Fat

open Lib Lib.Eff Function

namespace FatSuper

variable {sb : FatSuper} {a c x n : Nat} {d d' d'' : Disk} {l slots : List Nat}
variable {s t : FatState} {dir : FatNode} {name : List UInt8} {type : VnodeType} {attr : UInt8}

/-- `d'` is `d` with an entry in slot `a`; `c = 0` for a file, the new cluster of a directory
otherwise. -/
structure EntryAdded (sb : FatSuper) (d d' : Disk) (a : Nat) (name : List UInt8) (attr : UInt8)
    (c parent : Nat) : Prop where
  slot : ∀ k < 32, d' (a + k) = fatDirentBytes name attr c k
  fat : ∀ x < sb.clusterCount + 2,
    sb.getFatEntry d' x = if c ≠ 0 ∧ x = c then .ok (fatEocMarker sb) else sb.getFatEntry d x
  data : ∀ b, sb.rootDirStart * 512 ≤ b → (b < a ∨ a + 32 ≤ b) →
    (c ≠ 0 → ¬ sb.InCluster c b) → d' b = d b
  free : c ≠ 0 → sb.Free d c
  dots : c ≠ 0 → ∀ k < sb.clusterSize, d' (sb.clusterAddr c + k) = fatDotContents c parent k
  copies : sb.CopiesEqual d → sb.CopiesEqual d'

/-- `d'` is `d` but for the bytes of the free cluster `x`. -/
structure Scribbled (sb : FatSuper) (d d' : Disk) (x : Nat) : Prop where
  free : sb.Free d x
  fat : ∀ y < sb.clusterCount + 2, sb.getFatEntry d' y = sb.getFatEntry d y
  data : ∀ b, sb.rootDirStart * 512 ≤ b → ¬ sb.InCluster x b → d' b = d b
  copies : sb.CopiesEqual d → sb.CopiesEqual d'

/-- `d'` is `d` after the entry in slot `a` was deleted and its chain `l` was freed. -/
structure EntryRemoved (sb : FatSuper) (d d' : Disk) (a : Nat) (l : List Nat) : Prop where
  deleted : d' a = 0xE5
  fat : ∀ x < sb.clusterCount + 2,
    sb.getFatEntry d' x = if x ∈ l then .ok 0 else sb.getFatEntry d x
  data : ∀ b, sb.rootDirStart * 512 ≤ b → b ≠ a → d' b = d b
  copies : sb.CopiesEqual d → sb.CopiesEqual d'

theorem rmwSlot (h : sb.Slot a) (d : Disk) (src : Bytes) (len : Nat) (hlen : len ≤ 32) :
    (do let buf ← fatReadSector sb d (a / 512)
        fatWriteSector sb d (a / 512) (splice buf (a % 512) len src)) =
      .ok (splice d a len src) := by
  have hlt := h.lt
  have hfit := h.fits
  simp only [fatReadSector, fatWriteSector]
  rw [sb.readSectors_ok _ (by omega)]
  simp only [bind, Except.bind]
  rw [sb.writeSectors_ok _ _ (by omega), splice_window_splice _ _ (by omega), Nat.div_add_mod']

theorem splice_slot_before (h : sb.Slot a) (d : Disk) (src : Bytes) (len : Nat) :
    ∀ b < sb.rootDirStart * 512, splice d a len src b = d b := fun _ hb =>
  splice_outside (.inl (hb.trans_le h.ge))

theorem entryAdded_file (h : sb.Slot a) (d : Disk) (name : List UInt8) (attr : UInt8)
    (parent : Nat) :
    sb.EntryAdded d (splice d a 32 (fatDirentBytes name attr 0)) a name attr 0 parent where
  slot k hk := splice_at_add hk
  fat x _ := by
    rw [if_neg (fun hc => hc.1 rfl), getFatEntry_congr (splice_slot_before h d _ _)]
  data b _ hb _ := splice_outside hb
  free hc := absurd rfl hc
  dots hc := absurd rfl hc
  copies hc := hc.congr (splice_slot_before h d _ _)

theorem splice_cluster_before (sb : FatSuper) (d : Disk) (c len : Nat) (src : Bytes) :
    ∀ b < sb.rootDirStart * 512, splice d (sb.clusterAddr c) len src b = d b := fun _ hb =>
  splice_outside (.inl (hb.trans_le
    ((Nat.mul_le_mul_right _ sb.rootDirStart_le).trans (sb.clusterAddr_ge c))))

theorem entryAdded_dir (h : sb.Slot a) (hall : sb.Allocated d d' c)
    (hap : ∀ k < 32, ¬ sb.InCluster c (a + k)) (name : List UInt8) (attr : UInt8)
    (parent : Nat) :
    sb.EntryAdded d (splice (splice d' (sb.clusterAddr c) sb.clusterSize (fatDotContents c parent))
      a 32 (fatDirentBytes name attr c)) a name attr c parent where
  slot k hk := splice_at_add hk
  fat x hx := by
    rw [getFatEntry_congr (splice_slot_before h _ _ _),
      getFatEntry_congr (sb.splice_cluster_before d' c _ _), hall.fat x hx]
    have hc : c ≠ 0 := by
      have := hall.free.1.1
      omega
    by_cases hxc : x = c
    · rw [if_pos hxc, if_pos ⟨hc, hxc⟩]
    · rw [if_neg hxc, if_neg fun hh => hxc hh.2]
  data b hb hba hbc := by
    have hc : c ≠ 0 := by
      have := hall.free.1.1
      omega
    have hnot := hbc hc
    rw [splice_outside hba, splice_outside (by unfold InCluster at hnot; omega),
      hall.data b hb hnot]
  free _ := hall.free
  dots _ k hk := by
    rw [splice_outside, splice_at_add hk]
    by_contra hin
    refine hap (sb.clusterAddr c + k - a) (by omega) ?_
    rw [Nat.add_sub_cancel' (by omega)]
    exact ⟨by omega, by omega⟩
  copies hc := ((hall.copies hc).congr (sb.splice_cluster_before d' c _ _)).congr
    (splice_slot_before h _ _ _)

theorem Allocated.scribbled {d₁ : Disk} (hall : sb.Allocated d d' c)
    (hsame : ∀ b, ¬ sb.InCluster c b → d₁ b = d' b) (hfr : sb.Freed d₁ d'' [c]) :
    sb.Scribbled d d'' c where
  free := hall.free
  fat y hy := by
    have hbefore : ∀ b < sb.rootDirStart * 512, d₁ b = d' b := fun b hb =>
      hsame b fun hin => absurd hin.ge (by omega)
    rw [hfr.fat y hy, getFatEntry_congr hbefore, hall.fat y hy]
    by_cases hyc : y = c
    · rw [if_pos (by simp [hyc]), hyc, hall.free.2]
    · rw [if_neg (by simp [hyc]), if_neg hyc]
  data b hb hn := by rw [hfr.data b hb, hsame b hn, hall.data b hb hn]
  copies hc := hfr.copies ((hall.copies hc).congr fun b hb =>
    hsame b fun hin => absurd hin.ge (by omega))

theorem Allocated.chain (hall : sb.Allocated d d' c) : sb.Chain d' c [c] :=
  ⟨rfl, 0, link_of_eoc hall.free.1 (by rw [hall.fat c hall.free.1.2, if_pos rfl]), rfl⟩

theorem fatCreateEntry_write (h : sb.Slot a) (d : Disk) (name : List UInt8) (attr : UInt8)
    (c : Nat) :
    (do let buf ← fatReadSector sb d (a / 512)
        fatWriteSector sb d (a / 512) (splice buf (a % 512) 32 (fatDirentBytes name attr c))) =
      .ok (splice d a 32 (fatDirentBytes name attr c)) :=
  rmwSlot h d _ 32 le_rfl

theorem fatShortChars_ne (cs out : List UInt8) (n m : Nat) (b : Bool) :
    fatShortChars cs out n m b ≠ .error .noSpaceLeft := by
  induction cs generalizing out n m b with
  | nil => simp [fatShortChars]
  | cons c cs ih =>
    rw [fatShortChars]
    split_ifs <;> first | exact ih _ _ _ _ | simp

theorem fatMakeShortName_ne (name : List UInt8) : fatMakeShortName name ≠ .error .noSpaceLeft := by
  unfold fatMakeShortName
  split_ifs
  · simp
  · exact fatShortChars_ne _ _ _ _ _

/-- The node `fat_create_vn` returns. -/
def newNode (a c : Nat) (attr : UInt8) : FatNode where
  firstCluster := c
  size := 0
  attr := attr
  dirSector := a / 512
  dirOffset := a % 512
  hasDirent := true

theorem fatCreateAt_file (h : sb.Slot a) (dir : FatNode) (name : List UInt8) :
    ∃ mem, fatCreateAt sb dir name .file (a / 512) (a % 512) s =
        (.ok (newNode a 0 0x20),
          { s with disk := splice s.disk a 32 (fatDirentBytes name 0x20 0), mem := mem }) ∨
      fatCreateAt sb dir name .file (a / 512) (a % 512) s =
        (.error .outOfMemory, { s with mem := mem }) := by
  have hne : ¬ VnodeType.file = .dir := by decide
  obtain ⟨mem, hvn | hvn⟩ := fatAllocVnode_cases s
  · have hentry : fatCreateEntry sb dir name .file 0x20 (a / 512) (a % 512) 0 s =
        (.ok (), { s with disk := splice s.disk a 32 (fatDirentBytes name 0x20 0), mem := mem }) := by
      rw [fatCreateEntry, bind_ok hvn, if_neg hne, bind_ok (pure_run _ _)]
      exact toDisk_run (fatCreateEntry_write h _ _ _ _)
    refine ⟨mem, .inl ?_⟩
    rw [fatCreateAt, if_neg hne, bind_ok (pure_run _ _)]
    simp only [if_neg hne]
    rw [bind_ok (attempt_run hentry)]
    rfl
  · have hentry : fatCreateEntry sb dir name .file 0x20 (a / 512) (a % 512) 0 s =
        (.error .outOfMemory, { s with mem := mem }) := by
      rw [fatCreateEntry, bind_error hvn]
    refine ⟨mem, .inr ?_⟩
    rw [fatCreateAt, if_neg hne, bind_ok (pure_run _ _)]
    simp only [if_neg hne]
    rw [bind_ok (attempt_run hentry)]
    dsimp only
    rw [if_neg (by simp), bind_ok (attempt_run (pure_run _ _))]
    rfl

theorem fatCreateAt_alloc (dir : FatNode) (name : List UInt8)
    (halloc : fatAllocCluster sb s = (.ok c, t)) :
    fatCreateAt sb dir name .dir (a / 512) (a % 512) s =
      (Eff.attempt (fatCreateEntry sb dir name .dir 0x10 (a / 512) (a % 512) c) >>= fun r =>
        match r with
        | .ok _ => pure (newNode a c 0x10)
        | .error e => Eff.attempt (if c ≠ 0 then fatFreeChain sb c else pure ()) >>= fun _ =>
            Eff.fail e : FatM FatNode) t := by
  rw [fatCreateAt, if_pos rfl, bind_ok halloc]
  rfl

theorem fatCreateAt_dir (h : sb.Slot a)
    (hap : ∀ x, sb.Free s.disk x → ∀ k < 32, ¬ sb.InCluster x (a + k)) (dir : FatNode)
    (name : List UInt8) :
    ∃ mem d', (∃ c, fatCreateAt sb dir name .dir (a / 512) (a % 512) s =
          (.ok (newNode a c 0x10), { s with disk := d', mem := mem }) ∧ c ≠ 0 ∧
        sb.EntryAdded s.disk d' a name 0x10 c dir.firstCluster) ∨
      ∃ e, fatCreateAt sb dir name .dir (a / 512) (a % 512) s =
          (.error e, { s with disk := d', mem := mem }) ∧
        ((d' = s.disk ∧ (e = .noSpaceLeft → sb.Full s.disk)) ∨
          (∃ x, sb.Scribbled s.disk d' x) ∧ e = .outOfMemory) := by
  obtain ⟨mem, ⟨c, d₁, halloc, hall⟩ | ⟨e, halloc, hfull⟩⟩ := fatAllocCluster_spec sb s
  · have hc0 : c ≠ 0 := by
      have := hall.free.1.1
      omega
    have hstart := fatCreateAt_alloc (a := a) dir name halloc
    -- every failure below frees the cluster again
    have hfail : ∀ {t : FatState}, (∀ b, ¬ sb.InCluster c b → t.disk b = d₁ b) →
        fatCreateEntry sb dir name .dir 0x10 (a / 512) (a % 512) c
          { s with disk := d₁, mem := mem } = (.error .outOfMemory, t) →
        t = { s with disk := t.disk, mem := t.mem } →
        ∃ d', fatCreateAt sb dir name .dir (a / 512) (a % 512) s =
          (.error .outOfMemory, { s with disk := d', mem := t.mem }) ∧ sb.Scribbled s.disk d' c := by
      intro t hsame hrun ht
      have hbefore : ∀ b < sb.rootDirStart * 512, t.disk b = d₁ b := fun b hb =>
        hsame b fun hin => absurd hin.ge (by omega)
      obtain ⟨d', hfree, hfr⟩ := fatFreeChain_run
        (hall.chain.congr fun x _ => getFatEntry_congr hbefore x)
      refine ⟨d', ?_, hall.scribbled hsame hfr⟩
      rw [hstart, bind_ok (attempt_run hrun)]
      dsimp only
      rw [if_pos hc0, bind_ok (attempt_run hfree)]
      rw [ht]
      rfl
    obtain ⟨mem₁, hvn | hvn⟩ := fatAllocVnode_cases { s with disk := d₁, mem := mem }
    · obtain ⟨mem₂, hm | hm⟩ := malloc_cases { s with disk := d₁, mem := mem₁ }
      · have hw := hall.free.1.writeCluster (d := d₁) (fatDotContents c dir.firstCluster)
        refine ⟨mem₂, _, .inl ⟨c, ?_, hc0,
          entryAdded_dir h hall (hap c hall.free) name 0x10 dir.firstCluster⟩⟩
        have hbody := (bind_ok (f := fun _ => toDisk fun d =>
          fatWriteCluster sb d c (fatDotContents c dir.firstCluster)) hm).trans (toDisk_run hw)
        have hentry : fatCreateEntry sb dir name .dir 0x10 (a / 512) (a % 512) c
            { s with disk := d₁, mem := mem } = (.ok (),
              { s with
                disk := splice (splice d₁ (sb.clusterAddr c) sb.clusterSize
                  (fatDotContents c dir.firstCluster)) a 32 (fatDirentBytes name 0x10 c)
                mem := mem₂ }) := by
          rw [fatCreateEntry, bind_ok hvn, if_pos rfl, bind_ok hbody]
          exact toDisk_run (fatCreateEntry_write h _ _ _ _)
        rw [hstart, bind_ok (attempt_run hentry)]
        rfl
      · obtain ⟨d', hrun, hscr⟩ := hfail (t := { s with disk := d₁, mem := mem₂ })
          (fun _ _ => rfl) (by
            rw [fatCreateEntry, bind_ok hvn, if_pos rfl]
            exact bind_error (bind_error hm)) rfl
        exact ⟨mem₂, d', .inr ⟨.outOfMemory, hrun, .inr ⟨⟨c, hscr⟩, rfl⟩⟩⟩
    · obtain ⟨d', hrun, hscr⟩ := hfail (t := { s with disk := d₁, mem := mem₁ })
        (fun _ _ => rfl) (by rw [fatCreateEntry, bind_error hvn]) rfl
      exact ⟨mem₁, d', .inr ⟨.outOfMemory, hrun, .inr ⟨⟨c, hscr⟩, rfl⟩⟩⟩
  · refine ⟨mem, s.disk, .inr ⟨e, ?_, .inl ⟨rfl, hfull⟩⟩⟩
    rw [fatCreateAt, if_pos rfl, bind_error halloc]

def createAttr (type : VnodeType) : UInt8 := if type = .dir then 0x10 else 0x20

/-- `fat_create_vn`: the entry is added to the first free slot, or an error left the directory
as it was or longer by an empty cluster. -/
theorem fatCreateVn_spec (name : List UInt8) (type : VnodeType)
    (h : sb.DirSlots s.disk dir.firstCluster slots) :
    ∃ r t, fatCreateVn sb dir name type s = (r, t) ∧ t = { s with disk := t.disk, mem := t.mem } ∧
      match r with
      | .ok node => ∃ d₁ a sn c, sb.SlotTaken s.disk dir.firstCluster slots d₁ a ∧
          fatMakeShortName name = .ok sn ∧
          (liveSlots s.disk slots).find? (fun a => strcasecmpEq (entryName s.disk a) name) = none ∧
          ((type = .file ∧ c = 0) ∨ (type = .dir ∧ c ≠ 0)) ∧
          node = newNode a c (createAttr type) ∧
          sb.EntryAdded d₁ t.disk a sn (createAttr type) c dir.firstCluster
      | .error e => (t.disk = s.disk ∧
            (e = .noSpaceLeft → dir.firstCluster = 0 ∨ sb.Full s.disk)) ∨
          ∃ d₁ a, sb.SlotTaken s.disk dir.firstCluster slots d₁ a ∧
            ((t.disk = d₁ ∧ (e = .noSpaceLeft → sb.Full d₁)) ∨
              (∃ x, sb.Scribbled d₁ t.disk x) ∧ e = .outOfMemory) := by
  by_cases hbad : dir.isDir = false ∨ (type ≠ .file ∧ type ≠ .dir)
  · exact ⟨.error .invalidArgument, s, by rw [fatCreateVn, if_pos hbad]; rfl, rfl,
      .inl ⟨rfl, by intro hns; cases hns⟩⟩
  have hdir : dir.isDir = true := by
    by_contra hd
    exact hbad (.inl (by simpa using hd))
  have htype : type = .file ∨ type = .dir := by
    by_contra ht
    rw [not_or] at ht
    exact hbad (.inr ht)
  cases hsn : fatMakeShortName name with
  | error e =>
    refine ⟨.error e, s, ?_, rfl, .inl ⟨rfl, ?_⟩⟩
    · rw [fatCreateVn, if_neg hbad, bind_error (e := e) (t := s)]
      simp only [Eff.read, hsn]
    · rintro rfl
      exact absurd hsn (fatMakeShortName_ne name)
  | ok sn =>
    have hread : (Eff.read fun _ => fatMakeShortName name : FatM (List UInt8)) s = (.ok sn, s) := by
      simp only [Eff.read, hsn]
    obtain ⟨mem, ⟨a, -, hlook⟩ | ⟨hnone, hlook⟩ | hlook⟩ := fatLookupVn_spec name hdir h
    · refine ⟨.error .alreadyExists, { s with mem := mem }, ?_, rfl,
        .inl ⟨rfl, by intro hns; cases hns⟩⟩
      rw [fatCreateVn, if_neg hbad, bind_ok hread, bind_ok (attempt_run hlook)]
      rfl
    · have hstart : fatCreateVn sb dir name type s = (fatFindFreeSlot sb dir >>= fun slot =>
          fatCreateAt sb dir sn type slot.1 slot.2) { s with mem := mem } := by
        rw [fatCreateVn, if_neg hbad, bind_ok hread, bind_ok (attempt_run hlook)]
        rfl
      obtain ⟨mem₁, ⟨d₁, a, hslot, htaken⟩ | ⟨e, hslot, -, hns⟩⟩ :=
        fatFindFreeSlot_spec (s := { s with mem := mem }) h
      · obtain ⟨slots', hslots', ha⟩ := htaken.dirSlots h
        have hsa := hslots'.slot ha
        rw [hstart, bind_ok hslot]
        rcases htype with rfl | rfl
        · obtain ⟨mem₂, hat | hat⟩ :=
            fatCreateAt_file (s := { s with disk := d₁, mem := mem₁ }) hsa dir sn
          · exact ⟨_, _, hat, rfl, d₁, a, sn, 0, htaken, rfl, hnone, .inl ⟨rfl, rfl⟩, rfl,
              entryAdded_file hsa d₁ sn 0x20 dir.firstCluster⟩
          · exact ⟨_, _, hat, rfl, .inr ⟨d₁, a, htaken, .inl ⟨rfl, by intro hns; cases hns⟩⟩⟩
        · obtain ⟨mem₂, d', ⟨c, hat, hc, hadd⟩ | ⟨e, hat, herr⟩⟩ :=
            fatCreateAt_dir (s := { s with disk := d₁, mem := mem₁ }) hsa
              (fun x hx k hk => hslots'.apart ha hx hk) dir sn
          · exact ⟨_, _, hat, rfl, d₁, a, sn, c, htaken, rfl, hnone, .inr ⟨rfl, hc⟩, rfl, hadd⟩
          · exact ⟨_, _, hat, rfl, .inr ⟨d₁, a, htaken, herr⟩⟩
      · exact ⟨.error e, { s with mem := mem₁ }, by rw [hstart, bind_error hslot], rfl,
          .inl ⟨rfl, hns⟩⟩
    · refine ⟨.error .outOfMemory, { s with mem := mem }, ?_, rfl,
        .inl ⟨rfl, by intro hns; cases hns⟩⟩
      rw [fatCreateVn, if_neg hbad, bind_ok hread, bind_ok (attempt_run hlook)]
      rfl

theorem fatIterDir_empty {γ : Type} (cb : DirCallback γ) (ctx : γ) (ht : sb.type = .fat32)
    (hc : dir.firstCluster = 0) :
    ∃ e mem, fatIterDir sb cb dir ctx s = (.error e, { s with mem := mem }) ∧
      e ≠ .notFound ∧ e ≠ .noSpaceLeft := by
  obtain ⟨mem, hm | hm⟩ := malloc_cases s
  · refine ⟨.ioError, mem, ?_, by decide, by decide⟩
    obtain ⟨n, hn⟩ := Nat.exists_eq_succ_of_ne_zero sb.sound.clusterCount_pos.ne'
    rw [fatIterDir, bind_ok hm]
    refine onDisk_fail ?_
    rw [if_neg (fun hh => hh.2 ht), hc, hn, fatIterChain, fatReadCluster, if_pos (.inl (by decide))]
    rfl
  · exact ⟨.outOfMemory, mem, by rw [fatIterDir, bind_error hm], by decide, by decide⟩

/-- A directory entry all of whose live slots are `.` and `..`. -/
def EmptyDir (sb : FatSuper) (d : Disk) (c : Nat) : Prop :=
  ∃ slots, sb.DirSlots d c slots ∧ ∀ b ∈ liveSlots d slots, isDotName (entryName d b) = true

theorem fatEmptyTest (hch : sb.Chain s.disk dir.firstCluster l) :
    (∃ mem, (fatIterDir sb fatEmptyCb dir false >>= fun nonempty =>
        if nonempty then Eff.fail .directoryNotEmpty else pure () : FatM Unit) s =
          (.ok (), { s with mem := mem }) ∧ sb.EmptyDir s.disk dir.firstCluster) ∨
      ∃ e mem, (fatIterDir sb fatEmptyCb dir false >>= fun nonempty =>
        if nonempty then Eff.fail .directoryNotEmpty else pure () : FatM Unit) s =
          (.error e, { s with mem := mem }) := by
  have hcase : (∃ slots, sb.DirSlots s.disk dir.firstCluster slots) ∨
      (sb.type = .fat32 ∧ dir.firstCluster = 0) := by
    by_cases hc : dir.firstCluster = 0
    · by_cases ht : sb.type = .fat32
      · exact .inr ⟨ht, hc⟩
      · exact .inl ⟨_, by rw [hc]; exact .root ht⟩
    · exact .inl ⟨_, .chain hc hch⟩
  rcases hcase with ⟨slots, hslots⟩ | ⟨ht, hc⟩
  · obtain ⟨mem, hit | hit⟩ := fatIterDir_spec fatEmptyCb false hslots
    · rw [scanSlots_empty] at hit
      cases hany : (liveSlots s.disk slots).any fun a => !isDotName (entryName s.disk a) with
      | true =>
        rw [hany] at hit
        exact .inr ⟨_, mem, by rw [bind_ok hit]; rfl⟩
      | false =>
        rw [hany] at hit
        refine .inl ⟨mem, by rw [bind_ok hit]; rfl, slots, hslots, fun b hb => ?_⟩
        have hall := List.any_eq_false.mp hany b hb
        simpa using hall
    · exact .inr ⟨_, mem, bind_error hit⟩
  · obtain ⟨e, mem, hit, -⟩ := fatIterDir_empty (s := s) fatEmptyCb false ht hc
    exact .inr ⟨e, mem, bind_error hit⟩

theorem fatFreeFrom_frame (sb : FatSuper) (n c : Nat) (s : FatState) :
    ∃ r d', fatFreeFrom sb n c s = (r, { s with disk := d' }) ∧
      ∀ b, sb.rootDirStart * 512 ≤ b → d' b = s.disk b := by
  induction n generalizing c s with
  | zero =>
    rw [fatFreeFrom]
    split
    · exact ⟨_, s.disk, rfl, fun _ _ => rfl⟩
    · exact ⟨_, s.disk, rfl, fun _ _ => rfl⟩
  | succ n ih =>
    rw [fatFreeFrom]
    split
    · exact ⟨_, s.disk, rfl, fun _ _ => rfl⟩
    · cases hnext : fatNextCluster sb s.disk c with
      | error e => exact ⟨_, s.disk, bind_error (onDisk_fail hnext), fun _ _ => rfl⟩
      | ok next =>
        rw [bind_ok (onDisk_run hnext)]
        have hc : c < sb.clusterCount + 2 := by
          by_contra hge
          rw [fatNextCluster, getFatEntry_range (by omega)] at hnext
          cases hnext
        rcases setFatEntry_cases (d := s.disk) hc (Nat.two_pow_pos sb.type.width) with
          ⟨-, d₁, hset, hu⟩ | ⟨-, hset⟩
        · obtain ⟨r, d', hrun, hdata⟩ := ih next { s with disk := d₁ }
          rw [bind_ok (toDisk_run hset)]
          exact ⟨r, d', hrun, fun b hb => (hdata b hb).trans (hu.outside b (.inr hb))⟩
        · exact ⟨_, s.disk, bind_error (toDisk_fail hset), fun _ _ => rfl⟩

/-- The statements of `fat_unlink_vn` after its emptiness test: the slot is marked whatever the
chain is like, and a chain is freed as a whole. -/
theorem fatUnlink_rest (hslot : sb.Slot a) (c : Nat) :
    ∃ r d', (toDisk (fun d => do
          let buf ← fatReadSector sb d (a / 512)
          fatWriteSector sb d (a / 512) (update buf (a % 512) 0xE5)) >>= fun _ =>
        if c ≠ 0 then fatFreeChain sb c else pure () : FatM Unit) s =
          (r, { s with disk := d' }) ∧ d' a = 0xE5 ∧
      (∀ b, sb.rootDirStart * 512 ≤ b → b ≠ a → d' b = s.disk b) ∧
      ∀ l, sb.Chain s.disk c l → r = .ok () ∧ sb.EntryRemoved s.disk d' a l := by
  have hupd : ∀ buf : Bytes, update buf (a % 512) (0xE5 : UInt8) =
      splice buf (a % 512) 1 fun _ => 0xE5 := fun buf => update_eq_splice _ _ _
  have hw : (do
      let buf ← fatReadSector sb s.disk (a / 512)
      fatWriteSector sb s.disk (a / 512) (update buf (a % 512) 0xE5)) =
        .ok (splice s.disk a 1 fun _ => 0xE5) := by
    simp only [hupd]
    exact rmwSlot hslot s.disk _ 1 (by decide)
  have hbefore := splice_slot_before hslot s.disk (fun _ => 0xE5) 1
  have hdel : splice s.disk a 1 (fun _ => 0xE5) a = 0xE5 := splice_inside le_rfl (by omega)
  have hother : ∀ b, b ≠ a → splice s.disk a 1 (fun _ => 0xE5) b = s.disk b :=
    fun b hb => splice_outside (by omega)
  have hif : (if c ≠ 0 then fatFreeChain sb c else pure ()) = fatFreeChain sb c := by
    by_cases h0 : c = 0
    · rw [if_neg (by simpa using h0), h0]
      exact (funext (fatFreeChain_zero sb)).symm
    · rw [if_pos h0]
  obtain ⟨r, d', hfree, hdata⟩ := fatFreeFrom_frame sb sb.clusterCount c
    { s with disk := splice s.disk a 1 fun _ => 0xE5 }
  rw [bind_ok (toDisk_run hw), hif]
  refine ⟨r, d', hfree, (hdata a hslot.ge).trans hdel,
    fun b hb hba => (hdata b hb).trans (hother b hba), fun l hl => ?_⟩
  obtain ⟨d'', hfree', hfr⟩ := fatFreeChain_run
    (s := { s with disk := splice s.disk a 1 fun _ => 0xE5 })
    (hl.congr fun x _ => getFatEntry_congr hbefore x)
  obtain ⟨rfl, hd⟩ := Prod.mk.inj (hfree.symm.trans hfree')
  obtain rfl : d' = d'' := congrArg FatState.disk hd
  refine ⟨rfl, (hdata a hslot.ge).trans hdel, fun x hx => ?_,
    fun b hb hba => (hdata b hb).trans (hother b hba), fun hc => hfr.copies (hc.congr hbefore)⟩
  rw [hfr.fat x hx, getFatEntry_congr hbefore]

theorem fatUnlinkVn_spec (name : List UInt8) (h : sb.DirSlots s.disk dir.firstCluster slots)
    (hch : ∀ a ∈ liveSlots s.disk slots, strcasecmpEq (entryName s.disk a) name = true →
      ∃ l, sb.Chain s.disk (nodeAt s.disk a).firstCluster l) :
    ∃ r t, fatUnlinkVn sb dir name s = (r, t) ∧ t = { s with disk := t.disk, mem := t.mem } ∧
      match r with
      | .ok _ => ∃ a l, (liveSlots s.disk slots).find?
            (fun a => strcasecmpEq (entryName s.disk a) name) = some a ∧
          sb.Chain s.disk (nodeAt s.disk a).firstCluster l ∧
          ((nodeAt s.disk a).isDir = true → sb.EmptyDir s.disk (nodeAt s.disk a).firstCluster) ∧
          sb.EntryRemoved s.disk t.disk a l
      | .error _ => t.disk = s.disk := by
  by_cases hbad : dir.isDir = false
  · exact ⟨.error .invalidArgument, s, by rw [fatUnlinkVn, if_pos hbad]; rfl, rfl, rfl⟩
  have hdir : dir.isDir = true := by simpa using hbad
  obtain ⟨mem, ⟨a, hfind, hlook⟩ | ⟨-, hlook⟩ | hlook⟩ := fatLookupVn_spec name hdir h
  · have hlive := List.mem_of_find?_eq_some hfind
    have hname := List.find?_some hfind
    obtain ⟨l, hl⟩ := hch a hlive hname
    have hslot := h.slot (mem_of_mem_liveSlots hlive)
    have hrest : ∀ mem, ∃ d', (toDisk (fun d => do
          let buf ← fatReadSector sb d (nodeAt s.disk a).dirSector
          fatWriteSector sb d (nodeAt s.disk a).dirSector
            (update buf (nodeAt s.disk a).dirOffset 0xE5)) >>= fun _ =>
        if (nodeAt s.disk a).firstCluster ≠ 0 then fatFreeChain sb (nodeAt s.disk a).firstCluster
        else pure () : FatM Unit) { s with mem := mem } =
          (.ok (), { s with disk := d', mem := mem }) ∧ sb.EntryRemoved s.disk d' a l := by
      intro mem
      obtain ⟨r, d', hrun, -, -, hok⟩ := fatUnlink_rest (s := { s with mem := mem }) hslot
        (nodeAt s.disk a).firstCluster
      obtain ⟨rfl, hrem⟩ := hok l hl
      exact ⟨d', hrun, hrem⟩
    by_cases hd : (nodeAt s.disk a).isDir = true
    · rcases fatEmptyTest (s := { s with mem := mem }) hl with ⟨mem', htest, hempty⟩ | ⟨e, mem', htest⟩
      · obtain ⟨d', hrun, hrem⟩ := hrest mem'
        refine ⟨.ok (), { s with disk := d', mem := mem' }, ?_, rfl, a, l, hfind, hl,
          fun _ => hempty, hrem⟩
        rw [fatUnlinkVn, if_neg hbad, bind_ok hlook, if_pos hd, bind_ok htest, hrun]
      · refine ⟨.error e, { s with mem := mem' }, ?_, rfl, rfl⟩
        rw [fatUnlinkVn, if_neg hbad, bind_ok hlook, if_pos hd, bind_error htest]
    · obtain ⟨d', hrun, hrem⟩ := hrest mem
      refine ⟨.ok (), { s with disk := d', mem := mem }, ?_, rfl, a, l, hfind, hl,
        fun hc => absurd hc hd, hrem⟩
      rw [fatUnlinkVn, if_neg hbad, bind_ok hlook, if_neg hd, bind_ok (pure_run _ _), hrun]
  · exact ⟨_, _, by rw [fatUnlinkVn, if_neg hbad, bind_error hlook], rfl, rfl⟩
  · exact ⟨_, _, by rw [fatUnlinkVn, if_neg hbad, bind_error hlook], rfl, rfl⟩

end FatSuper

end CfKernel.Fat
