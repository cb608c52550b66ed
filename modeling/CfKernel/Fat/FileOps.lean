import CfKernel.Fat.FileSpec

/-!
# What truncating, writing and reading do

One specification for each file operation: it is a `FileStep`, a successful one leaves the entry
in step with the node and the bytes as they should be, and a call that reports a full volume
leaves no free cluster behind.
-/

namespace CfKernel.Fat

open Lib Lib.Eff

namespace FatSuper

variable {sb : FatSuper} {a c x y n i k newSize off len done : Nat}
variable {d d' d'' : Disk} {l l' p q : List Nat} {s t : FatState} {buf dst : Bytes}

theorem fileAddr_of_pre (h : l <+: l') (hi : i < l.length * sb.clusterSize) :
    sb.fileAddr l' i = sb.fileAddr l i := by
  obtain ⟨m, rfl⟩ := h
  rw [fileAddr, fileAddr, List.getD_eq_getElem?_getD, List.getElem?_append_left (index_lt hi),
    ← List.getD_eq_getElem?_getD]

theorem Grown.byte (h : sb.Grown d d' l l') (hl : sb.Chain d c l)
    (hi : i < l.length * sb.clusterSize) : d' (sb.fileAddr l' i) = d (sb.fileAddr l i) := by
  rw [fileAddr_of_pre h.pre hi]
  refine h.data _ (sb.fileAddr_ge l i) fun x hx hn hin => hn ?_
  have hmem := getD_index_mem hi
  rw [inCluster_unique (h.fresh x hx hn).1 (hl.isCluster hmem) hin (sb.fileAddr_inCluster l i)]
  exact hmem

theorem Chain.cut (hl : sb.Chain d c (p ++ x :: q)) (he : sb.EntrySet d d' x (fatEocMarker sb))
    (hf : sb.Freed d' d'' q) : sb.Chain d'' c (p ++ [x]) := by
  have hnd := hl.nodup
  obtain ⟨y, hp, hxq⟩ := path_append.mp hl
  obtain ⟨rfl, z, hlink, -⟩ := path_cons.mp hxq
  have hx := hlink.1
  rw [List.nodup_append] at hnd
  have hxq' := (List.nodup_cons.mp hnd.2.1).1
  refine path_append.mpr ⟨y, Path.congr hp fun w hw n hn => ⟨hn.1, ?_⟩, rfl, 0, ?_, rfl⟩
  · have hwy : w ≠ y := hnd.2.2 w hw y (by simp)
    have hwq : w ∉ q := fun hq => hnd.2.2 w hw w (by simp [hq]) rfl
    rw [fatNextCluster_congr (d := d), hn.2]
    rw [hf.fat w hn.1.2, if_neg hwq, he.fat w hn.1.2, if_neg hwy]
  · refine link_of_eoc hx ?_
    rw [hf.fat y hx.2, if_neg hxq', he.fat y hx.2, if_pos rfl]

theorem keepCount_le (h : newSize < l.length * sb.clusterSize) :
    (newSize + sb.clusterSize - 1) / sb.clusterSize ≤ l.length := by
  have hpos := sb.clusterSize_pos
  rw [← Nat.lt_succ_iff]
  refine Nat.div_lt_of_lt_mul ?_
  rw [Nat.mul_succ, Nat.mul_comm]
  omega

theorem le_keepCount (sb : FatSuper) (newSize : Nat) :
    newSize ≤ (newSize + sb.clusterSize - 1) / sb.clusterSize * sb.clusterSize := by
  have hpos := sb.clusterSize_pos
  have h1 := Nat.div_add_mod' (newSize + sb.clusterSize - 1) sb.clusterSize
  have h2 := Nat.mod_lt (newSize + sb.clusterSize - 1) hpos
  omega

theorem fatKeepCount_eq (sb : FatSuper) (h : newSize + sb.clusterSize - 1 < 2 ^ 32) :
    fatKeepCount sb newSize = (newSize + sb.clusterSize - 1) / sb.clusterSize := by
  have hpos := sb.clusterSize_pos
  unfold fatKeepCount
  split_ifs with h0
  · rw [u32_of_lt h]
  · obtain rfl : newSize = 0 := by omega
    rw [Nat.div_eq_of_lt (by omega)]

theorem fatShrink_run (h : sb.FileAt s a l) (hlt : newSize < s.node.size)
    (hw : newSize + sb.clusterSize - 1 < 2 ^ 32) :
    ∃ d' f l', fatShrink sb newSize s =
        (.ok (), { s with disk := d', node := { s.node with firstCluster := f } }) ∧
      sb.FileStep a s
        { s with disk := d', node := { s.node with firstCluster := f, size := newSize } } l l' ∧
      l' <+: l ∧ ∀ b, sb.rootDirStart * 512 ≤ b → d' b = s.disk b := by
  have hsize : newSize < l.length * sb.clusterSize := hlt.trans_le h.size_le
  have hkeep := keepCount_le hsize
  have hneed := sb.le_keepCount newSize
  have hlt32 := hlt.trans h.size_lt
  have hcount := fatKeepCount_eq sb hw
  generalize (newSize + sb.clusterSize - 1) / sb.clusterSize = keep at hkeep hneed hcount
  by_cases hk0 : keep = 0
  · subst hk0
    obtain ⟨d', hrun, hfr⟩ := fatFreeChain_run h.chain
    refine ⟨d', 0, [], ?_, ?_, List.nil_prefix, hfr.data⟩
    · rw [fatShrink, bind_ok (getNode_run s)]
      simp only [hcount, if_true]
      rw [bind_ok hrun, modifyNode_run]
    · refine h.step rfl (by simpa using hneed) hlt32 (by simp) (fun x hx hxl _ => ?_)
        (fun b hb _ => hfr.data b hb) hfr.copies
      rw [hfr.fat x hx, if_neg hxl]
  · obtain ⟨m, rfl⟩ := Nat.exists_eq_succ_of_ne_zero hk0
    have hm : m < l.length := hkeep
    obtain ⟨p, x, q, rfl, hp⟩ : ∃ p x q, l = p ++ x :: q ∧ p.length = m :=
      ⟨l.take m, l[m], l.drop (m + 1), by rw [List.getElem_cons_drop, List.take_append_drop],
        by rw [List.length_take]; omega⟩
    have hidx : (p ++ x :: q)[m]? = some x := by
      rw [List.getElem?_append_right (by omega), hp, Nat.sub_self, List.getElem?_cons_zero]
    obtain ⟨_, _, hxq⟩ := path_append.mp h.chain
    obtain ⟨-, tail, hlink, htail⟩ := path_cons.mp hxq
    obtain ⟨w, hget, -⟩ := hlink.entry
    obtain ⟨d₁, hset, hent⟩ := setFatEntry_of_get hlink.1 hget sb.eocMarker_lt
    have hxq' : x ∉ q := by
      have hnd := (List.nodup_append.mp h.chain.nodup).2.1
      exact (List.nodup_cons.mp hnd).1
    have htail₁ : sb.Chain d₁ tail q := Chain.congr htail fun y hy => by
      rw [hent.fat y (Chain.isCluster htail hy).2, if_neg (by rintro rfl; exact hxq' hy)]
    obtain ⟨d', hrun, hfr⟩ := fatFreeChain_run (s := { s with disk := d₁ }) htail₁
    have hdata : ∀ b, sb.rootDirStart * 512 ≤ b → d' b = s.disk b := fun b hb =>
      (hfr.data b hb).trans (hent.data b hb)
    refine ⟨d', s.node.firstCluster, p ++ [x], ?_, ?_, ⟨q, by simp⟩, hdata⟩
    · rw [fatShrink, bind_ok (getNode_run s)]
      simp only [hcount, if_neg hk0, Nat.succ_sub_one]
      rw [bind_ok (fatEnsureCluster_existing h.chain hidx), bind_ok (onDisk_run hlink.2),
        bind_ok (toDisk_run hset), hrun]
    · refine h.step (h.chain.cut hent hfr) (by simpa [hp] using hneed) hlt32
        (fun y hy => .inl (by simp only [List.mem_append, List.mem_cons] at hy ⊢; tauto))
        (fun y hy hyl _ => ?_) (fun b hb _ => hdata b hb) fun hc => hfr.copies (hent.copies hc)
      have hyq : y ∉ q := fun hq => hyl (by simp [hq])
      have hyx : y ≠ x := by
        rintro rfl
        exact hyl (by simp)
      rw [hfr.fat y hy, if_neg hyq]
      exact (hent.fat y hy).trans (if_neg hyx)

theorem Ensured.stale (h : sb.FileAt s a l) (he : sb.Ensured s t l l') : Stale a s t l l' where
  entry k hk := he.grown.data _ (h.slot.ge.trans (Nat.le_add_right _ _)) fun x hx hn =>
    h.apart x (.inr (he.grown.fresh x hx hn)) k hk
  size := congrArg (fun s => s.node.size) he.rest
  pre := he.grown.pre

theorem Stale.touched {lo hi : Nat} {mem : Nat → Bool} (h : Stale a s t l l')
    (hf : sb.FileAt t a l') (ht : sb.Touched t.disk d l' lo hi)
    (hhi : hi ≤ l'.length * sb.clusterSize) : Stale a s { t with disk := d, mem := mem } l l' where
  entry k hk := (ht.outside hhi fun x hx => hf.apart x (.inl hx) k hk).trans (h.entry k hk)
  size := h.size
  pre := h.pre

theorem fatGrow_spec (h : sb.FileAt s a l) (hgt : s.node.size < newSize) :
    ∃ r t l', fatGrow sb newSize s = (r, t) ∧ sb.FileStep a s t l l' ∧ Stale a s t l l' ∧
      (∀ i < s.node.size, t.disk (sb.fileAddr l' i) = s.disk (sb.fileAddr l i)) ∧
      match r with
      | .ok _ => newSize ≤ l'.length * sb.clusterSize ∧
          ∀ i, s.node.size ≤ i → i < newSize → t.disk (sb.fileAddr l' i) = 0
      | .error e => e = .noSpaceLeft → sb.Full t.disk ∧ (l' = l → t.disk = s.disk) := by
  obtain ⟨t, l', he, hens⟩ := fatEnsureCluster_spec ((newSize - 1) / sb.clusterSize) h.chain
  have hstep := he.fileStep h
  have hstale := he.stale h
  have hbytes : ∀ i < s.node.size, t.disk (sb.fileAddr l' i) = s.disk (sb.fileAddr l i) :=
    fun i hi => he.grown.byte h.chain (hi.trans_le h.size_le)
  rcases hens with ⟨x, hrun, -, hlen⟩ | ⟨e, hrun, -, hfull⟩
  · have hroom : newSize ≤ l'.length * sb.clusterSize := by
      have h1 := Nat.lt_div_mul_add (a := newSize - 1) sb.clusterSize_pos
      have h2 : ((newSize - 1) / sb.clusterSize + 1) * sb.clusterSize ≤ l'.length * sb.clusterSize :=
        Nat.mul_le_mul_right _ (by omega)
      rw [Nat.add_mul, Nat.one_mul] at h2
      omega
    have hsize := hstale.size
    obtain ⟨mem, hm | hm⟩ := malloc_cases t
    · obtain ⟨d', mem', ht, hloop⟩ := fatZeroLoop_spec (s := { t with mem := mem })
        s.node.size he.chain hroom (le_refl (newSize - s.node.size))
      rw [max_eq_right hgt.le] at ht
      have hbytes' : ∀ i < s.node.size, d' (sb.fileAddr l' i) = s.disk (sb.fileAddr l i) := by
        intro i hi
        rw [← hbytes i hi]
        exact ht.byte hroom he.chain (by omega) (.inl hi)
      have hgrow : fatGrow sb newSize s = fatZeroLoop sb newSize (newSize - s.node.size) s.node.size
          { t with mem := mem } := by
        rw [fatGrow, bind_ok (getNode_run s), bind_ok hrun, bind_ok hm]
      have hstep' := hstep.touched mem' ht hroom
      have hstale' : Stale a s { t with disk := d', mem := mem' } l l' :=
        hstale.touched hstep.file ht hroom
      rcases hloop with ⟨hloop, hzero⟩ | hloop
      · exact ⟨.ok (), _, l', hgrow.trans hloop, hstep', hstale', hbytes', hroom, hzero⟩
      · exact ⟨.error .outOfMemory, _, l', hgrow.trans hloop, hstep', hstale', hbytes',
          nofun⟩
    · refine ⟨.error .outOfMemory, { t with mem := mem }, l', ?_,
        hstep.congr mem (fun _ _ => rfl) (fun _ _ _ => rfl), ⟨hstale.entry, hstale.size, hstale.pre⟩,
        hbytes, nofun⟩
      rw [fatGrow, bind_ok (getNode_run s), bind_ok hrun, bind_error hm]
  · refine ⟨.error e, t, l', ?_, hstep, hstale, hbytes, fun hns => ⟨hfull hns, he.grown.same⟩⟩
    rw [fatGrow, bind_ok (getNode_run s), bind_error hrun]

theorem FileStep.setSize (h : sb.FileStep a s t l l') (hz : newSize ≤ l'.length * sb.clusterSize)
    (hz' : newSize < 2 ^ 32) :
    sb.FileStep a s { t with node := { t.node with size := newSize } } l l' :=
  { h with file := { h.file with size_le := hz, size_lt := hz' } }

/-- The slot lies outside the file, so updating it leaves the file's bytes. -/
theorem FileAt.byte_putDirentFields (h : sb.FileAt s a l) (hi : i < l.length * sb.clusterSize)
    (d : Disk) (c z : Nat) : putDirentFields d a c z (sb.fileAddr l i) = d (sb.fileAddr l i) := by
  refine putDirentFields_outside ?_
  by_contra hin
  refine h.apart _ (.inl (getD_index_mem hi)) (sb.fileAddr l i - a) (by omega) ?_
  rw [Nat.add_sub_cancel' (by omega)]
  exact sb.fileAddr_inCluster l i

/-- The last two statements of `fat_truncate_vn`, from the state its first part leaves. -/
theorem fatSetSize_spec (newSize : Nat) (t : FatState) (l' : List Nat)
    (hst : sb.FileStep a s { t with node := { t.node with size := newSize } } l l')
    (hbytes : ∀ i < newSize, t.disk (sb.fileAddr l' i) =
      if i < s.node.size then s.disk (sb.fileAddr l i) else 0) :
    ∃ u, (modifyNode (fun node => { node with size := newSize }) >>=
        fun _ => fatUpdateDirent sb) t = (.ok (), u) ∧ sb.FileStep a s u l l' ∧ Synced u a ∧
      u.node.size = newSize ∧ ∀ i < newSize, u.disk (sb.fileAddr l' i) =
        if i < s.node.size then s.disk (sb.fileAddr l i) else 0 := by
  obtain ⟨hu, hsync⟩ := hst.updated rfl rfl
  refine ⟨_, ?_, hu, hsync, rfl, fun i hi => ?_⟩
  · rw [bind_ok (modifyNode_run _ t), hst.file.updateDirent]
  · rw [← hbytes i hi]
    exact hst.file.byte_putDirentFields (hi.trans_le hst.file.size_le) _ _ _

abbrev Truncated (sb : FatSuper) (newSize a : Nat) (s t : FatState) (l l' : List Nat) :
    Except Errno Unit → Prop
  | .ok _ => Synced t a ∧ t.node.size = newSize ∧
      (∀ i < newSize, t.disk (sb.fileAddr l' i) =
        if i < s.node.size then s.disk (sb.fileAddr l i) else 0)
  | .error e => Stale a s t l l' ∧
      (∀ i < s.node.size, t.disk (sb.fileAddr l' i) = s.disk (sb.fileAddr l i)) ∧
      (e = .noSpaceLeft → sb.Full t.disk ∧ (l' = l → t.disk = s.disk))

theorem fatTruncateVn_spec (newSize : Nat) (h : sb.FileAt s a l)
    (hw : newSize < s.node.size → newSize + sb.clusterSize - 1 < 2 ^ 32) :
    ∃ r t l', fatTruncateVn sb newSize s = (r, t) ∧ sb.FileStep a s t l l' ∧
      sb.Truncated newSize a s t l l' r := by
  have hread := getNode_run s
  by_cases hbig : newSize > 0xFFFFFFFF
  · refine ⟨.error .invalidArgument, s, l, ?_, .refl h, ⟨fun _ _ => rfl, rfl, List.prefix_refl l⟩,
      fun _ _ => rfl, nofun⟩
    rw [fatTruncateVn, bind_ok hread, if_pos (.inr hbig)]
    rfl
  have htest : ¬ (s.node.isDir = true ∨ newSize > 0xFFFFFFFF) := by
    rw [h.file]
    simpa using hbig
  rcases lt_trichotomy newSize s.node.size with hlt | heq | hgt
  · obtain ⟨d', f, l', hrun, hst, hpre, hdata⟩ := fatShrink_run h hlt (hw hlt)
    obtain ⟨u, hu, hstep, hsync, hsize, hbytes⟩ := fatSetSize_spec newSize
      { s with disk := d', node := { s.node with firstCluster := f } } l' hst fun i hi => by
        rw [if_pos (hi.trans hlt), fileAddr_of_pre hpre (hi.trans_le hst.file.size_le)]
        exact hdata _ (sb.fileAddr_ge _ _)
    refine ⟨.ok (), u, l', ?_, hstep, hsync, hsize, hbytes⟩
    rw [fatTruncateVn, bind_ok hread, if_neg htest, if_pos hlt, bind_ok hrun, hu]
  · obtain ⟨u, hu, hstep, hsync, hsize, hbytes⟩ := fatSetSize_spec newSize s l
      ((FileStep.refl h).setSize (by rw [heq]; exact h.size_le) (by omega)) fun i hi => by
        rw [if_pos (by omega)]
    refine ⟨.ok (), u, l, ?_, hstep, hsync, hsize, hbytes⟩
    rw [fatTruncateVn, bind_ok hread, if_neg htest, if_neg (by omega), if_neg (by omega),
      bind_ok (pure_run () s), hu]
  · obtain ⟨r, t, l', hrun, hst, hstale, hsame, hres⟩ := fatGrow_spec h hgt
    rw [fatTruncateVn, bind_ok hread, if_neg htest, if_neg (by omega), if_pos hgt]
    cases r with
    | ok _ =>
      obtain ⟨hroom, hzero⟩ := hres
      obtain ⟨u, hu, hstep, hsync, hsize, hbytes⟩ := fatSetSize_spec newSize t l'
        (hst.setSize hroom (by omega)) fun i hi => by
          split_ifs with hold
          · rw [hsame i hold]
          · rw [hzero i (by omega) hi]
      exact ⟨.ok (), u, l', by rw [bind_ok hrun, hu], hstep, hsync, hsize, hbytes⟩
    | error e =>
      exact ⟨.error e, t, l', by rw [bind_error hrun], hst, hstale, hsame, hres⟩

/-- The result of writing `len` bytes at `off` over a file of `size` bytes, byte by byte. -/
def writtenByte (old : Nat → UInt8) (size : Nat) (buf : Bytes) (off len i : Nat) : UInt8 :=
  if off ≤ i ∧ i < off + len then buf (i - off) else if i < size then old i else 0

theorem fatWriteData_spec (buf : Bytes) (h : sb.FileStep a s t l l')
    (hend : off + len ≤ t.node.size) :
    ∃ mem, (∃ d', fatWriteData sb buf off len t =
          (.ok (), { t with disk := d', mem := mem, out := len }) ∧
        sb.FileStep a s { t with disk := d', mem := mem, out := len } l l' ∧
        Synced { t with disk := d', mem := mem, out := len } a ∧
        ∀ i < t.node.size, d' (sb.fileAddr l' i) =
          writtenByte (fun i => t.disk (sb.fileAddr l' i)) t.node.size buf off len i) ∨
      fatWriteData sb buf off len t = (.error .outOfMemory, { t with mem := mem }) := by
  have hroom := hend.trans h.file.size_le
  obtain ⟨mem, hm | hm⟩ := malloc_cases t
  · obtain ⟨d₁, ht, hloop, hval⟩ := fatWriteLoop_spec (s := { t with mem := mem }) buf len 0
      h.file.chain hroom (Nat.zero_le len) (Nat.sub_le len 0)
    rw [Nat.add_zero] at ht hval
    have hst := h.touched mem ht hroom
    obtain ⟨hu, hsync⟩ := hst.updated rfl rfl
    refine ⟨mem, .inl ⟨_, ?_, ?_, hsync, fun i hi => ?_⟩⟩
    · rw [fatWriteData, bind_ok hm, bind_ok hloop]
      simp only []
      rw [bind_ok (modifyNode_run _ _)]
      simp only [if_neg (show ¬ t.node.size < off + len by omega)]
      rw [bind_ok (attempt_run (hst.file.updateDirent)), bind_ok (modify_run _ _)]
      rfl
    · exact { hu with file := { hu.file with } }
    · have hi' := hi.trans_le h.file.size_le
      refine (hst.file.byte_putDirentFields hi' _ _ _).trans ?_
      unfold writtenByte
      split_ifs with hin
      · exact hval i hin.1 hin.2
      · exact ht.byte hroom h.file.chain hi' (by omega)
  · exact ⟨mem, .inr (by rw [fatWriteData, bind_error hm])⟩

abbrev Written (sb : FatSuper) (buf : Bytes) (off len a : Nat) (s t : FatState) (l l' : List Nat) :
    Except Errno Unit → Prop
  | .ok _ => (len = 0 ∧ t = { s with out := 0 }) ∨
      (0 < len ∧ Synced t a ∧ t.out = len ∧ t.node.size = max s.node.size (off + len) ∧
        ∀ i < t.node.size, t.disk (sb.fileAddr l' i) =
          writtenByte (fun i => s.disk (sb.fileAddr l i)) s.node.size buf off len i)
  | .error e => (Synced t a ∨ Stale a s t l l') ∧
      (∀ i < s.node.size, t.disk (sb.fileAddr l' i) = s.disk (sb.fileAddr l i)) ∧
      (e = .noSpaceLeft → Stale a s t l l' ∧ ((0xFFFFFFFF < off + len ∧ t.disk = s.disk) ∨
        (sb.Full t.disk ∧ (l' = l → t.disk = s.disk))))

theorem fatWriteVn_spec (buf : Bytes) (off len : Nat) (h : sb.FileAt s a l) :
    ∃ r t l', fatWriteVn sb buf off len s = (r, t) ∧ sb.FileStep a s t l l' ∧
      (off + len ≤ s.node.size → l' = l ∧ t.node = s.node) ∧
      sb.Written buf off len a s t l l' r := by
  have hout : sb.FileAt { s with out := 0 } a l := { h with }
  have hrefl : sb.FileStep a s { s with out := 0 } l l := { FileStep.refl h with file := hout }
  have hstale : Stale a s { s with out := 0 } l l := ⟨fun _ _ => rfl, rfl, List.prefix_refl l⟩
  rw [fatWriteVn, bind_ok (getNode_run s), if_neg (by rw [h.file]; decide),
    bind_ok (modify_run _ s)]
  by_cases hlen : len = 0
  · exact ⟨.ok (), _, l, by rw [if_pos hlen]; rfl, hrefl, fun _ => ⟨rfl, rfl⟩, .inl ⟨hlen, rfl⟩⟩
  rw [if_neg hlen]
  by_cases hbig : off > 0xFFFFFFFF ∨ len > 0xFFFFFFFF - off
  · refine ⟨.error .noSpaceLeft, _, l, by rw [if_pos hbig]; rfl, hrefl, fun _ => ⟨rfl, rfl⟩,
      .inr hstale, fun _ _ => rfl, fun _ => ⟨hstale, .inl ⟨by omega, rfl⟩⟩⟩
  rw [if_neg hbig]
  split_ifs with hgrow
  · have hno : off + len ≤ s.node.size → False := fun hle => by omega
    obtain ⟨r, t, l', hrun, hst, hres⟩ := fatTruncateVn_spec (off + len) hout
      fun hlt => absurd hlt (by simp only; omega)
    have hst' : sb.FileStep a s t l l' := { hst with }
    cases r with
    | ok _ =>
      obtain ⟨hsync, hsize, hbytes⟩ := hres
      obtain ⟨mem, ⟨d', hdata, hfin, hsync', hval⟩ | hdata⟩ :=
        fatWriteData_spec buf hst' hsize.ge
      · refine ⟨.ok (), _, l', by rw [bind_ok hrun, hdata], hfin, fun hle => (hno hle).elim,
          .inr ⟨by omega, hsync', rfl, ?_, fun i hi => ?_⟩⟩
        · change t.node.size = _
          omega
        · have hi' : i < t.node.size := hi
          refine (hval i hi').trans ?_
          unfold writtenByte
          rw [if_pos hi']
          split_ifs with h1 h2
          · rfl
          · exact (hbytes i (by omega)).trans (if_pos h2)
          · exact (hbytes i (by omega)).trans (if_neg h2)
      · refine ⟨.error .outOfMemory, _, l', by rw [bind_ok hrun, hdata],
          hst'.congr mem (fun _ _ => rfl) fun _ _ _ => rfl, fun hle => (hno hle).elim,
          .inl hsync, fun i hi => ?_, nofun⟩
        exact (hbytes i (by omega)).trans (if_pos hi)
    | error e =>
      obtain ⟨hstale', hbytes, hfull⟩ := hres
      exact ⟨.error e, t, l', by rw [bind_error hrun], hst', fun hle => (hno hle).elim,
        .inr { hstale' with }, hbytes, fun hns => ⟨{ hstale' with }, .inr (hfull hns)⟩⟩
  · rw [bind_ok (pure_run _ _)]
    obtain ⟨mem, ⟨d', hdata, hfin, hsync', hval⟩ | hdata⟩ :=
      fatWriteData_spec buf hrefl (not_lt.mp hgrow)
    · refine ⟨.ok (), _, l, hdata, hfin, fun _ => ⟨rfl, rfl⟩,
        .inr ⟨by omega, hsync', rfl, ?_, fun i hi => hval i hi⟩⟩
      change s.node.size = _
      omega
    · exact ⟨.error .outOfMemory, _, l, hdata,
        hrefl.congr mem (fun _ _ => rfl) fun _ _ _ => rfl, fun _ => ⟨rfl, rfl⟩,
        .inr { hstale with }, fun _ _ => rfl, nofun⟩

end FatSuper

end CfKernel.Fat
