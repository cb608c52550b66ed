import CfKernel.Fat.Contents

/-!
# Calls that run out of space

A call that fails with `ERR_NO_SPACE_LEFT` is atomic exactly when it had nothing to take: the
volume had no free cluster before the call, or the call failed before it looked for one.
-/

namespace CfKernel.Fat

open Lib Lib.Eff

namespace FatSuper

variable {sb : FatSuper} {a : Nat} {l l' : List Nat} {d d' : Disk} {s t : FatState}
variable {dir : FatNode} {name : List UInt8} {type : VnodeType}

/-- The same clusters are allocated, every directory has the same live entries, and every file the
same size and contents. -/
structure Atomic (sb : FatSuper) (d d' : Disk) : Prop where
  allocated : ∀ x, sb.Free d' x ↔ sb.Free d x
  dirs : ∀ o c slots, sb.LiveDir d o c → sb.DirSlots d c slots →
    ∃ slots', sb.DirSlots d' c slots' ∧ liveSlots d' slots' = liveSlots d slots
  entries : ∀ b, sb.LiveEntry d b → nodeAt d' b = nodeAt d b ∧ entryName d' b = entryName d b
  contents : ∀ b c, sb.LiveEntry d b → sb.Contents d b c → sb.Contents d' b c

theorem Atomic.refl (sb : FatSuper) (d : Disk) : sb.Atomic d d where
  allocated _ := Iff.rfl
  dirs _ _ slots _ hs := ⟨slots, hs, rfl⟩
  entries _ _ := ⟨rfl, rfl⟩
  contents _ _ _ hc := hc

theorem Atomic.full (h : sb.Atomic d d') (hf : sb.Full d') : sb.Full d := fun x hx =>
  hf x ((h.allocated x).mpr hx)

theorem FileStep.eq_of_full (h : sb.FileStep a s t l l') (hpre : l <+: l')
    (hf : sb.Full s.disk) : l' = l := by
  obtain ⟨r, rfl⟩ := hpre
  cases r with
  | nil => simp
  | cons x r =>
    exfalso
    rcases h.owned x (by simp) with hx | hx
    · have hnd := h.file.chain.nodup
      exact (List.nodup_append.mp hnd).2.2 x hx x (by simp) rfl
    · exact hf x hx

theorem fatTruncateVn_wrap {newSize : Nat} (h : sb.FileAt s a l) (hlt : newSize < s.node.size)
    (hw : 2 ^ 32 ≤ newSize + sb.clusterSize - 1) :
    ∃ t, fatTruncateVn sb newSize s = (.ok (), t) := by
  have hsize := h.size_lt
  have hcs := sb.clusterSize_le
  have hkeep : fatKeepCount sb newSize = 0 := by
    unfold fatKeepCount
    split_ifs
    · apply Nat.div_eq_of_lt
      rw [u32]
      omega
    · rfl
  obtain ⟨d', hfree, -⟩ := fatFreeChain_run h.chain
  have hshrink : fatShrink sb newSize s =
      (.ok (), { s with disk := d', node := { s.node with firstCluster := 0 } }) := by
    rw [fatShrink, bind_ok (getNode_run s), if_pos hkeep, bind_ok hfree]
    rfl
  have htest : ¬ (s.node.isDir = true ∨ newSize > 0xFFFFFFFF) := by
    rw [h.file]
    simp
    omega
  rw [fatTruncateVn, bind_ok (getNode_run s), if_neg htest, if_pos hlt, bind_ok hshrink,
    bind_ok (modifyNode_run _ _)]
  exact ⟨_, fatUpdateDirent_run h.slot h.hasDirent h.sector h.offset⟩

theorem truncate_noSpace_atomic_iff (hwf : sb.WellFormed s.disk) (hat : sb.Attached s a l)
    {newSize : Nat} (hrun : fatTruncateVn sb newSize s = (.error .noSpaceLeft, t)) :
    sb.Atomic s.disk t.disk ↔ sb.Full s.disk := by
  have hw : newSize < s.node.size → newSize + sb.clusterSize - 1 < 2 ^ 32 := by
    intro hlt
    by_contra hw
    obtain ⟨u, hu⟩ := fatTruncateVn_wrap hat.file hlt (by omega)
    rw [hrun] at hu
    cases hu
  obtain ⟨r, u, l', hrun', heff, hr⟩ := hat.truncate hwf newSize hw
  rw [hrun] at hrun'
  cases hrun'
  obtain ⟨hstale, -, hns⟩ := hr
  obtain ⟨hfull, hsame⟩ := hns rfl
  constructor
  · intro hatomic
    exact hatomic.full hfull
  · intro hf
    rw [hsame (heff.step.eq_of_full hstale.pre hf)]
    exact .refl sb s.disk

theorem fatWriteVn_big (sb : FatSuper) (buf : Bytes) {off len : Nat}
    (hfile : s.node.isDir = false) (hbig : 0xFFFFFFFF < off + len) : (fatWriteVn sb buf off len s).2.disk = s.disk := by
  rw [fatWriteVn, bind_ok (getNode_run s), if_neg (by rw [hfile]; decide), bind_ok (modify_run _ s)]
  by_cases hlen : len = 0
  · rw [if_pos hlen]
    rfl
  · rw [if_neg hlen, if_pos (by omega)]
    rfl

theorem write_noSpace_atomic_iff (hwf : sb.WellFormed s.disk) (hat : sb.Attached s a l)
    {buf : Bytes} {off len : Nat} (hrun : fatWriteVn sb buf off len s = (.error .noSpaceLeft, t)) :
    sb.Atomic s.disk t.disk ↔ 0xFFFFFFFF < off + len ∨ sb.Full s.disk := by
  obtain ⟨r, u, l', hrun', heff, -, hr⟩ := hat.write hwf buf off len
  rw [hrun] at hrun'
  cases hrun'
  obtain ⟨-, -, hns⟩ := hr
  obtain ⟨hstale, hcase⟩ := hns rfl
  constructor
  · intro hatomic
    rcases hcase with ⟨hbig, -⟩ | ⟨hfull, -⟩
    · exact .inl hbig
    · exact .inr (hatomic.full hfull)
  · intro hcond
    have hdisk : t.disk = s.disk := by
      rcases hcond with hbig | hf
      · have hbefore := fatWriteVn_big sb buf hat.file.file hbig
        rwa [hrun] at hbefore
      · rcases hcase with ⟨-, hsame⟩ | ⟨-, hsame⟩
        · exact hsame
        · exact hsame (heff.step.eq_of_full hstale.pre hf)
    rw [hdisk]
    exact .refl sb s.disk

theorem create_noSpace_atomic_iff (hwf : sb.WellFormed s.disk) (hcur : sb.Current s.disk dir)
    (hrun : fatCreateVn sb dir name type s = (.error .noSpaceLeft, t)) :
    sb.Atomic s.disk t.disk ↔ dir.firstCluster = 0 ∨ sb.Full s.disk := by
  have hdir : ¬ dir.isDir = false := by
    intro hdir
    rw [fatCreateVn, if_pos (.inl hdir)] at hrun
    cases hrun
  rcases hcur.liveDir hwf (by simpa using hdir) with ⟨o, slots, hd, hs⟩ | ⟨ht, hc⟩
  · obtain ⟨r, u, hrun', -, hr⟩ := fatCreateVn_spec name type hs
    rw [hrun] at hrun'
    cases hrun'
    rcases hr with ⟨hsame, hwhy⟩ | ⟨d₁, b, htk, ⟨rfl, hfull⟩ | ⟨-, hoom⟩⟩
    · rw [hsame]
      exact ⟨fun _ => hwhy rfl, fun _ => .refl sb s.disk⟩
    · constructor
      · intro hatomic
        exact .inr (hatomic.full (hfull rfl))
      · intro hcond
        generalize t.disk = d₁ at htk
        cases htk with
        | found hf => exact .refl sb s.disk
        | @appended l x _ hc hl hf hg hch =>
          -- the cluster appended was free, and the fixed root is never extended
          exfalso
          have hx : sb.Free s.disk x := by
            apply hg.fresh x (by simp)
            intro hxl
            exact (List.nodup_append.mp hch.nodup).2.2 x hxl x (by simp) rfl
          rcases hcond with h0 | hf
          · exact hc h0
          · exact hf x hx
    · cases hoom
  · obtain ⟨e, mem, hlook, hnf, hns⟩ := fatLookupVn_empty (s := s) name ht hc hdir
    obtain ⟨e', ⟨hcr, hne⟩ | hcr⟩ := fatCreateVn_of_lookup type hlook hnf
    · rw [hrun] at hcr
      cases hcr
      exact absurd rfl hne
    · rw [hrun] at hcr
      cases hcr
      exact absurd rfl hns

/-- When a call that ran out of space is atomic. -/
theorem noSpaceLeft_atomic_iff (hwf : sb.WellFormed s.disk) :
    (∀ a l buf off len t, sb.Attached s a l →
      fatWriteVn sb buf off len s = (.error .noSpaceLeft, t) →
      (sb.Atomic s.disk t.disk ↔ 0xFFFFFFFF < off + len ∨ sb.Full s.disk)) ∧
    (∀ a l newSize t, sb.Attached s a l →
      fatTruncateVn sb newSize s = (.error .noSpaceLeft, t) →
      (sb.Atomic s.disk t.disk ↔ sb.Full s.disk)) ∧
    ∀ dir name type t, sb.Current s.disk dir →
      fatCreateVn sb dir name type s = (.error .noSpaceLeft, t) →
      (sb.Atomic s.disk t.disk ↔ dir.firstCluster = 0 ∨ sb.Full s.disk) := by
  refine ⟨?_, ?_, ?_⟩
  · intro a l buf off len t hat hrun
    exact write_noSpace_atomic_iff hwf hat hrun
  · intro a l newSize t hat hrun
    exact truncate_noSpace_atomic_iff hwf hat hrun
  · intro dir name type t hcur hrun
    exact create_noSpace_atomic_iff hwf hcur hrun

end FatSuper

theorem emptyA_write_past_limit :
    ∃ t, fatWriteVn smallSuper (fun _ => 0) 0xFFFFFFFF 1 emptyA = (.error .noSpaceLeft, t) ∧
      smallSuper.Atomic emptyA.disk t.disk := by
  obtain ⟨hwf, hat, -⟩ := emptyA_attached
  have hrun : fatWriteVn smallSuper (fun _ => 0) 0xFFFFFFFF 1 emptyA =
      (.error .noSpaceLeft, { emptyA with out := 0 }) := by rfl
  exact ⟨_, hrun, ((FatSuper.noSpaceLeft_atomic_iff hwf).1 _ _ _ _ _ _ hat hrun).mpr
    (.inl (by decide))⟩

/-- Nine clusters are free and the new size needs ten: all nine stay allocated. -/
theorem emptyA_truncate_not_atomic : smallSuper.WellFormed emptyA.disk ∧
    smallSuper.Attached emptyA 1536 [] ∧
    ∃ t, fatTruncateVn smallSuper 5000 emptyA = (.error .noSpaceLeft, t) ∧
      ¬ smallSuper.Atomic emptyA.disk t.disk := by
  obtain ⟨hwf, hat, -⟩ := emptyA_attached
  have herr : (fatTruncateVn smallSuper 5000 emptyA).1 = .error .noSpaceLeft := by decide +kernel
  rcases hrun : fatTruncateVn smallSuper 5000 emptyA with ⟨r, t⟩
  rw [hrun] at herr
  obtain rfl : r = .error .noSpaceLeft := herr
  refine ⟨hwf, hat, t, rfl, fun hatomic => ?_⟩
  have hfull := (FatSuper.truncate_noSpace_atomic_iff hwf hat hrun).mp hatomic
  exact hfull 2 ⟨by decide, by rfl⟩

end CfKernel.Fat
