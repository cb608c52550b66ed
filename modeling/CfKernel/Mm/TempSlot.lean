import CfKernel.Mm.MapPage

/-!
# Work on a frame through the temporary slot

Where the kernel's directory, the one in use and the one worked for have a table for the slot,
mapping a frame there writes the slot's entry in those tables and nothing else. A copy to the slot
then goes to the frame.
-/

namespace CfKernel.Mm

open Lib Lib.Eff

/-- The table that a directory has for the slot. -/
def slotTable (mem : Bytes) (d : Nat) : Nat := tableOf (pageWord mem d (dirIndex tempMapVaddr))

/-- The address of the slot's entry in that table. -/
def slotAddr (mem : Bytes) (d : Nat) : Nat := slotTable mem d + 4 * tabIndex tempMapVaddr

def slotDirs (s : Machine) (pd : Nat) : List Nat := [s.kernelPd, s.activePd, pd]

structure SlotReady (s : Machine) (pd : Nat) : Prop where
  nonNull : ∀ d ∈ slotDirs s pd, d ≠ 0
  aligned : ∀ d ∈ slotDirs s pd, d % 4096 = 0
  reach : ∀ d ∈ slotDirs s pd, d + 4096 ≤ s.direct
  present : ∀ d ∈ slotDirs s pd, pageWord s.mem d (dirIndex tempMapVaddr) &&& pagePresent ≠ 0
  tableReach : ∀ d ∈ slotDirs s pd, slotTable s.mem d + 4096 ≤ s.direct
  apart : ∀ d ∈ slotDirs s pd, ∀ d' ∈ slotDirs s pd, slotTable s.mem d ≠ d'

/-- An address outside the entries of the slot. -/
def OffSlot (s : Machine) (pd a : Nat) : Prop :=
  ∀ d ∈ slotDirs s pd, a < slotAddr s.mem d ∨ slotAddr s.mem d + 4 ≤ a

variable {s t : Machine} {m : Bytes} {pd d phys flags v p k offset length : Nat}

theorem slotTable_aligned (mem : Bytes) (d : Nat) : slotTable mem d % 4096 = 0 :=
  tableOf_aligned (pageWord_lt mem d _)

theorem offSlot_word (hp : p % 4096 = 0) (hk : k < 1024)
    (hne : ∀ d ∈ slotDirs s pd, ¬ (p = slotTable s.mem d ∧ k = tabIndex tempMapVaddr)) {i : Nat}
    (hi : i < 4) : OffSlot s pd (p + 4 * k + i) := by
  intro d hd
  have hal := slotTable_aligned s.mem d
  have hlt := tabIndex_lt tempMapVaddr
  have hned := hne d hd
  rw [slotAddr]
  omega

theorem pageWord_of_offSlot (hm : ∀ a, OffSlot s pd a → m a = s.mem a) (hp : p % 4096 = 0)
    (hk : k < 1024)
    (hne : ∀ d ∈ slotDirs s pd, ¬ (p = slotTable s.mem d ∧ k = tabIndex tempMapVaddr)) :
    pageWord m p k = pageWord s.mem p k :=
  le32_congr fun _ hi => hm _ (offSlot_word hp hk hne hi)

theorem slotTable_congr
    (h : pageWord m d (dirIndex tempMapVaddr) = pageWord s.mem d (dirIndex tempMapVaddr)) :
    slotTable m d = slotTable s.mem d := by
  rw [slotTable, h, slotTable]

section

variable (h : SlotReady s pd)
include h

/-- The slot is ready as long as the directories have the same entries for its table. -/
theorem SlotReady.congr (hm : ∀ d ∈ slotDirs s pd,
    pageWord m d (dirIndex tempMapVaddr) = pageWord s.mem d (dirIndex tempMapVaddr)) :
    SlotReady { s with mem := m } pd where
  nonNull := h.nonNull
  aligned := h.aligned
  reach := h.reach
  present d hd := by
    rw [hm d hd]
    exact h.present d hd
  tableReach d hd := by
    rw [slotTable_congr (hm d hd)]
    exact h.tableReach d hd
  apart d hd d' hd' := by
    rw [slotTable_congr (hm d hd)]
    exact h.apart d hd d' hd'

theorem SlotReady.word_eq (hm : ∀ a, OffSlot s pd a → m a = s.mem a)
    (hd : d ∈ slotDirs s pd) (hk : k < 1024) : pageWord m d k = pageWord s.mem d k :=
  pageWord_of_offSlot hm (h.aligned d hd) hk fun d' hd' hc => h.apart d' hd' d hd hc.1.symm

theorem SlotReady.slotTable_eq (hm : ∀ a, OffSlot s pd a → m a = s.mem a)
    (hd : d ∈ slotDirs s pd) : slotTable m d = slotTable s.mem d :=
  slotTable_congr (h.word_eq hm hd (dirIndex_lt _))

theorem SlotReady.of_offSlot (hm : ∀ a, OffSlot s pd a → m a = s.mem a) :
    SlotReady { s with mem := m } pd :=
  h.congr fun _ hd => h.word_eq hm hd (dirIndex_lt _)

theorem SlotReady.map_run (hd : d ∈ slotDirs s pd) (hphys : phys &&& 4095 = 0)
    (hflags : flags &&& pageUser = 0) :
    pagingMapPage d tempMapVaddr phys flags s =
      (.ok true, { s with mem := putLe32 s.mem (slotAddr s.mem d) (newPte phys flags) }) := by
  have hreach := h.reach d hd
  have hidx := dirIndex_lt tempMapVaddr
  have htab := tabIndex_lt tempMapVaddr
  have hslot : pdSlot d tempMapVaddr + 4 ≤ s.direct := by
    change d + 4 * dirIndex tempMapVaddr + 4 ≤ s.direct
    omega
  have hentry : slotAddr s.mem d + 4 ≤ s.direct := by
    have := h.tableReach d hd
    rw [slotAddr]
    omega
  have htable : tableFor d tempMapVaddr flags s = (.ok (some (slotTable s.mem d)), s) := by
    have hpresent : le32 s.mem (pdSlot d tempMapVaddr) &&& pagePresent ≠ 0 := h.present d hd
    rw [tableFor, bind_ok (read32_run hslot), if_neg hpresent, oldTable, markUser,
      if_neg (not_not.mpr hflags)]
    rfl
  rw [pagingMapPage, if_neg]
  · rw [bind_ok htable]
    exact bind_ok (write32_run hentry)
  · rintro (hnull | hvirt | hp)
    · exact h.nonNull d hd hnull
    · exact hvirt (by decide)
    · exact hp hphys

theorem SlotReady.mapSlotIf_run (hm : ∀ a, OffSlot s pd a → m a = s.mem a)
    (takesPart : Bool) (hd : d ∈ slotDirs s pd) (hphys : phys &&& 4095 = 0)
    (hflags : flags &&& pageUser = 0) :
    ∃ m', mapSlotIf takesPart d phys flags { s with mem := m } = (.ok true, { s with mem := m' }) ∧
      (∀ a, OffSlot s pd a → m' a = s.mem a) ∧
      (takesPart = true → le32 m' (slotAddr s.mem d) = newPte phys flags) ∧
      ∀ d' ∈ slotDirs s pd, le32 m (slotAddr s.mem d') = newPte phys flags →
        le32 m' (slotAddr s.mem d') = newPte phys flags := by
  cases takesPart with
  | false => exact ⟨m, rfl, hm, fun hc => absurd hc (by decide), fun d' _ hv => hv⟩
  | true =>
    have haddr : ∀ d ∈ slotDirs s pd, slotAddr m d = slotAddr s.mem d := fun d hd => by
      rw [slotAddr, h.slotTable_eq hm hd, slotAddr]
    have hlt := newPte_lt phys flags
    have hhere : le32 (putLe32 m (slotAddr s.mem d) (newPte phys flags)) (slotAddr s.mem d) =
        newPte phys flags := by
      rw [le32_putLe32, Nat.mod_eq_of_lt hlt]
    refine ⟨putLe32 m (slotAddr s.mem d) (newPte phys flags), ?_, fun a ha => ?_, fun _ => hhere,
      fun d' hd' hv => ?_⟩
    · rw [← haddr d hd]
      exact (h.of_offSlot hm).map_run hd hphys hflags
    · rw [putLe32_outside (ha d hd), hm a ha]
    · by_cases hsame : slotAddr s.mem d' = slotAddr s.mem d
      · rw [hsame]
        exact hhere
      · -- entries of the slot are words of pages, so different ones do not overlap
        rw [← hv]
        refine le32_congr fun i hi => putLe32_outside ?_
        have h1 := slotTable_aligned s.mem d
        have h2 := slotTable_aligned s.mem d'
        rw [slotAddr, slotAddr] at hsame ⊢
        omega

end

theorem mem_slotDirs_kernel : s.kernelPd ∈ slotDirs s pd := by simp [slotDirs]

theorem mem_slotDirs_active : s.activePd ∈ slotDirs s pd := by simp [slotDirs]

theorem mem_slotDirs_self : pd ∈ slotDirs s pd := by simp [slotDirs]

theorem SlotReady.tempMap_run (h : SlotReady s pd) (hphys : phys &&& 4095 = 0) :
    ∃ m, pagingTempMapFrame pd phys s = (.ok tempMapVaddr, { s with mem := m }) ∧
      (∀ a, OffSlot s pd a → m a = s.mem a) ∧
      le32 m (slotAddr s.mem s.activePd) = newPte phys (pagePresent ||| pageRw) := by
  have hflags : (pagePresent ||| pageRw) &&& pageUser = 0 := by decide
  obtain ⟨m₁, hrun₁, hm₁, hset₁, -⟩ := h.mapSlotIf_run (fun a _ => rfl) true
    (mem_slotDirs_kernel) hphys hflags
  obtain ⟨m₂, hrun₂, hm₂, hset₂, hkeep₂⟩ := h.mapSlotIf_run hm₁
    (s.activePd ≠ s.kernelPd ∧ s.activePd ≠ pd) (mem_slotDirs_active) hphys hflags
  obtain ⟨m₃, hrun₃, hm₃, hset₃, hkeep₃⟩ := h.mapSlotIf_run hm₂
    (pd ≠ 0 ∧ pd ≠ s.kernelPd) (mem_slotDirs_self) hphys hflags
  refine ⟨m₃, ?_, hm₃, ?_⟩
  · have hk : getKernelPd s = (.ok s.kernelPd, s) := rfl
    have ha : getActivePd s = (.ok s.activePd, s) := rfl
    rw [pagingTempMapFrame, bind_ok hk, bind_ok ha, bind_ok hrun₁, if_pos rfl, mapSlotActive,
      bind_ok hrun₂, if_pos rfl, mapSlotHere, bind_ok hrun₃]
    rfl
  · by_cases hkernel : s.activePd = s.kernelPd
    · rw [hkernel]
      exact hkeep₃ _ mem_slotDirs_kernel (hkeep₂ _ mem_slotDirs_kernel (hset₁ rfl))
    · by_cases hself : s.activePd = pd
      · rw [hself] at hkernel ⊢
        exact hset₃ (decide_eq_true ⟨h.nonNull pd mem_slotDirs_self, hkernel⟩)
      · exact hkeep₃ _ mem_slotDirs_active (hset₂ (decide_eq_true ⟨hkernel, hself⟩))

theorem SlotReady.unmapSlotIf_run (h : SlotReady s pd) (hm : ∀ a, OffSlot s pd a → m a = s.mem a)
    (takesPart : Bool) (hd : d ∈ slotDirs s pd) :
    ∃ m', unmapSlotIf takesPart d { s with mem := m } = (.ok (), { s with mem := m' }) ∧
      ∀ a, OffSlot s pd a → m' a = s.mem a := by
  obtain ⟨m', hrun, hm', -⟩ := h.mapSlotIf_run hm takesPart hd
    (show 0 &&& 4095 = 0 from rfl) (show 0 &&& pageUser = 0 from rfl)
  exact ⟨m', by rw [unmapSlotIf, bind_ok hrun]; rfl, hm'⟩

theorem SlotReady.tempUnmap_run (h : SlotReady s pd) :
    ∃ m, pagingTempUnmapFrame pd s = (.ok (), { s with mem := m }) ∧
      ∀ a, OffSlot s pd a → m a = s.mem a := by
  obtain ⟨m₁, hrun₁, hm₁⟩ := h.unmapSlotIf_run (fun a _ => rfl) true mem_slotDirs_kernel
  obtain ⟨m₂, hrun₂, hm₂⟩ := h.unmapSlotIf_run hm₁ (s.activePd ≠ s.kernelPd ∧ s.activePd ≠ pd)
    mem_slotDirs_active
  obtain ⟨m₃, hrun₃, hm₃⟩ := h.unmapSlotIf_run hm₂ (pd ≠ 0 ∧ pd ≠ s.kernelPd) mem_slotDirs_self
  have hk : getKernelPd s = (.ok s.kernelPd, s) := rfl
  have ha : getActivePd s = (.ok s.activePd, s) := rfl
  refine ⟨m₃, ?_, hm₃⟩
  rw [pagingTempUnmapFrame, bind_ok hk, bind_ok ha, bind_ok hrun₁, bind_ok hrun₂]
  exact hrun₃

theorem newPte_frame (hphys : phys % 4096 = 0) (hlt : phys < 2 ^ 32) :
    tableOf (newPte phys (pagePresent ||| pageRw)) = phys := by
  rw [newPte, tableOf_or _ (by decide)]
  change tableOf (tableOf phys) = phys
  rw [tableOf_eq hlt, tableOf_eq (by omega)]
  omega

theorem SlotReady.slotWrite_run (h : SlotReady s pd) (hm : ∀ a, OffSlot s pd a → m a = s.mem a)
    (hphys : phys % 4096 = 0) (hlt : phys < 2 ^ 32)
    (hset : le32 m (slotAddr s.mem s.activePd) = newPte phys (pagePresent ||| pageRw))
    (offset length : Nat) (src : Bytes) : slotWrite offset length src { s with mem := m } =
      (.ok (), { s with mem := splice m (phys + offset) length src }) := by
  have hready := h.of_offSlot hm
  have hpte : pteAt m s.activePd tempMapVaddr = newPte phys (pagePresent ||| pageRw) := by
    change le32 m (slotAddr m s.activePd) = _
    rw [slotAddr, h.slotTable_eq hm mem_slotDirs_active]
    exact hset
  have hpresent : newPte phys (pagePresent ||| pageRw) &&& pagePresent ≠ 0 := by
    rw [newPte, Nat.and_or_distrib_right]
    exact fun h0 => absurd (Nat.or_eq_zero_iff.mp h0).2 (by decide)
  have hframe : slotFrame { s with mem := m } = some phys := by
    rw [slotFrame, if_pos ⟨hready.present _ mem_slotDirs_active, by rw [hpte]; exact hpresent⟩]
    change some (tableOf (pteAt m s.activePd tempMapVaddr) + tempMapVaddr % 4096) = some phys
    rw [hpte, newPte_frame hphys hlt]
    rfl
  rw [slotWrite, hframe]

theorem SlotReady.copy_run (h : SlotReady s pd) (hphys : phys % 4096 = 0) (hlt : phys < 2 ^ 32)
    (hfit : offset + length ≤ 4096) (hdirs : ∀ d ∈ slotDirs s pd, phys ≠ d) (src : Bytes) :
    ∃ m₁ m₂ m₃, pagingTempMapFrame pd phys s = (.ok tempMapVaddr, { s with mem := m₁ }) ∧
      slotWrite offset length src { s with mem := m₁ } = (.ok (), { s with mem := m₂ }) ∧
      pagingTempUnmapFrame pd { s with mem := m₂ } = (.ok (), { s with mem := m₃ }) ∧
      ∀ a, OffSlot s pd a → m₃ a = splice s.mem (phys + offset) length src a := by
  have hmask : phys &&& 4095 = 0 := by
    rw [show 4095 = 2 ^ 12 - 1 from rfl, Nat.and_two_pow_sub_one_eq_mod]
    exact hphys
  obtain ⟨m₁, hmap, hm₁, hset⟩ := h.tempMap_run hmask
  have hwrite := h.slotWrite_run hm₁ hphys hlt hset offset length src
  -- the frame is none of the directories, so the slot is still in place
  have hword : ∀ d ∈ slotDirs s pd,
      pageWord (splice m₁ (phys + offset) length src) d (dirIndex tempMapVaddr) =
        pageWord s.mem d (dirIndex tempMapVaddr) := by
    intro d hd
    have hal := h.aligned d hd
    have hne := hdirs d hd
    have hidx := dirIndex_lt tempMapVaddr
    have hkeep : pageWord (splice m₁ (phys + offset) length src) d (dirIndex tempMapVaddr) =
        pageWord m₁ d (dirIndex tempMapVaddr) :=
      le32_congr fun i hi => splice_outside (by omega)
    rw [hkeep]
    exact h.word_eq hm₁ hd hidx
  have hready := h.congr hword
  obtain ⟨m₃, hunmap, hm₃⟩ := hready.tempUnmap_run
  refine ⟨m₁, _, m₃, hmap, hwrite, hunmap, fun a ha => ?_⟩
  have hoff : OffSlot { s with mem := splice m₁ (phys + offset) length src } pd a := by
    intro d hd
    rw [slotAddr, slotTable_congr (hword d hd)]
    exact ha d hd
  rw [hm₃ a hoff]
  change splice m₁ (phys + offset) length src a = splice s.mem (phys + offset) length src a
  rw [splice, splice, hm₁ a ha]

end CfKernel.Mm
