import CfKernel.Lib.Pages
import CfKernel.Mm.Paging

/-!
# Mapping a page

`paging_map_page` on a directory whose tables are frames of its own: the entry of the page is the
frame with the permitted flags, every other page keeps its entry, and no other page becomes
accessible to user code, because the user bit of a directory entry is set only over tables without
user pages or already carried one. A sequence of mappings is the finite map of the last mapping of
each page. A new address space translates as the kernel's.
-/

namespace CfKernel.Mm

open Lib Lib.Eff

def dirIndex (va : Nat) : Nat := va >>> 22 &&& 0x3FF

def tabIndex (va : Nat) : Nat := va >>> 12 &&& 0x3FF

def tableOf (entry : Nat) : Nat := entry &&& (2 ^ 32 - 4096)

/-- The table entry that a walk for `va` ends with, zero without a table. -/
def walk (mem : Bytes) (pd va : Nat) : Nat :=
  if pdeAt mem pd va &&& pagePresent = 0 then 0 else pteAt mem pd va

def Pmm.Free (p : Pmm) (f : Nat) : Prop := f < p.totalFramesCount ∧ p.isUsed f = false

/-- A directory whose tables are frames of their own, none of which the allocator hands out, with
user pages only under user entries. -/
structure Directory (s : Machine) (pd : Nat) : Prop where
  aligned : pd % 4096 = 0
  taken : ¬ s.pmm.Free (pd / 4096)
  apart : ∀ i < 1024, pageWord s.mem pd i &&& pagePresent ≠ 0 → tableOf (pageWord s.mem pd i) ≠ pd
  tableTaken : ∀ i < 1024, pageWord s.mem pd i &&& pagePresent ≠ 0 →
    ¬ s.pmm.Free (tableOf (pageWord s.mem pd i) / 4096)
  distinct : ∀ i < 1024, ∀ i' < 1024, pageWord s.mem pd i &&& pagePresent ≠ 0 →
    pageWord s.mem pd i' &&& pagePresent ≠ 0 →
    tableOf (pageWord s.mem pd i) = tableOf (pageWord s.mem pd i') → i = i'
  user : ∀ i < 1024, ∀ j < 1024, pageWord s.mem pd i &&& pagePresent ≠ 0 →
    UserEntry false (pageWord s.mem (tableOf (pageWord s.mem pd i)) j) →
    pageWord s.mem pd i &&& pageUser ≠ 0

/-! ## Entries -/

variable {s t : Machine} {mem : Bytes} {pd virt phys flags va e f i j : Nat}

theorem dirIndex_lt (va : Nat) : dirIndex va < 1024 := Nat.and_lt_two_pow (n := 10) _ (by decide)

theorem tabIndex_lt (va : Nat) : tabIndex va < 1024 := Nat.and_lt_two_pow (n := 10) _ (by decide)

theorem page_eq {va' : Nat} (h : va < 2 ^ 32) (h' : va' < 2 ^ 32) (ha : va % 4096 = 0)
    (ha' : va' % 4096 = 0) (hd : dirIndex va = dirIndex va') (ht : tabIndex va = tabIndex va') :
    va = va' := by
  have hmask : ∀ x, x &&& 0x3FF = x % 2 ^ 10 := fun x => Nat.and_two_pow_sub_one_eq_mod x 10
  rw [dirIndex, dirIndex, hmask, hmask, Nat.shiftRight_eq_div_pow, Nat.shiftRight_eq_div_pow] at hd
  rw [tabIndex, tabIndex, hmask, hmask, Nat.shiftRight_eq_div_pow, Nat.shiftRight_eq_div_pow] at ht
  omega

theorem tableOf_eq (h : e < 2 ^ 32) : tableOf e = e / 4096 * 4096 :=
  and_highMask (k := 12) (m := 20) h

theorem tableOf_aligned (h : e < 2 ^ 32) : tableOf e % 4096 = 0 := by
  rw [tableOf_eq h]
  exact Nat.mul_mod_left _ _

theorem tableOf_or (e : Nat) (h : f < 4096) : tableOf (e ||| f) = tableOf e := by
  have hlow : f &&& (2 ^ 32 - 4096) = 0 := by
    have hmask : f &&& (2 ^ 32 - 4096) = f / 4096 * 4096 := tableOf_eq (by omega)
    rw [hmask, Nat.div_eq_of_lt h, Nat.zero_mul]
  rw [tableOf, Nat.and_or_distrib_right, hlow, Nat.or_zero, tableOf]

theorem tableOf_frame (h : f * 4096 < 2 ^ 32) : tableOf (f * 4096) = f * 4096 := by
  rw [tableOf_eq h, Nat.mul_div_cancel f (by decide)]

theorem newPde_lt (h : f * 4096 < 2 ^ 32) : newPde (f * 4096) flags < 2 ^ 32 := by
  refine Nat.or_lt_two_pow h ?_
  split_ifs <;> decide

theorem tableOf_newPde (h : f * 4096 < 2 ^ 32) : tableOf (newPde (f * 4096) flags) = f * 4096 := by
  rw [newPde, tableOf_or _ (by split_ifs <;> decide), tableOf_frame h]

theorem newPde_present (p flags : Nat) : newPde p flags &&& pagePresent ≠ 0 := by
  rw [newPde, Nat.and_or_distrib_right]
  intro h0
  have hflag := (Nat.or_eq_zero_iff.mp h0).2
  split_ifs at hflag <;> exact absurd hflag (by decide)

theorem newPde_user (p : Nat) (h : flags &&& pageUser ≠ 0) : newPde p flags &&& pageUser ≠ 0 := by
  rw [newPde, if_pos h, Nat.and_or_distrib_right]
  exact fun h0 => absurd (Nat.or_eq_zero_iff.mp h0).2 (by decide)

theorem newPte_lt (phys flags : Nat) : newPte phys flags < 2 ^ 32 := by
  refine Nat.or_lt_two_pow (Nat.and_lt_two_pow _ (by decide)) ?_
  exact (Nat.and_lt_two_pow (n := 5) _ (by decide)).trans (by decide)

theorem user_of_newPte (h : UserEntry false (newPte phys flags)) : flags &&& pageUser ≠ 0 := by
  have hframe : (phys &&& (2 ^ 32 - 4096)) &&& pageUser = 0 := by
    rw [Nat.and_assoc, show (2 ^ 32 - 4096) &&& pageUser = 0 from rfl, Nat.and_zero]
  have huser := h.2.1
  rw [newPte, Nat.and_or_distrib_right, hframe, Nat.zero_or, Nat.and_assoc,
    show 0x1F &&& pageUser = pageUser from rfl] at huser
  exact huser

theorem or_user_and {bit : Nat} (e : Nat) (h : pageUser &&& bit = 0) :
    (e ||| pageUser) &&& bit = e &&& bit := by
  rw [Nat.and_or_distrib_right, h, Nat.or_zero]

theorem or_user_user (e : Nat) : (e ||| pageUser) &&& pageUser ≠ 0 := by
  rw [Nat.and_or_distrib_right]
  exact fun h0 => absurd (Nat.or_eq_zero_iff.mp h0).2 (by decide)

theorem not_userEntry_zero (write : Bool) : ¬ UserEntry write 0 := by
  intro h
  exact h.1 rfl

/-! ## One call -/

structure MapStep (s t : Machine) (pd virt phys flags : Nat) : Prop where
  other : ∀ i < 1024, i ≠ dirIndex virt → pageWord t.mem pd i = pageWord s.mem pd i
  otherTable : ∀ i < 1024, i ≠ dirIndex virt → pageWord s.mem pd i &&& pagePresent ≠ 0 →
    ∀ j < 1024, pageWord t.mem (tableOf (pageWord s.mem pd i)) j =
      pageWord s.mem (tableOf (pageWord s.mem pd i)) j
  entry : ∀ j < 1024, pageWord t.mem (tableOf (pageWord t.mem pd (dirIndex virt))) j =
    if j = tabIndex virt then newPte phys flags
    else if pageWord s.mem pd (dirIndex virt) &&& pagePresent = 0 then 0
    else pageWord s.mem (tableOf (pageWord s.mem pd (dirIndex virt))) j
  present : pageWord t.mem pd (dirIndex virt) &&& pagePresent ≠ 0
  user : flags &&& pageUser ≠ 0 → pageWord t.mem pd (dirIndex virt) &&& pageUser ≠ 0
  kept : pageWord s.mem pd (dirIndex virt) &&& pagePresent ≠ 0 →
    pageWord t.mem pd (dirIndex virt) = pageWord s.mem pd (dirIndex virt) ∨
      pageWord t.mem pd (dirIndex virt) = pageWord s.mem pd (dirIndex virt) ||| pageUser
  fresh : pageWord s.mem pd (dirIndex virt) &&& pagePresent = 0 →
    s.pmm.Free (tableOf (pageWord t.mem pd (dirIndex virt)) / 4096)
  frames : ∀ f, t.pmm.Free f → s.pmm.Free f ∧
    (pageWord s.mem pd (dirIndex virt) &&& pagePresent = 0 →
      f ≠ tableOf (pageWord t.mem pd (dirIndex virt)) / 4096)

theorem Directory.mapOld (h : Directory s pd) {m : Bytes}
    (hpresent : pageWord s.mem pd (dirIndex virt) &&& pagePresent ≠ 0)
    (hm : m = if flags &&& pageUser ≠ 0 then
      putLe32 s.mem (pd + 4 * dirIndex virt) (pageWord s.mem pd (dirIndex virt) ||| pageUser)
      else s.mem) :
    MapStep s { s with
      mem := putLe32 m (tableOf (pageWord s.mem pd (dirIndex virt)) + 4 * tabIndex virt)
        (newPte phys flags) } pd virt phys flags := by
  have hd := dirIndex_lt virt
  have ht := tabIndex_lt virt
  have hal := h.aligned
  have hlt := pageWord_lt s.mem pd (dirIndex virt)
  have htab := tableOf_aligned hlt
  have hapart := h.apart _ hd hpresent
  have huserLt : pageWord s.mem pd (dirIndex virt) ||| pageUser < 2 ^ 32 :=
    Nat.or_lt_two_pow hlt (by decide)
  -- the directory after the call
  have hdir : ∀ i < 1024, pageWord m pd i = if i = dirIndex virt ∧ flags &&& pageUser ≠ 0 then
      pageWord s.mem pd (dirIndex virt) ||| pageUser else pageWord s.mem pd i := by
    intro i hi
    by_cases hu : flags &&& pageUser ≠ 0
    · simp [hm, hu, pageWord_put huserLt]
    · simp [hm, hu]
  have hpage : ∀ p, p % 4096 = 0 → p ≠ pd → ∀ j < 1024, pageWord m p j = pageWord s.mem p j := by
    intro p hpa hne j hj
    rw [hm]
    split_ifs
    · exact pageWord_put_of_ne hal hpa hd hj hne
    · rfl
  have hfinal : ∀ i < 1024, pageWord (putLe32 m
      (tableOf (pageWord s.mem pd (dirIndex virt)) + 4 * tabIndex virt) (newPte phys flags)) pd i =
      pageWord m pd i := fun i hi =>
    pageWord_put_of_ne htab hal ht hi hapart.symm
  have hhere := hdir _ hd
  have htable : tableOf (pageWord m pd (dirIndex virt)) =
      tableOf (pageWord s.mem pd (dirIndex virt)) := by
    rw [hhere]
    split_ifs
    · exact tableOf_or _ (by decide)
    · rfl
  refine ⟨fun i hi hne => ?_, fun i hi hne hpi j hj => ?_, fun j hj => ?_, ?_, fun hu => ?_,
    fun _ => ?_, fun hno => absurd hno hpresent, fun f hf => ⟨hf, fun hno => absurd hno hpresent⟩⟩
  · rw [hfinal i hi, hdir i hi, if_neg fun hc => hne hc.1]
  · have hti := tableOf_aligned (pageWord_lt s.mem pd i)
    rw [pageWord_put_of_ne htab hti ht hj fun hc => hne (h.distinct i hi _ hd hpi hpresent hc),
      hpage _ hti (h.apart i hi hpi) j hj]
  · rw [hfinal _ hd, htable, if_neg hpresent, pageWord_put (newPte_lt phys flags),
      hpage _ htab hapart j hj]
  · rw [hfinal _ hd, hhere]
    split_ifs
    · rw [or_user_and _ (by decide)]
      exact hpresent
    · exact hpresent
  · rw [hfinal _ hd, hhere, if_pos ⟨rfl, hu⟩]
    exact or_user_user _
  · rw [hfinal _ hd, hhere]
    split_ifs
    · exact .inr rfl
    · exact .inl rfl

theorem Directory.mapNew (h : Directory s pd)
    (habsent : pageWord s.mem pd (dirIndex virt) &&& pagePresent = 0) (hfree : s.pmm.Free f)
    (hpage : f * 4096 < 2 ^ 32) :
    MapStep s { s with
      pmm := s.pmm.takeFrame (f * 4096)
      mem := putLe32 (putLe32 (splice s.mem (f * 4096) 4096 fun _ => 0) (pd + 4 * dirIndex virt)
        (newPde (f * 4096) flags)) (f * 4096 + 4 * tabIndex virt) (newPte phys flags) }
      pd virt phys flags := by
  have hd := dirIndex_lt virt
  have ht := tabIndex_lt virt
  have hal := h.aligned
  have hfa : f * 4096 % 4096 = 0 := Nat.mul_mod_left _ _
  have hne : f * 4096 ≠ pd := by
    rintro rfl
    have htaken := h.taken
    rw [Nat.mul_div_cancel f (by decide)] at htaken
    exact htaken hfree
  have hdir : ∀ i < 1024, pageWord (putLe32 (putLe32 (splice s.mem (f * 4096) 4096 fun _ => 0)
      (pd + 4 * dirIndex virt) (newPde (f * 4096) flags)) (f * 4096 + 4 * tabIndex virt)
      (newPte phys flags)) pd i =
      if i = dirIndex virt then newPde (f * 4096) flags else pageWord s.mem pd i := by
    intro i hi
    rw [pageWord_put_of_ne hfa hal ht hi hne.symm, pageWord_put (newPde_lt hpage),
      pageWord_clear_of_ne hfa hal hi hne.symm]
  have htable : tableOf (newPde (f * 4096) flags) = f * 4096 := tableOf_newPde hpage
  have hnumber : f * 4096 / 4096 = f := Nat.mul_div_cancel f (by decide)
  refine ⟨fun i hi hne' => ?_, fun i hi hne' hpi j hj => ?_, fun j hj => ?_, ?_, fun hu => ?_,
    fun hpi => absurd habsent hpi, fun _ => ?_, fun g hg => ⟨⟨hg.1, ?_⟩, fun _ => ?_⟩⟩
  · rw [hdir i hi, if_neg hne']
  · have hti := tableOf_aligned (pageWord_lt s.mem pd i)
    have hother : tableOf (pageWord s.mem pd i) ≠ f * 4096 := by
      intro heq
      have htaken := h.tableTaken i hi hpi
      rw [heq, hnumber] at htaken
      exact htaken hfree
    rw [pageWord_put_of_ne hfa hti ht hj hother,
      pageWord_put_of_ne hal hti hd hj (h.apart i hi hpi),
      pageWord_clear_of_ne hfa hti hj hother]
  · rw [hdir _ hd, if_pos rfl, htable, if_pos habsent, pageWord_put (newPte_lt phys flags),
      pageWord_put_of_ne hal hfa hd hj hne, pageWord_clear hj]
  · rw [hdir _ hd, if_pos rfl]
    exact newPde_present _ _
  · rw [hdir _ hd, if_pos rfl]
    exact newPde_user _ hu
  · rw [hdir _ hd, if_pos rfl, htable, hnumber]
    exact hfree
  · have hused := hg.2
    rw [Pmm.isUsed_takeFrame, Bool.or_eq_false_iff] at hused
    exact hused.2
  · have hused := hg.2
    rw [Pmm.isUsed_takeFrame, Bool.or_eq_false_iff, decide_eq_false_iff_not] at hused
    rw [hdir _ hd, if_pos rfl, htable, hnumber]
    exact hused.1

theorem walk_eq (mem : Bytes) (pd va : Nat) :
    walk mem pd va = if pageWord mem pd (dirIndex va) &&& pagePresent = 0 then 0
      else pageWord mem (tableOf (pageWord mem pd (dirIndex va))) (tabIndex va) := rfl

namespace MapStep

section

variable (h : MapStep s t pd virt phys flags)
include h

theorem walk_here : walk t.mem pd virt = newPte phys flags := by
  rw [walk_eq, if_neg h.present, h.entry _ (tabIndex_lt virt), if_pos rfl]

theorem walk_other (hne : ¬ (dirIndex va = dirIndex virt ∧ tabIndex va = tabIndex virt)) :
    walk t.mem pd va = walk s.mem pd va := by
  have hd := dirIndex_lt va
  have ht := tabIndex_lt va
  rw [walk_eq, walk_eq]
  by_cases hdir : dirIndex va = dirIndex virt
  · rw [hdir, if_neg h.present, h.entry _ ht, if_neg fun htab => hne ⟨hdir, htab⟩]
  · rw [h.other _ hd hdir]
    by_cases hpresent : pageWord s.mem pd (dirIndex va) &&& pagePresent = 0
    · rw [if_pos hpresent, if_pos hpresent]
    · rw [if_neg hpresent, if_neg hpresent, h.otherTable _ hd hdir hpresent _ ht]

theorem directory (hs : Directory s pd) : Directory t pd := by
  have hd := dirIndex_lt virt
  have hold : ∀ i < 1024, i ≠ dirIndex virt → pageWord t.mem pd i &&& pagePresent ≠ 0 →
      pageWord s.mem pd i &&& pagePresent ≠ 0 := by
    intro i hi hne hp
    rwa [h.other i hi hne] at hp
  -- the table of the mapped page is an old one of the directory, or a frame that was free
  have hhere : (pageWord s.mem pd (dirIndex virt) &&& pagePresent ≠ 0 ∧
      tableOf (pageWord t.mem pd (dirIndex virt)) = tableOf (pageWord s.mem pd (dirIndex virt))) ∨
      (pageWord s.mem pd (dirIndex virt) &&& pagePresent = 0 ∧
        s.pmm.Free (tableOf (pageWord t.mem pd (dirIndex virt)) / 4096)) := by
    by_cases hp : pageWord s.mem pd (dirIndex virt) &&& pagePresent = 0
    · exact .inr ⟨hp, h.fresh hp⟩
    · refine .inl ⟨hp, ?_⟩
      rcases h.kept hp with heq | heq
      · rw [heq]
      · rw [heq, tableOf_or _ (by decide)]
  have hapart : ∀ i < 1024, i ≠ dirIndex virt → pageWord s.mem pd i &&& pagePresent ≠ 0 →
      tableOf (pageWord s.mem pd i) ≠ tableOf (pageWord t.mem pd (dirIndex virt)) := by
    intro i hi hne hp heq
    rcases hhere with ⟨hp', htab⟩ | ⟨-, hfree⟩
    · exact hne (hs.distinct i hi _ hd hp hp' (heq.trans htab))
    · rw [← heq] at hfree
      exact hs.tableTaken i hi hp hfree
  refine ⟨hs.aligned, fun hf => hs.taken (h.frames _ hf).1, fun i hi hp => ?_, fun i hi hp hf => ?_,
    fun i hi i' hi' hp hp' heq => ?_, fun i hi j hj hp hu => ?_⟩
  · by_cases hne : i = dirIndex virt
    · rw [hne]
      rcases hhere with ⟨hp', htab⟩ | ⟨-, hfree⟩
      · rw [htab]
        exact hs.apart _ hd hp'
      · exact fun heq => hs.taken (heq ▸ hfree)
    · rw [h.other i hi hne]
      exact hs.apart i hi (hold i hi hne hp)
  · by_cases hne : i = dirIndex virt
    · rw [hne] at hf
      rcases hhere with ⟨hp', htab⟩ | ⟨hp', -⟩
      · rw [htab] at hf
        exact hs.tableTaken _ hd hp' (h.frames _ hf).1
      · exact (h.frames _ hf).2 hp' rfl
    · rw [h.other i hi hne] at hf
      exact hs.tableTaken i hi (hold i hi hne hp) (h.frames _ hf).1
  · by_cases hne : i = dirIndex virt
    · by_cases hne' : i' = dirIndex virt
      · rw [hne, hne']
      · rw [hne, h.other i' hi' hne'] at heq
        exact absurd heq.symm (hapart i' hi' hne' (hold i' hi' hne' hp'))
    · by_cases hne' : i' = dirIndex virt
      · rw [hne', h.other i hi hne] at heq
        exact absurd heq (hapart i hi hne (hold i hi hne hp))
      · rw [h.other i hi hne, h.other i' hi' hne'] at heq
        exact hs.distinct i hi i' hi' (hold i hi hne hp) (hold i' hi' hne' hp') heq
  · by_cases hne : i = dirIndex virt
    · rw [hne] at hu ⊢
      rw [h.entry j hj] at hu
      split_ifs at hu with hj' habsent
      · exact h.user (user_of_newPte hu)
      · exact absurd hu (not_userEntry_zero false)
      · have huser := hs.user _ hd j hj habsent hu
        rcases h.kept habsent with heq | heq
        · rwa [heq]
        · rw [heq]
          exact or_user_user _
    · have hp' := hold i hi hne hp
      rw [h.other i hi hne] at hu ⊢
      rw [h.otherTable i hi hne hp' j hj] at hu
      exact hs.user i hi j hj hp' hu

theorem user_other {write : Bool} (hs : Directory s pd)
    (hne : ¬ (dirIndex va = dirIndex virt ∧ tabIndex va = tabIndex virt))
    (hu : UserPage t.mem pd write va) : UserPage s.mem pd write va := by
  have hd := dirIndex_lt va
  have ht := tabIndex_lt va
  have hwalk := h.walk_other hne
  have hpde : UserEntry write (pageWord t.mem pd (dirIndex va)) := hu.1
  have hpte : UserEntry write (pageWord t.mem (tableOf (pageWord t.mem pd (dirIndex va)))
      (tabIndex va)) := hu.2
  rw [walk_eq, walk_eq, if_neg hpde.1] at hwalk
  split_ifs at hwalk with habsent
  · exact absurd (hwalk ▸ hpte) (not_userEntry_zero write)
  rw [hwalk] at hpte
  refine ⟨?_, hpte⟩
  change UserEntry write (pageWord s.mem pd (dirIndex va))
  have huser := hs.user _ hd _ ht habsent ⟨hpte.1, hpte.2.1, fun hf => absurd hf Bool.false_ne_true⟩
  by_cases hdir : dirIndex va = dirIndex virt
  · rw [hdir] at habsent huser hpde ⊢
    rcases h.kept habsent with heq | heq
    · rwa [heq] at hpde
    · rw [heq] at hpde
      refine ⟨habsent, huser, fun hw => ?_⟩
      have hrw := hpde.2.2 hw
      rwa [or_user_and _ (by decide)] at hrw
  · rwa [h.other _ hd hdir] at hpde

end

end MapStep

/-- The kernel reaches the directory, its tables and every frame that may become one. -/
def Covered (s : Machine) (pd : Nat) : Prop :=
  pd + 4096 ≤ s.direct ∧
    (∀ i < 1024, pageWord s.mem pd i &&& pagePresent ≠ 0 →
      tableOf (pageWord s.mem pd i) + 4096 ≤ s.direct) ∧
    ∀ f, s.pmm.Free f → f * 4096 + 4096 ≤ s.direct

theorem markUser_run {pde : Nat} (hd : pdSlot pd virt + 4 ≤ s.direct) :
    markUser pd virt flags pde s = (.ok (), { s with
      mem := if flags &&& pageUser ≠ 0 then putLe32 s.mem (pdSlot pd virt) (pde ||| pageUser)
        else s.mem }) := by
  rw [markUser]
  by_cases hu : flags &&& pageUser ≠ 0
  · rw [if_pos hu, if_pos hu]
    exact write32_run hd
  · rw [if_neg hu, if_neg hu, pure_run]

theorem allocFrame_free (p : Pmm) :
    (p.allocFrame.1 = 0 ∧ ∀ f, p.allocFrame.2.Free f → p.Free f) ∨
      ∃ f, f ≠ 0 ∧ p.Free f ∧ f * 4096 < 2 ^ 32 ∧
        p.allocFrame = (f * 4096, p.takeFrame (f * 4096)) := by
  rcases p.allocFrame_cases with ⟨hnone, -⟩ | ⟨f, hlt, hclear, -, hrun⟩
  · rw [hnone]
    exact .inl ⟨rfl, fun f hf => hf⟩
  · have htotal := p.total_le
    by_cases hzero : f = 0
    · rw [hrun, hzero]
      refine .inl ⟨rfl, fun g hg => ⟨hg.1, ?_⟩⟩
      have hused := hg.2
      rw [Pmm.isUsed_takeFrame, Bool.or_eq_false_iff] at hused
      exact hused.2
    · exact .inr ⟨f, hzero, ⟨hlt, hclear⟩, by omega, hrun⟩

/-- A new table in a free frame, or nothing but the failed allocation. -/
theorem newTable_ok {r : Option Nat} (h : newTable pd virt flags s = (.ok r, t)) :
    (r = none ∧ ∃ p : Pmm, t = { s with pmm := p } ∧ ∀ f, p.Free f → s.pmm.Free f) ∨
      ∃ f, r = some (f * 4096) ∧ s.pmm.Free f ∧ f * 4096 < 2 ^ 32 ∧ t = { s with
        pmm := s.pmm.takeFrame (f * 4096)
        mem := putLe32 (splice s.mem (f * 4096) 4096 fun _ => 0) (pdSlot pd virt)
          (newPde (f * 4096) flags) } := by
  have halloc : pmmAllocFrame s = (.ok s.pmm.allocFrame.1, { s with pmm := s.pmm.allocFrame.2 }) :=
    rfl
  rw [newTable, bind_ok halloc] at h
  rcases allocFrame_free s.pmm with ⟨hzero, hmono⟩ | ⟨f, hne, hfree, hlt, hrun⟩
  · rw [if_pos hzero, pure_run] at h
    cases h
    exact .inl ⟨rfl, _, rfl, hmono⟩
  · rw [hrun, if_neg (by omega)] at h
    obtain ⟨_, u, hset, h⟩ := exists_of_bind_ok h
    obtain ⟨-, hset⟩ := of_guarded_ok hset
    cases hset
    obtain ⟨_, v, hput, h⟩ := exists_of_bind_ok h
    obtain ⟨-, hput⟩ := of_guarded_ok hput
    cases hput
    cases h
    exact .inr ⟨f, rfl, hfree, hlt, rfl⟩

theorem Directory.of_frames (hs : Directory s pd) {p : Pmm} (hmono : ∀ f, p.Free f → s.pmm.Free f) :
    Directory { s with pmm := p } pd :=
  ⟨hs.aligned, fun hf => hs.taken (hmono _ hf), hs.apart,
    fun i hi hp hf => hs.tableTaken i hi hp (hmono _ hf), hs.distinct, hs.user⟩

theorem pagingMapPage_ok (hs : Directory s pd) {ok : Bool}
    (h : pagingMapPage pd virt phys flags s = (.ok ok, t)) :
    (ok = false ∧ ∃ p : Pmm, t = { s with pmm := p } ∧ ∀ f, p.Free f → s.pmm.Free f) ∨
      (ok = true ∧ MapStep s t pd virt phys flags ∧ virt &&& 4095 = 0 ∧ phys &&& 4095 = 0) := by
  rw [pagingMapPage] at h
  split_ifs at h with hargs
  · cases h
    exact .inl ⟨rfl, s.pmm, rfl, fun f hf => hf⟩
  rw [not_or, not_or, not_not, not_not] at hargs
  obtain ⟨r, u, htable, h⟩ := exists_of_bind_ok h
  rw [tableFor] at htable
  obtain ⟨pde, v, hread, htable⟩ := exists_of_bind_ok htable
  obtain ⟨hreach, hread⟩ := of_guarded_ok hread
  cases hread
  have hword : le32 s.mem (pdSlot pd virt) = pageWord s.mem pd (dirIndex virt) := rfl
  rw [hword] at htable
  split_ifs at htable with habsent
  · rcases newTable_ok htable with ⟨rfl, p, rfl, hmono⟩ | ⟨f, rfl, hfree, hlt, rfl⟩
    · cases h
      exact .inl ⟨rfl, p, rfl, hmono⟩
    · obtain ⟨_, w, hput, h⟩ := exists_of_bind_ok h
      obtain ⟨-, hput⟩ := of_guarded_ok hput
      cases hput
      cases h
      exact .inr ⟨rfl, hs.mapNew habsent hfree hlt, hargs.2⟩
  · rw [oldTable, bind_ok (markUser_run hreach)] at htable
    cases htable
    obtain ⟨_, w, hput, h⟩ := exists_of_bind_ok h
    obtain ⟨-, hput⟩ := of_guarded_ok hput
    cases hput
    cases h
    exact .inr ⟨rfl, hs.mapOld habsent rfl, hargs.2⟩

theorem newTable_returns (hd : pdSlot pd virt + 4 ≤ s.direct)
    (hfree : ∀ f, s.pmm.Free f → f * 4096 + 4096 ≤ s.direct) :
    ∃ r t, newTable pd virt flags s = (.ok r, t) ∧ t.direct = s.direct ∧
      ∀ pt, r = some pt → pt + 4096 ≤ s.direct := by
  have halloc : pmmAllocFrame s = (.ok s.pmm.allocFrame.1, { s with pmm := s.pmm.allocFrame.2 }) :=
    rfl
  rw [newTable, bind_ok halloc]
  rcases allocFrame_free s.pmm with ⟨hzero, -⟩ | ⟨f, hne, hf, -, hrun⟩
  · rw [if_pos hzero]
    exact ⟨none, _, rfl, rfl, fun pt hpt => nomatch hpt⟩
  · have hroom := hfree f hf
    rw [hrun, if_neg (by omega), bind_ok (memset_run (by exact hroom)),
      bind_ok (write32_run (by exact hd))]
    refine ⟨some (f * 4096), _, rfl, rfl, fun pt hpt => ?_⟩
    cases hpt
    exact hroom

theorem pagingMapPage_returns (hc : Covered s pd) (virt phys flags : Nat) :
    ∃ ok t, pagingMapPage pd virt phys flags s = (.ok ok, t) := by
  have hd := dirIndex_lt virt
  have ht := tabIndex_lt virt
  have hslot : pdSlot pd virt + 4 ≤ s.direct := by
    have := hc.1
    change pd + 4 * dirIndex virt + 4 ≤ s.direct
    omega
  have hstore : ∀ {pt : Nat} {u : Machine}, pt + 4096 ≤ u.direct →
      ptSlot pt virt + 4 ≤ u.direct := by
    intro pt u h
    change pt + 4 * tabIndex virt + 4 ≤ u.direct
    omega
  rw [pagingMapPage]
  by_cases hargs : pd = 0 ∨ virt &&& 4095 ≠ 0 ∨ phys &&& 4095 ≠ 0
  · rw [if_pos hargs]
    exact ⟨false, s, rfl⟩
  have htable : ∃ r u, tableFor pd virt flags s = (.ok r, u) ∧ u.direct = s.direct ∧
      ∀ pt, r = some pt → pt + 4096 ≤ s.direct := by
    rw [tableFor, bind_ok (read32_run hslot)]
    split_ifs with habsent
    · exact newTable_returns hslot hc.2.2
    · rw [oldTable, bind_ok (markUser_run hslot)]
      refine ⟨_, _, rfl, rfl, fun pt hpt => ?_⟩
      cases hpt
      exact hc.2.1 _ hd habsent
  obtain ⟨r, u, htable, hdirect, hroom⟩ := htable
  rw [if_neg hargs, bind_ok htable]
  cases r with
  | none => exact ⟨false, u, rfl⟩
  | some pt =>
    dsimp only
    rw [bind_ok (write32_run (hstore (hdirect ▸ hroom pt rfl)))]
    exact ⟨true, _, rfl⟩

/-! ## Sequences -/

structure Mapping where
  virt : UInt32
  phys : UInt32
  flags : UInt32

/-- One call after the other, with their results. -/
def mapAll (pd : Nat) : List Mapping → MachineM (List Bool)
  | [] => pure []
  | m :: ms => do
    let ok ← pagingMapPage pd m.virt.toNat m.phys.toNat m.flags.toNat
    let rest ← mapAll pd ms
    pure (ok :: rest)

/-- The entry of a page after mappings of which some failed: the last one of the page that did
not. -/
def lastEntry (va : Nat) (entry : Nat) (ms : List (Mapping × Bool)) : Nat :=
  ms.foldl (fun e m => if m.2 = true ∧ m.1.virt.toNat = va then
    newPte m.1.phys.toNat m.1.flags.toNat else e) entry

theorem lastEntry_cons (va e : Nat) (m : Mapping × Bool) (ms : List (Mapping × Bool)) :
    lastEntry va e (m :: ms) = lastEntry va
      (if m.2 = true ∧ m.1.virt.toNat = va then newPte m.1.phys.toNat m.1.flags.toNat else e) ms :=
  rfl

theorem aligned_of_and (h : va &&& 4095 = 0) : va % 4096 = 0 := by
  rwa [Nat.and_two_pow_sub_one_eq_mod va 12] at h

theorem MapStep.walk_page (h : MapStep s t pd virt phys flags) (hvirt : virt < 2 ^ 32)
    (hal : virt &&& 4095 = 0) (hva : va < 2 ^ 32) (hva' : va % 4096 = 0) :
    walk t.mem pd va = if virt = va then newPte phys flags else walk s.mem pd va := by
  by_cases heq : virt = va
  · rw [if_pos heq, ← heq, h.walk_here]
  · rw [if_neg heq, h.walk_other fun hc => heq
      (page_eq hva hvirt hva' (aligned_of_and hal) hc.1 hc.2).symm]

theorem mapAll_ok {ms : List Mapping} {results : List Bool} (hs : Directory s pd)
    (h : mapAll pd ms s = (.ok results, t)) :
    Directory t pd ∧ ∀ va < 2 ^ 32, va % 4096 = 0 →
      walk t.mem pd va = lastEntry va (walk s.mem pd va) (ms.zip results) := by
  induction ms generalizing s results with
  | nil =>
    cases h
    exact ⟨hs, fun _ _ _ => rfl⟩
  | cons m ms ih =>
    rw [mapAll] at h
    obtain ⟨ok, u, hmap, h⟩ := exists_of_bind_ok h
    obtain ⟨rest, v, hrest, h⟩ := exists_of_bind_ok h
    cases h
    rcases pagingMapPage_ok hs hmap with ⟨rfl, p, rfl, hmono⟩ | ⟨rfl, hstep, hal, -⟩
    · obtain ⟨hdir, hwalk⟩ := ih (hs.of_frames hmono) hrest
      refine ⟨hdir, fun va hva hva' => (hwalk va hva hva').trans ?_⟩
      rw [List.zip_cons_cons, lastEntry_cons, if_neg fun hc => Bool.false_ne_true hc.1]
    · obtain ⟨hdir, hwalk⟩ := ih (hstep.directory hs) hrest
      refine ⟨hdir, fun va hva hva' => (hwalk va hva hva').trans ?_⟩
      rw [List.zip_cons_cons, lastEntry_cons, hstep.walk_page m.virt.toNat_lt hal hva hva']
      simp only [true_and]

/-- A successful call maps its page and leaves all others as they are, a failed one changes no
table, and a sequence of calls makes the finite map of the last mapping of each page. -/
theorem pagingMapPage_correct (s : Machine) (pd : Nat) (hs : Directory s pd) :
    (∀ virt phys flags : UInt32,
      (∀ t, pagingMapPage pd virt.toNat phys.toNat flags.toNat s = (.ok true, t) →
        Directory t pd ∧ walk t.mem pd virt.toNat = phys.toNat ||| (flags.toNat &&& 0x1F) ∧
        ∀ va < 2 ^ 32, va % 4096 = 0 → va ≠ virt.toNat →
          walk t.mem pd va = walk s.mem pd va ∧
          ∀ write, UserPage t.mem pd write va → UserPage s.mem pd write va) ∧
      (∀ t, pagingMapPage pd virt.toNat phys.toNat flags.toNat s = (.ok false, t) →
        t.mem = s.mem) ∧
      (Covered s pd → ∃ ok t,
        pagingMapPage pd virt.toNat phys.toNat flags.toNat s = (.ok ok, t))) ∧
    ∀ (ms : List Mapping) (results : List Bool) (t : Machine),
      mapAll pd ms s = (.ok results, t) →
        Directory t pd ∧ ∀ va < 2 ^ 32, va % 4096 = 0 →
          walk t.mem pd va = lastEntry va (walk s.mem pd va) (ms.zip results) := by
  refine ⟨fun virt phys flags => ⟨fun t ht => ?_, fun t ht => ?_, fun hc => ?_⟩,
    fun ms results t ht => mapAll_ok hs ht⟩
  · rcases pagingMapPage_ok hs ht with ⟨hfalse, -⟩ | ⟨-, hstep, hvirt, hphys⟩
    · exact absurd hfalse (by decide)
    have hframe : phys.toNat &&& (2 ^ 32 - 4096) = phys.toNat := by
      have hmask : phys.toNat &&& (2 ^ 32 - 4096) = phys.toNat / 4096 * 4096 :=
        tableOf_eq phys.toNat_lt
      have hmod := aligned_of_and hphys
      rw [hmask]
      omega
    refine ⟨hstep.directory hs, ?_, fun va hva hva' hne => ?_⟩
    · rw [hstep.walk_here, newPte, hframe]
    · have hpage : ¬ (dirIndex va = dirIndex virt.toNat ∧ tabIndex va = tabIndex virt.toNat) :=
        fun hc => hne (page_eq hva virt.toNat_lt hva' (aligned_of_and hvirt) hc.1 hc.2)
      exact ⟨hstep.walk_other hpage, fun write => hstep.user_other hs hpage⟩
  · rcases pagingMapPage_ok hs ht with ⟨-, p, rfl, -⟩ | ⟨htrue, -⟩
    · rfl
    · exact absurd htrue (by decide)
  · exact pagingMapPage_returns hc _ _ _

theorem eightFrames_le : 8 ≤ 2 ^ 20 := by decide

/-- Eight frames, the empty directory in frame 1. -/
def emptyDirectory : Machine where
  mem _ := 0
  direct := 0x8000
  pmm := ⟨fun _ => 0x3#32, 8, 2, eightFrames_le⟩
  heap := ⟨0, 0, 0, 0⟩
  kernelPd := 0x1000
  activePd := 0x1000

theorem pagingMapPage_correct_empty :
    ∃ t, mapAll 0x1000 [⟨0x400000, 0x5000, 0x7⟩, ⟨0x401000, 0x6000, 0x3⟩] emptyDirectory =
        (.ok [true, true], t) ∧
      walk t.mem 0x1000 0x401000 = 0x6003 := by
  have hdir : Directory emptyDirectory 0x1000 := by
    have habsent : ∀ i, pageWord emptyDirectory.mem 0x1000 i &&& pagePresent = 0 := fun i => by
      simp [pageWord, le32, emptyDirectory]
    refine ⟨by decide, ?_, fun i _ hp => absurd (habsent i) hp,
      fun i _ hp => absurd (habsent i) hp, fun i _ _ _ hp => absurd (habsent i) hp,
      fun i _ _ _ hp => absurd (habsent i) hp⟩
    rintro ⟨-, hused⟩
    exact absurd hused (by decide)
  have hrun : (mapAll 0x1000 [⟨0x400000, 0x5000, 0x7⟩, ⟨0x401000, 0x6000, 0x3⟩]
      emptyDirectory).1 = .ok [true, true] := by decide +kernel
  refine ⟨_, Prod.ext hrun rfl, ?_⟩
  rw [((pagingMapPage_correct emptyDirectory 0x1000 hdir).2 _ _ _ (Prod.ext hrun rfl)).2 0x401000
    (by decide) (by decide)]
  decide

/-! ## A new address space -/

/-- The page `pd` after the first `i` turns of the copy: the kernel's entries that are present. -/
structure Copied (m₀ m : Bytes) (k pd i : Nat) : Prop where
  kept : ∀ q, q % 4096 = 0 → q ≠ pd → ∀ l < 1024, pageWord m q l = pageWord m₀ q l
  entry : ∀ l < 1024, pageWord m pd l =
    if l < i ∧ pageWord m₀ k l &&& pagePresent ≠ 0 then pageWord m₀ k l else 0

section

variable {m m₀ : Bytes} {k n : Nat} (hk : k + 4096 ≤ s.direct) (hp : pd + 4096 ≤ s.direct)
  (hka : k % 4096 = 0) (hpa : pd % 4096 = 0) (hne : k ≠ pd)

theorem Copied.walk (hm : Copied s.mem m k pd 1024) (h : Directory s k)
    (hother : ∀ {q}, ¬ s.pmm.Free (q / 4096) → q ≠ pd) (va : Nat) :
    Mm.walk m k va = Mm.walk s.mem k va ∧ Mm.walk m pd va = Mm.walk s.mem k va := by
  have hd := dirIndex_lt va
  rw [walk_eq, walk_eq, walk_eq, hm.entry _ hd, hm.kept _ h.aligned (hother h.taken) _ hd]
  by_cases hp : pageWord s.mem k (dirIndex va) &&& pagePresent = 0
  · simp [hp]
  · simp [hp, hd, hm.kept _ (tableOf_aligned (pageWord_lt _ _ _))
      (hother (h.tableTaken _ hd hp)) _ (tabIndex_lt va)]

include hk hp

include hka hpa hne

theorem Copied.step (h : Copied m₀ s.mem k pd i) (hi : i < 1024) :
    ∃ m, copyEntry k pd i s = (.ok (), { s with mem := m }) ∧ Copied m₀ m k pd (i + 1) := by
  rw [copyEntry, bind_ok (read32_run (by omega)), ← pageWord, h.kept k hka hne i hi]
  split_ifs with hpresent
  · refine ⟨_, write32_run (by omega), fun q hq hqp l hl => ?_, fun l hl => ?_⟩
    · rw [pageWord_put_of_ne hpa hq hi hl hqp, h.kept q hq hqp l hl]
    · grind [pageWord_put, pageWord_lt, h.entry l hl]
  · refine ⟨s.mem, rfl, h.kept, fun l hl => ?_⟩
    grind [h.entry l hl]

theorem Copied.run (h : Copied m₀ s.mem k pd i) (hn : i + n = 1024) :
    ∃ m, copyEntries k pd n i s = (.ok (), { s with mem := m }) ∧ Copied m₀ m k pd 1024 := by
  induction n generalizing s i with
  | zero => exact ⟨s.mem, rfl, hn ▸ h⟩
  | succ n ih =>
    obtain ⟨m, hrun, hm⟩ := Copied.step hk hp hka hpa hne h (by omega)
    rw [copyEntries, bind_ok hrun]
    exact ih hk hp hm (by omega)

end

end CfKernel.Mm
