import CfKernel.Fat.OpenVnodes

/-!
# The changes that the operations make

Each operation's change of the volume, as the vnodes it does not work on see it.
-/

namespace CfKernel.Fat

open Lib Lib.Eff

namespace FatSuper

variable {sb : FatSuper} {a b c x : Nat} {o : Option Nat} {l l' m slots : List Nat}
variable {d d' : Disk} {dir node : FatNode} {name sn : List UInt8} {attr : UInt8} {s : FatState}

theorem FileChange.shift (hch : sb.FileChange d d' a l l') :
    sb.Shift d d' (· ≠ some a) (· = a) (· ∈ l) where
  wf := hch.wf
  wf' := hch.wellFormed
  frame := hch.frame
  up o c slots b hd _ _ _ := by
    rintro rfl
    exact absurd hch.isFile (by rw [hd.isDir]; decide)
  fat x hx hf ht := hch.fat x hx ht hf
  own o c m ho hm x hx := by
    rcases hch.frame.holder hch.wf ho with ⟨hold, hne⟩ | ⟨b, rfl, rfl, rfl⟩
    · obtain ⟨m₀, hm₀⟩ := hch.wf.chain o c hold
      cases hm.unique (hch.chain_other hold hne hm₀)
      exact .inl ⟨c, m, hold, hm₀, hx⟩
    · cases hm.unique hch.chain
      exact .inr (hch.owned x hx).symm
  keepDir b name b' hr _ _ := by
    rintro ⟨⟩
    exact absurd hch.isFile (by rw [entryIsDir, hr.1]; decide)
  resolves dir name b hr _ _ := hch.othersSame.resolves hr

theorem Resolves.of_liveSlots (hr : sb.Resolves d dir name b)
    (hlive : ∀ o slots, sb.LiveDir d o dir.firstCluster → sb.DirSlots d dir.firstCluster slots →
      sb.LiveDir d' o dir.firstCluster ∧ ∃ slots', sb.DirSlots d' dir.firstCluster slots' ∧
        liveSlots d' slots' = liveSlots d slots ∧
        ∀ b ∈ liveSlots d slots, entryName d' b = entryName d b) :
    sb.Resolves d' dir name b := by
  obtain ⟨hdir, o, slots, hd, hs, hf⟩ := hr
  obtain ⟨hd', slots', hs', heq, hname⟩ := hlive o slots hd hs
  refine ⟨hdir, o, slots', hd', hs', ?_⟩
  rw [heq, find?_name_congr hname, hf]

theorem Scribbled.shift (hwf : sb.WellFormed d) (h : sb.Scribbled d d' x) :
    sb.Shift d d' (fun _ => True) (fun _ => False) (fun _ => False) where
  wf := hwf
  wf' := h.wellFormed hwf
  frame := h.frame
  up _ _ _ _ _ _ _ _ := trivial
  fat y hy _ _ := h.fat y hy
  own o c m ho hm y hy := by
    rcases h.frame.holder hwf ho with ⟨hold, -⟩ | ⟨b, -, hb, -⟩
    · obtain ⟨m₀, hm₀⟩ := hwf.chain o c hold
      cases hm.unique (hm₀.congr fun y hy => h.fat y (hm₀.isCluster hy).2)
      exact .inl ⟨c, m, hold, hm₀, hy⟩
    · exact hb.elim
  keepDir _ _ _ _ _ _ := trivial
  resolves dir name b hr _ _ := by
    refine hr.of_liveSlots fun o slots hd hs => ?_
    obtain ⟨hlive, hsame⟩ := slots_same d' fun b hb k hk =>
      h.data _ ((hs.slot hb).ge.trans (Nat.le_add_right _ k)) (hs.apart hb h.free hk)
    exact ⟨h.frame.liveDir_forward (fun _ _ _ _ _ _ _ _ => trivial) hd trivial, slots,
      hs.congr fun l hl y hy => h.fat y (hl.isCluster hy).2, hlive,
      fun b hb => (hsame b (mem_of_mem_liveSlots hb)).2⟩

theorem DirExtended.shift (hwf : sb.WellFormed d) (h : sb.DirExtended d d' o c x l) :
    sb.Shift d d' (fun _ => True) (fun _ => False) (· ∈ l) where
  wf := hwf
  wf' := h.wellFormed hwf
  frame := h.frame hwf
  up _ _ _ _ _ _ _ _ := trivial
  fat y hy hf ht := by
    apply h.grown.fat y hy
    intro hyl
    rcases List.mem_append.mp hyl with hyl | hyx
    · exact ht hyl
    · obtain rfl : y = x := by simpa using hyx
      exact hf h.free
  own o' c' m ho hm y hy := by
    rcases (h.frame hwf).holder hwf ho with ⟨hold, -⟩ | ⟨b, -, hb, -⟩
    · by_cases hne : o' = o
      · subst hne
        cases hold.cluster_unique (h.dir.holder h.first)
        cases hm.unique h.chain
        rcases List.mem_append.mp hy with hyl | hyx
        · exact .inl ⟨_, l, hold, h.before, hyl⟩
        · obtain rfl : y = x := by simpa using hyx
          exact .inr (.inl h.free)
      · obtain ⟨m₀, hm₀⟩ := hwf.chain o' c' hold
        cases hm.unique (h.chain_other hwf hold hne hm₀)
        exact .inl ⟨c', m, hold, hm₀, hy⟩
    · exact hb.elim
  keepDir _ _ _ _ _ _ := trivial
  resolves dir name b hr _ _ := by
    refine hr.of_liveSlots fun o' slots hd hs => ?_
    obtain ⟨slots', hs', heq, hsame⟩ := h.dirSlots hwf hd hs
    exact ⟨(h.frame hwf).liveDir_forward (fun _ _ _ _ _ _ _ _ => trivial) hd trivial, slots', hs',
      heq, fun b hb => (hsame b hb).2⟩

section

variable (h : sb.NewEntry d d' o slots a sn x attr)
variable {o' : Option Nat}
include h

theorem NewEntry.liveDir_forward (hd : sb.LiveDir d o' c) : sb.LiveDir d' o' c :=
  h.frame.liveDir_forward (fun _ _ _ _ hd _ _ _ => h.keep_dir hd) hd (h.keep_dir hd)

theorem NewEntry.live_name_eq 
 {slots' : List Nat} (hd : sb.LiveDir d o' c) (hs : sb.DirSlots d c slots') :
    ∀ y ∈ liveSlots d slots', entryName d' y = entryName d y := by
  intro y hy
  have hne : y ≠ a := by
    rintro rfl
    exact h.not_live ⟨_, _, _, hd, hs, hy⟩
  exact entryName_congr fun k hk => h.filled.slot_byte hs (mem_of_mem_liveSlots hy) hne (by omega)

theorem NewEntry.find?_eq (hd : sb.LiveDir d o c)
    (hs : sb.DirSlots d c slots) (name : List UInt8) : ∃ p q, liveSlots d slots = p ++ q ∧
      (liveSlots d' slots).find? (fun b => strcasecmpEq (entryName d' b) name) =
        (p.find? (fun b => strcasecmpEq (entryName d b) name)).or
          (if strcasecmpEq (fatNameToStr sn) name then some a
            else q.find? (fun b => strcasecmpEq (entryName d b) name)) := by
  have hnames := h.live_name_eq hd hs
  obtain ⟨p, q, heq, heq'⟩ := h.filled.liveSlots_eq
  rw [heq] at hnames
  refine ⟨p, q, heq, ?_⟩
  rw [heq', List.find?_append, List.find?_cons, h.filled.name_eq,
    find?_name_congr fun b hb => hnames b (List.mem_append_left _ hb),
    find?_name_congr fun b hb => hnames b (List.mem_append_right _ hb)]
  cases strcasecmpEq (fatNameToStr sn) name <;> rfl

theorem NewEntry.resolves_new (hdir : dir.isDir = true) (hd : sb.LiveDir d o dir.firstCluster)
    (hs : sb.DirSlots d dir.firstCluster slots)
    (hnone : (liveSlots d slots).find? (fun b => strcasecmpEq (entryName d b) name) = none)
    (hsn : strcasecmpEq (fatNameToStr sn) name = true) : sb.Resolves d' dir name a := by
  refine ⟨hdir, o, slots, h.liveDir_forward hd, hs.congr fun l hl y hy => h.filled.fat_old hl hy, ?_⟩
  obtain ⟨p, q, heq, hfind⟩ := h.find?_eq hd hs name
  rw [heq, List.find?_append, Option.or_eq_none_iff] at hnone
  rw [hfind, hnone.1, if_pos hsn, Option.none_or]

/-- A new entry does not hide an older one, since its name was not there. -/
theorem NewEntry.shift {wanted : List UInt8}
    (hnone : (liveSlots d slots).find? (fun b => strcasecmpEq (entryName d b) wanted) = none)
    (hsn : strcasecmpEq (fatNameToStr sn) wanted = true) :
    sb.Shift d d' (· ≠ some a) (· = a) (fun _ => False) where
  wf := h.wf
  wf' := h.wellFormed
  frame := h.frame
  up _ _ _ _ hd _ _ _ := h.keep_dir hd
  fat y hy hf _ := by
    obtain ⟨parent, hadd⟩ := h.added
    rw [hadd.fat y hy, if_neg]
    rintro ⟨hx, rfl⟩
    exact hf (hadd.free hx)
  own o' c m ho hm y hy := by
    rcases h.frame.holder h.wf ho with ⟨hold, -⟩ | ⟨b, rfl, rfl, rfl⟩
    · obtain ⟨m₀, hm₀⟩ := h.wf.chain o' c hold
      cases hm.unique (hm₀.congr fun y hy => h.filled.fat_old hm₀ hy)
      exact .inl ⟨c, m, hold, hm₀, hy⟩
    · rw [entryCluster, h.filled.node_eq] at hm
      cases hm.unique h.filled.chain_new
      obtain ⟨parent, hadd⟩ := h.added
      by_cases hx : x = 0
      · simp [hx] at hy
      · obtain rfl : y = x := by simpa [hx] using hy
        exact .inr (.inl (hadd.free hx))
  keepDir b _ _ _ _ hb := by
    rintro ⟨⟩
    exact h.not_live hb
  resolves dir name b hr _ _ := by
    obtain ⟨hdir, o', slots', hd', hs', hf⟩ := hr
    obtain ⟨c, hd, hs⟩ := h.dir
    refine ⟨hdir, o', slots', h.liveDir_forward hd', hs'.congr fun l hl y hy => h.filled.fat_old hl hy, ?_⟩
    by_cases ha : a ∈ slots'
    · cases h.wf.slot_owner hd hd' hs hs' (List.mem_of_find?_eq_some h.first) ha
      cases hd.cluster_unique hd'
      cases hs.unique hs'
      have hmiss : strcasecmpEq (fatNameToStr sn) name = false := by
        -- otherwise the entry found for `name` would have been found for the new name
        by_contra hhit
        rw [Bool.not_eq_false] at hhit
        have hb := List.find?_some (p := fun b => strcasecmpEq (entryName d b) name) hf
        have hno := List.find?_eq_none.mp hnone b (List.mem_of_find?_eq_some hf)
        rw [strcasecmpEq_iff] at hb hhit hsn hno
        exact hno (hb.trans (hhit.symm.trans hsn))
      obtain ⟨p, q, heq, hfind⟩ := h.find?_eq hd hs' name
      rw [hfind, hmiss, if_neg (by decide), ← List.find?_append, ← heq, hf]
    · have heq : liveSlots d' slots' = liveSlots d slots' := liveSlots_congr fun y hy => by
        have hne : y ≠ a := fun hya => ha (hya ▸ hy)
        exact ⟨h.filled.slot_byte hs' hy hne (k := 0) (by decide), h.filled.slot_byte hs' hy hne (by decide)⟩
      rw [heq, find?_name_congr (h.live_name_eq hd' hs'), hf]

end

theorem find?_filter_ne {q : List Nat} {p : Nat → Bool} (h : q.find? p = some b) (hne : b ≠ a) :
    (q.filter (· ≠ a)).find? p = some b := by
  induction q with
  | nil => cases h
  | cons y q ih =>
    by_cases hp : p y = true
    · obtain rfl : y = b := by simpa [List.find?_cons, hp] using h
      simp [hne, hp]
    · rw [List.find?_cons_of_neg hp] at h
      by_cases hy : y = a
      · simpa [hy] using ih h
      · simpa [hy, hp] using ih h

theorem Unlinked.shift (h : sb.Unlinked d d' a l)
    (hempty : entryIsDir d a = true → sb.EmptyDir d (entryCluster d a)) :
    sb.Shift d d' (· ≠ some a) (fun _ => False) (· ∈ l) := by
  have hup : ∀ o c slots b, sb.LiveDir d o c → sb.DirSlots d c slots → b ∈ liveSlots d slots →
      entryIsDot d b = false → o ≠ some a := by
    rintro o c slots b hd hs hb hdot rfl
    obtain ⟨slots', hs', hall⟩ := hempty hd.isDir
    cases hd with
    | sub =>
      cases hs.unique hs'
      rw [entryIsDot, hall b hb] at hdot
      cases hdot
  refine ⟨h.wf, h.wellFormed, h.frame, hup, ?_, ?_, ?_, ?_⟩
  · intro y hy _ ht
    rw [h.removed.fat y hy, if_neg ht]
  · intro o c m ho hm y hy
    rcases h.frame.holder h.wf ho with ⟨hold, hne⟩ | ⟨b, -, hb, -⟩
    · obtain ⟨m₀, hm₀⟩ := h.wf.chain o c hold
      cases hm.unique (hm₀.congr fun y hy => h.fat_other hold hne hm₀ hy)
      exact .inl ⟨c, m, hold, hm₀, hy⟩
    · exact hb.elim
  · rintro b name b' ⟨hdir, o, slots, hd, hs, hf⟩ hname _ ⟨⟩
    obtain ⟨slots', hs', hall⟩ := hempty hdir
    cases hs.unique hs'
    have hcmp := List.find?_some (p := fun b => strcasecmpEq (entryName d b) name) hf
    have := hall b' (List.mem_of_find?_eq_some hf)
    rw [isDotName_of_strcasecmpEq hcmp, hname] at this
    cases this
  · intro dir name b hr hname hk
    have hdot := (hr.liveEntry hname).2
    obtain ⟨hdir, o, slots, hd, hs, hf⟩ := hr
    have ho := hup o _ slots b hd hs (List.mem_of_find?_eq_some hf) hdot
    have hne : b ≠ a := by simpa using hk
    refine ⟨hdir, o, slots, h.frame.liveDir_forward hup hd ho, h.dirSlots hd ho hs, ?_⟩
    rw [h.liveSlots_eq hs, find?_name_congr, find?_filter_ne hf hne]
    intro y hy
    obtain ⟨hy, hya⟩ := List.mem_filter.mp hy
    have hya' : y ≠ a := by simpa using hya
    exact entryName_congr fun k hk =>
      h.slot_byte (hs.slot (mem_of_mem_liveSlots hy)) hya' (by omega)

theorem DirExtended.kept (hwf : sb.WellFormed d) (h : sb.DirExtended d d' o c x l) :
    sb.Kept d d' (fun _ => True) (fun _ => True) := by
  apply (h.shift hwf).kept
  · exact fun _ _ _ => trivial
  · rintro s b m rfl hat - - y hy
    refine hat.mine y hy o c l (h.dir.holder h.first) ?_ h.before
    rintro rfl
    exact absurd hat.isFile (by rw [h.dir.isDir]; decide)

theorem SlotReady.kept (hwf : sb.WellFormed d) (h : sb.SlotReady d d' o c) :
    sb.Kept d d' (fun _ => True) (fun _ => True) := by
  rcases h with rfl | ⟨x, l, hext⟩
  · exact .refl hwf _ _
  · exact hext.kept hwf

theorem Scribbled.kept (hwf : sb.WellFormed d) (h : sb.Scribbled d d' x) :
    sb.Kept d d' (fun _ => True) (fun _ => True) :=
  (h.shift hwf).kept (fun _ _ _ => trivial) fun _ _ _ _ _ _ _ _ _ => not_false

theorem NewEntry.kept (h : sb.NewEntry d d' o slots a sn x attr)
    (hnone : (liveSlots d slots).find? (fun b => strcasecmpEq (entryName d b) name) = none)
    (hsn : strcasecmpEq (fatNameToStr sn) name = true) :
    sb.Kept d d' (fun _ => True) (fun _ => True) := by
  apply (h.shift hnone hsn).kept
  · rintro b hb - ⟨⟩
    exact h.not_live hb
  · exact fun _ _ _ _ _ _ _ _ _ => not_false

theorem Unlinked.kept (h : sb.Unlinked d d' a l)
    (hempty : entryIsDir d a = true → sb.EmptyDir d (entryCluster d a)) :
    sb.Kept d d' (· ≠ a) (fun _ => True) := by
  apply (h.shift hempty).kept
  · exact fun b _ hb => by simpa using hb
  · rintro s b m rfl hat hb - y hy
    exact hat.mine y hy (some a) _ l (.entry h.live h.notDot) (by simpa using Ne.symm hb) h.before

theorem FileChange.kept (hch : sb.FileChange d d' a l l') :
    sb.Kept d d' (· ≠ a) (fun m => ∀ x ∈ m, x ∉ l) :=
  hch.shift.kept (fun b _ hb => by simpa using hb) fun _ _ _ _ _ _ hm => hm

/-- `fat_create_vn` leaves every open vnode alone and returns the node of the new entry, which its
name then leads to. -/
theorem Current.create_kept (h : sb.Current s.disk node) (hwf : sb.WellFormed s.disk)
    (hclean : node.isDir = true → sb.CleanDir s.disk node.firstCluster)
    (hlast : name.getLast? ≠ some 0x2E) (type : VnodeType) :
    ∃ r t, fatCreateVn sb node name type s = (r, t) ∧
      sb.Kept s.disk t.disk (fun _ => True) (fun _ => True) ∧
      ∀ next, r = .ok next → ∃ a, sb.Resolves t.disk node name a ∧ next = nodeAt t.disk a := by
  obtain ⟨r, t, hrun, hr⟩ := h.create_spec hwf hclean name type
  refine ⟨r, t, hrun, ?_⟩
  cases r with
  | ok next =>
    obtain ⟨o, d₁, slots, a, sn, x, hdir, hready, hd, hs, hnew, hsn, hnone, rfl⟩ := hr
    have hmatch := fatNameToStr_shortName hsn hlast
    refine ⟨(hready.kept hwf).trans (hnew.kept hnone hmatch), ?_⟩
    rintro _ ⟨⟩
    exact ⟨a, hnew.resolves_new hdir hd hs hnone hmatch, hnew.filled.node_eq.symm⟩
  | error e =>
    refine ⟨?_, by simp⟩
    rcases hr with hsame | ⟨o, d₁, hready, hwf₁, rfl | ⟨x, hscr⟩⟩
    · rw [hsame]
      exact .refl hwf _ _
    · exact hready.kept hwf
    · exact (hready.kept hwf).trans (hscr.kept hwf₁)

theorem Current.unlink_kept (h : sb.Current s.disk node)
    (hwf : sb.WellFormed s.disk) (hname : isDotName name = false) :
    ∃ r t, fatUnlinkVn sb node name s = (r, t) ∧
      sb.Kept s.disk t.disk (fun b => ¬ sb.Resolves s.disk node name b) (fun _ => True) := by
  obtain ⟨r, t, hrun, hsame | ⟨a, l, hres, hun, hempty⟩⟩ := h.unlink_spec hwf hname
  · exact ⟨r, t, hrun, by rw [hsame]; exact .refl hwf _ _⟩
  · refine ⟨r, t, hrun, (hun.kept hempty).mono ?_⟩
    rintro b hb rfl
    exact hb hres

end FatSuper

end CfKernel.Fat
