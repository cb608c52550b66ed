import CfKernel.Fat.WellFormed

/-!
# What a change leaves of the directory tree

A change of the volume keeps some directories and entries as they are and may bring new entries
into view. Which directories and entries are live afterwards follows from what it does to the
slots of each kept directory.
-/

namespace CfKernel.Fat

open Lib Lib.Eff

namespace FatSuper

variable {sb : FatSuper} {a b c x : Nat} {o : Option Nat} {l m slots : List Nat} {d d' : Disk}
variable {keep : Option Nat → Prop} {new : Nat → Prop}

/-- Directories and entries that `keep` admits are as before; every other live entry is `new`, and
a new directory holds nothing but `.` and `..`. -/
structure TreeFrame (sb : FatSuper) (d d' : Disk) (keep : Option Nat → Prop) (new : Nat → Prop) :
    Prop where
  root : keep none
  dirs : ∀ o c slots, sb.LiveDir d o c → keep o → sb.DirSlots d c slots →
    ∃ slots', sb.DirSlots d' c slots' ∧
      (∀ b ∈ liveSlots d' slots', new b ∨ (b ∈ liveSlots d slots ∧ keep (some b))) ∧
      ∀ b ∈ liveSlots d slots, keep (some b) → b ∈ liveSlots d' slots' ∧
        nodeAt d' b = nodeAt d b ∧ entryName d' b = entryName d b
  leaf : ∀ b slots, new b → entryIsDir d' b = true → sb.DirSlots d' (entryCluster d' b) slots →
    ∀ x ∈ liveSlots d' slots, entryIsDot d' x = true

namespace TreeFrame

variable (hwf : sb.WellFormed d) (h : sb.TreeFrame d d' keep new)

include hwf h

theorem kept (hd : sb.LiveDir d o c) (ho : keep o) (hs : sb.DirSlots d' c slots)
    (hb : b ∈ liveSlots d' slots) : new b ∨ (keep (some b) ∧ nodeAt d' b = nodeAt d b ∧
      entryName d' b = entryName d b ∧
      ∃ slots, sb.DirSlots d c slots ∧ b ∈ liveSlots d slots) := by
  obtain ⟨slots₀, hs₀⟩ := hwf.dirSlots hd
  obtain ⟨slots', hs', hback, hforth⟩ := h.dirs o c slots₀ hd ho hs₀
  cases hs.unique hs'
  rcases hback b hb with hnew | ⟨hb₀, hkb⟩
  · exact .inl hnew
  · obtain ⟨-, hnode, hname⟩ := hforth b hb₀ hkb
    exact .inr ⟨hkb, hnode, hname, slots₀, hs₀, hb₀⟩

theorem liveDir (hd : sb.LiveDir d' o c) : (sb.LiveDir d o c ∧ keep o) ∨
    ∃ b, o = some b ∧ new b ∧ entryIsDir d' b = true ∧ c = entryCluster d' b := by
  induction hd with
  | root => exact .inl ⟨.root, h.root⟩
  | @sub o c b slots _ hs hb hbdir hbdot hbne ih =>
    rcases ih with ⟨hd₀, ho⟩ | ⟨p, rfl, hp, hpdir, rfl⟩
    · rcases h.kept hwf hd₀ ho hs hb with hnew | ⟨hkb, hnode, hname, slots₀, hs₀, hb₀⟩
      · exact .inr ⟨b, rfl, hnew, hbdir, rfl⟩
      · rw [entryIsDir, hnode] at hbdir
        rw [entryIsDot, hname] at hbdot
        rw [entryCluster, hnode] at hbne ⊢
        exact .inl ⟨.sub hd₀ hs₀ hb₀ hbdir hbdot hbne, hkb⟩
    · rw [h.leaf p slots hp hpdir hs b hb] at hbdot
      cases hbdot

theorem liveEntry (hb : sb.LiveEntry d' b) (hdot : entryIsDot d' b = false) :
    new b ∨ (sb.LiveEntry d b ∧ keep (some b) ∧ nodeAt d' b = nodeAt d b ∧
      entryName d' b = entryName d b) := by
  obtain ⟨o, c, slots, hd, hs, hb⟩ := hb
  rcases h.liveDir hwf hd with ⟨hd₀, ho⟩ | ⟨p, rfl, hp, hpdir, rfl⟩
  · rcases h.kept hwf hd₀ ho hs hb with hnew | ⟨hkb, hnode, hname, slots₀, hs₀, hb₀⟩
    · exact .inl hnew
    · exact .inr ⟨⟨o, c, slots₀, hd₀, hs₀, hb₀⟩, hkb, hnode, hname⟩
  · rw [h.leaf p slots hp hpdir hs b hb] at hdot
    cases hdot

theorem holder (ho : sb.Holder d' o c) : (sb.Holder d o c ∧ keep o) ∨
    ∃ b, o = some b ∧ new b ∧ c = entryCluster d' b := by
  cases ho with
  | root ht => exact .inl ⟨.root ht, h.root⟩
  | @entry b hb hdot =>
    rcases h.liveEntry hwf hb hdot with hn | ⟨hb₀, hk, hnode, hname⟩
    · exact .inr ⟨b, rfl, hn, rfl⟩
    · rw [entryIsDot, hname] at hdot
      rw [entryCluster, hnode]
      exact .inl ⟨.entry hb₀ hdot, hk⟩

/-- A volume stays well formed when kept holders keep their chains, or extend them, and only one
holder takes clusters besides, from no other chain. -/
theorem wellFormed (o₀ : Option Nat)
    (hold : ∀ o c l, sb.Holder d o c → keep o → sb.Chain d c l →
      ∃ m, sb.Chain d' c m ∧ l.length ≤ m.length ∧ ∀ x ∈ m, x ∈ l ∨ (o = o₀ ∧ sb.NotOthers d o₀ x))
    (hnew : ∀ b, new b → ∃ m, sb.Chain d' (entryCluster d' b) m ∧
      (∀ x ∈ m, (∃ c l, sb.Holder d (some b) c ∧ sb.Chain d c l ∧ x ∈ l) ∨
        (some b = o₀ ∧ sb.NotOthers d o₀ x)) ∧ entrySize d' b ≤ m.length * sb.clusterSize)
    (hcopies : sb.CopiesEqual d') : sb.WellFormed d' := by
  refine hwf.of_holders o₀ (fun o c ho => ?_) hcopies
  have hkept : ∀ {o c}, sb.Holder d o c → keep o → ∃ l m, sb.Chain d c l ∧ sb.Chain d' c m ∧
      l.length ≤ m.length ∧ ∀ x ∈ m, (∃ c₀ m₀, sb.Holder d o c₀ ∧ sb.Chain d c₀ m₀ ∧ x ∈ m₀) ∨
        (o = o₀ ∧ sb.NotOthers d o₀ x) := by
    intro o c ho hk
    obtain ⟨l, hl⟩ := hwf.chain o c ho
    obtain ⟨m, hm, hlen, hown⟩ := hold o c l ho hk hl
    exact ⟨l, m, hl, hm, hlen, fun x hx => (hown x hx).imp_left fun hxl => ⟨c, l, ho, hl, hxl⟩⟩
  cases ho with
  | root ht =>
    obtain ⟨-, m, -, hm, -, hown⟩ := hkept (.root ht) h.root
    exact ⟨m, hm, hown, fun b hb => by cases hb⟩
  | @entry b hb hdot =>
    rcases h.liveEntry hwf hb hdot with hn | ⟨hb₀, hk, hnode, hname⟩
    · obtain ⟨m, hm, hown, hcov⟩ := hnew b hn
      exact ⟨m, hm, hown, fun b' hb' _ => Option.some.inj hb' ▸ hcov⟩
    · rw [entryIsDot, hname] at hdot
      obtain ⟨l, m, hl, hm, hlen, hown⟩ := hkept (.entry hb₀ hdot) hk
      rw [entryCluster, hnode]
      refine ⟨m, hm, hown, fun b' hb' hfile => ?_⟩
      cases hb'
      rw [entryIsDir, hnode] at hfile
      rw [entrySize, hnode]
      exact (hwf.covers_mul hb₀ hdot hfile hl).trans (Nat.mul_le_mul_right _ hlen)

omit hwf in
theorem liveDir_forward (hup : ∀ o c slots b, sb.LiveDir d o c → sb.DirSlots d c slots →
      b ∈ liveSlots d slots → entryIsDot d b = false → keep o)
    (hd : sb.LiveDir d o c) (ho : keep o) : sb.LiveDir d' o c := by
  induction hd with
  | root => exact .root
  | @sub o c b slots hd hs hb hbdir hbdot hbne ih =>
    have hk := hup o c slots b hd hs hb hbdot
    obtain ⟨slots', hs', -, hforth⟩ := h.dirs o c slots hd hk hs
    obtain ⟨hb', hnode, hname⟩ := hforth b hb ho
    rw [entryCluster, ← hnode] at hbne ⊢
    rw [entryIsDir, ← hnode] at hbdir
    rw [entryIsDot, ← hname] at hbdot
    exact .sub (ih hk) hs' hb' hbdir hbdot hbne

end TreeFrame

end FatSuper

end CfKernel.Fat
