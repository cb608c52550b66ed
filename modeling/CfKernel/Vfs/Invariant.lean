import CfKernel.Vfs.File

/-!
# The invariant of the open files

Each open file is the root, a directory as its entry shows it, or a vnode that is attached to the
entry its path leads to; chains of vnodes on different entries are disjoint. From this follows that
open files on one path agree.
-/

namespace CfKernel.Vfs

open Lib Lib.Eff Fat

variable {sb : FatSuper} {d d' : Disk} {st t : VfsState} {f g : OpenFile} {node : FatNode}
variable {i j a b : Nat} {l m : List Nat} {o : Option Nat}

/-- The open file stands for what its path leads to. -/
structure Backed (sb : FatSuper) (d : Disk) (f : OpenFile) : Prop where
  noDots : NoDots f.path
  cases : (components f.path = [] ∧ f.node = fatRootNode sb) ∨
    ∃ a, sb.Finds d (fatRootNode sb) (components f.path) a ∧
      ((f.node.isDir = true ∧ f.node = nodeAt d a) ∨ ∃ l, sb.Opened d f.node a l)

structure VfsInv (sb : FatSuper) (st : VfsState) : Prop where
  wf : sb.WellFormed st.fat.disk
  backed : ∀ i f, st.file i = some f → Backed sb st.fat.disk f
  apart : ∀ i j f g a b l m, st.file i = some f → st.file j = some g →
    sb.Opened st.fat.disk f.node a l → sb.Opened st.fat.disk g.node b m → a ≠ b →
    ∀ x ∈ l, x ∉ m

theorem Backed.isDir_or (h : Backed sb d f) : f.node.isDir = true ∨ ∃ a l,
    sb.Finds d (fatRootNode sb) (components f.path) a ∧ sb.Opened d f.node a l := by
  rcases h.cases with ⟨-, hroot⟩ | ⟨a, hf, ⟨hdir, -⟩ | ⟨l, ho⟩⟩
  · exact .inl (by rw [hroot, FatSuper.fatRootNode_isDir])
  · exact .inl hdir
  · exact .inr ⟨a, l, hf, ho⟩

theorem Backed.same (hf : Backed sb d f) (hg : Backed sb d g)
    (hpath : components f.path = components g.path) : f.node = g.node ∨
      ∃ a l m, sb.Opened d f.node a l ∧ sb.Opened d g.node a m := by
  rcases hf.cases with ⟨hnil, hroot⟩ | ⟨a, hfind, hfa⟩
  · rcases hg.cases with ⟨-, hroot'⟩ | ⟨b, hfind', -⟩
    · exact .inl (hroot.trans hroot'.symm)
    · rw [← hpath, hnil] at hfind'
      exact absurd hfind' FatSuper.not_finds_nil
  · rcases hg.cases with ⟨hnil, -⟩ | ⟨b, hfind', hgb⟩
    · rw [hpath, hnil] at hfind
      exact absurd hfind FatSuper.not_finds_nil
    · rw [← hpath] at hfind'
      cases hfind.unique hfind'
      rcases hfa with ⟨hdir, hfn⟩ | ⟨l, hfo⟩
      · rcases hgb with ⟨-, hgn⟩ | ⟨m, hgo⟩
        · exact .inl (hfn.trans hgn.symm)
        · rw [hfn] at hdir
          exact absurd (hgo.attached.isFile.symm.trans hdir) (by decide)
      · rcases hgb with ⟨hdir, hgn⟩ | ⟨m, hgo⟩
        · rw [hgn] at hdir
          exact absurd (hfo.attached.isFile.symm.trans hdir) (by decide)
        · exact .inr ⟨a, l, m, hfo, hgo⟩

/-- The chain of an open vnode is its entry's, empty, or that of an attached vnode. -/
theorem Backed.reached (hwf : sb.WellFormed d) (hb : Backed sb d f) :
    ∃ l, sb.Chain d f.node.firstCluster l ∧ ((∃ c, sb.Holder d (vnodeSlot f.node) c ∧
      sb.Chain d c l) ∨ l = [] ∨ ∃ a, sb.Opened d f.node a l) := by
  rcases hb.cases with ⟨-, hroot⟩ | ⟨a, hfind, ⟨-, hnode⟩ | ⟨l, ho⟩⟩
  · rw [hroot, vnodeSlot_root]
    by_cases ht : sb.type = .fat32
    · obtain ⟨l, hl⟩ := hwf.chain _ _ (.root ht)
      refine ⟨l, ?_, .inl ⟨_, .root ht, hl⟩⟩
      rwa [fatRootNode, if_pos ht]
    · refine ⟨[], ?_, .inr (.inl rfl)⟩
      rw [fatRootNode, if_neg ht]
      exact rfl
  · obtain ⟨hlive, hdot⟩ := hfind.liveEntry hb.noDots
    obtain ⟨l, hl⟩ := hwf.chain _ _ (.entry hlive hdot)
    rw [hnode, vnodeSlot_nodeAt]
    exact ⟨l, hl, .inl ⟨_, .entry hlive hdot, hl⟩⟩
  · exact ⟨l, ho.chain, .inr (.inr ⟨a, ho⟩)⟩

namespace VfsInv

theorem reached (h : VfsInv sb st) (hr : Reached sb st o l) :
    (∃ c, sb.Holder st.fat.disk o c ∧ sb.Chain st.fat.disk c l) ∨ l = [] ∨
      ∃ i f a, st.file i = some f ∧ o = some a ∧ sb.Opened st.fat.disk f.node a l := by
  cases hr with
  | entry hh hl => exact .inl ⟨_, hh, hl⟩
  | vnode hf hl =>
    obtain ⟨l', hl', hc⟩ := (h.backed _ _ hf).reached h.wf
    cases hl.unique hl'
    rcases hc with hc | hc | ⟨a, ho⟩
    · exact .inl hc
    · exact .inr (.inl hc)
    · exact .inr (.inr ⟨_, _, a, hf, ho.slot, ho⟩)

theorem coherent (h : VfsInv sb st) : Coherent sb st where
  size i j f g hf hg hpath := by
    rcases (h.backed i f hf).same (h.backed j g hg) hpath with heq | ⟨a, l, m, hfo, hgo⟩
    · rw [heq]
    · rw [hfo.size_eq, hgo.size_eq]
  contents i j f g hf hg hpath hfile := by
    rcases (h.backed i f hf).isDir_or with hdir | ⟨a, l, hfind, hfo⟩
    · exact absurd (hfile.symm.trans hdir) (by decide)
    · obtain ⟨hlive, hdot⟩ := hfind.liveEntry (h.backed i f hf).noDots
      obtain ⟨k, hk⟩ := h.wf.chain _ _ (.entry hlive hdot)
      refine ⟨_, hfo.observes ⟨k, hk, rfl⟩, ?_⟩
      rcases (h.backed i f hf).same (h.backed j g hg) hpath with heq | ⟨b, l', m, hfo', hgo⟩
      · rw [← heq]
        exact hfo.observes ⟨k, hk, rfl⟩
      · obtain ⟨rfl, -⟩ := hfo.unique hfo'
        exact hgo.observes ⟨k, hk, rfl⟩
  chained i f hf := by
    obtain ⟨l, hl, -⟩ := (h.backed i f hf).reached h.wf
    exact ⟨l, hl⟩
  apart o o' l m hl hm hne x hx hxm := by
    rcases h.reached hl with ⟨c, hh, hl⟩ | rfl | ⟨i, f, a, hf, rfl, hfo⟩
    · rcases h.reached hm with ⟨c', hh', hm⟩ | rfl | ⟨j, g, b, -, rfl, hgo⟩
      · exact h.wf.disjoint _ _ _ _ _ _ hh hh' hne hl hm hx hxm
      · cases hxm
      · exact hgo.attached.mine x hxm _ _ _ hh hne hl hx
    · cases hx
    · rcases h.reached hm with ⟨c', hh', hm⟩ | rfl | ⟨j, g, b, hg, rfl, hgo⟩
      · exact hfo.attached.mine x hx _ _ _ hh' hne.symm hm hxm
      · cases hxm
      · exact h.apart _ _ _ _ _ _ _ _ hf hg hfo hgo (by simpa using hne) x hx hxm

end VfsInv

end CfKernel.Vfs
