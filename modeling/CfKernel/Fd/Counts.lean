import CfKernel.Fd.Table
import CfKernel.Ramfs.TreeRun

/-!
# Reference counts

Every `struct file` counts the slots that hold it, and every vnode the files that are open on it
and its node's place in the tree. Within a system call a file may be counted once more for the
call itself: `Inv owed k` allows `owed f` such references to `f`.
-/

namespace CfKernel.Fd

open Lib Lib.Eff Fat Ramfs Function

def Kernel.openOn (k : Kernel) (v : Nat) : Nat := k.files.count fun x => x.vn == v

def FdEntry.holds (f : Nat) (e : FdEntry) : Bool := e.used && e.file == f

def Kernel.slots (k : Kernel) (f : Nat) : Nat := entryCount k.fds (FdEntry.holds f)

structure Inv (owed : Nat → Nat) (k : Kernel) : Prop where
  sound : Sound k.root k.openOn k.tree
  count : ∀ f x, k.files.cell f = some x → x.refcount = k.slots f + owed f ∧ 0 < x.refcount
  dead : ∀ f, k.files.cell f = none → k.slots f = 0 ∧ owed f = 0
  unused : ∀ i, k.tablesUsed i.1 = false → (k.fds i).used = false

variable {k k' : Kernel} {owed : Nat → Nat} {f v : Nat} {x : OpenFile} {pid : Pid}
variable {i : Pid × Fin fdMax} {e : FdEntry}

section Files

section

variable (h : k.files.cell f = some x)
include h

theorem loadFile : (files.load f : KernelM _) k = (.ok x, k) :=
  Field.load_run (l := files) h

theorem storeFile (g : OpenFile → OpenFile) :
    (files.store f g : KernelM Unit) k = (.ok (), { k with files := k.files.edit f g }) :=
  Field.store_run (l := files) h g

theorem freeFile :
    (files.release f : KernelM Unit) k = (.ok (), { k with files := k.files.free f }) :=
  Field.release_run (l := files) h

end

theorem onTree {α : Type} {m : TreeM α} {r : Except (Trap Errno) α} {t : Tree}
    (h : m k.tree = (r, t)) : tree.zoom m k = (r, { k with tree := t }) :=
  Field.zoom_run (l := tree) h

theorem Inv.live_of_owed (h : Inv owed k) (hf : 0 < owed f) : ∃ x, k.files.cell f = some x := by
  by_contra hnone
  have hdead := (h.dead f (Option.eq_none_iff_forall_ne_some.mpr fun x hx => hnone ⟨x, hx⟩)).2
  omega

theorem Inv.live_of_used (h : Inv owed k) (hi : (k.fds i).used = true) :
    ∃ x, k.files.cell (k.fds i).file = some x := by
  by_contra hnone
  have hdead := (h.dead _ (Option.eq_none_iff_forall_ne_some.mpr fun x hx => hnone ⟨x, hx⟩)).1
  have hpos : 0 < k.slots (k.fds i).file := entryCount_pos (i := i) (by simp [FdEntry.holds, hi])
  omega

theorem openOn_pos (hx : k.files.cell f = some x) : 0 < k.openOn x.vn :=
  Heap.count_pos hx (beq_self_eq_true x.vn)

theorem openOn_edit (hx : k.files.cell f = some x) {g : OpenFile → OpenFile}
    (hg : (g x).vn = x.vn) : { k with files := k.files.edit f g }.openOn = k.openOn := by
  funext v
  have hcount := Heap.count_edit hx g fun y => y.vn == v
  rw [hg, Nat.add_right_cancel_iff] at hcount
  exact hcount

theorem Inv.recount {g : OpenFile → OpenFile} {m : Nat} (h : Inv owed k)
    (hx : k.files.cell f = some x) (hvn : (g x).vn = x.vn)
    (hcount : (g x).refcount = k.slots f + m) (hpos : 0 < (g x).refcount) :
    Inv (update owed f m) { k with files := k.files.edit f g } := by
  constructor
  case sound =>
    rw [openOn_edit hx hvn]
    exact h.sound
  case count =>
    intro a y hy
    rw [Heap.cell_edit hx] at hy
    rcases update_at_iff.mp hy with ⟨rfl, ⟨⟩⟩ | ⟨ha, hy⟩
    · rw [update_self]
      exact ⟨hcount, hpos⟩
    · rw [update_of_ne ha]
      exact h.count a y hy
  case dead =>
    intro a ha
    rw [Heap.cell_edit hx] at ha
    obtain ⟨-, ⟨⟩⟩ | ⟨hne, ha⟩ := update_at_iff.mp ha
    rw [update_of_ne hne]
    exact h.dead a ha
  case unused => exact h.unused

theorem Inv.fileRef_run (h : Inv owed k) (hx : k.files.cell f = some x) :
    ∃ k', fileRef f k = (.ok (), k') ∧ Inv (update owed f (owed f + 1)) k' ∧
      k'.fds = k.fds ∧ k'.tablesUsed = k.tablesUsed := by
  refine ⟨_, storeFile hx _, h.recount hx rfl ?_ (Nat.succ_pos _), rfl, rfl⟩
  change x.refcount + 1 = _
  rw [(h.count f x hx).1]
  omega

theorem Inv.closeFile (h : Inv owed k) (hx : k.files.cell f = some x) (hslots : k.slots f = 0)
    (howed : owed f = 1) :
    ∃ k', (dropVnode x.vn >>= fun _ => files.release f : KernelM Unit) k = (.ok (), k') ∧
      Inv (update owed f 0) k' ∧ k'.fds = k.fds ∧ k'.tablesUsed = k.tablesUsed := by
  have hpos := openOn_pos hx
  obtain ⟨t, hrun, ht⟩ := h.sound.vnodeUnref hpos
  have hne : x.vn ≠ 0 := by
    intro h0
    obtain ⟨kids, hwf⟩ := h.sound.wellFormed
    have := hwf.refs.dead x.vn (by rw [h0]; exact k.tree.vnodes.cell_zero)
    omega
  have hdrop : dropVnode x.vn k = (.ok (), { k with tree := t }) := by
    rw [dropVnode, if_neg hne, onTree hrun]
  refine ⟨{ k with tree := t, files := k.files.free f }, ?_, ?_, rfl, rfl⟩
  · rw [bind_ok hdrop]
    exact freeFile (k := { k with tree := t }) hx
  constructor
  case sound =>
    have hopen : { k with tree := t, files := k.files.free f }.openOn =
        update k.openOn x.vn (k.openOn x.vn - 1) := by
      funext v
      have hcount := Heap.count_free hx fun y => y.vn == v
      by_cases hv : v = x.vn
      · subst hv
        rw [if_pos (beq_self_eq_true x.vn)] at hcount
        rw [update_self]
        exact Nat.eq_sub_of_add_eq hcount
      · rw [if_neg (by simpa using Ne.symm hv)] at hcount
        rw [update_of_ne hv]
        exact hcount
    rw [hopen]
    exact ht
  case count =>
    intro a y hy
    obtain ⟨-, ⟨⟩⟩ | ⟨ha, hy⟩ := update_at_iff.mp hy
    rw [update_of_ne ha]
    exact h.count a y hy
  case dead =>
    intro a ha
    rcases update_at_iff.mp ha with ⟨rfl, -⟩ | ⟨haf, ha⟩
    · rw [update_self]
      exact ⟨hslots, rfl⟩
    · rw [update_of_ne haf]
      exact h.dead a ha
  case unused => exact h.unused

theorem Inv.fileUnref_run (h : Inv owed k) (hf : 0 < owed f) :
    ∃ k', fileUnref f k = (.ok (), k') ∧ Inv (update owed f (owed f - 1)) k' ∧
      k'.fds = k.fds ∧ k'.tablesUsed = k.tablesUsed := by
  obtain ⟨x, hx⟩ := h.live_of_owed hf
  have hcount := (h.count f x hx).1
  rw [fileUnref, bind_ok (loadFile hx)]
  by_cases hlast : x.refcount ≤ 1
  · have howed : owed f = 1 := by omega
    rw [if_pos hlast, vfsClose, bind_ok (loadFile hx), if_neg (by omega), howed]
    exact h.closeFile hx (by omega) howed
  · rw [if_neg hlast]
    refine ⟨_, storeFile hx _, h.recount hx rfl ?_ ?_, rfl, rfl⟩
    · change x.refcount - 1 = _
      omega
    · change 0 < x.refcount - 1
      omega

end Files

section Slots

theorem Inv.setEntry_run (h : Inv owed k) (owed' : Nat → Nat) (hi : k.tablesUsed i.1 = true)
    (howed : ∀ f, owed' f + (if e.holds f then 1 else 0) =
      owed f + if (k.fds i).holds f then 1 else 0) :
    setEntry i e k = (.ok (), { k with fds := update k.fds i e }) ∧
      Inv owed' { k with fds := update k.fds i e } := by
  have hsum : ∀ f, entryCount (update k.fds i e) (FdEntry.holds f) + owed' f =
      k.slots f + owed f := by
    intro f
    have hslots := entryCount_update k.fds (FdEntry.holds f) i e
    have := howed f
    rw [Kernel.slots]
    omega
  refine ⟨rfl, h.sound, ?_, ?_, ?_⟩
  · intro f x hx
    obtain ⟨hcount, hpos⟩ := h.count f x hx
    exact ⟨hcount.trans (hsum f).symm, hpos⟩
  · intro f hf
    have hdead := h.dead f hf
    have := hsum f
    change entryCount (update k.fds i e) (FdEntry.holds f) = 0 ∧ _
    omega
  · intro j hj
    have hji : j ≠ i := by
      rintro rfl
      rw [hi] at hj
      cases hj
    change (update k.fds i e j).used = false
    rw [update_of_ne hji]
    exact h.unused j hj

theorem holds_unused (hi : e.used = false) (f : Nat) : e.holds f = false := by
  rw [FdEntry.holds, hi, Bool.false_and]

theorem Inv.installFile_run (h : Inv owed k) (hx : k.files.cell f = some x)
    (hfree : (k.fds i).used = false) (hi : k.tablesUsed i.1 = true) :
    ∃ k', installFile i f k = (.ok (), k') ∧ Inv owed k' ∧ k'.tablesUsed = k.tablesUsed := by
  obtain ⟨k₁, hrun, hinv, hfds, hused⟩ := h.fileRef_run hx
  rw [← hused] at hi
  rw [← hfds] at hfree
  obtain ⟨hrun', hinv'⟩ := hinv.setEntry_run owed (e := ⟨f, true⟩) hi (by
    intro g
    rw [holds_unused hfree g, if_neg Bool.false_ne_true, Nat.add_zero]
    by_cases hg : g = f
    · subst hg
      rw [update_self, if_pos (by simp [FdEntry.holds])]
    · rw [update_of_ne hg, if_neg (by simpa [FdEntry.holds] using Ne.symm hg), Nat.add_zero])
  refine ⟨_, ?_, hinv', hused⟩
  rw [installFile, bind_ok hrun, hrun']

theorem Inv.closeEntry_run (h : Inv owed k) (hi : (k.fds i).used = true) :
    ∃ k', closeEntry i (k.fds i).file k = (.ok (), k') ∧ Inv owed k' ∧
      k'.fds = update k.fds i ⟨0, false⟩ ∧ k'.tablesUsed = k.tablesUsed := by
  have htable : k.tablesUsed i.1 = true := by
    by_contra hnot
    have := h.unused i (by simpa using hnot)
    rw [hi] at this
    cases this
  obtain ⟨hrun, hinv⟩ := h.setEntry_run
    (update owed (k.fds i).file (owed (k.fds i).file + 1)) (e := ⟨0, false⟩) htable (by
      intro g
      rw [holds_unused rfl g, if_neg Bool.false_ne_true, Nat.add_zero]
      by_cases hg : g = (k.fds i).file
      · rw [hg, update_self, if_pos (by simp [FdEntry.holds, hi])]
      · rw [update_of_ne hg, if_neg (by simpa [FdEntry.holds, hi] using Ne.symm hg), Nat.add_zero])
  obtain ⟨k', hrun', hinv', hfds, hused⟩ := hinv.fileUnref_run (f := (k.fds i).file)
    (by rw [update_self]; exact Nat.succ_pos _)
  refine ⟨k', ?_, ?_, hfds, hused⟩
  · rw [closeEntry, bind_ok hrun, hrun']
  · rwa [update_self, Nat.add_sub_cancel, update_idem, update_eq_self] at hinv'

theorem fdFindFree_spec {fd : Fin fdMax} (h : fdFindFree pid k = some fd) :
    (k.fds (pid, fd)).used = false := by
  have hfree := List.find?_some h
  rw [Bool.and_eq_true, Bool.not_eq_true'] at hfree
  exact hfree.2

theorem Inv.fdAlloc_run (h : Inv owed k) (hx : k.files.cell f = some x)
    (hpid : k.tablesUsed pid = true) : (∃ e, fdAlloc pid f k = (.error (.code e), k)) ∨
    ∃ fd k', fdAlloc pid f k = (.ok fd, k') ∧ Inv owed k' := by
  rw [fdAlloc, bind_run]
  change (∃ e, andThen _ (.ok (fdFindFree pid k), k) = _) ∨
    ∃ fd k', andThen _ (.ok (fdFindFree pid k), k) = _ ∧ _
  cases hfree : fdFindFree pid k with
  | none => exact .inl ⟨_, rfl⟩
  | some fd =>
    obtain ⟨k', hrun, hinv, -⟩ := h.installFile_run hx (fdFindFree_spec hfree) hpid
    refine .inr ⟨fd, k', ?_, hinv⟩
    rw [andThen_ok]
    exact bind_ok hrun

theorem Inv.fdCloseAt_run (h : Inv owed k) (i : Pid × Fin fdMax) :
    fdCloseAt i k = (.error (.code .badFileDescriptor), k) ∧ (k.fds i).used = false ∨
    ∃ k', fdCloseAt i k = (.ok (), k') ∧ Inv owed k' ∧
      k'.fds = update k.fds i ⟨0, false⟩ ∧ k'.tablesUsed = k.tablesUsed := by
  have hrun : fdCloseAt i k = (if (k.fds i).used = false then failWith .badFileDescriptor
    else closeEntry i (k.fds i).file) k := rfl
  rw [hrun]
  split_ifs with hi
  · exact .inl ⟨rfl, hi⟩
  · exact .inr (h.closeEntry_run (by simpa using hi))

end Slots

end CfKernel.Fd
