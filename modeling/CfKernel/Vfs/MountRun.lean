import CfKernel.Lib.Run
import CfKernel.Vfs.Mount

/-!
# Runs of mounts and unmounts

`Effect` says once what a call does to the list of mounts and to the root. A failed mount has at
most linked its own node to itself, so the list is what it was.
-/

namespace CfKernel.Vfs.Mounts

open Lib Lib.Eff Function

/-- A 32-bit address other than `NULL`. -/
def InRange (a : Nat) : Prop := 0 < a ∧ a < turns

/-- What a call does to the list and to the root. -/
inductive Effect (l : List (Nat × Mount)) (root : Nat) :
    Except (Trap MountError) Unit → List (Nat × Mount) → Nat → Prop where
  | refused (e : MountError) : Effect l root (.error (.code e)) l root
  | mounted (x : Nat × Mount) : InRange x.1 → (∀ y ∈ l, y.2.target ≠ x.2.target) →
      Effect l root (.ok ()) (l ++ [x]) (if x.2.target = slash then x.2.rootVnode else root)
  | unmounted {l₁ l₂ : List (Nat × Mount)} (x : Nat × Mount) : l = l₁ ++ x :: l₂ →
      Effect l root (.ok ()) (l₁ ++ l₂) (if root = x.2.rootVnode then 0 else root)

section Calls

/-- The mount at `a` is in memory and not on the list. -/
structure Pending (s : MountTable) (l : List (Nat × Mount)) (root a : Nat) (m : Mount) : Prop where
  listed : Listed s l
  root_eq : s.root = root
  mount : s.mounts a = some m
  fresh : ∀ x ∈ l, x.1 ≠ a

variable {s : MountTable} {l l₁ l₂ : List (Nat × Mount)} {root a : Nat} {m m' : Mount}
variable {fst : FsType} {source target : List UInt8} {o : MountOutcome}

section

variable (h : Pending s l root a m)
include h

theorem Pending.edit : Pending { s with mounts := update s.mounts a (some m') } l root a m' :=
  ⟨h.listed.congr h.fresh (fun _ _ => ⟨rfl, rfl⟩) fun _ hb => update_of_ne hb _ _,
    h.root_eq, update_self _ _ _, h.fresh⟩

theorem Pending.abandon_run (e : MountError) :
    ∃ s', abandon a e s = (.error (.code e), s') ∧ Listed s' l ∧ s'.root = root := by
  refine ⟨{ s with mounts := update s.mounts a none }, ?_,
    h.listed.congr h.fresh (fun _ _ => ⟨rfl, rfl⟩) fun _ hb => update_of_ne hb _ _,
    h.root_eq⟩
  rw [abandon, bind_ok (freeMount_run h.mount), fail_run]

theorem Pending.runOperation_cases (present : Bool) (r : Int) (v : Nat) :
    (∃ e s', runOperation present a r v s = (.error (.code e), s') ∧
      Listed s' l ∧ s'.root = root) ∨
    ∃ w s', runOperation present a r v s = (.ok (), s') ∧
      Pending s' l root a { m with rootVnode := w } := by
  rw [runOperation]
  by_cases hp : present = true
  · rw [if_pos hp]
    by_cases hr : r ≠ 0
    · rw [if_pos hr]
      obtain ⟨s', hs', hl⟩ := h.abandon_run (.operation r)
      exact .inl ⟨_, s', hs', hl⟩
    · rw [if_neg hr]
      exact .inr ⟨v, _, editMount_run h.mount _, h.edit⟩
  · rw [if_neg hp]
    exact .inr ⟨m.rootVnode, s, rfl, h⟩

theorem Pending.linkBefore_run :
    ∃ s', (lists.linkBefore .mounts (.mount a) : MountM Unit) s = (.ok (), s') ∧
      Listed s' (l ++ [(a, m)]) ∧ s'.root = root := by
  have hnot : LinkRef.mount a ∉ LinkRef.mounts :: mountNodes l := by
    intro hmem
    rcases List.mem_cons.mp hmem with he | hmem
    · cases he
    · obtain ⟨x, hx, he⟩ := mem_mountNodes.mp hmem
      exact h.fresh x hx (LinkRef.mount.inj he).symm
  have hvalid : ∀ y ∈ LinkRef.mount a :: .mounts :: mountNodes l, lists.valid s y = true := by
    intro y hy
    rcases List.mem_cons.mp hy with rfl | hy
    · change (s.mounts a).isSome = true
      rw [h.mount, Option.isSome_some]
    · exact h.listed.valid y hy
  obtain ⟨L, hrun, hring, -⟩ := lists.linkBefore_run (ε := MountError) h.listed.ring hnot hvalid
  refine ⟨{ s with links := L }, hrun, ⟨?_, ?_⟩, h.root_eq⟩
  · rw [mountNodes_append]
    exact hring
  · intro x hx
    rcases List.mem_append.mp hx with hx | hx
    · exact h.listed.mount x hx
    · rw [List.mem_singleton.mp hx]
      exact h.mount

end

theorem updateRoot_run (h : s.mounts a = some m) : updateRoot target a s =
    (.ok (), { s with root := if target = slash then m.rootVnode else s.root }) := by
  rw [updateRoot]
  by_cases ht : target = slash
  · rw [if_pos ht, if_pos ht, getRoot, bind_run, Eff.read, andThen_ok, bind_ok (loadMount_run h)]
    by_cases hz : s.root = 0
    · rw [if_pos hz]
      rfl
    · rw [if_neg hz]
      by_cases hv : s.root ≠ m.rootVnode
      · rw [if_pos hv]
        rfl
      · rw [if_neg hv, pure_run, ← not_not.mp hv]
  · rw [if_neg ht, if_neg ht, pure_run]

theorem clearRoot_run (v : Nat) :
    clearRoot v s = (.ok (), { s with root := if s.root = v then 0 else s.root }) := by
  rw [clearRoot, getRoot, bind_run, Eff.read, andThen_ok]
  by_cases hv : s.root = v
  · rw [if_pos hv, if_pos hv]
    rfl
  · rw [if_neg hv, if_neg hv, pure_run]

/-- The result and the state of a call do to the list and the root what `Effect` allows. -/
def Does (l : List (Nat × Mount)) (root : Nat) (p : Except (Trap MountError) Unit × MountTable) :
    Prop :=
  ∃ l', Listed p.2 l' ∧ Effect l root p.1 l' p.2.root

theorem does_refused (h : Listed s l) (hroot : s.root = root) (e : MountError) :
    Does l root (.error (.code e), s) := by
  refine ⟨l, h, ?_⟩
  rw [hroot]
  exact .refused e

theorem Pending.link_does (h : Pending s l root a m) (ha : InRange a)
    (hnew : ∀ y ∈ l, y.2.target ≠ m.target) :
    Does l root ((do
      lists.linkBefore .mounts (.mount a)
      updateRoot m.target a : MountM Unit) s) := by
  obtain ⟨s₁, hrun, hlist, hroot⟩ := h.linkBefore_run
  have hm : s₁.mounts a = some m := hlist.mount (a, m) (by simp)
  rw [bind_ok hrun, updateRoot_run hm]
  refine ⟨l ++ [(a, m)], ⟨hlist.ring, hlist.mount⟩, ?_⟩
  rw [hroot]
  exact .mounted (a, m) ha hnew

theorem addMount_does (h : Listed s l) (ha : s.mounts a = none) (hrange : InRange a)
    (hnew : ∀ y ∈ l, y.2.target ≠ target) (source : Option (List UInt8)) :
    Does l s.root (addMount fst source target a o s) := by
  have hfresh : ∀ x ∈ l, x.1 ≠ a := by
    rintro x hx rfl
    rw [h.mount x hx] at ha
    cases ha
  obtain ⟨m, hm⟩ : ∃ m : Mount, m = ⟨fst, 0, source.getD [], target⟩ := ⟨_, rfl⟩
  have hpend : Pending { s with mounts := update s.mounts a (some m) } l s.root a m :=
    ⟨h.congr hfresh (fun _ _ => ⟨rfl, rfl⟩) fun _ hb => update_of_ne hb _ _, rfl,
      update_self _ _ _, hfresh⟩
  obtain ⟨s₁, hs₁⟩ : ∃ s₁, s₁ = { s with mounts := update s.mounts a (some m) } :=
    ⟨_, rfl⟩
  rw [addMount, ← hm, setMount, bind_run, modify_run, andThen_ok, ← hs₁]
  rw [← hs₁] at hpend
  split
  · obtain ⟨s', hs', hl, hr⟩ := hpend.abandon_run (.errno .outOfMemory)
    rw [hs']
    exact does_refused hl hr _
  have hvalid : lists.valid s₁ (.mount a) = true := by
    change (s₁.mounts a).isSome = true
    rw [hpend.mount, Option.isSome_some]
  rw [bind_ok (lists.linkInit_run hvalid)]
  have hpend₂ : Pending (lists.links.set ((lists.links.get s₁).alone (.mount a)) s₁) l s.root a m :=
    ⟨hpend.listed.congr hfresh LinkStore.sameOutside_alone fun _ _ => rfl, hpend.root_eq,
      hpend.mount, hfresh⟩
  -- each operation either gives the mount up or stores a root vnode in it
  rcases hpend₂.runOperation_cases fst.mountOp o.mount o.mountRoot with
    ⟨e, s₃, hs₃, hl, hr⟩ | ⟨v, s₃, hs₃, hpend₃⟩
  · rw [bind_run, runMount, hs₃, andThen_error]
    exact does_refused hl hr e
  rw [bind_run, runMount, hs₃, andThen_ok]
  rcases hpend₃.runOperation_cases fst.rootVnodeOp o.rootVnode o.outRoot with
    ⟨e, s₄, hs₄, hl, hr⟩ | ⟨w, s₄, hs₄, hpend₄⟩
  · rw [bind_run, runRootVnode, hs₄, andThen_error]
    exact does_refused hl hr e
  rw [bind_run, runRootVnode, hs₄, andThen_ok]
  have htarget : m.target = target := by rw [hm]
  have hdoes := hpend₄.link_does hrange (by simpa only [htarget] using hnew)
  simpa only [htarget] using hdoes

theorem removeMount_does (h : Listed s (l₁ ++ (a, m) :: l₂)) (r : Int) :
    Does (l₁ ++ (a, m) :: l₂) s.root (removeMount a r s) := by
  have hm : s.mounts a = some m := h.mount (a, m) (by simp)
  rw [removeMount, bind_ok (loadMount_run hm)]
  split_ifs with hr
  · rw [fail_run]
    exact does_refused h rfl _
  rw [bind_run, clearRoot_run, andThen_ok]
  obtain ⟨s₁, hs₁⟩ : ∃ s₁ : MountTable,
    s₁ = { s with root := if s.root = m.rootVnode then 0 else s.root } := ⟨_, rfl⟩
  have hlist : Listed s₁ (l₁ ++ (a, m) :: l₂) := by
    rw [hs₁]
    exact ⟨h.ring, h.mount⟩
  have hring : (lists.links.get s₁).Ring .mounts (mountNodes l₁ ++ .mount a :: mountNodes l₂) := by
    have := hlist.ring
    rwa [mountNodes_append] at this
  have hvalid := hlist.valid
  rw [mountNodes_append] at hvalid
  obtain ⟨L, hrun, hring', -⟩ := lists.linkRemove_run (ε := MountError) hring hvalid
  have hm₁ : (lists.links.set L s₁).mounts a = some m := hlist.mount (a, m) (by simp)
  rw [← hs₁, bind_ok hrun, freeMount_run hm₁]
  have hnodup := h.nodup
  rw [List.map_append, List.map_cons, List.nodup_append] at hnodup
  refine ⟨l₁ ++ l₂, ⟨?_, fun x hx => ?_⟩, ?_⟩
  · rw [mountNodes_append]
    exact hring'
  · have hxa : x.1 ≠ a := by
      rintro rfl
      rcases List.mem_append.mp hx with hx | hx
      · exact hnodup.2.2 x.1 (List.mem_map_of_mem hx) x.1 List.mem_cons_self rfl
      · exact (List.nodup_cons.mp hnodup.2.1).1 (List.mem_map.mpr ⟨x, hx, rfl⟩)
    have hx' : x ∈ l₁ ++ (a, m) :: l₂ := by
      rcases List.mem_append.mp hx with hx | hx
      · exact List.mem_append_left _ hx
      · exact List.mem_append_right _ (List.mem_cons_of_mem _ hx)
    exact (update_of_ne hxa _ _).trans (hlist.mount x hx')
  · subst hs₁
    exact .unmounted (a, m) rfl

end Calls

inductive MountRequest where
  | mount (fst : Option FsType) (source target : Option (List UInt8)) (o : MountOutcome)
  | unmount (target : Option (List UInt8)) (r : Int)

def MountRequest.call : MountRequest → MountM Unit
  | .mount fst source target o => mountDoMount fst source target o
  | .unmount target r => mountDoUnmount target r

def MountRequest.step (q : MountRequest) (s : MountTable) : MountTable := (q.call s).2

/-- An allocation that succeeds returns a 32-bit address that is not in use. -/
def Allowed (q : MountRequest) (s : MountTable) : Prop :=
  match q with
  | .mount _ _ _ o => ∀ a, o.calloc = some a → InRange a ∧ s.mounts a = none
  | .unmount _ _ => True

/-- The root is `NULL` or that of the mount at `/`. -/
def RootOf (l : List (Nat × Mount)) (root : Nat) : Prop :=
  root = 0 ∨ ∃ x ∈ l, x.2.target = slash ∧ x.2.rootVnode = root

section Run

variable {s : MountTable} {l l' : List (Nat × Mount)} {root root' : Nat} {q : MountRequest}
variable {r : Except (Trap MountError) Unit} {target : List UInt8}

theorem at?_none (h : at? l target = none) : ∀ y ∈ l, y.2.target ≠ target := by
  intro y hy
  have := List.find?_eq_none.mp h y hy
  simpa only [decide_eq_true_eq] using this

theorem Effect.distinct (h : Effect l root r l' root')
    (hl : (l.map fun x => x.2.target).Nodup) : (l'.map fun x => x.2.target).Nodup := by
  cases h with
  | refused e => exact hl
  | mounted x hx hnew =>
    rw [List.map_append, List.map_singleton, List.nodup_append]
    refine ⟨hl, List.nodup_singleton _, fun t ht u hu => ?_⟩
    obtain ⟨y, hy, rfl⟩ := List.mem_map.mp ht
    rw [List.mem_singleton.mp hu]
    exact hnew y hy
  | unmounted x he =>
    subst he
    exact hl.sublist (((List.sublist_cons_self x _).append_left _).map _)

theorem Effect.bounded (h : Effect l root r l' root') (hl : ∀ x ∈ l, InRange x.1) :
    ∀ x ∈ l', InRange x.1 := by
  cases h with
  | refused e => exact hl
  | mounted x hx hnew =>
    intro y hy
    rcases List.mem_append.mp hy with hy | hy
    · exact hl y hy
    · rw [List.mem_singleton.mp hy]
      exact hx
  | unmounted x he =>
    subst he
    intro y hy
    refine hl y ?_
    rcases List.mem_append.mp hy with hy | hy
    · exact List.mem_append_left _ hy
    · exact List.mem_append_right _ (List.mem_cons_of_mem x hy)

/-- A mount with another target than `/` comes and goes; the one at `/` takes the root along. -/
theorem Effect.rootOf (h : Effect l root r l' root') (hroot : RootOf l root) : RootOf l' root' := by
  cases h with
  | refused e => exact hroot
  | mounted x _ hnew =>
    split_ifs with hx
    · exact .inr ⟨x, by simp, hx, rfl⟩
    · exact hroot.imp_right fun ⟨y, hy, h⟩ => ⟨y, List.mem_append_left _ hy, h⟩
  | @unmounted l₁ l₂ x he =>
    split_ifs with hx
    · exact .inl rfl
    · refine hroot.imp_right fun ⟨y, hy, htarget, hvnode⟩ => ⟨y, ?_, htarget, hvnode⟩
      rw [he, List.mem_append, List.mem_cons] at hy
      rcases hy with hy | rfl | hy
      · exact List.mem_append_left _ hy
      · exact absurd hvnode.symm hx
      · exact List.mem_append_right _ hy

/-- What every call leaves true. -/
structure Kept (s : MountTable) (l : List (Nat × Mount)) : Prop where
  listed : Listed s l
  bounded : ∀ x ∈ l, InRange x.1
  distinct : (l.map fun x => x.2.target).Nodup
  rootOf : RootOf l s.root

theorem Kept.length_lt (h : Kept s l) : l.length < turns := by
  have hlt := Links.addresses_lt (by decide) h.listed.nodup (n := turns) fun a ha => by
    obtain ⟨x, hx, rfl⟩ := List.mem_map.mp ha
    exact h.bounded x hx
  rwa [List.length_map] at hlt

theorem Kept.call_does (h : Kept s l) (hq : Allowed q s) : Does l s.root (q.call s) := by
  have hfail : ∀ e, Does l s.root (failWith e s) := fun e => does_refused h.listed rfl _
  cases q with
  | mount fst source target o =>
    change Does l s.root (mountDoMount fst source target o s)
    cases fst with
    | none => exact hfail _
    | some fst =>
      cases target with
      | none => exact hfail _
      | some target =>
        rw [mountDoMount, bind_ok (findMountByTarget_run h.listed h.length_lt), Option.isSome_map]
        cases hat : at? l target with
        | some x => exact hfail _
        | none =>
          cases ho : o.calloc with
          | none => exact hfail _
          | some a => exact addMount_does h.listed (hq a ho).2 (hq a ho).1 (at?_none hat) source
  | unmount target r =>
    change Does l s.root (mountDoUnmount target r s)
    cases target with
    | none => exact hfail _
    | some target =>
      rw [mountDoUnmount, bind_ok (findMountByTarget_run h.listed h.length_lt)]
      cases hat : at? l target with
      | none => exact hfail _
      | some x =>
        obtain ⟨l₁, l₂, rfl⟩ := List.append_of_mem (List.mem_of_find?_eq_some hat)
        exact removeMount_does h.listed r

theorem mountInit_kept : Kept mountInit [] :=
  ⟨⟨⟨⟨rfl, rfl⟩, List.nodup_singleton _⟩, by simp⟩, by simp, List.nodup_nil, .inl rfl⟩

theorem Kept.step (h : Kept s l) (hq : Allowed q s) : ∃ l', Kept (q.step s) l' := by
  obtain ⟨l', hlist, heffect⟩ := h.call_does hq
  exact ⟨l', hlist, heffect.bounded h.bounded, heffect.distinct h.distinct,
    heffect.rootOf h.rootOf⟩

theorem Kept.failed (h : Kept s l) (hq : Allowed q s) {e : Trap MountError}
    (he : (q.call s).1 = .error e) :
    (∃ c, e = .code c) ∧ Listed (q.step s) l ∧ (q.step s).root = s.root := by
  obtain ⟨l', hlist, heffect⟩ := h.call_does hq
  rw [he] at heffect
  generalize hroot : (q.call s).2.root = root' at heffect
  cases heffect with
  | refused c => exact ⟨⟨c, rfl⟩, hlist, hroot⟩

/-- In every state of every run the targets are different and the root is `NULL` or that of the
mount at `/`; a call that fails changes neither the list nor the root, and none faults. -/
theorem mounts_consistent (h : Reach MountRequest.step Allowed mountInit s) :
    ∃ l, Listed s l ∧ (l.map fun x => x.2.target).Nodup ∧ RootOf l s.root ∧
      ∀ q, Allowed q s → ∀ e, (q.call s).1 = .error e →
        (∃ c, e = .code c) ∧ Listed (q.step s) l ∧ (q.step s).root = s.root := by
  have hkept : ∃ l, Kept s l :=
    h.invariant (fun s => ∃ l, Kept s l) ⟨[], mountInit_kept⟩ fun q s ⟨l, hl⟩ hq => hl.step hq
  obtain ⟨l, hl⟩ := hkept
  exact ⟨l, hl.listed, hl.distinct, hl.rootOf, fun q hq e he => hl.failed hq he⟩

def ramfs : FsType := ⟨true, true, true⟩

/-- Ramfs at `/`, its mount at address 4096 and its root vnode at 8192. -/
def mountRamfs : MountRequest :=
  .mount (some ramfs) none (some slash) ⟨some 4096, true, true, 0, 0, 0, 8192⟩

theorem mountRamfs_allowed : Allowed mountRamfs mountInit := by
  intro a ha
  obtain rfl := Option.some.inj ha
  exact ⟨⟨by decide, by decide⟩, rfl⟩

theorem mountRamfs_reached :
    Reach MountRequest.step Allowed mountInit (mountRamfs.step mountInit) :=
  Reach.step _ Reach.start mountRamfs_allowed

theorem mounts_consistent_ramfs : (mountRamfs.step mountInit).root = 8192 ∧
    ∃ l, Listed (mountRamfs.step mountInit) l ∧ (l.map fun x => x.2.target).Nodup ∧
      RootOf l (mountRamfs.step mountInit).root := by
  obtain ⟨l, hlist, hdistinct, hroot, -⟩ := mounts_consistent mountRamfs_reached
  exact ⟨by decide +kernel, l, hlist, hdistinct, hroot⟩

end Run

end CfKernel.Vfs.Mounts
