import CfKernel.Lib.Heap
import CfKernel.Lib.Ring

/-!
# Intrusive lists in a state

The operations of an intrusive list library on a state that holds the links. `valid` says which
nodes can be accessed: to follow a missing link or one into a node that is not there is a fault. One
state may hold many rings; an operation on one leaves the nodes of the others alone.
-/

namespace CfKernel.Lib

open Function

structure LinkStore (σ ρ : Type) where
  links : Field σ (Links ρ)
  valid : σ → ρ → Bool

namespace LinkStore

variable {ε σ ρ : Type} (S : LinkStore σ ρ)

def deref (r : Option ρ) : Eff (Trap ε) σ ρ := Eff.read fun s =>
  match r with
  | none => .error .fault
  | some x => if S.valid s x then .ok x else .error .fault

def next (x : ρ) : Eff (Trap ε) σ (Option ρ) := do
  let x ← S.deref (some x)
  Eff.read fun s => .ok ((S.links.get s).next x)

def prev (x : ρ) : Eff (Trap ε) σ (Option ρ) := do
  let x ← S.deref (some x)
  Eff.read fun s => .ok ((S.links.get s).prev x)

variable [DecidableEq ρ]

def linkInit (x : ρ) : Eff (Trap ε) σ Unit := do
  let x ← S.deref (some x)
  Eff.modify fun s => S.links.set ((S.links.get s).alone x) s

def linkAfter (a x : ρ) : Eff (Trap ε) σ Unit := do
  let n ← S.next a
  let n ← S.deref n
  let x ← S.deref (some x)
  Eff.modify fun s => S.links.set ((S.links.get s).insert a x n) s

def linkBefore (a x : ρ) : Eff (Trap ε) σ Unit := do
  let p ← S.prev a
  let x ← S.deref (some x)
  let p ← S.deref p
  Eff.modify fun s => S.links.set ((S.links.get s).insert p x a) s

def linkRemove (x : ρ) : Eff (Trap ε) σ Unit := do
  let p ← S.prev x
  let n ← S.next x
  let n ← S.deref n
  let p ← S.deref p
  Eff.modify fun s => S.links.set ((S.links.get s).remove p x n) s

def listIsEmpty (h : ρ) : Eff (Trap ε) σ Bool := do
  let n ← S.next h
  pure (decide (n = some h))

/-- The loop of a search along a list, from node `it` on. -/
def findLoop (h : ρ) (test : ρ → Eff (Trap ε) σ Bool) : Nat → ρ → Eff (Trap ε) σ (Option ρ)
  | 0, _ => Eff.fail .fault
  | n + 1, it =>
    if it = h then pure none else do
      let found ← test it
      if found then pure (some it) else do
        let next ← S.next it
        let next ← S.deref next
        findLoop h test n next

/-- The first node of a list that passes a test, looking at `n` nodes at most. -/
def findEntry (h : ρ) (test : ρ → Eff (Trap ε) σ Bool) (n : Nat) : Eff (Trap ε) σ (Option ρ) := do
  let it ← S.next h
  let it ← S.deref it
  S.findLoop h test n it

variable {S} {s : σ} {h x y : ρ} {l l₁ l₂ : List ρ} {L : Links ρ}

omit [DecidableEq ρ] in
theorem deref_run (hx : S.valid s x = true) :
    (S.deref (some x) : Eff (Trap ε) σ ρ) s = (.ok x, s) := by
  simp only [deref, Eff.read, hx, if_true]

omit [DecidableEq ρ] in
theorem next_run (hx : S.valid s x = true) :
    (S.next x : Eff (Trap ε) σ (Option ρ)) s = (.ok ((S.links.get s).next x), s) := by
  rw [next, Eff.bind_ok (deref_run hx)]
  rfl

omit [DecidableEq ρ] in
theorem prev_run (hx : S.valid s x = true) :
    (S.prev x : Eff (Trap ε) σ (Option ρ)) s = (.ok ((S.links.get s).prev x), s) := by
  rw [prev, Eff.bind_ok (deref_run hx)]
  rfl

theorem linkInit_run (hx : S.valid s x = true) :
    (S.linkInit x : Eff (Trap ε) σ Unit) s =
      (.ok (), S.links.set ((S.links.get s).alone x) s) := by
  rw [linkInit, Eff.bind_ok (deref_run hx), Eff.modify_run]

/-- The links of the nodes outside `l` stay as they are. -/
def SameOutside (l : List ρ) (L L' : Links ρ) : Prop :=
  ∀ y, y ∉ l → L'.next y = L.next y ∧ L'.prev y = L.prev y

omit [DecidableEq ρ] in
theorem SameOutside.ring {L' : Links ρ} {k : ρ} {m : List ρ} (hsame : SameOutside l L L')
    (hr : L.Ring k m) (hapart : ∀ y ∈ k :: m, y ∉ l) : L'.Ring k m :=
  hr.congr (fun y hy => (hsame y (hapart y hy)).1) fun y hy => (hsame y (hapart y hy)).2

theorem sameOutside_alone : SameOutside [x] L (L.alone x) := by
  intro y hy
  have hyx : y ≠ x := fun he => hy (List.mem_singleton.mpr he)
  exact ⟨update_of_ne hyx _ _, update_of_ne hyx _ _⟩

theorem sameOutside_insert {p n : ρ} (hp : p ∈ l) (hx : x ∈ l) (hn : n ∈ l) :
    SameOutside l L (L.insert p x n) := by
  intro y hy
  have hyp : y ≠ p := fun he => hy (he ▸ hp)
  have hyx : y ≠ x := fun he => hy (he ▸ hx)
  have hyn : y ≠ n := fun he => hy (he ▸ hn)
  exact ⟨Links.insert_next_of_ne hyp hyx, Links.insert_prev_of_ne hyn hyx⟩

theorem sameOutside_remove {p n : ρ} (hp : p ∈ l) (hx : x ∈ l) (hn : n ∈ l) :
    SameOutside l L (L.remove p x n) := by
  intro y hy
  have hyp : y ≠ p := fun he => hy (he ▸ hp)
  have hyx : y ≠ x := fun he => hy (he ▸ hx)
  have hyn : y ≠ n := fun he => hy (he ▸ hn)
  exact ⟨Links.remove_next_of_ne hyp hyx, Links.remove_prev_of_ne hyn hyx⟩

/-- Behind the last node before a place and before the first node behind it is the same. -/
theorem insert_run {as bs : List ρ} {p n : ρ} (hr : (S.links.get s).Ring h (l₁ ++ l₂))
    (hx : x ∉ h :: (l₁ ++ l₂)) (hvalid : ∀ y ∈ x :: h :: (l₁ ++ l₂), S.valid s y = true)
    (hp : h :: l₁ = as ++ [p]) (hn : l₂ ++ [h] = n :: bs) :
    ∃ L, (S.linkAfter p x : Eff (Trap ε) σ Unit) s = (.ok (), S.links.set L s) ∧
      (S.linkBefore n x : Eff (Trap ε) σ Unit) s = (.ok (), S.links.set L s) ∧
      L.Ring h (l₁ ++ x :: l₂) ∧ SameOutside (x :: h :: (l₁ ++ l₂)) (S.links.get s) L := by
  obtain ⟨⟨hnext, hprev⟩, hring⟩ := hr.insertAt hx hp hn
  have hpm : p ∈ x :: h :: (l₁ ++ l₂) := by
    have := Links.mem_of_last hp
    simp only [List.mem_cons, List.mem_append] at this ⊢
    tauto
  have hnm : n ∈ x :: h :: (l₁ ++ l₂) := by
    have := Links.mem_of_first hn
    simp only [List.mem_cons, List.mem_append] at this ⊢
    tauto
  have hxm : x ∈ x :: h :: (l₁ ++ l₂) := List.mem_cons_self
  refine ⟨(S.links.get s).insert p x n, ?_, ?_, hring, sameOutside_insert hpm hxm hnm⟩
  · rw [linkAfter, Eff.bind_ok (next_run (hvalid p hpm)), hnext,
      Eff.bind_ok (deref_run (hvalid n hnm)), Eff.bind_ok (deref_run (hvalid x hxm)),
      Eff.modify_run]
  · rw [linkBefore, Eff.bind_ok (prev_run (hvalid n hnm)), hprev,
      Eff.bind_ok (deref_run (hvalid x hxm)), Eff.bind_ok (deref_run (hvalid p hpm)),
      Eff.modify_run]

theorem linkBefore_run (hr : (S.links.get s).Ring h l) (hx : x ∉ h :: l)
    (hvalid : ∀ y ∈ x :: h :: l, S.valid s y = true) :
    ∃ L, (S.linkBefore h x : Eff (Trap ε) σ Unit) s = (.ok (), S.links.set L s) ∧
      L.Ring h (l ++ [x]) ∧ SameOutside (x :: h :: l) (S.links.get s) L := by
  obtain ⟨as, p, hp⟩ := Links.exists_last h l
  rw [← List.append_nil l] at hr hx hvalid
  obtain ⟨L, -, hrun, hring, hsame⟩ := insert_run hr hx hvalid hp rfl
  rw [List.append_nil] at hsame
  exact ⟨L, hrun, hring, hsame⟩

theorem linkAfter_run (hr : (S.links.get s).Ring h l) (hx : x ∉ h :: l)
    (hvalid : ∀ y ∈ x :: h :: l, S.valid s y = true) :
    ∃ L, (S.linkAfter h x : Eff (Trap ε) σ Unit) s = (.ok (), S.links.set L s) ∧
      L.Ring h (x :: l) ∧ SameOutside (x :: h :: l) (S.links.get s) L := by
  obtain ⟨n, bs, hn⟩ := Links.exists_first h l
  have hhead : h :: [] = [] ++ [h] := rfl
  obtain ⟨L, hrun, -, hrest⟩ := insert_run hr hx hvalid hhead hn
  exact ⟨L, hrun, hrest⟩

theorem linkRemove_run (hr : (S.links.get s).Ring h (l₁ ++ x :: l₂))
    (hvalid : ∀ y ∈ h :: (l₁ ++ x :: l₂), S.valid s y = true) :
    ∃ L, (S.linkRemove x : Eff (Trap ε) σ Unit) s = (.ok (), S.links.set L s) ∧
      L.Ring h (l₁ ++ l₂) ∧ SameOutside (h :: (l₁ ++ x :: l₂)) (S.links.get s) L := by
  obtain ⟨p, hp, n, hn, hprev, hnext, hring⟩ := hr.remove
  have hpm : p ∈ h :: (l₁ ++ x :: l₂) := by
    rcases List.mem_cons.mp hp with rfl | hp
    · simp
    · simp [hp]
  have hnm : n ∈ h :: (l₁ ++ x :: l₂) := by
    rcases List.mem_cons.mp hn with rfl | hn
    · simp
    · simp [hn]
  have hxm : x ∈ h :: (l₁ ++ x :: l₂) := by simp
  refine ⟨(S.links.get s).remove p x n, ?_, hring, sameOutside_remove hpm hxm hnm⟩
  rw [linkRemove, Eff.bind_ok (prev_run (hvalid x hxm)), hprev,
    Eff.bind_ok (next_run (hvalid x hxm)), hnext, Eff.bind_ok (deref_run (hvalid n hnm)),
    Eff.bind_ok (deref_run (hvalid p hpm)), Eff.modify_run]

theorem listIsEmpty_run (hr : (S.links.get s).Ring h l) (hvalid : S.valid s h = true) :
    (S.listIsEmpty h : Eff (Trap ε) σ Bool) s = (.ok (decide (l = [])), s) := by
  rw [listIsEmpty, Eff.bind_ok (next_run hvalid), Eff.pure_run]
  cases l with
  | nil => rw [hr.next_nil, decide_eq_true rfl, decide_eq_true rfl]
  | cons x l =>
    have hne : some x ≠ some h := by
      intro he
      have hnodup := (List.nodup_cons.mp hr.nodup).1
      exact hnodup (Option.some.inj he ▸ List.mem_cons_self)
    rw [hr.next_cons, decide_eq_false hne, decide_eq_false (List.cons_ne_nil x l)]

section Search

variable {test : ρ → Eff (Trap ε) σ Bool} {P : ρ → Bool} {n : Nat}

theorem findLoop_run (hr : (S.links.get s).Ring h (l₁ ++ l₂))
    (hvalid : ∀ y ∈ h :: (l₁ ++ l₂), S.valid s y = true)
    (htest : ∀ y ∈ l₂, test y s = (.ok (P y), s)) (hn : l₂.length < n) :
    S.findLoop h test n (l₂.headD h) s = (.ok (l₂.find? P), s) := by
  induction n generalizing l₁ l₂ with
  | zero => exact absurd hn (Nat.not_lt_zero _)
  | succ n ih =>
    cases l₂ with
    | nil => rw [findLoop, List.headD_nil, if_pos rfl, Eff.pure_run, List.find?_nil]
    | cons x l₂ =>
      have hxh : x ≠ h := by
        rintro rfl
        exact (List.nodup_cons.mp hr.nodup).1 (by simp)
      have hmem : l₂.headD h ∈ h :: (l₁ ++ x :: l₂) := by
        cases l₂ with
        | nil => exact List.mem_cons_self
        | cons y l₂ => simp
      rw [findLoop, List.headD_cons, if_neg hxh, Eff.bind_ok (htest x List.mem_cons_self),
        List.find?_cons]
      cases P x with
      | true => rw [if_pos rfl, Eff.pure_run]
      | false =>
        rw [if_neg Bool.false_ne_true, Eff.bind_ok (next_run (hvalid x (by simp))), hr.next_mid,
          Eff.bind_ok (deref_run (hvalid _ hmem))]
        -- one node of the list is done
        have hsplit : l₁ ++ x :: l₂ = (l₁ ++ [x]) ++ l₂ := by simp
        rw [hsplit] at hr hvalid
        refine ih hr hvalid (fun y hy => htest y (List.mem_cons_of_mem x hy)) ?_
        rw [List.length_cons] at hn
        omega

theorem findEntry_run (hr : (S.links.get s).Ring h l)
    (hvalid : ∀ y ∈ h :: l, S.valid s y = true) (htest : ∀ y ∈ l, test y s = (.ok (P y), s))
    (hn : l.length < n) : S.findEntry h test n s = (.ok (l.find? P), s) := by
  have hmem : l.headD h ∈ h :: l := by
    cases l with
    | nil => exact List.mem_cons_self
    | cons y l => simp
  have hring : (S.links.get s).Ring h ([] ++ l) := hr
  rw [findEntry, Eff.bind_ok (next_run (hvalid h List.mem_cons_self)), hr.next_head,
    Eff.bind_ok (deref_run (hvalid _ hmem))]
  exact findLoop_run hring hvalid htest hn

end Search

end LinkStore

end CfKernel.Lib
