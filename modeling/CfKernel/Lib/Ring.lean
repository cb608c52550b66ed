import Mathlib.Tactic

/-!
# Rings of doubly linked nodes

An intrusive list is a ring of links through a head: `Ring L h l` says that the links lead from `h`
through the nodes of `l`, in that order, back to `h`, and back again the other way. A missing link
is `none`. A node is put in before the head, which is the end of the list, and taken out anywhere.
-/

namespace CfKernel.Lib

open Function

structure Links (ρ : Type) where
  prev : ρ → Option ρ
  next : ρ → Option ρ

namespace Links

variable {ρ : Type}

section Operations

variable [DecidableEq ρ] (L : Links ρ)

def alone (x : ρ) : Links ρ :=
  ⟨update L.prev x (some x), update L.next x (some x)⟩

def insert (p x a : ρ) : Links ρ :=
  ⟨update (update L.prev a (some x)) x (some p),
    update (update L.next x (some a)) p (some x)⟩

/-- `x` taken out from between `p` and `n`, without links. -/
def remove (p x n : ρ) : Links ρ :=
  ⟨update (update L.prev n (some p)) x none,
    update (update L.next p (some n)) x none⟩

end Operations

def Adjacent (L : Links ρ) (a b : ρ) : Prop := L.next a = some b ∧ L.prev b = some a

/-- The links lead from `a` through `l` to `b`. -/
def Strand (L : Links ρ) : ρ → List ρ → ρ → Prop
  | a, [], b => L.Adjacent a b
  | a, x :: l, b => L.Adjacent a x ∧ Strand L x l b

variable {L L' : Links ρ} {a b h x : ρ} {l l₁ l₂ : List ρ}

theorem strand_append : L.Strand a (l₁ ++ x :: l₂) b ↔ L.Strand a l₁ x ∧ L.Strand x l₂ b := by
  induction l₁ generalizing a with
  | nil => rfl
  | cons y l₁ ih => rw [List.cons_append, Strand, Strand, ih, and_assoc]

theorem strand_iff : L.Strand a l b ↔ (a :: (l ++ [b])).IsChain L.Adjacent := by
  induction l generalizing a with
  | nil => rw [Strand, List.nil_append, List.isChain_pair]
  | cons x l ih => rw [Strand, ih, List.cons_append, List.isChain_cons_cons]

/-- A chain looks at the next links of all but its last node and at the previous links of all but
its first. -/
theorem chain_congr (hc : l.IsChain L.Adjacent) (hnext : ∀ y ∈ l.dropLast, L'.next y = L.next y)
    (hprev : ∀ y ∈ l.tail, L'.prev y = L.prev y) : l.IsChain L'.Adjacent := by
  induction l with
  | nil => exact .nil
  | cons y l ih =>
    cases l with
    | nil => exact .singleton y
    | cons z l =>
      rw [List.isChain_cons_cons] at hc ⊢
      refine ⟨⟨(hnext y (by simp)).trans hc.1.1, (hprev z (by simp)).trans hc.1.2⟩, ih hc.2 ?_ ?_⟩
      · exact fun u hu => hnext u (by simp [hu])
      · exact fun u hu => hprev u (List.mem_cons_of_mem z hu)

structure Ring (L : Links ρ) (h : ρ) (l : List ρ) : Prop where
  strand : L.Strand h l h
  nodup : (h :: l).Nodup

theorem Ring.next_nil (hr : L.Ring h []) : L.next h = some h := hr.strand.1

theorem Ring.next_cons (hr : L.Ring h (x :: l)) : L.next h = some x := hr.strand.1.1

theorem Strand.next (hs : L.Strand a l b) : L.next a = some (l.headD b) := by
  cases l with
  | nil => exact hs.1
  | cons x l => exact hs.1.1

theorem Ring.next_head (hr : L.Ring h l) : L.next h = some (l.headD h) := hr.strand.next

theorem Ring.next_mid (hr : L.Ring h (l₁ ++ x :: l₂)) : L.next x = some (l₂.headD h) :=
  (strand_append.mp hr.strand).2.next

theorem Ring.congr (hr : L.Ring h l) (hnext : ∀ y ∈ h :: l, L'.next y = L.next y)
    (hprev : ∀ y ∈ h :: l, L'.prev y = L.prev y) : L'.Ring h l := by
  refine ⟨strand_iff.mpr (chain_congr (strand_iff.mp hr.strand) ?_ ?_), hr.nodup⟩
  · intro y hy
    rw [← List.cons_append, List.dropLast_concat] at hy
    exact hnext y hy
  · intro y hy
    apply hprev
    simpa [or_comm] using hy

section Places

variable {l₁ l₂ as bs : List ρ} {p n : ρ}

/-- The ring around a place: `p` is the last node before it and `n` the first behind it. -/
theorem Ring.split (hr : L.Ring h (l₁ ++ l₂)) (hp : h :: l₁ = as ++ [p])
    (hn : l₂ ++ [h] = n :: bs) :
    (as ++ [p]).IsChain L.Adjacent ∧ L.Adjacent p n ∧ (n :: bs).IsChain L.Adjacent := by
  have hchain := strand_iff.mp hr.strand
  rw [List.append_assoc, ← List.cons_append, hp, hn, List.append_assoc, List.singleton_append,
    List.isChain_append_cons_cons] at hchain
  exact hchain

theorem apart_of_nodup (hnodup : (h :: (l₁ ++ l₂)).Nodup) (hp : h :: l₁ = as ++ [p])
    (hn : l₂ ++ [h] = n :: bs) : p ∉ as ∧ p ∉ l₂ ∧ n ∉ l₁ ∧ n ∉ bs := by
  have hfront : (as ++ [p] ++ l₂).Nodup := by rwa [← hp, List.cons_append]
  have hperm : (l₁ ++ (l₂ ++ [h])).Perm (h :: (l₁ ++ l₂)) := by
    rw [← List.append_assoc]
    exact List.perm_append_singleton h _
  have hback : (l₁ ++ (n :: bs)).Nodup := by
    rw [← hn]
    exact hperm.nodup_iff.mpr hnodup
  rw [List.nodup_append, List.nodup_append] at hfront
  rw [List.nodup_append, List.nodup_cons] at hback
  refine ⟨?_, ?_, ?_, hback.2.1.1⟩
  · exact fun hpa => hfront.1.2.2 p hpa p List.mem_cons_self rfl
  · exact fun hpl => hfront.2.2 p (by simp) p hpl rfl
  · exact fun hnl => hback.2.2 n hnl n List.mem_cons_self rfl

theorem exists_last (h : ρ) (l₁ : List ρ) : ∃ as p, h :: l₁ = as ++ [p] := by
  rcases List.eq_nil_or_concat (h :: l₁) with hnil | ⟨as, p, heq⟩
  · cases hnil
  · exact ⟨as, p, heq.trans List.concat_eq_append⟩

theorem exists_first (h : ρ) (l₂ : List ρ) : ∃ n bs, l₂ ++ [h] = n :: bs := by
  cases l₂ with
  | nil => exact ⟨h, [], rfl⟩
  | cons n l₂ => exact ⟨n, l₂ ++ [h], rfl⟩

theorem mem_of_last (hp : h :: l₁ = as ++ [p]) : p ∈ h :: l₁ := by
  rw [hp]
  simp

theorem mem_of_first (hn : l₂ ++ [h] = n :: bs) : n ∈ h :: l₂ := by
  have hmem : n ∈ l₂ ++ [h] := by
    rw [hn]
    exact List.mem_cons_self
  simpa [or_comm] using hmem

theorem perm_insert (h x : ρ) (l₁ l₂ : List ρ) :
    (h :: (l₁ ++ x :: l₂)).Perm (x :: h :: (l₁ ++ l₂)) :=
  (List.perm_middle.cons h).trans (List.Perm.swap x h _)

/-- Both sides of a place stay chains when only the links over the place and those of `x`
change. -/
theorem sides_congr (hnodup : (h :: (l₁ ++ l₂)).Nodup) (hx : x ∉ h :: (l₁ ++ l₂))
    (hp : h :: l₁ = as ++ [p]) (hn : l₂ ++ [h] = n :: bs)
    (hfront : (as ++ [p]).IsChain L.Adjacent) (hback : (n :: bs).IsChain L.Adjacent)
    (hnext : ∀ y, y ≠ p → y ≠ x → L'.next y = L.next y)
    (hprev : ∀ y, y ≠ n → y ≠ x → L'.prev y = L.prev y) :
    (as ++ [p]).IsChain L'.Adjacent ∧ (n :: bs).IsChain L'.Adjacent ∧ p ≠ x ∧ n ≠ x := by
  have hmemFront : ∀ y ∈ as ++ [p], y ≠ x := by
    rintro y hy rfl
    rw [← hp] at hy
    exact hx (List.mem_cons.mpr ((List.mem_cons.mp hy).imp id (List.mem_append_left l₂)))
  have hmemBack : ∀ y ∈ n :: bs, y ≠ x := by
    rintro y hy rfl
    rw [← hn] at hy
    apply hx
    simp only [List.mem_append, List.mem_singleton] at hy
    simp only [List.mem_cons, List.mem_append]
    tauto
  obtain ⟨hpa, hpl, hnl, hnb⟩ := apart_of_nodup hnodup hp hn
  refine ⟨chain_congr hfront ?_ ?_, chain_congr hback ?_ ?_, hmemFront p (by simp),
    hmemBack n List.mem_cons_self⟩
  · intro y hy
    rw [List.dropLast_concat] at hy
    exact hnext y (fun he => hpa (he ▸ hy)) (hmemFront y (List.mem_append_left _ hy))
  · intro y hy
    have hyx := hmemFront y (List.mem_of_mem_tail hy)
    rw [← hp, List.tail_cons] at hy
    exact hprev y (fun he => hnl (he ▸ hy)) hyx
  · intro y hy
    have hyx := hmemBack y (List.mem_of_mem_dropLast hy)
    rw [← hn, List.dropLast_concat] at hy
    exact hnext y (fun he => hpl (he ▸ hy)) hyx
  · intro y hy
    rw [List.tail_cons] at hy
    exact hprev y (fun he => hnb (he ▸ hy)) (hmemBack y (List.mem_cons_of_mem n hy))

variable [DecidableEq ρ] {y : ρ}

theorem insert_next_of_ne (hp : y ≠ p) (hx : y ≠ x) : (L.insert p x n).next y = L.next y :=
  (update_of_ne hp _ _).trans (update_of_ne hx _ _)

theorem insert_prev_of_ne (hn : y ≠ n) (hx : y ≠ x) : (L.insert p x n).prev y = L.prev y :=
  (update_of_ne hx _ _).trans (update_of_ne hn _ _)

theorem remove_next_of_ne (hp : y ≠ p) (hx : y ≠ x) : (L.remove p x n).next y = L.next y :=
  (update_of_ne hx _ _).trans (update_of_ne hp _ _)

theorem remove_prev_of_ne (hn : y ≠ n) (hx : y ≠ x) : (L.remove p x n).prev y = L.prev y :=
  (update_of_ne hx _ _).trans (update_of_ne hn _ _)

theorem Ring.insertAt (hr : L.Ring h (l₁ ++ l₂)) (hx : x ∉ h :: (l₁ ++ l₂))
    (hp : h :: l₁ = as ++ [p]) (hn : l₂ ++ [h] = n :: bs) :
    L.Adjacent p n ∧ (L.insert p x n).Ring h (l₁ ++ x :: l₂) := by
  obtain ⟨hfront, hpn, hback⟩ := hr.split hp hn
  obtain ⟨hfront', hback', hxp, hxn⟩ := sides_congr hr.nodup hx hp hn hfront hback
    (fun _ => insert_next_of_ne (L := L) (n := n)) fun _ => insert_prev_of_ne (p := p)
  refine ⟨hpn, strand_iff.mpr ?_,
    (perm_insert h x l₁ l₂).nodup_iff.mpr (List.nodup_cons.mpr ⟨hx, hr.nodup⟩)⟩
  rw [List.append_assoc, ← List.cons_append, hp, List.cons_append, hn, List.append_assoc,
    List.singleton_append, List.isChain_append_cons_cons, List.isChain_cons_cons]
  refine ⟨hfront', ⟨?_, ?_⟩, ⟨?_, ?_⟩, hback'⟩
  · exact update_self _ _ _
  · exact update_self _ _ _
  · exact (update_of_ne hxp.symm _ _).trans (update_self _ _ _)
  · exact (update_of_ne hxn _ _).trans (update_self _ _ _)

theorem Ring.removeAt (hr : L.Ring h (l₁ ++ x :: l₂)) (hp : h :: l₁ = as ++ [p])
    (hn : l₂ ++ [h] = n :: bs) :
    L.Adjacent p x ∧ L.Adjacent x n ∧ (L.remove p x n).Ring h (l₁ ++ l₂) := by
  obtain ⟨hx, hnodup⟩ := List.nodup_cons.mp ((perm_insert h x l₁ l₂).nodup_iff.mp hr.nodup)
  have hchain := strand_iff.mp hr.strand
  rw [List.append_assoc, ← List.cons_append, hp, List.cons_append, hn, List.append_assoc,
    List.singleton_append, List.isChain_append_cons_cons, List.isChain_cons_cons] at hchain
  obtain ⟨hfront, hpx, hxn, hback⟩ := hchain
  obtain ⟨hfront', hback', hpx', hnx'⟩ := sides_congr hnodup hx hp hn hfront hback
    (fun _ => remove_next_of_ne (L := L) (n := n)) fun _ => remove_prev_of_ne (p := p)
  refine ⟨hpx, hxn, strand_iff.mpr ?_, hnodup⟩
  rw [List.append_assoc, ← List.cons_append, hp, hn, List.append_assoc, List.singleton_append,
    List.isChain_append_cons_cons]
  refine ⟨hfront', ⟨?_, ?_⟩, hback'⟩
  · exact (update_of_ne hpx' _ _).trans (update_self _ _ _)
  · exact (update_of_ne hnx' _ _).trans (update_self _ _ _)

theorem Ring.insert (hr : L.Ring h l) (hx : x ∉ h :: l) :
    ∃ p ∈ h :: l, L.prev h = some p ∧ (L.insert p x h).Ring h (l ++ [x]) := by
  obtain ⟨as, p, hp⟩ := exists_last h l
  rw [← List.append_nil l] at hr hx
  obtain ⟨hpn, hring⟩ := hr.insertAt hx hp rfl
  exact ⟨p, mem_of_last hp, hpn.2, hring⟩

theorem Ring.remove (hr : L.Ring h (l₁ ++ x :: l₂)) :
    ∃ p ∈ h :: l₁, ∃ n ∈ h :: l₂, L.prev x = some p ∧ L.next x = some n ∧
      (L.remove p x n).Ring h (l₁ ++ l₂) := by
  obtain ⟨as, p, hp⟩ := exists_last h l₁
  obtain ⟨n, bs, hn⟩ := exists_first h l₂
  obtain ⟨hpx, hxn, hring⟩ := hr.removeAt hp hn
  exact ⟨p, mem_of_last hp, n, mem_of_first hn, hpx.2, hxn.1, hring⟩

end Places

theorem addresses_lt {n : Nat} {l : List Nat} (hn : 0 < n) (hnodup : l.Nodup)
    (hl : ∀ a ∈ l, 0 < a ∧ a < n) : l.length < n := by
  have hcons : (0 :: l).Nodup :=
    List.nodup_cons.mpr ⟨fun h => absurd (hl 0 h).1 (lt_irrefl 0), hnodup⟩
  have hsub : 0 :: l ⊆ List.range n := by
    intro a ha
    rw [List.mem_range]
    rcases List.mem_cons.mp ha with rfl | ha
    · exact hn
    · exact (hl a ha).2
  have hle := (hcons.subperm hsub).length_le
  rwa [List.length_range, List.length_cons] at hle

end Links

end CfKernel.Lib
