import CfKernel.Lib.Count
import CfKernel.Lib.Effect

/-!
# Allocated objects

A `Heap α` holds the objects of one C type by their address. An address is a number that is not
zero, and every allocation takes a new one, so an address that was freed stays without an object:
reading, writing or freeing there is a `fault`. A program that never faults cannot tell this from
an allocator that hands an address out again.

`Field σ τ` is a part of the state; the operations below work on a heap that is such a part.
-/

namespace CfKernel.Lib

open Function

/-- `freed a` counts how often the object at `a` was freed. -/
structure Heap (α : Type) where
  cell : Nat → Option α
  next : Nat
  freed : Nat → Nat
  cell_zero : cell 0 = none
  cell_fresh : ∀ a, next ≤ a → cell a = none
  next_pos : 0 < next
  freed_eq : ∀ a, freed a = if 0 < a ∧ a < next ∧ cell a = none then 1 else 0

namespace Heap

variable {α : Type} {h : Heap α} {a b : Nat} {x y : α}

def empty : Heap α where
  cell _ := none
  next := 1
  freed _ := 0
  cell_zero := rfl
  cell_fresh _ _ := rfl
  next_pos := Nat.one_pos
  freed_eq a := by rw [if_neg (by omega)]

theorem lt_next (hx : h.cell a = some x) : a < h.next := by
  by_contra hle
  rw [h.cell_fresh a (not_lt.mp hle)] at hx
  cases hx

theorem ne_zero (hx : h.cell a = some x) : a ≠ 0 := by
  rintro rfl
  rw [h.cell_zero] at hx
  cases hx

theorem ne_next (hx : h.cell a = some x) : a ≠ h.next := (lt_next hx).ne

theorem cell_next (h : Heap α) : h.cell h.next = none := h.cell_fresh _ le_rfl

theorem freed_of_some (hx : h.cell a = some x) : h.freed a = 0 := by
  rw [h.freed_eq, if_neg (by rintro ⟨-, -, hnone⟩; rw [hnone] at hx; cases hx)]

def push (h : Heap α) (x : α) : Heap α where
  cell := update h.cell h.next (some x)
  next := h.next + 1
  freed := h.freed
  cell_zero := by rw [update_of_ne h.next_pos.ne, h.cell_zero]
  cell_fresh a ha := by rw [update_of_ne (by omega), h.cell_fresh a (by omega)]
  next_pos := by omega
  freed_eq a := by
    rw [h.freed_eq]
    by_cases ha : a = h.next
    · rw [ha, update_self, if_neg (by omega), if_neg (by simp)]
    · rw [update_of_ne ha]
      simp only [show a < h.next + 1 ↔ a < h.next by omega]

theorem update_map_eq_none (f : α → α) (b : Nat) :
    update h.cell a ((h.cell a).map f) b = none ↔ h.cell b = none := by
  by_cases hb : b = a
  · rw [hb, update_self, Option.map_eq_none_iff]
  · rw [update_of_ne hb]

def edit (h : Heap α) (a : Nat) (f : α → α) : Heap α where
  cell := update h.cell a ((h.cell a).map f)
  next := h.next
  freed := h.freed
  cell_zero := (update_map_eq_none f 0).mpr h.cell_zero
  cell_fresh b hb := (update_map_eq_none f b).mpr (h.cell_fresh b hb)
  next_pos := h.next_pos
  freed_eq b := by simp only [update_map_eq_none, h.freed_eq]

def free (h : Heap α) (a : Nat) : Heap α where
  cell := update h.cell a none
  next := h.next
  freed := update h.freed a (h.freed a + if (h.cell a).isSome then 1 else 0)
  cell_zero := by
    by_cases ha : 0 = a
    · rw [ha, update_self]
    · rw [update_of_ne ha, h.cell_zero]
  cell_fresh b hb := by
    by_cases ha : b = a
    · rw [ha, update_self]
    · rw [update_of_ne ha, h.cell_fresh b hb]
  next_pos := h.next_pos
  freed_eq b := by
    by_cases hb : b = a
    · subst hb
      rw [update_self, update_self]
      cases hx : h.cell b with
      | none => simp [h.freed_eq, hx]
      | some x => simp [freed_of_some hx, Nat.pos_of_ne_zero (ne_zero hx), lt_next hx]
    · rw [update_of_ne hb, update_of_ne hb, h.freed_eq]

@[simp] theorem cell_push (h : Heap α) (x : α) :
    (h.push x).cell = update h.cell h.next (some x) := rfl

theorem cell_edit (hx : h.cell a = some x) (f : α → α) :
    (h.edit a f).cell = update h.cell a (some (f x)) := by
  change update h.cell a ((h.cell a).map f) = _
  rw [hx, Option.map_some]

@[simp] theorem cell_free (h : Heap α) (a : Nat) : (h.free a).cell = update h.cell a none := rfl

end Heap

namespace Heap

variable {α : Type} {h : Heap α} {a : Nat} {x : α}

def count (h : Heap α) (P : α → Bool) : Nat :=
  ((Finset.range h.next).filter fun a => (h.cell a).any P).card

theorem count_empty (P : α → Bool) : (empty : Heap α).count P = 0 :=
  Finset.card_eq_zero.mpr (Finset.filter_eq_empty_iff.mpr fun _ _ => Bool.false_ne_true)

theorem count_pos {P : α → Bool} (hx : h.cell a = some x) (hP : P x = true) : 0 < h.count P := by
  apply Finset.card_pos.mpr
  exact ⟨a, Finset.mem_filter.mpr ⟨Finset.mem_range.mpr (lt_next hx), by rw [hx]; exact hP⟩⟩

theorem count_push (h : Heap α) (x : α) (P : α → Bool) :
    (h.push x).count P = h.count P + if P x then 1 else 0 := by
  have hsame : ((Finset.range h.next).filter fun a =>
      (update h.cell h.next (some x) a).any P) =
      (Finset.range h.next).filter fun a => (h.cell a).any P := by
    apply Finset.filter_congr
    intro a ha
    rw [update_of_ne (Finset.mem_range.mp ha).ne]
  change ((Finset.range (h.next + 1)).filter _).card = _
  rw [Finset.range_add_one, Finset.filter_insert]
  by_cases hP : P x = true
  · rw [cell_push, if_pos (by rw [update_self]; exact hP), if_pos hP,
      Finset.card_insert_of_notMem (by simp), hsame, count]
  · rw [cell_push, if_neg (by rw [update_self]; exact hP), if_neg hP, hsame, count, Nat.add_zero]

theorem count_edit (hx : h.cell a = some x) (f : α → α) (P : α → Bool) :
    (h.edit a f).count P + (if P x then 1 else 0) = h.count P + if P (f x) then 1 else 0 := by
  have hcount := card_filter_update (Finset.range h.next) h.cell (Option.any P)
    (Finset.mem_range.mpr (lt_next hx)) (some (f x))
  rwa [hx, Option.any_some, Option.any_some, ← cell_edit hx f] at hcount

theorem count_free (hx : h.cell a = some x) (P : α → Bool) :
    (h.free a).count P + (if P x then 1 else 0) = h.count P := by
  have hcount := card_filter_update (Finset.range h.next) h.cell (Option.any P)
    (Finset.mem_range.mpr (lt_next hx)) none
  rwa [hx, Option.any_some, Option.any_none, if_neg Bool.false_ne_true, Nat.add_zero] at hcount

end Heap

/-- How a step ends that does not succeed: with an error code, or by touching an object that is not
there. -/
inductive Trap (ε : Type) where
  | code (e : ε)
  | fault
  deriving DecidableEq

structure Field (σ τ : Type) where
  get : σ → τ
  set : τ → σ → σ

namespace Field

variable {ε σ τ α β : Type}

def zoom (l : Field σ τ) (m : Eff ε τ β) : Eff ε σ β := fun s =>
  ((m (l.get s)).1, l.set (m (l.get s)).2 s)

variable (l : Field σ (Heap α)) (a : Nat) {s : σ} {x : α}

def load : Eff (Trap ε) σ α := Eff.read fun s => ((l.get s).cell a).elim (.error .fault) .ok

def store (f : α → α) : Eff (Trap ε) σ Unit := do
  let _ ← l.load a
  Eff.modify fun s => l.set ((l.get s).edit a f) s

def new (x : α) : Eff (Trap ε) σ Nat := fun s => (.ok (l.get s).next, l.set ((l.get s).push x) s)

def release : Eff (Trap ε) σ Unit := do
  let _ ← l.load a
  Eff.modify fun s => l.set ((l.get s).free a) s

variable {l a}

theorem zoom_run {l : Field σ τ} {m : Eff ε τ β} {r : Except ε β} {t : τ}
    (h : m (l.get s) = (r, t)) : l.zoom m s = (r, l.set t s) := by
  rw [zoom, h]

theorem load_run (h : (l.get s).cell a = some x) :
    (l.load a : Eff (Trap ε) σ α) s = (.ok x, s) := by
  simp only [load, Eff.read, h, Option.elim_some]

theorem load_fault (h : (l.get s).cell a = none) :
    (l.load a : Eff (Trap ε) σ α) s = (.error .fault, s) := by
  simp only [load, Eff.read, h, Option.elim_none]

theorem store_run (h : (l.get s).cell a = some x) (f : α → α) :
    (l.store a f : Eff (Trap ε) σ Unit) s = (.ok (), l.set ((l.get s).edit a f) s) :=
  Eff.bind_ok (load_run h)

theorem store_fault (h : (l.get s).cell a = none) (f : α → α) :
    (l.store a f : Eff (Trap ε) σ Unit) s = (.error .fault, s) :=
  Eff.bind_error (load_fault h)

theorem release_run (h : (l.get s).cell a = some x) :
    (l.release a : Eff (Trap ε) σ Unit) s = (.ok (), l.set ((l.get s).free a) s) :=
  Eff.bind_ok (load_run h)

end Field

end CfKernel.Lib
