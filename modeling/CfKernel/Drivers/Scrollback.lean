import CfKernel.Drivers.Tty

/-!
# Looking back over the scrollback

`TTY_scrollback` composes the view in the memory that holds the live screen, from the first row down.
A row that should come from the live screen `k` lines up reads a row that was written before, so below
the `k` retained lines the view repeats them, and the live screen is gone: the return to offset zero
copies every row onto itself.
-/

namespace CfKernel.Drivers

open Lib

namespace Tty

def liveRow (t : Tty) (r : Nat) : List UInt16 :=
  (List.range ttyCols).map fun col => t.base (r * ttyCols + col)

/-- A line of the ring, by its number since the last clear. -/
def ringRow (t : Tty) (line : Nat) : List UInt16 :=
  (List.range ttyCols).map fun col => t.scrollback (line % scrollbackLines) col

def blankRow (t : Tty) : List UInt16 := (List.range ttyCols).map fun _ => t.blank

/-- The rows to be seen `k` lines back: the retained lines and the live screen, one after the other,
from `k` lines before the screen on. -/
def view (t : Tty) (k : Nat) : List (List UInt16) :=
  ((t.retained ++ t.screen).drop (t.retained.length - k)).take ttyRows

/-- A sequence of calls of `TTY_scrollback`, up with a negative argument. -/
def scrollCalls (t : Tty) (calls : List Int) : Tty :=
  calls.foldl (fun u lines => u.ttyScrollback (lines < 0) lines.natAbs) t

/-- What a call that goes from `k'` lines back to `k` lines back leaves in the rows of the live
screen is what they are to show. -/
def Harmless (t : Tty) (k' k : Nat) : Prop :=
  ∀ r < ttyRows, k ≤ r → t.liveRow (r - k) =
    if 2 ^ 32 ≤ t.scrollbackTotal - k + r then t.blankRow
    else if k = 0 then
      if r < k' then t.ringRow (t.scrollbackTotal - k' + r) else t.liveRow (r - k')
    else t.ringRow (t.scrollbackTotal - k + r % k)

variable {t u : Tty} {k : Nat}

theorem length_retained (t : Tty) : t.retained.length = min 256 t.scrollbackTotal := by
  rw [retained, List.length_map, List.length_range, scrollbackLines]

theorem getElem?_view (hk : k ≤ min 256 t.scrollbackTotal) {r : Nat} (hr : r < 25) :
    (t.view k)[r]? =
      some (if r < k then t.ringRow (t.scrollbackTotal - k + r) else t.liveRow (r - k)) := by
  have hlen := length_retained t
  rw [view, List.getElem?_take_of_lt (show r < ttyRows from hr), List.getElem?_drop]
  by_cases hlt : r < k
  · have hnum : t.scrollbackTotal - min 256 t.scrollbackTotal + (t.retained.length - k + r) =
        t.scrollbackTotal - k + r := by omega
    have hin : t.retained.length - k + r < min scrollbackLines t.scrollbackTotal := by
      rw [scrollbackLines]
      omega
    rw [if_pos hlt, List.getElem?_append_left (by omega), ← hnum]
    generalize t.retained.length - k + r = n at hin ⊢
    rw [retained, List.getElem?_map, List.getElem?_range hin]
    rfl
  · have hnum : t.retained.length - k + r - t.retained.length = r - k := by omega
    rw [if_neg hlt, List.getElem?_append_right (by omega), hnum]
    simp only [screen, List.getElem?_map]
    rw [List.getElem?_range (show r - k < ttyRows by rw [ttyRows]; omega)]
    rfl

theorem view_eq (hk : k ≤ min 256 t.scrollbackTotal) :
    t.view k = (List.range ttyRows).map fun r =>
      if r < k then t.ringRow (t.scrollbackTotal - k + r) else t.liveRow (r - k) := by
  refine List.ext_getElem? fun r => ?_
  by_cases hr : r < 25
  · rw [getElem?_view hk hr, List.getElem?_map, List.getElem?_range (show r < ttyRows from hr),
      Option.map_some]
  · rw [List.getElem?_eq_none (by rw [view, List.length_take, ttyRows]; omega),
      List.getElem?_eq_none (by rw [List.length_map, List.length_range, ttyRows]; omega)]

theorem view_zero (t : Tty) : t.view 0 = t.screen := by
  rw [view_eq (Nat.zero_le _)]
  rfl

/-- What a call that goes to `k` lines back leaves in cell `i`, which is in row `r`. -/
def shownCell (u : Tty) (k r i : Nat) : UInt16 :=
  if 2 ^ 32 ≤ u.scrollbackTotal - k + r then u.blank
  else if k = 0 then u.base i
  else u.scrollback ((u.scrollbackTotal - k + r % k) % scrollbackLines) (i % ttyCols)

section Call

variable (up : Bool) (amount : Nat) (htotal : u.scrollbackTotal ≠ 0)
  (hlt : u.scrollbackTotal < 2 ^ 32) (hoffset : u.scrollbackOffset ≤ min 256 u.scrollbackTotal)
include htotal hlt hoffset

theorem ttyScrollback_cell :
    ∃ k ≤ min 256 u.scrollbackTotal, (u.ttyScrollback up amount).scrollbackOffset = k ∧
      ∀ i < ttyRows * ttyCols,
        (u.ttyScrollback up amount).base i = u.shownCell k (i / ttyCols) i := by
  rw [ttyScrollback, if_neg htotal]
  obtain ⟨k, hk⟩ : ∃ k, k = if up = true then
      if (if u.scrollbackTotal < scrollbackLines then u.scrollbackTotal else scrollbackLines) -
        u.scrollbackOffset < amount then
        if u.scrollbackTotal < scrollbackLines then u.scrollbackTotal else scrollbackLines
      else u.scrollbackOffset + amount
    else if u.scrollbackOffset < amount then 0 else u.scrollbackOffset - amount := ⟨_, rfl⟩
  have hmax : k ≤ min 256 u.scrollbackTotal := by
    rw [hk, scrollbackLines]
    split_ifs <;> omega
  refine ⟨k, hmax, hk.symm, fun i hi => ?_⟩
  dsimp only
  rw [← hk]
  clear hk
  refine (foldl_update_apply (g := fun i => u.shownCell k (i / ttyCols) i) ?_).trans (if_pos hi)
  intro j hj b hbefore hafter
  rw [shownCell]
  have hcols : ttyCols = 80 := rfl
  have hrow : j / ttyCols < 25 := by
    rw [ttyRows, hcols] at hj
    rw [hcols]
    omega
  have holdest : (if scrollbackLines < u.scrollbackTotal then u.scrollbackTotal - scrollbackLines
      else 0) ≤ u.scrollbackTotal - k := by
    rw [scrollbackLines]
    split_ifs <;> omega
  by_cases hwrap : 2 ^ 32 ≤ u.scrollbackTotal - k + j / ttyCols
  -- the number of the row goes around, and is neither in the ring nor on the screen
  · have hnum : u32 (u.scrollbackTotal - k + j / ttyCols) =
        u.scrollbackTotal - k + j / ttyCols - 2 ^ 32 := by
      rw [u32]
      omega
    have hfar : ¬ ((if scrollbackLines < u.scrollbackTotal then
        u.scrollbackTotal - scrollbackLines else 0) ≤
          u.scrollbackTotal - k + j / ttyCols - 2 ^ 32) := by
      rw [scrollbackLines, if_pos (by omega)]
      omega
    rw [hnum, if_pos hwrap, if_neg fun h => hfar h.2, if_neg (by omega)]
  · rw [u32_of_lt (not_le.mp hwrap), if_neg hwrap]
    by_cases hring : j / ttyCols < k
    · rw [if_pos ⟨by omega, le_add_right holdest⟩, if_neg (Nat.ne_zero_of_lt hring),
        Nat.mod_eq_of_lt hring]
    · have hsource : u.scrollbackTotal - k + j / ttyCols - u.scrollbackTotal = j / ttyCols - k := by
        omega
      rw [if_neg (by omega), if_pos ⟨by omega, by rw [hsource, ttyRows]; omega⟩, hsource]
      by_cases hzero : k = 0
      · have hself : (j / ttyCols - k) * ttyCols + j % ttyCols = j := by
          rw [hzero, Nat.sub_zero, Nat.mul_comm]
          exact Nat.div_add_mod j ttyCols
        rw [if_pos hzero, hself, hafter j le_rfl]
      · have hdiv : ((j / ttyCols - k) * ttyCols + j % ttyCols) / ttyCols = j / ttyCols - k := by
          rw [hcols]
          omega
        have hmod : ((j / ttyCols - k) * ttyCols + j % ttyCols) % ttyCols = j % ttyCols := by
          rw [hcols]
          omega
        have hperiod : (j / ttyCols - k) % k = j / ttyCols % k :=
          (Nat.mod_eq_sub_mod (not_lt.mp hring)).symm
        have hback : (j / ttyCols - k) * ttyCols + j % ttyCols < j := by
          rw [hcols] at hring ⊢
          omega
        rw [hbefore _ hback, shownCell, hdiv, hmod, hperiod, if_neg (by omega), if_neg hzero,
          if_neg hzero]

theorem ttyScrollback_screen :
    ∃ k ≤ min 256 u.scrollbackTotal, (u.ttyScrollback up amount).scrollbackOffset = k ∧
      (u.ttyScrollback up amount).screen = (List.range ttyRows).map fun r =>
        if 2 ^ 32 ≤ u.scrollbackTotal - k + r then u.blankRow
        else if k = 0 then u.liveRow r
        else u.ringRow (u.scrollbackTotal - k + r % k) := by
  obtain ⟨k, hk, heq, hcells⟩ := ttyScrollback_cell up amount htotal hlt hoffset
  refine ⟨k, hk, heq, List.map_congr_left fun r hr => ?_⟩
  have hcell : ∀ col ∈ List.range ttyCols, (u.ttyScrollback up amount).base (r * ttyCols + col) =
      u.shownCell k r (r * ttyCols + col) := by
    intro col hcol
    rw [List.mem_range, ttyCols] at hcol
    rw [List.mem_range, ttyRows] at hr
    have hdiv : (r * ttyCols + col) / ttyCols = r := by
      rw [ttyCols]
      omega
    rw [hcells _ (by rw [ttyRows, ttyCols]; omega), hdiv]
  rw [List.map_congr_left hcell]
  unfold shownCell
  split_ifs
  · rfl
  · rfl
  · refine List.map_congr_left fun col hcol => ?_
    rw [Nat.mul_add_mod_of_lt (List.mem_range.mp hcol)]

end Call

/-- The same ring and colours, and an offset within the retained lines. -/
structure LooksOver (t u : Tty) : Prop where
  total : u.scrollbackTotal = t.scrollbackTotal
  ring : u.scrollback = t.scrollback
  blank : u.blank = t.blank
  offset : u.scrollbackOffset ≤ min 256 t.scrollbackTotal

theorem ttyScrollback_keeps (up : Bool) (amount : Nat) (u : Tty) :
    (u.ttyScrollback up amount).scrollbackTotal = u.scrollbackTotal ∧
      (u.ttyScrollback up amount).scrollback = u.scrollback ∧
      (u.ttyScrollback up amount).blank = u.blank := by
  rw [ttyScrollback]
  split
  · exact ⟨rfl, rfl, rfl⟩
  · refine ⟨rfl, rfl, ?_⟩
    rw [blank, blank]

theorem liveRow_of_screen (h : u.screen = t.view k) (hk : k ≤ min 256 t.scrollbackTotal) {r : Nat}
    (hr : r < 25) :
    u.liveRow r = if r < k then t.ringRow (t.scrollbackTotal - k + r) else t.liveRow (r - k) :=
  List.map_inj_left.mp (h.trans (view_eq hk)) r (List.mem_range.mpr hr)

/-- One call: as long as the view has been right, it stays right exactly when the call does no
harm. -/
theorem LooksOver.step (up : Bool) (amount : Nat) (hlt : t.scrollbackTotal < 2 ^ 32)
    (h : LooksOver t u) :
    LooksOver t (u.ttyScrollback up amount) ∧ (u.screen = t.view u.scrollbackOffset →
      ((u.ttyScrollback up amount).screen =
          t.view (u.ttyScrollback up amount).scrollbackOffset ↔
        t.Harmless u.scrollbackOffset (u.ttyScrollback up amount).scrollbackOffset)) := by
  by_cases htotal : t.scrollbackTotal = 0
  -- without retained lines nothing happens
  · have hnone : u.ttyScrollback up amount = u := if_pos (h.total.trans htotal)
    have hzero : u.scrollbackOffset = 0 := by
      have := h.offset
      omega
    rw [hnone, hzero]
    refine ⟨h, fun hshown => iff_of_true hshown fun r hr _ => ?_⟩
    rw [ttyRows] at hr
    rw [if_neg (by omega), if_pos rfl, if_neg (Nat.not_lt_zero r)]
  · obtain ⟨k, hk, heq, hscreen⟩ := ttyScrollback_screen up amount (h.total ▸ htotal)
      (h.total ▸ hlt) (h.total ▸ h.offset)
    obtain ⟨htotal', hring', hblank'⟩ := ttyScrollback_keeps up amount u
    rw [h.total] at hk
    refine ⟨⟨htotal'.trans h.total, hring'.trans h.ring, hblank'.trans h.blank, heq ▸ hk⟩, ?_⟩
    intro hshown
    have hblankRow : u.blankRow = t.blankRow := by rw [blankRow, h.blank, blankRow]
    have hringRow : ∀ l, u.ringRow l = t.ringRow l := fun l => by rw [ringRow, h.ring, ringRow]
    rw [heq, hscreen, view_eq hk, List.map_inj_left, Harmless]
    simp only [List.mem_range, h.total, hblankRow, hringRow]
    refine forall₂_congr fun r hr => ?_
    rw [liveRow_of_screen hshown h.offset hr]
    by_cases hback : r < k
    -- the retained lines are always right
    · refine iff_of_true ?_ fun hle => absurd hback (not_lt.mpr hle)
      rw [if_neg (by omega), if_neg (by omega), if_pos hback, Nat.mod_eq_of_lt hback]
    · rw [if_neg hback]
      exact ⟨fun hrow _ => hrow.symm, fun hrow => (hrow (not_lt.mp hback)).symm⟩

theorem LooksOver.calls (h0 : t.scrollbackOffset = 0) (hlt : t.scrollbackTotal < 2 ^ 32)
    (calls : List Int) : LooksOver t (t.scrollCalls calls) := by
  induction calls using List.reverseRecOn with
  | nil => exact ⟨rfl, rfl, rfl, h0 ▸ Nat.zero_le _⟩
  | append_singleton calls lines ih =>
    rw [scrollCalls, List.foldl_append]
    exact (LooksOver.step (lines < 0) lines.natAbs hlt ih).1

theorem views_right_iff (h0 : t.scrollbackOffset = 0) (hlt : t.scrollbackTotal < 2 ^ 32)
    (calls : List Int) :
    (∀ p, p <+: calls →
        (t.scrollCalls p).screen = t.view (t.scrollCalls p).scrollbackOffset) ↔
      ∀ p lines, p ++ [lines] <+: calls →
        t.Harmless (t.scrollCalls p).scrollbackOffset
          (t.scrollCalls (p ++ [lines])).scrollbackOffset := by
  induction calls using List.reverseRecOn with
  | nil =>
    refine iff_of_true (fun p hp => ?_) fun p lines hp => ?_
    · rw [List.prefix_nil.mp hp]
      change t.screen = t.view t.scrollbackOffset
      rw [h0, view_zero]
    · exact absurd (List.prefix_nil.mp hp) (by simp)
  | append_singleton calls lines ih =>
    have hlast : t.scrollCalls (calls ++ [lines]) =
        (t.scrollCalls calls).ttyScrollback (lines < 0) lines.natAbs := by
      rw [scrollCalls, List.foldl_append]
      rfl
    have hstep := ((LooksOver.calls h0 hlt calls).step (lines < 0) lines.natAbs hlt).2
    rw [← hlast] at hstep
    constructor
    · intro hall
      have hbefore := fun p hp => hall p (List.prefix_concat_iff.mpr (.inr hp))
      intro p last hp
      rcases List.prefix_concat_iff.mp hp with heq | hp
      · obtain ⟨rfl, heq'⟩ := List.append_inj' heq rfl
        obtain rfl : last = lines := List.singleton_inj.mp heq'
        exact (hstep (hbefore p List.prefix_rfl)).mp (hall _ List.prefix_rfl)
      · exact ih.mp hbefore p last hp
    · intro hall
      have hbefore := ih.mpr fun p last hp => hall p last (List.prefix_concat_iff.mpr (.inr hp))
      intro p hp
      rcases List.prefix_concat_iff.mp hp with rfl | hp
      · exact (hstep (hbefore calls List.prefix_rfl)).mpr (hall calls lines List.prefix_rfl)
      · exact hbefore p hp

end Tty

/-- From the live screen on, calls of `TTY_scrollback` show what they are to show, and the live screen
again at offset zero, exactly when every one of them leaves the right rows by chance. -/
theorem scrollback_right_iff (t : Tty) (h0 : t.scrollbackOffset = 0)
    (hlt : t.scrollbackTotal < 2 ^ 32) (calls : List Int) :
    (((t.scrollCalls calls).scrollbackOffset = 0 → (t.scrollCalls calls).screen = t.screen) ∧
      ∀ p, p <+: calls → (t.scrollCalls p).screen = t.view (t.scrollCalls p).scrollbackOffset) ↔
      ∀ p lines, p ++ [lines] <+: calls →
        t.Harmless (t.scrollCalls p).scrollbackOffset
          (t.scrollCalls (p ++ [lines])).scrollbackOffset := by
  rw [← Tty.views_right_iff h0 hlt]
  refine ⟨And.right, fun hall => ⟨fun hzero => ?_, hall⟩⟩
  rw [hall calls List.prefix_rfl, hzero, Tty.view_zero]

/-- A screen full of `a` and one line of `c` above it. -/
def aboveA (c : UInt16) : Tty where
  base _ := 97
  row := 0
  col := 0
  fg := 15
  bg := 0
  scrollback _ _ := c
  scrollbackTotal := 1
  scrollbackOffset := 0

/-- With `a` in the line above as well, page up and page down bring the screen back. -/
theorem scrollback_right_aboveA :
    ((aboveA 97).scrollCalls [-24, 24]).screen = (aboveA 97).screen := by
  refine ((scrollback_right_iff (aboveA 97) rfl (by decide)
    [-24, 24]).mpr fun p lines _ r hr _ => ?_).1 rfl
  have hwrap : ∀ k : Nat, ¬ 2 ^ 32 ≤ 1 - k + r := by
    intro k
    rw [ttyRows] at hr
    omega
  have htotal : (aboveA 97).scrollbackTotal = 1 := rfl
  rw [htotal, if_neg (hwrap _)]
  split_ifs <;> rfl

/-- Page up and page down leave the screen full of `b`. -/
theorem scrollback_loses_aboveA :
    ((aboveA 98).scrollCalls [-24, 24]).scrollbackOffset = 0 ∧
      ((aboveA 98).scrollCalls [-24, 24]).screen ≠ (aboveA 98).screen := by
  obtain ⟨k, -, hk, hup⟩ := Tty.ttyScrollback_screen (u := aboveA 98) true 24 (by decide) (by decide)
    (by decide)
  have hone : k = 1 := hk.symm.trans rfl
  have hkeeps := Tty.ttyScrollback_keeps true 24 (aboveA 98)
  obtain ⟨u, hu⟩ : ∃ u, u = (aboveA 98).ttyScrollback true 24 := ⟨_, rfl⟩
  rw [← hu] at hk hup hkeeps
  have htotal : u.scrollbackTotal = 1 := hkeeps.1
  rw [hone] at hup
  have hshown : u.liveRow 0 = (aboveA 98).ringRow 0 := List.map_inj_left.mp hup 0 (by decide)
  obtain ⟨k', -, hk', hdown⟩ := Tty.ttyScrollback_screen (u := u) false 24 (by rw [htotal]; decide)
    (by rw [htotal]; decide) (by rw [hk, hone, htotal]; decide)
  have hoffset : (u.ttyScrollback false 24).scrollbackOffset = 0 := by
    rw [hu]
    rfl
  have hzero : k' = 0 := hk'.symm.trans hoffset
  have hcalls : (aboveA 98).scrollCalls [-24, 24] = u.ttyScrollback false 24 := by
    rw [hu]
    rfl
  rw [hcalls]
  refine ⟨hoffset, fun hsame => ?_⟩
  rw [hdown, hzero, htotal] at hsame
  have hlost : u.liveRow 0 = (aboveA 98).liveRow 0 := List.map_inj_left.mp hsame 0 (by decide)
  rw [hshown] at hlost
  exact absurd hlost (by decide)

end CfKernel.Drivers
