import CfKernel.Drivers.Tty

/-!
# The terminal without an end

`Terminal` is the ideal that the screen and the ring stand for: an unbounded grid of rows, a window of
25 rows that moves down over it, and a cursor in the window. The code keeps the window and the last
256 rows above it. It counts the rows above the window in 32 bits, so it shows the ideal exactly
as long as that count, when it has gone around, still reaches 256.
-/

namespace CfKernel.Drivers

open Lib Function

structure Terminal where
  cells : Nat → Nat → UInt16
  /-- Rows above the window. -/
  top : Nat
  row : Nat
  col : Nat

namespace Terminal

def set (x : Terminal) (row col : Nat) (v : UInt16) : Terminal :=
  { x with cells := update x.cells row (update (x.cells row) col v) }

/-- The cursor goes to the start of the next row, and the window with it when it leaves the window. -/
def nextRow (x : Terminal) : Terminal :=
  { x with
    row := x.row + 1, col := 0
    top := if x.top + 25 ≤ x.row + 1 then x.top + 1 else x.top }

def print (v : UInt16) (x : Terminal) : Terminal :=
  let y := x.set x.row x.col v
  if x.col + 1 = 80 then y.nextRow else { y with col := x.col + 1 }

/-- Back over one cell, but not above the window. -/
def backspace (blank : UInt16) (x : Terminal) : Terminal :=
  if x.col ≠ 0 then { x.set x.row (x.col - 1) blank with col := x.col - 1 }
  else if x.row = x.top then x
  else { x.set (x.row - 1) 79 blank with row := x.row - 1, col := 79 }

def putc (fg bg : UInt8) (x : Terminal) (c : UInt8) : Terminal :=
  if c = 10 then x.nextRow
  else if c = 13 then { x with col := 0 }
  else if c = 9 then (print (vgaEntry 32 fg bg))^[4 - x.col % 4] x
  else if c = 8 then x.backspace (vgaEntry 32 fg bg)
  else if c < 32 then x
  else x.print (vgaEntry c fg bg)

def clear (blank : UInt16) : Terminal := ⟨fun _ _ => blank, 0, 0, 0⟩

/-- The last `n` rows down to the end of the window. -/
def lastRows (x : Terminal) (n : Nat) : List (List UInt16) :=
  (List.range n).map fun k => (List.range 80).map fun col => x.cells (x.top + 25 - n + k) col

end Terminal

/-- The screen and the ring hold the ideal's cells; `mem` is the memory behind the screen. -/
structure Grid (fg bg : UInt8) (mem : Nat → UInt16) (t : Tty) (x : Terminal) : Prop where
  fore : t.fg = fg
  back : t.bg = bg
  offset : t.scrollbackOffset = 0
  total : t.scrollbackTotal = u32 x.top
  screen : ∀ r < 25, ∀ c < 80, t.base (r * 80 + c) = x.cells (x.top + r) c
  ring : ∀ l < x.top, x.top ≤ l + 256 → ∀ c < 80, t.scrollback (l % 256) c = x.cells l c
  fresh : ∀ r, x.top + 25 ≤ r → ∀ c < 80, x.cells r c = vgaEntry 32 fg bg
  outside : ∀ i, 2000 ≤ i → t.base i = mem i

structure Shows (fg bg : UInt8) (mem : Nat → UInt16) (t : Tty) (x : Terminal) : Prop where
  grid : Grid fg bg mem t x
  row : x.row = x.top + t.row
  row_lt : t.row < 25
  col : x.col = t.col
  col_lt : t.col < 80

variable {fg bg : UInt8} {mem : Nat → UInt16} {t : Tty} {x : Terminal}

section

variable (h : Grid fg bg mem t x)
include h

theorem Grid.blank : t.blank = vgaEntry 32 fg bg := by
  rw [Tty.blank, h.fore, h.back]

theorem Grid.moveCursor (r c r' c' : Nat) :
    Grid fg bg mem { t with row := r, col := c } { x with row := r', col := c' } :=
  ⟨h.fore, h.back, h.offset, h.total, h.screen, h.ring, h.fresh, h.outside⟩

theorem Grid.set {r c : Nat} (hr : r < 25) (hc : c < 80) (v : UInt16) :
    Grid fg bg mem { t with base := update t.base (r * 80 + c) v }
      (x.set (x.top + r) c v) where
  fore := h.fore
  back := h.back
  offset := h.offset
  total := h.total
  screen r' hr' c' hc' := by
    have hold := h.screen r' hr' c' hc'
    change update t.base (r * 80 + c) v (r' * 80 + c') = update x.cells (x.top + r)
      (update (x.cells (x.top + r)) c v) (x.top + r') c'
    by_cases hrr : r' = r
    · rw [hrr, update_self]
      by_cases hcc : c' = c
      · rw [hcc, update_self, update_self]
      · rw [update_of_ne hcc, update_of_ne (by omega), ← hrr, hold]
    · rw [update_of_ne (by omega), update_of_ne (by omega), hold]
  ring l hl hl' c' hc' := by
    change _ = update x.cells (x.top + r) _ l c'
    rw [update_of_ne (by dsimp only [Terminal.set] at hl; omega)]
    exact h.ring l hl hl' c' hc'
  fresh r' hr' c' hc' := by
    change update x.cells (x.top + r) _ r' c' = _
    rw [update_of_ne (by dsimp only [Terminal.set] at hr'; omega)]
    exact h.fresh r' hr' c' hc'
  outside i hi := by
    change update t.base (r * 80 + c) v i = mem i
    rw [update_of_ne (by omega)]
    exact h.outside i hi

/-- The line that scrolls off goes to the slot of its number, where the ring's oldest was. -/
theorem Grid.scroll : Grid fg bg mem t.ttyScroll { x with top := x.top + 1 } := by
  have hslot : t.scrollbackTotal % scrollbackLines = x.top % 256 := by
    rw [h.total, u32, scrollbackLines]
    omega
  have hbase : ∀ i, t.ttyScroll.base i = if 1920 ≤ i ∧ i < 1920 + 80 then t.blank else
      if i < 1920 then t.base (i + 80) else t.base i := by
    intro i
    change fill ((25 - 1) * 80) 80 t.blank (shiftDown ((25 - 1) * 80) 80 t.base) i = _
    rw [fill_apply, shiftDown_apply _ (by decide)]
  have hring : ∀ l, t.ttyScroll.scrollback l =
      update t.scrollback (x.top % 256) (copyRange 80 t.base (t.scrollback (x.top % 256))) l := by
    intro l
    rw [← hslot]
    rfl
  refine ⟨h.fore, h.back, h.offset, ?_, fun r hr c hc => ?_, fun l hl hl' c hc => ?_,
    fun r hr c hc => ?_, fun i hi => ?_⟩
  · change u32 (t.scrollbackTotal + 1) = u32 (x.top + 1)
    rw [h.total, u32, u32, u32]
    omega
  · rw [hbase]
    dsimp only
    by_cases hlast : r = 24
    · rw [if_pos (by omega), h.blank, h.fresh _ (by omega) c hc]
    · rw [if_neg (by omega), if_pos (by omega), show r * 80 + c + 80 = (r + 1) * 80 + c by omega,
        h.screen (r + 1) (by omega) c hc]
      congr 1
      omega
  · dsimp only at hl hl' ⊢
    rw [hring]
    by_cases hnew : l = x.top
    · have htop := h.screen 0 (by decide) c hc
      rw [Nat.zero_mul, Nat.zero_add, Nat.add_zero] at htop
      rw [hnew, update_self, copyRange_apply, if_pos hc, htop]
    · rw [update_of_ne (by omega)]
      exact h.ring l (by omega) (by omega) c hc
  · exact h.fresh r (by dsimp only at hr; omega) c hc
  · rw [hbase, if_neg (by omega), if_neg (by omega)]
    exact h.outside i hi

theorem Grid.nextRow (hrow : x.row = x.top + t.row) (hlt : t.row < 25) :
    Shows fg bg mem t.nextRow x.nextRow := by
  unfold Tty.nextRow Terminal.nextRow
  by_cases hleave : 25 ≤ t.row + 1
  · rw [if_pos (show ttyRows ≤ t.row + 1 from hleave), if_pos (by omega)]
    refine ⟨(h.moveCursor (t.row + 1) 0 (x.row + 1) 0).scroll, ?_, ?_, rfl, Nat.succ_pos 79⟩
    · change x.row + 1 = x.top + 1 + if 0 < t.row + 1 then t.row + 1 - 1 else t.row + 1
      rw [if_pos (Nat.succ_pos _)]
      omega
    · change (if 0 < t.row + 1 then t.row + 1 - 1 else t.row + 1) < 25
      rw [if_pos (Nat.succ_pos _)]
      omega
  · rw [if_neg (show ¬ ttyRows ≤ t.row + 1 from hleave), if_neg (by omega)]
    exact ⟨h.moveCursor (t.row + 1) 0 (x.row + 1) 0, by dsimp only; omega, by dsimp only; omega, rfl,
      Nat.succ_pos 79⟩

end

section

variable (h : Shows fg bg mem t x)
include h

theorem Shows.print (c : UInt8) : Shows fg bg mem (t.print c) (x.print (vgaEntry c fg bg)) := by
  have hgrid := h.grid.set h.row_lt h.col_lt (vgaEntry c fg bg)
  have hcell : vgaEntry c t.fg t.bg = vgaEntry c fg bg := by rw [h.grid.fore, h.grid.back]
  have hcol := h.col
  have hlt := h.col_lt
  rw [← h.row, ← hcol] at hgrid
  unfold Tty.print Terminal.print
  dsimp only
  rw [hcell, show ttyCols = 80 from rfl, ← hcol]
  by_cases hwrap : x.col + 1 = 80
  · rw [if_pos (by omega), if_pos hwrap]
    exact Grid.nextRow (hgrid.moveCursor t.row (x.col + 1) x.row x.col) h.row h.row_lt
  · rw [if_neg (by omega), if_neg hwrap]
    exact ⟨hgrid.moveCursor t.row (x.col + 1) x.row (x.col + 1), h.row, h.row_lt, rfl,
      by dsimp only; omega⟩

theorem Shows.backspace : Shows fg bg mem t.ttyBackspace (x.backspace (vgaEntry 32 fg bg)) := by
  have hrow := h.row
  have hcol := h.col
  have hlt := h.col_lt
  have hrlt := h.row_lt
  have hblank : ∀ r c, Tty.blank { t with row := r, col := c } = vgaEntry 32 fg bg := fun _ _ =>
    h.grid.blank
  unfold Tty.ttyBackspace Terminal.backspace
  dsimp only
  by_cases hzero : t.col = 0
  · rw [if_neg (not_not.mpr (hcol.trans hzero)), if_pos hzero]
    by_cases htop : t.row = 0
    · rw [if_pos ⟨hzero, htop⟩, if_pos (by omega)]
      exact h
    · -- to the end of the row above
      have hgrid := h.grid.set (show t.row - 1 < 25 by omega) (show 79 < 80 by omega)
        (vgaEntry 32 fg bg)
      rw [if_neg fun hboth => htop hboth.2, if_neg (by omega), hblank,
        show x.row - 1 = x.top + (t.row - 1) by omega]
      exact ⟨hgrid.moveCursor (t.row - 1) 79 (x.top + (t.row - 1)) 79, rfl, by dsimp only; omega, rfl,
        Nat.lt_succ_self 79⟩
  · have hgrid := h.grid.set hrlt (show t.col - 1 < 80 by omega) (vgaEntry 32 fg bg)
    rw [if_pos fun h0 => hzero (hcol.symm.trans h0), if_neg fun hboth => hzero hboth.1,
      if_neg hzero, hblank, hcol]
    rw [← hrow] at hgrid
    exact ⟨hgrid.moveCursor t.row (t.col - 1) x.row (t.col - 1), hrow, hrlt, rfl,
      by dsimp only; omega⟩

theorem Shows.showScreen : t.showScreen = t :=
  if_neg (not_not.mpr h.grid.offset)

theorem Shows.putc (c : UInt8) : Shows fg bg mem (t.ttyPutc c) (x.putc fg bg c) := by
  unfold Tty.ttyPutc Terminal.putc
  rw [h.showScreen]
  split_ifs
  · exact h.grid.nextRow h.row h.row_lt
  · exact ⟨h.grid.moveCursor t.row 0 x.row 0, h.row, h.row_lt, rfl, Nat.succ_pos 79⟩
  · have hspaces : ∀ n, Shows fg bg mem ((fun v => v.showScreen.print 32)^[n] t)
        ((Terminal.print (vgaEntry 32 fg bg))^[n] x) := by
      intro n
      induction n with
      | zero => exact h
      | succ n ih =>
        rw [iterate_succ_apply', iterate_succ_apply', ih.showScreen]
        exact ih.print 32
    rw [h.col]
    exact hspaces _
  · exact h.backspace
  · exact h
  · exact h.print c

end

theorem shows_clear (t : Tty) :
    Shows t.fg t.bg t.base t.ttyClear (.clear (vgaEntry 32 t.fg t.bg)) := by
  have hsize : ttyRows * ttyCols = 2000 := rfl
  rw [Tty.ttyClear, hsize]
  generalize hbase : fill 0 2000 t.blank t.base = base
  have hcell : ∀ i, base i = if i < 2000 then t.blank else t.base i := by
    intro i
    rw [← hbase, fill_apply]
    exact if_congr (by omega) rfl rfl
  refine ⟨⟨rfl, rfl, rfl, rfl, fun r hr c hc => ?_, nofun, fun _ _ _ _ => rfl, fun i hi => ?_⟩, rfl,
    Nat.succ_pos 24, rfl, Nat.succ_pos 79⟩
  · exact (hcell _).trans (if_pos (by omega))
  · exact (hcell i).trans (if_neg (by omega))

theorem shows_string (t : Tty) (str : List UInt8) :
    Shows t.fg t.bg t.base (str.foldl Tty.ttyPutc t.ttyClear)
      (str.foldl (Terminal.putc t.fg t.bg) (.clear (vgaEntry 32 t.fg t.bg))) := by
  have hrun : ∀ (l : List UInt8) (u : Tty) (x : Terminal), Shows t.fg t.bg t.base u x →
      Shows t.fg t.bg t.base (l.foldl Tty.ttyPutc u) (l.foldl (Terminal.putc t.fg t.bg) x) := by
    intro l
    induction l with
    | nil => exact fun u x h => h
    | cons c l ih => exact fun u x h => ih _ _ (h.putc c)
  exact hrun str _ _ (shows_clear t)

/-! ## What is kept -/

/-- The ring and the screen are the end of the ideal, as long as the count of lines reaches. -/
theorem Grid.rows_eq (h : Grid fg bg mem t x) :
    t.retained ++ t.screen = x.lastRows (min 256 x.top + 25) ↔
      x.top < 2 ^ 32 ∨ 256 ≤ x.top % 2 ^ 32 := by
  have htotal : t.scrollbackTotal = x.top % 2 ^ 32 := h.total
  constructor
  · intro heq
    have hlen := congrArg List.length heq
    simp only [Tty.retained, Tty.screen, Terminal.lastRows, List.length_append, List.length_map,
      List.length_range, scrollbackLines, ttyRows, htotal] at hlen
    omega
  · intro hcount
    have hkept : min 256 t.scrollbackTotal = min 256 x.top := by omega
    have hscreen : t.screen = (List.range 25).map fun k => (List.range 80).map fun col =>
        x.cells (x.top + k) col := by
      refine List.map_congr_left fun r hr => List.map_congr_left fun c hc => ?_
      exact h.screen r (List.mem_range.mp hr) c (List.mem_range.mp hc)
    have hretained : t.retained = (List.range (min 256 x.top)).map fun k =>
        (List.range 80).map fun col => x.cells (x.top - min 256 x.top + k) col := by
      rw [Tty.retained, show scrollbackLines = 256 from rfl, hkept]
      refine List.map_congr_left fun k hk => List.map_congr_left fun c hc => ?_
      rw [List.mem_range] at hk
      -- the slot of a line is the same for both counts
      have hslot : (t.scrollbackTotal - min 256 x.top + k) % 256 =
          (x.top - min 256 x.top + k) % 256 := by omega
      rw [hslot]
      exact h.ring _ (by omega) (by omega) c (List.mem_range.mp hc)
    rw [hscreen, hretained, Terminal.lastRows, List.range_add, List.map_append, List.map_map]
    congr 1
    · refine List.map_congr_left fun k _ => List.map_congr_left fun c _ => ?_
      congr 1
      omega
    · refine List.map_congr_left fun k _ => ?_
      rw [comp_apply]
      refine List.map_congr_left fun c _ => ?_
      congr 1
      omega

/-- For every string: the cursor stays on the screen, nothing is written outside it, and the ring and
the screen are the last rows of the ideal exactly when fewer than `2 ^ 32` rows have scrolled off,
or the count that has gone around is at 256 again. -/
theorem tty_shows_terminal (t : Tty) (str : List UInt8) : let u := str.foldl Tty.ttyPutc t.ttyClear
    let x := str.foldl (Terminal.putc t.fg t.bg) (.clear (vgaEntry 32 t.fg t.bg))
    (u.retained ++ u.screen = x.lastRows (min 256 x.top + 25) ↔
      x.top < 2 ^ 32 ∨ 256 ≤ x.top % 2 ^ 32) ∧
    u.row < ttyRows ∧ u.col < ttyCols ∧ ∀ i, ttyRows * ttyCols ≤ i → u.base i = t.base i := by
  have h := shows_string t str
  exact ⟨h.grid.rows_eq, h.row_lt, h.col_lt, h.grid.outside⟩

theorem newlines_top (fg bg : UInt8) (n : Nat) :
    ((List.replicate n 10).foldl (Terminal.putc fg bg) (.clear (vgaEntry 32 fg bg))).top = n - 24 ∧
      ((List.replicate n 10).foldl (Terminal.putc fg bg) (.clear (vgaEntry 32 fg bg))).row = n := by
  induction n with
  | zero => exact ⟨rfl, rfl⟩
  | succ n ih =>
    rw [List.replicate_succ', List.foldl_append, List.foldl_cons, List.foldl_nil, Terminal.putc,
      if_pos rfl]
    generalize (List.replicate n 10).foldl (Terminal.putc fg bg) (.clear (vgaEntry 32 fg bg)) = x at ih
    rw [Terminal.nextRow]
    dsimp only
    rw [ih.1, ih.2]
    refine ⟨?_, rfl⟩
    split_ifs <;> omega

def darkTty : Tty := ⟨fun _ => 0, 0, 0, 7, 0, fun _ _ => 0, 0, 0⟩

/-- The newline that scrolls off row number `2 ^ 32` empties the scrollback. -/
theorem tty_scrollback_lost :
    ∃ str : List UInt8, ((str.foldl Tty.ttyPutc darkTty.ttyClear).retained = []) ∧
      (str.foldl (Terminal.putc 7 0) (.clear (vgaEntry 32 7 0))).top = 2 ^ 32 ∧
      (str.foldl Tty.ttyPutc darkTty.ttyClear).retained ++
          (str.foldl Tty.ttyPutc darkTty.ttyClear).screen ≠
        (str.foldl (Terminal.putc 7 0) (.clear (vgaEntry 32 7 0))).lastRows (min 256 (2 ^ 32) + 25) := by
  have h := shows_string darkTty (List.replicate (2 ^ 32 + 24) 10)
  have htop := (newlines_top 7 0 (2 ^ 32 + 24)).1
  rw [Nat.add_sub_cancel] at htop
  refine ⟨List.replicate (2 ^ 32 + 24) 10, ?_⟩
  generalize List.replicate (2 ^ 32 + 24) (10 : UInt8) = str at h htop
  have hgrid := h.grid
  change Grid 7 0 _ _ (str.foldl (Terminal.putc 7 0) (.clear (vgaEntry 32 7 0))) at hgrid
  generalize str.foldl (Terminal.putc 7 0) (.clear (vgaEntry 32 7 0)) = x at hgrid htop
  generalize str.foldl Tty.ttyPutc darkTty.ttyClear = u at hgrid
  have htotal : u.scrollbackTotal = 0 := by
    rw [hgrid.total, htop]
    rfl
  refine ⟨by rw [Tty.retained, htotal]; rfl, htop, fun heq => ?_⟩
  rw [← htop] at heq
  have hcount := hgrid.rows_eq.mp heq
  rw [htop] at hcount
  omega

end CfKernel.Drivers
