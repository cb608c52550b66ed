import CfKernel.Lib.Bytes
import CfKernel.Lib.Fill

/-!
# The VGA terminal

`tty.c` without a framebuffer: a screen of 25 rows of 80 cells at `TTY_base`, a cursor, and a ring of
256 lines that have scrolled off. `scrollback_total` counts them in a 32-bit `size_t`.
-/

namespace CfKernel.Drivers

open Lib Function

def ttyRows : Nat := 25

def ttyCols : Nat := 80

def scrollbackLines : Nat := 256

structure Tty where
  /-- Memory from `TTY_base` on. -/
  base : Nat → UInt16
  row : Nat
  col : Nat
  fg : UInt8
  bg : UInt8
  scrollback : Nat → Nat → UInt16
  scrollbackTotal : Nat
  scrollbackOffset : Nat

/-- A cell; `char` is signed, so a byte above 127 sets the bits of the attribute as well. -/
def vgaEntry (c fg bg : UInt8) : UInt16 :=
  (if c < 0x80 then c.toUInt16 else c.toUInt16 ||| 0xFF00) |||
    ((((bg &&& 0x0F) <<< 4) ||| (fg &&& 0x0F)).toUInt16 <<< 8)

namespace Tty

def blank (t : Tty) : UInt16 := vgaEntry 32 t.fg t.bg

def ttyClear (t : Tty) : Tty :=
  { t with
    scrollbackTotal := 0, scrollbackOffset := 0
    base := fill 0 (ttyRows * ttyCols) t.blank t.base
    row := 0, col := 0 }

/-- `TTY_scroll`: the first row goes to the ring, the others move up. -/
def ttyScroll (t : Tty) : Tty :=
  let slot := t.scrollbackTotal % scrollbackLines
  { t with
    scrollback := update t.scrollback slot
      (copyRange ttyCols t.base (t.scrollback slot))
    scrollbackTotal := u32 (t.scrollbackTotal + 1)
    base := fill ((ttyRows - 1) * ttyCols) ttyCols t.blank
      (shiftDown ((ttyRows - 1) * ttyCols) ttyCols t.base)
    row := if 0 < t.row then t.row - 1 else t.row }

/-- `TTY_scrollback` by `amount` lines, up or down; the cells are written in place, in order. -/
def ttyScrollback (up : Bool) (amount : Nat) (t : Tty) : Tty :=
  if t.scrollbackTotal = 0 then t
  else
    let total := t.scrollbackTotal
    let maxOffset := if total < scrollbackLines then total else scrollbackLines
    let offset :=
      if up then
        if maxOffset - t.scrollbackOffset < amount then maxOffset else t.scrollbackOffset + amount
      else if t.scrollbackOffset < amount then 0 else t.scrollbackOffset - amount
    let oldest := if scrollbackLines < total then total - scrollbackLines else 0
    let cell (b : Nat → UInt16) (i : Nat) : UInt16 :=
      let logicalRow := u32 (total - offset + i / ttyCols)
      if logicalRow < total ∧ oldest ≤ logicalRow then
        t.scrollback (logicalRow % scrollbackLines) (i % ttyCols)
      else if total ≤ logicalRow ∧ logicalRow - total < ttyRows then
        b ((logicalRow - total) * ttyCols + i % ttyCols)
      else t.blank
    { t with
      scrollbackOffset := offset
      base := (List.range (ttyRows * ttyCols)).foldl (fun b i => update b i (cell b i))
        t.base }

def ttyBackspace (t : Tty) : Tty :=
  if t.col = 0 ∧ t.row = 0 then t
  else
    let u := if t.col = 0 then { t with row := t.row - 1, col := ttyCols - 1 }
      else { t with col := t.col - 1 }
    { u with base := update u.base (u.row * ttyCols + u.col) u.blank }

/-- The cursor goes to the start of the next row. -/
def nextRow (t : Tty) : Tty :=
  let u := { t with col := 0, row := t.row + 1 }
  if ttyRows ≤ u.row then u.ttyScroll else u

def print (c : UInt8) (t : Tty) : Tty :=
  let u := { t with
    base := update t.base (t.row * ttyCols + t.col) (vgaEntry c t.fg t.bg)
    col := t.col + 1 }
  if ttyCols ≤ u.col then u.nextRow else u

/-- `if (scrollback_offset) TTY_scrollback(scrollback_offset)`. -/
def showScreen (t : Tty) : Tty :=
  if t.scrollbackOffset ≠ 0 then t.ttyScrollback false t.scrollbackOffset else t

/-- `TTY_putc`; the turns of the tab call it again with a space. -/
def ttyPutc (t : Tty) (c : UInt8) : Tty :=
  let u := t.showScreen
  if c = 10 then u.nextRow
  else if c = 13 then { u with col := 0 }
  else if c = 9 then (fun v => v.showScreen.print 32)^[4 - u.col % 4] u
  else if c = 8 then u.ttyBackspace
  else if c < 32 then u
  else u.print c

/-- The retained lines of the scrollback, oldest first, each with its cells. -/
def retained (t : Tty) : List (List UInt16) :=
  let kept := min scrollbackLines t.scrollbackTotal
  (List.range kept).map fun k => (List.range ttyCols).map fun col =>
    t.scrollback ((t.scrollbackTotal - kept + k) % scrollbackLines) col

def screen (t : Tty) : List (List UInt16) :=
  (List.range ttyRows).map fun row => (List.range ttyCols).map fun col =>
    t.base (row * ttyCols + col)

end Tty

end CfKernel.Drivers
