import CfKernel.Lib.Bytes

/-!
# The line discipline

The canonical input of `line.c`: key events edit a buffer until a line is submitted, and a reader
takes the line. What the functions send to the terminal and the signals they raise are collected in
`output`. `sched_yield` comes last in the calls that make it, so a reader it lets run is the next
step.
-/

namespace CfKernel.Drivers

open Lib Function

/-- The keys that `line.c` tells apart. -/
inductive Keycode where
  | f12
  | up
  | down
  | pageUp
  | pageDown
  | other (code : Nat)
  deriving DecidableEq

inductive KeyEventType where
  | press
  | release
  deriving DecidableEq

structure KeyEvent where
  type : KeyEventType
  keycode : Keycode
  ascii : UInt8

inductive LineSignal where
  | sigint
  | sigtstp

inductive LineOutput where
  | putc (c : UInt8)
  /-- `TTY_scrollback` by a page. -/
  | page (up : Bool)
  | signal (sig : LineSignal)

structure LineState where
  buffer : Bytes
  len : Nat
  history : Nat → Bytes
  draft : Bytes
  historyCount : Nat
  historyIndex : Int
  ready : Bool
  eof : Bool
  output : List LineOutput

def lineBufferSize : Nat := 256

def lineHistorySize : Nat := 8

def strlen (b : Bytes) (size : Nat) : Nat := ((List.range size).find? fun i => b i = 0).getD size

/-- `strcmp(a, b) == 0` from byte `i` on, for strings of at most `n` more bytes. -/
def strcmpEqual (a b : Bytes) : Nat → Nat → Bool
  | 0, _ => true
  | n + 1, i => if a i ≠ b i then false else if a i = 0 then true else strcmpEqual a b n (i + 1)

namespace LineState

def lineReset (s : LineState) : LineState :=
  { s with
    len := 0, buffer := update s.buffer 0 0, historyIndex := -1, ready := false
    eof := false }

def emit (s : LineState) (l : List LineOutput) : LineState := { s with output := s.output ++ l }

def puts (s : LineState) (l : List UInt8) : LineState := s.emit (l.map .putc)

def dropOldest (s : LineState) : LineState :=
  { s with
    history := fun i => if i < lineHistorySize - 1 then s.history (i + 1) else s.history i
    historyCount := s.historyCount - 1 }

def lineStoreHistory (s : LineState) : LineState :=
  if s.len = 0 then s
  else if s.historyCount ≠ 0 ∧
      strcmpEqual (s.history (s.historyCount - 1)) s.buffer lineBufferSize 0 then s
  else
    let t := if s.historyCount = lineHistorySize then s.dropOldest else s
    { t with
      history := update t.history t.historyCount
        (splice (t.history t.historyCount) 0 (t.len + 1) t.buffer)
      historyCount := t.historyCount + 1 }

def lineReplace (s : LineState) (text : Bytes) : LineState :=
  let t := s.puts (List.replicate s.len [8, 32, 8]).flatten
  let len := strlen text lineBufferSize
  let u := { t with len := len, buffer := splice t.buffer 0 (len + 1) text }
  u.puts ((List.range len).map u.buffer)

def lineHistoryMove (s : LineState) (back : Bool) : LineState :=
  if s.historyCount = 0 then s
  else if back then
    if s.historyIndex < 0 then
      let t := { s with
        draft := splice s.draft 0 (s.len + 1) s.buffer, historyIndex := s.historyCount - 1 }
      t.lineReplace (t.history t.historyIndex.toNat)
    else if 0 < s.historyIndex then
      let t := { s with historyIndex := s.historyIndex - 1 }
      t.lineReplace (t.history t.historyIndex.toNat)
    else s
  else if s.historyIndex < 0 then s
  else if s.historyIndex < s.historyCount - 1 then
    let t := { s with historyIndex := s.historyIndex + 1 }
    t.lineReplace (t.history t.historyIndex.toNat)
  else
    let t := { s with historyIndex := -1 }
    t.lineReplace t.draft

/-- `line_buffer[line_len] = '\0'`, the line into the history, and the flag for the reader. -/
def submit (s : LineState) : LineState :=
  { ({ s with buffer := update s.buffer s.len 0 } : LineState).lineStoreHistory with
    ready := true }

/-- The part of `line_handle_keyevent` that looks at the character. -/
def handleChar (s : LineState) (ch : UInt8) : Nat × LineState :=
  if ch = 0x03 then
    (0, ({ s with len := 0, buffer := update s.buffer 0 0, historyIndex := -1 } :
      LineState).emit [.putc 94, .putc 67, .putc 10, .signal .sigint])
  else if ch = 0x1A then (0, s.emit [.putc 94, .putc 90, .putc 10, .signal .sigtstp])
  else if ch = 0x04 then
    if s.len = 0 then (1, { s with eof := true })
    else (1, s.submit.puts [10])
  else if ch = 10 ∨ ch = 13 then
    (1, ({ s.submit with historyIndex := -1 } : LineState).puts [10])
  else if ch = 8 ∨ ch = 0x7F then
    if 0 < s.len then
      (0, ({ s with
        historyIndex := -1, len := s.len - 1
        buffer := update s.buffer (s.len - 1) 0 } : LineState).puts [8, 32, 8])
    else (0, s)
  else if ch < 32 then (0, s)
  else if s.len < lineBufferSize - 1 then
    (0, ({ s with
      historyIndex := -1, len := s.len + 1
      buffer := update (update s.buffer s.len ch) (s.len + 1) 0 } :
      LineState).puts [ch])
  else (0, s)

/-- `line_handle_keyevent`, with its return value. -/
def lineHandleKeyevent (ev : Option KeyEvent) (s : LineState) : Nat × LineState :=
  match ev with
  | none => (0, s)
  | some ev =>
    if ev.type ≠ .press then (0, s)
    else if ev.keycode = .f12 then (0, s)
    else if s.ready ∨ s.eof then (0, s)
    else if ev.keycode = .up then (0, s.lineHistoryMove true)
    else if ev.keycode = .down then (0, s.lineHistoryMove false)
    else if ev.keycode = .pageUp then (0, s.emit [.page true])
    else if ev.keycode = .pageDown then (0, s.emit [.page false])
    else s.handleChar ev.ascii

/-- `line_read` that does not wait: the return value and the caller's buffer. -/
def lineRead (buffer : Option Bytes) (capacity : Nat) (s : LineState) :
    (Int × Option Bytes) × LineState :=
  match buffer with
  | none => ((-1, none), s)
  | some dst =>
    if capacity = 0 then ((-1, some dst), s)
    else if ¬ s.ready ∧ ¬ s.eof then ((0, some dst), s)
    else if s.eof then ((0, some dst), s.lineReset)
    else if capacity ≤ s.len then ((-1, some dst), s)
    else ((s.len, some (update (splice dst 0 s.len s.buffer) s.len 0)), s.lineReset)

end LineState

end CfKernel.Drivers
