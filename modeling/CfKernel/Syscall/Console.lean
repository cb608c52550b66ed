import CfKernel.Drivers.LineHistory
import CfKernel.Syscall.FileIo

/-!
# Reading a line from the terminal

`SYS_read` on descriptor 0 and `SYS_scan` take a submitted line through `line_read`. A buffer that the
line does not fit is an error that leaves the line where it is: the keyboard stays deaf, and the next
reader gets the line.
-/

namespace CfKernel.Syscall

open Lib Lib.Eff Mm Drivers

/-- The line discipline and the memory of the process that reads. -/
structure Console where
  line : LineState
  user : UserSpace

abbrev ConsoleM := Eff Stop Console

def onProcess {α : Type} (m : UserM α) : ConsoleM α := fun s =>
  ((m s.user).1, { s with user := (m s.user).2 })

/-- `line_read(buffer, capacity, true)`, which yields as long as nothing is submitted. -/
def lineReadWait (buffer : Bytes) (capacity : Nat) : ConsoleM (Int × Option Bytes) := fun s =>
  if capacity ≠ 0 ∧ ¬ s.line.ready ∧ ¬ s.line.eof then (.error .endless, s)
  else
    (.ok (s.line.lineRead (some buffer) capacity).1,
      { s with line := (s.line.lineRead (some buffer) capacity).2 })

def checkBuffer (userBuf : Nat) (count : Int) (body : ConsoleM Int) : ConsoleM Int :=
  if userBuf = 0 ∨ count ≤ 0 then pure Errno.invalidArgument.code
  else if syscallIoMax < count.toNat then pure Errno.bufferTooSmall.code
  else do
    if ¬ (← onProcess (userRangeValid userBuf count.toNat true)) then pure Errno.badAddress.code
    else body

/-- `SYS_read` on descriptor 0; `chunk` is the buffer on the kernel stack. -/
def sysReadTerminal (chunk : Bytes) (userBuf : Nat) (count : Int) : ConsoleM Int :=
  checkBuffer userBuf count do
    let (r, chunk) ← lineReadWait chunk (chunkLength count.toNat 0)
    if r < 0 then pure r
    else do
      let copied ← onProcess (copyToUser userBuf chunk r.toNat)
      pure (if statusOf copied = .success then r else (statusOf copied : Int))

/-- `SYS_scan`; `heap` is whether `malloc` finds room. -/
def sysScan (heap : Bool) (userBuf : Nat) (count : Int) : ConsoleM Int :=
  checkBuffer userBuf count do
    if ¬ heap then pure Errno.outOfMemory.code
    else do
      let (result, buffer) ← lineReadWait (fun _ => 0) count.toNat
      let outputLength := strlen (buffer.getD fun _ => 0) count.toNat + 1
      let copied ← onProcess (copyToUser userBuf buffer outputLength)
      pure (if statusOf copied = .success then result else (statusOf copied : Int))

/-- The line is gone: characters are input again, and a read finds nothing. -/
structure Consumed (s : LineState) : Prop where
  accepts : ∀ ch : UInt8, 32 ≤ ch → ch ≠ 0x7F →
    (s.lineHandleKeyevent (some ⟨.press, .other 0, ch⟩)).2.inputText = [ch]
  gone : ∀ (buffer : Bytes) (capacity : Nat), 1 ≤ capacity →
    s.lineRead (some buffer) capacity = ((0, some buffer), s)

variable {s : LineState} {c : Console} {capacity : Nat} {buffer : Bytes}

theorem not_consumed (h : s.ready = true) : ¬ Consumed s := by
  intro hc
  have ha := hc.accepts 97 (by decide) (by decide)
  have hb := hc.accepts 98 (by decide) (by decide)
  rw [lineHandleKeyevent_waiting _ (.inl h)] at ha hb
  exact absurd (ha.symm.trans hb) (by decide)

theorem consumed_lineReset (s : LineState) : Consumed s.lineReset where
  accepts ch hprint hdel := by
    have hempty : Matches s.lineReset (.editing []) :=
      ⟨⟨rfl, holds_nil (Function.update_self 0 0 s.buffer), Nat.zero_le _⟩, rfl, rfl⟩
    have hctrl : ∀ x : UInt8, x < 32 → ch ≠ x := fun x hx heq =>
      UInt8.not_lt.mpr hprint (heq ▸ hx)
    have hkey : (Editor.editing []).key ⟨.press, .other 0, ch⟩ = .editing [ch] := by
      rw [Editor.key, if_pos (by simp), Editor.char, if_neg (hctrl _ (by decide)),
        if_neg (hctrl _ (by decide)),
        if_neg (not_or.mpr ⟨hctrl _ (by decide), hctrl _ (by decide)⟩),
        if_neg (not_or.mpr ⟨hctrl _ (by decide), hdel⟩), if_pos ⟨hprint, by decide⟩,
        List.nil_append]
    have hnext : Matches (s.lineReset.lineHandleKeyevent (some ⟨.press, .other 0, ch⟩)).2
        ((Editor.editing []).key ⟨.press, .other 0, ch⟩) :=
      matches_key hempty (by simp) (by simp)
    rw [hkey] at hnext
    exact hnext.represents.inputText
  gone buffer capacity hcap := by
    rw [LineState.lineRead, if_neg (by omega), if_pos ⟨Bool.false_ne_true, Bool.false_ne_true⟩]

theorem lineRead_consumed_iff (hready : s.ready = true) (hcap : 1 ≤ capacity) :
    Consumed (s.lineRead (some buffer) capacity).2 ↔ s.eof = true ∨ s.len < capacity := by
  rw [LineState.lineRead, if_neg (by omega), if_neg fun hnone => hnone.1 hready]
  by_cases heof : s.eof = true
  · rw [if_pos heof]
    exact iff_of_true (consumed_lineReset s) (.inl heof)
  · rw [if_neg heof]
    by_cases hlong : capacity ≤ s.len
    · rw [if_pos hlong]
      exact iff_of_false (not_consumed hready) (not_or.mpr ⟨heof, not_lt.mpr hlong⟩)
    · rw [if_neg hlong]
      exact iff_of_true (consumed_lineReset s) (.inr (not_le.mp hlong))

theorem lineReadWait_ready (hready : c.line.ready = true) :
    lineReadWait buffer capacity c =
      (.ok (c.line.lineRead (some buffer) capacity).1,
        { c with line := (c.line.lineRead (some buffer) capacity).2 }) :=
  if_neg fun hwait => hwait.2.1 hready

theorem onProcess_line {α β : Type} (m : UserM α) (g : α → β) (c : Console) :
    ((onProcess m >>= fun r => pure (g r) : ConsoleM β) c).2.line = c.line := by
  rcases hm : m c.user with ⟨e | r, u⟩
  · have hrun : (onProcess m : ConsoleM α) c = (.error e, { c with user := u }) := by
      rw [onProcess, hm]
    rw [bind_error hrun]
  · have hrun : (onProcess m : ConsoleM α) c = (.ok r, { c with user := u }) := by
      rw [onProcess, hm]
    rw [bind_ok hrun]
    rfl

def Admitted (c : Console) (userBuf : Nat) (count : Int) : Prop :=
  userBuf ≠ 0 ∧ count ≤ 65536 ∧ (userRangeValid userBuf count.toNat true c.user).1 = .ok true

variable {count : Int}

theorem checkBuffer_run (userBuf : Nat) (body : ConsoleM Int) (hcount : 1 ≤ count) (c : Console) :
    (Admitted c userBuf count ∧ checkBuffer userBuf count body c = body c) ∨
      (¬ Admitted c userBuf count ∧ (checkBuffer userBuf count body c).2.line = c.line) := by
  rw [checkBuffer]
  by_cases hnull : userBuf = 0
  · rw [if_pos (.inl hnull)]
    exact .inr ⟨fun h => h.1 hnull, rfl⟩
  rw [if_neg (by omega)]
  split_ifs with hmax
  · rw [syscallIoMax] at hmax
    exact .inr ⟨fun h => absurd h.2.1 (by omega), rfl⟩
  rw [syscallIoMax] at hmax
  obtain ⟨valid, hrange, -⟩ := userRangeValid_run c.user userBuf count.toNat true
  have hrun : (onProcess (userRangeValid userBuf count.toNat true) : ConsoleM Bool) c =
      (.ok valid, c) := by
    rw [onProcess, hrange]
  rw [bind_ok hrun]
  cases valid with
  | true =>
    rw [if_neg (not_not_intro rfl)]
    exact .inl ⟨⟨hnull, by omega, by rw [hrange]⟩, rfl⟩
  | false =>
    rw [if_pos Bool.false_ne_true]
    refine .inr ⟨fun h => ?_, rfl⟩
    have hfalse := h.2.2
    rw [hrange] at hfalse
    exact Bool.false_ne_true (Except.ok.inj hfalse)

theorem sysReadTerminal_consumed_iff (chunk : Bytes) (userBuf : Nat) (hcount : 1 ≤ count)
    (hready : c.line.ready = true) :
    Consumed (sysReadTerminal chunk userBuf count c).2.line ↔
      Admitted c userBuf count ∧ (c.line.eof = true ∨ c.line.len < chunkLength count.toNat 0) := by
  have hcap : 1 ≤ chunkLength count.toNat 0 := chunkLength_pos (by omega)
  rw [sysReadTerminal]
  rcases checkBuffer_run userBuf _ hcount c with ⟨hok, hrun⟩ | ⟨hno, hrun⟩
  · rw [hrun, bind_ok (lineReadWait_ready hready), ← lineRead_consumed_iff hready hcap]
    dsimp only
    split_ifs
    · exact ⟨fun h => ⟨hok, h⟩, And.right⟩
    · rw [onProcess_line]
      exact ⟨fun h => ⟨hok, h⟩, And.right⟩
  · rw [hrun]
    exact iff_of_false (not_consumed hready) fun h => hno h.1

theorem sysScan_consumed_iff (heap : Bool) (userBuf : Nat) (hcount : 1 ≤ count)
    (hready : c.line.ready = true) :
    Consumed (sysScan heap userBuf count c).2.line ↔
      Admitted c userBuf count ∧ heap = true ∧
        (c.line.eof = true ∨ c.line.len < count.toNat) := by
  rw [sysScan]
  rcases checkBuffer_run userBuf _ hcount c with ⟨hok, hrun⟩ | ⟨hno, hrun⟩
  · rw [hrun]
    cases heap with
    | false =>
      rw [if_pos Bool.false_ne_true]
      exact iff_of_false (not_consumed hready) fun h => Bool.false_ne_true h.2.1
    | true =>
      rw [if_neg (not_not_intro rfl), bind_ok (lineReadWait_ready hready), onProcess_line,
        lineRead_consumed_iff hready (by omega)]
      exact ⟨fun h => ⟨hok, rfl, h⟩, fun h => h.2.2⟩
  · rw [hrun]
    exact iff_of_false (not_consumed hready) fun h => hno h.1

/-- A submitted line is taken by a read exactly when it fits the buffer with its terminator; through
the system calls, when they also get as far as the read. -/
theorem line_consumed_iff (c : Console) (hready : c.line.ready = true) :
    (∀ (buffer : Bytes) (capacity : Nat), 1 ≤ capacity →
      (Consumed (c.line.lineRead (some buffer) capacity).2 ↔
        c.line.eof = true ∨ c.line.len < capacity)) ∧
    (∀ (chunk : Bytes) (userBuf : Nat) (count : Int), 1 ≤ count →
      (Consumed (sysReadTerminal chunk userBuf count c).2.line ↔
        Admitted c userBuf count ∧ (c.line.eof = true ∨ c.line.len < chunkLength count.toNat 0))) ∧
    ∀ (heap : Bool) (userBuf : Nat) (count : Int), 1 ≤ count →
      (Consumed (sysScan heap userBuf count c).2.line ↔
        Admitted c userBuf count ∧ heap = true ∧
          (c.line.eof = true ∨ c.line.len < count.toNat)) :=
  ⟨fun _ _ hcap => lineRead_consumed_iff hready hcap,
    fun chunk userBuf _ hcount => sysReadTerminal_consumed_iff chunk userBuf hcount hready,
    fun heap userBuf _ hcount => sysScan_consumed_iff heap userBuf hcount hready⟩

def sixteenA : LineState := { blankLine with buffer := fun _ => 97, len := 16, ready := true }

theorem line_consumed_sixteenA : Consumed (sixteenA.lineRead (some fun _ => 0) 256).2 :=
  ((line_consumed_iff ⟨sixteenA, ⟨fun _ => 0, 0, []⟩⟩ rfl).1 (fun _ => 0) 256 (by decide)).mpr
    (.inr (by decide))

/-- A reader with a buffer of 16 bytes gets an error, the keyboard stays deaf, and the next reader
gets the line. -/
theorem line_kept_sixteenA :
    (sixteenA.lineRead (some fun _ => 0) 16).1.1 = -1 ∧
      ¬ Consumed (sixteenA.lineRead (some fun _ => 0) 16).2 ∧
      ((sixteenA.lineRead (some fun _ => 0) 16).2.lineRead (some fun _ => 0) 256).1.1 = 16 :=
  ⟨by decide, (lineRead_consumed_iff rfl (by decide)).not.mpr (by decide), by decide⟩

end CfKernel.Syscall
