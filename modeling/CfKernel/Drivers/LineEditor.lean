import CfKernel.Drivers.Line

/-!
# The line discipline is a line editor

`Editor` is what the line discipline is for: a text that keys edit, that is submitted once and read
once. The code's buffer, length and flags represent an editor, and as long as nobody walks through
the history each key event and each read does to the code what it does to the editor.
-/

namespace CfKernel.Drivers

open Lib Function

inductive Editor where
  | editing (text : List UInt8)
  | submitted (text : List UInt8)
  | endOfFile
  deriving DecidableEq

/-- What a read gets. -/
inductive Delivery where
  | nothing
  | line (text : List UInt8)
  | endOfFile
  deriving DecidableEq

namespace Editor

def char (text : List UInt8) (ch : UInt8) : Editor :=
  if ch = 0x03 then .editing []
  else if ch = 0x04 then if text = [] then .endOfFile else .submitted text
  else if ch = 10 ∨ ch = 13 then .submitted text
  else if ch = 8 ∨ ch = 0x7F then .editing text.dropLast
  else if 32 ≤ ch ∧ text.length < 255 then .editing (text ++ [ch])
  else .editing text

/-- A key event. Releases and the keys of the window manager and of the scrollback are no input, and
nothing is input while a submission waits for its reader. -/
def key (ev : KeyEvent) : Editor → Editor
  | .editing text =>
    if ev.type = .press ∧ ev.keycode ≠ .f12 ∧ ev.keycode ≠ .pageUp ∧ ev.keycode ≠ .pageDown then
      char text ev.ascii
    else .editing text
  | .submitted text => .submitted text
  | .endOfFile => .endOfFile

def read : Editor → Delivery × Editor
  | .editing text => (.nothing, .editing text)
  | .submitted text => (.line text, .editing [])
  | .endOfFile => (.endOfFile, .editing [])

def text : Editor → List UInt8
  | .editing text => text
  | .submitted text => text
  | .endOfFile => []

def pending : Editor → List Delivery
  | .editing _ => []
  | .submitted text => [.line text]
  | .endOfFile => [.endOfFile]

end Editor

inductive LineAction where
  | key (ev : KeyEvent)
  /-- `line_read(buffer, 256, false)`. -/
  | read (buffer : Bytes)

def LineAction.IsHistoryKey : LineAction → Prop
  | .key ev => ev.keycode = .up ∨ ev.keycode = .down
  | .read _ => False

/-- The code with the results of the reads so far. -/
structure LineRun where
  state : LineState
  results : List (Int × Option Bytes)

def LineRun.step (r : LineRun) : LineAction → LineRun
  | .key ev => { r with state := (r.state.lineHandleKeyevent (some ev)).2 }
  | .read buffer =>
    let out := r.state.lineRead (some buffer) 256
    ⟨out.2, r.results ++ [out.1]⟩

/-- The editor with what its reads got and what was submitted so far. -/
structure EditorRun where
  editor : Editor
  reads : List (Bytes × Delivery)
  submissions : List Delivery

def EditorRun.step (r : EditorRun) : LineAction → EditorRun
  | .key ev =>
    { r with
      editor := r.editor.key ev
      submissions := r.submissions ++
        if r.editor.pending = [] then (r.editor.key ev).pending else [] }
  | .read buffer =>
    { r with editor := r.editor.read.2, reads := r.reads ++ [(buffer, r.editor.read.1)] }

def EditorRun.start : EditorRun := ⟨.editing [], [], []⟩

/-- What `line_read` returns and leaves in the caller's buffer. -/
def Delivery.result : Bytes × Delivery → Int × Option Bytes
  | (buffer, .line text) =>
    (text.length, some fun i => if i = text.length then 0 else text[i]?.getD (buffer i))
  | (buffer, _) => (0, some buffer)

def EditorRun.delivered (r : EditorRun) : List Delivery :=
  (r.reads.map Prod.snd).filter fun d => d ≠ .nothing

/-- The buffer is a C string: `text` and then a zero, which is its first. -/
structure Holds (b : Bytes) (text : List UInt8) : Prop where
  bytes : ∀ i (h : i < text.length), b i = text[i]
  stop : b text.length = 0
  nonzero : 0 ∉ text

/-- The code's state for an editor. -/
structure Represents (s : LineState) (text : List UInt8) : Prop where
  len : s.len = text.length
  holds : Holds s.buffer text
  short : text.length ≤ 255

def Matches (s : LineState) : Editor → Prop
  | .editing text => Represents s text ∧ s.ready = false ∧ s.eof = false
  | .submitted text => Represents s text ∧ s.ready = true ∧ s.eof = false
  | .endOfFile => Represents s [] ∧ s.ready = false ∧ s.eof = true

/-! ## One step -/

variable {s : LineState} {b : Bytes} {text : List UInt8} {e : Editor}

theorem holds_nil (h : b 0 = 0) : Holds b [] := ⟨nofun, h, nofun⟩

theorem Holds.append {ch : UInt8} (h : Holds b text) (hch : ch ≠ 0) :
    Holds (update (update b text.length ch) (text.length + 1) 0) (text ++ [ch]) := by
  refine ⟨fun i hi => ?_, ?_, fun h0 => ?_⟩
  · rw [List.length_append, List.length_singleton] at hi
    rw [update_of_ne (by omega)]
    by_cases hlast : i = text.length
    · subst hlast
      rw [update_self, List.getElem_append_right le_rfl]
      simp
    · rw [update_of_ne hlast, List.getElem_append_left (by omega), h.bytes]
  · rw [List.length_append, List.length_singleton, update_self]
  · rcases List.mem_append.mp h0 with h0 | h0
    · exact h.nonzero h0
    · exact hch (List.mem_singleton.mp h0).symm

theorem Holds.dropLast (h : Holds b text) (hne : text ≠ []) :
    Holds (update b (text.length - 1) 0) text.dropLast := by
  refine ⟨fun i hi => ?_, ?_, fun h0 => h.nonzero (List.mem_of_mem_dropLast h0)⟩
  · rw [List.length_dropLast] at hi
    rw [update_of_ne (by omega), List.getElem_dropLast, h.bytes]
  · rw [List.length_dropLast, update_self]

theorem lineStoreHistory_keeps (s : LineState) :
    s.lineStoreHistory.buffer = s.buffer ∧ s.lineStoreHistory.len = s.len ∧
      s.lineStoreHistory.ready = s.ready ∧ s.lineStoreHistory.eof = s.eof := by
  unfold LineState.lineStoreHistory
  split_ifs <;> exact ⟨rfl, rfl, rfl, rfl⟩

theorem Represents.submit (h : Represents s text) (heof : s.eof = false) :
    Matches s.submit (.submitted text) := by
  obtain ⟨hbuf, hlen, -, heof'⟩ := lineStoreHistory_keeps
    { s with buffer := update s.buffer s.len 0 }
  have hsame : update s.buffer s.len 0 = s.buffer :=
    update_eq_self_iff.mpr (by rw [h.len, h.holds.stop])
  refine ⟨⟨hlen.trans h.len, ?_, h.short⟩, rfl, heof'.trans heof⟩
  change Holds (LineState.lineStoreHistory _).buffer text
  rw [hbuf, hsame]
  exact h.holds

theorem matches_char (ch : UInt8) (h : Matches s (.editing text)) :
    Matches (s.handleChar ch).2 (.char text ch) := by
  obtain ⟨hrep, hready, heof⟩ := h
  have hempty : s.len = 0 ↔ text = [] := by rw [hrep.len, List.length_eq_zero_iff]
  unfold LineState.handleChar Editor.char
  by_cases hintr : ch = 0x03
  · rw [if_pos hintr, if_pos hintr]
    exact ⟨⟨rfl, holds_nil (update_self 0 0 s.buffer), Nat.zero_le _⟩, hready, heof⟩
  rw [if_neg hintr, if_neg hintr]
  by_cases hsusp : ch = 0x1A
  · subst hsusp
    rw [if_pos rfl, if_neg (by decide), if_neg (by decide), if_neg (by decide),
      if_neg fun hboth => absurd hboth.1 (by decide)]
    exact ⟨⟨hrep.len, hrep.holds, hrep.short⟩, hready, heof⟩
  rw [if_neg hsusp]
  by_cases heot : ch = 0x04
  · rw [if_pos heot, if_pos heot]
    by_cases htext : text = []
    · rw [if_pos (hempty.mpr htext), if_pos htext]
      rw [htext] at hrep
      exact ⟨⟨hrep.len, hrep.holds, hrep.short⟩, hready, rfl⟩
    · rw [if_neg fun h0 => htext (hempty.mp h0), if_neg htext]
      obtain ⟨hrep', hready', heof'⟩ := hrep.submit heof
      exact ⟨⟨hrep'.len, hrep'.holds, hrep'.short⟩, hready', heof'⟩
  rw [if_neg heot, if_neg heot]
  by_cases henter : ch = 10 ∨ ch = 13
  · rw [if_pos henter, if_pos henter]
    obtain ⟨hrep', hready', heof'⟩ := hrep.submit heof
    exact ⟨⟨hrep'.len, hrep'.holds, hrep'.short⟩, hready', heof'⟩
  rw [if_neg henter, if_neg henter]
  by_cases hback : ch = 8 ∨ ch = 0x7F
  · rw [if_pos hback, if_pos hback]
    by_cases htext : text = []
    · rw [if_neg (by rw [hempty.mpr htext]; exact lt_irrefl 0), htext]
      rw [htext] at hrep
      exact ⟨hrep, hready, heof⟩
    · have hpos : 0 < s.len := Nat.pos_of_ne_zero fun h0 => htext (hempty.mp h0)
      rw [if_pos hpos]
      refine ⟨⟨?_, ?_, ?_⟩, hready, heof⟩
      · rw [List.length_dropLast, ← hrep.len]
        rfl
      · rw [hrep.len]
        exact hrep.holds.dropLast htext
      · rw [List.length_dropLast]
        exact (Nat.sub_le _ _).trans hrep.short
  rw [if_neg hback, if_neg hback]
  by_cases hctrl : ch < 32
  · rw [if_pos hctrl, if_neg fun hboth => UInt8.not_lt.mpr hboth.1 hctrl]
    exact ⟨hrep, hready, heof⟩
  rw [if_neg hctrl]
  by_cases hroom : text.length < 255
  · rw [if_pos (by rw [hrep.len]; exact hroom), if_pos ⟨UInt8.not_lt.mp hctrl, hroom⟩]
    refine ⟨⟨?_, ?_, ?_⟩, hready, heof⟩
    · rw [List.length_append, ← hrep.len]
      rfl
    · rw [hrep.len]
      refine hrep.holds.append ?_
      rintro rfl
      exact hctrl (by decide)
    · rw [List.length_append]
      exact hroom
  · rw [if_neg (by rw [hrep.len]; exact hroom), if_neg fun hboth => hroom hboth.2]
    exact ⟨hrep, hready, heof⟩

theorem lineHandleKeyevent_waiting (ev : KeyEvent) (h : s.ready = true ∨ s.eof = true) :
    s.lineHandleKeyevent (some ev) = (0, s) := by
  unfold LineState.lineHandleKeyevent
  dsimp only
  rw [if_pos h]
  split_ifs <;> rfl

theorem matches_key {ev : KeyEvent} (h : Matches s e) (hup : ev.keycode ≠ .up)
    (hdown : ev.keycode ≠ .down) : Matches (s.lineHandleKeyevent (some ev)).2 (e.key ev) := by
  cases e with
  | editing text =>
    unfold LineState.lineHandleKeyevent
    dsimp only
    rw [Editor.key]
    by_cases hpress : ev.type = .press
    · rw [if_neg (not_not.mpr hpress)]
      by_cases hwm : ev.keycode = .f12
      · rw [if_pos hwm, if_neg fun hall => hall.2.1 hwm]
        exact h
      have hopen : ¬ (s.ready = true ∨ s.eof = true) := by
        rw [h.2.1, h.2.2]
        decide
      rw [if_neg hwm, if_neg hopen, if_neg hup, if_neg hdown]
      by_cases hpgup : ev.keycode = .pageUp
      · rw [if_pos hpgup, if_neg fun hall => hall.2.2.1 hpgup]
        exact ⟨⟨h.1.len, h.1.holds, h.1.short⟩, h.2⟩
      rw [if_neg hpgup]
      by_cases hpgdn : ev.keycode = .pageDown
      · rw [if_pos hpgdn, if_neg fun hall => hall.2.2.2 hpgdn]
        exact ⟨⟨h.1.len, h.1.holds, h.1.short⟩, h.2⟩
      rw [if_neg hpgdn, if_pos ⟨hpress, hwm, hpgup, hpgdn⟩]
      exact matches_char ev.ascii h
    · rw [if_pos hpress, if_neg fun hall => hpress hall.1]
      exact h
  | submitted text =>
    rw [lineHandleKeyevent_waiting ev (.inl h.2.1)]
    exact h
  | endOfFile =>
    rw [lineHandleKeyevent_waiting ev (.inr h.2.2)]
    exact h

theorem matches_read (buffer : Bytes) (h : Matches s e) :
    (s.lineRead (some buffer) 256).1 = Delivery.result (buffer, e.read.1) ∧
      Matches (s.lineRead (some buffer) 256).2 e.read.2 := by
  have hreset : Matches s.lineReset (.editing []) :=
    ⟨⟨rfl, holds_nil (update_self 0 0 s.buffer), Nat.zero_le _⟩, rfl, rfl⟩
  unfold LineState.lineRead
  dsimp only
  rw [if_neg (by decide)]
  cases e with
  | editing text =>
    rw [if_pos ⟨by rw [h.2.1]; decide, by rw [h.2.2]; decide⟩]
    exact ⟨rfl, h⟩
  | submitted text =>
    have hlen := h.1.len
    have hshort := h.1.short
    rw [if_neg fun hboth => hboth.1 h.2.1, if_neg (by rw [h.2.2]; decide), if_neg (by omega)]
    refine ⟨Prod.ext ?_ (congrArg some (funext fun i => ?_)), hreset⟩
    · exact congrArg Nat.cast hlen
    · rw [hlen]
      by_cases hi : i = text.length
      · rw [hi, update_self, if_pos rfl]
      rw [update_of_ne hi, if_neg hi]
      by_cases hlt : i < text.length
      · rw [splice_inside (Nat.zero_le i) (by omega), Nat.sub_zero, h.1.holds.bytes i hlt,
          List.getElem?_eq_getElem hlt]
        rfl
      · rw [splice_outside (by omega), List.getElem?_eq_none (by omega)]
        rfl
  | endOfFile =>
    rw [if_neg fun hboth => hboth.2 h.2.2, if_pos h.2.2]
    exact ⟨rfl, hreset⟩

/-! ## Runs -/

variable {r : LineRun} {er : EditorRun} {a : LineAction}

/-- A run of the code follows the run of the editor, and nothing is submitted but what was
delivered or waits. -/
structure Follows (r : LineRun) (er : EditorRun) : Prop where
  state : Matches r.state er.editor
  results : r.results = er.reads.map Delivery.result
  once : er.submissions = er.delivered ++ er.editor.pending

theorem Editor.pending_key (ev : KeyEvent) (e : Editor) (h : e.pending ≠ []) : e.key ev = e := by
  cases e with
  | editing text => exact absurd rfl h
  | submitted text => rfl
  | endOfFile => rfl

theorem Follows.step (h : Follows r er) (ha : ¬ a.IsHistoryKey) : Follows (r.step a) (er.step a) := by
  cases a with
  | key ev =>
    refine ⟨matches_key h.state (fun hk => ha (.inl hk)) (fun hk => ha (.inr hk)), h.results, ?_⟩
    change er.submissions ++ _ = er.delivered ++ (er.editor.key ev).pending
    split_ifs with hpending
    · rw [h.once, hpending, List.append_nil]
    · rw [Editor.pending_key ev _ hpending, List.append_nil, h.once]
  | read buffer =>
    obtain ⟨hresult, hstate⟩ := matches_read buffer h.state
    refine ⟨hstate, ?_, ?_⟩
    · change r.results ++ [_] = (er.reads ++ [_]).map Delivery.result
      rw [h.results, hresult, List.map_append]
      rfl
    · change er.submissions = EditorRun.delivered _ ++ er.editor.read.2.pending
      rw [h.once, EditorRun.delivered, EditorRun.delivered, EditorRun.step]
      rw [List.map_append, List.filter_append, List.append_assoc]
      congr 1
      cases er.editor <;> rfl

theorem Matches.represents (h : Matches s e) : Represents s e.text := by
  cases e <;> exact h.1

/-- From a reset on, whatever keys are pressed and whenever lines are read, without a walk through
the history: each read returns what the editor's read returns, each submission is delivered once
and in order, and the buffer is a C string of at most 255 bytes whose length is `line_len`. -/
theorem line_refines_editor (s : LineState) (actions : List LineAction)
    (hkeys : ∀ a ∈ actions, ¬ a.IsHistoryKey) :
    let code := actions.foldl LineRun.step ⟨s.lineReset, []⟩
    let ideal := actions.foldl EditorRun.step .start
    code.results = ideal.reads.map Delivery.result ∧
      ideal.submissions = ideal.delivered ++ ideal.editor.pending ∧
      (code.state.ready = true ∨ code.state.eof = true ↔ ideal.editor.pending ≠ []) ∧
      code.state.len = ideal.editor.text.length ∧ code.state.len ≤ 255 ∧
      code.state.buffer code.state.len = 0 ∧
      ∀ i < code.state.len, code.state.buffer i ≠ 0 ∧
        ideal.editor.text[i]? = some (code.state.buffer i) := by
  have hrun : ∀ (l : List LineAction) (r : LineRun) (er : EditorRun), Follows r er →
      (∀ a ∈ l, ¬ a.IsHistoryKey) → Follows (l.foldl LineRun.step r) (l.foldl EditorRun.step er) := by
    intro l
    induction l with
    | nil => exact fun r er h _ => h
    | cons a l ih =>
      intro r er h hl
      exact ih _ _ (h.step (hl a (List.mem_cons_self ..))) fun b hb =>
        hl b (List.mem_cons_of_mem _ hb)
  have hstart : Follows ⟨s.lineReset, []⟩ .start :=
    ⟨⟨⟨rfl, holds_nil (update_self 0 0 s.buffer), Nat.zero_le _⟩, rfl, rfl⟩, rfl, rfl⟩
  have h := hrun actions _ _ hstart hkeys
  have hrep := h.state.represents
  have hbytes := hrep.holds.bytes
  refine ⟨h.results, h.once, ?_, hrep.len, hrep.len.trans_le hrep.short, ?_, fun i hi => ?_⟩
  · have hstate := h.state
    cases hed : (actions.foldl EditorRun.step .start).editor with
    | editing text =>
      rw [hed] at hstate
      exact iff_of_false (by rw [hstate.2.1, hstate.2.2]; decide) fun hne => hne rfl
    | submitted text =>
      rw [hed] at hstate
      exact iff_of_true (.inl hstate.2.1) nofun
    | endOfFile =>
      rw [hed] at hstate
      exact iff_of_true (.inr hstate.2.2) nofun
  · rw [hrep.len]
    exact hrep.holds.stop
  · rw [hrep.len] at hi
    rw [hbytes i hi]
    refine ⟨fun h0 => hrep.holds.nonzero (h0 ▸ List.getElem_mem hi), List.getElem?_eq_getElem hi⟩

def blankLine : LineState := ⟨fun _ => 0, 0, fun _ _ => 0, fun _ => 0, 0, -1, false, false, []⟩

/-- `h`, `i`, Enter, one more key that comes too late, and two reads. -/
def typedHi : List LineAction :=
  [104, 105, 10, 33].map (fun ch => .key ⟨.press, .other 0, ch⟩) ++ [.read fun _ => 0, .read fun _ => 0]

theorem line_refines_editor_typedHi :
    (typedHi.foldl LineRun.step ⟨blankLine.lineReset, []⟩).results =
      [Delivery.result (fun _ => 0, .line [104, 105]), Delivery.result (fun _ => 0, .nothing)] := by
  have hkeys : ∀ a ∈ typedHi, ¬ a.IsHistoryKey := by
    simp [typedHi, LineAction.IsHistoryKey]
  exact (line_refines_editor blankLine typedHi hkeys).1

end CfKernel.Drivers
