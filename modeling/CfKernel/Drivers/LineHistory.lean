import CfKernel.Drivers.LineEditor
import CfKernel.Lib.Recent
import Mathlib.Data.List.GetD

/-!
# The history of submitted lines

The eight slots of `line_history` hold the last submitted lines that were not empty, without
repeats. Walking through them keeps the unfinished text in `line_draft`: `Browses s h b p` says that
the walk is `p` lines back in the history `h`, with `b` to come back to.
-/

namespace CfKernel.Drivers

open Lib Function

/-- The text of the C string in a buffer of the line discipline. -/
def cstring (b : Bytes) : List UInt8 := (List.range (strlen b lineBufferSize)).map b

namespace LineState

def inputText (s : LineState) : List UInt8 := (List.range s.len).map s.buffer

def storedHistory (s : LineState) : List (List UInt8) :=
  (List.range s.historyCount).map fun i => cstring (s.history i)

end LineState

/-- A call from the keyboard or from a reader. A `line_read` that waits takes its turn when it finds
a submission. -/
inductive SessionAction where
  | key (ev : Option KeyEvent)
  | read (buffer : Option Bytes) (capacity : Nat)

/-- The code with the lines submitted so far. -/
structure Session where
  state : LineState
  submitted : List (List UInt8)

def Session.step (r : Session) : SessionAction → Session
  | .key ev =>
    let t := (r.state.lineHandleKeyevent ev).2
    ⟨t, if r.state.ready = false ∧ t.ready = true then r.submitted ++ [t.inputText] else r.submitted⟩
  | .read buffer capacity => { r with state := (r.state.lineRead buffer capacity).2 }

def Session.start : Session := ⟨blankLine, []⟩

/-- The submitted lines that are not empty, each one that repeats its predecessor left out. -/
def Session.lines (r : Session) : List (List UInt8) :=
  (r.submitted.filter (· ≠ [])).destutter (· ≠ ·)

/-! ## C strings -/

variable {s t : LineState} {a b c : Bytes} {text text' : List UInt8} {n i p : Nat}

theorem Holds.nonzero_at (h : Holds b text) (hi : i < text.length) : b i ≠ 0 := by
  rw [h.bytes i hi]
  exact fun h0 => h.nonzero (h0 ▸ List.getElem_mem hi)

theorem Holds.strlen (h : Holds b text) (hn : text.length < n) : strlen b n = text.length := by
  have hfind : (List.range n).find? (fun i => b i = 0) = some text.length := by
    rw [List.find?_range_eq_some]
    refine ⟨decide_eq_true h.stop, List.mem_range.mpr hn, fun j hj => ?_⟩
    rw [Bool.not_eq_true', decide_eq_false_iff_not]
    exact h.nonzero_at hj
  rw [Drivers.strlen, hfind, Option.getD_some]

theorem Holds.map_range (h : Holds b text) : (List.range text.length).map b = text := by
  refine List.ext_getElem (by rw [List.length_map, List.length_range]) fun i _ hi => ?_
  rw [List.getElem_map, List.getElem_range, h.bytes i hi]

theorem Holds.cstring (h : Holds b text) (hshort : text.length ≤ 255) : cstring b = text := by
  rw [Drivers.cstring, h.strlen (show _ < lineBufferSize from Nat.lt_succ_of_le hshort),
    h.map_range]

theorem Represents.inputText (h : Represents s text) : s.inputText = text := by
  rw [LineState.inputText, h.len, h.holds.map_range]

theorem Holds.splice (h : Holds b text) : Holds (splice c 0 (text.length + 1) b) text := by
  refine ⟨fun i hi => ?_, ?_, h.nonzero⟩
  · rw [splice_inside (Nat.zero_le i) (by omega), Nat.sub_zero, h.bytes i hi]
  · rw [splice_inside (Nat.zero_le _) (by omega), Nat.sub_zero, h.stop]

theorem strcmpEqual_iff (ha : Holds a text) (hb : Holds b text') (hi : i ≤ text.length)
    (hi' : i ≤ text'.length) (hn : text.length < i + n) :
    strcmpEqual a b n i = true ↔ text.drop i = text'.drop i := by
  induction n generalizing i with
  | zero => omega
  | succ n ih =>
    rw [strcmpEqual]
    rcases Nat.lt_or_ge i text.length with hlt | hge
    · have ha0 : a i ≠ 0 := ha.nonzero_at hlt
      rcases Nat.lt_or_ge i text'.length with hlt' | hge'
      · rw [List.drop_eq_getElem_cons hlt, List.drop_eq_getElem_cons hlt', List.cons.injEq,
          ← ha.bytes i hlt, ← hb.bytes i hlt']
        by_cases hsame : a i = b i
        · rw [if_neg (not_not_intro hsame), if_neg ha0, ih hlt hlt' (by omega)]
          exact ⟨fun h => ⟨hsame, h⟩, And.right⟩
        · rw [if_pos hsame]
          exact iff_of_false Bool.false_ne_true fun h => hsame h.1
      · have hend : i = text'.length := le_antisymm hi' hge'
        rw [if_pos (by rw [hend, hb.stop, ← hend]; exact ha0), List.drop_eq_nil_of_le hge']
        refine iff_of_false Bool.false_ne_true fun h => ?_
        exact absurd (List.drop_eq_nil_iff.mp h) (by omega)
    · have hend : i = text.length := le_antisymm hi hge
      have ha0 : a i = 0 := by rw [hend, ha.stop]
      rw [List.drop_eq_nil_of_le hge]
      rcases Nat.lt_or_ge i text'.length with hlt' | hge'
      · have hb0 : b i ≠ 0 := hb.nonzero_at hlt'
        rw [if_pos (by rw [ha0]; exact hb0.symm)]
        refine iff_of_false Bool.false_ne_true fun h => ?_
        exact absurd (List.drop_eq_nil_iff.mp h.symm) (by omega)
      · have hb0 : b i = 0 := by rw [le_antisymm hi' hge', hb.stop]
        rw [if_neg (by rw [ha0, hb0]; exact not_not_intro rfl), if_pos ha0,
          List.drop_eq_nil_of_le hge']
        exact iff_of_true rfl rfl

/-! ## The slots -/

variable {h : List (List UInt8)}

/-- The slots in use hold the lines of `h`, the oldest first. -/
structure KeepsHistory (s : LineState) (h : List (List UInt8)) : Prop where
  count : s.historyCount = h.length
  entries : ∀ i < h.length, Holds (s.history i) (h.getD i [])
  short : ∀ l ∈ h, l.length ≤ 255
  room : h.length ≤ 8

theorem KeepsHistory.short_at (hk : KeepsHistory s h) (hi : i < h.length) :
    (h.getD i []).length ≤ 255 := by
  rw [List.getD_eq_getElem _ _ hi]
  exact hk.short _ (List.getElem_mem hi)

theorem KeepsHistory.cstring (hk : KeepsHistory s h) (hi : i < h.length) :
    cstring (s.history i) = h.getD i [] := (hk.entries i hi).cstring (hk.short_at hi)

theorem KeepsHistory.storedHistory (hk : KeepsHistory s h) : s.storedHistory = h := by
  refine List.ext_getElem ?_ fun i hi hi' => ?_
  · rw [LineState.storedHistory, List.length_map, List.length_range, hk.count]
  · simp only [LineState.storedHistory, List.getElem_map, List.getElem_range]
    rw [hk.cstring hi', List.getD_eq_getElem _ _ hi']

theorem getLast?_eq_some_getD {l : List (List UInt8)} (hne : l ≠ []) :
    l.getLast? = some (l.getD (l.length - 1) []) := by
  have hpos : 0 < l.length := List.length_pos_iff.mpr hne
  rw [List.getLast?_eq_getElem?, List.getElem?_eq_getElem (by omega),
    List.getD_eq_getElem _ _ (by omega)]

section

variable (hk : KeepsHistory s h)
include hk

theorem KeepsHistory.repeats_iff (hr : Represents s text) :
    (s.historyCount ≠ 0 ∧
      strcmpEqual (s.history (s.historyCount - 1)) s.buffer lineBufferSize 0 = true) ↔
      h.getLast? = some text := by
  rw [hk.count]
  rcases List.eq_nil_or_concat' h with rfl | ⟨l, x, rfl⟩
  · exact iff_of_false (fun hc => hc.1 rfl) (by simp)
  · have hne : l ++ [x] ≠ [] := by simp
    have hlt : (l ++ [x]).length - 1 < (l ++ [x]).length := Nat.sub_lt (by simp) one_pos
    have hshort := hk.short_at hlt
    have hcmp := strcmpEqual_iff (n := lineBufferSize) (hk.entries _ hlt) hr.holds (Nat.zero_le _)
      (Nat.zero_le _) (by rw [Nat.zero_add]; exact Nat.lt_succ_of_le hshort)
    rw [hcmp, List.drop_zero, List.drop_zero, getLast?_eq_some_getD hne, Option.some.injEq]
    exact ⟨And.right, fun heq => ⟨by simp, heq⟩⟩

theorem KeepsHistory.dropOldest (hfull : h.length = 8) : KeepsHistory s.dropOldest h.tail where
  count := by
    rw [List.length_tail]
    exact congrArg (· - 1) hk.count
  entries i hi := by
    rw [List.length_tail] at hi
    have hslot : s.dropOldest.history i = s.history (i + 1) :=
      if_pos (show i < lineHistorySize - 1 by rw [lineHistorySize]; omega)
    have hentry := hk.entries (i + 1) (by omega)
    rw [List.getD_eq_getElem _ _ (by omega)] at hentry
    rw [hslot, List.getD_eq_getElem _ _ (by rw [List.length_tail]; exact hi), List.getElem_tail]
    exact hentry
  short l hl := hk.short l (List.mem_of_mem_tail hl)
  room := by
    rw [List.length_tail]
    omega

theorem KeepsHistory.push (hr : Represents s text) (hroom : h.length < 8) :
    KeepsHistory { s with
      history := update s.history s.historyCount
        (splice (s.history s.historyCount) 0 (s.len + 1) s.buffer)
      historyCount := s.historyCount + 1 } (h ++ [text]) where
  count := by
    rw [List.length_append, List.length_singleton]
    exact congrArg (· + 1) hk.count
  entries i hi := by
    rw [List.length_append, List.length_singleton] at hi
    change Holds (update s.history s.historyCount _ i) _
    rw [hk.count]
    by_cases hlast : i = h.length
    · rw [hlast, update_self, List.getD_append_right _ _ _ _ le_rfl, Nat.sub_self, hr.len]
      exact hr.holds.splice
    · rw [update_of_ne hlast, List.getD_append _ _ _ _ (by omega)]
      exact hk.entries i (by omega)
  short l hl := (List.mem_append.mp hl).elim (hk.short l) fun h1 =>
    List.mem_singleton.mp h1 ▸ hr.short
  room := by
    rw [List.length_append]
    exact hroom

theorem KeepsHistory.store (hr : Represents s text) (hne : text ≠ []) :
    KeepsHistory s.lineStoreHistory (keepRecent 8 text h) := by
  have hlen : s.len ≠ 0 := by
    rw [hr.len]
    exact fun h0 => hne (List.eq_nil_of_length_eq_zero h0)
  have hrepeat := hk.repeats_iff hr
  rw [LineState.lineStoreHistory, if_neg hlen, keepRecent]
  by_cases hlast : h.getLast? = some text
  · rw [if_pos (hrepeat.mpr hlast), if_pos hlast]
    exact hk
  · rw [if_neg fun hc => hlast (hrepeat.mp hc), if_neg hlast]
    have hfull : s.historyCount = lineHistorySize ↔ h.length = 8 := by
      rw [hk.count, lineHistorySize]
    by_cases h8 : h.length = 8
    · rw [if_pos (hfull.mpr h8), if_pos h8]
      refine (hk.dropOldest h8).push ⟨hr.len, hr.holds, hr.short⟩ ?_
      rw [List.length_tail]
      omega
    · rw [if_neg fun hc => h8 (hfull.mp hc), if_neg h8]
      exact hk.push hr (lt_of_le_of_ne hk.room h8)

theorem KeepsHistory.of_same (hhist : t.history = s.history)
    (hcount : t.historyCount = s.historyCount) : KeepsHistory t h :=
  ⟨hcount.trans hk.count, fun i hi => hhist ▸ hk.entries i hi, hk.short, hk.room⟩

end

/-! ## Walking through the history -/

def linesBack (h : List (List UInt8)) (b : List UInt8) (p : Nat) : List UInt8 :=
  if p = 0 then b else h.getD (h.length - p) []

/-- The walk is `p` lines back, and the unfinished text to come back to is `b`. -/
structure Browses (s : LineState) (h : List (List UInt8)) (b : List UInt8) (p : Nat) : Prop where
  keeps : KeepsHistory s h
  le : p ≤ h.length
  index : s.historyIndex = if p = 0 then -1 else (h.length : Int) - p
  shown : Represents s (linesBack h b p)
  short : b.length ≤ 255
  draft : p ≠ 0 → Holds s.draft b

variable {draft : List UInt8} {ev : KeyEvent} {keys : List KeyEvent}

theorem Browses.start (hk : KeepsHistory s h) (hr : Represents s text)
    (hindex : s.historyIndex = -1) : Browses s h text 0 :=
  ⟨hk, Nat.zero_le _, hindex, hr, hr.short, fun h0 => absurd rfl h0⟩

theorem Browses.neg_iff (hb : Browses s h draft p) : s.historyIndex < 0 ↔ p = 0 := by
  have hle := hb.le
  rw [hb.index]
  split <;> omega

theorem lineReplace_represents (s : LineState) (hb : Holds b text) (hshort : text.length ≤ 255) :
    Represents (s.lineReplace b) text := by
  have hlen : strlen b lineBufferSize = text.length := hb.strlen (Nat.lt_succ_of_le hshort)
  refine ⟨hlen, ?_, hshort⟩
  change Holds (splice s.buffer 0 (strlen b lineBufferSize + 1) b) text
  rw [hlen]
  exact hb.splice

theorem Browses.display (hk : KeepsHistory s h) (hshort : draft.length ≤ 255) {q : Nat} (hq : 0 < q)
    (hle : q ≤ h.length) (hindex : s.historyIndex = (h.length : Int) - q)
    (hdraft : Holds s.draft draft) :
    Browses (s.lineReplace (s.history s.historyIndex.toNat)) h draft q := by
  have hslot : s.historyIndex.toNat = h.length - q := by omega
  have hlt : h.length - q < h.length := by omega
  refine ⟨hk.of_same rfl rfl, hle, ?_, ?_, hshort, fun _ => hdraft⟩
  · rw [if_neg (by omega)]
    exact hindex
  · rw [linesBack, if_neg (by omega), hslot]
    exact lineReplace_represents s (hk.entries _ hlt) (hk.short_at hlt)

theorem Browses.up (hb : Browses s h draft p) :
    Browses (s.lineHistoryMove true) h draft (min (p + 1) h.length) := by
  have hle := hb.le
  have hcount := hb.keeps.count
  have hindex := hb.index
  rw [LineState.lineHistoryMove]
  by_cases hempty : s.historyCount = 0
  · have hmin : min (p + 1) h.length = p := by omega
    rw [if_pos hempty, hmin]
    exact hb
  rw [if_neg hempty, if_pos rfl]
  by_cases hp : p = 0
  · subst hp
    have hmin : min (0 + 1) h.length = 1 := by omega
    have hone : ((s.historyCount : Int) - 1) = (h.length : Int) - (1 : Nat) := by omega
    have hr : Represents s draft := hb.shown
    rw [if_pos (hb.neg_iff.mpr rfl), hmin]
    refine Browses.display (s := { s with
      draft := splice s.draft 0 (s.len + 1) s.buffer, historyIndex := s.historyCount - 1 })
      (hb.keeps.of_same rfl rfl) hb.short Nat.one_pos (by omega) hone ?_
    rw [hr.len]
    exact hr.holds.splice
  rw [if_neg (mt hb.neg_iff.mp hp)]
  rw [if_neg hp] at hindex
  by_cases holdest : p = h.length
  · have hmin : min (p + 1) h.length = p := by omega
    rw [if_neg (by omega), hmin]
    exact hb
  · have hmin : min (p + 1) h.length = p + 1 := by omega
    have hback : s.historyIndex - 1 = (h.length : Int) - (p + 1 : Nat) := by omega
    rw [if_pos (by omega), hmin]
    exact Browses.display (s := { s with historyIndex := s.historyIndex - 1 })
      (hb.keeps.of_same rfl rfl) hb.short (Nat.succ_pos p) (by omega) hback (hb.draft hp)

theorem Browses.down (hb : Browses s h draft p) :
    Browses (s.lineHistoryMove false) h draft (p - 1) := by
  have hle := hb.le
  have hcount := hb.keeps.count
  have hindex := hb.index
  rw [LineState.lineHistoryMove]
  by_cases hp : p = 0
  · subst hp
    rw [if_neg Bool.false_ne_true, if_pos (hb.neg_iff.mpr rfl), ite_self]
    exact hb
  rw [if_neg (by omega), if_neg Bool.false_ne_true, if_neg (mt hb.neg_iff.mp hp)]
  rw [if_neg hp] at hindex
  by_cases hnewest : p = 1
  · rw [if_neg (by omega), hnewest]
    exact .start (hb.keeps.of_same rfl rfl) (lineReplace_represents _ (hb.draft hp) hb.short) rfl
  · have hforward : s.historyIndex + 1 = (h.length : Int) - (p - 1 : Nat) := by omega
    rw [if_pos (by omega)]
    exact Browses.display (s := { s with historyIndex := s.historyIndex + 1 })
      (hb.keeps.of_same rfl rfl) hb.short (by omega) (by omega) hforward (hb.draft hp)

def KeyEvent.IsArrow (ev : KeyEvent) : Prop :=
  ev.type = .press ∧ (ev.keycode = .up ∨ ev.keycode = .down)

def pressAll (keys : List KeyEvent) (s : LineState) : LineState :=
  keys.foldl (fun s ev => (s.lineHandleKeyevent (some ev)).2) s

theorem lineHandleKeyevent_up (hpress : ev.type = .press) (hup : ev.keycode = .up)
    (hready : s.ready = false) (heof : s.eof = false) :
    s.lineHandleKeyevent (some ev) = (0, s.lineHistoryMove true) := by
  have hopen : ¬ (s.ready = true ∨ s.eof = true) := by
    rw [hready, heof]
    decide
  rw [LineState.lineHandleKeyevent, if_neg (not_not_intro hpress), if_neg (by rw [hup]; decide),
    if_neg hopen, if_pos hup]

theorem lineHandleKeyevent_down (hpress : ev.type = .press)
    (hdown : ev.keycode = .down) (hready : s.ready = false) (heof : s.eof = false) :
    s.lineHandleKeyevent (some ev) = (0, s.lineHistoryMove false) := by
  have hopen : ¬ (s.ready = true ∨ s.eof = true) := by
    rw [hready, heof]
    decide
  rw [LineState.lineHandleKeyevent, if_neg (not_not_intro hpress), if_neg (by rw [hdown]; decide),
    if_neg hopen, if_neg (by rw [hdown]; decide), if_pos hdown]

theorem lineHistoryMove_flags (s : LineState) (back : Bool) :
    (s.lineHistoryMove back).ready = s.ready ∧ (s.lineHistoryMove back).eof = s.eof := by
  unfold LineState.lineHistoryMove
  split_ifs <;> exact ⟨rfl, rfl⟩

theorem Browses.arrow (hb : Browses s h draft p) (hev : ev.IsArrow)
    (hready : s.ready = false) (heof : s.eof = false) :
    Browses (s.lineHandleKeyevent (some ev)).2 h draft
        (if ev.keycode = .up then min (p + 1) h.length else p - 1) ∧
      (s.lineHandleKeyevent (some ev)).2.ready = false ∧
      (s.lineHandleKeyevent (some ev)).2.eof = false := by
  have hflags := lineHistoryMove_flags s
  rcases hev.2 with hup | hdown
  · rw [lineHandleKeyevent_up hev.1 hup hready heof, if_pos hup]
    exact ⟨hb.up, (hflags true).1.trans hready, (hflags true).2.trans heof⟩
  · rw [lineHandleKeyevent_down hev.1 hdown hready heof, if_neg (by rw [hdown]; decide)]
    exact ⟨hb.down, (hflags false).1.trans hready, (hflags false).2.trans heof⟩

theorem Browses.pressAll (hkeys : ∀ ev ∈ keys, ev.IsArrow)
    (hb : Browses s h draft p) (hready : s.ready = false) (heof : s.eof = false) :
    Browses (pressAll keys s) h draft
      (keys.foldl (fun p ev => if ev.keycode = .up then min (p + 1) h.length else p - 1) p) := by
  induction keys generalizing s p with
  | nil => exact hb
  | cons ev keys ih =>
    obtain ⟨hb', hready', heof'⟩ := hb.arrow (hkeys ev List.mem_cons_self) hready heof
    exact ih (fun e he => hkeys e (List.mem_cons_of_mem ev he)) hb' hready' heof'

theorem foldl_ups (hkeys : ∀ ev ∈ keys, ev.keycode = .up) (hp : p ≤ n) :
    keys.foldl (fun p ev => if ev.keycode = .up then min (p + 1) n else p - 1) p =
      min (p + keys.length) n := by
  induction keys generalizing p with
  | nil => exact (min_eq_left hp).symm
  | cons ev keys ih =>
    rw [List.foldl_cons, if_pos (hkeys ev List.mem_cons_self),
      ih (fun e he => hkeys e (List.mem_cons_of_mem ev he)) (min_le_right _ _), List.length_cons]
    omega

/-- From an unfinished text, Up and Down keys that end outside the history bring the text back, and
Up keys alone show the line as many back, or the oldest. -/
theorem arrows_restore_draft (s : LineState) (h : List (List UInt8)) (draft : List UInt8)
    (hhistory : KeepsHistory s h) (hdraft : Represents s draft) (hindex : s.historyIndex = -1)
    (hready : s.ready = false) (heof : s.eof = false) (keys : List KeyEvent)
    (hkeys : ∀ ev ∈ keys, ev.IsArrow) :
    ((pressAll keys s).historyIndex = -1 → (pressAll keys s).inputText = draft) ∧
      ((∀ ev ∈ keys, ev.keycode = .up) → keys ≠ [] →
        (pressAll keys s).inputText =
          if s.historyCount = 0 then draft
          else cstring (s.history (s.historyCount - keys.length))) := by
  have hb := (Browses.start hhistory hdraft hindex).pressAll hkeys hready heof
  constructor
  · intro hend
    have hzero := hb.neg_iff.mp (by rw [hend]; decide)
    rw [hzero] at hb
    exact hb.shown.inputText
  · intro hups hne
    have hpos : 0 < keys.length := List.length_pos_iff.mpr hne
    rw [foldl_ups hups (Nat.zero_le _), Nat.zero_add] at hb
    rw [hb.shown.inputText, linesBack, hhistory.count]
    by_cases hempty : h.length = 0
    · rw [if_pos (by omega), if_pos hempty]
    · have hslot : h.length - min keys.length h.length = h.length - keys.length := by omega
      rw [if_neg (by omega), if_neg hempty, hslot, hhistory.cstring (by omega)]

def typedX : LineState :=
  { blankLine with
    buffer := fun i => [120].getD i 0, len := 1
    history := fun _ i => [104, 105].getD i 0, historyCount := 1 }

theorem arrows_restore_draft_x :
    (pressAll [⟨.press, .up, 0⟩, ⟨.press, .down, 0⟩] typedX).inputText = [120] ∧
      (pressAll [⟨.press, .up, 0⟩] typedX).inputText = cstring (typedX.history 0) := by
  have hhistory : KeepsHistory typedX [[104, 105]] := by
    refine ⟨rfl, fun i hi => ?_, by decide, by decide⟩
    obtain rfl : i = 0 := Nat.lt_one_iff.mp hi
    refine ⟨fun i hi => ?_, rfl, by decide⟩
    have hi2 : i < 2 := hi
    interval_cases i <;> rfl
  have hdraft : Represents typedX [120] := by
    refine ⟨rfl, ⟨fun i hi => ?_, rfl, by decide⟩, by decide⟩
    obtain rfl : i = 0 := Nat.lt_one_iff.mp hi
    rfl
  constructor
  · refine (arrows_restore_draft typedX _ _ hhistory hdraft rfl rfl rfl _ ?_).1 ?_
    · intro ev hev
      simp only [List.mem_cons, List.not_mem_nil, or_false] at hev
      rcases hev with rfl | rfl
      · exact ⟨rfl, .inl rfl⟩
      · exact ⟨rfl, .inr rfl⟩
    · decide
  · refine (arrows_restore_draft typedX _ _ hhistory hdraft rfl rfl rfl _ ?_).2 ?_ (by simp)
    · intro ev hev
      rw [List.mem_singleton.mp hev]
      exact ⟨rfl, .inl rfl⟩
    · intro ev hev
      rw [List.mem_singleton.mp hev]

/-! ## Whole sessions -/

/-- What a session keeps: `h` is in the slots, and until a line is submitted the walk through them
is somewhere. -/
structure SessionInv (s : LineState) (h : List (List UInt8)) : Prop where
  keeps : KeepsHistory s h
  text : ∃ text, Represents s text
  index_ge : -1 ≤ s.historyIndex
  index_lt : s.historyIndex < h.length
  walk : s.ready = false → ∃ draft p, Browses s h draft p

theorem Browses.inv (hb : Browses s h draft p) : SessionInv s h := by
  have hle := hb.le
  have hindex := hb.index
  refine ⟨hb.keeps, ⟨_, hb.shown⟩, ?_, ?_, fun _ => ⟨draft, p, hb⟩⟩
  · split_ifs at hindex <;> omega
  · split_ifs at hindex <;> omega

theorem Browses.of_same (hb : Browses s h draft p) (eof : Bool) (output : List LineOutput) :
    Browses { s with eof := eof, output := output } h draft p :=
  ⟨hb.keeps.of_same rfl rfl, hb.le, hb.index, ⟨hb.shown.len, hb.shown.holds, hb.shown.short⟩,
    hb.short, hb.draft⟩

theorem handleChar_cases (s : LineState) (ch : UInt8) :
    (∃ eof output, (s.handleChar ch).2 = { s with eof := eof, output := output }) ∨
    ((s.handleChar ch).2.history = s.history ∧
      (s.handleChar ch).2.historyCount = s.historyCount ∧ (s.handleChar ch).2.historyIndex = -1 ∧
      (s.handleChar ch).2.ready = s.ready) ∨
    ∃ index output, (index = s.historyIndex ∨ index = -1) ∧
      (s.handleChar ch).2 = { s.submit with historyIndex := index, output := output } := by
  have hindex : s.submit.historyIndex = s.historyIndex := by
    unfold LineState.submit LineState.lineStoreHistory
    split_ifs <;> rfl
  unfold LineState.handleChar
  split_ifs
  · exact .inr (.inl ⟨rfl, rfl, rfl, rfl⟩)
  · exact .inl ⟨_, _, rfl⟩
  · exact .inl ⟨_, _, rfl⟩
  · exact .inr (.inr ⟨_, _, .inl hindex, rfl⟩)
  · exact .inr (.inr ⟨_, _, .inr rfl, rfl⟩)
  · exact .inr (.inl ⟨rfl, rfl, rfl, rfl⟩)
  · exact .inl ⟨_, _, rfl⟩
  · exact .inl ⟨_, _, rfl⟩
  · exact .inr (.inl ⟨rfl, rfl, rfl, rfl⟩)
  · exact .inl ⟨_, _, rfl⟩

def noted (h : List (List UInt8)) (text : List UInt8) : List (List UInt8) :=
  if text = [] then h else keepRecent 8 text h

theorem KeepsHistory.submit (hk : KeepsHistory s h) (hr : Represents s text) :
    KeepsHistory s.submit (noted h text) := by
  have hsame : update s.buffer s.len 0 = s.buffer :=
    update_eq_self_iff.mpr (by rw [hr.len, hr.holds.stop])
  rw [LineState.submit, hsame, noted]
  by_cases hempty : text = []
  · have hlen : s.len = 0 := by rw [hr.len, hempty, List.length_nil]
    rw [if_pos hempty, LineState.lineStoreHistory, if_pos hlen]
    exact hk.of_same rfl rfl
  · rw [if_neg hempty]
    exact (hk.store hr hempty).of_same rfl rfl

theorem length_le_noted : h.length ≤ (noted h text).length := by
  rw [noted]
  split_ifs
  · exact le_rfl
  · exact length_le_keepRecent

theorem Browses.char (hb : Browses s h draft p) (ch : UInt8) (hready : s.ready = false)
    (heof : s.eof = false) :
    (SessionInv (s.handleChar ch).2 h ∧ (s.handleChar ch).2.ready = false) ∨
      ∃ text, Represents (s.handleChar ch).2 text ∧
        SessionInv (s.handleChar ch).2 (noted h text) ∧ (s.handleChar ch).2.ready = true := by
  have hrep := (matches_char ch ⟨hb.shown, hready, heof⟩).represents
  rcases handleChar_cases s ch with ⟨eof, output, hsame⟩ | ⟨hhist, hcount, hindex, hready'⟩ |
    ⟨index, output, hindex, hsame⟩
  · rw [hsame]
    exact .inl ⟨(hb.of_same eof output).inv, hready⟩
  · exact .inl ⟨(Browses.start (hb.keeps.of_same hhist hcount) hrep hindex).inv,
      hready'.trans hready⟩
  · obtain ⟨hsub, hsubReady, -⟩ := hb.shown.submit heof
    have hinv := hb.inv
    have hlen : h.length ≤ (noted h (linesBack h draft p)).length := length_le_noted
    have hge := hinv.index_ge
    have hlt := hinv.index_lt
    have hrep' : Represents (s.handleChar ch).2 (linesBack h draft p) := by
      rw [hsame]
      exact ⟨hsub.len, hsub.holds, hsub.short⟩
    refine .inr ⟨linesBack h draft p, hrep', ⟨?_, ⟨_, hrep'⟩, ?_, ?_, fun hno => ?_⟩, ?_⟩
    · rw [hsame]
      exact (hb.keeps.submit hb.shown).of_same rfl rfl
    · rw [hsame]
      change -1 ≤ index
      omega
    · rw [hsame]
      change index < _
      omega
    · rw [hsame] at hno
      exact absurd (hsubReady.symm.trans hno) (by decide)
    · rw [hsame]
      exact hsubReady

theorem SessionInv.key (hinv : SessionInv s h) (ev : Option KeyEvent) :
    (SessionInv (s.lineHandleKeyevent ev).2 h ∧
        (s.lineHandleKeyevent ev).2.ready = s.ready) ∨
      ∃ text, Represents (s.lineHandleKeyevent ev).2 text ∧
        SessionInv (s.lineHandleKeyevent ev).2 (noted h text) ∧ s.ready = false ∧
        (s.lineHandleKeyevent ev).2.ready = true := by
  cases ev with
  | none => exact .inl ⟨hinv, rfl⟩
  | some ev =>
    by_cases hopen : s.ready = true ∨ s.eof = true
    · rw [lineHandleKeyevent_waiting ev hopen]
      exact .inl ⟨hinv, rfl⟩
    have hready : s.ready = false := by
      rw [← Bool.not_eq_true]
      exact fun hr => hopen (.inl hr)
    have heof : s.eof = false := by
      rw [← Bool.not_eq_true]
      exact fun he => hopen (.inr he)
    obtain ⟨draft, p, hb⟩ := hinv.walk hready
    have hflags := lineHistoryMove_flags s
    unfold LineState.lineHandleKeyevent
    dsimp only
    rw [if_neg hopen]
    split_ifs
    · exact .inl ⟨hinv, rfl⟩
    · exact .inl ⟨hinv, rfl⟩
    · exact .inl ⟨hb.up.inv, (hflags true).1⟩
    · exact .inl ⟨hb.down.inv, (hflags false).1⟩
    · exact .inl ⟨(hb.of_same _ _).inv, rfl⟩
    · exact .inl ⟨(hb.of_same _ _).inv, rfl⟩
    · rcases hb.char ev.ascii hready heof with ⟨hsame, hr⟩ | ⟨text, hrep, hnew, hr⟩
      · exact .inl ⟨hsame, hr.trans hready.symm⟩
      · exact .inr ⟨text, hrep, hnew, hready, hr⟩

theorem SessionInv.read (hinv : SessionInv s h) (buffer : Option Bytes) (capacity : Nat) :
    SessionInv (s.lineRead buffer capacity).2 h := by
  have hempty : Represents s.lineReset [] :=
    ⟨rfl, holds_nil (update_self 0 0 s.buffer), Nat.zero_le _⟩
  have hreset : SessionInv s.lineReset h :=
    (Browses.start (s := s.lineReset) (hinv.keeps.of_same rfl rfl) hempty rfl).inv
  unfold LineState.lineRead
  split
  · exact hinv
  · split_ifs
    · exact hinv
    · exact hinv
    · exact hreset
    · exact hinv
    · exact hreset

theorem Session.step_inv {r : Session} (hinv : SessionInv r.state (r.lines.rtake 8))
    (action : SessionAction) :
    SessionInv (r.step action).state ((r.step action).lines.rtake 8) := by
  cases action with
  | read buffer capacity => exact hinv.read buffer capacity
  | key ev =>
    rcases hinv.key ev with ⟨hsame, hready⟩ | ⟨text, hrep, hnew, hbefore, hafter⟩
    · have hlines : (r.step (.key ev)).submitted = r.submitted :=
        if_neg fun hboth => Bool.noConfusion ((hready.symm.trans hboth.2).symm.trans hboth.1)
      rw [Session.lines, hlines]
      exact hsame
    · have hlines : (r.step (.key ev)).submitted = r.submitted ++ [text] := by
        refine (if_pos ⟨hbefore, hafter⟩).trans ?_
        rw [hrep.inputText]
      have hnoted : (r.step (.key ev)).lines.rtake 8 = noted (r.lines.rtake 8) text := by
        rw [Session.lines, hlines, List.filter_append, noted]
        split_ifs with hempty
        · rw [hempty]
          simp [Session.lines]
        · rw [Session.lines, keepRecent_rtake (by decide)]
          simp [hempty]
      rw [hnoted]
      exact hnew

/-- Whatever is typed and read: the history is the last eight of the submitted lines without empty
ones and repeats, the index stays in it, and while it points to a line, that line is in the buffer
until it is submitted. -/
theorem history_holds_last_lines (actions : List SessionAction) :
    let r := actions.foldl Session.step Session.start
    r.state.storedHistory = r.lines.rtake 8 ∧
      -1 ≤ r.state.historyIndex ∧ r.state.historyIndex < r.state.historyCount ∧
      (0 ≤ r.state.historyIndex → r.state.ready = false →
        cstring r.state.buffer = cstring (r.state.history r.state.historyIndex.toNat)) := by
  have hnone : KeepsHistory blankLine [] :=
    ⟨rfl, fun i hi => absurd hi (Nat.not_lt_zero i), fun l hl => absurd hl List.not_mem_nil,
      Nat.zero_le _⟩
  have hempty : Represents blankLine [] := ⟨rfl, holds_nil rfl, Nat.zero_le _⟩
  have hstart : SessionInv Session.start.state (Session.start.lines.rtake 8) :=
    (Browses.start hnone hempty rfl).inv
  have hrun : ∀ (l : List SessionAction) (r : Session), SessionInv r.state (r.lines.rtake 8) →
      SessionInv (l.foldl Session.step r).state ((l.foldl Session.step r).lines.rtake 8) := by
    intro l
    induction l with
    | nil => exact fun r h => h
    | cons action l ih => exact fun r h => ih _ (Session.step_inv h action)
  intro r
  have hinv : SessionInv r.state (r.lines.rtake 8) := hrun actions Session.start hstart
  refine ⟨hinv.keeps.storedHistory, hinv.index_ge, ?_, fun hpos hready => ?_⟩
  · rw [hinv.keeps.count]
    exact hinv.index_lt
  · obtain ⟨draft, p, hb⟩ := hinv.walk hready
    have hp : p ≠ 0 := fun h0 => absurd (hb.neg_iff.mpr h0) (not_lt.mpr hpos)
    have hindex := hb.index
    rw [if_neg hp] at hindex
    have hslot : r.state.historyIndex.toNat = (r.lines.rtake 8).length - p := by
      rw [hindex]
      omega
    have hlt : (r.lines.rtake 8).length - p < (r.lines.rtake 8).length :=
      Nat.sub_lt (by omega) (Nat.pos_of_ne_zero hp)
    rw [hslot, hb.keeps.cstring hlt, hb.shown.holds.cstring hb.shown.short, linesBack, if_neg hp]

end CfKernel.Drivers
