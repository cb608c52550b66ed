import CfKernel.Errno
import CfKernel.Lib.Word
import CfKernel.Syscall.Normalize

/-!
# Resolving a path against the working directory

`syscall_resolve_path` of the kernel and `normalize_path` of the copy command. Both start from the
root or from the working directory and run the normalisation loop; they differ in their checks and
in the arithmetic of their test for a component that does not fit.
-/

namespace CfKernel.Syscall

open Lib Lib.Eff Function

section Code

variable {ε : Type}

def startAtRoot : Eff ε Bytes Nat := do
  Eff.modify fun b => update (update b 0 0x2F) 1 0
  pure 1

def startAtCwd (cwd : List UInt8) : Eff ε Bytes Nat := do
  Eff.modify fun b => splice b 0 (cwd.length + 1) (stringBytes cwd)
  pure cwd.length

/-- The loop that follows the start of both functions. -/
def normalizeFrom (tooLong : Nat → Nat → Bool) (e : ε) (path : List UInt8) (length : Nat) :
    Eff ε Bytes Unit := do
  let _ ← normalizeLoop tooLong e (path.length + 1) path length
  pure ()

def resolveTooLong (capacity length componentLength : Nat) : Bool :=
  decide (usub capacity (separator length) ≤ length) ||
    decide (usub (usub capacity length) (separator length) ≤ componentLength)

def resolveStart (cwd path : List UInt8) (capacity : Nat) : Eff Errno Bytes Nat :=
  if path.head? = some 0x2F then startAtRoot
  else if cwd = [] ∨ cwd.head? ≠ some 0x2F ∨ capacity ≤ cwd.length then Eff.fail .internal
  else startAtCwd cwd

/-- The state is the buffer `resolved`; `cwd` is the caller's working directory. -/
def syscallResolvePath (cwd path : List UInt8) (capacity : Nat) : Eff Errno Bytes Unit :=
  if path = [] ∨ capacity < 2 then Eff.fail .invalidArgument
  else do
    let length ← resolveStart cwd path capacity
    normalizeFrom (resolveTooLong capacity) .nameTooLong path length

def normalizeTooLong (capacity length componentLength : Nat) : Bool :=
  decide (capacity < (length + separator length + componentLength + 1) % 2 ^ 32)

def normalizeStart (path cwd : List UInt8) (capacity : Nat) : Eff Int Bytes Nat :=
  if path.head? = some 0x2F then startAtRoot
  else if cwd.head? ≠ some 0x2F then Eff.fail (-1)
  else if capacity ≤ cwd.length then Eff.fail (-1)
  else startAtCwd cwd

def normalizePath (path cwd : List UInt8) (capacity : Nat) : Eff Int Bytes Unit :=
  if capacity < 2 then Eff.fail (-1)
  else do
    let length ← normalizeStart path cwd capacity
    normalizeFrom (normalizeTooLong capacity) (-1) path length

end Code

theorem separator_le_one (length : Nat) : separator length ≤ 1 := by
  unfold separator
  split <;> omega

theorem resolveTooLong_fitTest {capacity : Nat} (h2 : 2 ≤ capacity) (hu : capacity < 2 ^ 32)
    (bound : Nat) : FitTest capacity bound (resolveTooLong capacity) := by
  intro length n hlt _
  have hsep := separator_le_one length
  rw [resolveTooLong, usub_of_le (by omega) hu, usub_of_le hlt.le hu, Bool.or_eq_false_iff,
    decide_eq_false_iff_not, decide_eq_false_iff_not]
  by_cases hl : separator length ≤ capacity - length
  · rw [usub_of_le hl (by omega)]
    omega
  · omega

theorem normalizeTooLong_fitTest {capacity bound : Nat} (h : capacity + bound + 1 < 2 ^ 32) :
    FitTest capacity bound (normalizeTooLong capacity) := by
  intro length n hlt hn
  have hsep := separator_le_one length
  rw [normalizeTooLong, decide_eq_false_iff_not, Nat.mod_eq_of_lt (by omega)]
  omega

section Start

variable {ε : Type} {b : Bytes} {capacity : Nat} {stack : List (List UInt8)}

theorem startAtRoot_spec (h2 : 2 ≤ capacity) :
    ∃ b', (startAtRoot : Eff ε Bytes Nat) b = (.ok (canonicalText []).length, b') ∧
      AtStack capacity [] b' ∧ ∀ i, capacity ≤ i → b' i = b i := by
  refine ⟨update (update b 0 0x2F) 1 0, rfl, ⟨by simp, h2, ?_⟩, fun i hi => ?_⟩
  · intro i hi
    have hi : i ≤ 1 := hi
    interval_cases i <;> rfl
  · rw [update_of_ne (by omega), update_of_ne (by omega)]

theorem startAtCwd_spec (hplain : ∀ c ∈ stack, PlainName c)
    (hfits : (canonicalText stack).length < capacity) :
    ∃ b', (startAtCwd (canonicalText stack) : Eff ε Bytes Nat) b =
        (.ok (canonicalText stack).length, b') ∧
      AtStack capacity stack b' ∧ ∀ i, capacity ≤ i → b' i = b i := by
  refine ⟨splice b 0 ((canonicalText stack).length + 1) (stringBytes (canonicalText stack)), rfl,
    ⟨hplain, hfits, fun i hi => ?_⟩, fun i hi => ?_⟩
  · rw [splice_inside (Nat.zero_le i) (by omega), Nat.sub_zero]
  · exact splice_outside (by omega)

end Start

/-- The components a path is resolved along: those of the working directory for a relative path,
and then its own. -/
def resolveComponents (stack : List (List UInt8)) (path : List UInt8) : List (List UInt8) :=
  (if path.head? = some 0x2F then [] else stack) ++ path.splitOn 0x2F

/-- Every text on the way fits with its zero, and then the buffer ends with the normal form. -/
structure Normalises {ε : Type} (capacity : Nat) (cs : List (List UInt8)) (b : Bytes)
    (r : Except ε Unit × Bytes) : Prop where
  isOk_iff : r.1.isOk = true ↔
    ∀ done, done <+: cs → (canonicalText (normalForm done)).length ≤ capacity - 1
  atNormalForm : r.1.isOk = true → AtStack capacity (normalForm cs) r.2
  rest : r.1.isOk = true → ∀ i, capacity ≤ i → r.2 i = b i

section Resolve

variable {ε : Type} {b : Bytes} {capacity bound : Nat} {stack : List (List UInt8)}
variable {cwd path : List UInt8} {tooLong : Nat → Nat → Bool} {e x : ε}

theorem allFit_iff {cs : List (List UInt8)} (h2 : 2 ≤ capacity) :
    AllFit capacity [] cs ↔
      ∀ done, done <+: cs → (canonicalText (normalForm done)).length ≤ capacity - 1 := by
  apply forall_congr'
  intro done
  apply imp_congr_right
  intro _
  rw [normalForm]
  omega

theorem normalizeFrom_spec {b₁ : Bytes} (h2 : 2 ≤ capacity) (hat : AtStack capacity stack b₁)
    (hrest : ∀ i, capacity ≤ i → b₁ i = b i) (hfit : FitTest capacity bound tooLong)
    (hzero : 0 ∉ path) (hbound : path.length ≤ bound) :
    Normalises capacity (stack ++ path.splitOn 0x2F) b
      (normalizeFrom tooLong e path (canonicalText stack).length b₁) := by
  obtain ⟨hok, herr⟩ := normalizeLoop_spec (e := e) hfit hat (Nat.lt_succ_self _) hzero hbound
  have hfits : AllFit capacity stack (pieces 0x2F path) ↔
      AllFit capacity [] (stack ++ path.splitOn 0x2F) := by
    rw [allFit_append, allFit_plain hat.plain, foldl_normalStep_plain hat.plain, List.nil_append,
      and_iff_right hat.fits]
    exact allFit_filter
  have hform : (pieces 0x2F path).foldl normalStep stack =
      normalForm (stack ++ path.splitOn 0x2F) := by
    rw [normalForm, List.foldl_append, foldl_normalStep_plain hat.plain, List.nil_append]
    exact foldl_normalStep_filter stack
  by_cases hall : AllFit capacity stack (pieces 0x2F path)
  · obtain ⟨b', hrun, hat', hrest'⟩ := hok hall
    rw [hform] at hat'
    rw [normalizeFrom, bind_ok hrun]
    exact ⟨iff_of_true rfl ((allFit_iff h2).mp (hfits.mp hall)), fun _ => hat',
      fun _ i hi => (hrest' i hi).trans (hrest i hi)⟩
  · have hne : (normalizeFrom tooLong e path (canonicalText stack).length b₁).1 = .error e := by
      rcases hrun : normalizeLoop tooLong e (path.length + 1) path (canonicalText stack).length b₁
        with ⟨r, b'⟩
      have hr := herr hall
      rw [hrun] at hr
      have hfail : r = .error e := hr
      rw [normalizeFrom, bind_error (hrun.trans (by rw [hfail]))]
    have hnot : ¬ (Except.error e : Except ε Unit).isOk = true := nofun
    refine ⟨?_, ?_, ?_⟩ <;> rw [hne]
    · exact iff_of_false hnot fun h => hall (hfits.mpr ((allFit_iff h2).mpr h))
    · exact fun h => absurd h hnot
    · exact fun h => absurd h hnot

/-- Both functions from their start on: they begin at the root or at the working directory, and fail
when the latter does not fit. -/
theorem startThenNormalize_spec {start : Eff ε Bytes Nat} (h2 : 2 ≤ capacity)
    (hplain : ∀ c ∈ stack, PlainName c)
    (hroot : path.head? = some 0x2F → start = startAtRoot)
    (hcwd : path.head? ≠ some 0x2F →
      start = if capacity ≤ (canonicalText stack).length then Eff.fail x
        else startAtCwd (canonicalText stack))
    (hfit : FitTest capacity bound tooLong) (hzero : 0 ∉ path) (hbound : path.length ≤ bound) :
    Normalises capacity (resolveComponents stack path) b
      ((start >>= normalizeFrom tooLong e path) b) := by
  unfold resolveComponents
  by_cases habs : path.head? = some 0x2F
  · obtain ⟨b₁, hrun, hat, hrest⟩ := startAtRoot_spec (ε := ε) (b := b) h2
    rw [if_pos habs, hroot habs, bind_ok hrun]
    exact normalizeFrom_spec h2 hat hrest hfit hzero hbound
  rw [if_neg habs, hcwd habs]
  by_cases hlong : capacity ≤ (canonicalText stack).length
  · rw [if_pos hlong, bind_error (m := Eff.fail x) (e := x) (t := b) rfl]
    have hnot : ¬ (Except.error x : Except ε Unit).isOk = true := nofun
    refine ⟨iff_of_false hnot fun h => ?_, fun h => absurd h hnot, fun h => absurd h hnot⟩
    have hfits := (allFit_plain hplain).mp (allFit_append.mp ((allFit_iff h2).mpr h)).1
    exact absurd hfits (by simpa using hlong)
  · obtain ⟨b₁, hrun, hat, hrest⟩ := startAtCwd_spec (ε := ε) (b := b) hplain (not_le.mp hlong)
    rw [if_neg hlong, bind_ok hrun]
    exact normalizeFrom_spec h2 hat hrest hfit hzero hbound

theorem head?_canonicalText (stack : List (List UInt8)) :
    (canonicalText stack).head? = some 0x2F := by
  cases stack with
  | nil => rfl
  | cons c stack => simp [canonicalText]

section

variable (hplain : ∀ c ∈ stack, PlainName c)
include hplain

theorem syscallResolvePath_spec (hpath : path ≠ [])
    (hzero : 0 ∉ path) (h2 : 2 ≤ capacity) (hu : capacity < 2 ^ 32) :
    Normalises capacity (resolveComponents stack path) b
      (syscallResolvePath (canonicalText stack) path capacity b) := by
  have hhead := head?_canonicalText stack
  have hne : canonicalText stack ≠ [] := fun h => by
    rw [h] at hhead
    cases hhead
  rw [syscallResolvePath, if_neg (not_or.mpr ⟨hpath, by omega⟩)]
  apply startThenNormalize_spec (x := .internal) h2 hplain
    _ _ (resolveTooLong_fitTest h2 hu path.length) hzero le_rfl
  · exact fun habs => if_pos habs
  · intro habs
    rw [resolveStart, if_neg habs]
    simp only [hne, hhead, ne_eq, not_true_eq_false, false_or]

theorem normalizePath_spec (hzero : 0 ∉ path)
    (h2 : 2 ≤ capacity) (hmem : capacity + path.length + 1 < 2 ^ 32) :
    Normalises capacity (resolveComponents stack path) b
      (normalizePath path (canonicalText stack) capacity b) := by
  rw [normalizePath, if_neg (by omega)]
  apply startThenNormalize_spec (x := -1) h2 hplain
    _ _ (normalizeTooLong_fitTest hmem) hzero le_rfl
  · exact fun habs => if_pos habs
  · intro habs
    rw [normalizeStart, if_neg habs, if_neg (not_not.mpr (head?_canonicalText stack))]

theorem zero_not_mem_canonicalText : 0 ∉ canonicalText stack := by
  unfold canonicalText
  split
  · decide
  · intro h0
    obtain ⟨c, hc, h0⟩ := List.mem_flatMap.mp h0
    rcases List.mem_cons.mp h0 with h0 | h0
    · exact absurd h0 (by decide)
    · exact (hplain c hc).2.2.2.2 h0

end

/-- A string with its zero and a buffer lie apart in a 32-bit address space, neither at the null
address. -/
def LieApart (s : List UInt8) (capacity : Nat) : Prop :=
  ∃ p q, 0 < p ∧ 0 < q ∧ p + (s.length + 1) ≤ 2 ^ 32 ∧ q + capacity ≤ 2 ^ 32 ∧
    (p + (s.length + 1) ≤ q ∨ q + capacity ≤ p)

theorem LieApart.sum_lt (h : LieApart path capacity) : capacity + path.length + 1 < 2 ^ 32 := by
  obtain ⟨p, q, hp, hq, hp', hq', h⟩ := h
  omega

/-- The copy command's normaliser and the kernel's agree. -/
theorem normalizePath_agrees (stack : List (List UInt8)) (path : List UInt8) (capacity : Nat)
    (out resolved : Bytes) (hplain : ∀ c ∈ stack, PlainName c) (hpath : path ≠ [])
    (hzero : 0 ∉ path) (h2 : 2 ≤ capacity) (hmem : LieApart path capacity) :
    ((normalizePath path (canonicalText stack) capacity out).1.isOk = true ↔
      (syscallResolvePath (canonicalText stack) path capacity resolved).1.isOk = true) ∧
    ((normalizePath path (canonicalText stack) capacity out).1.isOk = true →
      ∃ s, 0 ∉ s ∧ s.length < capacity ∧
        Holds (normalizePath path (canonicalText stack) capacity out).2 s ∧
        Holds (syscallResolvePath (canonicalText stack) path capacity resolved).2 s) := by
  have hsum := hmem.sum_lt
  have huser := normalizePath_spec (b := out) hplain hzero h2 hsum
  have hkernel := syscallResolvePath_spec (b := resolved) hplain hpath hzero h2 (by omega)
  have hiff := huser.isOk_iff.trans hkernel.isOk_iff.symm
  refine ⟨hiff, fun hok => ?_⟩
  have hout := huser.atNormalForm hok
  exact ⟨_, zero_not_mem_canonicalText hout.plain, hout.fits, hout.holds,
    (hkernel.atNormalForm (hiff.mp hok)).holds⟩

/-- Both calls fail, or both leave one string. -/
def SameText (r r' : Except Errno Unit × Bytes) : Prop :=
  (r.1.isOk = true ↔ r'.1.isOk = true) ∧
    (r.1.isOk = true → ∃ s, 0 ∉ s ∧ Holds r.2 s ∧ Holds r'.2 s)

/-- To go on from a normal form is to go on from the components it came from. -/
theorem Normalises.sameText {cs ds : List (List UInt8)} {b' : Bytes}
    {r r' : Except Errno Unit × Bytes} (hfit : AllFit capacity [] cs)
    (hplain : ∀ c ∈ normalForm cs, PlainName c) (h2 : 2 ≤ capacity)
    (h : Normalises capacity (normalForm cs ++ ds) b r)
    (h' : Normalises capacity (cs ++ ds) b' r') : SameText r r' := by
  have hfold := foldl_normalStep_plain hplain []
  have hform : normalForm (normalForm cs ++ ds) = normalForm (cs ++ ds) := by
    rw [normalForm, List.foldl_append, hfold]
    exact List.foldl_append.symm
  have hiff : AllFit capacity [] (normalForm cs ++ ds) ↔ AllFit capacity [] (cs ++ ds) := by
    rw [allFit_append, allFit_append, hfold, allFit_plain hplain]
    exact and_congr_left' (iff_of_true (hfit cs (List.prefix_refl cs)) hfit)
  rw [allFit_iff h2, allFit_iff h2, ← h.isOk_iff, ← h'.isOk_iff] at hiff
  refine ⟨hiff, fun hok => ?_⟩
  have hout := h'.atNormalForm (hiff.mp hok)
  exact ⟨_, zero_not_mem_canonicalText hout.plain, hform ▸ (h.atNormalForm hok).holds, hout.holds⟩

/-- Resolving `q` from the directory that `p` leads to is resolving `p/q` at once. -/
theorem syscallResolvePath_comp (stack : List (List UInt8)) (p q : List UInt8) (capacity : Nat)
    (b₀ b₁ : Bytes) (hplain : ∀ c ∈ stack, PlainName c) (hp : p ≠ []) (hq : q ≠ [])
    (hrel : q.head? ≠ some 0x2F) (hp0 : 0 ∉ p) (hq0 : 0 ∉ q) (h2 : 2 ≤ capacity)
    (hu : capacity < 2 ^ 32)
    (hok : (syscallResolvePath (canonicalText stack) p capacity b).1.isOk = true) :
    ∃ dir, 0 ∉ dir ∧ Holds (syscallResolvePath (canonicalText stack) p capacity b).2 dir ∧
      SameText (syscallResolvePath dir q capacity b₀)
        (syscallResolvePath (canonicalText stack) (p ++ 0x2F :: q) capacity b₁) := by
  have hfirst := syscallResolvePath_spec (b := b) hplain hp hp0 h2 hu
  have hdir := hfirst.atNormalForm hok
  have hthen := syscallResolvePath_spec (b := b₀) hdir.plain hq hq0 h2 hu
  have honce := syscallResolvePath_spec (b := b₁) hplain (show p ++ 0x2F :: q ≠ [] by simp)
    (by simp [hp0, hq0]) h2 hu
  rw [resolveComponents, if_neg hrel] at hthen
  rw [resolveComponents, List.head?_append_of_ne_nil _ hp, List.splitOn_append_cons_self,
    ← List.append_assoc] at honce
  exact ⟨_, zero_not_mem_canonicalText hdir.plain, hdir.holds,
    hthen.sameText ((allFit_iff h2).mpr (hfirst.isOk_iff.mp hok)) hdir.plain h2 honce⟩

end Resolve

/-- `../b` from `/a` in the copy command's buffers, at the smallest capacity that `/b` needs. -/
theorem normalizePath_agrees_dotdot :
    ∃ s, 0 ∉ s ∧ s.length < 3 ∧
      Holds (normalizePath [0x2E, 0x2E, 0x2F, 0x62] (canonicalText [[0x61]]) 3 fun _ => 0).2 s ∧
      Holds (syscallResolvePath (canonicalText [[0x61]]) [0x2E, 0x2E, 0x2F, 0x62] 3 fun _ => 0).2
        s :=
  (normalizePath_agrees [[0x61]] [0x2E, 0x2E, 0x2F, 0x62] 3 _ _ (by simp [PlainName])
    (by decide) (by decide) (by decide)
    ⟨1, 6, by decide, by decide, by decide, by decide, .inl (by decide)⟩).2 (by decide)

/-- From `/a` to `..` and on to `b`. -/
theorem syscallResolvePath_comp_dotdot :
    ∃ dir, 0 ∉ dir ∧ SameText (syscallResolvePath dir [0x62] 3 fun _ => 0)
      (syscallResolvePath (canonicalText [[0x61]]) [0x2E, 0x2E, 0x2F, 0x62] 3 fun _ => 0) := by
  obtain ⟨dir, h0, -, hsame⟩ := syscallResolvePath_comp [[0x61]] [0x2E, 0x2E] [0x62] 3
    (b := fun _ => 0) (fun _ => 0) (fun _ => 0) (by simp [PlainName]) (by decide) (by decide)
    (by decide) (by decide) (by decide) (by decide) (by decide) (by decide)
  exact ⟨dir, h0, hsame⟩

end CfKernel.Syscall
