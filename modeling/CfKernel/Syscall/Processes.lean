import CfKernel.Lib.Run
import CfKernel.Syscall.ResolvePath

/-!
# The process table and working directories

The table of `sched/proc.c` with the requests that make, end and reap processes and that change a
working directory. A working directory is kept as its C string: no function reads what stands
behind the zero.
-/

namespace CfKernel.Syscall

open Lib Lib.Eff Function

/-- The caller's address space: the bytes that `paging_user_range_valid` lets the kernel read. -/
abbrev UserMemory := Nat → Option UInt8

def copyFromUserByte (user : UserMemory) (address : Nat) : Except Errno UInt8 :=
  if address = 0 then .error .badAddress
  else match user address with
    | none => .error .badAddress
    | some x => .ok x

/-- The turns of `copy_user_string` from byte `i` on, with `n` turns left. -/
def copyUserStringLoop (user : UserMemory) (source : Nat) :
    Nat → Nat → List UInt8 → Except Errno (List UInt8)
  | 0, _, _ => .error .bufferTooSmall
  | n + 1, i, copied =>
    if 0xFFFFFFFF < source + i then .error .badAddress
    else do
      let x ← copyFromUserByte user (source + i)
      if x = 0 then .ok copied else copyUserStringLoop user source n (i + 1) (copied ++ [x])

def copyUserString (user : UserMemory) (capacity source : Nat) : Except Errno (List UInt8) :=
  if capacity = 0 ∨ source = 0 then .error .badAddress
  else copyUserStringLoop user source capacity 0 []

def cString (b : Bytes) (size : Nat) : List UInt8 := ((List.range size).map b).takeWhile (· ≠ 0)

structure Process where
  pid : Int
  ppid : Int
  exitCode : Int
  alive : Bool
  cwd : List UInt8

def Process.zero : Process := ⟨0, 0, 0, false, []⟩

def maxProcs : Nat := 63

structure ProcTable where
  boot : Process
  procs : Fin maxProcs → Process
  used : Fin maxProcs → Bool

def procInit : ProcTable where
  boot := ⟨0, -1, 0, true, [0x2F]⟩
  procs _ := Process.zero
  used _ := false

namespace ProcTable

/-- `proc_current`: the process of the running thread, or the boot process. -/
def procCurrent (t : ProcTable) : Option (Fin maxProcs) → Process
  | none => t.boot
  | some i => t.procs i

def setSlot (t : ProcTable) (i : Fin maxProcs) (p : Process) (inUse : Bool) : ProcTable :=
  { t with procs := update t.procs i p, used := update t.used i inUse }

def setCurrent (t : ProcTable) (p : Process) : Option (Fin maxProcs) → ProcTable
  | none => { t with boot := p }
  | some i => t.setSlot i p (t.used i)

def procAllocSlot (t : ProcTable) : Option (Fin maxProcs × ProcTable) :=
  ((List.finRange maxProcs).find? fun i => !t.used i).map fun i =>
    (i, t.setSlot i Process.zero true)

def inheritedCwd (parent : Process) : List UInt8 :=
  if parent.cwd.head? = some 0x2F then parent.cwd else [0x2F]

def procCreate (caller : Option (Fin maxProcs)) (t : ProcTable) : ProcTable :=
  match t.procAllocSlot with
  | none => t
  | some (i, t) =>
    let parent := t.procCurrent caller
    t.setSlot i ⟨(i : Int) + 1, parent.pid, 0, true, inheritedCwd parent⟩ true

def procMarkExit (caller : Option (Fin maxProcs)) (code : Int) (t : ProcTable) : ProcTable :=
  t.setCurrent { t.procCurrent caller with exitCode := code, alive := false } caller

def procReap (pid : Int) : Eff Errno ProcTable Unit := fun t =>
  if h : 0 < pid ∧ pid ≤ maxProcs then
    let i : Fin maxProcs := ⟨(pid - 1).toNat, by omega⟩
    if t.used i = false ∨ (t.procs i).pid ≠ pid then (.error .processNotFound, t)
    else if (t.procs i).alive then (.error .busy, t)
    else (.ok (), t.setSlot i Process.zero false)
  else (.error .processNotFound, t)

end ProcTable

/-- What `vfs_lookup` says of a path, as far as `SYS_chdir` looks at it. -/
abbrev DirectoryLookup := List UInt8 → Except Errno Bool

def syscallPathMax : Nat := 256

/-- The path that `SYS_chdir` ends with; the stack buffer starts with any contents. -/
def chdirTarget (cwd : List UInt8) (user : UserMemory) (arg : Nat) (lookup : DirectoryLookup)
    (stack : Bytes) : Except Errno (List UInt8) := do
  let pathname ← copyUserString user syscallPathMax arg
  let (result, resolved) := syscallResolvePath cwd pathname syscallPathMax stack
  result
  let target := cString resolved syscallPathMax
  let isDirectory ← lookup target
  if isDirectory = false then .error .notDirectory
  else if 256 ≤ target.length then .error .nameTooLong
  else .ok target

def sysChdir (caller : Option (Fin maxProcs)) (user : UserMemory) (arg : Nat)
    (lookup : DirectoryLookup) (stack : Bytes) : Eff Errno ProcTable Unit := fun t =>
  match chdirTarget (t.procCurrent caller).cwd user arg lookup stack with
  | .error e => (.error e, t)
  | .ok target => (.ok (), t.setCurrent { t.procCurrent caller with cwd := target } caller)

/-- A request of the running process. What the request meets in user memory, in the file system and
on the kernel stack is part of it. -/
inductive ProcRequest where
  | create
  | exit (code : Int)
  | reap (pid : Int)
  | chdir (user : UserMemory) (arg : Nat) (lookup : DirectoryLookup) (stack : Bytes)

def procStep (r : Option (Fin maxProcs) × ProcRequest) (t : ProcTable) : ProcTable :=
  match r.2 with
  | .create => t.procCreate r.1
  | .exit code => t.procMarkExit r.1 code
  | .reap pid => (ProcTable.procReap pid t).2
  | .chdir user arg lookup stack => (sysChdir r.1 user arg lookup stack t).2

def ProcTable.Live (t : ProcTable) (p : Process) : Prop :=
  p.alive = true ∧ (p = t.boot ∨ ∃ i, t.used i = true ∧ p = t.procs i)

variable {user : UserMemory} {source capacity : Nat} {s cwd path target : List UInt8} {b : Bytes}

theorem zero_not_mem_copyUserStringLoop {n i : Nat} {copied : List UInt8} (h0 : 0 ∉ copied)
    (h : copyUserStringLoop user source n i copied = .ok s) : 0 ∉ s := by
  induction n generalizing i copied with
  | zero => cases h
  | succ n ih =>
    rw [copyUserStringLoop] at h
    split at h
    · cases h
    · cases hx : copyFromUserByte user (source + i) with
      | error e =>
        rw [hx] at h
        cases h
      | ok x =>
        rw [hx] at h
        change (if x = 0 then Except.ok copied
          else copyUserStringLoop user source n (i + 1) (copied ++ [x])) = .ok s at h
        split at h
        · cases h
          exact h0
        · rename_i hne
          apply ih _ h
          simp only [List.mem_append, List.mem_singleton, not_or]
          exact ⟨h0, fun heq => hne heq.symm⟩

theorem zero_not_mem_copyUserString (h : copyUserString user capacity source = .ok s) : 0 ∉ s := by
  unfold copyUserString at h
  split at h
  · cases h
  · exact zero_not_mem_copyUserStringLoop List.not_mem_nil h

theorem cString_eq {size : Nat} (hb : Holds b s) (h0 : 0 ∉ s) (hsize : s.length < size) :
    cString b size = s := by
  obtain ⟨k, rfl⟩ := Nat.exists_eq_add_of_lt hsize
  have hbytes : (List.range s.length).map b = s := by
    apply List.ext_getElem (by simp)
    intro i hi hi'
    rw [List.getElem_map, List.getElem_range, hb i hi'.le]
    simp [stringBytes, hi']
  have hend : b s.length = 0 := by rw [hb _ le_rfl, stringBytes_length]
  rw [cString, Nat.add_assoc, List.range_add, List.map_append, hbytes, List.takeWhile_append_of_pos]
  · rw [List.range_succ_eq_map]
    simp [hend]
  · intro x hx
    simpa using fun heq : x = 0 => h0 (heq ▸ hx)

theorem syscallResolvePath_noCwd (hrel : path.head? ≠ some 0x2F) (capacity : Nat) (b : Bytes) :
    (syscallResolvePath [] path capacity b).1.isOk = false := by
  have hstart : resolveStart [] path capacity = Eff.fail .internal :=
    (if_neg hrel).trans (if_pos (.inl rfl))
  unfold syscallResolvePath
  rw [hstart]
  split_ifs with hbad
  · rfl
  · rfl

theorem syscallResolvePath_absolute (habs : path.head? = some 0x2F) (cwd cwd' : List UInt8)
    (capacity : Nat) :
    syscallResolvePath cwd path capacity = syscallResolvePath cwd' path capacity := by
  have hstart : ∀ cwd, resolveStart cwd path capacity = startAtRoot := fun cwd => if_pos habs
  rw [syscallResolvePath, syscallResolvePath, hstart, hstart]

theorem syscallResolvePath_canonical (hcwd : cwd = [] ∨ Canonical cwd) (hzero : 0 ∉ path)
    (hok : (syscallResolvePath cwd path syscallPathMax b).1.isOk = true) :
    Canonical (cString (syscallResolvePath cwd path syscallPathMax b).2 syscallPathMax) := by
  have hpath : path ≠ [] := by
    rintro rfl
    cases hok
  have hstack : ∃ stack, (∀ c ∈ stack, PlainName c) ∧
      syscallResolvePath cwd path syscallPathMax =
        syscallResolvePath (canonicalText stack) path syscallPathMax := by
    rcases hcwd with rfl | ⟨stack, hplain, rfl⟩
    · by_cases habs : path.head? = some 0x2F
      · exact ⟨[], by simp, syscallResolvePath_absolute habs _ _ _⟩
      · exact absurd hok (by simp [syscallResolvePath_noCwd habs])
    · exact ⟨stack, hplain, rfl⟩
  obtain ⟨stack, hplain, heq⟩ := hstack
  rw [heq] at hok ⊢
  have hat := (syscallResolvePath_spec hplain hpath hzero (by decide) (by decide)).atNormalForm hok
  rw [cString_eq hat.holds (zero_not_mem_canonicalText hat.plain) hat.fits]
  exact ⟨_, hat.plain, rfl⟩

theorem chdirTarget_canonical {arg : Nat} {lookup : DirectoryLookup} {stack : Bytes}
    (hcwd : cwd = [] ∨ Canonical cwd) (h : chdirTarget cwd user arg lookup stack = .ok target) :
    Canonical target := by
  unfold chdirTarget at h
  cases hcopy : copyUserString user syscallPathMax arg with
  | error e =>
    rw [hcopy] at h
    cases h
  | ok path =>
    rw [hcopy] at h
    cases hres : (syscallResolvePath cwd path syscallPathMax stack).1 with
    | error e =>
      simp only [bind, Except.bind, hres] at h
      cases h
    | ok u =>
      have hcanon := syscallResolvePath_canonical hcwd (zero_not_mem_copyUserString hcopy)
        (b := stack) (by rw [hres]; rfl)
      simp only [bind, Except.bind, hres] at h
      split at h
      · cases h
      · split at h
        · cases h
        · split at h
          · cases h
          · cases h
            exact hcanon

section Slots

variable {t : ProcTable} {i j : Fin maxProcs} {p q : Process} {x y : Bool}

@[simp] theorem ProcTable.setSlot_procs_self : (t.setSlot i p x).procs i = p :=
  update_self _ _ _

@[simp] theorem ProcTable.setSlot_procs_of_ne (h : j ≠ i) : (t.setSlot i p x).procs j = t.procs j :=
  update_of_ne h _ _

@[simp] theorem ProcTable.setSlot_used_self : (t.setSlot i p x).used i = x :=
  update_self _ _ _

@[simp] theorem ProcTable.setSlot_used_of_ne (h : j ≠ i) : (t.setSlot i p x).used j = t.used j :=
  update_of_ne h _ _

@[simp] theorem ProcTable.setSlot_setSlot : (t.setSlot i p x).setSlot i q y = t.setSlot i q y := by
  simp [setSlot]

end Slots

/-- Slots that are not in use may be blank. -/
structure ProcTable.CwdsCanonical (t : ProcTable) : Prop where
  boot : Canonical t.boot.cwd
  slot : ∀ i, (t.procs i).cwd = [] ∨ Canonical (t.procs i).cwd
  used : ∀ i, t.used i = true → Canonical (t.procs i).cwd

namespace ProcTable.CwdsCanonical

variable {t : ProcTable} {caller : Option (Fin maxProcs)} {p : Process}

theorem current (h : t.CwdsCanonical) (caller : Option (Fin maxProcs)) :
    (t.procCurrent caller).cwd = [] ∨ Canonical (t.procCurrent caller).cwd := by
  cases caller with
  | none => exact .inr h.boot
  | some i => exact h.slot i

theorem setSlot (h : t.CwdsCanonical) {i : Fin maxProcs} {inUse : Bool}
    (hp : p.cwd = [] ∨ Canonical p.cwd) (hused : inUse = true → Canonical p.cwd) :
    (t.setSlot i p inUse).CwdsCanonical where
  boot := h.boot
  slot j := by
    by_cases hj : j = i
    · subst hj
      rwa [setSlot_procs_self]
    · rw [setSlot_procs_of_ne hj]
      exact h.slot j
  used j hj' := by
    by_cases hj : j = i
    · subst hj
      rw [setSlot_used_self] at hj'
      rw [setSlot_procs_self]
      exact hused hj'
    · rw [setSlot_used_of_ne hj] at hj'
      rw [setSlot_procs_of_ne hj]
      exact h.used j hj'

theorem setCurrent (h : t.CwdsCanonical)
    (hp : Canonical p.cwd ∨ p.cwd = (t.procCurrent caller).cwd) :
    (t.setCurrent p caller).CwdsCanonical := by
  cases caller with
  | none =>
    refine ⟨?_, h.slot, h.used⟩
    rcases hp with hp | hp
    · exact hp
    · exact hp ▸ h.boot
  | some i =>
    apply h.setSlot
    · rcases hp with hp | hp
      · exact .inr hp
      · exact hp ▸ h.slot i
    · intro hi
      rcases hp with hp | hp
      · exact hp
      · exact hp ▸ h.used i hi

theorem inheritedCwd_canonical (hp : p.cwd = [] ∨ Canonical p.cwd) :
    Canonical (inheritedCwd p) := by
  unfold inheritedCwd
  split
  · rename_i hhead
    apply hp.resolve_left
    intro hnil
    rw [hnil] at hhead
    cases hhead
  · exact ⟨[], by simp, rfl⟩

section

variable (h : t.CwdsCanonical)
include h

theorem current_setSlot (i : Fin maxProcs) (inUse : Bool) (caller : Option (Fin maxProcs)) :
    ((t.setSlot i Process.zero inUse).procCurrent caller).cwd = [] ∨
      Canonical ((t.setSlot i Process.zero inUse).procCurrent caller).cwd := by
  cases caller with
  | none => exact .inr h.boot
  | some j =>
    by_cases hj : j = i
    · subst hj
      rw [procCurrent, setSlot_procs_self]
      exact .inl rfl
    · rw [procCurrent, setSlot_procs_of_ne hj]
      exact h.slot j

theorem procCreate (caller : Option (Fin maxProcs)) : (t.procCreate caller).CwdsCanonical := by
  unfold ProcTable.procCreate procAllocSlot
  cases (List.finRange maxProcs).find? fun i => !t.used i with
  | none => exact h
  | some i =>
    have hcwd := inheritedCwd_canonical (h.current_setSlot i true caller)
    simp only [Option.map_some, setSlot_setSlot]
    exact h.setSlot (.inr hcwd) fun _ => hcwd

theorem procReap (pid : Int) : (ProcTable.procReap pid t).2.CwdsCanonical := by
  unfold ProcTable.procReap
  split
  · dsimp only
    split
    · exact h
    · split
      · exact h
      · exact h.setSlot (.inl rfl) nofun
  · exact h

theorem sysChdir (caller : Option (Fin maxProcs)) (user : UserMemory)
    (arg : Nat) (lookup : DirectoryLookup) (stack : Bytes) :
    (Syscall.sysChdir caller user arg lookup stack t).2.CwdsCanonical := by
  unfold Syscall.sysChdir
  split
  · exact h
  · rename_i target htarget
    exact h.setCurrent (.inl (chdirTarget_canonical (h.current caller) htarget))

theorem step (r : Option (Fin maxProcs) × ProcRequest) : (procStep r t).CwdsCanonical := by
  obtain ⟨caller, r⟩ := r
  cases r with
  | create => exact h.procCreate caller
  | exit code => exact h.setCurrent (.inr rfl)
  | reap pid => exact h.procReap pid
  | chdir user arg lookup stack => exact h.sysChdir caller user arg lookup stack

theorem live (hp : t.Live p) : Canonical p.cwd := by
  rcases hp.2 with rfl | ⟨i, hi, rfl⟩
  · exact h.boot
  · exact h.used i hi

end

end ProcTable.CwdsCanonical

theorem procInit_cwdsCanonical : procInit.CwdsCanonical where
  boot := ⟨[], by simp, rfl⟩
  slot _ := .inl rfl
  used _ := nofun

/-- Resolving succeeds exactly when every text on the way fits, and leaves the canonical text of the
normal form; so in every run of processes that are made, ended and reaped and that change their
working directory, the working directories are canonical. -/
theorem resolvePath_canonical :
    (∀ (cwd path : List UInt8) (capacity : Nat) (b : Bytes) (stack : List (List UInt8)),
      (∀ c ∈ stack, PlainName c) → cwd = canonicalText stack → path ≠ [] → 0 ∉ path →
      2 ≤ capacity → capacity < 2 ^ 32 →
      ((syscallResolvePath cwd path capacity b).1.isOk = true ↔
        ∀ done, done <+: resolveComponents stack path →
          (canonicalText (normalForm done)).length ≤ capacity - 1) ∧
      ((syscallResolvePath cwd path capacity b).1.isOk = true →
        Holds (syscallResolvePath cwd path capacity b).2
          (canonicalText (normalForm (resolveComponents stack path))) ∧
        (canonicalText (normalForm (resolveComponents stack path))).length < capacity)) ∧
    ∀ t, Reach procStep (fun _ _ => True) procInit t → ∀ p, t.Live p → Canonical p.cwd := by
  constructor
  · rintro _ path capacity b stack hplain rfl hpath hzero h2 hu
    have hspec := syscallResolvePath_spec (b := b) hplain hpath hzero h2 hu
    exact ⟨hspec.isOk_iff, fun hok =>
      ⟨(hspec.atNormalForm hok).holds, (hspec.atNormalForm hok).fits⟩⟩
  · intro t ht p hp
    have hinv := ht.invariant ProcTable.CwdsCanonical procInit_cwdsCanonical
      fun r t h _ => h.step r
    exact hinv.live hp

/-- `../b` from `/a` at the smallest capacity that `/b` needs, and the first process made. -/
theorem resolvePath_canonical_dotdot :
    Holds (syscallResolvePath [0x2F, 0x61] [0x2E, 0x2E, 0x2F, 0x62] 3 fun _ => 0).2
      (canonicalText (normalForm (resolveComponents [[0x61]] [0x2E, 0x2E, 0x2F, 0x62]))) ∧
    ∀ p, (procStep (none, .create) procInit).Live p → Canonical p.cwd :=
  ⟨((resolvePath_canonical.1 [0x2F, 0x61] [0x2E, 0x2E, 0x2F, 0x62] 3 (fun _ => 0) [[0x61]]
      (by simp [PlainName]) rfl (by decide) (by decide) (by decide) (by decide)).2 (by decide)).1,
    resolvePath_canonical.2 _ (.step _ .start trivial)⟩

end CfKernel.Syscall
