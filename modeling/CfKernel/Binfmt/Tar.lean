import CfKernel.Fat.Dir
import CfKernel.Lib.Pieces

/-!
# Unpacking a tar archive

`tar.c`. The archive is a stretch of memory and pointers into it are addresses, so the advance of
the cursor wraps as it does in C. The file system is a parameter: what its operations answer is
up to it. A run carries the state of the file system, every stretch of memory that the loop and
the write it calls have read from, and the cursors at which a turn of the loop began, latest
first. It stops with `overrun` where a string is copied into a buffer that is too small for it,
and with `endless` where a scan has gone through the whole address space.
-/

namespace CfKernel.Binfmt

open Lib Fat

/-- The operations of the vnodes that an archive is unpacked into. `lookup` and `create` give the
vnode if they return 0, `openVnode` says whether a file was allocated, and `write` how many bytes
of its buffer it has read. -/
structure TarFs (σ ν : Type) where
  lookup : ν → List UInt8 → σ → Option ν × σ
  create : ν → List UInt8 → VnodeType → σ → Option ν × σ
  openVnode : ν → σ → Bool × σ
  write : ν → Bytes → Nat → σ → Nat × σ
  close : ν → σ → σ

structure TarRun (σ : Type) where
  fs : σ
  reads : List (Nat × Nat)
  cursors : List Nat

inductive TarStop where
  | overrun
  | endless
  deriving DecidableEq

abbrev TarM (σ : Type) := Eff TarStop (TarRun σ)

variable {σ ν α : Type}

def onFs (f : σ → α × σ) : TarM σ α := fun t => (.ok (f t.fs).1, { t with fs := (f t.fs).2 })

/-- Notes that `len` bytes from the address `a` on have been read. -/
def touch (a len : Nat) : TarM σ Unit :=
  Eff.modify fun t => { t with reads := (a, len) :: t.reads }

def byteAt (mem : Bytes) (a : Nat) : TarM σ UInt8 := do
  touch a 1
  pure (mem a)

/-- `strcpy` of a string into a buffer of `cap` bytes. -/
def strcpy (cap : Nat) (str : List UInt8) : TarM σ (List UInt8) :=
  if str.length < cap then pure str else Eff.fail .overrun

def slash : UInt8 := 47

def isOctal (c : UInt8) : Bool := 48 ≤ c && c ≤ 55

/-- The loop of `oct2bin`. An unbroken run of digits is followed around the address space. -/
def oct2binFrom (mem : Bytes) : Nat → Nat → Nat → TarM σ Nat
  | 0, _, _ => Eff.fail .endless
  | n + 1, str, val => do
    let c ← byteAt mem str
    if isOctal c then
      oct2binFrom mem n (u32 (str + 1)) (u32 (u32 (val <<< 3) + (c.toNat - 48)))
    else
      pure val

def oct2bin (mem : Bytes) (str : Nat) : TarM σ Nat := oct2binFrom mem (2 ^ 32) str 0

def normalize (name : List UInt8) : List UInt8 :=
  let name := if name.take 2 = [46, slash] then name.drop 2 else name
  let name := name.dropWhile (· = slash)
  name.rdropWhile (· = slash)

/-- What `mkdir_p` does for one component: look it up, and create it if it is not there. -/
def mkdirStep (fs : TarFs σ ν) (cur : ν) (component : List UInt8) : TarM σ (Option ν) :=
  if component = [] then pure (some cur)
  else do
    match ← onFs (fs.lookup cur component) with
    | some next => pure (some next)
    | none => onFs (fs.create cur component .dir)

def mkdirFrom (fs : TarFs σ ν) : Nat → ν → List UInt8 → TarM σ (Option ν)
  | 0, _, _ => Eff.fail .endless
  | n + 1, cur, p =>
    if p = [] then pure (some cur)
    else do
      match ← mkdirStep fs cur (p.takeWhile (· ≠ slash)) with
      | none => pure none
      | some next =>
        match p.dropWhile (· ≠ slash) with
        | [] => pure (some next)
        | _ :: p => mkdirFrom fs n next p

def mkdirP (fs : TarFs σ ν) (root : ν) (path : List UInt8) : TarM σ (Option ν) := do
  let tmp ← strcpy 128 path
  mkdirFrom fs (tmp.length + 1) root tmp

/-- What stands before the last slash of a path, and what stands behind it. -/
def parentOf (path : List UInt8) : List UInt8 := (path.rdropWhile (· ≠ slash)).dropLast

def leafOf (path : List UInt8) : List UInt8 := path.rtakeWhile (· ≠ slash)

def splitPath (path : List UInt8) : TarM σ (List UInt8 × List UInt8) :=
  if slash ∈ path then do
    let parent ← strcpy 128 (parentOf path)
    let leaf ← strcpy 64 (leafOf path)
    pure (parent, leaf)
  else do
    let leaf ← strcpy 64 path
    pure ([], leaf)

def parentVnode (fs : TarFs σ ν) (root : ν) (parentPath : List UInt8) : TarM σ (Option ν) :=
  if parentPath = [] then pure (some root) else mkdirP fs root parentPath

/-- The vnode that an entry goes into, if there is one, and the name it gets there. -/
def tarNames (fs : TarFs σ ν) (root : ν) (name : List UInt8) : TarM σ (Option ν × List UInt8) := do
  let (parentPath, leaf) ← splitPath name
  let parent ← parentVnode fs root parentPath
  pure (parent, leaf)

def tarDir (fs : TarFs σ ν) (parent : ν) (leaf : List UInt8) (s : σ) : Unit × σ :=
  match fs.lookup parent leaf s with
  | (some _, s) => ((), s)
  | (none, s) => ((), (fs.create parent leaf .dir s).2)

/-- The branch for files, with the number of bytes of `data` that are read. -/
def tarFile (fs : TarFs σ ν) (parent : ν) (leaf : List UInt8) (data : Bytes) (fsize : Nat)
    (s : σ) : Nat × σ :=
  match fs.create parent leaf .file s with
  | (none, s) => (0, s)
  | (some node, s) =>
    match fs.openVnode node s with
    | (false, s) => (0, s)
    | (true, s) =>
      let (len, s) := fs.write node data fsize s
      (len, fs.close node s)

def tarPlace (fs : TarFs σ ν) (mem : Bytes) (data fsize : Nat) (typeflag : UInt8) (parent : ν)
    (leaf : List UInt8) : TarM σ Unit :=
  if typeflag = 53 then
    onFs (tarDir fs parent leaf)
  else do
    let len ← onFs (tarFile fs parent leaf (window mem data) fsize)
    touch data len

def nameField (mem : Bytes) (ptr : Nat) : List UInt8 := (List.range 100).map fun i => mem (ptr + i)

/-- The name that a field holds: the string in it, normalized. -/
def entryName (field : List UInt8) : List UInt8 := normalize (field.takeWhile (· ≠ 0))

/-- The cursor behind an entry of `fsize` bytes. -/
def behind (ptr fsize : Nat) : Nat :=
  let total := u32 (u32 (fsize + 511) / 512 * 512)
  u32 (ptr + u32 (512 + total))

/-- Copies the name out of the header at `ptr` and reads the fields `size` and `typeflag`. -/
def readHeader (mem : Bytes) (ptr : Nat) : TarM σ (Nat × UInt8) := do
  touch ptr 100
  let fsize ← oct2bin mem (u32 (ptr + 124))
  let typeflag ← byteAt mem (u32 (ptr + 156))
  pure (fsize, typeflag)

/-- A turn of the loop, with the cursor for the next one unless the loop is left. -/
def tarEntry (fs : TarFs σ ν) (root : ν) (mem : Bytes) (finish ptr : Nat) : TarM σ (Option Nat) :=
  if u32 (ptr + 512) > finish then pure none
  else do
    if (← byteAt mem ptr) = 0 then pure none
    else do
      let name := entryName (nameField mem ptr)
      let (fsize, typeflag) ← readHeader mem ptr
      if name = [] then pure (some (u32 (ptr + 512)))
      else do
        let (parent, leaf) ← tarNames fs root name
        match parent with
        | none => pure none
        | some parent => do
          tarPlace fs mem (u32 (ptr + 512)) fsize typeflag parent leaf
          pure (some (behind ptr fsize))

def atCursor (ptr : Nat) (t : TarRun σ) : TarRun σ := { t with cursors := ptr :: t.cursors }

def tarLoop (fs : TarFs σ ν) (root : ν) (mem : Bytes) (finish : Nat) : Nat → Nat → TarM σ Unit
  | 0, _ => Eff.fail .endless
  | n + 1, ptr =>
    if ptr < finish then do
      Eff.modify (atCursor ptr)
      match ← tarEntry fs root mem finish ptr with
      | none => pure ()
      | some ptr => tarLoop fs root mem finish n ptr
    else
      pure ()

/-- `tar_extract`, with a bound on the number of turns of its loop. -/
def tarExtract (fs : TarFs σ ν) (mem : Bytes) (root : Option ν) (start size turns : Nat) :
    TarM σ Unit :=
  match root with
  | none => pure ()
  | some root =>
    if start = 0 ∨ size = 0 then pure ()
    else tarLoop fs root mem (u32 (start + size)) turns start

section Names

variable {t : TarRun σ} {str name field : List UInt8} {cap n : Nat}

theorem strcpy_ok (h : str.length < cap) : (strcpy cap str : TarM σ _) t = (.ok str, t) := by
  rw [strcpy, if_pos h]
  rfl

theorem strcpy_overrun (h : cap ≤ str.length) :
    (strcpy cap str : TarM σ _) t = (.error .overrun, t) := by
  rw [strcpy, if_neg (by omega)]
  rfl

theorem leafOf_of_notMem (h : slash ∉ name) : leafOf name = name := by
  rw [leafOf, List.rtakeWhile_eq_self_iff]
  intro x hx
  simpa using fun hs : x = slash => h (hs ▸ hx)

theorem parentOf_of_notMem (h : slash ∉ name) : parentOf name = [] := by
  rw [parentOf, List.rdropWhile_eq_nil_iff.mpr, List.dropLast_nil]
  intro x hx
  simpa using fun hs : x = slash => h (hs ▸ hx)

theorem length_parentOf_le (name : List UInt8) : (parentOf name).length ≤ name.length := by
  have h := (List.rdropWhile_prefix (· ≠ slash) name).length_le
  rw [parentOf, List.length_dropLast]
  omega

theorem splitPath_ok (hname : name.length < 128) (hleaf : (leafOf name).length < 64) :
    splitPath name t = (.ok (parentOf name, leafOf name), t) := by
  by_cases h : slash ∈ name
  · have hparent := length_parentOf_le name
    rw [splitPath, if_pos h, Eff.bind_ok (strcpy_ok (lt_of_le_of_lt hparent hname)),
      Eff.bind_ok (strcpy_ok hleaf)]
    rfl
  · rw [leafOf_of_notMem h] at hleaf ⊢
    rw [splitPath, if_neg h, Eff.bind_ok (strcpy_ok hleaf), parentOf_of_notMem h]
    rfl

theorem splitPath_overrun (hname : name.length < 128) (hleaf : 64 ≤ (leafOf name).length) :
    splitPath name t = (.error .overrun, t) := by
  by_cases h : slash ∈ name
  · have hparent := length_parentOf_le name
    rw [splitPath, if_pos h, Eff.bind_ok (strcpy_ok (lt_of_le_of_lt hparent hname)),
      Eff.bind_error (strcpy_overrun hleaf)]
  · rw [leafOf_of_notMem h] at hleaf
    rw [splitPath, if_neg h, Eff.bind_error (strcpy_overrun hleaf)]

section

variable (fs : TarFs σ ν)
include fs

theorem mkdirStep_ok (cur : ν) (str : List UInt8) (t : TarRun σ) :
    ∃ next s, mkdirStep fs cur str t = (.ok next, { t with fs := s }) := by
  by_cases hnil : str = []
  · exact ⟨_, t.fs, by rw [mkdirStep, if_pos hnil]; rfl⟩
  rw [mkdirStep, if_neg hnil, Eff.bind_run, onFs, Eff.andThen_ok]
  cases (fs.lookup cur str t.fs).1 with
  | some next => exact ⟨_, _, rfl⟩
  | none => exact ⟨_, _, rfl⟩

/-- Every component takes one turn, so that the length of the path bounds them. -/
theorem mkdirFrom_ok (hn : str.length < n) (cur : ν) (t : TarRun σ) :
    ∃ r s, mkdirFrom fs n cur str t = (.ok r, { t with fs := s }) := by
  induction n generalizing cur str t with
  | zero => cases hn
  | succ n ih =>
    rw [mkdirFrom]
    by_cases hnil : str = []
    · rw [if_pos hnil]
      exact ⟨_, t.fs, rfl⟩
    obtain ⟨next, s, hnext⟩ := mkdirStep_ok fs cur (str.takeWhile (· ≠ slash)) t
    rw [if_neg hnil, Eff.bind_ok hnext]
    cases next with
    | none => exact ⟨_, _, rfl⟩
    | some next =>
      have hlen := (List.dropWhile_suffix (l := str) (· ≠ slash)).length_le
      cases hrest : str.dropWhile (· ≠ slash) with
      | nil => exact ⟨_, _, rfl⟩
      | cons c rest =>
        rw [hrest, List.length_cons] at hlen
        exact ih (by omega) next _

theorem parentVnode_ok (root : ν) (t : TarRun σ) (h : str.length < 128) :
    ∃ parent s, parentVnode fs root str t = (.ok parent, { t with fs := s }) := by
  by_cases hnil : str = []
  · exact ⟨some root, t.fs, by rw [parentVnode, if_pos hnil]; rfl⟩
  · rw [parentVnode, if_neg hnil, mkdirP, Eff.bind_ok (strcpy_ok h)]
    exact mkdirFrom_ok fs (Nat.lt_succ_self str.length) root t

theorem tarNames_ok (root : ν) (t : TarRun σ) (hname : name.length < 128)
    (hleaf : (leafOf name).length < 64) :
    ∃ parent s, tarNames fs root name t = (.ok (parent, leafOf name), { t with fs := s }) := by
  obtain ⟨parent, s, hparent⟩ :=
    parentVnode_ok fs root t (lt_of_le_of_lt (length_parentOf_le name) hname)
  refine ⟨parent, s, ?_⟩
  rw [tarNames, Eff.bind_ok (splitPath_ok hname hleaf)]
  change (parentVnode fs root (parentOf name) >>= _) t = _
  rw [Eff.bind_ok hparent]
  rfl

theorem tarNames_overrun (root : ν) (t : TarRun σ) (hname : name.length < 128)
    (hleaf : 64 ≤ (leafOf name).length) : tarNames fs root name t = (.error .overrun, t) := by
  rw [tarNames, Eff.bind_error (splitPath_overrun hname hleaf)]

end

theorem length_normalize_le (name : List UInt8) : (normalize name).length ≤ name.length := by
  have h1 := (List.rdropWhile_prefix (· = slash)
    ((if name.take 2 = [46, slash] then name.drop 2 else name).dropWhile (· = slash))).length_le
  have h2 := (List.dropWhile_suffix
    (l := if name.take 2 = [46, slash] then name.drop 2 else name) (· = slash)).length_le
  have h3 : (if name.take 2 = [46, slash] then name.drop 2 else name).length ≤ name.length := by
    split
    · exact (List.drop_sublist 2 name).length_le
    · exact le_rfl
  exact h1.trans (h2.trans h3)

/-- Normalizing takes off a first component `.` and nothing else that stands between slashes. -/
theorem pieces_normalize (name : List UInt8) :
    pieces slash name = pieces slash (normalize name) ∨
      pieces slash name = [46] :: pieces slash (normalize name) := by
  rw [normalize, pieces_rdropWhile, pieces_dropWhile]
  by_cases h : name.take 2 = [46, slash]
  · right
    rw [if_pos h]
    have hname : [46] ++ slash :: name.drop 2 = name := by
      have happ := List.take_append_drop 2 name
      rwa [h] at happ
    have hdot : pieces slash [46] = [[46]] := pieces_single (by decide) (by decide)
    have hpieces := pieces_append_cons slash [46] (name.drop 2)
    rwa [hname, hdot] at hpieces
  · left
    rw [if_neg h]

theorem leafOf_normalize (h : normalize name ≠ []) :
    leafOf (normalize name) = lastPiece slash name ∧ leafOf (normalize name) ≠ [] := by
  have hlast : ∀ hne, (normalize name).getLast hne ≠ slash := fun hne => getLast_rdropWhile_ne hne
  have hleaf : leafOf (normalize name) = lastPiece slash (normalize name) := by
    rw [lastPiece, List.rdropWhile_eq_self_iff.mpr fun hne => by simpa using hlast hne]
    rfl
  have hpieces : pieces slash (normalize name) ≠ [] := fun hnil =>
    hlast h (pieces_eq_nil_iff.mp hnil _ (List.getLast_mem h))
  refine ⟨?_, ?_⟩
  · rw [hleaf]
    rcases pieces_normalize name with heq | heq
    · exact (lastPiece_eq_of_pieces [] hpieces heq).symm
    · exact (lastPiece_eq_of_pieces [[46]] hpieces heq).symm
  · rw [leafOf, Ne, List.rtakeWhile_eq_nil_iff]
    intro hall
    exact hall h (by simpa using hlast h)

theorem length_lastPiece_of_normalize_nil (h : normalize name = []) :
    (lastPiece slash name).length ≤ 1 := by
  rcases pieces_normalize name with heq | heq
  · rw [h, pieces_nil] at heq
    rw [lastPiece_eq_nil heq]
    exact Nat.zero_le 1
  · have hlast : (pieces slash name).getLast? = some (lastPiece slash name) :=
      getLast?_pieces (by rw [heq]; exact List.cons_ne_nil _ _)
    rw [heq, h, pieces_nil] at hlast
    rw [← Option.some.inj hlast]
    rfl

/-- Of all that is made of a name field only the last component can be too long for its buffer.
It is never empty when something is unpacked under it. -/
theorem tar_names_fit_iff (fs : TarFs σ ν) (root : ν) (t : TarRun σ) (hfield : field.length = 100) :
    ((field.takeWhile (· ≠ 0)).length < 128 ∧
      (entryName field ≠ [] → ∃ parent leaf u,
        tarNames fs root (entryName field) t = (.ok (parent, leaf), u) ∧ leaf ≠ [])) ↔
    (lastPiece slash (field.takeWhile (· ≠ 0))).length ≤ 63 := by
  have hlen : (field.takeWhile (· ≠ 0)).length ≤ 100 :=
    hfield ▸ (List.takeWhile_prefix _).length_le
  have hname : (entryName field).length < 128 :=
    lt_of_le_of_lt ((length_normalize_le _).trans hlen) (by decide)
  by_cases hnil : entryName field = []
  · have hshort := length_lastPiece_of_normalize_nil hnil
    exact ⟨fun _ => by omega, fun _ => ⟨by omega, fun h => absurd hnil h⟩⟩
  obtain ⟨hleaf, hne⟩ := leafOf_normalize hnil
  rw [← hleaf]
  constructor
  · rintro ⟨-, h⟩
    obtain ⟨parent, leaf, u, hrun, -⟩ := h hnil
    by_contra hlong
    rw [tarNames_overrun fs root t hname (show 64 ≤ (leafOf (entryName field)).length by
      rw [entryName]; omega)] at hrun
    cases hrun
  · intro hshort
    refine ⟨by omega, fun _ => ?_⟩
    obtain ⟨parent, s, hrun⟩ := tarNames_ok fs root t hname
      (show (leafOf (entryName field)).length < 64 by rw [entryName]; omega)
    exact ⟨parent, _, _, hrun, hne⟩

/-- A file system that finds every name and reads all it is given to write. -/
def readyFs : TarFs Unit Unit where
  lookup _ _ s := (some (), s)
  create _ _ _ s := (some (), s)
  openVnode _ s := (true, s)
  write _ _ len s := (len, s)
  close _ s := s

def nothingRead : TarRun Unit := ⟨(), [], []⟩

/-- 63 letters behind a directory fit. -/
theorem tar_names_fit_63 :
    ∃ parent leaf u,
      tarNames readyFs () (entryName ([100, slash] ++ List.replicate 63 97 ++ List.replicate 35 0))
        nothingRead = (.ok (parent, leaf), u) ∧ leaf ≠ [] :=
  ((tar_names_fit_iff readyFs () nothingRead (by decide)).mpr (by decide)).2 (by decide)

/-- A name of 64 letters is copied over the end of `leaf`. -/
theorem tar_names_overrun_64 :
    (List.replicate 64 97 ++ List.replicate 36 0 : List UInt8).length = 100 ∧
      tarNames readyFs () (entryName (List.replicate 64 97 ++ List.replicate 36 0)) nothingRead
        = (.error .overrun, nothingRead) :=
  ⟨by decide, tarNames_overrun readyFs () nothingRead (by decide) (by decide)⟩

end Names

end CfKernel.Binfmt
