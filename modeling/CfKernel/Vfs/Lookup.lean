import CfKernel.Ramfs.Walk
import CfKernel.Syscall.Processes

/-!
# Walking a path on any file system

`lookup.c` over a file system whose lookups depend on the directory and the name alone. The
components are copied byte by byte into the 256 bytes of `name`, and a store behind them is an
overrun. Both walks are exact: they follow the pieces of the path between its slashes. From this
`vfs_resolve_parent_path` and `vfs_lookup` agree on what the last component is and where it stands.
-/

namespace CfKernel.Vfs.Generic

open Lib Lib.Eff Fat Syscall Function

/-- What the walks use of a mounted root. A directory may lack the operation, and the operation may
succeed without a vnode. -/
structure FileSystem (V : Type) where
  root : Option V
  isDir : V → Bool
  lookup : V → Option (List UInt8 → Except Errno (Option V))

/-- How a walk ends without a vnode. `running` is for a loop whose turns are used up. -/
inductive Stop where
  | code (e : Errno)
  | overrun
  | running

/-- The state is the array `name`. -/
abbrev ScanM := Eff Stop Bytes

def fail {α : Type} (e : Errno) : ScanM α := Eff.fail (.code e)

def storeName (i : Nat) (c : UInt8) : ScanM Unit :=
  if i < 256 then Eff.modify fun b => update b i c else Eff.fail .overrun

/-- `name` as the string that `lookup`, `strcmp` and `strlen` read. -/
def readName : ScanM (List UInt8) := Eff.read fun b =>
  if (cString b 256).length < 256 then .ok (cString b 256) else .error .overrun

/-- The loop that copies a component: its length and where it stops. -/
def copyComponent : List UInt8 → Nat → ScanM (Nat × List UInt8)
  | [], len => pure (len, [])
  | c :: cs, len =>
    if c = 0x2F then pure (len, c :: cs)
    else if len = 255 then fail .nameTooLong
    else do
      storeName len c
      copyComponent cs (len + 1)

structure Component where
  hasComponent : Bool
  hasMore : Bool
  cursor : List UInt8

def vfsNextComponent (cursor : List UInt8) : ScanM Component :=
  let p := cursor.dropWhile (· = 0x2F)
  if p = [] then pure ⟨false, false, p⟩
  else do
    let stop ← copyComponent p 0
    storeName stop.1 0
    let p := stop.2.dropWhile (· = 0x2F)
    pure ⟨true, p ≠ [], p⟩

variable {V : Type} (fs : FileSystem V) {malloc : Nat → Bool}

def vfsLookupComponent (dir : V) (name : List UInt8) : Except Errno (Option V) :=
  if fs.isDir dir = false then .error .notDirectory
  else match fs.lookup dir with
    | none => .error .notSupported
    | some op => op name

/-- The end of a turn: the vnode of the component becomes the current one. -/
def enter (current : V) : ScanM V := do
  let name ← readName
  match vfsLookupComponent fs current name with
  | .error e => fail e
  | .ok none => fail .internal
  | .ok (some next) => pure next

def vfsLookupLoop : Nat → List UInt8 → V → ScanM V
  | 0, _, _ => Eff.fail .running
  | n + 1, cursor, current => do
    let c ← vfsNextComponent cursor
    if c.hasComponent = false then pure current
    else do
      let next ← enter fs current
      vfsLookupLoop n c.cursor next

/-- `vfs_lookup` with `n` turns of its loop. -/
def vfsLookup (n : Nat) (path : List UInt8) : ScanM V :=
  if path = [] then fail .invalidArgument
  else match fs.root with
    | none => fail .notFound
    | some root => do
      let current ← vfsLookupLoop fs n path root
      if endsInSlash path = true ∧ fs.isDir current = false then fail .notDirectory
      else pure current

/-- The last component, copied to the heap; `malloc` says whether it has that many bytes. -/
def takeLeaf (malloc : Nat → Bool) (current : V) : ScanM (V × List UInt8) := do
  let name ← readName
  if isDotName name then fail .invalidArgument
  else if malloc (name.length + 1) then pure (current, name)
  else fail .outOfMemory

def vfsResolveLoop (malloc : Nat → Bool) : Nat → List UInt8 → V → ScanM (V × List UInt8)
  | 0, _, _ => Eff.fail .running
  | n + 1, cursor, current => do
    let c ← vfsNextComponent cursor
    if c.hasComponent = false then fail .invalidArgument
    else if c.hasMore = false then takeLeaf malloc current
    else do
      let next ← enter fs current
      vfsResolveLoop malloc n c.cursor next

/-- `vfs_resolve_parent_path` with `n` turns of its loop. -/
def vfsResolveParentPath (malloc : Nat → Bool) (n : Nat) (path : List UInt8) :
    ScanM (V × List UInt8) :=
  if path = [] then fail .invalidArgument
  else match fs.root with
    | none => fail .notFound
    | some root => vfsResolveLoop fs malloc n path root

/-! ## What the walks do -/

namespace FileSystem

def child (dir : V) (name : List UInt8) : Except Errno V :=
  match vfsLookupComponent fs dir name with
  | .error e => .error e
  | .ok none => .error .internal
  | .ok (some next) => .ok next

def follow : List (List UInt8) → V → Except Errno V
  | [], v => .ok v
  | name :: rest, v =>
    if 255 < name.length then .error .nameTooLong else fs.child v name >>= follow rest

def followParent (malloc : Nat → Bool) : List (List UInt8) → V → Except Errno (V × List UInt8)
  | [], _ => .error .invalidArgument
  | name :: rest, v =>
    if 255 < name.length then .error .nameTooLong
    else if rest = [] then
      if isDotName name then .error .invalidArgument
      else if malloc (name.length + 1) then .ok (v, name)
      else .error .outOfMemory
    else fs.child v name >>= followParent malloc rest

theorem child_ok {dir v : V} {name : List UInt8} : fs.child dir name = .ok v ↔
    fs.isDir dir = true ∧ ∃ op, fs.lookup dir = some op ∧ op name = .ok (some v) := by
  unfold child vfsLookupComponent
  cases hdir : fs.isDir dir with
  | false => simp
  | true =>
    cases hop : fs.lookup dir with
    | none => simp
    | some op =>
      simp only [Bool.true_eq_false, if_false, true_and, Option.some.injEq, exists_eq_left']
      cases hname : op name with
      | error e => simp
      | ok r => cases r <;> simp

theorem follow_append (xs ys : List (List UInt8)) (v : V) :
    fs.follow (xs ++ ys) v = fs.follow xs v >>= fs.follow ys := by
  induction xs generalizing v with
  | nil => rfl
  | cons x xs ih =>
    rw [List.cons_append, follow, follow]
    split_ifs
    · rfl
    · cases fs.child v x with
      | error e => rfl
      | ok w => exact ih w

theorem followParent_append (malloc : Nat → Bool) (xs : List (List UInt8)) {ys : List (List UInt8)}
    (hys : ys ≠ []) (v : V) : fs.followParent malloc (xs ++ ys) v =
      fs.follow xs v >>= fs.followParent malloc ys := by
  induction xs generalizing v with
  | nil => rfl
  | cons x xs ih =>
    rw [List.cons_append, followParent, follow, if_neg (List.append_ne_nil_of_right_ne_nil _ hys)]
    split_ifs
    · rfl
    · cases fs.child v x with
      | error e => rfl
      | ok w => exact ih w

theorem followParent_ok {names : List (List UInt8)} {v parent : V}
    {leaf : List UInt8} (h : fs.followParent malloc names v = .ok (parent, leaf)) :
    ∃ xs, names = xs ++ [leaf] ∧ fs.follow xs v = .ok parent ∧ leaf.length ≤ 255 ∧
      isDotName leaf = false := by
  rcases List.eq_nil_or_concat names with rfl | ⟨xs, name, rfl⟩
  · cases h
  rw [List.concat_eq_append, followParent_append _ _ _ (List.cons_ne_nil _ _)] at h
  cases hxs : fs.follow xs v with
  | error e =>
    rw [hxs] at h
    cases h
  | ok w =>
    rw [hxs] at h
    change fs.followParent malloc [name] w = _ at h
    rw [followParent, if_pos rfl] at h
    split_ifs at h with hlong hdot hmem
    cases h
    exact ⟨xs, List.concat_eq_append, hxs, by omega, by simpa using hdot⟩

variable {x : List UInt8} {xs ys : List (List UInt8)}

theorem follow_long (hx : 255 < x.length) (v : V) :
    fs.follow (xs ++ x :: ys) v = fs.follow xs v >>= fun _ => .error .nameTooLong := by
  rw [follow_append]
  exact congrArg _ (funext fun _ => if_pos hx)

theorem followParent_long (hx : 255 < x.length) (v : V) :
    fs.followParent malloc (xs ++ x :: ys) v = fs.follow xs v >>= fun _ => .error .nameTooLong := by
  rw [followParent_append _ _ _ (List.cons_ne_nil _ _)]
  exact congrArg _ (funext fun _ => if_pos hx)

end FileSystem

variable {fs} {b : Bytes} {cursor name path : List UInt8} {n : Nat} {v : V}

def Starts (b : Bytes) (name : List UInt8) : Prop := ∀ i < name.length, b i = stringBytes name i

theorem Starts.snoc (h : Starts b name) (c : UInt8) :
    Starts (update b name.length c) (name ++ [c]) := by
  intro i hi
  rw [List.length_append, List.length_singleton] at hi
  by_cases hlast : i = name.length
  · rw [hlast, update_self, stringBytes_append_right le_rfl, Nat.sub_self]
    rfl
  · rw [update_of_ne hlast, h i (by omega), stringBytes_append_left (by omega)]

theorem Starts.close (h : Starts b name) : Holds (update b name.length 0) name := by
  intro i hi
  by_cases hlast : i = name.length
  · rw [hlast, update_self, stringBytes_length]
  · rw [update_of_ne hlast, h i (by omega)]

theorem readName_run (hb : Holds b name) (h0 : 0 ∉ name) (hlen : name.length ≤ 255) :
    readName b = (.ok name, b) := by
  rw [readName, Eff.read, cString_eq hb h0 (by omega), if_pos (by omega)]

theorem storeName_run {i : Nat} (hi : i < 256) (c : UInt8) :
    storeName i c b = (.ok (), update b i c) := by
  rw [storeName, if_pos hi]
  rfl

/-- The loop stops at 255 bytes, so that the zero behind them still has a place. -/
theorem copyComponent_run (cs name : List UInt8) (hb : Starts b name) (hname : name.length ≤ 255) :
    ∃ b', (255 < name.length + (cs.takeWhile (· ≠ 0x2F)).length ∧
        copyComponent cs name.length b = (.error (.code .nameTooLong), b')) ∨
      (name.length + (cs.takeWhile (· ≠ 0x2F)).length ≤ 255 ∧
        copyComponent cs name.length b =
          (.ok (name.length + (cs.takeWhile (· ≠ 0x2F)).length, cs.dropWhile (· ≠ 0x2F)), b') ∧
        Starts b' (name ++ cs.takeWhile (· ≠ 0x2F))) := by
  induction cs generalizing b name with
  | nil => exact ⟨b, .inr ⟨hname, rfl, by simpa using hb⟩⟩
  | cons c cs ih =>
    rw [copyComponent]
    by_cases hc : c = 0x2F
    · rw [if_pos hc, List.takeWhile_cons_of_neg (by simpa using hc),
        List.dropWhile_cons_of_neg (by simpa using hc), List.append_nil]
      exact ⟨b, .inr ⟨hname, rfl, hb⟩⟩
    rw [if_neg hc, List.takeWhile_cons_of_pos (by simpa using hc),
      List.dropWhile_cons_of_pos (by simpa using hc), List.length_cons]
    split_ifs with hfull
    · exact ⟨b, .inl ⟨by omega, rfl⟩⟩
    rw [bind_ok (storeName_run (by omega) c)]
    have hnext := ih _ (hb.snoc c) (by rw [List.length_append, List.length_singleton]; omega)
    rw [List.length_append, List.length_singleton, List.append_assoc, List.singleton_append,
      Nat.add_assoc, Nat.add_comm 1] at hnext
    exact hnext

theorem vfsNextComponent_none (h : cursor.dropWhile (· = 0x2F) = []) :
    vfsNextComponent cursor b = (.ok ⟨false, false, []⟩, b) := by
  rw [vfsNextComponent, h]
  rfl

theorem vfsNextComponent_long (h : cursor.dropWhile (· = 0x2F) ≠ [])
    (hlong : 255 < (nextPiece 0x2F cursor).length) :
    ∃ b', vfsNextComponent cursor b = (.error (.code .nameTooLong), b') := by
  obtain ⟨b', ⟨-, hrun⟩ | ⟨hle, -⟩⟩ :=
    copyComponent_run (b := b) (cursor.dropWhile (· = 0x2F)) [] nofun (Nat.zero_le _)
  · refine ⟨b', ?_⟩
    rw [vfsNextComponent]
    rw [if_neg h]
    exact bind_error hrun
  · rw [List.length_nil, Nat.zero_add] at hle
    exact absurd hle (Nat.not_le.mpr hlong)

theorem vfsNextComponent_some (h : cursor.dropWhile (· = 0x2F) ≠ [])
    (hlong : ¬ 255 < (nextPiece 0x2F cursor).length) :
    ∃ b', vfsNextComponent cursor b =
        (.ok ⟨true, (afterPiece 0x2F cursor).dropWhile (· = 0x2F) ≠ [],
          (afterPiece 0x2F cursor).dropWhile (· = 0x2F)⟩, b') ∧
      Holds b' (nextPiece 0x2F cursor) := by
  obtain ⟨b', ⟨hgt, -⟩ | ⟨hle, hrun, hb⟩⟩ :=
    copyComponent_run (b := b) (cursor.dropWhile (· = 0x2F)) [] nofun (Nat.zero_le _)
  · rw [List.length_nil, Nat.zero_add] at hgt
    exact absurd hgt hlong
  · rw [List.length_nil, Nat.zero_add] at hle hrun
    refine ⟨_, ?_, Starts.close hb⟩
    rw [vfsNextComponent]
    rw [if_neg h, bind_ok hrun, bind_ok (storeName_run (by dsimp only; omega) 0), afterPiece_eq]
    rfl

theorem enter_run (hb : Holds b name) (h0 : 0 ∉ name) (hlen : ¬ 255 < name.length) :
    enter fs v b = ((fs.child v name).mapError .code, b) := by
  rw [enter, bind_ok (readName_run hb h0 (by omega)), FileSystem.child]
  rcases vfsLookupComponent fs v name with e | _ | next <;> rfl

theorem takeLeaf_run (hb : Holds b name) (h0 : 0 ∉ name) (hlen : ¬ 255 < name.length) :
    takeLeaf malloc v b = ((if isDotName name then .error .invalidArgument
      else if malloc (name.length + 1) then .ok (v, name)
      else .error .outOfMemory : Except Errno (V × List UInt8)).mapError .code, b) := by
  rw [takeLeaf, bind_ok (readName_run hb h0 (by omega))]
  split_ifs <;> rfl

/-- A turn with a component that fits. The buffer holds it. -/
structure Turn (cursor rest name : List UInt8) : Prop where
  fits : ¬ 255 < name.length
  zero_name : 0 ∉ name
  zero_rest : 0 ∉ rest
  shorter : rest.length < cursor.length
  pieces : pieces 0x2F cursor = name :: pieces 0x2F rest
  last : rest = [] ↔ Lib.pieces 0x2F rest = []

theorem turn_cases (h0 : 0 ∉ cursor) (b : Bytes) :
    (pieces 0x2F cursor = [] ∧ vfsNextComponent cursor b = (.ok ⟨false, false, []⟩, b)) ∨
    (∃ name rest b', pieces 0x2F cursor = name :: rest ∧ 255 < name.length ∧
      vfsNextComponent cursor b = (.error (.code .nameTooLong), b')) ∨
    ∃ name rest b', Turn cursor rest name ∧
      vfsNextComponent cursor b = (.ok ⟨true, rest ≠ [], rest⟩, b') ∧ Holds b' name := by
  by_cases hnone : cursor.dropWhile (· = 0x2F) = []
  · exact .inl ⟨pieces_eq_nil hnone, vfsNextComponent_none hnone⟩
  have hstep := pieces_step hnone
  by_cases hlong : 255 < (nextPiece 0x2F cursor).length
  · obtain ⟨b', hrun⟩ := vfsNextComponent_long (b := b) hnone hlong
    exact .inr (.inl ⟨_, _, b', hstep, hlong, hrun⟩)
  obtain ⟨b', hrun, hb⟩ := vfsNextComponent_some (b := b) hnone hlong
  refine .inr (.inr ⟨_, _, b', ⟨hlong, fun h => h0 (mem_of_mem_piece (.inl h)),
    fun h => h0 (mem_of_mem_piece (.inr ((List.dropWhile_suffix _).mem h))),
    Ramfs.length_rest_lt hnone, by rw [pieces_dropWhile, hstep], ?_⟩, hrun, hb⟩)
  refine ⟨fun hnil => by rw [hnil, pieces_nil], fun hnil => ?_⟩
  by_contra hmore
  rw [pieces_dropWhile, pieces_step hmore] at hnil
  cases hnil

theorem vfsLookupLoop_exact (fs : FileSystem V) (h0 : 0 ∉ cursor) (hn : cursor.length < n) (v : V)
    (b : Bytes) : ∃ b', vfsLookupLoop fs n cursor v b =
      ((fs.follow (pieces 0x2F cursor) v).mapError .code, b') := by
  induction n generalizing cursor v b with
  | zero => omega
  | succ n ih =>
    rw [vfsLookupLoop]
    rcases turn_cases h0 b with ⟨hnil, hrun⟩ | ⟨name, rest, b', hcons, hlong, hrun⟩ |
      ⟨name, rest, b', hturn, hrun, hb⟩
    · rw [bind_ok hrun, hnil]
      exact ⟨b, rfl⟩
    · rw [bind_error hrun, hcons, FileSystem.follow, if_pos hlong]
      exact ⟨b', rfl⟩
    · rw [bind_ok hrun, if_neg Bool.noConfusion, hturn.pieces, FileSystem.follow,
        if_neg hturn.fits, bind_run, enter_run hb hturn.zero_name hturn.fits]
      cases fs.child v name with
      | error e => exact ⟨b', rfl⟩
      | ok next => exact ih hturn.zero_rest (by have := hturn.shorter; omega) next b'

theorem vfsResolveLoop_exact (fs : FileSystem V) (malloc : Nat → Bool) (h0 : 0 ∉ cursor)
    (hn : cursor.length < n) (v : V) (b : Bytes) : ∃ b', vfsResolveLoop fs malloc n cursor v b =
      ((fs.followParent malloc (pieces 0x2F cursor) v).mapError .code, b') := by
  induction n generalizing cursor v b with
  | zero => omega
  | succ n ih =>
    rw [vfsResolveLoop]
    rcases turn_cases h0 b with ⟨hnil, hrun⟩ | ⟨name, rest, b', hcons, hlong, hrun⟩ |
      ⟨name, rest, b', hturn, hrun, hb⟩
    · rw [bind_ok hrun, hnil]
      exact ⟨b, rfl⟩
    · rw [bind_error hrun, hcons, FileSystem.followParent, if_pos hlong]
      exact ⟨b', rfl⟩
    rw [bind_ok hrun, if_neg Bool.noConfusion, hturn.pieces, FileSystem.followParent,
      if_neg hturn.fits]
    by_cases hlast : rest = []
    · rw [if_pos (by simpa using hlast), if_pos (hturn.last.mp hlast),
        takeLeaf_run hb hturn.zero_name hturn.fits]
      exact ⟨b', rfl⟩
    · rw [if_neg (by simpa using hlast), if_neg fun h => hlast (hturn.last.mpr h), bind_run,
        enter_run hb hturn.zero_name hturn.fits]
      cases fs.child v name with
      | error e => exact ⟨b', rfl⟩
      | ok next => exact ih hturn.zero_rest (by have := hturn.shorter; omega) next b'

/-! ## The two walks together -/

/-- The test of `vfs_lookup` on the vnode that its loop ends with. -/
def FileSystem.slashOnDirectory (fs : FileSystem V) (path : List UInt8) (current : V) :
    Except Errno V :=
  if endsInSlash path = true ∧ fs.isDir current = false then .error .notDirectory else .ok current

theorem FileSystem.slashOnDirectory_ok (fs : FileSystem V) {current : V} :
    fs.slashOnDirectory path current = .ok v ↔
      (.ok current : Except Errno V) = .ok v ∧ (endsInSlash path = true → fs.isDir v = true) := by
  rw [slashOnDirectory]
  split_ifs with h
  · refine iff_of_false nofun ?_
    rintro ⟨hv, hdir⟩
    cases hv
    exact Bool.false_ne_true (h.2.symm.trans (hdir h.1))
  · refine ⟨fun hv => ⟨hv, fun hslash => ?_⟩, fun hv => hv.1⟩
    cases hv
    simpa using fun hdir => h ⟨hslash, hdir⟩

theorem vfsLookup_exact {root : V} (hroot : fs.root = some root) (hne : path ≠ []) (h0 : 0 ∉ path)
    (hn : path.length < n) (b : Bytes) : (vfsLookup fs n path b).1 =
      (fs.follow (pieces 0x2F path) root >>= fs.slashOnDirectory path).mapError .code := by
  obtain ⟨b', hrun⟩ := vfsLookupLoop_exact fs h0 hn root b
  rw [vfsLookup, if_neg hne, hroot]
  dsimp only
  rw [bind_run, hrun]
  cases fs.follow (pieces 0x2F path) root with
  | error e => rfl
  | ok v =>
    change ((if _ then _ else _ : ScanM V) b').1 = (fs.slashOnDirectory path v).mapError .code
    rw [FileSystem.slashOnDirectory]
    split_ifs <;> rfl

theorem vfsResolveParentPath_exact (malloc : Nat → Bool) {root : V} (hroot : fs.root = some root)
    (hne : path ≠ []) (h0 : 0 ∉ path) (hn : path.length < n) (b : Bytes) :
    (vfsResolveParentPath fs malloc n path b).1 =
      (fs.followParent malloc (pieces 0x2F path) root).mapError .code := by
  obtain ⟨b', hrun⟩ := vfsResolveLoop_exact fs malloc h0 hn root b
  rw [vfsResolveParentPath, if_neg hne, hroot]
  exact congrArg Prod.fst hrun

/-- The call returned, and it stayed inside `name`. -/
def Answered {α : Type} (r : Except Stop α) : Prop := r ≠ .error .overrun ∧ r ≠ .error .running

theorem answered_mapError {α : Type} (r : Except Errno α) : Answered (r.mapError Stop.code) := by
  cases r <;> exact ⟨nofun, nofun⟩

theorem mapError_ok {α : Type} {r : Except Errno α} {a : α} :
    r.mapError Stop.code = .ok a ↔ r = .ok a := by
  cases r <;> simp [Except.mapError]

/-- `vfs_resolve_parent_path` splits a path where `vfs_lookup` does: the parent is the vnode of what
stands before the last component, and the path itself is that component looked up there. -/
theorem resolveParent_splits_lookup (fs : FileSystem V) (malloc : Nat → Bool) (path : List UInt8)
    (h0 : 0 ∉ path) (n : Nat) (hn : path.length < n) (b : Bytes) :
    Answered (vfsLookup fs n path b).1 ∧
    Answered (vfsResolveParentPath fs malloc n path b).1 ∧
    (∀ xs x ys, pieces 0x2F path = xs ++ x :: ys → 255 < x.length →
      (∃ e, (vfsLookup fs n path b).1 = .error (.code e)) ∧
      (∃ e, (vfsResolveParentPath fs malloc n path b).1 = .error (.code e)) ∧
      ∀ root v, fs.root = some root → fs.follow xs root = .ok v →
        (vfsLookup fs n path b).1 = .error (.code .nameTooLong) ∧
        (vfsResolveParentPath fs malloc n path b).1 = .error (.code .nameTooLong)) ∧
    ∀ parent leaf, (vfsResolveParentPath fs malloc n path b).1 = .ok (parent, leaf) →
      (pieces 0x2F path).getLast? = some leaf ∧
      leaf ≠ [] ∧ leaf.length ≤ 255 ∧ 0x2F ∉ leaf ∧ leaf ≠ [0x2E] ∧ leaf ≠ [0x2E, 0x2E] ∧
      (if (pieces 0x2F path).length = 1 then fs.root = some parent
        else (vfsLookup fs n (beforeLast 0x2F path) b).1 = .ok parent) ∧
      ∀ v, (vfsLookup fs n path b).1 = .ok v ↔
        fs.isDir parent = true ∧
        (∃ op, fs.lookup parent = some op ∧ op leaf = .ok (some v)) ∧
        (endsInSlash path = true → fs.isDir v = true) := by
  by_cases hne : path = []
  · have hlookup : vfsLookup fs n path b = (.error (.code .invalidArgument), b) := by
      rw [vfsLookup, if_pos hne]
      rfl
    have hresolve : vfsResolveParentPath fs malloc n path b =
        (.error (.code .invalidArgument), b) := by
      rw [vfsResolveParentPath, if_pos hne]
      rfl
    rw [hlookup, hresolve]
    refine ⟨⟨nofun, nofun⟩, ⟨nofun, nofun⟩, fun xs x ys hp => ?_, nofun⟩
    rw [hne, pieces_nil] at hp
    exact absurd hp.symm (List.append_ne_nil_of_right_ne_nil _ (List.cons_ne_nil _ _))
  cases hroot : fs.root with
  | none =>
    have hlookup : vfsLookup fs n path b = (.error (.code .notFound), b) := by
      rw [vfsLookup, if_neg hne, hroot]
      rfl
    have hresolve : vfsResolveParentPath fs malloc n path b = (.error (.code .notFound), b) := by
      rw [vfsResolveParentPath, if_neg hne, hroot]
      rfl
    rw [hlookup, hresolve]
    exact ⟨⟨nofun, nofun⟩, ⟨nofun, nofun⟩,
      fun _ _ _ _ _ => ⟨⟨_, rfl⟩, ⟨_, rfl⟩, nofun⟩, nofun⟩
  | some root =>
    have hlookup := vfsLookup_exact hroot hne h0 hn b
    have hresolve := vfsResolveParentPath_exact malloc hroot hne h0 hn b
    refine ⟨hlookup ▸ answered_mapError _, hresolve ▸ answered_mapError _, ?_, ?_⟩
    · intro xs x ys hp hx
      rw [hlookup, hresolve, hp, fs.follow_long hx, fs.followParent_long hx]
      cases hxs : fs.follow xs root with
      | error e =>
        refine ⟨⟨e, rfl⟩, ⟨e, rfl⟩, fun root' v hr hv => ?_⟩
        cases hr
        rw [hxs] at hv
        cases hv
      | ok v => exact ⟨⟨_, rfl⟩, ⟨_, rfl⟩, fun _ _ _ _ => ⟨rfl, rfl⟩⟩
    · intro parent leaf hok
      rw [hresolve, mapError_ok] at hok
      obtain ⟨xs, hp, hparent, hlen, hdot⟩ := fs.followParent_ok hok
      have hleaf : leaf ∈ pieces 0x2F path := by simp [hp]
      have hlast : pieces 0x2F path = pieces 0x2F (beforeLast 0x2F path) ++ [lastPiece 0x2F path] :=
        pieces_eq_append_lastPiece (List.ne_nil_of_mem hleaf)
      obtain ⟨hxs, -⟩ := List.append_inj' (hp.symm.trans hlast) rfl
      refine ⟨by simp [hp], (mem_pieces hleaf).1, hlen, (mem_pieces hleaf).2.1, ?_, ?_, ?_, ?_⟩
      · rintro rfl
        cases hdot
      · rintro rfl
        cases hdot
      · rw [hp, List.length_append, List.length_singleton]
        split_ifs with hone
        · obtain rfl : xs = [] := List.eq_nil_of_length_eq_zero (by omega)
          exact congrArg some (Except.ok.inj hparent)
        · have hbefore : beforeLast 0x2F path ≠ [] := by
            rw [Ne, beforeLast_eq_nil_iff, ← hxs]
            rintro rfl
            exact hone rfl
          have hpre := beforeLast_isPrefix 0x2F path
          rw [vfsLookup_exact hroot hbefore (fun h => h0 (hpre.mem h))
            (hpre.length_le.trans_lt hn), ← hxs, hparent]
          have hslash : endsInSlash (beforeLast 0x2F path) = false := by
            simpa [endsInSlash] using getLast?_beforeLast_ne 0x2F path
          change (fs.slashOnDirectory (beforeLast 0x2F path) parent).mapError _ = _
          rw [FileSystem.slashOnDirectory, if_neg (by simp [hslash])]
          rfl
      · intro v
        rw [hlookup, mapError_ok, hp, fs.follow_append, hparent, ← and_assoc, ← fs.child_ok]
        change fs.follow [leaf] parent >>= fs.slashOnDirectory path = _ ↔ _
        rw [FileSystem.follow, if_neg (by omega)]
        cases fs.child parent leaf with
        | error e => exact iff_of_false nofun fun h => nomatch h.1
        | ok w => exact fs.slashOnDirectory_ok

/-- A root with one directory, `a`, that holds one file, `b`. -/
def nested : FileSystem (Fin 3) where
  root := some 0
  isDir v := v ≠ 2
  lookup _ := some fun name =>
    if name = [0x61] then .ok (some 1) else if name = [0x62] then .ok (some 2) else .error .notFound

/-- `/a//b/` names a file with a slash behind it: the parent is found, the path itself is not. -/
theorem resolveParent_splits_lookup_nested :
    (vfsResolveParentPath nested (fun _ => true) 7 [0x2F, 0x61, 0x2F, 0x2F, 0x62, 0x2F]
      fun _ => 0).1 = .ok (1, [0x62]) ∧
    ¬ (vfsLookup nested 7 [0x2F, 0x61, 0x2F, 0x2F, 0x62, 0x2F] fun _ => 0).1 = .ok 2 := by
  have h := resolveParent_splits_lookup nested (fun _ => true)
    [0x2F, 0x61, 0x2F, 0x2F, 0x62, 0x2F] (by decide) 7 (by decide) fun _ => 0
  have hok : (vfsResolveParentPath nested (fun _ => true) 7 [0x2F, 0x61, 0x2F, 0x2F, 0x62, 0x2F]
      fun _ => 0).1 = .ok (1, [0x62]) := by
    rw [vfsResolveParentPath_exact _ rfl (by decide) (by decide) (by decide)]
    rfl
  refine ⟨hok, fun hv => ?_⟩
  exact absurd (((h.2.2.2 _ _ hok).2.2.2.2.2.2.2 2).mp hv).2.2 (by decide)

end CfKernel.Vfs.Generic
