import CfKernel.Fat.Contents

/-!
# Files of the RAM file system

`ramfs_read_vn`, `ramfs_write_vn` and `ramfs_truncate_vn`. A file keeps its bytes in one block that
only grows: a shrink leaves stale bytes behind the end. The contents are the first `size` bytes of
the block, and the operations act on them as on a byte array.

The state carries the outcomes of the `realloc` calls to come, each a failure or the bytes that the
new block has behind the old ones, and a mark that is set when size arithmetic wraps.
-/

namespace CfKernel.Ramfs

open Lib Lib.Eff
open Fat (VnodeType zeroExtend overwrite bufferBytes)

/-- The part of `struct ramfs_node` that file operations use. A device hook answers with an error or
with the bytes it put into the buffer; the write hook with the number of bytes it took. -/
structure RamfsFile where
  type : VnodeType
  data : Bytes
  size : Nat
  capacity : Nat
  devRead : Option (Nat → Except Errno (List UInt8))
  devWrite : Option (List UInt8 → Except Errno Nat)

structure FileState where
  node : RamfsFile
  alloc : Nat → Option Bytes
  wrapped : Bool

abbrev RamfsM := Eff Errno FileState

def getNode : RamfsM RamfsFile := fun s => (.ok s.node, s)

def modifyNode (f : RamfsFile → RamfsFile) : RamfsM Unit :=
  Eff.modify fun s => { s with node := f s.node }

/-- A `usize` result, marked when it is not the exact one. -/
def sizeOp (exact : Int) : RamfsM Nat := fun s =>
  (.ok (exact % 2 ^ 32).toNat,
    { s with wrapped := s.wrapped || decide (exact < 0 ∨ 2 ^ 32 ≤ exact) })

/-- `realloc`: the bytes behind the old block, or `NULL`. -/
def realloc : RamfsM (Option Bytes) := fun s =>
  (.ok (s.alloc 0), { s with alloc := fun n => s.alloc (n + 1) })

/-- The loop of `ramfs_ensure_capacity`. -/
def growCapacity (newCapacity : Nat) : Nat → Nat → RamfsM Nat
  | 0, capacity => pure capacity
  | n + 1, capacity =>
    if capacity < newCapacity then
      if 0x7FFFFFFF < capacity then pure newCapacity
      else do
        let capacity ← sizeOp (capacity * 2)
        growCapacity newCapacity n capacity
    else pure capacity

/-- The end of `ramfs_ensure_capacity`, with what `realloc` returned. -/
def installBlock (capacity : Nat) : Option Bytes → RamfsM Unit
  | none => Eff.fail .outOfMemory
  | some fill =>
    modifyNode fun node =>
      { node with
        data := fun i => if i < node.capacity then node.data i else fill i
        capacity := capacity }

def ramfsEnsureCapacity (newCapacity : Nat) : RamfsM Unit := do
  let node ← getNode
  if newCapacity ≤ node.capacity then pure ()
  else do
    let capacity ← growCapacity newCapacity 32 (if node.capacity ≠ 0 then node.capacity else 64)
    installBlock capacity (← realloc)

/-- The bytes put into the caller's buffer; their number is `*out`. -/
def ramfsReadVn (off len : Nat) : RamfsM (List UInt8) := do
  let node ← getNode
  if node.type = .dev then
    match node.devRead with
    | none => Eff.fail .notSupported
    | some devRead =>
      match devRead len with
      | .error e => Eff.fail e
      | .ok bytes => if len < bytes.length then Eff.fail .ioError else pure bytes
  else if node.type = .dir then Eff.fail .isDirectory
  else if node.type ≠ .file ∧ node.type ≠ .exec then Eff.fail .notSupported
  else if node.size ≤ off ∨ len = 0 then pure []
  else do
    let available ← sizeOp (node.size - off)
    pure (bufferBytes (window node.data off) (if available < len then available else len))

/-- The `memset` of writes and truncations: zeroes from the old end to `n`. -/
def zeroFillTo (n : Nat) : RamfsM Unit := do
  let node ← getNode
  if node.size < n then do
    let gap ← sizeOp (n - node.size)
    modifyNode fun node => { node with data := splice node.data node.size gap fun _ => 0 }
  else pure ()

/-- The part of `ramfs_write_vn` after its tests, for a range that ends at `stop`. -/
def writeRange (buf : Bytes) (off len stop : Nat) : RamfsM Unit := do
  zeroFillTo off
  modifyNode fun node => { node with data := splice node.data off len buf }
  modifyNode fun node => if node.size < stop then { node with size := stop } else node

def ramfsWriteVn (buf : Bytes) (off len : Nat) : RamfsM Nat := do
  let node ← getNode
  if node.type = .dev then
    match node.devWrite with
    | none => Eff.fail .notSupported
    | some devWrite =>
      match devWrite (bufferBytes buf len) with
      | .error e => Eff.fail e
      | .ok written => if len < written then Eff.fail .ioError else pure written
  else if node.type = .dir then Eff.fail .isDirectory
  else if node.type ≠ .file ∧ node.type ≠ .exec then Eff.fail .notSupported
  else if len = 0 then pure 0
  else do
    let room ← sizeOp (0xFFFFFFFF - off)
    if room < len then Eff.fail .invalidArgument
    else do
      let stop ← sizeOp (off + len)
      ramfsEnsureCapacity stop
      writeRange buf off len stop
      pure len

def ramfsTruncateVn (newSize : Nat) : RamfsM Unit := do
  let node ← getNode
  if node.type = .dir then Eff.fail .isDirectory
  else if node.type ≠ .file ∧ node.type ≠ .exec then Eff.fail .notSupported
  else do
    ramfsEnsureCapacity newSize
    zeroFillTo newSize
    modifyNode fun node => { node with size := newSize }

def RamfsFile.contents (f : RamfsFile) : List UInt8 := bufferBytes f.data f.size

variable {s t : FileState} {n cap new off len : Nat} {buf : Bytes}

theorem sizeOp_run {x : Int} (h0 : 0 ≤ x) (h1 : x < 2 ^ 32) (s : FileState) :
    sizeOp x s = (.ok x.toNat, s) := by
  have hex : ¬ (x < 0 ∨ 2 ^ 32 ≤ x) := by omega
  simp only [sizeOp, Int.emod_eq_of_lt h0 h1, hex, decide_false, Bool.or_false]

theorem growCapacity_spec (hpos : 0 < cap) (hcap : cap < 2 ^ 32) (hnew : new < 2 ^ 32)
    (hn : 2 ^ 32 ≤ cap * 2 ^ n) (s : FileState) :
    ∃ c, growCapacity new n cap s = (.ok c, s) ∧ cap ≤ c ∧ new ≤ c ∧ c < 2 ^ 32 := by
  induction n generalizing cap with
  | zero => omega
  | succ n ih =>
    rw [growCapacity]
    by_cases hlt : cap < new
    · rw [if_pos hlt]
      by_cases hbig : 0x7FFFFFFF < cap
      · rw [if_pos hbig]
        exact ⟨new, rfl, hlt.le, le_rfl, hnew⟩
      · obtain ⟨c, hrun, hle, hle', hc⟩ := @ih (cap * 2) (by omega) (by omega)
          (by rwa [Nat.mul_assoc, ← pow_succ'])
        rw [if_neg hbig, bind_ok (sizeOp_run (by omega) (by omega) s)]
        exact ⟨c, hrun, by omega, hle', hc⟩
    · rw [if_neg hlt]
      exact ⟨cap, rfl, le_rfl, not_lt.mp hlt, hcap⟩

/-- A regular file whose contents lie in its block. -/
structure FileInv (s : FileState) : Prop where
  isFile : s.node.type = .file ∨ s.node.type = .exec
  size_le : s.node.size ≤ s.node.capacity
  capacity_lt : s.node.capacity < 2 ^ 32
  exact : s.wrapped = false

namespace FileInv

variable (h : FileInv s)

include h

/-- The block is large enough afterwards and keeps its old bytes, or `realloc` has failed and the
file is as it was. -/
theorem ensureCapacity (hnew : new < 2 ^ 32) :
    (∃ data capacity alloc, ramfsEnsureCapacity new s =
        (.ok (), { s with node := { s.node with data := data, capacity := capacity },
                          alloc := alloc }) ∧
      new ≤ capacity ∧ s.node.capacity ≤ capacity ∧ capacity < 2 ^ 32 ∧
      (∀ i < s.node.capacity, data i = s.node.data i) ∧ ∃ j, alloc = fun n => s.alloc (n + j)) ∨
    ∃ alloc, ramfsEnsureCapacity new s = (.error .outOfMemory, { s with alloc := alloc }) ∧
      s.alloc 0 = none := by
  have hget : getNode s = (.ok s.node, s) := rfl
  by_cases hle : new ≤ s.node.capacity
  · refine .inl ⟨s.node.data, s.node.capacity, s.alloc, ?_, hle, le_rfl, h.capacity_lt,
      fun _ _ => rfl, 0, rfl⟩
    rw [ramfsEnsureCapacity, bind_ok hget, if_pos hle]
    rfl
  have hstart : 0 < (if s.node.capacity ≠ 0 then s.node.capacity else 64) ∧
      (if s.node.capacity ≠ 0 then s.node.capacity else 64) < 2 ^ 32 ∧
      s.node.capacity ≤ (if s.node.capacity ≠ 0 then s.node.capacity else 64) := by
    have := h.capacity_lt
    split <;> omega
  obtain ⟨c, hgrow, hle₁, hle₂, hc⟩ := growCapacity_spec (n := 32) hstart.1 hstart.2.1 hnew
    (by omega) s
  have hre : realloc s = (.ok (s.alloc 0), { s with alloc := fun n => s.alloc (n + 1) }) := rfl
  rw [ramfsEnsureCapacity, bind_ok hget, if_neg hle, bind_ok hgrow, bind_ok hre]
  cases s.alloc 0 with
  | none => exact .inr ⟨_, rfl, rfl⟩
  | some fill =>
    exact .inl ⟨_, c, _, rfl, hle₂, hstart.2.2.trans hle₁, hc, fun i hi => if_pos hi, 1, rfl⟩

end FileInv

theorem splice_zero (d src : Bytes) (p : Nat) : splice d p 0 src = d :=
  funext fun _ => splice_outside (by omega)

theorem zeroFillTo_run (hn : n < 2 ^ 32) : zeroFillTo n s = (.ok (), { s with node := { s.node with
      data := splice s.node.data s.node.size (n - s.node.size) fun _ => 0 } }) := by
  have hget : getNode s = (.ok s.node, s) := rfl
  rw [zeroFillTo, bind_ok hget]
  by_cases hlt : s.node.size < n
  · rw [if_pos hlt, bind_ok (sizeOp_run (by omega) (by omega) s),
      show ((n : Int) - s.node.size).toNat = n - s.node.size by omega]
    rfl
  · rw [if_neg hlt, Nat.sub_eq_zero_of_le (not_lt.mp hlt), splice_zero]
    rfl

theorem RamfsFile.length_contents (f : RamfsFile) : f.contents.length = f.size := by
  simp [contents, bufferBytes]

theorem RamfsFile.slice_contents (f : RamfsFile) (off len : Nat) :
    bufferBytes (window f.data off) (if f.size - off < len then f.size - off else len) =
      (f.contents.drop off).take len := by
  have hcount : (if f.size - off < len then f.size - off else len) =
      Fat.FatSuper.readCount f.size off len := by
    rw [Fat.FatSuper.readCount]
    split <;> omega
  rw [hcount, contents, bufferBytes, bufferBytes, Fat.FatSuper.take_drop_map_range]
  rfl

namespace FileInv

variable (h : FileInv s)

include h

theorem not_dev : s.node.type ≠ .dev := by
  rcases h.isFile with ht | ht <;> rw [ht] <;> decide

theorem not_dir : s.node.type ≠ .dir := by
  rcases h.isFile with ht | ht <;> rw [ht] <;> decide

theorem supported : ¬ (s.node.type ≠ .file ∧ s.node.type ≠ .exec) := fun hn =>
  h.isFile.elim hn.1 hn.2

theorem read (off len : Nat) :
    ramfsReadVn off len s = (.ok ((s.node.contents.drop off).take len), s) := by
  have hget : getNode s = (.ok s.node, s) := rfl
  rw [ramfsReadVn, bind_ok hget, if_neg h.not_dev, if_neg h.not_dir, if_neg h.supported]
  by_cases hnone : s.node.size ≤ off ∨ len = 0
  · rw [if_pos hnone]
    have hnil : (s.node.contents.drop off).take len = [] := by
      rcases hnone with hoff | rfl
      · rw [List.drop_eq_nil_of_le (by rwa [RamfsFile.length_contents]), List.take_nil]
      · exact List.take_zero
    rw [hnil]
    rfl
  · obtain ⟨hoff, -⟩ := not_or.mp hnone
    have hlt := h.capacity_lt
    have hle := h.size_le
    rw [if_neg hnone, bind_ok (sizeOp_run (by omega) (by omega) s),
      show ((s.node.size : Int) - off).toNat = s.node.size - off by omega, RamfsFile.slice_contents]
    rfl

end FileInv

/-- A write of no bytes does nothing, whatever its offset. -/
def writeArray (c : List UInt8) (off : Nat) (bytes : List UInt8) : List UInt8 :=
  if bytes = [] then c else overwrite (zeroExtend c (max c.length (off + bytes.length))) off bytes

def truncateArray (c : List UInt8) (n : Nat) : List UInt8 := zeroExtend (c.take n) n

/-- The outcome of a call that acts on the byte array as `f` when it succeeds. -/
structure ActsAs {α : Type} (s : FileState) (f : List UInt8 → List UInt8) (a : α)
    (r : Except Errno α × FileState) : Prop where
  inv : FileInv r.2
  ok : r.1.isOk = true → r.1 = .ok a ∧ r.2.node.contents = f s.node.contents
  error : r.1.isOk = false → r.2.node = s.node

theorem writeRange_run {stop : Nat} (hoff : off < 2 ^ 32) :
    writeRange buf off len stop s = (.ok (), { s with node := { s.node with
      data := splice (splice s.node.data s.node.size (off - s.node.size) fun _ => 0) off len buf
      size := max s.node.size stop } }) := by
  rw [writeRange, bind_ok (zeroFillTo_run hoff)]
  by_cases hlt : s.node.size < stop
  · have hmax : max s.node.size stop = stop := by omega
    rw [hmax]
    simp only [modifyNode, bind_ok (modify_run _ _), modify_run, if_pos hlt]
  · have hmax : max s.node.size stop = s.node.size := by omega
    rw [hmax]
    simp only [modifyNode, bind_ok (modify_run _ _), modify_run, if_neg hlt]

theorem written_eq {old data : Bytes} {size capacity i : Nat} (hsize : size ≤ capacity)
    (hsame : ∀ i < capacity, data i = old i) (hi : i < max size (off + len)) :
    splice (splice data size (off - size) fun _ => 0) off len buf i =
      Fat.FatSuper.writtenByte old size buf off len i := by
  unfold Fat.FatSuper.writtenByte
  by_cases hin : off ≤ i ∧ i < off + len
  · rw [splice_inside hin.1 hin.2, if_pos hin]
  · rw [splice_outside (by omega), if_neg hin]
    by_cases hold : i < size
    · rw [splice_outside (.inl hold), if_pos hold, hsame i (by omega)]
    · rw [splice_inside (by omega) (by omega), if_neg hold]

namespace FileInv

variable (h : FileInv s)

include h

theorem withAlloc (alloc : Nat → Option Bytes) : FileInv { s with alloc := alloc } :=
  ⟨h.isFile, h.size_le, h.capacity_lt, h.exact⟩

theorem truncate (hn : n < 2 ^ 32) : ActsAs s (truncateArray · n) () (ramfsTruncateVn n s) := by
  have hget : getNode s = (.ok s.node, s) := rfl
  rw [ramfsTruncateVn, bind_ok hget, if_neg h.not_dir, if_neg h.supported]
  rcases h.ensureCapacity hn with
    ⟨data, capacity, alloc, hrun, hcap, hold, hlt, hsame, -⟩ | ⟨alloc, hrun, -⟩
  · rw [bind_ok hrun, bind_ok (zeroFillTo_run hn)]
    refine ⟨⟨h.isFile, hcap, hlt, h.exact⟩, fun _ => ⟨rfl, ?_⟩, fun hno => by cases hno⟩
    have hsize := h.size_le
    rw [truncateArray, RamfsFile.contents, RamfsFile.contents, bufferBytes, bufferBytes,
      Fat.FatSuper.zeroExtend_take_eq]
    apply List.map_congr_left
    intro i hi
    have hin := List.mem_range.mp hi
    change splice data s.node.size (n - s.node.size) (fun _ => 0) i = _
    by_cases hlt' : i < s.node.size
    · rw [splice_outside (.inl hlt'), if_pos hlt', hsame i (by omega)]
    · rw [splice_inside (by omega) (by have : i < n := hin; omega), if_neg hlt']
  · rw [bind_error hrun]
    exact ⟨h.withAlloc alloc, fun hno => (by cases hno), fun _ => rfl⟩

theorem write (hoff : off < 2 ^ 32) (hlen : len < 2 ^ 32) (buf : Bytes) :
    ActsAs s (writeArray · off (bufferBytes buf len)) len (ramfsWriteVn buf off len s) := by
  have hget : getNode s = (.ok s.node, s) := rfl
  have hcount : (bufferBytes buf len).length = len := by simp [bufferBytes]
  rw [ramfsWriteVn, bind_ok hget, if_neg h.not_dev, if_neg h.not_dir, if_neg h.supported]
  split_ifs with h0
  · have hnil : bufferBytes buf len = [] := List.eq_nil_of_length_eq_zero (hcount.trans h0)
    refine ⟨h, fun _ => ⟨by rw [h0]; rfl, ?_⟩, fun hno => by cases hno⟩
    rw [writeArray, if_pos hnil]
    rfl
  rw [bind_ok (sizeOp_run (by omega) (by omega) s)]
  by_cases hroom : ((0xFFFFFFFF : Int) - off).toNat < len
  · rw [if_pos hroom]
    exact ⟨h, fun hno => (by cases hno), fun _ => rfl⟩
  rw [if_neg hroom, bind_ok (sizeOp_run (by omega) (by omega) s),
    show ((off : Int) + len).toNat = off + len by omega]
  rcases h.ensureCapacity (show off + len < 2 ^ 32 by omega) with
    ⟨data, capacity, alloc, hrun, hcap, hold, hlt, hsame, -⟩ | ⟨alloc, hrun, -⟩
  · rw [bind_ok hrun, bind_ok (writeRange_run hoff)]
    have hsize := h.size_le
    refine ⟨⟨h.isFile, ?_, hlt, h.exact⟩, fun _ => ⟨rfl, ?_⟩, fun hno => by cases hno⟩
    · exact max_le (hsize.trans hold) hcap
    · rw [writeArray, if_neg (fun hnil => h0 (by rw [← hcount, hnil]; rfl)), hcount,
        RamfsFile.length_contents, RamfsFile.contents, RamfsFile.contents]
      refine Eq.trans ?_ (Fat.FatSuper.overwrite_eq s.node.data buf s.node.size off len).symm
      apply List.map_congr_left
      intro i hi
      exact written_eq hsize hsame (List.mem_range.mp hi)
  · rw [bind_error hrun]
    exact ⟨h.withAlloc alloc, fun hno => (by cases hno), fun _ => rfl⟩

theorem write_succeeds (hend : off + len < 2 ^ 32)
    (halloc : ∀ k, (s.alloc k).isSome) (buf : Bytes) :
    (ramfsWriteVn buf off len s).1 = .ok len ∧
      ∀ k, ((ramfsWriteVn buf off len s).2.alloc k).isSome := by
  have hget : getNode s = (.ok s.node, s) := rfl
  rw [ramfsWriteVn, bind_ok hget, if_neg h.not_dev, if_neg h.not_dir, if_neg h.supported]
  by_cases h0 : len = 0
  · rw [if_pos h0, h0]
    exact ⟨rfl, halloc⟩
  rw [if_neg h0, bind_ok (sizeOp_run (by omega) (by omega) s), if_neg (by omega),
    bind_ok (sizeOp_run (by omega) (by omega) s),
    show ((off : Int) + len).toNat = off + len by omega]
  rcases h.ensureCapacity hend with
    ⟨data, capacity, alloc, hrun, -, -, -, -, j, rfl⟩ | ⟨alloc, -, hnone⟩
  · rw [bind_ok hrun, bind_ok (writeRange_run (by omega))]
    exact ⟨rfl, fun k => halloc (k + j)⟩
  · have := halloc 0
    rw [hnone] at this
    cases this

end FileInv

inductive FileRequest where
  | write (buf : Bytes) (off len : UInt32)
  | truncate (newSize : UInt32)
  | read (off len : UInt32)

def fileStep : FileRequest → FileState → FileState
  | .write buf off len, s => (ramfsWriteVn buf off.toNat len.toNat s).2
  | .truncate newSize, s => (ramfsTruncateVn newSize.toNat s).2
  | .read off len, s => (ramfsReadVn off.toNat len.toNat s).2

/-- A file as `ramfs_node_create` leaves it. -/
def newFile (type : VnodeType) (alloc : Nat → Option Bytes) : FileState where
  node := ⟨type, fun _ => 0, 0, 0, none, none⟩
  alloc := alloc
  wrapped := false

theorem FileInv.step (h : FileInv s) (r : FileRequest) : FileInv (fileStep r s) := by
  cases r with
  | write buf off len => exact (h.write off.toNat_lt len.toNat_lt buf).inv
  | truncate newSize => exact (h.truncate newSize.toNat_lt).inv
  | read off len =>
    rw [fileStep, h.read]
    exact h

/-- In every run of writes, truncations and reads the file is its byte array. -/
theorem file_actsAs_array (type : VnodeType) (alloc : Nat → Option Bytes)
    (htype : type = .file ∨ type = .exec) (s : FileState)
    (hs : Reach fileStep (fun _ _ => True) (newFile type alloc) s) :
    s.node.size ≤ s.node.capacity ∧ s.wrapped = false ∧
    s.node.contents.length = s.node.size ∧
    (∀ off len : UInt32, ramfsReadVn off.toNat len.toNat s =
      (.ok ((s.node.contents.drop off.toNat).take len.toNat), s)) ∧
    (∀ (buf : Bytes) (off len : UInt32),
      ActsAs s (writeArray · off.toNat (bufferBytes buf len.toNat)) len.toNat
        (ramfsWriteVn buf off.toNat len.toNat s)) ∧
    ∀ newSize : UInt32,
      ActsAs s (truncateArray · newSize.toNat) () (ramfsTruncateVn newSize.toNat s) := by
  have h : FileInv s := hs.invariant FileInv ⟨htype, le_rfl, Nat.two_pow_pos 32, rfl⟩
    fun r _ hr _ => hr.step r
  exact ⟨h.size_le, h.exact, s.node.length_contents, fun off len => h.read _ _,
    fun buf off len => h.write off.toNat_lt len.toNat_lt buf, fun n => h.truncate n.toNat_lt⟩

/-- Growth after a shrink reads as zeroes: three bytes, cut to one and grown to four. -/
def shrunkAndGrown : FileState :=
  fileStep (.truncate 4) (fileStep (.truncate 1)
    (fileStep (.write (fun _ => 0x78) 0 3) (newFile .file fun _ => some fun _ => 0xAA)))

theorem shrunkAndGrown_read : (ramfsReadVn 0 9 shrunkAndGrown).1 = .ok [0x78, 0, 0, 0] := by
  have h := (file_actsAs_array .file (fun _ => some fun _ => 0xAA) (.inl rfl) shrunkAndGrown
    (.step _ (.step _ (.step _ .start trivial) trivial) trivial)).2.2.2.1 0 9
  have hc : shrunkAndGrown.node.contents = [0x78, 0, 0, 0] := by decide +kernel
  rw [hc] at h
  exact congrArg Prod.fst h

end CfKernel.Ramfs
