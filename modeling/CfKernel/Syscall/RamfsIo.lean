import CfKernel.Syscall.FileIo
import CfKernel.Ramfs.File

/-!
# Reading and writing files of the RAM file system

The chunk loops over `ramfs_read_vn` and `ramfs_write_vn`. On a regular file they have the effect
of one transfer: writing in pieces is writing the whole, since each piece begins where the one
before it ended, and a read in pieces goes on until the count or the end of the file is reached.
-/

namespace CfKernel.Syscall

open Lib Lib.Eff Mm Ramfs
open Fat (bufferBytes zeroExtend overwrite)

def ramfsVnodeOps : VnodeOps FileState where
  read := some fun buf off len s =>
    match ramfsReadVn off len s with
    | (.ok bytes, t) => ((.success, fun i => bytes.getD i (buf i), bytes.length), t)
    | (.error e, t) => ((e.status, buf, 0), t)
  write := some fun buf off len s =>
    match ramfsWriteVn buf off len s with
    | (.ok n, t) => ((.success, n), t)
    | (.error e, t) => ((e.status, 0), t)

/-! ## Writes in pieces -/

theorem map_range_getD (c : List UInt8) : (List.range c.length).map (c.getD · 0) = c := by
  apply List.ext_getElem
  · simp
  · intro i _ hi
    simp [hi]

theorem writeArray_eq (c : List UInt8) (off : Nat) {x : List UInt8} (hx : x ≠ []) :
    writeArray c off x = (List.range (max c.length (off + x.length))).map
      (Fat.FatSuper.writtenByte (c.getD · 0) c.length (x.getD · 0) off x.length) := by
  have h := Fat.FatSuper.overwrite_eq (c.getD · 0) (x.getD · 0) c.length off x.length
  rw [bufferBytes, map_range_getD, map_range_getD] at h
  rw [writeArray, if_neg hx, h]

theorem writeArray_append (c : List UInt8) (off : Nat) (x y : List UInt8) :
    writeArray (writeArray c off x) (off + x.length) y = writeArray c off (x ++ y) := by
  by_cases hx : x = []
  · simp [hx, writeArray]
  by_cases hy : y = []
  · simp [hy, writeArray]
  have hxy : x ++ y ≠ [] := by simp [hx]
  have hlen : (writeArray c off x).length = max c.length (off + x.length) := by
    simp [writeArray_eq c off hx]
  rw [writeArray_eq _ _ hy, writeArray_eq c off hxy, hlen]
  apply List.ext_getElem
  · simp only [List.length_map, List.length_range, List.length_append]
    omega
  · intro i hi hi'
    simp only [List.length_map, List.length_range, List.length_append] at hi hi'
    have hfirst : i < max c.length (off + x.length) → (writeArray c off x).getD i 0 =
        Fat.FatSuper.writtenByte (c.getD · 0) c.length (x.getD · 0) off x.length i := by
      intro hlt
      rw [writeArray_eq c off hx]
      simp [hlt]
    simp only [List.getElem_map, List.getElem_range, Fat.FatSuper.writtenByte, List.length_append]
      at hfirst ⊢
    by_cases hsecond : off + x.length ≤ i ∧ i < off + x.length + y.length
    · rw [if_pos hsecond, if_pos (by omega), List.getD_eq_getElem?_getD,
        List.getD_eq_getElem?_getD, List.getElem?_append_right (by omega), Nat.sub_sub]
    · rw [if_neg hsecond, if_pos (by omega), hfirst (by omega)]
      by_cases hin : off ≤ i ∧ i < off + x.length
      · rw [if_pos hin, if_pos (by omega), List.getD_eq_getElem?_getD,
          List.getD_eq_getElem?_getD, List.getElem?_append_left (by omega)]
      · have hout : ¬ (off ≤ i ∧ i < off + (x.length + y.length)) := by omega
        rw [if_neg hin, if_neg hout]

section Write

variable {s t : IoState FileState} {a count n total len : Nat} {chunk stack : Bytes}

/-- A regular file that can be made larger. -/
structure Growing (s : FileState) : Prop where
  inv : FileInv s
  alloc : ∀ k, (s.alloc k).isSome

theorem vfsGenericWrite_ramfs (h : Growing s.vnode) (hend : s.offset + len < 2 ^ 32) (buf : Bytes) :
    ∃ t, vfsGenericWrite ramfsVnodeOps buf len s = (.ok (.success, len), t) ∧ Growing t.vnode ∧
      t.user = s.user ∧ t.offset = s.offset + len ∧
      t.vnode.node.contents =
        writeArray s.vnode.node.contents s.offset (bufferBytes buf len) := by
  obtain ⟨hok, halloc⟩ := h.inv.write_succeeds hend h.alloc buf
  have hacts := h.inv.write (show s.offset < 2 ^ 32 by omega) (show len < 2 ^ 32 by omega) buf
  rcases hrun : ramfsWriteVn buf s.offset len s.vnode with ⟨r, v⟩
  rw [hrun] at hok halloc hacts
  obtain rfl : r = .ok len := hok
  refine ⟨⟨v, s.offset + len, s.user, ⟨s.offset, len, .success, len⟩ :: s.calls⟩, ?_,
    ⟨hacts.inv, halloc⟩, rfl, rfl, (hacts.ok rfl).2⟩
  rw [vfsGenericWrite]
  refine (bind_ok (a := (.success, len)) (t := { s with vnode := v }) ?_).trans ?_
  · simp only [runVnode, hrun]
  · exact finishTransfer_success le_rfl hend

theorem writeChunks_ramfs (chunk : Bytes) (eax : Int) (h : Growing s.vnode)
    (hv : s.user.Valid false a count) (hle : total ≤ count) (hn : count < total + n)
    (hend : s.offset + (count - total) < 2 ^ 32) :
    ∃ t, writeChunks ramfsVnodeOps a count n chunk total eax s = (.ok (count, eax), t) ∧
      Growing t.vnode ∧ s.user.SameMemory t.user ∧ t.offset = s.offset + (count - total) ∧
      t.vnode.node.contents = writeArray s.vnode.node.contents s.offset
        (s.user.bytes (a + total) (count - total)) := by
  induction n generalizing chunk total s with
  | zero => omega
  | succ n ih =>
    by_cases htotal : total < count
    · have hlen := chunkLength_le count total
      have hpos := chunkLength_pos htotal
      obtain ⟨buf, v, hcopy, hsame, hbuf⟩ := copyChunk chunk hv htotal
      obtain ⟨t, hwrite, hgrow, huser, hoff, hcontents⟩ :=
        vfsGenericWrite_ramfs (s := { s with user := v }) h
          (show s.offset + chunkLength count total < 2 ^ 32 by omega) buf
      rw [writeChunks_step htotal hcopy hwrite le_rfl, if_neg (by simp)]
      dsimp only at hoff hcontents
      have hsame' : s.user.SameMemory t.user := huser ▸ hsame
      obtain ⟨t', hrun, hgrow', hmem, hoff', hcontents'⟩ := ih (s := t) buf hgrow
        (hsame'.valid hv) (show total + chunkLength count total ≤ count by omega) (by omega)
        (by omega)
      refine ⟨t', hrun, hgrow', hsame'.trans hmem, by omega, ?_⟩
      -- The chunk and what comes after it are the rest of the buffer.
      have hsplit : count - total = chunkLength count total +
          (count - (total + chunkLength count total)) := by omega
      have hchunk : bufferBytes buf (chunkLength count total) =
          s.user.bytes (a + total) (chunkLength count total) :=
        List.map_congr_left fun i hi => hbuf i (List.mem_range.mp hi)
      have hlength : (s.user.bytes (a + total) (chunkLength count total)).length =
          chunkLength count total := UserSpace.length_bytes _ _ _
      rw [hcontents', hcontents, hchunk, hsame'.bytes, hoff, hsplit, UserSpace.bytes_add,
        ← writeArray_append, hlength, Nat.add_assoc a]
    · obtain rfl : total = count := by omega
      refine ⟨s, ?_, h, ⟨rfl, rfl⟩, by omega, ?_⟩
      · rw [writeChunks, if_neg htotal]
        rfl
      · simp [UserSpace.bytes, writeArray]

end Write

/-! ## Reads in pieces -/

section Read

variable {s t : IoState FileState} {a count n total len : Nat} {chunk stack : Bytes}

theorem vfsGenericRead_ramfs (h : FileInv s.vnode) (hoff : s.offset < 2 ^ 32) (buf : Bytes)
    (len : Nat) :
    ∃ out k t, vfsGenericRead ramfsVnodeOps buf len s = (.ok (.success, out, k), t) ∧
      t.vnode = s.vnode ∧ t.user = s.user ∧ t.offset = s.offset + k ∧
      k = min len (s.vnode.node.size - s.offset) ∧
      ∀ i < k, out i = s.vnode.node.contents.getD (s.offset + i) 0 := by
  have hlt := h.capacity_lt
  have hle := h.size_le
  obtain ⟨bytes, hbytes⟩ : ∃ b, b = (s.vnode.node.contents.drop s.offset).take len := ⟨_, rfl⟩
  have hlength : bytes.length = min len (s.vnode.node.size - s.offset) := by
    rw [hbytes, List.length_take, List.length_drop, RamfsFile.length_contents]
  have hrun := h.read s.offset len
  rw [← hbytes] at hrun
  refine ⟨fun i => bytes.getD i (buf i), bytes.length, ⟨s.vnode, s.offset + bytes.length, s.user,
    ⟨s.offset, len, .success, bytes.length⟩ :: s.calls⟩, ?_, rfl, rfl, rfl, hlength, fun i hi => ?_⟩
  · rw [vfsGenericRead]
    refine (bind_ok (a := (.success, fun i => bytes.getD i (buf i), bytes.length)) (t := s)
      ?_).trans (bind_ok (finishTransfer_success (by omega) (by omega)))
    simp only [runVnode, hrun]
  · have hin : s.offset + i < s.vnode.node.contents.length := by
      rw [RamfsFile.length_contents]
      omega
    subst hbytes
    simp [List.getD_eq_getElem?_getD, List.getElem?_take_of_lt (show i < len by omega),
      List.getElem?_eq_getElem hin]

theorem readChunks_ramfs (chunk : Bytes) (eax : Int) (h : FileInv s.vnode)
    (hoff : s.offset < 2 ^ 32) (hp : s.user.Private) (hv : s.user.Valid true a count)
    (hle : total ≤ count) (hn : count < total + n) :
    ∃ t k, readChunks ramfsVnodeOps a count n chunk total eax s = (.ok (total + k, eax), t) ∧
      k = min (count - total) (s.vnode.node.size - s.offset) ∧ t.vnode = s.vnode ∧
      t.offset = s.offset + k ∧
      s.user.Delivered t.user (a + total) k fun i =>
        s.vnode.node.contents.getD (s.offset + i) 0 := by
  induction n generalizing chunk total s with
  | zero => omega
  | succ n ih =>
    by_cases htotal : total < count
    · have hlen := chunkLength_le count total
      have hpos := chunkLength_pos htotal
      have hbelow := hv.below
      have hcap := h.capacity_lt
      have hsize := h.size_le
      obtain ⟨out, k, u, hread, hvnode, huser, huoff, hk, hout⟩ :=
        vfsGenericRead_ramfs h hoff chunk (chunkLength count total)
      rcases Nat.eq_zero_or_pos k with hzero | hkpos
      · refine ⟨u, 0, readChunks_end htotal hread rfl hzero, by omega, hvnode, by omega, ?_⟩
        rw [huser]
        exact .none hp
      · rw [← huser] at hp hv
        obtain ⟨v, hcopy, hd⟩ := UserSpace.copyToUser_delivers out hp
          (hv.part (i := total) (m := k) (by omega))
        rw [readChunks_more htotal hread rfl hkpos (by omega), u32_of_lt (by omega),
          bind_ok (onUser_run hcopy), if_neg (not_not.mpr (statusOf_ok ()))]
        rw [huser] at hd
        have hchunk := hd.congr hout
        split_ifs with hshort
        · exact ⟨_, k, rfl, by omega, hvnode, huoff, hchunk⟩
        · obtain ⟨t, m, hrun, hm, htvnode, htoff, hrest⟩ := ih (s := { u with user := v }) out
            (by rw [hvnode]; exact h) (by dsimp only; omega) hd.isPrivate
            (hd.same.valid (huser ▸ hv)) (show total + k ≤ count by omega) (by omega)
          dsimp only at hm htvnode htoff hrest
          rw [hvnode, huoff] at hm hrest
          refine ⟨t, k + m, by rw [hrun, Nat.add_assoc], by omega, htvnode.trans hvnode, by omega,
            hchunk.trans ?_⟩
          simpa only [Nat.add_assoc] using hrest
    · obtain rfl : total = count := by omega
      refine ⟨s, 0, ?_, by omega, rfl, rfl, .none hp⟩
      rw [readChunks, if_neg htotal]
      rfl

end Read

/-! ## Whole calls -/

variable {s t : IoState FileState} {a count n : Nat}

theorem sysWrite_ramfs (stack : Bytes) (h : Growing s.vnode) (hpos : 0 < count)
    (hmax : count ≤ syscallIoMax) (hv : s.user.Valid false a count)
    (hend : s.offset + count < 2 ^ 32) :
    ∃ t, sysWrite ramfsVnodeOps stack a count s = (.ok count, t) ∧ Growing t.vnode ∧
      s.user.SameMemory t.user ∧ t.offset = s.offset + count ∧
      t.vnode.node.contents =
        writeArray s.vnode.node.contents s.offset (s.user.bytes a count) := by
  obtain ⟨t, hrun, hgrow, hsame, hoff, hcontents⟩ := writeChunks_ramfs (n := count + 1) stack 4 h hv
    (Nat.zero_le _) (by omega) hend
  refine ⟨t, ?_, hgrow, hsame, hoff, hcontents⟩
  rw [sysWrite_run hpos hmax hv, bind_ok hrun, if_pos rfl]
  rfl

/-- The bytes that a read of `count` bytes at the offset is to deliver. -/
def nextBytes (s : IoState FileState) (count : Nat) : List UInt8 :=
  (s.vnode.node.contents.drop s.offset).take count

theorem length_nextBytes (s : IoState FileState) (count : Nat) :
    (nextBytes s count).length = min count (s.vnode.node.size - s.offset) := by
  rw [nextBytes, List.length_take, List.length_drop, RamfsFile.length_contents]

theorem sysRead_ramfs (stack : Bytes) (h : FileInv s.vnode) (hoff : s.offset < 2 ^ 32)
    (hp : s.user.Private) (hpos : 0 < count) (hmax : count ≤ syscallIoMax)
    (hv : s.user.Valid true a count) :
    ∃ t, sysRead ramfsVnodeOps stack a count s = (.ok (nextBytes s count).length, t) ∧
      t.vnode = s.vnode ∧ t.offset = s.offset + (nextBytes s count).length ∧
      s.user.Delivered t.user a (nextBytes s count).length fun i => (nextBytes s count).getD i 0 := by
  obtain ⟨t, k, hrun, hk, hvnode, htoff, hd⟩ := readChunks_ramfs (n := count + 1) stack 3 h hoff hp
    hv (Nat.zero_le _) (by omega)
  have hlength : k = (nextBytes s count).length := by rw [length_nextBytes, hk, Nat.sub_zero]
  subst hlength
  refine ⟨t, ?_, hvnode, htoff, ?_⟩
  · rw [sysRead_run hpos hmax hv, bind_ok hrun, Nat.zero_add]
    split_ifs with hsome
    · rfl
    · rw [show (nextBytes s count).length = 0 by omega]
      rfl
  · refine hd.congr fun i hi => ?_
    rw [length_nextBytes] at hi
    simp [nextBytes, List.getD_eq_getElem?_getD, List.getElem?_take_of_lt (show i < count by omega)]

theorem Delivered.bytes {u v : UserSpace} {x : List UInt8} (hv : u.Valid true a n)
    (hx : x.length ≤ n) (h : u.Delivered v a x.length fun i => x.getD i 0) :
    v.bytes a x.length = x := by
  apply List.ext_getElem
  · exact UserSpace.length_bytes _ _ _
  · intro i hi hi'
    simp only [UserSpace.bytes, List.getElem_map, List.getElem_range]
    rw [h.byte _ (hv.writable (by omega)), if_pos (by omega), Nat.add_sub_cancel_left]
    simp [hi']

/-! ## Sequences of calls -/

/-- One `SYS_write` for each buffer and count. -/
def writeCalls (stack : Bytes) : List (Nat × Nat) → IoM FileState Unit
  | [] => pure ()
  | (a, count) :: l => do
    let _ ← sysWrite ramfsVnodeOps stack a count
    writeCalls stack l

/-- One `SYS_read` for each buffer and count, with what the buffer then holds of the result. -/
def readCalls (stack : Bytes) : List (Nat × Nat) → IoM FileState (List (List UInt8))
  | [] => pure []
  | (a, count) :: l => do
    let r ← sysRead ramfsVnodeOps stack a count
    let bytes ← Eff.read fun s => .ok (s.user.bytes a r.toNat)
    let rest ← readCalls stack l
    pure (bytes :: rest)

/-- Calls with a valid buffer and a count that the calls accept. -/
def ValidCalls (u : UserSpace) (write : Bool) (l : List (Nat × Nat)) : Prop :=
  ∀ p ∈ l, 0 < p.2 ∧ p.2 ≤ syscallIoMax ∧ u.Valid write p.1 p.2

def callBytes (u : UserSpace) (l : List (Nat × Nat)) : List UInt8 :=
  (l.map fun p => u.bytes p.1 p.2).flatten

theorem callBytes_cons (u : UserSpace) (p : Nat × Nat) (l : List (Nat × Nat)) :
    callBytes u (p :: l) = u.bytes p.1 p.2 ++ callBytes u l := rfl

theorem length_callBytes (u : UserSpace) (l : List (Nat × Nat)) :
    (callBytes u l).length = (l.map Prod.snd).sum := by
  induction l with
  | nil => rfl
  | cons p l ih =>
    rw [callBytes_cons, List.length_append, ih, UserSpace.length_bytes, List.map_cons,
      List.sum_cons]

theorem writeCalls_ramfs (stack : Bytes) (l : List (Nat × Nat)) (h : Growing s.vnode)
    (hl : ValidCalls s.user false l) (hend : s.offset + (l.map Prod.snd).sum < 2 ^ 32) :
    ∃ t, writeCalls stack l s = (.ok (), t) ∧ Growing t.vnode ∧ s.user.SameMemory t.user ∧
      t.vnode.node.contents =
        writeArray s.vnode.node.contents s.offset (callBytes s.user l) := by
  induction l generalizing s with
  | nil => exact ⟨s, rfl, h, ⟨rfl, rfl⟩, by simp [callBytes, writeArray]⟩
  | cons p l ih =>
    obtain ⟨hpos, hmax, hv⟩ := hl p List.mem_cons_self
    rw [List.map_cons, List.sum_cons] at hend
    obtain ⟨t, hrun, hgrow, hsame, hoff, hcontents⟩ :=
      sysWrite_ramfs stack h hpos hmax hv (by omega)
    obtain ⟨t', hrun', hgrow', hsame', hcontents'⟩ := ih (s := t) hgrow
      (fun q hq => ⟨(hl q (.tail _ hq)).1, (hl q (.tail _ hq)).2.1,
        hsame.valid (hl q (.tail _ hq)).2.2⟩) (by omega)
    refine ⟨t', ?_, hgrow', hsame.trans hsame', ?_⟩
    · rw [writeCalls, bind_ok hrun, hrun']
    · have hbytes : callBytes t.user l = callBytes s.user l := by
        simp only [callBytes, hsame.bytes]
      have hlength : (s.user.bytes p.1 p.2).length = p.2 := UserSpace.length_bytes _ _ _
      rw [hcontents', hcontents, hoff, hbytes, callBytes_cons, ← writeArray_append, hlength]

theorem nextBytes_add {m : Nat} (hvnode : t.vnode = s.vnode)
    (hoff : t.offset = s.offset + (nextBytes s m).length) :
    nextBytes s (m + n) = nextBytes s m ++ nextBytes t n := by
  rw [nextBytes, List.take_add, nextBytes, nextBytes, hvnode, hoff, List.drop_drop,
    length_nextBytes]
  congr 2
  rcases Nat.le_total m (s.vnode.node.size - s.offset) with hle | hle
  · rw [Nat.min_eq_left hle]
  · rw [Nat.min_eq_right hle, List.drop_eq_nil_of_le, List.drop_eq_nil_of_le] <;>
      rw [RamfsFile.length_contents] <;> omega

theorem readCalls_ramfs (stack : Bytes) (l : List (Nat × Nat)) (h : FileInv s.vnode)
    (hoff : s.offset < 2 ^ 32) (hp : s.user.Private) (hl : ValidCalls s.user true l) :
    ∃ pieces t, readCalls stack l s = (.ok pieces, t) ∧
      pieces.flatten = nextBytes s (l.map Prod.snd).sum := by
  induction l generalizing s with
  | nil => exact ⟨[], s, rfl, by simp [nextBytes]⟩
  | cons p l ih =>
    obtain ⟨hpos, hmax, hv⟩ := hl p List.mem_cons_self
    obtain ⟨t, hrun, hvnode, htoff, hd⟩ := sysRead_ramfs stack h hoff hp hpos hmax hv
    have hlt := h.capacity_lt
    have hle := h.size_le
    have hlength := length_nextBytes s p.2
    obtain ⟨pieces, t', hrun', hpieces⟩ := ih (s := t) (hvnode ▸ h) (by omega) hd.isPrivate
      fun q hq => ⟨(hl q (.tail _ hq)).1, (hl q (.tail _ hq)).2.1,
        hd.same.valid (hl q (.tail _ hq)).2.2⟩
    have hbytes := Delivered.bytes hv (by omega) hd
    refine ⟨nextBytes s p.2 :: pieces, t', ?_, ?_⟩
    · rw [readCalls, bind_ok hrun, bind_run, Eff.read, Int.toNat_natCast, hbytes, andThen_ok,
        bind_ok hrun']
      rfl
    · rw [List.flatten_cons, hpieces, List.map_cons, List.sum_cons, nextBytes_add hvnode htoff]

theorem take_drop_writeArray (c : List UInt8) (off : Nat) (x : List UInt8) :
    ((writeArray c off x).drop off).take x.length = x := by
  by_cases hx : x = []
  · simp [hx]
  apply List.ext_getElem
  · simp [writeArray_eq c off hx]
    omega
  · intro i hi hi'
    simp [writeArray_eq c off hx, Fat.FatSuper.writtenByte, hi']

/-- On a regular file, the chunk loop of `SYS_write` is one vnode write of the whole buffer as long
as the file stays below `2 ^ 32` bytes, the loop of `SYS_read` delivers the bytes from the offset
on, and what was written is read back however both are split into calls. -/
theorem ramfs_calls_refine (stack : Bytes) (s : IoState FileState) (h : Growing s.vnode)
    (hoff : s.offset < 2 ^ 32) (hp : s.user.Private) :
    (∀ a count, 0 < count → count ≤ syscallIoMax → s.user.Valid false a count →
      s.offset + count < 2 ^ 32 →
      ∃ t w, sysWrite ramfsVnodeOps stack a count s = (.ok count, t) ∧
        t.offset = s.offset + count ∧
        ramfsWriteVn (fun i => s.user.byte (a + i)) s.offset count s.vnode = (.ok count, w) ∧
        t.vnode.node.contents = w.node.contents ∧
        w.node.contents = writeArray s.vnode.node.contents s.offset (s.user.bytes a count)) ∧
    (∀ a count, 0 < count → count ≤ syscallIoMax → s.user.Valid true a count →
      ∃ t, sysRead ramfsVnodeOps stack a count s = (.ok (nextBytes s count).length, t) ∧
        t.vnode = s.vnode ∧ t.offset = s.offset + (nextBytes s count).length ∧
        t.user.bytes a (nextBytes s count).length = nextBytes s count) ∧
    ∀ writes reads, ValidCalls s.user false writes → ValidCalls s.user true reads →
      (reads.map Prod.snd).sum = (writes.map Prod.snd).sum →
      s.offset + (writes.map Prod.snd).sum < 2 ^ 32 →
      ∃ pieces t, (do
          writeCalls stack writes
          vfsGenericSeek s.offset
          readCalls stack reads : IoM FileState (List (List UInt8))) s = (.ok pieces, t) ∧
        pieces.flatten = callBytes s.user writes := by
  refine ⟨fun a count hpos hmax hv hend => ?_, fun a count hpos hmax hv => ?_,
    fun writes reads hwrites hreads hsum hend => ?_⟩
  · obtain ⟨t, hrun, -, -, htoff, hcontents⟩ := sysWrite_ramfs stack h hpos hmax hv hend
    obtain ⟨hok, -⟩ := h.inv.write_succeeds hend h.alloc fun i => s.user.byte (a + i)
    have hacts := h.inv.write hoff (show count < 2 ^ 32 by omega) fun i => s.user.byte (a + i)
    have hw := (hacts.ok (by rw [hok]; rfl)).2
    exact ⟨t, _, hrun, htoff, Prod.ext hok rfl, hcontents.trans hw.symm, hw⟩
  · obtain ⟨t, hrun, hvnode, htoff, hd⟩ := sysRead_ramfs stack h.inv hoff hp hpos hmax hv
    have hlength := length_nextBytes s count
    exact ⟨t, hrun, hvnode, htoff, Delivered.bytes hv (by omega) hd⟩
  · obtain ⟨t, hrun, hgrow, hsame, hcontents⟩ := writeCalls_ramfs stack writes h hwrites hend
    obtain ⟨pieces, t', hrun', hpieces⟩ := readCalls_ramfs (s := { t with offset := s.offset })
      stack reads hgrow.inv hoff (hsame.isPrivate hp) fun q hq => ⟨(hreads q hq).1, (hreads q hq).2.1,
        hsame.valid (hreads q hq).2.2⟩
    refine ⟨pieces, t', ?_, ?_⟩
    · rw [bind_ok hrun, vfsGenericSeek, bind_run, modify_run, andThen_ok, u32_of_lt hoff, hrun']
    · rw [hpieces, nextBytes, hsum, ← length_callBytes s.user]
      rw [hcontents, take_drop_writeArray]

/-- An empty file with an offset, opened by the process with one page. -/
def emptyFile (offset : Nat) : IoState FileState :=
  ⟨newFile .file fun _ => some fun _ => 0xAA, offset, UserSpace.onePage, []⟩

theorem emptyFile_growing (offset : Nat) : Growing (emptyFile offset).vnode :=
  ⟨⟨.inl rfl, le_rfl, Nat.two_pow_pos 32, rfl⟩, fun _ => rfl⟩

theorem ramfs_calls_refine_emptyFile :
    (Growing (emptyFile 100).vnode ∧ (emptyFile 100).user.Private ∧
      ValidCalls (emptyFile 100).user false [(0x10000, 300), (0x10200, 700)] ∧
      ValidCalls (emptyFile 100).user true [(0x10800, 1000)]) ∧
    ∃ pieces t, (do
        writeCalls (fun _ => 0) [(0x10000, 300), (0x10200, 700)]
        vfsGenericSeek (emptyFile 100).offset
        readCalls (fun _ => 0) [(0x10800, 1000)] : IoM FileState (List (List UInt8)))
          (emptyFile 100) = (.ok pieces, t) ∧
      pieces.flatten = callBytes (emptyFile 100).user [(0x10000, 300), (0x10200, 700)] := by
  have hpage : ∀ write i n, i + n ≤ 4096 → (emptyFile 100).user.Valid write (0x10000 + i) n :=
    fun write i n h => (UserSpace.onePage_valid write le_rfl).part h
  have hwrites : ValidCalls (emptyFile 100).user false [(0x10000, 300), (0x10200, 700)] := by
    intro p hp
    rcases List.mem_pair.mp hp with rfl | rfl
    · exact ⟨by decide, by decide, hpage false 0 300 (by decide)⟩
    · exact ⟨by decide, by decide, hpage false 0x200 700 (by decide)⟩
  have hreads : ValidCalls (emptyFile 100).user true [(0x10800, 1000)] := by
    intro p hp
    obtain rfl := List.mem_singleton.mp hp
    exact ⟨by decide, by decide, hpage true 0x800 1000 (by decide)⟩
  exact ⟨⟨emptyFile_growing 100, UserSpace.onePage_private, hwrites, hreads⟩,
    (ramfs_calls_refine (fun _ => 0) (emptyFile 100) (emptyFile_growing 100) (by decide)
      UserSpace.onePage_private).2.2 _ _ hwrites hreads (by decide) (by decide)⟩

/-- At the largest offset a write of one byte is refused: no file has `2 ^ 32` bytes. -/
theorem write_at_largest_offset :
    Growing (emptyFile 0xFFFFFFFF).vnode ∧ (emptyFile 0xFFFFFFFF).user.Valid false 0x10000 1 ∧
    ∃ t, sysWrite ramfsVnodeOps (fun _ => 0) 0x10000 (1 : Nat) (emptyFile 0xFFFFFFFF) =
        (.ok (-2), t) ∧ t.offset = 0xFFFFFFFF := by
  have hv : (emptyFile 0xFFFFFFFF).user.Valid false 0x10000 1 :=
    UserSpace.onePage_valid false (by decide)
  obtain ⟨buf, v, hcopy, -⟩ := copyChunk (fun _ => 0) hv Nat.zero_lt_one
  have hwrite : vfsGenericWrite ramfsVnodeOps buf (chunkLength 1 0)
      { emptyFile 0xFFFFFFFF with user := v } = (.ok (Errno.invalidArgument.status, 0),
        { emptyFile 0xFFFFFFFF with
          user := v, calls := [⟨0xFFFFFFFF, 1, Errno.invalidArgument.status, 0⟩] }) := rfl
  have hstep : writeChunks ramfsVnodeOps 0x10000 1 2 (fun _ => 0) 0 4 (emptyFile 0xFFFFFFFF) = _ :=
    writeChunks_step Nat.zero_lt_one hcopy hwrite (by decide)
  refine ⟨emptyFile_growing _, hv, ?_⟩
  rw [if_pos (.inl (by decide))] at hstep
  rw [sysWrite_run (by decide) (by decide) hv, bind_ok hstep]
  exact ⟨_, rfl, rfl⟩

end CfKernel.Syscall
