import CfKernel.Mm.UserBuffer

/-!
# Reading and writing open files

`SYS_read` and `SYS_write` on an open file move the caller's buffer in chunks of 256 bytes, each
one through `vfs_generic_read` or `vfs_generic_write` and a buffer on the kernel stack. The vnode
operations are any functions over a state of their own: they answer with a status and a count.

A read that fails on its first chunk leaves the error in `eax`, and the statement after the loop
replaces it by zero. A write that fails after a part of a chunk is counted, but the offset of the
file only moves when the vnode operation succeeds.
-/

namespace CfKernel.Syscall

open Lib Lib.Eff Mm

structure VnodeCall where
  off : Nat
  len : Nat
  status : Status
  done : Nat

/-- An open file, the vnode behind it and the caller's memory; the calls of vnode operations are
recorded, the last first. -/
structure IoState (ν : Type) where
  vnode : ν
  offset : Nat
  user : UserSpace
  calls : List VnodeCall

abbrev IoM (ν : Type) := Eff Stop (IoState ν)

/-- `ops->read` and `ops->write`, from the buffer, the offset and the length; `none` is `NULL`. A
read answers with the buffer as it leaves it. -/
structure VnodeOps (ν : Type) where
  read : Option (Bytes → Nat → Nat → ν → (Status × Bytes × Nat) × ν)
  write : Option (Bytes → Nat → Nat → ν → (Status × Nat) × ν)

variable {ν : Type}

def runVnode {α : Type} (op : Nat → ν → α × ν) : IoM ν α := fun s =>
  (.ok (op s.offset s.vnode).1, { s with vnode := (op s.offset s.vnode).2 })

def onUser {α : Type} (m : UserM α) : IoM ν α := fun s =>
  ((m s.user).1, { s with user := (m s.user).2 })

/-- What `vfs_generic_read` and `vfs_generic_write` do after the vnode operation; the value is
their result and `*out`. -/
def finishTransfer (len : Nat) (result : Status) (done : Nat) : IoM ν (Status × Nat) := fun s =>
  let s := { s with calls := ⟨s.offset, len, result, done⟩ :: s.calls }
  if len < done then (.ok (Errno.ioError.status, 0), s)
  else if 0xFFFFFFFF - s.offset < done then (.ok (Errno.invalidArgument.status, 0), s)
  else if result = .success then
    (.ok (result, done), { s with offset := u32 (s.offset + done) })
  else (.ok (result, done), s)

def vfsGenericRead (ops : VnodeOps ν) (buf : Bytes) (len : Nat) : IoM ν (Status × Bytes × Nat) :=
  match ops.read with
  | none => pure (Errno.notSupported.status, buf, 0)
  | some op => do
    let (result, buf, done) ← runVnode fun off => op buf off len
    let (result, out) ← finishTransfer len result done
    pure (result, buf, out)

def vfsGenericWrite (ops : VnodeOps ν) (buf : Bytes) (len : Nat) : IoM ν (Status × Nat) :=
  match ops.write with
  | none => pure (Errno.notSupported.status, 0)
  | some op => do
    let (result, done) ← runVnode fun off => op buf off len
    finishTransfer len result done

def vfsGenericSeek (off : Nat) : IoM ν Unit := Eff.modify fun s => { s with offset := u32 off }

def syscallIoMax : Nat := 64 * 1024

def syscallIoChunk : Nat := 256

def chunkLength (count total : Nat) : Nat :=
  if syscallIoChunk < count - total then syscallIoChunk else count - total

def totalOr (total : Nat) (r : Status) : Int := if total ≠ 0 then total else r

/-- The loop of `SYS_read`; the value is `total` and `eax` at its end. -/
def readChunks (ops : VnodeOps ν) (userBuf count : Nat) :
    Nat → Bytes → Nat → Int → IoM ν (Nat × Int)
  | 0, _, _, _ => Eff.fail .endless
  | n + 1, chunk, total, eax =>
    if total < count then do
      let length := chunkLength count total
      let (r, chunk, nread) ← vfsGenericRead ops chunk length
      if r ≠ .success then pure (total, totalOr total r)
      else if length < nread then pure (total, totalOr total Errno.internal.status)
      else if nread = 0 then pure (total, eax)
      else do
        let r ← onUser (copyToUser (u32 (userBuf + total)) (some chunk) nread)
        if statusOf r ≠ .success then pure (total, totalOr total (statusOf r))
        else if nread < length then pure (total + nread, eax)
        else readChunks ops userBuf count n chunk (total + nread) eax
    else pure (total, eax)

/-- `SYS_read` on an open file that is not the terminal: the value of `eax` at its end. `stack` is
what the chunk holds at first. -/
def sysRead (ops : VnodeOps ν) (stack : Bytes) (userBuf : Nat) (count : Int) : IoM ν Int :=
  if userBuf = 0 ∨ count ≤ 0 then pure Errno.invalidArgument.code
  else if syscallIoMax < count.toNat then pure Errno.bufferTooSmall.code
  else do
    if ¬ (← onUser (userRangeValid userBuf count.toNat true)) then pure Errno.badAddress.code
    else do
      let (total, _eax) ← readChunks ops userBuf count.toNat (count.toNat + 1) stack 0 3
      -- Both branches of the source set `eax` again.
      pure (if total = count.toNat ∨ total ≠ 0 then total else 0)

/-- The loop of `SYS_write`. -/
def writeChunks (ops : VnodeOps ν) (userBuf count : Nat) :
    Nat → Bytes → Nat → Int → IoM ν (Nat × Int)
  | 0, _, _, _ => Eff.fail .endless
  | n + 1, chunk, total, eax =>
    if total < count then do
      let length := chunkLength count total
      match ← onUser (copyFromUser (some chunk) (u32 (userBuf + total)) length) with
      | .error e => pure (total, totalOr total e.status)
      | .ok out => do
        let chunk := out.getD chunk
        let (r, written) ← vfsGenericWrite ops chunk length
        if length < written then pure (total, totalOr total Errno.internal.status)
        else if r ≠ .success ∨ written < length then
          pure (total + written, totalOr (total + written) r)
        else writeChunks ops userBuf count n chunk (total + written) eax
    else pure (total, eax)

def sysWrite (ops : VnodeOps ν) (stack : Bytes) (userBuf : Nat) (count : Int) : IoM ν Int :=
  if userBuf = 0 ∨ count ≤ 0 then pure Errno.invalidArgument.code
  else if syscallIoMax < count.toNat then pure Errno.bufferTooSmall.code
  else do
    if ¬ (← onUser (userRangeValid userBuf count.toNat false)) then pure Errno.badAddress.code
    else do
      let (total, eax) ← writeChunks ops userBuf count.toNat (count.toNat + 1) stack 0 4
      pure (if total = count.toNat then total else eax)

variable {ops : VnodeOps ν} {s t : IoState ν} {a count n total len : Nat} {chunk stack : Bytes}
variable {total' : Nat} {α : Type} {u : IoState ν}

theorem chunkLength_le (count total : Nat) : chunkLength count total ≤ count - total := by
  unfold chunkLength
  split <;> omega

theorem chunkLength_pos (h : total < count) : 0 < chunkLength count total := by
  unfold chunkLength syscallIoChunk
  split <;> omega

theorem onUser_run {m : UserM α} {r : Except Stop α} {u : UserSpace}
    (h : m s.user = (r, u)) : (onUser m : IoM ν α) s = (r, { s with user := u }) := by
  rw [onUser, h]

/-! ## The file layer -/

theorem finishTransfer_run (len : Nat) (result : Status) (done : Nat) (s : IoState ν) :
    ∃ r out t, finishTransfer len result done s = (.ok (r, out), t) ∧ t.user = s.user ∧
      out ≤ len ∧ t.vnode = s.vnode := by
  unfold finishTransfer
  dsimp only
  split_ifs
  · exact ⟨_, _, _, rfl, rfl, Nat.zero_le _, rfl⟩
  · exact ⟨_, _, _, rfl, rfl, Nat.zero_le _, rfl⟩
  · exact ⟨_, _, _, rfl, rfl, by omega, rfl⟩
  · exact ⟨_, _, _, rfl, rfl, by omega, rfl⟩

theorem finishTransfer_success {done : Nat} (hdone : done ≤ len)
    (hroom : s.offset + done < 2 ^ 32) :
    finishTransfer len .success done s = (.ok (.success, done), { s with
      offset := s.offset + done, calls := ⟨s.offset, len, .success, done⟩ :: s.calls }) := by
  rw [finishTransfer]
  dsimp only
  rw [if_neg (by omega), if_neg (by omega), if_pos rfl, u32_of_lt hroom]

theorem vfsGenericRead_run (ops : VnodeOps ν) (buf : Bytes) (len : Nat) (s : IoState ν) :
    ∃ r out n t, vfsGenericRead ops buf len s = (.ok (r, out, n), t) ∧ t.user = s.user ∧
      n ≤ len := by
  unfold vfsGenericRead
  cases ops.read with
  | none => exact ⟨_, _, _, _, rfl, rfl, Nat.zero_le _⟩
  | some op =>
    obtain ⟨r, n, t, hrun, huser, hn, -⟩ := finishTransfer_run len
      (op buf s.offset len s.vnode).1.1 (op buf s.offset len s.vnode).1.2.2
      { s with vnode := (op buf s.offset len s.vnode).2 }
    refine ⟨r, (op buf s.offset len s.vnode).1.2.1, n, t, ?_, huser, hn⟩
    dsimp only
    rw [bind_run, runVnode, andThen_ok, bind_ok hrun]
    rfl

/-! ## What a read reports -/

section Turn

variable {out : Bytes} {k : Nat} {r : Status} {eax : Int} (htotal : total < count)
  (hread : vfsGenericRead ops chunk (chunkLength count total) s = (.ok (r, out, k), t))

include htotal hread

theorem readChunks_failed (hr : r ≠ .success) :
    readChunks ops a count (n + 1) chunk total eax s = (.ok (total, totalOr total r), t) := by
  rw [readChunks, if_pos htotal]
  rw [bind_ok hread]
  dsimp only
  rw [if_pos hr]
  rfl

theorem readChunks_end (hr : r = .success) (hk : k = 0) :
    readChunks ops a count (n + 1) chunk total eax s = (.ok (total, eax), t) := by
  rw [readChunks, if_pos htotal]
  rw [bind_ok hread]
  dsimp only
  rw [if_neg (not_not.mpr hr), if_neg (by omega), if_pos hk]
  rfl

theorem readChunks_more (hr : r = .success) (hk : 0 < k) (hle : k ≤ chunkLength count total) :
    readChunks ops a count (n + 1) chunk total eax s =
      ((onUser (copyToUser (u32 (a + total)) (some out) k) >>= fun r =>
        if statusOf r ≠ .success then pure (total, totalOr total (statusOf r))
        else if k < chunkLength count total then pure (total + k, eax)
        else readChunks ops a count n out (total + k) eax : IoM ν (Nat × Int)) t) := by
  rw [readChunks, if_pos htotal]
  rw [bind_ok hread]
  dsimp only
  rw [if_neg (not_not.mpr hr), if_neg (by omega), if_neg (by omega)]

end Turn

theorem statusOf_ok (x : α) : statusOf (.ok x) = .success := rfl

theorem statusOf_error (e : Errno) : statusOf (.error e : Except Errno α) ≠ .success :=
  fun h => absurd (congrArg Subtype.val h) e.code_neg.ne

/-- A turn of a loop that ends: it delivers nothing and is the last, or it delivers what it read,
and then the loop stops or goes on. -/
theorem readChunks_turn {eax eax' : Int} (hbelow : a + count ≤ 2 ^ 32) (htotal : total < count)
    (hrun : readChunks ops a count (n + 1) chunk total eax s = (.ok (total', eax'), t)) :
    ∃ r out k u, vfsGenericRead ops chunk (chunkLength count total) s = (.ok (r, out, k), u) ∧
      u.user = s.user ∧ k ≤ chunkLength count total ∧
      ((total' = total ∧ t.user = s.user ∧ (r = .success → 0 < k →
          ∃ e, (copyToUser (a + total) (some out) k s.user).1 = .ok (.error e))) ∨
        ∃ v, v.touched = touchedBytes (a + total) k ++ s.user.touched ∧
          ((total' = total + k ∧ t.user = v) ∨
            readChunks ops a count n out (total + k) eax { u with user := v } =
              (.ok (total', eax'), t))) := by
  obtain ⟨r, out, k, u, hread, huser, hk⟩ :=
    vfsGenericRead_run ops chunk (chunkLength count total) s
  refine ⟨r, out, k, u, hread, huser, hk, ?_⟩
  by_cases hr : r = .success
  · rcases Nat.eq_zero_or_pos k with hzero | hpos
    · rw [readChunks_end htotal hread hr hzero] at hrun
      cases hrun
      exact .inl ⟨rfl, huser, fun _ hpos => absurd hpos (by omega)⟩
    · rw [readChunks_more htotal hread hr hpos hk, u32_of_lt (by omega)] at hrun
      rcases copyToUser_run (a + total) (some out) k u.user with
        ⟨e, hcopy⟩ | ⟨r', v, j, hcopy, htouched, -, hall, hnone, -⟩
      · rw [bind_ok (onUser_run hcopy), if_pos (statusOf_error e)] at hrun
        cases hrun
        exact .inl ⟨rfl, huser, fun _ _ => ⟨e, by rw [← huser, hcopy]⟩⟩
      · rcases r' with _ | _ | _
        · rw [bind_error (onUser_run hcopy)] at hrun
          cases hrun
        · exact absurd rfl (hnone _)
        · obtain rfl : j = k := hall rfl
          rw [huser] at htouched
          rw [bind_ok (onUser_run hcopy), if_neg (not_not.mpr (statusOf_ok ()))] at hrun
          refine .inr ⟨v, htouched, ?_⟩
          split_ifs at hrun
          · cases hrun
            exact .inl ⟨rfl, rfl⟩
          · exact .inr hrun
  · rw [readChunks_failed htotal hread hr] at hrun
    cases hrun
    exact .inl ⟨rfl, huser, fun hs => absurd hs hr⟩

theorem readChunks_delivers {eax eax' : Int} (hbelow : a + count ≤ 2 ^ 32)
    (hrun : readChunks ops a count n chunk total eax s = (.ok (total', eax'), t)) :
    ∃ k, total' = total + k ∧ t.user.touched = touchedBytes (a + total) k ++ s.user.touched := by
  induction n generalizing chunk total s with
  | zero => cases hrun
  | succ n ih =>
    by_cases htotal : total < count
    · obtain ⟨r, out, k, u, -, huser, -, ⟨heq, hsame, -⟩ | ⟨v, htouched, ⟨heq, hv⟩ | hrest⟩⟩ :=
        readChunks_turn hbelow htotal hrun
      · exact ⟨0, heq, congrArg UserSpace.touched hsame⟩
      · exact ⟨k, heq, by rw [hv, htouched]⟩
      · obtain ⟨m, hm, hmore⟩ := ih hrest
        refine ⟨k + m, by rw [hm, Nat.add_assoc], ?_⟩
        rw [hmore, touchedBytes_add, List.append_assoc, ← htouched, Nat.add_assoc]
    · rw [readChunks, if_neg htotal] at hrun
      cases hrun
      exact ⟨0, rfl, rfl⟩

theorem readChunks_first {k : Nat} {eax eax' : Int} {out : Bytes}
    (htotal : total < count) (hv : s.user.Valid true a count)
    (hread : vfsGenericRead ops chunk (chunkLength count total) s = (.ok (.success, out, k), u))
    (hrun : readChunks ops a count (n + 1) chunk total eax s = (.ok (total', eax'), t)) :
    total + k ≤ total' := by
  have hlen := chunkLength_le count total
  obtain ⟨r, out', k', u', hread', -, hk, ⟨heq, -, hcopy⟩ | ⟨v, -, ⟨heq, -⟩ | hrest⟩⟩ :=
    readChunks_turn hv.below htotal hrun <;> cases hread.symm.trans hread'
  · rcases Nat.eq_zero_or_pos k with rfl | hpos
    · exact heq.ge
    · obtain ⟨e, he⟩ := hcopy rfl hpos
      exact absurd he
        (UserSpace.copyToUser_no_error (hv.part (i := total) (m := k) (by omega)) e)
  · exact heq.ge
  · obtain ⟨m, rfl, -⟩ := readChunks_delivers hv.below hrest
    exact Nat.le_add_right _ _

theorem readChunks_returns (ops : VnodeOps ν) (chunk : Bytes) (eax : Int) (hp : s.user.Private) (hv : s.user.Valid true a count)
    (hle : total ≤ count) (hn : count < total + n) :
    ∃ total' eax' t, readChunks ops a count n chunk total eax s = (.ok (total', eax'), t) := by
  induction n generalizing chunk total s with
  | zero => omega
  | succ n ih =>
    by_cases htotal : total < count
    · obtain ⟨r, out, k, u, hread, huser, hk⟩ :=
        vfsGenericRead_run ops chunk (chunkLength count total) s
      have hlen := chunkLength_le count total
      by_cases hr : r = .success
      · rcases Nat.eq_zero_or_pos k with hzero | hpos
        · exact ⟨_, _, _, readChunks_end htotal hread hr hzero⟩
        · rw [← huser] at hp hv
          obtain ⟨v, hcopy, hd⟩ := UserSpace.copyToUser_delivers out hp
            (hv.part (i := total) (m := k) (by omega))
          have hbelow := hv.below
          rw [readChunks_more htotal hread hr hpos hk, u32_of_lt (by omega),
            bind_ok (onUser_run hcopy), if_neg (not_not.mpr (statusOf_ok ()))]
          split_ifs
          · exact ⟨_, _, _, rfl⟩
          · exact ih _ hd.isPrivate (hd.same.valid hv) (by omega) (by omega)
      · exact ⟨_, _, _, readChunks_failed htotal hread hr⟩
    · exact ⟨total, eax, s, by rw [readChunks, if_neg htotal]; rfl⟩

/-- The error that the first chunk ends the call with: that of `vfs_read`, or that of the copy of
what it read. -/
def FirstError (ops : VnodeOps ν) (stack : Bytes) (a count : Nat) (s : IoState ν) (e : Int) :
    Prop :=
  ∃ r out k t, vfsGenericRead ops stack (chunkLength count 0) s = (.ok (r, out, k), t) ∧
    ((r ≠ .success ∧ e = r) ∨
      (r = .success ∧ ∃ err, (copyToUser a (some out) k t.user).1 = .ok (.error err) ∧
        e = err.code))

/-- The first `vfs_read` succeeds, with any number of bytes. -/
def FirstReadSucceeds (ops : VnodeOps ν) (stack : Bytes) (count : Nat) (s : IoState ν) : Prop :=
  ∃ out k t, vfsGenericRead ops stack (chunkLength count 0) s = (.ok (.success, out, k), t)

/-- `eax` tells how many bytes came, that the file is at its end, or which error there was. -/
def ReadReports (ops : VnodeOps ν) (stack : Bytes) (a count : Nat) (s : IoState ν) (eax : Int)
    (t : IoState ν) : Prop :=
  ∃ k, t.user.touched = touchedBytes a k ++ s.user.touched ∧ (0 < k → eax = k) ∧
    (k = 0 →
      (eax = 0 ∧ ∃ out u, vfsGenericRead ops stack (chunkLength count 0) s =
        (.ok (.success, out, 0), u)) ∨
      FirstError ops stack a count s eax)

theorem not_readReports_zero {r : Status} {out : Bytes} {k : Nat}
    (hread : vfsGenericRead ops stack (chunkLength count 0) s = (.ok (r, out, k), u))
    (hr : r ≠ .success) (htouched : t.user.touched = s.user.touched) :
    ¬ ReadReports ops stack a count s 0 t := by
  rintro ⟨j, hj, -, hzero⟩
  have hnone : j = 0 := by
    have := congrArg List.length (hj.symm.trans htouched)
    simpa [length_touchedBytes] using this
  rcases hzero hnone with ⟨-, out', u', hread'⟩ | ⟨r', out', k', u', hread', ⟨-, heq⟩ | ⟨hs, -⟩⟩ <;>
    cases hread.symm.trans hread'
  · exact hr rfl
  · exact hr (Subtype.ext heq.symm)
  · exact hr hs

theorem sysRead_run (hpos : 0 < count) (hmax : count ≤ syscallIoMax)
    (hv : s.user.Valid true a count) :
    sysRead ops stack a count s =
      ((readChunks ops a count (count + 1) stack 0 3 >>= fun p =>
        pure (if p.1 = count ∨ p.1 ≠ 0 then (p.1 : Int) else 0) : IoM ν Int) s) := by
  have hnull : ¬ (a = 0 ∨ (count : Int) ≤ 0) := by
    have := hv.notNull
    omega
  rw [sysRead, if_neg hnull, Int.toNat_natCast, if_neg (by omega),
    bind_ok (onUser_run (UserSpace.userRangeValid_of_valid hv)), if_neg (by decide)]

theorem sysRead_eq_delivered {eax : Int} (hpos : 0 < count) (hmax : count ≤ syscallIoMax)
    (hv : s.user.Valid true a count) (hrun : sysRead ops stack a count s = (.ok eax, t)) :
    ∃ k : Nat, eax = k ∧ t.user.touched = touchedBytes a k ++ s.user.touched ∧
      ∃ eax', readChunks ops a count (count + 1) stack 0 3 s = (.ok (k, eax'), t) := by
  rw [sysRead_run hpos hmax hv] at hrun
  obtain ⟨⟨total, eax'⟩, u, hloop, hend⟩ := exists_of_bind_ok hrun
  obtain ⟨k, hk, htouched⟩ := readChunks_delivers hv.below hloop
  rw [Nat.zero_add] at hk
  cases hend
  refine ⟨total, ?_, by rw [hk]; exact htouched, eax', hloop⟩
  split_ifs with h
  · rfl
  · omega

/-- The call reports what happened exactly when the first `vfs_read` does not fail: an error there
is taken for the end of the file. -/
theorem sysRead_reports_iff (ops : VnodeOps ν) (stack : Bytes) (a count : Nat) (s : IoState ν)
    (hpos : 0 < count) (hmax : count ≤ syscallIoMax) (hv : s.user.Valid true a count) :
    (∀ eax t, sysRead ops stack a count s = (.ok eax, t) →
      (ReadReports ops stack a count s eax t ↔ FirstReadSucceeds ops stack count s)) ∧
    (s.user.Private → ∃ eax t, sysRead ops stack a count s = (.ok eax, t)) := by
  constructor
  · intro eax t hrun
    obtain ⟨k, rfl, htouched, eax', hloop⟩ := sysRead_eq_delivered hpos hmax hv hrun
    obtain ⟨r, out, m, u, hread, huser, hm⟩ := vfsGenericRead_run ops stack (chunkLength count 0) s
    constructor
    · intro hreports
      by_contra hfirst
      have hr : r ≠ .success := by
        rintro rfl
        exact hfirst ⟨out, m, u, hread⟩
      -- The loop ends at once, so nothing was delivered.
      rw [readChunks_failed hpos hread hr] at hloop
      cases hloop
      exact not_readReports_zero hread hr (congrArg UserSpace.touched huser) hreports
    · rintro ⟨out', m', u', hread'⟩
      cases hread.symm.trans hread'
      refine ⟨k, htouched, fun _ => rfl, fun hk => .inl ⟨by rw [hk]; rfl, out, u, ?_⟩⟩
      have hle := readChunks_first hpos hv hread hloop
      obtain rfl : m = 0 := by omega
      exact hread
  · intro hp
    obtain ⟨total, eax, t, hloop⟩ := readChunks_returns ops stack 3 hp hv (Nat.zero_le _) (by omega : count < 0 + (count + 1))
    rw [sysRead_run hpos hmax hv, bind_ok hloop]
    exact ⟨_, _, rfl⟩

/-- An open file of a device that always fails. -/
def brokenDevice : VnodeOps Unit where
  read := some fun buf _ _ v => ((Errno.ioError.status, buf, 0), v)
  write := some fun _ _ _ v => ((Errno.ioError.status, 0), v)

def openAtStart : IoState Unit := ⟨(), 0, UserSpace.onePage, []⟩

theorem sysRead_reports_iff_onePage :
    (openAtStart.user.Valid true 0x10000 300 ∧ openAtStart.user.Private) ∧
    ∀ ops : VnodeOps Unit, FirstReadSucceeds ops (fun _ => 0) 300 openAtStart →
      ∃ eax t, sysRead ops (fun _ => 0) 0x10000 (300 : Nat) openAtStart = (.ok eax, t) ∧
        ReadReports ops (fun _ => 0) 0x10000 300 openAtStart eax t := by
  have hv : openAtStart.user.Valid true 0x10000 300 := UserSpace.onePage_valid true (by decide)
  refine ⟨⟨hv, UserSpace.onePage_private⟩, fun ops hfirst => ?_⟩
  obtain ⟨hreports, hreturns⟩ := sysRead_reports_iff ops (fun _ => 0) 0x10000 300 openAtStart
    (by decide) (by decide) hv
  obtain ⟨eax, t, hrun⟩ := hreturns UserSpace.onePage_private
  exact ⟨eax, t, hrun, (hreports eax t hrun).mpr hfirst⟩

/-- The I/O error of the device reaches the caller as the end of the file. -/
theorem sysRead_hides_error : ∃ t,
    sysRead brokenDevice (fun _ => 0) 0x10000 (1 : Nat) openAtStart = (.ok 0, t) ∧
    t.calls = [⟨0, 1, Errno.ioError.status, 0⟩] ∧
    ¬ ReadReports brokenDevice (fun _ => 0) 0x10000 1 openAtStart 0 t := by
  have hv : openAtStart.user.Valid true 0x10000 1 := UserSpace.onePage_valid true (by decide)
  have hread : vfsGenericRead brokenDevice (fun _ => 0) (chunkLength 1 0) openAtStart =
      (.ok (Errno.ioError.status, fun _ => 0, 0),
        { openAtStart with calls := [⟨0, 1, Errno.ioError.status, 0⟩] }) := rfl
  refine ⟨{ openAtStart with calls := [⟨0, 1, Errno.ioError.status, 0⟩] }, ?_, rfl, ?_⟩
  · rw [sysRead_run (by decide) (by decide) hv,
      bind_ok (readChunks_failed (by decide) hread (by decide))]
    rfl
  · exact not_readReports_zero hread (by decide) rfl

/-! ## How far a write moves the offset -/

/-- A vnode write that fails after bytes that `vfs_generic_write` counts. -/
def VnodeCall.PartialFailure (c : VnodeCall) : Prop :=
  c.status ≠ .success ∧ 0 < c.done ∧ c.done ≤ c.len ∧ c.done ≤ 0xFFFFFFFF - c.off

/-- The result is counted from `*out`; the offset follows it unless the call is such a failure. -/
theorem finishTransfer_offset (hoff : s.offset < 2 ^ 32) (len : Nat) (result : Status)
    (done : Nat) :
    ∃ r out t, finishTransfer len result done s = (.ok (r, out), t) ∧ t.user = s.user ∧
      out ≤ len ∧ t.calls = ⟨s.offset, len, result, done⟩ :: s.calls ∧ t.offset < 2 ^ 32 ∧
      (t.offset = s.offset + out ↔ ¬ VnodeCall.PartialFailure ⟨s.offset, len, result, done⟩) ∧
      (r = .success → t.offset = s.offset + out) ∧ (t.offset ≠ s.offset + out → 0 < out) := by
  unfold finishTransfer VnodeCall.PartialFailure
  dsimp only
  split_ifs with hlen hroom hr
  · exact ⟨_, _, _, rfl, rfl, Nat.zero_le _, rfl, hoff, by simp; omega, by simp, by simp⟩
  · exact ⟨_, _, _, rfl, rfl, Nat.zero_le _, rfl, hoff, by simp; omega, by simp, by simp⟩
  · have hsum : u32 (s.offset + done) = s.offset + done := u32_of_lt (by omega)
    exact ⟨_, _, _, rfl, rfl, by omega, rfl, u32_lt _, by simp [hr, hsum], by simp [hsum],
      by simp [hsum]⟩
  · exact ⟨_, _, _, rfl, rfl, by omega, rfl, hoff, by simp [hr]; omega, by simp [hr],
      by simp; omega⟩

theorem vfsGenericWrite_offset (ops : VnodeOps ν) (buf : Bytes) (len : Nat)
    (hoff : s.offset < 2 ^ 32) :
    ∃ r out t new, vfsGenericWrite ops buf len s = (.ok (r, out), t) ∧ t.user = s.user ∧
      out ≤ len ∧ t.calls = new ++ s.calls ∧ t.offset < 2 ^ 32 ∧
      (t.offset = s.offset + out ↔ ∀ c ∈ new, ¬ c.PartialFailure) ∧
      (r = .success → t.offset = s.offset + out) ∧ (t.offset ≠ s.offset + out → 0 < out) := by
  unfold vfsGenericWrite
  cases ops.write with
  | none => exact ⟨_, _, _, [], rfl, rfl, Nat.zero_le _, rfl, hoff, by simp, by simp, by simp⟩
  | some op =>
    obtain ⟨r, out, t, hrun, huser, hle, hcalls, hlt, hiff, hok, hpos⟩ := finishTransfer_offset
      (s := { s with vnode := (op buf s.offset len s.vnode).2 }) hoff len
      (op buf s.offset len s.vnode).1.1 (op buf s.offset len s.vnode).1.2
    refine ⟨r, out, t, [_], ?_, huser, hle, hcalls, hlt, ?_, hok, hpos⟩
    · dsimp only
      rw [bind_run, runVnode, andThen_ok]
      exact hrun
    · simpa using hiff

theorem copyChunk (chunk : Bytes) (hv : s.user.Valid false a count) (htotal : total < count) :
    ∃ buf v, copyFromUser (some chunk) (u32 (a + total)) (chunkLength count total) s.user =
        (.ok (.ok (some buf)), v) ∧ s.user.SameMemory v ∧
      ∀ i < chunkLength count total, buf i = s.user.byte (a + total + i) := by
  have hlen := chunkLength_le count total
  have hbelow := hv.below
  obtain ⟨buf, hcopy, hbuf⟩ := UserSpace.copyFromUser_valid chunk
    (hv.part (i := total) (m := chunkLength count total) (by omega))
  rw [u32_of_lt (by omega)]
  exact ⟨buf, _, hcopy, ⟨rfl, rfl⟩, hbuf⟩

theorem writeChunks_step {r : Status} {out : Nat} {eax : Int} {buf : Bytes} {u : UserSpace}
    (htotal : total < count)
    (hcopy : copyFromUser (some chunk) (u32 (a + total)) (chunkLength count total) s.user =
      (.ok (.ok (some buf)), u))
    (hwrite : vfsGenericWrite ops buf (chunkLength count total) { s with user := u } =
      (.ok (r, out), t))
    (hout : out ≤ chunkLength count total) :
    writeChunks ops a count (n + 1) chunk total eax s =
      if r ≠ .success ∨ out < chunkLength count total then
        (.ok (total + out, totalOr (total + out) r), t)
      else writeChunks ops a count n buf (total + out) eax t := by
  rw [writeChunks, if_pos htotal]
  rw [bind_ok (onUser_run hcopy)]
  dsimp only [Option.getD_some]
  rw [bind_ok hwrite]
  rw [if_neg (by omega)]
  split_ifs <;> rfl

/-- The offset has moved by the bytes that are counted exactly when no vnode write of the loop
failed on a part of its chunk. -/
theorem writeChunks_offset (ops : VnodeOps ν) (chunk : Bytes) (eax : Int)
    (hv : s.user.Valid false a count) (hoff : s.offset < 2 ^ 32)
    (hle : total ≤ count) (hn : count < total + n) :
    ∃ total' eax' t new, writeChunks ops a count n chunk total eax s = (.ok (total', eax'), t) ∧
      t.calls = new ++ s.calls ∧ total ≤ total' ∧ total' ≤ count ∧
      (total' ≠ count → ∃ r, eax' = totalOr total' r) ∧
      (t.offset + total = s.offset + total' ↔ ∀ c ∈ new, ¬ c.PartialFailure) ∧
      (t.offset + total ≠ s.offset + total' → 0 < total') := by
  induction n generalizing chunk total s with
  | zero => omega
  | succ n ih =>
    by_cases htotal : total < count
    · have hlen := chunkLength_le count total
      have hpos := chunkLength_pos htotal
      obtain ⟨buf, v, hcopy, hsame, -⟩ := copyChunk chunk hv htotal
      obtain ⟨r, out, t, new, hwrite, huser, hout, hcalls, hlt, hiff, hok, hsome⟩ :=
        vfsGenericWrite_offset (s := { s with user := v }) ops buf (chunkLength count total) hoff
      rw [writeChunks_step htotal hcopy hwrite hout]
      split_ifs with hstop
      · refine ⟨_, _, _, new, rfl, hcalls, Nat.le_add_right _ _, by omega, fun _ => ⟨r, rfl⟩, ?_, ?_⟩
        · rw [← hiff]
          dsimp only
          omega
        · intro hne
          have := hsome (by dsimp only; omega)
          omega
      · obtain ⟨hsucc, hfull⟩ := not_or.mp hstop
        have hmoved := hok (not_not.mp hsucc)
        have hnone := hiff.mp hmoved
        dsimp only at hmoved
        obtain ⟨total', eax', t', new', hrun, hcalls', hge, hle', heax, hiff', hsome'⟩ :=
          ih (s := t) buf
            (by rw [huser]; exact hsame.valid hv) hlt (by omega : total + out ≤ count) (by omega)
        refine ⟨total', eax', t', new' ++ new, hrun, ?_, by omega, hle', heax, ?_, ?_⟩
        · rw [hcalls', hcalls, List.append_assoc]
        · rw [List.forall_mem_append, ← hiff']
          constructor
          · intro h
            exact ⟨by omega, hnone⟩
          · rintro ⟨h, -⟩
            omega
        · intro hne
          exact hsome' (by omega)
    · have heq : total = count := by omega
      refine ⟨total, eax, s, [], ?_, rfl, le_rfl, hle, fun hne => absurd heq hne, by simp, by simp⟩
      rw [writeChunks, if_neg htotal]
      rfl

theorem sysWrite_run (hpos : 0 < count) (hmax : count ≤ syscallIoMax)
    (hv : s.user.Valid false a count) :
    sysWrite ops stack a count s =
      ((writeChunks ops a count (count + 1) stack 0 4 >>= fun p =>
        pure (if p.1 = count then (p.1 : Int) else p.2) : IoM ν Int) s) := by
  have hnull : ¬ (a = 0 ∨ (count : Int) ≤ 0) := by
    have := hv.notNull
    omega
  rw [sysWrite, if_neg hnull, Int.toNat_natCast, if_neg (by omega),
    bind_ok (onUser_run (UserSpace.userRangeValid_of_valid hv)), if_neg (by decide)]

/-- A positive result is how far the offset has moved exactly when no vnode write of the call
failed on a part of its chunk. -/
theorem sysWrite_advances_iff (ops : VnodeOps ν) (stack : Bytes) (a count : Nat) (s : IoState ν)
    (hpos : 0 < count) (hmax : count ≤ syscallIoMax) (hv : s.user.Valid false a count)
    (hoff : s.offset < 2 ^ 32) :
    ∃ eax t new, sysWrite ops stack a count s = (.ok eax, t) ∧ t.calls = new ++ s.calls ∧
      ((0 < eax → (t.offset : Int) = s.offset + eax) ↔ ∀ c ∈ new, ¬ c.PartialFailure) := by
  obtain ⟨total, eax, t, new, hloop, hcalls, -, hle, heax, hiff, hsome⟩ :=
    writeChunks_offset ops stack 4 hv hoff (Nat.zero_le _)
      (by omega : count < 0 + (count + 1))
  rw [sysWrite_run hpos hmax hv, bind_ok hloop]
  refine ⟨_, t, new, rfl, hcalls, ?_⟩
  rw [← hiff]
  have hresult : (if total = count then (total : Int) else eax) = total ∨
      (total = 0 ∧ (if total = count then (total : Int) else eax) ≤ 0) := by
    split_ifs with heq
    · exact .inl rfl
    · obtain ⟨r, rfl⟩ := heax heq
      unfold totalOr
      split_ifs with hzero
      · exact .inl rfl
      · exact .inr ⟨not_not.mp hzero, r.2⟩
  rcases hresult with h | ⟨hzero, hneg⟩
  · rw [h]
    omega
  · omega

theorem sysWrite_advances_iff_onePage :
    (openAtStart.user.Valid false 0x10000 300 ∧ openAtStart.offset < 2 ^ 32) ∧
    ∃ eax t new, sysWrite brokenDevice (fun _ => 0) 0x10000 (300 : Nat) openAtStart = (.ok eax, t) ∧
      t.calls = new ++ openAtStart.calls ∧
      ((0 < eax → (t.offset : Int) = openAtStart.offset + eax) ↔
        ∀ c ∈ new, ¬ c.PartialFailure) := by
  have hv : openAtStart.user.Valid false 0x10000 300 := UserSpace.onePage_valid false (by decide)
  exact ⟨⟨hv, by decide⟩, sysWrite_advances_iff brokenDevice (fun _ => 0) 0x10000 300 openAtStart
    (by decide) (by decide) hv (by decide)⟩

/-- A device that takes one byte and then fails. -/
def failingDevice : VnodeOps Unit where
  read := none
  write := some fun _ _ _ v => ((Errno.ioError.status, 1), v)

/-- The call reports one byte, and the next write begins at the same offset. -/
theorem sysWrite_counts_failed_byte : ∃ t,
    sysWrite failingDevice (fun _ => 0) 0x10000 (2 : Nat) openAtStart = (.ok 1, t) ∧
    t.calls = [⟨0, 2, Errno.ioError.status, 1⟩] ∧ t.offset = openAtStart.offset := by
  have hv : openAtStart.user.Valid false 0x10000 2 := UserSpace.onePage_valid false (by decide)
  obtain ⟨buf, hcopy, -⟩ := UserSpace.copyFromUser_valid (fun _ => 0) hv
  have hstep : writeChunks failingDevice 0x10000 2 3 (fun _ => 0) 0 4 openAtStart = _ :=
    writeChunks_step (by decide) hcopy rfl (by decide)
  rw [if_pos (.inl (by decide))] at hstep
  rw [sysWrite_run (by decide) (by decide) hv, bind_ok hstep]
  exact ⟨_, rfl, rfl, rfl⟩

end CfKernel.Syscall
