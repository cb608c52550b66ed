import CfKernel.Mm.PageTables
import CfKernel.Syscall.Processes

/-!
# Pointers from user space

`paging_user_range_valid` walks the two levels of page tables over a range that a process names, and
`copy_from_user` and `copy_to_user` rely on it alone. The tables are words in physical memory with
any contents; the kernel reaches them at their physical addresses.
-/

namespace CfKernel.Mm

open Lib Lib.Eff Function

/-- The turns of the loop from `page` on; `none` when `n` turns were not enough. -/
def userPagesValid (mem : Bytes) (pd : Nat) (write : Bool) (lastPage : Nat) :
    Nat → Nat → Option Bool
  | 0, _ => none
  | n + 1, page =>
    if ¬ UserEntry write (pdeAt mem pd page) then some false
    else if ¬ UserEntry write (pteAt mem pd page) then some false
    else if page = lastPage then some true
    else userPagesValid mem pd write lastPage n (u32 (page + 4096))

/-- A 32-bit space has `2 ^ 20` pages, so more turns would go around. -/
def pagingUserRangeValid (mem : Bytes) (pd address length : Nat) (write : Bool) : Option Bool :=
  let stop := address + length
  if pd = 0 ∨ 2 ^ 32 < stop then some false
  else if length = 0 then some true
  else userPagesValid mem pd write ((stop - 1) &&& (2 ^ 64 - 4096)) (2 ^ 20) (alignDown address 4096)

/-- Every page that `[address, address + length)` meets is a user page. -/
def UserRange (mem : Bytes) (pd : Nat) (write : Bool) (address length : Nat) : Prop :=
  ∀ page, page * 4096 < address + length → address < (page + 1) * 4096 →
    UserPage mem pd write (page * 4096)

variable {mem : Bytes} {pd : Nat} {write : Bool}

theorem userPagesValid_spec (mem : Bytes) (pd : Nat) (write : Bool) {n p q : Nat} (hpq : p ≤ q)
    (hq : q < 2 ^ 20) (hn : q < p + n) :
    ∃ b, userPagesValid mem pd write (q * 4096) n (p * 4096) = some b ∧
      (b = true ↔ ∀ page, p ≤ page → page ≤ q → UserPage mem pd write (page * 4096)) := by
  induction n generalizing p with
  | zero => omega
  | succ n ih =>
    rw [userPagesValid]
    by_cases hpde : UserEntry write (pdeAt mem pd (p * 4096))
    · rw [if_neg (not_not.mpr hpde)]
      by_cases hpte : UserEntry write (pteAt mem pd (p * 4096))
      · rw [if_neg (not_not.mpr hpte)]
        rcases hpq.eq_or_lt with rfl | hlt
        · refine ⟨true, if_pos rfl, iff_of_true rfl fun page hlo hhi => ?_⟩
          obtain rfl : page = p := le_antisymm hhi hlo
          exact ⟨hpde, hpte⟩
        · obtain ⟨b, hrun, hb⟩ := ih (p := p + 1) hlt (by omega)
          have hnext : u32 (p * 4096 + 4096) = (p + 1) * 4096 := by
            rw [u32_of_lt (by omega), Nat.add_mul, Nat.one_mul]
          rw [if_neg (by omega), hnext]
          refine ⟨b, hrun, hb.trans ⟨fun h page hlo hhi => ?_, fun h page hlo hhi => ?_⟩⟩
          · rcases hlo.eq_or_lt with rfl | hlo
            · exact ⟨hpde, hpte⟩
            · exact h page hlo hhi
          · exact h page (by omega) hhi
      · rw [if_pos hpte]
        exact ⟨false, rfl, iff_of_false nofun fun h => hpte (h p le_rfl hpq).2⟩
    · rw [if_pos hpde]
      exact ⟨false, rfl, iff_of_false nofun fun h => hpde (h p le_rfl hpq).1⟩

theorem pagingUserRangeValid_spec (mem : Bytes) (pd : Nat) (write : Bool) (address length : Nat) :
    ∃ b, pagingUserRangeValid mem pd address length write = some b ∧
      (b = true ↔ pd ≠ 0 ∧ address + length ≤ 2 ^ 32 ∧
        (length = 0 ∨ UserRange mem pd write address length)) := by
  unfold pagingUserRangeValid
  by_cases hbad : pd = 0 ∨ 2 ^ 32 < address + length
  · rw [if_pos hbad]
    refine ⟨false, rfl, iff_of_false nofun fun h => ?_⟩
    rcases hbad with hpd | hend
    · exact h.1 hpd
    · exact absurd h.2.1 (not_le.mpr hend)
  rw [if_neg hbad]
  rw [not_or, not_lt] at hbad
  by_cases hlen : length = 0
  · rw [if_pos hlen]
    exact ⟨true, rfl, iff_of_true rfl ⟨hbad.1, hbad.2, .inl hlen⟩⟩
  have hlast : (address + length - 1) &&& (2 ^ 64 - 4096) = (address + length - 1) / 4096 * 4096 :=
    and_highMask (k := 12) (m := 52) (by omega)
  rw [if_neg hlen, hlast, alignDown_page (by omega)]
  obtain ⟨b, hrun, hb⟩ := userPagesValid_spec mem pd write (n := 2 ^ 20) (p := address / 4096)
    (q := (address + length - 1) / 4096) (by omega) (by omega) (by omega)
  refine ⟨b, hrun, hb.trans ⟨fun h => ⟨hbad.1, hbad.2, .inr fun page hlo hhi => ?_⟩, ?_⟩⟩
  · exact h page (by omega) (by omega)
  · rintro ⟨-, -, hzero | hrange⟩ page hlo hhi
    · exact absurd hzero hlen
    · exact hrange page (by omega) (by omega)

/-! ## Copies -/

/-- A process's directory over physical memory, with the virtual addresses the kernel has accessed
on behalf of the process, the last first. -/
structure UserSpace where
  mem : Bytes
  /-- `proc_current()->pd`; 0 is `NULL`. -/
  pd : Nat
  touched : List Nat

abbrev UserM := Eff Stop UserSpace

def UserSpace.Mapped (s : UserSpace) (va : Nat) : Prop :=
  pdeAt s.mem s.pd va &&& pagePresent ≠ 0 ∧ pteAt s.mem s.pd va &&& pagePresent ≠ 0

instance (s : UserSpace) (va : Nat) : Decidable (s.Mapped va) :=
  inferInstanceAs (Decidable (_ ∧ _))

/-- A load by the kernel: only a page that is not present stops it. -/
def userLoad (va : Nat) : UserM UInt8 := fun s =>
  if s.Mapped va then
    (.ok (s.mem (translate s.mem s.pd va)), { s with touched := va :: s.touched })
  else (.error .pageFault, s)

def userStore (va : Nat) (x : UInt8) : UserM Unit := fun s =>
  if s.Mapped va then
    (.ok (), { s with
      mem := update s.mem (translate s.mem s.pd va) x, touched := va :: s.touched })
  else (.error .pageFault, s)

/-- `memcpy` from user memory, from byte `k` on with `n` bytes left. -/
def memcpyFromUser (src : Nat) : Nat → Nat → Bytes → UserM Bytes
  | 0, _, dst => pure dst
  | n + 1, k, dst => do
    let x ← userLoad (u32 (src + k))
    memcpyFromUser src n (k + 1) (update dst k x)

def memcpyToUser (dst : Nat) (src : Bytes) : Nat → Nat → UserM Unit
  | 0, _ => pure ()
  | n + 1, k => do
    userStore (u32 (dst + k)) (src k)
    memcpyToUser dst src n (k + 1)

def userRangeValid (address length : Nat) (write : Bool) : UserM Bool := fun s =>
  match pagingUserRangeValid s.mem s.pd address length write with
  | none => (.error .endless, s)
  | some b => (.ok b, s)

/-- `copy_from_user` into the buffer `kernelDst`; `none` is `NULL`. -/
def copyFromUser (kernelDst : Option Bytes) (userSrc length : Nat) :
    UserM (Except Errno (Option Bytes)) :=
  if (kernelDst.isNone ∨ userSrc = 0) ∧ length ≠ 0 then pure (.error .badAddress)
  else do
    if ¬ (← userRangeValid userSrc length false) then pure (.error .badAddress)
    else match kernelDst with
      | none => pure (.ok none)
      | some dst => do
        let out ← memcpyFromUser userSrc length 0 dst
        pure (.ok (some out))

def copyToUser (userDst : Nat) (kernelSrc : Option Bytes) (length : Nat) :
    UserM (Except Errno Unit) :=
  if (userDst = 0 ∨ kernelSrc.isNone) ∧ length ≠ 0 then pure (.error .badAddress)
  else do
    if ¬ (← userRangeValid userDst length true) then pure (.error .badAddress)
    else match kernelSrc with
      | none => pure (.ok ())
      | some src => do
        memcpyToUser userDst src length 0
        pure (.ok ())

variable {s t : UserSpace} {a n k : Nat}

theorem userPage_base (mem : Bytes) (pd : Nat) (write : Bool) (va : Nat) :
    UserPage mem pd write (va / 4096 * 4096) ↔ UserPage mem pd write va := by
  have h12 : (va / 4096 * 4096) >>> 12 = va >>> 12 := by
    rw [Nat.shiftRight_eq_div_pow, Nat.shiftRight_eq_div_pow]
    omega
  have h22 : (va / 4096 * 4096) >>> 22 = va >>> 22 := by
    rw [Nat.shiftRight_eq_div_pow, Nat.shiftRight_eq_div_pow]
    omega
  have hpde : pdeAt mem pd (va / 4096 * 4096) = pdeAt mem pd va := by rw [pdeAt, pdeAt, h22]
  have hpte : pteAt mem pd (va / 4096 * 4096) = pteAt mem pd va := by
    rw [pteAt, pteAt, h12, hpde]
  rw [UserPage, UserPage, hpde, hpte]

theorem userRangeValid_run (s : UserSpace) (address length : Nat) (write : Bool) :
    ∃ b, userRangeValid address length write s = (.ok b, s) ∧
      (b = true → address + length ≤ 2 ^ 32 ∧
        ∀ i < length, UserPage s.mem s.pd write (address + i)) := by
  obtain ⟨b, hrun, hb⟩ := pagingUserRangeValid_spec s.mem s.pd write address length
  refine ⟨b, by rw [userRangeValid, hrun], fun htrue => ?_⟩
  obtain ⟨-, hend, hrange⟩ := hb.mp htrue
  refine ⟨hend, fun i hi => ?_⟩
  rcases hrange with hzero | hrange
  · omega
  · rw [← userPage_base]
    exact hrange _ (by omega) (by omega)

theorem UserPage.mapped (h : UserPage s.mem s.pd write a) : s.Mapped a := ⟨h.1.1, h.2.1⟩

/-- The addresses of `n` bytes from `a` on, the last first. -/
def touchedBytes (a n : Nat) : List Nat := ((List.range n).map (a + ·)).reverse

theorem touchedBytes_succ (a n : Nat) : touchedBytes a (n + 1) = touchedBytes (a + 1) n ++ [a] := by
  rw [touchedBytes, List.range_succ_eq_map, List.map_cons, List.map_map, List.reverse_cons,
    touchedBytes, Nat.add_zero]
  congr 3
  funext i
  exact (Nat.add_right_comm a 1 i).symm

theorem touchedBytes_add (a m n : Nat) :
    touchedBytes a (m + n) = touchedBytes (a + m) n ++ touchedBytes a m := by
  induction m generalizing a with
  | zero => simp [touchedBytes]
  | succ m ih =>
    rw [Nat.add_right_comm, touchedBytes_succ, ih, touchedBytes_succ, List.append_assoc,
      Nat.add_assoc a 1 m, Nat.add_comm 1 m]

theorem length_touchedBytes (a n : Nat) : (touchedBytes a n).length = n := by simp [touchedBytes]

theorem memcpyFromUser_run {src : Nat} (dst : Bytes) (hend : src + (k + n) ≤ 2 ^ 32)
    (h : ∀ i < k + n, UserPage s.mem s.pd false (src + i)) :
    ∃ out, memcpyFromUser src n k dst s =
        (.ok out, { s with touched := touchedBytes (src + k) n ++ s.touched }) ∧
      ∀ i, out i = if k ≤ i ∧ i < k + n then s.mem (translate s.mem s.pd (src + i)) else dst i := by
  induction n generalizing k dst s with
  | zero => exact ⟨dst, rfl, fun i => by rw [if_neg (by omega)]⟩
  | succ n ih =>
    have hload : userLoad (u32 (src + k)) s = (.ok (s.mem (translate s.mem s.pd (src + k))),
        { s with touched := (src + k) :: s.touched }) := by
      rw [u32_of_lt (by omega), userLoad, if_pos (h k (by omega)).mapped]
    obtain ⟨out, hrun, hout⟩ := ih (s := { s with touched := (src + k) :: s.touched }) (k := k + 1)
      (update dst k (s.mem (translate s.mem s.pd (src + k)))) (by omega)
      fun i hi => h i (by omega)
    refine ⟨out, ?_, fun i => ?_⟩
    · rw [memcpyFromUser, bind_ok hload, hrun, touchedBytes_succ, List.append_assoc]
      rfl
    · rw [hout]
      by_cases hik : i = k
      · rw [hik, if_neg (by omega), if_pos (by omega), update_self]
      · rw [update_of_ne hik]
        exact if_congr (by omega) rfl rfl

/-- Stores may change the tables themselves; whatever happens, they go to the range in its order. -/
theorem memcpyToUser_run {dst : Nat} (src : Bytes) (hend : dst + (k + n) ≤ 2 ^ 32) (s : UserSpace) :
    ∃ r t j, memcpyToUser dst src n k s = (r, t) ∧ t.pd = s.pd ∧ j ≤ n ∧
      t.touched = touchedBytes (dst + k) j ++ s.touched ∧ (r = .ok () → j = n) := by
  induction n generalizing k s with
  | zero => exact ⟨.ok (), s, 0, rfl, rfl, le_rfl, rfl, fun _ => rfl⟩
  | succ n ih =>
    rw [memcpyToUser, bind_run, u32_of_lt (by omega), userStore]
    split_ifs
    · obtain ⟨r, t, j, hrun, hpd, hj, htouched, hok⟩ := ih (k := k + 1) (by omega)
        { s with mem := update s.mem (translate s.mem s.pd (dst + k)) (src k)
                 touched := (dst + k) :: s.touched }
      refine ⟨r, t, j + 1, hrun, hpd, by omega, ?_, fun h => by rw [hok h]⟩
      rw [htouched, touchedBytes_succ, List.append_assoc]
      rfl
    · exact ⟨.error .pageFault, s, 0, rfl, rfl, Nat.zero_le _, rfl, nofun⟩

/-- `copy_to_user` fails and leaves everything as it was, or has written bytes of the range, all of
them user bytes that may be written; when it returns, all of the range. -/
theorem copyToUser_run (dst : Nat) (src : Option Bytes) (length : Nat) (s : UserSpace) :
    (∃ e, copyToUser dst src length s = (.ok (.error e), s)) ∨
    ∃ r t j, copyToUser dst src length s = (r, t) ∧
      t.touched = touchedBytes dst j ++ s.touched ∧ j ≤ length ∧ (r = .ok (.ok ()) → j = length) ∧
      (∀ e, r ≠ .ok (.error e)) ∧ ∀ i < length, UserPage s.mem s.pd true (dst + i) := by
  by_cases hnull : (dst = 0 ∨ src.isNone) ∧ length ≠ 0
  · refine .inl ⟨.badAddress, ?_⟩
    unfold copyToUser
    rw [if_pos hnull]
    rfl
  obtain ⟨b, hvalid, hrange⟩ := userRangeValid_run s dst length true
  unfold copyToUser
  rw [if_neg hnull, bind_ok hvalid]
  cases b with
  | false => exact .inl ⟨.badAddress, rfl⟩
  | true =>
    obtain ⟨hend, hpages⟩ := hrange rfl
    rw [if_neg (by decide)]
    refine .inr ?_
    cases src with
    | none =>
      have hzero : length = 0 := by
        by_contra hne
        exact hnull ⟨.inr rfl, hne⟩
      rw [hzero]
      exact ⟨.ok (.ok ()), s, 0, rfl, rfl, le_rfl, fun _ => rfl, nofun, nofun⟩
    | some src =>
      have hend' : dst + (0 + length) ≤ 2 ^ 32 := by rwa [Nat.zero_add]
      obtain ⟨r, t, j, hrun, -, hj, htouched, hok⟩ := memcpyToUser_run src hend' s
      dsimp only
      rw [bind_run, hrun]
      cases r with
      | error e => exact ⟨.error e, t, j, rfl, htouched, hj, nofun, nofun, hpages⟩
      | ok u => exact ⟨.ok (.ok ()), t, j, rfl, htouched, hj, fun _ => hok rfl, nofun, hpages⟩

/-- The bytes that a process's tables let the kernel read, as the path calls see them. -/
def userMemory (mem : Bytes) (pd : Nat) : Syscall.UserMemory := fun a =>
  if pd ≠ 0 ∧ a < 2 ^ 32 ∧ UserPage mem pd false a then some (mem (translate mem pd a)) else none

end CfKernel.Mm
