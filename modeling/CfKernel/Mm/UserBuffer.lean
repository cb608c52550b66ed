import CfKernel.Mm.UserCopy

/-!
# Buffers in user memory

A process whose writable pages have frames of their own, none of which holds one of its tables,
sees its memory as an array of bytes: `copy_to_user` changes the bytes of the buffer, nothing else
that the process can write, and leaves the tables as they are. Without that, a copy may change the
very tables it goes through.
-/

namespace CfKernel.Mm

open Lib Lib.Eff Function

def pdeSlot (pd va : Nat) : Nat := pd + 4 * (va >>> 22 &&& 0x3FF)

def pteSlot (mem : Bytes) (pd va : Nat) : Nat :=
  (pdeAt mem pd va &&& (2 ^ 32 - 4096)) + 4 * (va >>> 12 &&& 0x3FF)

/-- A byte of the directory, or of a table that is present in it. -/
def TableByte (mem : Bytes) (pd x : Nat) : Prop :=
  ∃ va, (pdeSlot pd va ≤ x ∧ x < pdeSlot pd va + 4) ∨
    (pdeAt mem pd va &&& pagePresent ≠ 0 ∧ pteSlot mem pd va ≤ x ∧ x < pteSlot mem pd va + 4)

namespace UserSpace

/-- The byte that the process sees at a virtual address. -/
def byte (u : UserSpace) (va : Nat) : UInt8 := u.mem (translate u.mem u.pd va)

def bytes (u : UserSpace) (a n : Nat) : List UInt8 := (List.range n).map fun i => u.byte (a + i)

def Writable (u : UserSpace) (va : Nat) : Prop := va < 2 ^ 32 ∧ UserPage u.mem u.pd true va

structure Private (u : UserSpace) : Prop where
  apart : ∀ va, u.Writable va → ¬ TableByte u.mem u.pd (translate u.mem u.pd va)
  inj : ∀ va va', u.Writable va → u.Writable va' →
    translate u.mem u.pd va = translate u.mem u.pd va' → va = va'

structure Valid (u : UserSpace) (write : Bool) (a n : Nat) : Prop where
  notNull : a ≠ 0
  hasPd : u.pd ≠ 0
  below : a + n ≤ 2 ^ 32
  pages : ∀ i < n, UserPage u.mem u.pd write (a + i)

structure SameMap (u v : UserSpace) : Prop where
  pd : v.pd = u.pd
  page : ∀ write va, UserPage v.mem v.pd write va ↔ UserPage u.mem u.pd write va
  place : ∀ write va, UserPage u.mem u.pd write va →
    translate v.mem v.pd va = translate u.mem u.pd va

variable {u v w : UserSpace} {write : Bool} {a n k : Nat}

namespace SameMap

theorem refl (u : UserSpace) : SameMap u u := ⟨rfl, fun _ _ => Iff.rfl, fun _ _ _ => rfl⟩

theorem trans (h : SameMap u v) (h' : SameMap v w) : SameMap u w where
  pd := h'.pd.trans h.pd
  page write va := (h'.page write va).trans (h.page write va)
  place write va hva := (h'.place write va ((h.page write va).mpr hva)).trans (h.place write va hva)

theorem valid (h : SameMap u v) (hu : u.Valid write a n) : v.Valid write a n where
  notNull := hu.notNull
  hasPd := h.pd ▸ hu.hasPd
  below := hu.below
  pages i hi := (h.page write _).mpr (hu.pages i hi)

theorem writable (h : SameMap u v) (va : Nat) : v.Writable va ↔ u.Writable va :=
  and_congr_right fun _ => h.page true va

end SameMap

theorem Valid.part (h : u.Valid write a n) {i m : Nat} (him : i + m ≤ n) :
    u.Valid write (a + i) m where
  notNull := by have := h.notNull; omega
  hasPd := h.hasPd
  below := by have := h.below; omega
  pages j hj := by rw [Nat.add_assoc]; exact h.pages _ (by omega)

theorem Valid.writable (h : u.Valid true a n) {i : Nat} (hi : i < n) : u.Writable (a + i) :=
  ⟨by have := h.below; omega, h.pages i hi⟩

end UserSpace

variable {u : UserSpace} {mem : Bytes} {pd a n x : Nat} {write : Bool} {b : UInt8}

section Store

variable (hx : ¬ TableByte mem pd x) (va : Nat)

include hx

theorem pdeAt_update : pdeAt (update mem x b) pd va = pdeAt mem pd va := by
  apply le32_congr
  intro k hk
  apply update_of_ne
  rintro rfl
  exact hx ⟨va, .inl ⟨Nat.le_add_right _ _, Nat.add_lt_add_left hk _⟩⟩

theorem pteAt_update (hpde : pdeAt mem pd va &&& pagePresent ≠ 0) :
    pteAt (update mem x b) pd va = pteAt mem pd va := by
  rw [pteAt, pdeAt_update hx]
  apply le32_congr
  intro k hk
  apply update_of_ne
  rintro rfl
  exact hx ⟨va, .inr ⟨hpde, Nat.le_add_right _ _, Nat.add_lt_add_left hk _⟩⟩

theorem userPage_update : UserPage (update mem x b) pd write va ↔ UserPage mem pd write va := by
  rw [UserPage, UserPage, pdeAt_update hx]
  refine and_congr_right fun hpde => ?_
  rw [pteAt_update hx va hpde.1]

theorem translate_update (hpde : pdeAt mem pd va &&& pagePresent ≠ 0) :
    translate (update mem x b) pd va = translate mem pd va := by
  rw [translate, translate, pteAt_update hx va hpde]

end Store

theorem tableByte_update (hx : ¬ TableByte mem pd x) (y : Nat) :
    TableByte (update mem x b) pd y ↔ TableByte mem pd y := by
  simp only [TableByte, pteSlot, pdeAt_update hx]

namespace UserSpace

def stored (u : UserSpace) (va : Nat) (b : UInt8) : UserSpace :=
  { u with mem := update u.mem (translate u.mem u.pd va) b, touched := va :: u.touched }

variable {va : Nat} {src : Bytes}

namespace Private

variable (h : u.Private) (hva : u.Writable va)

include h hva

theorem stored_sameMap (b : UInt8) : SameMap u (u.stored va b) where
  pd := rfl
  page _ va' := userPage_update (h.apart va hva) va'
  place _ va' hva' := translate_update (h.apart va hva) va' hva'.1.1

theorem stored_byte (b : UInt8) {va' : Nat} (hva' : u.Writable va') :
    (u.stored va b).byte va' = if va' = va then b else u.byte va' := by
  rw [byte, (h.stored_sameMap hva b).place true va' hva'.2, byte]
  split_ifs with heq
  · rw [heq]
    exact update_self ..
  · exact update_of_ne (fun hp => heq (h.inj va' va hva' hva hp)) ..

theorem stored (b : UInt8) : (u.stored va b).Private := by
  have hsame := h.stored_sameMap hva b
  constructor
  · intro va' hva'
    have hold := (hsame.writable va').mp hva'
    rw [hsame.place true va' hold.2]
    exact fun ht => h.apart va' hold ((tableByte_update (h.apart va hva) _).mp ht)
  · intro va' va'' hva' hva'' hp
    have hold := (hsame.writable va').mp hva'
    have hold' := (hsame.writable va'').mp hva''
    rw [hsame.place true va' hold.2, hsame.place true va'' hold'.2] at hp
    exact h.inj va' va'' hold hold' hp

end Private

/-- What a copy of `n` bytes to `a` does to the memory that the process can write. -/
structure Delivered (u v : UserSpace) (a n : Nat) (src : Bytes) : Prop where
  same : SameMap u v
  isPrivate : v.Private
  touched : v.touched = touchedBytes a n ++ u.touched
  byte : ∀ va, u.Writable va → v.byte va = if a ≤ va ∧ va < a + n then src (va - a) else u.byte va

theorem Delivered.none (h : u.Private) : u.Delivered u a 0 src where
  same := .refl u
  isPrivate := h
  touched := rfl
  byte va _ := by rw [if_neg (by omega)]

theorem Delivered.congr {v : UserSpace} {src' : Bytes} (h : u.Delivered v a n src)
    (hsrc : ∀ i < n, src i = src' i) : u.Delivered v a n src' where
  same := h.same
  isPrivate := h.isPrivate
  touched := h.touched
  byte va hva := by
    rw [h.byte va hva]
    exact ite_congr rfl (fun hin => hsrc _ (by omega)) fun _ => rfl

theorem Delivered.trans {v w : UserSpace} {m : Nat}
    (h : u.Delivered v a m src) (h' : v.Delivered w (a + m) n fun i => src (m + i)) :
    u.Delivered w a (m + n) src where
  same := h.same.trans h'.same
  isPrivate := h'.isPrivate
  touched := by rw [h'.touched, h.touched, touchedBytes_add, List.append_assoc]
  byte va hva := by
    rw [h'.byte va ((h.same.writable va).mpr hva), h.byte va hva]
    by_cases hsecond : a + m ≤ va ∧ va < a + m + n
    · rw [if_pos hsecond, if_pos (by omega)]
      congr 1
      omega
    · rw [if_neg hsecond]
      exact if_congr (by omega) rfl rfl

theorem memcpyToUser_delivers (src : Bytes) {k : Nat} (h : u.Private)
    (hw : ∀ i < n, u.Writable (a + (k + i))) :
    ∃ v, memcpyToUser a src n k u = (.ok (), v) ∧
      Delivered u v (a + k) n fun i => src (k + i) := by
  induction n generalizing k u with
  | zero => exact ⟨u, rfl, .none h⟩
  | succ n ih =>
    have hk : u.Writable (a + k) := hw 0 (Nat.succ_pos n)
    have hsame := h.stored_sameMap hk (src k)
    obtain ⟨v, hrun, hd⟩ := ih (k := k + 1) (h.stored hk (src k)) fun i hi => by
      rw [hsame.writable, Nat.add_assoc k 1 i, Nat.add_comm 1 i]
      exact hw (i + 1) (Nat.succ_lt_succ hi)
    have hstore : userStore (u32 (a + k)) (src k) u = (.ok (), u.stored (a + k) (src k)) := by
      rw [u32_of_lt hk.1, userStore, if_pos hk.2.mapped]
      rfl
    refine ⟨v, ?_, hsame.trans hd.same, hd.isPrivate, ?_, fun va hva => ?_⟩
    · rw [memcpyToUser, bind_ok hstore, hrun]
    · rw [hd.touched, touchedBytes_succ, List.append_assoc]
      rfl
    · rw [hd.byte va ((hsame.writable va).mpr hva), h.stored_byte hk (src k) hva]
      by_cases hfirst : va = a + k
      · rw [if_neg (by omega), if_pos hfirst, if_pos (by omega)]
        congr
        omega
      · rw [if_neg hfirst]
        by_cases hin : a + (k + 1) ≤ va ∧ va < a + (k + 1) + n
        · rw [if_pos hin, if_pos (by omega)]
          congr 1
          omega
        · rw [if_neg hin, if_neg (by omega)]

theorem userRangeValid_of_valid (h : u.Valid write a n) :
    userRangeValid a n write u = (.ok true, u) := by
  obtain ⟨b, hrun, hb⟩ := pagingUserRangeValid_spec u.mem u.pd write a n
  have htrue : b = true := by
    apply hb.mpr
    refine ⟨h.hasPd, h.below, n.eq_zero_or_pos.imp id fun hn page hlo hhi => ?_⟩
    by_cases hstart : a ≤ page * 4096
    · have hp := h.pages (page * 4096 - a) (by omega)
      rwa [Nat.add_sub_cancel' hstart] at hp
    · have hp := h.pages 0 (by omega)
      rw [← userPage_base] at hp
      rwa [show page = (a + 0) / 4096 by omega]
  rw [userRangeValid, hrun, htrue]

theorem valid_of_userRangeValid (ha : a ≠ 0) (h : userRangeValid a n write u = (.ok true, u)) :
    n ≠ 0 → u.Valid write a n := by
  intro hn
  obtain ⟨b, hrun, hb⟩ := pagingUserRangeValid_spec u.mem u.pd write a n
  rw [userRangeValid, hrun] at h
  obtain rfl : b = true := by simpa using h
  obtain ⟨hpd, hend, hzero | hrange⟩ := hb.mp rfl
  · exact absurd hzero hn
  · refine ⟨ha, hpd, hend, fun i hi => ?_⟩
    rw [← userPage_base]
    exact hrange _ (by omega) (by omega)

theorem copyToUser_valid (hv : u.Valid true a n) :
    copyToUser a (some src) n u =
      (memcpyToUser a src n 0 >>= fun _ => pure (.ok ()) : UserM _) u := by
  have hnull : ¬ ((a = 0 ∨ (some src).isNone) ∧ n ≠ 0) := by simp [hv.notNull]
  rw [copyToUser, if_neg hnull, bind_ok (userRangeValid_of_valid hv), if_neg (by decide)]

theorem copyToUser_delivers (src : Bytes) (h : u.Private) (hv : u.Valid true a n) :
    ∃ v, copyToUser a (some src) n u = (.ok (.ok ()), v) ∧ Delivered u v a n src := by
  have hw : ∀ i < n, u.Writable (a + (0 + i)) := by
    intro i hi
    rw [Nat.zero_add]
    exact hv.writable hi
  obtain ⟨v, hrun, hd⟩ := memcpyToUser_delivers src h hw
  simp only [Nat.zero_add, Nat.add_zero] at hd
  exact ⟨v, by rw [copyToUser_valid hv, bind_ok hrun]; rfl, hd⟩

theorem copyToUser_no_error (hv : u.Valid true a n) (e : Errno) :
    (copyToUser a (some src) n u).1 ≠ .ok (.error e) := by
  rw [copyToUser_valid hv, bind_run]
  rcases memcpyToUser a src n 0 u with ⟨_ | _, v⟩ <;> exact nofun

theorem copyFromUser_valid (dst : Bytes) (hv : u.Valid false a n) :
    ∃ out, copyFromUser (some dst) a n u =
        (.ok (.ok (some out)), { u with touched := touchedBytes a n ++ u.touched }) ∧
      ∀ i < n, out i = u.byte (a + i) := by
  have hend : a + (0 + n) ≤ 2 ^ 32 := by rw [Nat.zero_add]; exact hv.below
  obtain ⟨out, hrun, hout⟩ := memcpyFromUser_run (s := u) dst hend fun i hi =>
    hv.pages i (by omega)
  refine ⟨out, ?_, fun i hi => ?_⟩
  · have hnull : ¬ (((some dst).isNone ∨ a = 0) ∧ n ≠ 0) := by simp [hv.notNull]
    unfold copyFromUser
    rw [if_neg hnull, bind_ok (userRangeValid_of_valid hv), if_neg (by decide)]
    dsimp only
    rw [bind_ok hrun]
    rfl
  · rw [hout i, if_pos (by omega)]
    rfl

theorem length_bytes (u : UserSpace) (a n : Nat) : (u.bytes a n).length = n := by simp [bytes]

theorem bytes_add (u : UserSpace) (a m n : Nat) :
    u.bytes a (m + n) = u.bytes a m ++ u.bytes (a + m) n := by
  simp only [bytes, List.range_add, List.map_append, List.map_map, comp_def, Nat.add_assoc]

/-- The same directory over the same memory, whatever was touched. -/
def SameMemory (u v : UserSpace) : Prop := v.mem = u.mem ∧ v.pd = u.pd

namespace SameMemory

variable {v w : UserSpace}

section

variable (h : u.SameMemory v)
include h

theorem trans (h' : v.SameMemory w) : u.SameMemory w :=
  ⟨h'.1.trans h.1, h'.2.trans h.2⟩

theorem bytes (a n : Nat) : v.bytes a n = u.bytes a n := by
  simp only [UserSpace.bytes, byte, h.1, h.2]

theorem valid (hu : u.Valid write a n) : v.Valid write a n where
  notNull := hu.notNull
  hasPd := h.2 ▸ hu.hasPd
  below := hu.below
  pages i hi := by rw [h.1, h.2]; exact hu.pages i hi

theorem isPrivate (hu : u.Private) : v.Private := by
  obtain ⟨mem, pd, _⟩ := v
  obtain ⟨rfl, rfl⟩ := h
  exact ⟨hu.apart, hu.inj⟩

end

end SameMemory

/-- A process with one page, at `0x10000`: the directory is at `0x1000`, its table at `0x2000` and
the frame at `0x3000`. -/
def onePage : UserSpace where
  mem := fun x =>
    if x = 0x1000 ∨ x = 0x2040 then 0x07
    else if x = 0x1001 then 0x20
    else if x = 0x2041 then 0x30
    else 0
  pd := 0x1000
  touched := []

theorem onePage_valid (write : Bool) (hn : n ≤ 4096) : onePage.Valid write 0x10000 n where
  notNull := by decide
  hasPd := by decide
  below := by omega
  pages i hi := by
    rw [← userPage_base, show (0x10000 + i) / 4096 * 4096 = 0x10000 by omega]
    cases write <;> decide +kernel

theorem le32_onePage {o : Nat} (ho : o % 4 = 0) (h : o ≠ 0x1000) (h' : o ≠ 0x2040) :
    le32 onePage.mem o = 0 := by
  have hzero : ∀ k < 4, onePage.mem (o + k) = 0 := by
    intro k hk
    simp only [onePage]
    rw [if_neg (by omega), if_neg (by omega), if_neg (by omega)]
  rw [le32_congr (c := fun _ => 0) hzero]
  simp [le32]

theorem onePage_pde {va : Nat} (h : pdeAt onePage.mem onePage.pd va &&& pagePresent ≠ 0) :
    va >>> 22 &&& 0x3FF = 0 ∧ pdeAt onePage.mem onePage.pd va = 0x2007 := by
  have hlt : va >>> 22 &&& 0x3FF < 1024 := Nat.and_lt_two_pow _ (n := 10) (by decide)
  have hfirst : va >>> 22 &&& 0x3FF = 0 := by
    by_contra hne
    apply h
    rw [pdeAt, show onePage.pd = 0x1000 from rfl, le32_onePage (by omega) (by omega) (by omega)]
    rfl
  refine ⟨hfirst, ?_⟩
  rw [pdeAt, hfirst]
  decide +kernel

theorem onePage_writable {va : Nat} (h : onePage.Writable va) :
    va / 4096 = 16 ∧ translate onePage.mem onePage.pd va = 0x3000 + va % 4096 := by
  obtain ⟨hlt, ⟨hpde, -⟩, ⟨hpte, -⟩⟩ := h
  obtain ⟨hdir, hentry⟩ := onePage_pde hpde
  have htab : va >>> 12 &&& 0x3FF = va / 4096 % 1024 := by
    rw [Nat.shiftRight_eq_div_pow, show 0x3FF = 2 ^ 10 - 1 from rfl, Nat.and_two_pow_sub_one_eq_mod]
  have hidx : va / 4096 % 1024 = 16 := by
    by_contra hne
    apply hpte
    rw [pteAt, hentry, htab, show (0x2007 &&& (2 ^ 32 - 4096) : Nat) = 0x2000 by decide,
      le32_onePage (by omega) (by omega) (by omega)]
    rfl
  have hlow : va / 4096 / 1024 = 0 := by
    rw [Nat.shiftRight_eq_div_pow, show 0x3FF = 2 ^ 10 - 1 from rfl,
      Nat.and_two_pow_sub_one_eq_mod] at hdir
    omega
  refine ⟨by omega, ?_⟩
  rw [translate, pteAt, hentry, htab, hidx]
  congr 1

theorem onePage_private : onePage.Private where
  apart va hva := by
    rw [(onePage_writable hva).2]
    rintro ⟨va', hdir | ⟨hpde, htab⟩⟩
    · have hlt : va' >>> 22 &&& 0x3FF < 1024 := Nat.and_lt_two_pow _ (n := 10) (by decide)
      simp only [pdeSlot, show onePage.pd = 0x1000 from rfl] at hdir
      omega
    · have hlt : va' >>> 12 &&& 0x3FF < 1024 := Nat.and_lt_two_pow _ (n := 10) (by decide)
      rw [pteSlot, (onePage_pde hpde).2,
        show (0x2007 &&& (2 ^ 32 - 4096) : Nat) = 0x2000 by decide] at htab
      omega
  inj va va' hva hva' heq := by
    obtain ⟨hpage, hplace⟩ := onePage_writable hva
    obtain ⟨hpage', hplace'⟩ := onePage_writable hva'
    omega

end UserSpace

end CfKernel.Mm
