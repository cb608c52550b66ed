import CfKernel.Block.Partition

/-!
# The ATA driver

The polled transfers of `ata.c`, one sector at a time. The drive is seen through its ports: the
status register reads as a stream of bytes nobody vouches for, and a command goes to the sector that
the address registers hold. `ata` shows that the driver is one of those the block layer allows.
-/

namespace CfKernel.Block

open Lib Lib.Eff Function

structure AtaRegs where
  devSel : Nat
  lba0 : Nat
  lba1 : Nat
  lba2 : Nat

/-- The sector that a 28-bit command addresses. -/
def AtaRegs.address (r : AtaRegs) : Nat :=
  r.lba0 + r.lba1 * 2 ^ 8 + r.lba2 * 2 ^ 16 + r.devSel % 16 * 2 ^ 24

structure AtaDrive where
  media : Nat → Bytes
  regs : AtaRegs
  /-- Sectors that got a command, the last first. -/
  commands : List Nat
  /-- What the coming reads of the status register return. -/
  status : Nat → UInt8

abbrev AtaM := Eff Errno AtaDrive

def in8Status : AtaM UInt8 := fun s =>
  (.ok (s.status 0), { s with status := fun n => s.status (n + 1) })

/-- The polls of `ata_wait_not_busy`; `0x80` is `ATA_SR_BSY`, `0x21` error and device fault. -/
def ataPollNotBusy : Nat → AtaM Unit
  | 0 => fail .timedOut
  | n + 1 => do
    let status ← in8Status
    if status = 0 ∨ status = 0xFF then fail .deviceNotFound
    else if status &&& 0x80 = 0 then
      if status &&& 0x21 ≠ 0 then fail .ioError else pure ()
    else ataPollNotBusy n

/-- The polls of `ata_wait_drq`; `0x08` is `ATA_SR_DRQ`. -/
def ataPollDrq : Nat → AtaM Unit
  | 0 => fail .timedOut
  | n + 1 => do
    let status ← in8Status
    if status = 0 ∨ status = 0xFF then fail .deviceNotFound
    else if status &&& 0x21 ≠ 0 then fail .ioError
    else if status &&& 0x80 = 0 ∧ status &&& 0x08 ≠ 0 then pure ()
    else ataPollDrq n

def ataPollLimit : Nat := 1000000

def ataWaitNotBusy : AtaM Unit := ataPollNotBusy ataPollLimit

def ataWaitDrq : AtaM Unit := ataPollDrq ataPollLimit

/-- The registers get the address, byte by byte, and the command is given. -/
def ataCommand (lba : Nat) : AtaM Unit := modify fun s =>
  let regs : AtaRegs := ⟨0xE0 ||| (lba >>> 24 &&& 0x0F), lba % 256, lba >>> 8 % 256,
    lba >>> 16 % 256⟩
  { s with regs := regs, commands := regs.address :: s.commands }

/-- The data phase of a read: 256 words, low byte first. -/
def ataDataIn : AtaM Bytes := Eff.read fun s => .ok (s.media s.regs.address)

def ataDataOut (source : Bytes) : AtaM Unit := modify fun s =>
  let a := s.regs.address
  { s with media := update s.media a (splice (s.media a) 0 512 source) }

/-- A sector is commanded, up to its data phase. -/
def ataSelect (lba : Nat) : AtaM Unit := do
  ataWaitNotBusy
  ataCommand lba
  ataWaitDrq

def ataReadTurn (lba : Nat) : AtaM Bytes := do
  ataSelect lba
  ataDataIn

/-- The turns of `ata_read28` from sector `k` on, with `n` turns left. -/
def ataReadSectors (lba : Nat) : Nat → Nat → Bytes → AtaM Bytes
  | 0, _, buf => pure buf
  | n + 1, k, buf => do
    let data ← ataReadTurn (lba + k)
    ataReadSectors lba n (k + 1) (splice buf (k * 512) 512 data)

def ataWriteTurn (lba : Nat) (source : Bytes) : AtaM Unit := do
  ataSelect lba
  ataDataOut source
  ataWaitNotBusy

/-- The turns of `ata_write28`, and the flush at the end. -/
def ataWriteSectors (lba : Nat) (buf : Bytes) : Nat → Nat → AtaM Unit
  | 0, _ => ataWaitNotBusy
  | n + 1, k => do
    ataWriteTurn (lba + k) (window buf (k * 512))
    ataWriteSectors lba buf n (k + 1)

def ataRead28 (ataSectorCount lba count : Nat) (buf : Bytes) : AtaM Bytes :=
  if count = 0 then pure buf
  else if ataSectorCount = 0 ∨ ataSectorCount ≤ lba ∨ ataSectorCount - lba < count then
    fail .invalidArgument
  else ataReadSectors lba count 0 buf

def ataWrite28 (ataSectorCount lba count : Nat) (buf : Bytes) : AtaM Unit :=
  if count = 0 then pure ()
  else if ataSectorCount = 0 ∨ ataSectorCount ≤ lba ∨ ataSectorCount - lba < count then
    fail .invalidArgument
  else ataWriteSectors lba buf count 0

/-! ## The driver's laws -/

variable {s t : AtaDrive} {lba : Nat}

/-- Polling leaves the drive alone but for the status bytes it consumes. -/
def Polls (s t : AtaDrive) : Prop := t = { s with status := t.status }

instance : Std.Refl Polls := ⟨fun _ => rfl⟩

instance : IsTrans AtaDrive Polls := ⟨fun _ _ _ h h' => by rw [Polls, h', h]⟩

theorem polls_in8Status : Moves Polls in8Status := fun _ => rfl

theorem polls_waitNotBusy : Moves Polls ataWaitNotBusy := by
  rw [ataWaitNotBusy]
  generalize ataPollLimit = n
  induction n with
  | zero => exact moves_fail _
  | succ n ih =>
    refine polls_in8Status.bind fun status => ?_
    split_ifs
    · exact moves_fail _
    · exact moves_fail _
    · exact moves_pure ()
    · exact ih

theorem polls_waitDrq : Moves Polls ataWaitDrq := by
  rw [ataWaitDrq]
  generalize ataPollLimit = n
  induction n with
  | zero => exact moves_fail _
  | succ n ih =>
    refine polls_in8Status.bind fun status => ?_
    split_ifs
    · exact moves_fail _
    · exact moves_fail _
    · exact moves_pure ()
    · exact ih

theorem address_command (h : lba < 2 ^ 28) :
    AtaRegs.address ⟨0xE0 ||| (lba >>> 24 &&& 0x0F), lba % 256, lba >>> 8 % 256, lba >>> 16 % 256⟩ =
      lba := by
  have hsel : (0xE0 ||| (lba >>> 24 &&& 0x0F)) % 2 ^ 4 = lba / 2 ^ 24 := by
    rw [Nat.or_mod_two_pow, Nat.shiftRight_eq_div_pow, show (0x0F : Nat) = 2 ^ 4 - 1 by rfl,
      Nat.and_two_pow_sub_one_eq_mod, Nat.mod_mod,
      Nat.mod_eq_of_lt (by omega : lba / 2 ^ 24 < 2 ^ 4)]
    exact Nat.zero_or _
  rw [AtaRegs.address]
  dsimp only
  rw [show (16 : Nat) = 2 ^ 4 by rfl, hsel, Nat.shiftRight_eq_div_pow, Nat.shiftRight_eq_div_pow]
  omega

/-- Sectors and addressed sectors, as the block layer sees them. -/
def AtaConfined (lba count : Nat) : AtaDrive → AtaDrive → Prop :=
  Confined (fun s _ => s.media) (fun s => s.commands.map (Prod.mk ())) () lba count

instance (lba count : Nat) : Std.Refl (AtaConfined lba count) :=
  inferInstanceAs (Std.Refl (Confined _ _ _ _ _))

instance (lba count : Nat) : IsTrans AtaDrive (AtaConfined lba count) :=
  inferInstanceAs (IsTrans _ (Confined _ _ _ _ _))

theorem Polls.confined {lba count : Nat} (h : Polls s t) : AtaConfined lba count s t := by
  rw [Polls] at h
  rw [h]
  exact ⟨⟨[], rfl, nofun⟩, fun _ _ _ => rfl⟩

theorem ataSelect_run (h : lba < 2 ^ 28) (s : AtaDrive) :
    ∃ r t, ataSelect lba s = (r, t) ∧ t.media = s.media ∧ AtaConfined lba 1 s t ∧
      (r = .ok () → t.regs.address = lba) := by
  have hpoll := polls_waitNotBusy s
  rw [ataSelect, bind_run]
  rcases hwait : ataWaitNotBusy s with ⟨_ | _, u⟩
  · rw [hwait] at hpoll
    refine ⟨_, u, rfl, ?_, Polls.confined hpoll, nofun⟩
    rw [show u = _ from hpoll]
  rw [hwait] at hpoll
  rw [andThen_ok, bind_run, ataCommand, modify_run, andThen_ok]
  generalize hv : ({ u with
    regs := ⟨0xE0 ||| (lba >>> 24 &&& 0x0F), lba % 256, lba >>> 8 % 256, lba >>> 16 % 256⟩
    commands := AtaRegs.address
      ⟨0xE0 ||| (lba >>> 24 &&& 0x0F), lba % 256, lba >>> 8 % 256, lba >>> 16 % 256⟩ :: u.commands } :
      AtaDrive) = v
  have hmedia : v.media = s.media := by
    rw [← hv, show u = _ from hpoll]
  have hregs : v.regs.address = lba := by
    rw [← hv]
    exact address_command h
  have hcmd : AtaConfined lba 1 s v := by
    rw [← hv, address_command h, show u = _ from hpoll]
    refine ⟨⟨[((), lba)], rfl, fun x hx => ?_⟩, fun _ _ _ => rfl⟩
    rw [List.mem_singleton.mp hx]
    exact ⟨rfl, le_rfl, Nat.lt_succ_self lba⟩
  rcases hdrq : ataWaitDrq v with ⟨r, w⟩
  have hpoll' := polls_waitDrq v
  rw [hdrq] at hpoll'
  refine ⟨r, w, rfl, ?_, Trans.trans hcmd (hpoll'.confined : AtaConfined lba 1 v w), fun _ => ?_⟩
  · rw [show w = _ from hpoll']
    exact hmedia
  · rw [show w = _ from hpoll']
    exact hregs

theorem ataReadTurn_run (h : lba < 2 ^ 28) (s : AtaDrive) :
    ∃ r t, ataReadTurn lba s = (r, t) ∧ t.media = s.media ∧ AtaConfined lba 1 s t ∧
      ∀ data, r = .ok data → data = s.media lba := by
  obtain ⟨r, t, hrun, hmedia, hconf, haddr⟩ := ataSelect_run h s
  rw [ataReadTurn, bind_run, hrun]
  cases r with
  | error e => exact ⟨.error e, t, rfl, hmedia, hconf, nofun⟩
  | ok u =>
    refine ⟨.ok (t.media t.regs.address), t, rfl, hmedia, hconf, fun data hdata => ?_⟩
    cases hdata
    rw [haddr rfl, hmedia]

theorem ataWriteTurn_confined (h : lba < 2 ^ 28) (source : Bytes) :
    Moves (AtaConfined lba 1) (ataWriteTurn lba source) := by
  intro s
  obtain ⟨r, t, hrun, -, hconf, haddr⟩ := ataSelect_run h s
  rw [ataWriteTurn, bind_run, hrun]
  cases r with
  | error e => exact hconf
  | ok u =>
    rw [andThen_ok, bind_run, ataDataOut, modify_run, andThen_ok]
    have hout : AtaConfined lba 1 t { t with
        media := update t.media t.regs.address
          (splice (t.media t.regs.address) 0 512 source) } := by
      refine ⟨⟨[], rfl, nofun⟩, fun _ l hl => update_of_ne ?_ _ _⟩
      rintro rfl
      exact hl ⟨rfl, (haddr rfl).ge, (haddr rfl).trans_lt (Nat.lt_succ_self lba)⟩
    have hpoll : Moves (AtaConfined lba 1) ataWaitNotBusy :=
      polls_waitNotBusy.mono fun _ _ hp => hp.confined
    exact Trans.trans (Trans.trans hconf hout) (hpoll _)

variable {n k count : Nat}

theorem ataWriteSectors_confined (buf : Bytes) (hk : k + n = count) (h : lba + count ≤ 2 ^ 28) :
    Moves (AtaConfined lba count) (ataWriteSectors lba buf n k) := by
  induction n generalizing k with
  | zero => exact polls_waitNotBusy.mono fun _ _ hp => hp.confined
  | succ n ih =>
    refine Moves.bind (Moves.mono (ataWriteTurn_confined (by omega) _) fun s t hst => ?_) fun _ =>
      ih (by omega)
    exact Confined.mono hst (by omega) (by omega)

theorem ataReadSectors_run (buf : Bytes) (hk : k + n = count) (h : lba + count ≤ 2 ^ 28)
    (s : AtaDrive) :
    ∃ r t, ataReadSectors lba n k buf s = (r, t) ∧ t.media = s.media ∧
      AtaConfined lba count s t ∧ ∀ out, r = .ok out →
        (∀ i < k * 512, out i = buf i) ∧
        ∀ j, k ≤ j → j < count → ∀ o < 512, out (j * 512 + o) = s.media (lba + j) o := by
  induction n generalizing k buf s with
  | zero =>
    refine ⟨.ok buf, s, rfl, rfl, Std.Refl.refl s, fun out hout => ?_⟩
    cases hout
    exact ⟨fun _ _ => rfl, fun j hj hlt => by omega⟩
  | succ n ih =>
    obtain ⟨r, t, hturn, hmedia, hconf, hdata⟩ := ataReadTurn_run (by omega : lba + k < 2 ^ 28) s
    have hconf' : AtaConfined lba count s t := Confined.mono hconf (by omega) (by omega)
    rw [ataReadSectors, bind_run, hturn]
    cases r with
    | error e => exact ⟨.error e, t, rfl, hmedia, hconf', nofun⟩
    | ok data =>
      obtain ⟨r, u, hrest, hmedia', hconf'', hout⟩ := ih (splice buf (k * 512) 512 data)
        (by omega : k + 1 + n = count) t
      refine ⟨r, u, hrest, hmedia'.trans hmedia, Trans.trans hconf' hconf'', fun out hok => ?_⟩
      obtain ⟨hlow, hhigh⟩ := hout out hok
      refine ⟨fun i hi => ?_, fun j hj hlt o ho => ?_⟩
      · have hnext : i < (k + 1) * 512 := hi.trans_le (Nat.mul_le_mul_right 512 (Nat.le_succ k))
        rw [hlow i hnext, splice_outside (.inl hi)]
      · rcases hj.eq_or_lt with rfl | hj
        · have hnext : k * 512 + o < (k + 1) * 512 := by
            rw [Nat.add_mul, Nat.one_mul]
            exact Nat.add_lt_add_left ho _
          rw [hlow _ hnext, splice_at_add ho, hdata data rfl]
        · rw [hhigh j hj hlt o ho, hmedia]

/-- `g_ata_blockdev` with `g_ata_sector_count` sectors, at most `ATA_LBA28_SECTOR_LIMIT`. -/
def ata (sectorCount : Nat) (h : sectorCount ≤ 0x10000000) : Driver Unit AtaDrive where
  name _ := some "hd0"
  sectorSize _ := 512
  sectorCount _ := sectorCount
  sectorCount_lt _ := by omega
  read _ lba count buf := ataRead28 sectorCount lba count buf
  write _ lba count buf := ataWrite28 sectorCount lba count buf
  sector s _ := s.media
  touched s := s.commands.map (Prod.mk ())
  read_confined {_ lba count} buf s hfit := by
    unfold ataRead28
    split_ifs
    · exact Std.Refl.refl s
    · exact Std.Refl.refl s
    · obtain ⟨r, t, hrun, -, hconf, -⟩ :=
        ataReadSectors_run buf (Nat.zero_add count) (hfit.trans h) s
      rw [hrun]
      exact hconf
  read_keeps _ lba count buf s := by
    unfold ataRead28
    split_ifs with h0 hbad
    · rfl
    · rfl
    · obtain ⟨r, t, hrun, hmedia, -, -⟩ :=
        ataReadSectors_run buf (Nat.zero_add count) (show lba + count ≤ 2 ^ 28 by omega) s
      rw [hrun]
      exact funext fun _ => hmedia
  read_data {_ lba count buf out s t} hfit hrun k hk o ho := by
    rw [ataRead28, if_neg (by omega), if_neg (by omega)] at hrun
    obtain ⟨r, u, hrun', -, -, hdata⟩ :=
      ataReadSectors_run buf (Nat.zero_add count) (hfit.trans h) s
    rw [hrun'] at hrun
    cases hrun
    exact (hdata out rfl).2 k (Nat.zero_le k) hk o ho
  write_confined {_ lba count} buf s hfit := by
    unfold ataWrite28
    split_ifs
    · exact Std.Refl.refl s
    · exact Std.Refl.refl s
    · exact ataWriteSectors_confined buf (Nat.zero_add count) (hfit.trans h) s

/-- A drive of 100 sectors that is always ready, with three entries in its boot sector: sectors 2 to
11, sectors 10 to 19, which overlap them, and sectors 12 to 99. -/
def mbrDrive : AtaDrive where
  media l o :=
    if l ≠ 0 then 0
    else if o = 450 ∨ o = 466 ∨ o = 482 then 0x0C
    else if o = 454 then 2 else if o = 458 then 10
    else if o = 470 then 10 else if o = 474 then 10
    else if o = 486 then 12 else if o = 490 then 88
    else if o = 510 then 0x55 else if o = 511 then 0xAA
    else 0
  regs := ⟨0, 0, 0, 0⟩
  commands := []
  status _ := 0x48

def scanned : Blocks Unit AtaDrive :=
  blockStep (ata 100 (by decide)) (.scan (some ())) (bootBlocks mbrDrive [()])

theorem partitions_isolated_twoPartitions :
    ∃ p q, scanned.partitions 0 = some p ∧ scanned.partitions 1 = none ∧
      scanned.partitions 2 = some q ∧ Disjoint p.range q.range := by
  have hreach : Reach (blockStep (ata 100 (by decide))) (fun _ _ => True)
      (bootBlocks mbrDrive [()]) scanned := .step _ .start trivial
  have hslots : scanned.partitions 0 = some ⟨(), 2, 10⟩ ∧ scanned.partitions 1 = none ∧
      scanned.partitions 2 = some ⟨(), 12, 88⟩ := by decide +kernel
  exact ⟨_, _, hslots.1, hslots.2.1, hslots.2.2,
    (partitions_isolated hreach).2.1 0 2 _ _ (by decide) hslots.1 hslots.2.2⟩

end CfKernel.Block
