import Mathlib
import CfKernel.Errno
import CfKernel.Lib.Run
import CfKernel.Lib.Word
import CfKernel.Lib.Effect

/-!
# Block devices

The registry of `blockdev.c`, its two bounds checks, and the partition devices of `partition.c` that
are stacked on a disk. A `Driver` is the code below: the disks it offers, what it does with a
request, and the two things that can be seen of it: the contents of the sectors and the sectors it
has addressed. It may fail at any point of a request, but it addresses and changes no sector
outside the request.
-/

namespace CfKernel.Block

open Lib Lib.Eff

/-- From `s` to `t` the driver addressed and changed sectors of `[lba, lba + count)` of `d` only. -/
structure Confined {ι σ : Type} (sector : σ → ι → Nat → Bytes) (touched : σ → List (ι × Nat))
    (d : ι) (lba count : Nat) (s t : σ) : Prop where
  addressed : ∃ l, touched t = l ++ touched s ∧ ∀ x ∈ l, x.1 = d ∧ lba ≤ x.2 ∧ x.2 < lba + count
  outside : ∀ e l, ¬ (e = d ∧ lba ≤ l ∧ l < lba + count) → sector t e l = sector s e l

section Confined

variable {ι σ : Type} {sector : σ → ι → Nat → Bytes} {touched : σ → List (ι × Nat)} {d : ι}
  {lba count : Nat}

instance : Std.Refl (Confined sector touched d lba count) :=
  ⟨fun _ => ⟨⟨[], rfl, nofun⟩, fun _ _ _ => rfl⟩⟩

instance : IsTrans σ (Confined sector touched d lba count) where
  trans s t u h h' := by
    obtain ⟨l, hl, hin⟩ := h.addressed
    obtain ⟨l', hl', hin'⟩ := h'.addressed
    refine ⟨⟨l' ++ l, by rw [hl', hl, List.append_assoc], fun x hx => ?_⟩, fun e k hk => ?_⟩
    · rcases List.mem_append.mp hx with hx | hx
      · exact hin' x hx
      · exact hin x hx
    · exact (h'.outside e k hk).trans (h.outside e k hk)

theorem Confined.mono {lba' count' : Nat} {s t : σ} (h : Confined sector touched d lba count s t)
    (hlo : lba' ≤ lba) (hhi : lba + count ≤ lba' + count') :
    Confined sector touched d lba' count' s t := by
  obtain ⟨l, hl, hin⟩ := h.addressed
  refine ⟨⟨l, hl, fun x hx => ?_⟩, fun e k hk => h.outside e k fun hin => hk ?_⟩
  · obtain ⟨hd, hx1, hx2⟩ := hin x hx
    exact ⟨hd, by omega, by omega⟩
  · exact ⟨hin.1, by omega, by omega⟩

end Confined

structure Driver (ι σ : Type) where
  name : ι → Option String
  sectorSize : ι → Nat
  sectorCount : ι → Nat
  sectorCount_lt : ∀ d, sectorCount d < 2 ^ 32
  read : ι → Nat → Nat → Bytes → Eff Errno σ Bytes
  write : ι → Nat → Nat → Bytes → Eff Errno σ Unit
  sector : σ → ι → Nat → Bytes
  touched : σ → List (ι × Nat)
  read_confined : ∀ {d lba count} (buf : Bytes) (s : σ), lba + count ≤ sectorCount d →
    Confined sector touched d lba count s (read d lba count buf s).2
  read_keeps : ∀ (d lba count buf) (s : σ), sector (read d lba count buf s).2 = sector s
  read_data : ∀ {d lba count} {buf out : Bytes} {s t : σ}, lba + count ≤ sectorCount d →
    read d lba count buf s = (.ok out, t) →
    ∀ k < count, ∀ o < 512, out (k * 512 + o) = sector s d (lba + k) o
  write_confined : ∀ {d lba count} (buf : Bytes) (s : σ), lba + count ≤ sectorCount d →
    Confined sector touched d lba count s (write d lba count buf s).2

/-- `struct mbr_partition`, once it is filled. -/
structure MbrPartition (ι : Type) where
  disk : ι
  startLba : Nat
  sectorCount : Nat
  deriving DecidableEq

inductive Device (ι : Type) where
  | disk (d : ι)
  | partition (i : Fin 4)
  deriving DecidableEq

/-- The globals of the block layer over the driver's state. -/
structure Blocks (ι σ : Type) where
  drive : σ
  /-- `g_blockdev_list`. -/
  registry : List (Device ι)
  /-- `g_partitions`; `none` is a slot of zeros. -/
  partitions : Fin 4 → Option (MbrPartition ι)
  /-- `g_partition_disk`. -/
  partitionDisk : Option ι

abbrev BlockM (ι σ : Type) := Eff Errno (Blocks ι σ)

variable {ι σ : Type} (drv : Driver ι σ)

/-- `g_partition_names`. -/
def partitionName : Fin 4 → String
  | 0 => "hd0p1"
  | 1 => "hd0p2"
  | 2 => "hd0p3"
  | 3 => "hd0p4"

def deviceName (s : Blocks ι σ) : Device ι → Option String
  | .disk d => drv.name d
  | .partition i => (s.partitions i).map fun _ => partitionName i

def deviceSectorSize (s : Blocks ι σ) : Device ι → Nat
  | .disk d => drv.sectorSize d
  | .partition i => ((s.partitions i).map fun p => drv.sectorSize p.disk).getD 0

def deviceSectorCount (s : Blocks ι σ) : Device ι → Nat
  | .disk d => drv.sectorCount d
  | .partition i => ((s.partitions i).map fun p => p.sectorCount).getD 0

def blockdevRegister (bd : Device ι) : BlockM ι σ Unit := fun s =>
  if deviceName drv s bd = none ∨ deviceName drv s bd = some "" ∨ deviceSectorSize drv s bd = 0 ∨
      deviceSectorCount drv s bd = 0 then (.error .invalidArgument, s)
  else if s.registry.any fun it => deviceName drv s it = deviceName drv s bd then
    (.error .alreadyExists, s)
  else (.ok (), { s with registry := bd :: s.registry })

def blockdevUnregister [DecidableEq ι] (bd : Device ι) : BlockM ι σ Unit := fun s =>
  if bd ∈ s.registry then (.ok (), { s with registry := s.registry.erase bd })
  else (.error .notFound, s)

/-- What `blockdev_read` and `blockdev_write` check before they call the device's own function;
`idle` is what a request for no sectors returns. -/
def checkedAccess {α τ : Type} (sectorCount lba count : Nat) (buf : Option Bytes) (idle : α)
    (op : Bytes → Eff Errno τ α) : Eff Errno τ α :=
  if count = 0 then pure idle
  else match buf with
    | none => fail .invalidArgument
    | some b => if sectorCount ≤ lba ∨ sectorCount - lba < count then fail .invalidArgument else op b

def onDrive {α : Type} (m : Eff Errno σ α) : BlockM ι σ α := fun s =>
  ((m s.drive).1, { s with drive := (m s.drive).2 })

/-- `blockdev_read` on a disk of the driver. -/
def diskRead (d : ι) (lba count : Nat) (buf : Option Bytes) : BlockM ι σ (Option Bytes) :=
  checkedAccess (drv.sectorCount d) lba count buf buf fun b => do
    let out ← onDrive (drv.read d lba count b)
    pure (some out)

def diskWrite (d : ι) (lba count : Nat) (buf : Option Bytes) : BlockM ι σ Unit :=
  checkedAccess (drv.sectorCount d) lba count buf () fun b => onDrive (drv.write d lba count b)

def partitionRead (p : MbrPartition ι) (lba count : Nat) (buf : Option Bytes) :
    BlockM ι σ (Option Bytes) :=
  if p.sectorCount ≤ lba ∨ p.sectorCount - lba < count then fail .invalidArgument
  else diskRead drv p.disk (u32 (p.startLba + lba)) count buf

def partitionWrite (p : MbrPartition ι) (lba count : Nat) (buf : Option Bytes) : BlockM ι σ Unit :=
  if p.sectorCount ≤ lba ∨ p.sectorCount - lba < count then fail .invalidArgument
  else diskWrite drv p.disk (u32 (p.startLba + lba)) count buf

/-- `blockdev_read`; a partition slot of zeros has no `ops`. -/
def blockdevRead (bd : Device ι) (lba count : Nat) (buf : Option Bytes) :
    BlockM ι σ (Option Bytes) := fun s =>
  match bd with
  | .disk d => diskRead drv d lba count buf s
  | .partition i =>
    match s.partitions i with
    | none => (.error .invalidArgument, s)
    | some p =>
      checkedAccess p.sectorCount lba count buf buf
        (fun b => partitionRead drv p lba count (some b)) s

def blockdevWrite (bd : Device ι) (lba count : Nat) (buf : Option Bytes) : BlockM ι σ Unit :=
  fun s =>
  match bd with
  | .disk d => diskWrite drv d lba count buf s
  | .partition i =>
    match s.partitions i with
    | none => (.error .invalidArgument, s)
    | some p =>
      checkedAccess p.sectorCount lba count buf ()
        (fun b => partitionWrite drv p lba count (some b)) s

variable {drv}

/-- A checked access does nothing, or hands a request within the bounds to the device. -/
theorem checkedAccess_cases {α τ : Type} (sectorCount lba count : Nat) (buf : Option Bytes)
    (idle : α) (op : Bytes → Eff Errno τ α) (s : τ) :
    (checkedAccess sectorCount lba count buf idle op s = (.ok idle, s) ∧ count = 0) ∨
    checkedAccess sectorCount lba count buf idle op s = (.error .invalidArgument, s) ∨
    ∃ b, buf = some b ∧ 0 < count ∧ lba + count ≤ sectorCount ∧
      checkedAccess sectorCount lba count buf idle op s = op b s := by
  unfold checkedAccess
  by_cases hcount : count = 0
  · rw [if_pos hcount]
    exact .inl ⟨rfl, hcount⟩
  rw [if_neg hcount]
  cases buf with
  | none => exact .inr (.inl rfl)
  | some b =>
    split_ifs with hrange
    · exact .inr (.inl rfl)
    · exact .inr (.inr ⟨b, rfl, by omega, by omega, rfl⟩)

theorem checkedAccess_run {α τ : Type} {sectorCount lba count : Nat} {b : Bytes} {idle : α}
    {op : Bytes → Eff Errno τ α} (hpos : 0 < count) (hin : lba + count ≤ sectorCount) :
    checkedAccess sectorCount lba count (some b) idle op = op b := by
  unfold checkedAccess
  rw [if_neg (by omega)]
  dsimp only
  rw [if_neg (by omega)]

theorem blockdevRegister_cases (drv : Driver ι σ) (bd : Device ι) (s : Blocks ι σ) :
    (∃ err, blockdevRegister drv bd s = (.error err, s)) ∨
      blockdevRegister drv bd s = (.ok (), { s with registry := bd :: s.registry }) := by
  rw [blockdevRegister]
  split_ifs
  · exact .inl ⟨_, rfl⟩
  · exact .inl ⟨_, rfl⟩
  · exact .inr rfl

section Partition

variable {s : Blocks ι σ} {i : Fin 4} {p : MbrPartition ι}

/-- A read of a partition that lies on its disk: the checks refuse it without touching the disk, or
the driver gets it, and the sum with the start of the partition does not wrap. -/
theorem blockdevRead_cases (lba count : Nat) (buf : Option Bytes) (hp : s.partitions i = some p)
    (hfit : p.startLba + p.sectorCount ≤ drv.sectorCount p.disk) :
    (blockdevRead drv (.partition i) lba count buf s = (.ok buf, s) ∧ count = 0) ∨
    blockdevRead drv (.partition i) lba count buf s = (.error .invalidArgument, s) ∨
    ∃ b r t, 0 < count ∧ lba + count ≤ p.sectorCount ∧
      drv.read p.disk (p.startLba + lba) count b s.drive = (r, t) ∧
      blockdevRead drv (.partition i) lba count buf s = (r.map some, { s with drive := t }) := by
  have hlt := drv.sectorCount_lt p.disk
  rw [blockdevRead, hp]
  dsimp only
  rcases checkedAccess_cases p.sectorCount lba count buf buf
    (fun b => partitionRead drv p lba count (some b)) s with h | h | ⟨b, -, hpos, hin, h⟩
  · exact .inl h
  · exact .inr (.inl h)
  rcases hread : drv.read p.disk (p.startLba + lba) count b s.drive with ⟨r, t⟩
  refine .inr (.inr ⟨b, r, t, hpos, hin, hread, ?_⟩)
  rw [h, partitionRead, if_neg (by omega), u32_of_lt (by omega), diskRead,
    checkedAccess_run hpos (by omega), bind_run, onDrive, hread]
  cases r with
  | error e => rfl
  | ok out => rfl

theorem blockdevWrite_cases (lba count : Nat) (buf : Option Bytes) (hp : s.partitions i = some p)
    (hfit : p.startLba + p.sectorCount ≤ drv.sectorCount p.disk) :
    (blockdevWrite drv (.partition i) lba count buf s = (.ok (), s) ∧ count = 0) ∨
    blockdevWrite drv (.partition i) lba count buf s = (.error .invalidArgument, s) ∨
    ∃ b r t, 0 < count ∧ lba + count ≤ p.sectorCount ∧
      drv.write p.disk (p.startLba + lba) count b s.drive = (r, t) ∧
      blockdevWrite drv (.partition i) lba count buf s = (r, { s with drive := t }) := by
  have hlt := drv.sectorCount_lt p.disk
  rw [blockdevWrite, hp]
  dsimp only
  rcases checkedAccess_cases p.sectorCount lba count buf ()
    (fun b => partitionWrite drv p lba count (some b)) s with h | h | ⟨b, -, hpos, hin, h⟩
  · exact .inl h
  · exact .inr (.inl h)
  rcases hwrite : drv.write p.disk (p.startLba + lba) count b s.drive with ⟨r, t⟩
  refine .inr (.inr ⟨b, r, t, hpos, hin, hwrite, ?_⟩)
  rw [h, partitionWrite, if_neg (by omega), u32_of_lt (by omega), diskWrite,
    checkedAccess_run hpos (by omega), onDrive, hwrite]

end Partition

end CfKernel.Block
