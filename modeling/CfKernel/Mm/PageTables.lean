import CfKernel.Mm.Machine

/-!
# Page tables

A directory and a table are 1024 words each in physical memory. The directory entry of a virtual
address points to a table, and the table entry to the frame; the low twelve bits of an entry are
flags.
-/

namespace CfKernel.Mm

open Lib

def pagePresent : Nat := 0x001

def pageRw : Nat := 0x002

def pageUser : Nat := 0x004

def pdeAt (mem : Bytes) (pd va : Nat) : Nat := le32 mem (pd + 4 * (va >>> 22 &&& 0x3FF))

/-- The table entry for a virtual address; `2 ^ 32 - 4096` is `~0xFFF`. -/
def pteAt (mem : Bytes) (pd va : Nat) : Nat :=
  le32 mem ((pdeAt mem pd va &&& (2 ^ 32 - 4096)) + 4 * (va >>> 12 &&& 0x3FF))

/-- An entry that lets user code read, or write, what it points to. -/
def UserEntry (write : Bool) (entry : Nat) : Prop :=
  entry &&& pagePresent ≠ 0 ∧ entry &&& pageUser ≠ 0 ∧ (write → entry &&& pageRw ≠ 0)

instance (write : Bool) (entry : Nat) : Decidable (UserEntry write entry) :=
  inferInstanceAs (Decidable (_ ∧ _ ∧ _))

def UserPage (mem : Bytes) (pd : Nat) (write : Bool) (va : Nat) : Prop :=
  UserEntry write (pdeAt mem pd va) ∧ UserEntry write (pteAt mem pd va)

instance (mem : Bytes) (pd : Nat) (write : Bool) (va : Nat) : Decidable (UserPage mem pd write va) :=
  inferInstanceAs (Decidable (_ ∧ _))

def translate (mem : Bytes) (pd va : Nat) : Nat :=
  (pteAt mem pd va &&& (2 ^ 32 - 4096)) + va % 4096

end CfKernel.Mm
