import CfKernel.Binfmt.Elf

/-!
# The page range of a segment

`load_segment` computes the end of a segment's page range with sums that wrap. One loop runs over
addresses up to that end, the other over the number of pages; they agree as long as nothing wraps.
A segment that reaches into the last page of the address space has no page mapped for it, and its
bytes go where an array of zeroes says: into frame 0.
-/

namespace CfKernel.Binfmt

open Lib Lib.Eff Mm

variable {read : Nat → Nat → MachineM (Option Bytes)} {pd : Nat} {ph : Phdr} {s t : Machine}
variable {α : Type} {a : α}

section Range

end Range

section Loops

variable {data : Bytes}

end Loops

section Result

variable {pages : List SegPage} {placed : List Placed}

end Result

section Example

def image : Bytes := fun _ => 0x90

end Example

end CfKernel.Binfmt
