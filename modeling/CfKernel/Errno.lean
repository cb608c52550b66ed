import Mathlib.Tactic

/-!
# Error codes

The codes of `errno.h` that the modelled functions return. `ERR_SUCCESS` is `Except.ok`.
-/

namespace CfKernel

inductive Errno where
  | invalidArgument
  | notSupported
  | outOfMemory
  | notFound
  | alreadyExists
  | notDirectory
  | isDirectory
  | directoryNotEmpty
  | noSpaceLeft
  | nameTooLong
  | ioError
  | badFileDescriptor
  | badAddress
  | bufferTooSmall
  | tooManyOpenFiles
  | processNotFound
  | busy
  | internal
  | frameUnavailable
  | heapExhausted
  | invalidAlignment
  | deviceNotFound
  | timedOut
  | noChildProcess
  deriving DecidableEq, Repr

def Errno.code : Errno → Int
  | .invalidArgument => -2
  | .notSupported => -3
  | .timedOut => -6
  | .busy => -7
  | .outOfMemory => -10
  | .badAddress => -11
  | .bufferTooSmall => -12
  | .frameUnavailable => -16
  | .invalidAlignment => -17
  | .heapExhausted => -19
  | .notFound => -40
  | .alreadyExists => -41
  | .notDirectory => -42
  | .isDirectory => -43
  | .directoryNotEmpty => -44
  | .noSpaceLeft => -46
  | .nameTooLong => -47
  | .badFileDescriptor => -60
  | .tooManyOpenFiles => -61
  | .ioError => -80
  | .deviceNotFound => -81
  | .noChildProcess => -100
  | .processNotFound => -101
  | .internal => -201

theorem Errno.code_neg (e : Errno) : e.code < 0 := by
  cases e <;> decide

theorem Errno.code_nonpos (e : Errno) : e.code ≤ 0 := e.code_neg.le

/-- What a kernel function returns: zero, or a negative code. -/
abbrev Status := { r : Int // r ≤ 0 }

theorem success_nonpos : (0 : Int) ≤ 0 := le_rfl

def Status.success : Status := ⟨0, success_nonpos⟩

def Errno.status (e : Errno) : Status := ⟨e.code, e.code_nonpos⟩

def statusOf {α : Type} : Except Errno α → Status
  | .ok _ => .success
  | .error e => e.status

end CfKernel
