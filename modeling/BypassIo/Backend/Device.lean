import Mathlib.Tactic.Common

/-!
# Device targets

What an operation of a backend is directed at.
-/

namespace BypassIo.Backend

abbrev RawFd := Int32

/-- A region of the caller's memory. -/
structure Region where
  ptr : UInt64
  len : UInt64
  deriving DecidableEq

inductive DeviceTarget
  | fd (fd : RawFd)
  | nvmeNs (nsid : UInt32)
  | netPort (port : UInt16)
  deriving DecidableEq

end BypassIo.Backend
