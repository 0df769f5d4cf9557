/-!
Programs in byte code.
-/

namespace TapeCode

/-- Byte code, and the version of the format it is meant for. -/
structure Program where
  version : UInt16
  code : Array UInt8
  deriving DecidableEq, Repr

namespace Program

/-- The only version of the format there is. -/
def currentVersion : UInt16 := 1

end Program

end TapeCode
