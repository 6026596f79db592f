import Ssz.Config
import Ssz.Json.Basic

/-! The JSON form of the hashing configuration, in which a missing height means the standard one. -/

namespace Ssz.HashingConfig

/-- The configuration with the given height, if it is a natural number below 256. -/
def ofHeight? (height : JsonValue) : Option HashingConfig := do
  return ⟨UInt8.ofNat (← height.below? 256)⟩

/-- The configuration that a JSON value spells: an object with no other members, or an array. -/
def ofJson? : JsonValue → Option HashingConfig
  | .object [] | .array [] => some standard
  | .object [(some "parallel_min_height", height)] | .array [height] => ofHeight? height
  | _ => none

/-- The configuration that a JSON text spells. -/
def ofText? (text : String) : Option HashingConfig := do
  ofJson? (← JsonValue.ofText? text)

end Ssz.HashingConfig
