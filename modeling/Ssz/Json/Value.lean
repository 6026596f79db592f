import Ssz.Json.Basic
import Ssz.Value.Basic

/-! The JSON form of plain values. -/

namespace Ssz

/-- The truth value, if the value is one. -/
def JsonValue.bool? : JsonValue → Option Bool
  | bool bit => some bit
  | _ => none

/-- The chunk, if the value is an array of thirty-two bytes. -/
def Chunk.ofJson? (levels : Nat) (value : JsonValue) : Option Chunk :=
  (Bytes.ofJson? 32 levels value).map Chunk.padded

/-- The JSON form of a chunk. -/
def Chunk.toJson (chunk : Chunk) : JsonValue :=
  Bytes.toJson chunk.toList

namespace Value

/-- The plain value that a JSON value spells. -/
def ofJson? : (levels : Nat) → JsonValue → Option Value
  | 0, _ => none
  | levels + 1, value => do
    let (_, name, content) ← value.case? (levels + 1)
    match name, levels with
    | "Bool", _ => return bool (← content.bool?)
    | "Uint", _ => return uint (BitVec.ofNat 128 (← content.below? (1 <<< 128)))
    | "Uint256", levels => return uint256 (← Chunk.ofJson? levels content)
    | "Bits", levels =>
      let (_, elements) ← content.elements? levels
      return bits (← elements.mapM JsonValue.bool?)
    | "Sequence", inner + 1 =>
      let (_, elements) ← content.elements? (inner + 1)
      return sequence (← elements.mapM fun element => ofJson? inner element)
    | "Container", inner + 1 =>
      let (_, members) ← content.elements? (inner + 1)
      return container (← members.mapM fun member => ofJson? inner member)
    | "Union", inner + 1 =>
      match ← content.record? ["selector", "value"] (inner + 1) with
      | (_, [some selector, payload]) =>
        let selector := UInt32.ofNat (← selector.below? UInt32.size)
        match payload with
        | none | some .null => return union selector none
        | some payload => return union selector (some (← ofJson? inner payload))
      | _ => none
    | _, _ => none

end Value

mutual

/-- The JSON form of a plain value. -/
def Value.toJson : Value → JsonValue
  | .bool bit => .ofCase "Bool" (.bool bit)
  | .uint number => .ofCase "Uint" (.natural number.toNat)
  | .uint256 bytes => .ofCase "Uint256" bytes.toJson
  | .bits string => .ofCase "Bits" (.array (string.map .bool))
  | .sequence elements => .ofCase "Sequence" (.array (Value.allToJson elements))
  | .container members => .ofCase "Container" (.array (Value.allToJson members))
  | .union selector none =>
    .ofCase "Union" (.ofRecord [("selector", .natural selector.toNat), ("value", .null)])
  | .union selector (some value) =>
    .ofCase "Union" (.ofRecord [("selector", .natural selector.toNat), ("value", value.toJson)])

/-- The JSON forms of plain values. -/
def Value.allToJson : List Value → List JsonValue
  | [] => []
  | value :: rest => value.toJson :: Value.allToJson rest

end

namespace Value

/-- The plain value that a JSON text spells. -/
def ofText? (text : String) : Option Value := do
  ofJson? JsonValue.maxLevels (← JsonValue.ofText? text)

/-- The JSON text of a plain value. -/
def toText (value : Value) : String :=
  value.toJson.toText

end Value

end Ssz
