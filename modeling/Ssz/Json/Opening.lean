import Ssz.Json.Schema
import Ssz.Json.Value
import Ssz.Opening

/-! The JSON form of proofs. -/

namespace Ssz.MerkleProof

/-- The proof that a JSON value spells. -/
def ofJson? (levels : Nat) (value : JsonValue) : Option MerkleProof := do
  match ← value.record? ["gindex", "leaf", "branch"] levels with
  | (inner, [some gindex, some leaf, some branch]) =>
    let (deeper, siblings) ← branch.elements? inner
    return {
      gindex := ← wordOfJson? gindex
      leaf := ← Chunk.ofJson? inner leaf
      branch := ← siblings.mapM fun sibling => Chunk.ofJson? deeper sibling }
  | _ => none

/-- The JSON form of a proof. -/
def toJson (proof : MerkleProof) : JsonValue :=
  .ofRecord [("gindex", .natural proof.gindex.toNat), ("leaf", proof.leaf.toJson),
    ("branch", .array (proof.branch.map Chunk.toJson))]

/-- The proof that a JSON text spells. -/
def ofText? (text : String) : Option MerkleProof := do
  ofJson? JsonValue.maxLevels (← JsonValue.ofText? text)

/-- The JSON text of a proof. -/
def toText (proof : MerkleProof) : String :=
  proof.toJson.toText

end Ssz.MerkleProof
