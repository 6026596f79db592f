import Ssz.Error

/-! The hashing configuration: how large a layer has to be before it is hashed in pieces. -/

namespace Ssz

/-- The tuning of root computation. -/
structure HashingConfig where
  /-- Layers of at least two to this power chunks are hashed by separate tasks. -/
  parallelMinHeight : UInt8
  deriving DecidableEq, Repr

namespace HashingConfig

/-- The configuration in force when none was chosen. -/
def standard : HashingConfig :=
  ⟨8⟩

/-- The configuration without tasks for layers, which heights from 64 up switch off. -/
def sequential : HashingConfig :=
  ⟨64⟩

/-- The smallest layer hashed by separate tasks, which no layer reaches from height 64 up. -/
def parallelLayerLength (config : HashingConfig) : Nat :=
  if config.parallelMinHeight.toNat < 64 then 1 <<< config.parallelMinHeight.toNat
  else UInt64.size - 1

/-- The configuration in force after asking for one, which only the first request may do. -/
def install (active : Option HashingConfig) (requested : HashingConfig) :
    Except ConfigError HashingConfig :=
  match active with
  | some _ => .error .alreadyInitialized
  | none => .ok requested

end HashingConfig

end Ssz
