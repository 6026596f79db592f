import Ssz.Schema.Basic

/-! Serialized sizes: the fixed size of a type, where it has one, and its least size. -/

namespace Ssz

/-- The bytes of an offset or of a selector. -/
def bytesPerOffset : Nat := 4

/-- The greatest 64-bit word. -/
def maxWord : Nat := UInt64.size - 1

/-- The sizes of the serializations of a type. -/
structure Sizes where
  /-- The size of every serialization, where all of them have the same one. -/
  fixed : Option Nat
  /-- The least size of a serialization. -/
  least : Nat
  deriving DecidableEq, Repr

namespace Sizes

/-- The sizes of a type whose serializations all have one size. -/
def ofFixed (size : Nat) : Sizes :=
  ⟨some size, size⟩

/-- The sizes of a type whose serializations vary and take at least the given number of bytes. -/
def ofLeast (least : Nat) : Sizes :=
  ⟨none, least⟩

/-- The bytes that a member takes up in the fixed part of its parent. -/
def fixedPart (sizes : Sizes) : Nat :=
  sizes.fixed.getD bytesPerOffset

/-- The least number of bytes that a member adds to its parent, its offset included. -/
def part (sizes : Sizes) : Nat :=
  match sizes.fixed with
  | some size => size
  | none => bytesPerOffset + sizes.least

/-- The sizes of a fixed number of members that all have the same sizes. -/
def times (sizes : Sizes) (count : Nat) : Sizes :=
  ⟨sizes.fixed.map (count * ·), count * sizes.part⟩

/-- The sizes of one more member before those already counted. -/
def add (sizes others : Sizes) : Sizes :=
  match sizes.fixed, others.fixed with
  | some size, some rest => ⟨some (size + rest), sizes.part + others.least⟩
  | _, _ => ⟨none, sizes.part + others.least⟩

end Sizes

mutual

/-- The sizes of the serializations of a type. -/
def Schema.sizes : Schema → Sizes
  | .scalar type => .ofFixed type.byteLength
  | .vector element length => element.sizes.times length.toNat
  | .list _ _ => .ofLeast 0
  | .bitvector length => .ofFixed ((length.toNat + 7) / 8)
  -- The sentinel bit needs a byte.
  | .bitlist _ => .ofLeast 1
  | .container fields => Schema.fieldSizes fields
  | .union variants => .ofLeast (bytesPerOffset + (Schema.leastVariant variants).getD 0)

/-- The sizes of fields, one after the other. -/
def Schema.fieldSizes : List Field → Sizes
  | [] => .ofFixed 0
  | ⟨_, schema⟩ :: rest => schema.sizes.add (Schema.fieldSizes rest)

/-- The least of the least sizes of variants, where an absent variant takes no bytes. -/
def Schema.leastVariant : List (Option Schema) → Option Nat
  | [] => none
  -- No variant is smaller than one without payload, so the rest is not asked.
  | none :: _ => some 0
  | some schema :: rest =>
    match Schema.leastVariant rest with
    | some least => some (min schema.sizes.least least)
    | none => some schema.sizes.least

end

namespace Schema

/-- The size of every serialization, where all of them have the same one. -/
def fixedSize (schema : Schema) : Option Nat :=
  schema.sizes.fixed

/-- The least size of a serialization. -/
def minSize (schema : Schema) : Nat :=
  schema.sizes.least

/-- Whether all serializations have the same size. -/
def isFixedSize (schema : Schema) : Bool :=
  schema.fixedSize.isSome

/-- The bytes that a member takes up in the fixed part of its parent. -/
def fixedPart (schema : Schema) : Nat :=
  schema.sizes.fixedPart

/-- The least number of bytes that a member adds to its parent, its offset included. -/
def minPart (schema : Schema) : Nat :=
  schema.sizes.part

/-- Where the fixed parts of fields end. -/
def fixedEnd : List Field → Nat
  | [] => 0
  | field :: rest => field.schema.fixedPart + fixedEnd rest

end Schema

mutual

/-- A type whose serializations all have one size has that size for its least one. -/
theorem Schema.least_eq_fixed :
    (schema : Schema) → (size : Nat) → schema.sizes.fixed = some size → schema.sizes.least = size
  -- Lists, bitlists and unions have no fixed size; all others add up the sizes of their members.
  | .scalar _, _, fixed => by simpa [Schema.sizes, Sizes.ofFixed] using fixed
  | .vector element _, _, fixed => by
    cases found : element.sizes.fixed <;>
      simp_all [Schema.sizes, Sizes.times, Sizes.part]
  | .list _ _, _, fixed => by simp [Schema.sizes, Sizes.ofLeast] at fixed
  | .bitvector _, _, fixed => by simpa [Schema.sizes, Sizes.ofFixed] using fixed
  | .bitlist _, _, fixed => by simp [Schema.sizes, Sizes.ofLeast] at fixed
  | .container fields, size, fixed => by
    simp only [Schema.sizes] at fixed ⊢
    exact Schema.fieldSizes_least_eq_fixed fields size fixed
  | .union _, _, fixed => by simp [Schema.sizes, Sizes.ofLeast] at fixed

/-- Fields that all have one size add up to that size at least. -/
theorem Schema.fieldSizes_least_eq_fixed :
    (fields : List Field) → (size : Nat) → (Schema.fieldSizes fields).fixed = some size →
      (Schema.fieldSizes fields).least = size
  | [], _, fixed => by simpa [Schema.fieldSizes, Sizes.ofFixed] using fixed
  | ⟨_, schema⟩ :: rest, size, fixed => by
    -- Both the first field and those after it need a size of their own.
    cases first : schema.sizes.fixed with
    | none => simp [Schema.fieldSizes, Sizes.add, first] at fixed
    | some own =>
      cases others : (Schema.fieldSizes rest).fixed with
      | none => simp [Schema.fieldSizes, Sizes.add, first, others] at fixed
      | some remaining =>
        have least := Schema.fieldSizes_least_eq_fixed rest remaining others
        simp_all [Schema.fieldSizes, Sizes.add, Sizes.part]

end

end Ssz
