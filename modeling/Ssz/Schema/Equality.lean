import Ssz.Schema.Basic

/-! Equality of schemas is decided by comparing their shapes. -/

namespace Ssz

mutual

/-- Whether two schemas have the same shape. -/
def Schema.same : Schema → Schema → Bool
  | .scalar first, .scalar second => first = second
  | .vector first m, .vector second n => m = n && first.same second
  | .list first m, .list second n => m = n && first.same second
  | .bitvector m, .bitvector n => m = n
  | .bitlist m, .bitlist n => m = n
  | .container first, .container second => Schema.sameFields first second
  | .union first, .union second => Schema.sameVariants first second
  | _, _ => false

/-- Whether two lists of fields have the same names and shapes. -/
def Schema.sameFields : List Field → List Field → Bool
  | [], [] => true
  | ⟨m, first⟩ :: firsts, ⟨n, second⟩ :: seconds =>
    -- Names count as well as schemas, in the order of the fields.
    m = n && first.same second && Schema.sameFields firsts seconds
  | _, _ => false

/-- Whether two lists of variants have the same shapes. -/
def Schema.sameVariants : List (Option Schema) → List (Option Schema) → Bool
  | [], [] => true
  | none :: firsts, none :: seconds => Schema.sameVariants firsts seconds
  | some first :: firsts, some second :: seconds =>
    first.same second && Schema.sameVariants firsts seconds
  | _, _ => false

end

mutual

/-- The comparison of shapes holds exactly of equal schemas. -/
theorem Schema.same_iff : (first second : Schema) → (first.same second = true ↔ first = second)
  -- Different kinds are never the same, and equal kinds are compared part by part.
  | .scalar _, second => by cases second <;> simp [Schema.same]
  | .vector first _, second => by
    cases second <;> simp [Schema.same, Schema.same_iff first, and_comm]
  | .list first _, second => by
    cases second <;> simp [Schema.same, Schema.same_iff first, and_comm]
  | .bitvector _, second => by cases second <;> simp [Schema.same]
  | .bitlist _, second => by cases second <;> simp [Schema.same]
  | .container first, second => by
    cases second <;> simp [Schema.same, Schema.sameFields_iff first]
  | .union first, second => by
    cases second <;> simp [Schema.same, Schema.sameVariants_iff first]

/-- The comparison of fields holds exactly of equal lists. -/
theorem Schema.sameFields_iff :
    (first second : List Field) → (Schema.sameFields first second = true ↔ first = second)
  -- Fields are compared in order, and a list that ends sooner is another one.
  | [], second => by cases second <;> simp [Schema.sameFields]
  | ⟨_, schema⟩ :: rest, second => by
    cases second with
    | nil => simp [Schema.sameFields]
    | cons field others =>
      obtain ⟨name, other⟩ := field
      simp [Schema.sameFields, Schema.same_iff schema, Schema.sameFields_iff rest]

/-- The comparison of variants holds exactly of equal lists. -/
theorem Schema.sameVariants_iff :
    (first second : List (Option Schema)) →
      (Schema.sameVariants first second = true ↔ first = second)
  -- Variants are compared in order, and the empty one is the same as no other.
  | [], second => by cases second <;> simp [Schema.sameVariants]
  | none :: rest, second => by
    cases second with
    | nil => simp [Schema.sameVariants]
    | cons variant others =>
      cases variant <;> simp [Schema.sameVariants, Schema.sameVariants_iff rest]
  | some schema :: rest, second => by
    cases second with
    | nil => simp [Schema.sameVariants]
    | cons variant others =>
      cases variant <;>
        simp [Schema.sameVariants, Schema.same_iff schema, Schema.sameVariants_iff rest]

end

instance : DecidableEq Schema := fun first second =>
  decidable_of_iff (first.same second = true) (Schema.same_iff first second)

instance : DecidableEq Field := fun first second =>
  decidable_of_iff (first.name = second.name ∧ first.schema = second.schema) (by
    cases first; cases second; simp)

end Ssz
