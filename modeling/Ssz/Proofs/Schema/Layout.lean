import Mathlib.Algebra.GroupWithZero.Nat
import Ssz.Schema.Build

/-! Stored layouts: made from those of the parts of a schema, they are what the schema tells. -/

namespace Ssz

/-- What is stored with a schema about the serializations and the trees of its values. -/
structure Layout where
  sizes : Sizes
  chunkCount : Nat
  depth : Nat

namespace Layout

/-- The layout of a number of chunks, at the least depth with room for them. -/
def ofChunks (sizes : Sizes) (count : Nat) : Layout :=
  ⟨sizes, count, Schema.depthFor count⟩

/-- The layout of bytes that are known to fit in one chunk. -/
def ofChunk (size : Nat) : Layout :=
  ⟨.ofFixed size, 1, 0⟩

end Layout

namespace Sizes

/-- The sizes of a number of copies: of one size where the part is, else each behind an offset. -/
def copies (part : Sizes) (count : Nat) : Sizes :=
  -- A part of one size is stored in place, any other one behind an offset.
  match part.fixed with
  | some size => ofFixed (count * size)
  | none => ofLeast (count * (bytesPerOffset + part.least))

/-- The sizes of parts one after the other: of one size where all parts are. -/
def row (parts : List Sizes) : Sizes :=
  -- The first part that varies ends the sum of sizes, and all least sizes are added up instead.
  match parts.mapM Sizes.fixed with
  | some sizes => ofFixed sizes.sum
  | none => ofLeast (parts.map Sizes.part).sum

/-- The sizes of one out of several parts behind its selector, where an absent one has no bytes. -/
def choice (parts : List (Option Sizes)) : Sizes :=
  ofLeast (bytesPerOffset + ((parts.map fun part => part.elim 0 Sizes.least).min?.getD 0))

/-- The sizes of a part are multiplied by the number of its copies. -/
theorem times_eq_copies (part : Sizes) (count : Nat) : part.times count = part.copies count := by
  rw [times, copies, Sizes.part]
  cases part.fixed <;> rfl

/-- The least sizes of parts add up, whether all of them have one size or not. -/
theorem least_row (parts : List Sizes) : (row parts).least = (parts.map Sizes.part).sum := by
  induction parts with
  | nil => rfl
  | cons first rest ih =>
    rw [row] at ih ⊢
    rw [List.mapM_cons, List.map_cons, List.sum_cons, ← ih]
    -- A part of one size adds that size, as long as the others have one too.
    cases own : first.fixed with
    | none => cases rest.mapM Sizes.fixed <;> simp_all [ofFixed, ofLeast]
    | some size => cases rest.mapM Sizes.fixed <;> simp_all [ofFixed, ofLeast, Sizes.part]

/-- One more part in front is added to the others. -/
theorem row_cons (first : Sizes) (parts : List Sizes) :
    row (first :: parts) = first.add (row parts) := by
  -- The parts behind the first one count with their least sizes even where they have one size.
  have least := least_row parts
  rw [row] at least
  rw [add, row, row, List.mapM_cons, List.map_cons, List.sum_cons, ← least]
  cases own : first.fixed with
  | none => cases parts.mapM Sizes.fixed <;> rfl
  | some size => cases parts.mapM Sizes.fixed <;> simp [ofFixed, ofLeast, Sizes.part, own]

end Sizes

/-- The sizes of fields are those of parts one after the other. -/
theorem Schema.fieldSizes_eq_row (fields : List Field) :
    Schema.fieldSizes fields = Sizes.row (fields.map fun field => field.schema.sizes) := by
  -- Both add up the fields from the last one to the first.
  induction fields with
  | nil => rfl
  | cons field rest ih =>
    obtain ⟨name, schema⟩ := field
    rw [Schema.fieldSizes, ih, List.map_cons, Sizes.row_cons]

/-- The least variant is the least of all, where an absent one has no bytes. -/
theorem Schema.leastVariant_eq_min (variants : List (Option Schema)) :
    Schema.leastVariant variants =
      (variants.map fun variant => (variant.map Schema.sizes).elim 0 Sizes.least).min? := by
  induction variants with
  | nil => rfl
  | cons variant rest ih =>
    rw [List.map_cons, List.min?_cons, ← ih]
    cases variant with
    | none =>
      -- Nothing is less than no bytes.
      cases Schema.leastVariant rest <;> simp [Schema.leastVariant]
    | some schema => cases others : Schema.leastVariant rest <;> simp [Schema.leastVariant, others]

/-- What a schema tells about its sizes and its trees. -/
def Schema.layout (schema : Schema) : Layout :=
  ⟨schema.sizes, schema.chunkCount, schema.depth⟩

mutual

/--
A layout that a constructor stores with a schema. Scalars and the type of roots are given theirs
outright, and every other layout is made from those that are stored with the parts of the schema.
-/
def Schema.Carries : Schema → Layout → Prop
  | .scalar type, layout =>
    layout = .ofChunk type.byteLength ∨ layout = .ofChunks (.ofFixed type.byteLength) 1
  | .vector element length, layout =>
    (element = .scalar .uint8 ∧ length = 32 ∧ layout = .ofChunk 32) ∨
      ∃ part, element.Carries part ∧
        layout = .ofChunks (part.sizes.copies length.toNat) (element.elementChunks length.toNat)
  | .list element maxLength, layout =>
    ∃ part, element.Carries part ∧
      layout = .ofChunks (.ofLeast 0) (element.elementChunks maxLength.toNat)
  | .bitvector length, layout =>
    layout = .ofChunks (.ofFixed ((length.toNat + 7) / 8)) ((length.toNat + 255) / 256)
  | .bitlist maxLength, layout => layout = .ofChunks (.ofLeast 1) ((maxLength.toNat + 255) / 256)
  | .container fields, layout =>
    ∃ parts, Schema.CarriesFields fields parts ∧
      layout = .ofChunks (.row (parts.map Layout.sizes)) fields.length
  | .union variants, layout =>
    ∃ parts, Schema.CarriesVariants variants parts ∧
      layout = .ofChunks (.choice (parts.map (Option.map Layout.sizes))) 1

/-- Layouts that are stored with the schemas of fields, one for each. -/
def Schema.CarriesFields : List Field → List Layout → Prop
  | [], parts => parts = []
  | ⟨_, schema⟩ :: fields, parts =>
    ∃ part others, parts = part :: others ∧ schema.Carries part ∧
      Schema.CarriesFields fields others

/-- Layouts that are stored with the schemas of variants, none with an absent one. -/
def Schema.CarriesVariants : List (Option Schema) → List (Option Layout) → Prop
  | [], parts => parts = []
  | none :: variants, parts =>
    ∃ others, parts = none :: others ∧ Schema.CarriesVariants variants others
  | some schema :: variants, parts =>
    ∃ part others, parts = some part :: others ∧ schema.Carries part ∧
      Schema.CarriesVariants variants others

end

namespace Schema

/-- The layout of a vector is made from that of its elements. -/
theorem layout_vector (element : Schema) (length : UInt64) :
    (vector element length).layout =
      .ofChunks (element.layout.sizes.copies length.toNat) (element.elementChunks length.toNat) :=
  congrArg (Layout.ofChunks · _) (Sizes.times_eq_copies element.sizes length.toNat)

/-- The layout of a container is made from those of its fields. -/
theorem layout_container (fields : List Field) :
    (container fields).layout =
      .ofChunks (.row ((fields.map fun field => field.schema.layout).map Layout.sizes))
        fields.length := by
  rw [List.map_map]
  exact congrArg (Layout.ofChunks · _) (fieldSizes_eq_row fields)

/-- The layout of a union is made from those of its variants. -/
theorem layout_union (variants : List (Option Schema)) :
    (union variants).layout =
      .ofChunks (.choice ((variants.map (Option.map layout)).map (Option.map Layout.sizes))) 1 := by
  have least := leastVariant_eq_min variants
  rw [layout, sizes, least, List.map_map, Sizes.choice, List.map_map]
  simp only [Function.comp_def, Option.map_map]
  rfl

end Schema

mutual

/-- The layout that is stored with a schema is the one that the schema tells. -/
theorem Schema.carries_iff : (schema : Schema) → (layout : Layout) →
    (schema.Carries layout ↔ layout = schema.layout)
  -- One chunk needs no depth, so both ways to make a scalar store the same.
  | .scalar _, _ => or_self_iff
  | .vector element length, layout => by
    simp only [Schema.Carries, Schema.carries_iff element, exists_eq_left, Schema.layout_vector]
    constructor
    · intro stored
      rcases stored with ⟨rfl, rfl, rfl⟩ | made
      · -- Thirty-two bytes are one chunk, which is what the type of roots is given.
        rfl
      · exact made
    · exact .inr
  | .list element _, _ => by
    simp only [Schema.Carries, Schema.carries_iff element, exists_eq_left]
    rfl
  | .bitvector _, _ => Iff.rfl
  | .bitlist _, _ => Iff.rfl
  | .container fields, _ => by
    simp only [Schema.Carries, Schema.carriesFields_iff fields, exists_eq_left,
      Schema.layout_container]
  | .union variants, _ => by
    simp only [Schema.Carries, Schema.carriesVariants_iff variants, exists_eq_left,
      Schema.layout_union]

/-- The layouts that are stored with the schemas of fields are those that these tell. -/
theorem Schema.carriesFields_iff : (fields : List Field) → (parts : List Layout) →
    (Schema.CarriesFields fields parts ↔ parts = fields.map fun field => field.schema.layout)
  | [], _ => Iff.rfl
  | ⟨_, schema⟩ :: fields, parts => by
    simp only [Schema.CarriesFields, Schema.carries_iff schema, Schema.carriesFields_iff fields]
    simp

/-- The layouts that are stored with the schemas of variants are those that these tell. -/
theorem Schema.carriesVariants_iff : (variants : List (Option Schema)) →
    (parts : List (Option Layout)) →
      (Schema.CarriesVariants variants parts ↔ parts = variants.map (Option.map Schema.layout))
  -- The empty variant stores no layout, and every other one its own.
  | [], _ => Iff.rfl
  | none :: variants, parts => by
    simp only [Schema.CarriesVariants, Schema.carriesVariants_iff variants]
    simp
  | some schema :: variants, parts => by
    simp only [Schema.CarriesVariants, Schema.carries_iff schema,
      Schema.carriesVariants_iff variants]
    simp

end

end Ssz
