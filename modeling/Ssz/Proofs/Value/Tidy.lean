import Ssz.Proofs.Value.Tree

/-! What canonical trees look like: lengths and selectors in range, and zeros where nothing is. -/

namespace Ssz

namespace Tree

/--
A full tree of leaves whose bits are all clear from a number on, and whose bytes are truth values
where that is asked for.
-/
def TidyLeaves (tree : Tree) (depth used : Nat) (truthValues : Prop) : Prop :=
  ∃ chunks : Nat → Chunk, tree = full depth (fun i => leaf (chunks i)) ∧
    (∀ i position, position < 256 → used ≤ 256 * i + position →
      (chunks i).getBit position = false) ∧
    (truthValues → ∀ i, ∀ byte ∈ (chunks i).toList, byte ≤ 1)

/-- A content tree that is tidy in each element, and has zeros behind the last one. -/
def TidyElements (element : Schema) (tidy : Tree → Prop) (count depth : Nat) (content : Tree) :
    Prop :=
  match element.scalar? with
  | some type => content.TidyLeaves depth (8 * (count * type.byteLength)) (type = .boolean)
  | none => ∃ nodes, nodes.length = count ∧ (∀ node ∈ nodes, tidy node) ∧
    content = ofNodes depth nodes

end Tree

mutual

/--
A tree of a schema in which no length exceeds its maximum, every selector names a variant, every
truth value is zero or one, and all padding and every unused position is zero.
-/
def Schema.Tidy : Schema → Tree → Prop
  -- Lengths and selectors are bounded here, and the leaves say how many bits are in use.
  | .scalar type, tree => tree.TidyLeaves 0 (8 * type.byteLength) (type = .boolean)
  | .vector element length, tree =>
    Tree.TidyElements element element.Tidy length.toNat (Schema.vector element length).depth tree
  | .list element maxLength, tree =>
    ∃ (content : Tree) (length : UInt64), tree = content.withLength length ∧ length ≤ maxLength ∧
      Tree.TidyElements element element.Tidy length.toNat (Schema.list element maxLength).depth
        content
  | .bitvector length, tree =>
    tree.TidyLeaves (Schema.bitvector length).depth length.toNat False
  | .bitlist maxLength, tree =>
    ∃ (content : Tree) (length : UInt64), tree = content.withLength length ∧ length ≤ maxLength ∧
      content.TidyLeaves (Schema.bitlist maxLength).depth length.toNat False
  | .container fields, tree =>
    ∃ nodes, Schema.TidyFields fields nodes ∧
      tree = Tree.ofNodes (Schema.container fields).depth nodes
  | .union variants, tree =>
    ∃ (variant : Tree) (selector : UInt32), tree = variant.withSelector selector ∧
      selector.toNat < variants.length ∧ Schema.TidyVariant variants selector.toNat variant

/-- One tidy tree for each field. -/
def Schema.TidyFields : List Field → List Tree → Prop
  | [], [] => True
  | ⟨_, schema⟩ :: fields, node :: nodes => schema.Tidy node ∧ Schema.TidyFields fields nodes
  | _, _ => False

/-- A tidy tree of the selected variant, a zero leaf for the empty one. -/
def Schema.TidyVariant : List (Option Schema) → (selector : Nat) → Tree → Prop
  | some schema :: _, 0, tree => schema.Tidy tree
  | none :: _, 0, tree => tree = .leaf Chunk.zero
  | _ :: rest, selector + 1, tree => Schema.TidyVariant rest selector tree
  | [], _, _ => False

end

namespace Tree

/-- The tree of a byte string is tidy where its bits end, and in bytes that are truth values. -/
theorem tidyLeaves_ofBytes {bytes : Bytes} {used : Nat} {truthValues : Prop} (depth : Nat)
    (clear : ∀ i, used ≤ i → bytes.bitAt i = false)
    (small : truthValues → ∀ byte ∈ bytes, byte ≤ 1) :
    (ofBytes depth bytes).TidyLeaves depth used truthValues := by
  refine ⟨Chunk.window bytes, rfl, ?_, ?_⟩
  · -- A bit of a leaf is the bit of the bytes at the same place.
    intro i position within past
    rw [Chunk.getBit_window _ _ _ within]
    exact clear _ past
  · intro wanted i byte member
    obtain ⟨k, within, rfl⟩ := List.getElem_of_mem member
    rw [Vector.length_toList] at within
    rw [Vector.getElem_toList, Chunk.getElem_window, List.getD_eq_getElem?_getD]
    -- Behind the bytes there are zeros, and zero is a truth value.
    cases found : bytes[32 * i + k]? with
    | none => exact UInt8.zero_le
    | some byte => exact small wanted byte (List.mem_of_getElem? found)

/-- The tree of packed scalars is tidy. -/
theorem tidyLeaves_packed {type : Scalar} {pieces : List Bytes}
    (spelled : ∀ piece ∈ pieces, type.Spelled piece) (depth : Nat) :
    (ofBytes depth pieces.flatten).TidyLeaves depth (8 * (pieces.length * type.byteLength))
      (type = .boolean) := by
  apply tidyLeaves_ofBytes
  · intro i past
    -- The spellings take up whole bytes, and nothing lies behind them.
    exact Bytes.bitAt_of_le (Scalar.length_flatten spelled ▸ past)
  · intro same byte member
    obtain ⟨piece, inside, within⟩ := List.mem_flatten.mp member
    exact (spelled piece inside).2 same byte within

/-- The tree of packed bits is tidy. -/
theorem tidyLeaves_packBits (bits : List Bool) (depth : Nat) :
    (ofBytes depth (packBits bits)).TidyLeaves depth bits.length False := by
  apply tidyLeaves_ofBytes
  · intro i past
    -- Packing leaves the rest of the last byte clear.
    rw [bitAt_packBits, List.getD_eq_getElem?_getD, List.getElem?_eq_none past, Option.getD_none]
  · nofun

/-- A content tree that holds elements is tidy, if the trees of elements are. -/
theorem tidyElements_of_holds {element : Schema} {elements : List Value} {depth : Nat}
    {content : Tree}
    (each : ∀ value tree, element.Represents value tree → element.Tidy tree)
    (holds : HoldsElements element element.Represents elements depth content) :
    TidyElements element element.Tidy elements.length depth content := by
  cases own : element.scalar? with
  | some type =>
    obtain ⟨pieces, spelled, rfl, rfl⟩ := (holdsElements_packed own).mp holds
    rw [TidyElements, own, List.length_map]
    exact tidyLeaves_packed spelled depth
  | none =>
    obtain ⟨nodes, related, rfl⟩ := (holdsElements_subtrees own).mp holds
    rw [TidyElements, own]
    refine ⟨nodes, related.length_eq.symm, ?_, rfl⟩
    intro node member
    -- The node is that of the element with the same number.
    obtain ⟨i, bound, rfl⟩ := List.getElem_of_mem member
    exact each _ _ (related.get (related.length_eq ▸ bound) bound)

end Tree

mutual

/-- The tree that represents a value is tidy. -/
theorem Schema.tidy_of_represents : (schema : Schema) → (value : Value) → (tree : Tree) →
    schema.Represents value tree → schema.Tidy tree
  | .scalar type, value, tree, represents => by
    obtain ⟨bytes, spelled, rfl, rfl⟩ := represents
    -- A scalar is the only piece in a tree of a single leaf.
    have alone := @Tree.tidyLeaves_packed type [bytes] (by simpa using spelled) 0
    simpa [Schema.Tidy, Tree.ofBytes, Tree.full, Tree.leafOfBytes, Chunk.padded_eq_window]
      using alone
  | .vector element length, value, tree, represents => by
    obtain ⟨elements, rfl, sized, holds⟩ := represents
    rw [Schema.Tidy, ← sized]
    exact Tree.tidyElements_of_holds (Schema.tidy_of_represents element) holds
  | .list element maxLength, value, tree, represents => by
    obtain ⟨elements, content, rfl, bounded, holds, rfl⟩ := represents
    -- The stored length is the number of elements, as the maximum is a word.
    have count := toNat_ofNat_of_le_word bounded
    refine ⟨content, _, rfl, ?_, ?_⟩
    · rw [UInt64.le_iff_toNat_le, count]
      exact bounded
    · rw [count]
      exact Tree.tidyElements_of_holds (Schema.tidy_of_represents element) holds
  | .bitvector length, value, tree, represents => by
    obtain ⟨bits, rfl, sized, rfl⟩ := represents
    rw [Schema.Tidy, ← sized]
    exact Tree.tidyLeaves_packBits bits _
  | .bitlist maxLength, value, tree, represents => by
    obtain ⟨bits, rfl, bounded, rfl⟩ := represents
    have count := toNat_ofNat_of_le_word bounded
    refine ⟨_, _, rfl, ?_, ?_⟩
    · rw [UInt64.le_iff_toNat_le, count]
      exact bounded
    · rw [count]
      exact Tree.tidyLeaves_packBits bits _
  | .container fields, value, tree, represents => by
    obtain ⟨members, nodes, rfl, each, rfl⟩ := represents
    exact ⟨nodes, Schema.tidy_of_representsFields fields members nodes each, rfl⟩
  | .union variants, value, tree, represents => by
    obtain ⟨selector, payload, variant, rfl, chosen, rfl⟩ := represents
    exact ⟨variant, selector, rfl, chosen.lt_length,
      Schema.tidy_of_representsVariant variants _ payload variant chosen⟩

/-- The trees that represent the members of a container are tidy. -/
theorem Schema.tidy_of_representsFields : (fields : List Field) → (members : List Value) →
    (nodes : List Tree) → Schema.RepresentsFields fields members nodes →
      Schema.TidyFields fields nodes
  | [], [], [], _ => trivial
  | ⟨_, schema⟩ :: fields, member :: members, node :: nodes, represents =>
    ⟨Schema.tidy_of_represents schema member node represents.1,
      Schema.tidy_of_representsFields fields members nodes represents.2⟩

/-- The tree that represents the payload of a union is tidy. -/
theorem Schema.tidy_of_representsVariant : (variants : List (Option Schema)) →
    (selector : Nat) → (payload : Option Value) → (tree : Tree) →
      Schema.RepresentsVariant variants selector payload tree →
        Schema.TidyVariant variants selector tree
  | some schema :: _, 0, some value, tree, represents =>
    -- Only the chosen variant has a tree, and selectors count down to it.
    Schema.tidy_of_represents schema value tree represents
  | none :: _, 0, none, _, represents => represents
  | some _ :: rest, selector + 1, payload, tree, represents =>
    Schema.tidy_of_representsVariant rest selector payload tree represents
  | none :: rest, selector + 1, payload, tree, represents =>
    Schema.tidy_of_representsVariant rest selector payload tree represents

end

end Ssz
