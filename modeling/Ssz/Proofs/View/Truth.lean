import Ssz.Proofs.Codec.Truth
import Ssz.Proofs.Schema.Lookup
import Ssz.Proofs.View.Replace
import Ssz.Proofs.View.Switch
import Ssz.View.Builder
import Ssz.View.Typed

/-! Errors of views tell the truth; so do all others but those of lookups in unions. -/

namespace Ssz

namespace View

section Reading

variable (view : View) (key : Key)

/-- Building the view of a value tells the truth about the value. -/
theorem failsOnly_ofValue (schema : Schema) (value : Value) :
    FailsOnly ViewError.Truthful (ofValue schema value) :=
  (schema.failsOnly_treeOf value).bind fun _ _ => .ok _

/-- Decoding a view tells the truth about the bytes. -/
theorem failsOnly_decode {schema : Schema} (accepted : schema.Accepted) (bytes : Bytes) :
    FailsOnly DecodeError.Truthful (decode schema bytes) :=
  (schema.failsOnly_decode accepted bytes).bind fun _ _ => .ok _

/-- Reading the value of a view tells the truth about its tree. -/
theorem failsOnly_toValue : FailsOnly ViewError.Truthful view.toValue :=
  view.schema.failsOnly_valueOf view.tree

/-- Serializing a view tells the truth about its tree. -/
theorem failsOnly_encode : FailsOnly ViewError.Truthful view.encode :=
  view.schema.failsOnly_encode view.tree

/-- Counting members tells the truth. -/
theorem failsOnly_length : FailsOnly ViewError.Truthful view.length := by
  -- Lists and bitlists have their length in the tree, and the other kinds with one in the schema.
  have stored := view.tree.failsOnly_listParts.bind fun parts _ => .ok parts.2
  unfold length
  split
  · exact .ok _
  · exact .ok _
  · exact stored
  · exact stored
  · exact .ok _
  · exact .error trivial

/-- Asking whether there are members tells the truth. -/
theorem failsOnly_isEmpty : FailsOnly ViewError.Truthful view.isEmpty :=
  view.failsOnly_length.bind fun _ _ => .ok _

/-- Reading the bound on indices tells the truth. -/
theorem failsOnly_bound : FailsOnly ViewError.Truthful view.bound :=
  .ite (fun _ => view.tree.failsOnly_listParts.bind fun _ _ => .ok _) fun _ => .ok _

/-- Reading an integer tells the truth. -/
theorem failsOnly_asUint : FailsOnly ViewError.Truthful view.asUint := by
  refine view.failsOnly_toValue.bind fun value _ => ?_
  split
  · exact .ok _
  · exact .ite (fun _ => .ok _) fun _ => .error trivial
  · exact .error trivial

/-- Reading a truth value tells the truth. -/
theorem failsOnly_asBool : FailsOnly ViewError.Truthful view.asBool := by
  refine view.failsOnly_toValue.bind fun value _ => ?_
  split
  · exact .ok _
  · exact .error trivial

/-- Reading a selector tells the truth. -/
theorem failsOnly_selector : FailsOnly ViewError.Truthful view.selector := by
  -- The selector stands beside the variant, and only a union is asked for it.
  refine FailsOnly.bind ?_ fun parts _ => .ok parts.2
  unfold unionParts
  split
  · exact view.tree.failsOnly_unionParts _
  · exact .error trivial

/-- Reading a variant tells the truth. -/
theorem failsOnly_variant : FailsOnly ViewError.Truthful view.variant := by
  unfold variant
  split
  · exact (view.tree.failsOnly_unionParts _).bind fun _ _ => .ok _
  · exact .error trivial

/-- Asking for a variant by its selector tells the truth, as the wrong one is only named. -/
theorem failsOnly_variantAt : FailsOnly ViewError.Truthful (view.variantAt key) := by
  -- A union has no names, and its selector and its variant are read from the tree.
  cases key with
  | name name => exact .error trivial
  | index requested =>
    refine view.failsOnly_selector.bind fun selector _ => .ite (fun _ => .error trivial) fun _ => ?_
    refine view.failsOnly_variant.bind fun variant _ => ?_
    split
    · exact .ok _
    · exact .error trivial

/-- Reading what is in a slot tells the truth. -/
theorem failsOnly_memberIn (slot : Slot) : FailsOnly ViewError.Truthful (view.memberIn slot) := by
  cases slot with
  | subtree gindex schema => exact (view.tree.failsOnly_navigate gindex).bind fun _ _ => .ok _
  | packed gindex offset type => exact (view.tree.failsOnly_chunkAt gindex).bind fun _ _ => .ok _
  | bit gindex position => exact (view.tree.failsOnly_chunkAt gindex).bind fun _ _ => .ok _

/-- Finding the slot of a member tells the truth where that is not the variant of a union. -/
theorem failsOnly_slotOf (single : view.schema.kind ≠ .union) :
    FailsOnly ViewError.Truthful (view.slotOf key) :=
  view.failsOnly_bound.bind fun bound _ => Schema.failsOnly_slot single key bound

/-- Reading a member tells the truth, as the variants of unions are not read by their slots. -/
theorem failsOnly_get : FailsOnly ViewError.Truthful (view.get key) := by
  by_cases isUnion : view.schema.kind = .union
  · rw [get, isUnion]
    exact view.failsOnly_variantAt key
  · rw [get_eq_memberIn isUnion]
    exact (view.failsOnly_slotOf key isUnion).bind fun slot _ => view.failsOnly_memberIn slot

end Reading

section Writing

variable (view : View) (key : Key)

/-- Writing bytes into a chunk tells the truth. -/
theorem failsOnly_writeBytes (gindex : Gindex) (offset : Nat) (bytes : Bytes) :
    FailsOnly ViewError.Truthful (view.writeBytes gindex offset bytes) :=
  (view.tree.failsOnly_chunkAt gindex).bind fun _ _ => view.tree.failsOnly_update gindex _

/-- Writing a bit into a chunk tells the truth. -/
theorem failsOnly_writeBit (gindex : Gindex) (position : Nat) (bit : Bool) :
    FailsOnly ViewError.Truthful (view.writeBit gindex position bit) :=
  (view.tree.failsOnly_chunkAt gindex).bind fun _ _ => view.tree.failsOnly_update gindex _

/-- Writing another view into a slot tells the truth. -/
theorem failsOnly_writeView (slot : Slot) (member : View) :
    FailsOnly ViewError.Truthful (view.writeView slot member) := by
  -- Another schema is refused for each kind of slot, before the tree is touched.
  cases slot with
  | subtree gindex schema =>
    exact .ite (fun _ => .error trivial) fun _ => view.tree.failsOnly_update gindex _
  | packed gindex offset type =>
    refine .ite (fun _ => .error trivial) fun _ => ?_
    exact (member.tree.failsOnly_chunkAt _).bind fun _ _ => view.failsOnly_writeBytes gindex offset _
  | bit gindex position =>
    refine .ite (fun _ => .error trivial) fun _ => ?_
    exact member.failsOnly_asBool.bind fun bit _ => view.failsOnly_writeBit gindex position bit

/-- Writing a value into a slot tells the truth, as its tree is written like another view. -/
theorem failsOnly_writeValue (slot : Slot) (value : Value) :
    FailsOnly ViewError.Truthful (view.writeValue slot value) := by
  rw [writeValue_eq_writeView]
  exact (slot.schema.failsOnly_treeOf value).bind fun _ _ => view.failsOnly_writeView slot _

/-- Switching a union to a value tells the truth. -/
theorem failsOnly_setVariant (selector : UInt32) (value : Option Value) :
    FailsOnly ViewError.Truthful (view.setVariant selector value) := by
  unfold setVariant
  split
  · exact failsOnly_ofValue _ _
  · exact .error trivial

/-- Switching a union to another view tells the truth. -/
theorem failsOnly_setVariantView (selector : UInt32) (member : Option View) :
    FailsOnly ViewError.Truthful (view.setVariantView selector member) := by
  unfold setVariantView
  split
  · split
    · -- A selector without an entry among the variants is not below their number.
      rename_i missing
      exact .error (List.getElem?_eq_none_iff.mp missing)
    · exact .ok _
    · exact .ite (fun _ => .ok _) fun _ => .error trivial
    · exact .error trivial
  · exact .error trivial

/-- Taking a key for a selector tells the truth. -/
theorem failsOnly_selectorOf : FailsOnly ViewError.Truthful (selectorOf key) := by
  cases key with
  | name name => exact .error trivial
  | index index => exact .ok _

/-- Replacing a member by a value tells the truth. -/
theorem failsOnly_set (value : Value) : FailsOnly ViewError.Truthful (view.set key value) := by
  -- A union is switched to the value instead of having it written into a slot.
  by_cases isUnion : view.schema.kind = .union
  · rw [set, isUnion]
    exact (failsOnly_selectorOf key).bind fun selector _ => view.failsOnly_setVariant selector _
  · rw [set_eq_writeView isUnion]
    refine (view.failsOnly_slotOf key isUnion).bind fun slot _ => ?_
    refine (slot.schema.failsOnly_treeOf value).bind fun node _ => ?_
    exact (view.failsOnly_writeView slot _).bind fun _ _ => .ok _

/-- Replacing a member by another view tells the truth. -/
theorem failsOnly_setView (member : View) :
    FailsOnly ViewError.Truthful (view.setView key member) := by
  -- A union is switched to the view instead of having it written into a slot.
  by_cases isUnion : view.schema.kind = .union
  · rw [setView, isUnion]
    exact (failsOnly_selectorOf key).bind fun selector _ => view.failsOnly_setVariantView selector _
  · rw [setView_eq_writeView isUnion]
    refine (view.failsOnly_slotOf key isUnion).bind fun slot _ => ?_
    exact (view.failsOnly_writeView slot member).bind fun _ _ => .ok _

/-- Asking for the greatest length tells the truth, and only lists and bitlists have one. -/
theorem failsOnly_maxLength : FailsOnly ViewError.Truthful view.maxLength ∧
    ∀ max, view.maxLength = .ok max → view.schema.kind ≠ .union := by
  -- Only two kinds answer, and neither of them is the union, whose slots misreport.
  unfold maxLength
  obtain ⟨schema, tree⟩ := view
  cases schema with
  | list element max => exact ⟨.ok max, fun _ _ => nofun⟩
  | bitlist max => exact ⟨.ok max, fun _ _ => nofun⟩
  | _ => exact ⟨.error trivial, nofun⟩

/-- Appending tells the truth: the length that is too great is the one after appending. -/
theorem failsOnly_append (value : Value) : FailsOnly ViewError.Truthful (view.append value) := by
  -- The slot behind the last member is asked for by its number, and no union gets that far.
  obtain ⟨honest, single⟩ := view.failsOnly_maxLength
  refine honest.bind fun max limited => ?_
  refine view.tree.failsOnly_listParts.bind fun (content, length) _ => ?_
  refine .ite (fun full => .error (Nat.lt_succ_of_le (UInt64.le_iff_toNat_le.mp full))) fun _ => ?_
  refine (Schema.failsOnly_slotAt (single max limited) length _).bind fun slot _ => ?_
  refine (view.failsOnly_writeValue slot value).bind fun node _ => ?_
  split
  · exact .ok _
  · exact .error trivial

end Writing

end View

namespace Builder

variable (builder : Builder) (key : Key) (isContainer : builder.base.schema.kind = .container)

include isContainer in
/-- Finding a field for a builder tells the truth. -/
theorem failsOnly_fieldSlot : FailsOnly ViewError.Truthful (builder.fieldSlot key) := by
  -- A builder has a container, so the slots of unions are not asked for.
  have single : builder.base.schema.kind ≠ .union := by
    rw [isContainer]
    decide
  refine (Schema.failsOnly_slot single key none).bind fun slot _ => ?_
  split
  · exact .ok _
  · exact .error trivial

include isContainer in
/-- Asking for a field to be replaced by a value tells the truth. -/
theorem failsOnly_set (value : Value) : FailsOnly ViewError.Truthful (builder.set key value) :=
  (builder.failsOnly_fieldSlot key isContainer).bind fun (_, schema) _ =>
    (schema.failsOnly_treeOf value).bind fun _ _ => .ok _

include isContainer in
/-- Asking for a field to be replaced by another view tells the truth. -/
theorem failsOnly_setView (member : View) :
    FailsOnly ViewError.Truthful (builder.setView key member) :=
  (builder.failsOnly_fieldSlot key isContainer).bind fun _ _ =>
    .ite (fun _ => .error trivial) fun _ => .ok _

/-- Writing the updates of a builder tells the truth. -/
theorem failsOnly_commit : FailsOnly ViewError.Truthful builder.commit :=
  (builder.base.tree.failsOnly_updateMany _ builder.updates).bind fun _ _ => .ok _

end Builder

/-- What it means that an index beyond 32 bits is that of no variant, though it may be narrowed. -/
structure RefusesWide (variants : List (Option Schema)) (index : UInt64) : Prop where
  /-- Setting it to a value is refused for the greatest selector, which is out of range. -/
  set : ∀ tree value, View.set ⟨.union variants, tree⟩ (.index index) value =
    .error (.unionSelectorOutOfRange 4294967295 variants.length)
  /-- Setting it to another view is refused for the same reason. -/
  setView : ∀ tree member, View.setView ⟨.union variants, tree⟩ (.index index) member =
    .error (.unionSelectorOutOfRange 4294967295 variants.length)
  /-- It is not read, whichever variant is selected. -/
  get : ∀ tree member, View.get ⟨.union variants, tree⟩ (.index index) ≠ .ok member
  /-- It has no position. -/
  elementGindex : ∀ gindex, (Schema.union variants).elementGindex index ≠ .ok gindex

/-- Indices beyond 32 bits select no variant of an accepted union. -/
theorem refusesWide {variants : List (Option Schema)} (accepted : (Schema.union variants).Accepted)
    {index : UInt64} (wide : UInt32.size ≤ index.toNat) : RefusesWide variants index := by
  have few := accepted.variants_le
  have narrowed : View.selectorOf (.index index) = .ok 4294967295 := by
    rw [View.selectorOf, if_neg (Nat.not_lt.mpr wide)]
  -- The greatest selector and the index itself are both out of range.
  have beyond : variants.length ≤ (4294967295 : UInt32).toNat := Nat.le_trans few (by decide)
  have outside : variants.length ≤ index.toNat :=
    Nat.le_trans few (Nat.le_trans (by decide) wide)
  refine ⟨fun tree value => ?_, fun tree member => ?_, fun tree member read => ?_, fun gindex => ?_⟩
  · simp only [View.set, Schema.kind, narrowed, ok_bind]
    rw [View.setVariant_eq_ofValue rfl, View.ofValue, Schema.treeOf, if_pos beyond]
    rfl
  · simp only [View.setView, Schema.kind, narrowed, ok_bind, View.setVariantView,
      List.getElem?_eq_none beyond]
    rfl
  · simp only [View.get, Schema.kind, View.variantAt] at read
    obtain ⟨selector, _, read⟩ := bind_eq_ok.mp read
    -- A stored selector has 32 bits, so that the index is another one.
    have other : index ≠ selector.toUInt64 := by
      rintro rfl
      have narrow := selector.toNat_lt
      rw [UInt32.toNat_toUInt64, UInt32.size] at wide
      omega
    rw [if_pos other] at read
    cases read
  · rw [Schema.elementGindex, Schema.slotAt, List.getElem?_eq_none outside]
    simp

/-- What it means that operations on schemas tell the truth where they fail. -/
structure Schema.TellsTruth (schema : Schema) : Prop where
  /-- Finding a field by its name. -/
  fields : ∀ name, FailsOnly ViewError.Truthful (schema.fieldIndex name) ∧
    FailsOnly ViewError.Truthful (schema.fieldGindex name)
  /-- Asking for the positions beside the content. -/
  besides : FailsOnly ViewError.Truthful schema.lengthGindex ∧
    FailsOnly ViewError.Truthful schema.variantGindex
  /-- Making the view of a value, or its root alone. -/
  values : ∀ value, FailsOnly ViewError.Truthful (View.ofValue schema value) ∧
    ∀ config, FailsOnly ViewError.Truthful (schema.rootOf config value)
  /-- Decoding bytes. -/
  decodes : ∀ bytes, FailsOnly DecodeError.Truthful (View.decode schema bytes) ∧
    FailsOnly DecodeError.Truthful (TypedView.decode schema bytes)
  /-- Asking for the position of an element, apart from the indices that are misreported. -/
  elements : ∀ index, FailsOnly (fun fault => fault.Truthful ↔ ¬ schema.Misreports (.index index))
    (schema.elementGindex index)
  /-- Following a path, apart from those that come to a key that is misreported. -/
  paths : ∀ path, FailsOnly (fun fault => fault.Truthful ↔ ¬ schema.Misleads Gindex.root path)
    (schema.gindexOf path)
  /-- What is misreported does fail. -/
  misreports : (∀ index, schema.Misreports (.index index) →
      ∃ fault, schema.elementGindex index = .error fault) ∧
    ∀ path, schema.Misleads Gindex.root path → ∃ fault, schema.gindexOf path = .error fault
  /-- Indices that do not fit in 32 bits are not taken for others. -/
  wide : ∀ variants index, schema = .union variants → UInt32.size ≤ index.toNat →
    RefusesWide variants index

/-- All operations on accepted schemas tell the truth, but for what unions misreport. -/
theorem Schema.Accepted.tellsTruth {schema : Schema} (accepted : schema.Accepted) :
    schema.TellsTruth where
  -- Everything but slots and paths is truthful outright; those are so unless they misreport.
  fields name := ⟨schema.failsOnly_fieldIndex name,
    (schema.failsOnly_fieldIndex name).bind fun _ _ => .ok _⟩
  besides := by
    refine ⟨.ite (fun _ => .ok 3) fun _ => .error trivial, ?_⟩
    cases schema with
    | union variants => exact .ok (2, 3)
    | _ => exact .error trivial
  values value := ⟨View.failsOnly_ofValue schema value,
    fun config => Schema.failsOnly_rootOf config accepted value⟩
  decodes bytes := ⟨View.failsOnly_decode accepted bytes,
    (schema.failsOnly_decode accepted bytes).bind fun _ _ => .ok _⟩
  elements index := by
    refine FailsOnly.bind (fun fault failed => ?_) fun slot _ => .ok slot.gindex
    exact truthful_iff_of_slot (show schema.slot (.index index) none = .error fault from failed)
  paths path _ := truthful_iff_of_gindexBelow
  misreports := by
    refine ⟨fun index misreports => ?_, fun path misleads => misleads.gindexBelow⟩
    obtain ⟨fault, refused⟩ := misreports.slot none
    exact ⟨fault, by rw [elementGindex, show schema.slotAt index none = _ from refused]; rfl⟩
  wide := by
    rintro variants index rfl far
    exact refusesWide accepted far

/-- What it means that operations on a view tell the truth where they fail. -/
structure View.TellsTruth (view : View) : Prop where
  /-- Reading the whole value, as a value, as bytes, or as what it is expected to be. -/
  whole : FailsOnly ViewError.Truthful view.toValue ∧ FailsOnly ViewError.Truthful view.encode ∧
    FailsOnly ViewError.Truthful view.asUint ∧ FailsOnly ViewError.Truthful view.asBool
  /-- Counting members. -/
  counts : FailsOnly ViewError.Truthful view.length ∧ FailsOnly ViewError.Truthful view.isEmpty
  /-- Reading a member. -/
  members : ∀ key, FailsOnly ViewError.Truthful (view.get key) ∧
    FailsOnly ViewError.Truthful (view.getUint key) ∧
    FailsOnly ViewError.Truthful (view.getBool key)
  /-- Reading the variant of a union. -/
  unions : FailsOnly ViewError.Truthful view.selector ∧ FailsOnly ViewError.Truthful view.variant
  /-- Replacing a member. -/
  sets : ∀ key, (∀ value, FailsOnly ViewError.Truthful (view.set key value)) ∧
    ∀ member, FailsOnly ViewError.Truthful (view.setView key member)
  /-- Switching a union. -/
  switches : ∀ selector,
    (∀ value, FailsOnly ViewError.Truthful (view.setVariant selector value)) ∧
    ∀ member, FailsOnly ViewError.Truthful (view.setVariantView selector member)
  /-- Appending to a list. -/
  appends : (∀ value, FailsOnly ViewError.Truthful (view.append value)) ∧
    ∀ values, FailsOnly ViewError.Truthful (view.extend values)
  /-- Proving a node. -/
  proves : ∀ gindex, FailsOnly ViewError.Truthful (view.prove gindex)
  /-- Taking the view for one of a given schema. -/
  types : ∀ schema, FailsOnly ViewError.Truthful (TypedView.ofView schema view)
  /-- Gathering updates and writing them, where the view is that of a container. -/
  builds : FailsOnly ViewError.Truthful view.builder ∧ (view.schema.kind = .container →
    ∀ updates, (∀ key value, FailsOnly ViewError.Truthful (Builder.set ⟨view, updates⟩ key value)) ∧
      (∀ key member, FailsOnly ViewError.Truthful (Builder.setView ⟨view, updates⟩ key member)) ∧
      FailsOnly ViewError.Truthful (Builder.commit ⟨view, updates⟩))

/-- All operations on a view tell the truth. -/
theorem View.tellsTruth (view : View) : view.TellsTruth where
  -- Each operation was shown to tell the truth; here they are gathered.
  whole := ⟨view.failsOnly_toValue, view.failsOnly_encode, view.failsOnly_asUint,
    view.failsOnly_asBool⟩
  counts := ⟨view.failsOnly_length, view.failsOnly_isEmpty⟩
  members key := ⟨view.failsOnly_get key,
    (view.failsOnly_get key).bind fun member _ => member.failsOnly_asUint,
    (view.failsOnly_get key).bind fun member _ => member.failsOnly_asBool⟩
  unions := ⟨view.failsOnly_selector, view.failsOnly_variant⟩
  sets key := ⟨view.failsOnly_set key, view.failsOnly_setView key⟩
  switches selector := ⟨view.failsOnly_setVariant selector, view.failsOnly_setVariantView selector⟩
  appends := ⟨view.failsOnly_append, FailsOnly.foldlM (fun state => state.failsOnly_append) view⟩
  proves := view.tree.failsOnly_prove
  types schema := by
    unfold TypedView.ofView
    split
    · exact .ok _
    · exact .error trivial
  builds := by
    constructor
    · unfold builder
      split
      · exact .ok _
      · exact .error trivial
    · intro isContainer updates
      exact ⟨fun key => Builder.failsOnly_set ⟨view, updates⟩ key isContainer,
        fun key => Builder.failsOnly_setView ⟨view, updates⟩ key isContainer,
        Builder.failsOnly_commit ⟨view, updates⟩⟩

/--
Errors tell the truth, on all trees, accepted schemas and views: numbers told as out of bounds, too
great, too short or left over are so, except for the selectors that lookups in unions misreport.
-/
theorem errorsTellTruth (tree : Tree) {schema : Schema} (accepted : schema.Accepted) (view : View) :
    tree.TellsTruth ∧ schema.TellsTruth ∧ view.TellsTruth :=
  ⟨tree.tellsTruth, accepted.tellsTruth, view.tellsTruth⟩

/-- A selector that is decoded is out of range as told, and one that was cut to 32 bits is not. -/
theorem errorsTellTruth_selector :
    View.decode (.union [none, some (.scalar .uint8)]) [2, 0, 0, 0] =
      .error (.unionSelectorOutOfRange 2 2) ∧
    (DecodeError.unionSelectorOutOfRange 2 2).Truthful ∧
    (Schema.union [none, some (.scalar .uint8)]).elementGindex 4294967298 =
      .error (.unionSelectorOutOfRange 2 2) ∧
    (ViewError.unionSelectorOutOfRange 2 2).Truthful ∧
    (Schema.union [none, some (.scalar .uint8)]).elementGindex 4294967297 =
      .error (.unionSelectorOutOfRange 1 2) ∧
    ¬ (ViewError.unionSelectorOutOfRange 1 2).Truthful := by
  have accepted : (Schema.union [none, some (.scalar .uint8)]).Accepted := ⟨⟨trivial, trivial⟩, rfl⟩
  obtain ⟨-, honest, -⟩ := errorsTellTruth (.leaf Chunk.zero) accepted (View.ofDefault Schema.bytes32)
  -- The decoder refuses the selector 2 itself; the others are 2 and 1 only in their last 32 bits.
  refine ⟨rfl, (honest.decodes [2, 0, 0, 0]).1 _ rfl, rfl, ?_, rfl, ?_⟩
  · refine (honest.elements 4294967298 _ rfl).mpr ?_
    rintro (empty | ⟨_, within⟩)
    · cases empty
    · exact absurd within (by decide)
  · intro truthful
    exact (honest.elements 4294967297 _ rfl).mp truthful (.inr ⟨by decide, by decide⟩)

/-- Lookups in a union with an empty variant name selectors as out of range that are in range. -/
theorem misreported_selectors :
    (Schema.union [none, some (.scalar .uint8)]).Accepted ∧
    ¬ FailsOnly ViewError.Truthful
      ((Schema.union [none, some (.scalar .uint8)]).elementGindex 4294967296) ∧
    ¬ FailsOnly ViewError.Truthful
      ((Schema.union [none, some (.scalar .uint8)]).gindexOf [.index 0]) := by
  refine ⟨⟨⟨trivial, trivial⟩, rfl⟩, fun honest => ?_, fun honest => ?_⟩
  · -- The index is cut to selector zero, and reported as that.
    exact absurd (honest (.unionSelectorOutOfRange 0 2) rfl) (by decide)
  · exact absurd (honest (.unionSelectorOutOfRange 0 2) rfl) (by decide)

end Ssz
