import Ssz.Proofs.Codec.Accepts
import Ssz.Proofs.Value.Tidy
import Ssz.Proofs.View.Canonical
import Ssz.View.Typed

/-! Reachable views: whatever was done to them, each tree is the canonical one of its value. -/

namespace Ssz

mutual

/-- Views that are made from nothing, from values or from bytes, and then by operations on views. -/
inductive View.Reachable : View → Prop
  | ofDefault {schema : Schema} (accepted : schema.Accepted) : (View.ofDefault schema).Reachable
  | ofValue {schema : Schema} (accepted : schema.Accepted) {value : Value} {view : View}
      (built : View.ofValue schema value = .ok view) : view.Reachable
  | decode {schema : Schema} (accepted : schema.Accepted) {bytes : Bytes} {view : View}
      (read : View.decode schema bytes = .ok view) : view.Reachable
  -- Members of reachable views are reachable, and may be written into other views.
  | get {view member : View} (parent : view.Reachable) {key : Key}
      (found : view.get key = .ok member) : member.Reachable
  | getAt {view member : View} (parent : view.Reachable) {index : UInt64}
      (found : view.getAt index = .ok member) : member.Reachable
  | getField {view member : View} (parent : view.Reachable) {name : String}
      (found : view.getField name = .ok member) : member.Reachable
  | variant {view member : View} (parent : view.Reachable)
      (found : view.variant = .ok (some member)) : member.Reachable
  | set {view updated : View} (before : view.Reachable) {key : Key} {value : Value}
      (done : view.set key value = .ok updated) : updated.Reachable
  | setView {view member updated : View} (before : view.Reachable) (inner : member.Reachable)
      {key : Key} (done : view.setView key member = .ok updated) : updated.Reachable
  | setBit {view updated : View} (before : view.Reachable) {index : UInt64} {bit : Bool}
      (done : view.setBit index bit = .ok updated) : updated.Reachable
  | append {view updated : View} (before : view.Reachable) {value : Value}
      (done : view.append value = .ok updated) : updated.Reachable
  | appendBit {view updated : View} (before : view.Reachable) {bit : Bool}
      (done : view.appendBit bit = .ok updated) : updated.Reachable
  | extend {view updated : View} (before : view.Reachable) {values : List Value}
      (done : view.extend values = .ok updated) : updated.Reachable
  | setVariant {view updated : View} (before : view.Reachable) {selector : UInt32}
      {value : Option Value} (done : view.setVariant selector value = .ok updated) :
      updated.Reachable
  | setVariantView {view updated : View} (before : view.Reachable) {selector : UInt32}
      {member : Option View} (inner : ∀ other, member = some other → other.Reachable)
      (done : view.setVariantView selector member = .ok updated) : updated.Reachable
  | commit {builder : Builder} (gathered : builder.Reachable) {view : View}
      (done : builder.commit = .ok view) : view.Reachable

/-- Builders on reachable containers that gather values and reachable views. -/
inductive Builder.Reachable : Builder → Prop
  | builder {view : View} (base : view.Reachable) {builder : Builder}
      (opened : view.builder = .ok builder) : builder.Reachable
  | set {builder updated : Builder} (before : builder.Reachable) {key : Key} {value : Value}
      (done : builder.set key value = .ok updated) : updated.Reachable
  | setView {builder updated : Builder} (before : builder.Reachable) {member : View}
      (inner : member.Reachable) {key : Key} (done : builder.setView key member = .ok updated) :
      updated.Reachable

end

/-- Bytes are decoded into a view of the schema when they are into its tree. -/
theorem View.decode_eq_ok {schema : Schema} {bytes : Bytes} {view : View} :
    View.decode schema bytes = .ok view ↔
      view.schema = schema ∧ schema.decode bytes = .ok view.tree := by
  -- The schema of a decoded view is the one that was asked for.
  simp only [View.decode, bind_eq_ok, pure_eq_ok, Except.ok.injEq]
  constructor
  · intro decoded
    obtain ⟨tree, built, rfl⟩ := decoded
    exact ⟨rfl, built⟩
  · intro decoded
    obtain ⟨rfl, built⟩ := decoded
    exact ⟨view.tree, built, rfl⟩

/-- The view of decoded bytes is canonical. -/
theorem View.canonical_decode {schema : Schema} (accepted : schema.Accepted) {bytes : Bytes}
    {view : View} (read : View.decode schema bytes = .ok view) : view.Canonical := by
  obtain ⟨rfl, built⟩ := View.decode_eq_ok.mp read
  obtain ⟨value, represents, _⟩ := Schema.decode_sound _ accepted bytes view.tree built
  exact ⟨accepted, value, represents⟩

mutual

/-- Every operation keeps views canonical, so all reachable views are. -/
theorem View.Reachable.canonical : {view : View} → view.Reachable → view.Canonical
  -- One case for each operation, each closed by what the operation keeps.
  | _, .ofDefault accepted => View.canonical_ofDefault accepted
  | _, .ofValue accepted built => View.canonical_ofValue accepted built
  | _, .decode accepted read => View.canonical_decode accepted read
  | _, .get parent found => parent.canonical.get found
  | _, .getAt parent found => parent.canonical.get found
  | _, .getField parent found => parent.canonical.get found
  | _, .variant parent found => parent.canonical.variant found
  | _, .set before done => before.canonical.set done
  | _, .setView before inner done => before.canonical.setView inner.canonical done
  | _, .setBit before done => before.canonical.set done
  | _, .append before done => before.canonical.append done
  | _, .appendBit before done => before.canonical.append done
  | _, .extend before done => before.canonical.extend done
  | _, .setVariant before done => before.canonical.setVariant done
  | _, .setVariantView before inner done =>
    before.canonical.setVariantView (fun other same => (inner other same).canonical) done
  | _, .commit gathered done => by
    obtain ⟨_, canonical⟩ := gathered.canonical
    exact canonical.commit done

/-- Reachable builders gather canonical trees for the fields of a canonical container. -/
theorem Builder.Reachable.canonical : {builder : Builder} → builder.Reachable →
    ∃ fields, builder.Canonical fields
  -- The fields are those of the container that was opened, through all updates.
  | _, .builder base opened => Builder.canonical_builder base.canonical opened
  | _, .set before done => by
    obtain ⟨fields, canonical⟩ := before.canonical
    exact ⟨fields, canonical.set done⟩
  | _, .setView before inner done => by
    obtain ⟨fields, canonical⟩ := before.canonical
    exact ⟨fields, canonical.setView inner.canonical done⟩

end

/-- The value of a canonical view is read from it, and builds the same view again. -/
theorem View.Canonical.rebuilt {view : View} (canonical : view.Canonical) :
    ∃ value, view.toValue = .ok value ∧ View.ofValue view.schema value = .ok view ∧
      view.schema.Represents value view.tree := by
  obtain ⟨accepted, value, represents⟩ := canonical
  refine ⟨value, Schema.valueOf_of_represents _ accepted value _ represents, ?_, represents⟩
  rw [View.ofValue, Schema.treeOf_of_represents _ accepted value _ represents]
  rfl

/-- The value that is read from a canonical view is the one that its tree represents. -/
theorem View.Canonical.represents_toValue {view : View} (canonical : view.Canonical) {value : Value}
    (read : view.toValue = .ok value) : view.schema.Represents value view.tree := by
  obtain ⟨own, held, _, represents⟩ := canonical.rebuilt
  obtain rfl := Except.ok.inj (read.symm.trans held)
  exact represents

/--
History independence: a reachable view has a value, that value alone builds the same tree, the tree
is tidy, and every other reachable view of the schema with this value is the same.
-/
theorem View.Reachable.history_independent {view : View} (reachable : view.Reachable) :
    ∃ value, view.toValue = .ok value ∧ View.ofValue view.schema value = .ok view ∧
      view.schema.Tidy view.tree ∧
      ∀ other : View, other.Reachable → other.schema = view.schema →
        other.toValue = .ok value → other = view := by
  obtain ⟨value, read, built, represents⟩ := reachable.canonical.rebuilt
  refine ⟨value, read, built, Schema.tidy_of_represents _ value _ represents, ?_⟩
  intro other also same sameValue
  -- The other view builds from its value too, and the values are the same.
  obtain ⟨own, ownRead, ownBuilt, _⟩ := also.canonical.rebuilt
  obtain rfl := Except.ok.inj (sameValue.symm.trans ownRead)
  rw [same] at ownBuilt
  exact Except.ok.inj (ownBuilt.symm.trans built)

/-- A record whose number was set, and whose data then grew by a byte and was written back. -/
theorem View.Reachable.history_independent_record :
    ∃ numbered data grown view,
      (View.ofDefault recordSchema).set (.name "id") (.uint 513) = .ok numbered ∧
      numbered.getField "data" = .ok data ∧ data.append (.uint 7) = .ok grown ∧
      numbered.setView (.name "data") grown = .ok view ∧
      ∃ value, view.toValue = .ok value ∧ View.ofValue view.schema value = .ok view ∧
        view.schema.Tidy view.tree ∧
        ∀ other : View, other.Reachable → other.schema = view.schema →
          other.toValue = .ok value → other = view := by
  have accepted : recordSchema.Accepted := ⟨⟨trivial, ⟨trivial, rfl⟩, by cbv, trivial⟩, rfl⟩
  obtain ⟨numbered, data, grown, view, set, found, appended, written⟩ :
      ∃ numbered data grown view,
        (View.ofDefault recordSchema).set (.name "id") (.uint 513) = .ok numbered ∧
        numbered.getField "data" = .ok data ∧ data.append (.uint 7) = .ok grown ∧
        numbered.setView (.name "data") grown = .ok view :=
    ⟨_, _, _, _, rfl, rfl, rfl, rfl⟩
  -- The list that grew was reached through the record, and is written back into it.
  have before := View.Reachable.set (.ofDefault accepted) set
  have inner := View.Reachable.append (.getField before found) appended
  exact ⟨numbered, data, grown, view, set, found, appended, written,
    View.Reachable.history_independent (.setView before inner written)⟩

end Ssz
