import Ssz.Proofs.Tree.Stepwise
import Ssz.Proofs.Value.Default
import Ssz.Proofs.View.Grow
import Ssz.Proofs.View.Replace
import Ssz.Proofs.View.Switch
import Ssz.View.Builder

/-! Canonical views: every operation on views leads from canonical views to canonical views. -/

namespace Ssz

namespace View

/-- A view of an accepted schema whose tree is the canonical one of some value. -/
structure Canonical (view : View) : Prop where
  accepted : view.schema.Accepted
  represents : ∃ value, view.schema.Represents value view.tree

/-- The view of the default value is canonical. -/
theorem canonical_ofDefault {schema : Schema} (accepted : schema.Accepted) :
    (ofDefault schema).Canonical :=
  ⟨accepted, _, Schema.represents_default schema accepted⟩

/-- The view of a value is canonical. -/
theorem canonical_ofValue {schema : Schema} (accepted : schema.Accepted) {value : Value}
    {view : View} (built : ofValue schema value = .ok view) : view.Canonical := by
  obtain ⟨rfl, represents⟩ := represents_of_ofValue accepted built
  exact ⟨accepted, _, represents⟩

/-- Keys lead to numbered members. -/
theorem slotAt_of_slot {schema : Schema} {key : Key} {bound : Option UInt64} {slot : Slot}
    (found : schema.slot key bound = .ok slot) : ∃ index, schema.slotAt index bound = .ok slot := by
  cases key with
  | index index => exact ⟨index, found⟩
  | name name =>
    obtain ⟨index, _, numbered⟩ := bind_eq_ok.mp found
    exact ⟨_, numbered⟩

/-- A key of a container leads to the subtree of a field. -/
theorem slot_container {fields : List Field} {key : Key} {bound : Option UInt64} {slot : Slot}
    (found : (Schema.container fields).slot key bound = .ok slot) :
    ∃ (index : UInt64) (field : Field), fields[index.toNat]? = some field ∧
      .subtree (Gindex.ofDepthIndex (Schema.container fields).depth index) field.schema = slot := by
  obtain ⟨index, numbered⟩ := slotAt_of_slot found
  exact ⟨index, Schema.slotAt_container.mp numbered⟩

/-- A member view has the schema of the slot that it is written to. -/
theorem schema_of_writeView {view member : View} {slot : Slot} {tree : Tree}
    (written : view.writeView slot member = .ok tree) : member.schema = slot.schema := by
  -- Each kind of slot checks the schema of the member before anything is written.
  cases slot with
  | subtree gindex schema =>
    simp only [writeView] at written
    split at written
    · cases written
    · rename_i same
      exact (not_not.mp same).symm
  | packed gindex offset type =>
    simp only [writeView] at written
    split at written
    · cases written
    · rename_i same
      exact Schema.eq_scalar (not_not.mp same)
  | bit gindex position =>
    simp only [writeView] at written
    split at written
    · cases written
    · rename_i same
      exact Schema.eq_scalar (not_not.mp same)

/-- The variant of a canonical union is canonical. -/
theorem Canonical.variant {view member : View} (canonical : view.Canonical)
    (found : view.variant = .ok (some member)) : member.Canonical := by
  obtain ⟨schema, tree⟩ := view
  obtain ⟨accepted, value, represents⟩ := canonical
  cases schema with
  | union variants =>
    obtain ⟨selector, payload, node, rfl, chosen, rfl⟩ := represents
    simp only [View.variant, Tree.unionParts_withSelector node chosen.lt_length, ok_bind,
      pure_eq_ok, Except.ok.injEq, Option.map_eq_some_iff] at found
    obtain ⟨schema, named, rfl⟩ := found
    have member := List.mem_of_getElem? (Option.join_eq_some_iff.mp named)
    -- A variant with a value is not the empty one, so its tree represents that value.
    rcases Schema.representsVariant_iff.mp chosen with ⟨own, value, same, _, inhabits⟩ | ⟨none, _⟩
    · simp only [same, Option.join_some, Option.some.injEq] at named
      exact ⟨accepted.1.of_mem member, value, named ▸ inhabits⟩
    · simp [none] at named
  | _ => cases found

/-- A member of a canonical view is canonical. -/
theorem Canonical.get {view member : View} (canonical : view.Canonical) {key : Key}
    (found : view.get key = .ok member) : member.Canonical := by
  by_cases single : view.schema.kind = .union
  · -- The selected variant is the only member of a union.
    simp only [View.get, single] at found
    cases key with
    | name name => cases found
    | index requested =>
      simp only [variantAt, bind_eq_ok] at found
      obtain ⟨_, _, found⟩ := found
      split at found
      · cases found
      · obtain ⟨selected, taken, found⟩ := bind_eq_ok.mp found
        cases selected with
        | none => cases found
        | some variant =>
          cases found
          exact canonical.variant taken
  · obtain ⟨accepted, value, represents⟩ := canonical
    obtain ⟨slot, number, old, node, _, rfl, _, holds⟩ :=
      holds_of_get accepted represents single found
    exact ⟨holds.accepted, old, holds.represents⟩

/-- A union switched to a value is canonical. -/
theorem Canonical.setVariant {view updated : View} (canonical : view.Canonical)
    {selector : UInt32} {value : Option Value}
    (done : view.setVariant selector value = .ok updated) : updated.Canonical := by
  unfold View.setVariant at done
  -- A union is built anew for the variant, whatever it held before.
  split at done
  · exact canonical_ofValue canonical.accepted done
  · cases done

/-- A union switched to a canonical view is canonical. -/
theorem Canonical.setVariantView {view updated : View} (canonical : view.Canonical)
    {selector : UInt32} {member : Option View}
    (inner : ∀ other, member = some other → other.Canonical)
    (done : view.setVariantView selector member = .ok updated) : updated.Canonical := by
  have accepted := canonical.accepted
  cases shape : view.schema with
  | union variants =>
    -- The union is made of the value that the other view has, if there is one.
    cases member with
    | none => exact canonical_ofValue accepted (ofValue_of_setVariantView shape accepted .none done)
    | some other =>
      obtain ⟨value, inhabits⟩ := (inner other rfl).represents
      exact canonical_ofValue accepted
        (ofValue_of_setVariantView shape accepted (.some inhabits) done)
  | _ => simp [View.setVariantView, shape] at done

/-- A view with a slot written from a represented member is canonical. -/
theorem Canonical.writeView {view member : View} (canonical : view.Canonical) {value old : Value}
    {slot : Slot} {number : Nat} {node : Tree} (holds : view.Holds value slot number old node)
    (inner : ∃ fresh, member.schema.Represents fresh member.tree) {tree : Tree}
    (written : view.writeView slot member = .ok tree) : (view.withTree tree).Canonical := by
  obtain ⟨fresh, inhabits⟩ := inner
  -- The member has the schema of the slot, or it would have been refused.
  have same := schema_of_writeView written
  obtain ⟨schema, inserted⟩ := member
  obtain rfl : schema = slot.schema := same
  obtain ⟨updated, refilled, done⟩ := holds.written fresh inserted inhabits
  obtain rfl := Except.ok.inj (done.symm.trans written)
  exact ⟨canonical.accepted, _, refilled⟩

/-- A canonical view with a member replaced by a value is canonical. -/
theorem Canonical.set {view updated : View} (canonical : view.Canonical) {key : Key}
    {value : Value} (done : view.set key value = .ok updated) : updated.Canonical := by
  by_cases single : view.schema.kind = .union
  · simp only [View.set, single] at done
    obtain ⟨selector, _, switched⟩ := bind_eq_ok.mp done
    exact canonical.setVariant switched
  · rw [set_eq_writeView single] at done
    obtain ⟨slot, located, done⟩ := bind_eq_ok.mp done
    -- The value gets a tree of its own, and that tree is written.
    obtain ⟨node, built, done⟩ := bind_eq_ok.mp done
    obtain ⟨tree, written, done⟩ := bind_eq_ok.mp done
    obtain rfl := Except.ok.inj done
    obtain ⟨before, represents⟩ := canonical.represents
    obtain ⟨_, _, _, _, holds⟩ :=
      holds_of_slotOf canonical.accepted represents single located
    have inhabits := Schema.represents_of_treeOf _ holds.accepted value node built
    exact canonical.writeView holds ⟨_, inhabits⟩ written

/-- A canonical view with a member replaced by a canonical view is canonical. -/
theorem Canonical.setView {view member updated : View} (canonical : view.Canonical)
    (inner : member.Canonical) {key : Key} (done : view.setView key member = .ok updated) :
    updated.Canonical := by
  by_cases single : view.schema.kind = .union
  · simp only [View.setView, single] at done
    obtain ⟨selector, _, switched⟩ := bind_eq_ok.mp done
    -- Unions are switched to the variant that the key selects.
    refine canonical.setVariantView ?_ switched
    rintro other same
    exact Option.some.inj same ▸ inner
  · rw [setView_eq_writeView single] at done
    -- Other views are written at the slot of the key.
    obtain ⟨slot, located, done⟩ := bind_eq_ok.mp done
    obtain ⟨tree, written, done⟩ := bind_eq_ok.mp done
    obtain rfl := Except.ok.inj done
    obtain ⟨before, represents⟩ := canonical.represents
    obtain ⟨_, _, _, _, holds⟩ :=
      holds_of_slotOf canonical.accepted represents single located
    exact canonical.writeView holds inner.represents written

/-- A canonical list with one more element is canonical. -/
theorem Canonical.append {view updated : View} (canonical : view.Canonical) {value : Value}
    (done : view.append value = .ok updated) : updated.Canonical := by
  obtain ⟨accepted, elements, represents⟩ := canonical
  obtain ⟨element, max, grows⟩ := growth_of_append done
  -- What was appended to is the view of a value, and gave the view of the longer value.
  have list : view.ListOf element max elements :=
    ⟨accepted, grows, ofValue_of_represents accepted represents⟩
  obtain ⟨_, _, _, longer⟩ := list.of_append done
  exact canonical_ofValue longer.accepted longer.built

/-- A canonical list with more elements is canonical, after each of them. -/
theorem Canonical.extend {view updated : View} (canonical : view.Canonical) {values : List Value}
    (done : view.extend values = .ok updated) : updated.Canonical := by
  induction values generalizing view with
  | nil =>
    obtain rfl := Except.ok.inj done
    exact canonical
  | cons value rest ih =>
    simp only [View.extend, List.foldlM_cons] at done
    -- Each element finds the canonical list that the one before it left.
    obtain ⟨next, first, later⟩ := bind_eq_ok.mp done
    exact ih (canonical.append first) later

end View

namespace Builder

/--
A builder on a canonical container, whose updates go to fields and come with canonical trees of
those fields.
-/
structure Canonical (builder : Builder) (fields : List Field) : Prop where
  base : builder.base.Canonical
  container : builder.base.schema = .container fields
  updates : ∀ update ∈ builder.updates, ∃ field value,
    fields[update.1.toNat]? = some field ∧ field.schema.Represents value update.2

/-- A builder without updates on a canonical container is canonical. -/
theorem canonical_builder {view : View} (canonical : view.Canonical) {builder : Builder}
    (opened : view.builder = .ok builder) : ∃ fields, builder.Canonical fields := by
  obtain ⟨schema, tree⟩ := view
  cases schema with
  | container fields =>
    -- A new builder has no updates yet.
    obtain rfl := Except.ok.inj opened
    exact ⟨fields, canonical, rfl, by simp⟩
  | _ => cases opened

variable {builder : Builder} {fields : List Field}

/-- A key of a builder leads to a field. -/
theorem Canonical.fieldSlot (canonical : builder.Canonical fields) {key : Key} {index : UInt64}
    {schema : Schema} (found : builder.fieldSlot key = .ok (index, schema)) :
    ∃ field, fields[index.toNat]? = some field ∧ field.schema = schema := by
  -- The slot of a field is a whole subtree, and its position tells the number of the field.
  obtain ⟨slot, keyed, found⟩ := bind_eq_ok.mp found
  have accepted := canonical.base.accepted
  rw [canonical.container] at keyed accepted
  obtain ⟨place, field, named, rfl⟩ := View.slot_container keyed
  obtain ⟨rfl, rfl⟩ := Prod.mk.inj (Except.ok.inj found)
  rw [accepted.indexAtDepth_field named]
  exact ⟨field, named, rfl⟩

/-- One more update with a canonical tree of its field keeps a builder canonical. -/
theorem Canonical.push (canonical : builder.Canonical fields) {index : UInt64} {field : Field}
    (named : fields[index.toNat]? = some field) {value : Value} {tree : Tree}
    (inhabits : field.schema.Represents value tree) :
    (builder.push index tree).Canonical fields := by
  refine ⟨canonical.base, canonical.container, ?_⟩
  intro update member
  -- The new update comes last, and the older ones stay as they are.
  rcases List.mem_append.mp member with old | new
  · exact canonical.updates update old
  · obtain rfl := List.mem_singleton.mp new
    exact ⟨field, value, named, inhabits⟩

/-- An update by a value keeps a builder canonical. -/
theorem Canonical.set (canonical : builder.Canonical fields) {key : Key} {value : Value}
    {updated : Builder} (done : builder.set key value = .ok updated) :
    updated.Canonical fields := by
  obtain ⟨⟨index, schema⟩, found, done⟩ := bind_eq_ok.mp done
  obtain ⟨tree, built, done⟩ := bind_eq_ok.mp done
  obtain rfl := Except.ok.inj done
  obtain ⟨field, named, rfl⟩ := canonical.fieldSlot found
  -- The schema of the field was accepted with the container, so the tree represents a value.
  have accepted := canonical.base.accepted
  rw [canonical.container] at accepted
  have own := accepted.1.of_mem (List.mem_of_getElem? named)
  exact canonical.push named (Schema.represents_of_treeOf _ own value tree built)

/-- An update by a canonical view keeps a builder canonical. -/
theorem Canonical.setView (canonical : builder.Canonical fields) {key : Key} {member : View}
    (inner : member.Canonical) {updated : Builder}
    (done : builder.setView key member = .ok updated) : updated.Canonical fields := by
  obtain ⟨⟨index, schema⟩, found, done⟩ := bind_eq_ok.mp done
  obtain ⟨field, named, rfl⟩ := canonical.fieldSlot found
  -- A view of any other schema is refused.
  by_cases same : field.schema = member.schema
  · simp only [same, ne_eq, not_true_eq_false, if_false] at done
    obtain rfl := Except.ok.inj done
    obtain ⟨value, inhabits⟩ := inner.represents
    exact canonical.push named (same ▸ inhabits)
  · simp [same] at done

/-- The nodes of fields after updates, each of them the last one that was asked for. -/
def written (updates : List (UInt64 × Tree)) (nodes : List Tree) : List Tree :=
  nodes.mapIdx fun i node => (Tree.newest updates i).getD node

/-- A batch of updates within the nodes of a full tree replaces those nodes. -/
theorem updateMany_ofNodes {depth : Nat} (shallow : depth < 64) {nodes : List Tree}
    (fits : nodes.length ≤ 2 ^ depth) {updates : List (UInt64 × Tree)}
    (inside : ∀ update ∈ updates, update.1.toNat < nodes.length) :
    (Tree.ofNodes depth nodes).updateMany depth updates =
      .ok (Tree.ofNodes depth (written updates nodes)) := by
  have within := fun update member => Nat.lt_of_lt_of_le (inside update member) fits
  rw [Tree.ofNodes, Tree.updateMany_full shallow _ within]
  congr 1
  apply Tree.full_congr
  intro i _
  simp only [written, List.getD_eq_getElem?_getD, List.getElem?_mapIdx]
  -- A node is replaced where one was asked for, and stays otherwise.
  cases placed : nodes[i]? with
  | some node => rfl
  | none =>
    -- No update goes to a position after the last node.
    have past := List.getElem?_eq_none_iff.mp placed
    cases asked : Tree.newest updates i with
    | none => rfl
    | some node =>
      obtain ⟨update, member, here, _⟩ := Tree.mem_of_newest asked
      have early := inside update member
      omega

/-- A builder on a container with a node for each field, whose updates go to fields. -/
structure Gathers (builder : Builder) (fields : List Field) (nodes : List Tree) : Prop where
  base : builder.base = ⟨.container fields, .ofNodes (Schema.container fields).depth nodes⟩
  sized : nodes.length = fields.length
  inside : ∀ update ∈ builder.updates, update.1.toNat < fields.length

/-- A builder whose updates go to fields can always be committed. -/
theorem Gathers.commit {nodes : List Tree} (gathers : builder.Gathers fields nodes)
    (accepted : (Schema.container fields).Accepted) :
    builder.commit = .ok ⟨.container fields,
      .ofNodes (Schema.container fields).depth (written builder.updates nodes)⟩ := by
  have fits : nodes.length ≤ 2 ^ (Schema.container fields).depth :=
    gathers.sized ▸ Schema.container_fits fields
  -- The one pass over the tree finds a node for each update.
  have rebuilt := updateMany_ofNodes accepted.depth_lt fits (gathers.sized ▸ gathers.inside)
  simp only [Builder.commit, gathers.base, rebuilt, ok_bind]
  rfl

/-- Updates of fields are made all at once, and the container stays canonical. -/
theorem Canonical.commit (canonical : builder.Canonical fields) {view : View}
    (done : builder.commit = .ok view) : view.Canonical := by
  obtain ⟨⟨schema, tree⟩, updates⟩ := builder
  obtain ⟨⟨accepted, before, represents⟩, rfl, each⟩ := canonical
  obtain ⟨members, nodes, rfl, held, rfl⟩ := represents
  have sized := held.length_eq.2
  -- All updates go to fields, so none of them is refused.
  have gathers : (⟨⟨.container fields, .ofNodes (Schema.container fields).depth nodes⟩, updates⟩ :
      Builder).Gathers fields nodes := by
    refine ⟨rfl, sized, fun update member => ?_⟩
    obtain ⟨field, _, named, _⟩ := each update member
    exact (List.getElem?_eq_some_iff.mp named).1
  obtain rfl := Except.ok.inj ((gathers.commit accepted).symm.trans done)
  -- Each node is an old one or one that was asked for, and both represent a member.
  obtain ⟨after, inhabits⟩ : ∃ after,
      Schema.RepresentsFields fields after (written updates nodes) := by
    apply Schema.RepresentsFields.of_forall (by simpa [written] using sized)
    intro i field node named placed
    obtain ⟨old, spot, rfl⟩ := Option.map_eq_some_iff.mp (List.getElem?_mapIdx.symm.trans placed)
    cases asked : Tree.newest updates i with
    | none =>
      obtain ⟨member, kept, _, same, represents⟩ := held.getElem? named
      rw [spot] at same
      obtain rfl := Option.some.inj same
      exact ⟨member, represents⟩
    | some fresh =>
      obtain ⟨update, member, rfl, rfl⟩ := Tree.mem_of_newest asked
      obtain ⟨own, value, same, represents⟩ := each update member
      rw [named] at same
      obtain rfl := Option.some.inj same
      exact ⟨value, represents⟩
  exact ⟨accepted, _, after, _, rfl, inhabits, rfl⟩

end Builder

end Ssz
