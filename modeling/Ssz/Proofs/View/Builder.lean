import Ssz.Proofs.View.Reachable

/-! Batches of field updates: a builder makes of a container what updates one by one make of it. -/

namespace Ssz

/-- An update of one field of a container: to a value, or to another view. -/
inductive Update where
  | set (key : Key) (value : Value)
  | setView (key : Key) (member : View)

/-- The container with one more field updated at once. -/
def View.apply (view : View) : Update → Except ViewError View
  | .set key value => view.set key value
  | .setView key member => view.setView key member

/-- The builder with one more update asked for. -/
def Builder.apply (builder : Builder) : Update → Except ViewError Builder
  | .set key value => builder.set key value
  | .setView key member => builder.setView key member

namespace Update

/-- The key of the field that is updated. -/
def key : Update → Key
  | set key _ | setView key _ => key

/-- The new tree of the field, which has to be of the field's schema. -/
def treeFor (schema : Schema) : Update → Except ViewError Tree
  | set _ value => schema.treeOf value
  | setView _ member => if schema ≠ member.schema then .error .schemaMismatch else .ok member.tree

/-- The place of the field that is updated, and its new tree. -/
def resolve (fields : List Field) (update : Update) : Except ViewError (UInt64 × Tree) := do
  let slot ← (Schema.container fields).slot update.key none
  return (slot.gindex.indexAtDepth, ← update.treeFor slot.schema)

end Update

section Fields

variable {fields : List Field}

/-- A builder on a container resolves each update, and keeps what it is resolved to. -/
theorem Builder.apply_eq_resolve {builder : Builder}
    (isContainer : builder.base.schema = .container fields) (update : Update) :
    builder.apply update =
      (update.resolve fields >>= fun place => .ok (builder.push place.1 place.2)) := by
  -- A builder makes the tree once it has the place of the field.
  have asked : builder.apply update = (do
      let field ← builder.fieldSlot update.key
      return builder.push field.1 (← update.treeFor field.2)) := by
    cases update with
    | set key value => rfl
    | setView key member =>
      simp only [apply, setView, Update.key, Update.treeFor]
      congr 1
      funext field
      split <;> rfl
  rw [asked, Update.resolve, fieldSlot, isContainer]
  cases located : (Schema.container fields).slot update.key none with
  | error fault => rfl
  | ok slot =>
    -- Any other slot than a subtree would be refused, but a container has none.
    obtain ⟨place, field, _, rfl⟩ := View.slot_container located
    simp only [ok_bind, pure_eq_ok, bind_assoc]
    rfl

/-- A container replaces the subtree of a field by the new tree of the field. -/
theorem View.apply_container (tree : Tree) (update : Update) :
    (⟨.container fields, tree⟩ : View).apply update = (do
      let slot ← (Schema.container fields).slot update.key none
      let node ← update.treeFor slot.schema
      return ⟨.container fields, ← tree.update slot.gindex node⟩) := by
  -- A container has no length of its own, so its keys are looked up in the schema alone.
  cases located : (Schema.container fields).slot update.key none with
  | error fault =>
    cases update <;> simp only [Update.key] at located <;>
      simp [apply, View.set, View.setView, Schema.kind, bound, Schema.hasLength, located]
  | ok slot =>
    obtain ⟨place, field, _, rfl⟩ := View.slot_container located
    cases update with
    | set key value =>
      simp only [Update.key] at located
      simp [apply, View.set, Schema.kind, bound, Schema.hasLength, located, writeValue,
        Update.treeFor, Slot.schema, Slot.gindex, withTree]
    | setView key member =>
      simp only [Update.key] at located
      -- Both compare the schemas before anything is written.
      by_cases same : field.schema = member.schema <;>
        simp [apply, View.setView, Schema.kind, bound, Schema.hasLength, located, writeView,
          Update.treeFor, Slot.schema, Slot.gindex, same, withTree]

variable (accepted : (Schema.container fields).Accepted)
include accepted

/-- Updates go to the places of fields. -/
theorem Update.lt_of_resolve {update : Update} {index : UInt64} {node : Tree}
    (resolved : update.resolve fields = .ok (index, node)) : index.toNat < fields.length := by
  obtain ⟨slot, located, resolved⟩ := bind_eq_ok.mp resolved
  obtain ⟨place, field, named, rfl⟩ := View.slot_container located
  obtain ⟨tree, _, resolved⟩ := bind_eq_ok.mp resolved
  obtain ⟨rfl, _⟩ := Prod.mk.inj (Except.ok.inj resolved)
  -- The place is read off the position, where it is the number of the field.
  rw [Slot.gindex, accepted.indexAtDepth_field named]
  exact (List.getElem?_eq_some_iff.mp named).1

/-- A container resolves each update, and puts what it is resolved to in its place. -/
theorem View.apply_ofNodes {nodes : List Tree} (sized : nodes.length = fields.length)
    (update : Update) :
    (⟨.container fields, .ofNodes (Schema.container fields).depth nodes⟩ : View).apply update =
      (update.resolve fields >>= fun place => .ok
        ⟨.container fields,
          .ofNodes (Schema.container fields).depth (nodes.set place.1.toNat place.2)⟩) := by
  rw [apply_container, Update.resolve]
  cases located : (Schema.container fields).slot update.key none with
  | error fault => rfl
  | ok slot =>
    obtain ⟨place, field, named, rfl⟩ := View.slot_container located
    have within := (List.getElem?_eq_some_iff.mp named).1
    have room := Nat.lt_of_lt_of_le within (Schema.container_fits fields)
    have inside : place.toNat < nodes.length := sized ▸ within
    -- Every field has a node already, so the new one replaces it.
    have written := Tree.update_ofNodes accepted.depth_lt room (Nat.le_of_lt inside)
    simp [Slot.gindex, accepted.indexAtDepth_field named, written, overwrite_eq_set _ inside]

end Fields

namespace Builder

/-- Without updates all nodes stay. -/
theorem written_nil (nodes : List Tree) : written [] nodes = nodes := by
  apply List.ext_getElem?
  intro i
  cases placed : nodes[i]? <;> simp [written, placed, Tree.newest]

/-- One more update replaces the node at its place, whatever was asked for there before. -/
theorem written_concat (updates : List (UInt64 × Tree)) (index : UInt64) (node : Tree)
    (nodes : List Tree) :
    written (updates ++ [(index, node)]) nodes = (written updates nodes).set index.toNat node := by
  apply List.ext_getElem?
  intro i
  simp only [written, List.getElem?_set, List.getElem?_mapIdx, List.length_mapIdx,
    Tree.newest_concat]
  -- Nothing is put after the last node, and every node can be replaced.
  by_cases here : index.toNat = i
  · by_cases within : i < nodes.length <;> simp [here, within]
  · simp [here]

section Run

variable {fields : List Field} {nodes : List Tree} {builder : Builder}
variable (accepted : (Schema.container fields).Accepted)
include accepted

/-- A builder keeps updates of fields only. -/
theorem Gathers.apply (gathers : builder.Gathers fields nodes) {update : Update} {next : Builder}
    (done : builder.apply update = .ok next) : next.Gathers fields nodes := by
  rw [apply_eq_resolve (congrArg View.schema gathers.base)] at done
  obtain ⟨⟨index, node⟩, resolved, done⟩ := bind_eq_ok.mp done
  obtain rfl := Except.ok.inj done
  refine ⟨gathers.base, gathers.sized, ?_⟩
  intro other member
  -- The new update goes to a field, as those before it do.
  rcases List.mem_append.mp member with old | new
  · exact gathers.inside other old
  · obtain rfl := List.mem_singleton.mp new
    exact Update.lt_of_resolve accepted resolved

/-- One more update, once committed, is that update of what was committed without it. -/
theorem Gathers.apply_commit (gathers : builder.Gathers fields nodes) {view : View}
    (committed : builder.commit = .ok view) (update : Update) :
    (builder.apply update >>= Builder.commit) = view.apply update := by
  -- What was committed so far is a container with the nodes that were asked for.
  obtain rfl := Except.ok.inj ((gathers.commit accepted).symm.trans committed)
  have sized : (written builder.updates nodes).length = fields.length := by
    rw [written, List.length_mapIdx, gathers.sized]
  rw [View.apply_ofNodes accepted sized]
  have kept := apply_eq_resolve (congrArg View.schema gathers.base) update
  -- The update is resolved alike on both sides, and the last one asked for counts.
  cases resolved : update.resolve fields with
  | error fault => rw [kept, resolved]; rfl
  | ok place =>
    obtain ⟨index, node⟩ := place
    rw [resolved] at kept
    rw [kept]
    exact ((gathers.apply accepted kept).commit accepted).trans (by rw [push, written_concat]; rfl)

/-- A builder keeps updates of fields only, through all of them. -/
theorem Gathers.foldlM (gathers : builder.Gathers fields nodes) {updates : List Update}
    {gathered : Builder} (done : updates.foldlM Builder.apply builder = .ok gathered) :
    gathered.Gathers fields nodes := by
  induction updates generalizing builder with
  | nil =>
    obtain rfl := Except.ok.inj done
    exact gathers
  | cons update rest ih =>
    rw [List.foldlM_cons] at done
    -- The builder after the first update is one of the same container.
    obtain ⟨next, first, later⟩ := bind_eq_ok.mp done
    exact ih (gathers.apply accepted first) later

/-- Updates that are gathered and committed are those updates of what was committed before. -/
theorem Gathers.foldlM_commit (gathers : builder.Gathers fields nodes) {view : View}
    (committed : builder.commit = .ok view) (updates : List Update) :
    (updates.foldlM Builder.apply builder >>= Builder.commit) = updates.foldlM View.apply view := by
  -- The builder and the view go on in step, each view being what the builder would commit.
  induction updates generalizing builder view with
  | nil => exact committed
  | cons update rest ih =>
    have step := gathers.apply_commit accepted committed update
    rw [List.foldlM_cons, List.foldlM_cons, ← step]
    cases taken : builder.apply update with
    | error fault => rfl
    | ok next =>
      -- The next builder can be committed, and the view it gives is the next view.
      have after := gathers.apply accepted taken
      have committed := after.commit accepted
      rw [ok_bind, ok_bind, committed, ok_bind]
      exact ih after committed

/-- An update is refused by a builder exactly if what it gathered, once committed, refuses it. -/
theorem Gathers.refused_iff (gathers : builder.Gathers fields nodes) {view : View}
    (committed : builder.commit = .ok view) {update : Update} {fault : ViewError} :
    builder.apply update = .error fault ↔ view.apply update = .error fault := by
  rw [← gathers.apply_commit accepted committed update]
  cases taken : builder.apply update with
  | error own => simp
  | ok next =>
    -- What was kept is committed without fault.
    rw [ok_bind, (gathers.apply accepted taken).commit accepted]
    simp

end Run

/-- Updates gathered by a builder on a container do to it what they do one after another. -/
structure Batches (builder : Builder) (view : View) : Prop where
  /-- The committed tree is the same, and so is the error if there is no tree. -/
  same (updates : List Update) :
    (updates.foldlM apply builder >>= commit) = updates.foldlM View.apply view
  /-- After the same updates the same one is refused, with the same error. -/
  refused (before : List Update) (update : Update) (fault : ViewError) :
    (∃ gathered, before.foldlM apply builder = .ok gathered ∧
      gathered.apply update = .error fault) ↔
        ∃ reached, before.foldlM View.apply view = .ok reached ∧
          reached.apply update = .error fault
  /-- What was gathered can be committed. -/
  commits (updates : List Update) (gathered : Builder)
    (done : updates.foldlM apply builder = .ok gathered) :
    ∃ updated, gathered.commit = .ok updated

/-- A builder that gathers updates of fields does what its updates do. -/
theorem Gathers.batches {fields : List Field} {nodes : List Tree} {builder : Builder}
    (gathers : builder.Gathers fields nodes) (accepted : (Schema.container fields).Accepted)
    {view : View} (committed : builder.commit = .ok view) : builder.Batches view where
  same updates := gathers.foldlM_commit accepted committed updates
  refused before update fault := by
    have run := gathers.foldlM_commit accepted committed before
    constructor
    · intro ⟨gathered, done, refused⟩
      -- Committed, the gathered updates give the view that refuses the next one.
      have after := gathers.foldlM accepted done
      have reached := after.commit accepted
      rw [done, ok_bind, reached] at run
      exact ⟨_, run.symm, (after.refused_iff accepted reached).mp refused⟩
    · intro ⟨reached, done, refused⟩
      -- What was reached was committed, so something was gathered before.
      obtain ⟨gathered, kept, same⟩ := bind_eq_ok.mp (run.trans done)
      have after := gathers.foldlM accepted kept
      exact ⟨gathered, kept, (after.refused_iff accepted same).mpr refused⟩
  commits updates gathered done := ⟨_, (gathers.foldlM accepted done).commit accepted⟩

end Builder

/--
A builder on a reachable container gives the same tree as its updates one after another, refuses
the same update for the same reason, and can be committed whatever it gathered.
-/
theorem View.Reachable.builder_batches {view : View} (reachable : view.Reachable)
    {fields : List Field} (isContainer : view.schema = .container fields) :
    ∃ builder, view.builder = .ok builder ∧ builder.Batches view := by
  obtain ⟨accepted, value, represents⟩ := reachable.canonical
  obtain ⟨schema, tree⟩ := view
  obtain rfl : schema = .container fields := isContainer
  obtain ⟨members, nodes, rfl, each, rfl⟩ := represents
  -- A reachable container has one node for each field, and a new builder no updates.
  have gathers : (⟨⟨.container fields, .ofNodes (Schema.container fields).depth nodes⟩, []⟩ :
      Builder).Gathers fields nodes := ⟨rfl, each.length_eq.2, nofun⟩
  refine ⟨_, rfl, gathers.batches accepted ?_⟩
  rw [gathers.commit accepted, Builder.written_nil]

/-- The only field set by its name and then by its number, and an update that finds no field. -/
theorem View.Reachable.builder_batches_aliased :
    ∃ builder gathered,
      (View.ofDefault (.container [⟨"count", .scalar .uint16⟩])).builder = .ok builder ∧
      [Update.set (.name "count") (.uint 5), .set (.index 0) (.uint 7)].foldlM Builder.apply
        builder = .ok gathered ∧
      gathered.commit = .ok ⟨.container [⟨"count", .scalar .uint16⟩], .leafOfBytes [7, 0]⟩ ∧
      gathered.apply (.set (.index 1) (.uint 9)) = .error (.indexOutOfBounds 1 1) := by
  have accepted : (Schema.container [⟨"count", .scalar .uint16⟩]).Accepted :=
    ⟨⟨trivial, trivial⟩, by decide⟩
  obtain ⟨builder, opened, batches⟩ := (View.Reachable.ofDefault accepted).builder_batches rfl
  -- One after another the updates set the field twice, and the third one is refused.
  have twice : [Update.set (.name "count") (.uint 5), .set (.index 0) (.uint 7)].foldlM View.apply
      (View.ofDefault (.container [⟨"count", .scalar .uint16⟩])) =
        .ok ⟨.container [⟨"count", .scalar .uint16⟩], .leafOfBytes [7, 0]⟩ := by cbv
  obtain ⟨gathered, done, refused⟩ := (batches.refused _ (.set (.index 1) (.uint 9))
    (.indexOutOfBounds 1 1)).mpr ⟨_, twice, by rfl⟩
  have committed := (batches.same _).trans twice
  rw [done, ok_bind] at committed
  exact ⟨builder, gathered, opened, done, committed, refused⟩

end Ssz
