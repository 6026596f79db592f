import Ssz.Proofs.View.Place
import Ssz.Proofs.View.Reachable

/-! Paths of keys: the position that a schema tells for a path is where the members lead to. -/

namespace Ssz

namespace Schema

/-- A node keeps the element with a number: its bytes at their place in a leaf, or its own tree. -/
def KeepsElement (element : Schema) (number : Nat) (member : View) (node : Tree) : Prop :=
  match element.scalar? with
  | some type =>
    let offset := number % type.perChunk * type.byteLength
    ∃ chunk, node = .leaf chunk ∧
      member.encode = .ok (chunk.slice offset (offset + type.byteLength))
  | none => node = member.tree

/-- A node keeps the bit with a number at its place in a leaf. -/
def KeepsBit (number : Nat) (member : View) (node : Tree) : Prop :=
  ∃ chunk, node = .leaf chunk ∧ member.toValue = .ok (.bool (chunk.getBit (number % 256)))

/-- A node keeps the member with a number of a composite value. -/
def Keeps (schema : Schema) (number : Nat) (member : View) (node : Tree) : Prop :=
  match schema with
  | vector element _ | list element _ => element.KeepsElement number member node
  | bitvector _ | bitlist _ => KeepsBit number member node
  | _ => node = member.tree

section Slots

variable {schema : Schema} {index : UInt64} {slot : Slot}

/-- The slots of an accepted schema lie on the level of its members. -/
theorem Accepted.gindex_slotAt (accepted : schema.Accepted)
    (found : schema.slotAt index none = .ok slot) :
    slot.gindex ≠ 0 ∧ slot.gindex.depth = schema.memberDepth := by
  have shallow := accepted.memberDepth_lt
  -- Positions of a level are not zero and lie on it.
  suffices level : ∃ place : UInt64, place.toNat < 2 ^ schema.memberDepth ∧
      slot.gindex = Gindex.ofDepthIndex schema.memberDepth place by
    obtain ⟨place, within, same⟩ := level
    rw [same]
    exact ⟨Gindex.ofDepthIndex_ne_zero shallow within, Gindex.depth_ofDepthIndex shallow within⟩
  by_cases isUnion : schema.kind = .union
  · -- Every variant lies beside the selector, whichever is selected.
    obtain ⟨variants, rfl⟩ := union_of_kind isUnion
    simp only [slotAt] at found
    split at found
    · obtain rfl := Except.ok.inj found
      have level : (union variants).memberDepth = 1 := rfl
      rw [level]
      exact ⟨0, by decide, rfl⟩
    · cases found
  · obtain ⟨within, place, made, placed⟩ := places_slotAt isUnion found
    exact ⟨place, Nat.lt_of_lt_of_le (placed.lt_chunkCount within) schema.chunkCount_le_memberDepth,
      made⟩

/-- A slot found among the members in use is found among all that there may be. -/
theorem slotAt_declared {tree : Tree} {value : Value} (represents : schema.Represents value tree)
    {bound : Option UInt64} (bounded : (⟨schema, tree⟩ : View).bound = .ok bound)
    (found : schema.slotAt index bound = .ok slot) : schema.slotAt index none = .ok slot := by
  -- Only lists are bounded by something else than the schema, and their lengths stay within it.
  cases schema with
  | list element maxLength =>
    obtain ⟨elements, content, rfl, sized, _, rfl⟩ := represents
    obtain ⟨within, rfl⟩ := View.slotBelow_withLength rfl sized bounded found
    exact View.slotBelow_eq_ok.mpr ⟨Nat.lt_of_lt_of_le within sized, rfl⟩
  | bitlist maxLength =>
    obtain ⟨bits, rfl, sized, rfl⟩ := represents
    obtain ⟨within, rfl⟩ := View.slotBelow_withLength rfl sized bounded found
    exact View.slotBelow_eq_ok.mpr ⟨Nat.lt_of_lt_of_le within sized, rfl⟩
  | _ => exact found

/-- A slot found among the members in use is found among all that there may be. -/
theorem slot_declared {tree : Tree} {value : Value} (represents : schema.Represents value tree)
    {bound : Option UInt64} (bounded : (⟨schema, tree⟩ : View).bound = .ok bound) {key : Key}
    (found : schema.slot key bound = .ok slot) : schema.slot key none = .ok slot := by
  cases key with
  | index index => exact slotAt_declared represents bounded found
  | name name =>
    obtain ⟨number, named, numbered⟩ := bind_eq_ok.mp found
    exact bind_eq_ok.mpr ⟨number, named, slotAt_declared represents bounded numbered⟩

end Slots

end Schema

namespace View

section Members

variable {view member : View} {index : UInt64}

/-- A member has the schema of the slot that it is read from. -/
theorem schema_of_memberIn {slot : Slot} (read : view.memberIn slot = .ok member) :
    member.schema = slot.schema := by
  -- Each kind of slot names the schema of the view that it makes.
  cases slot with
  | subtree gindex schema =>
    obtain ⟨node, _, made⟩ := bind_eq_ok.mp read
    exact congrArg View.schema (Except.ok.inj made).symm
  | packed gindex offset type =>
    obtain ⟨chunk, _, made⟩ := bind_eq_ok.mp read
    exact congrArg View.schema (Except.ok.inj made).symm
  | bit gindex position =>
    obtain ⟨chunk, _, made⟩ := bind_eq_ok.mp read
    exact congrArg View.schema (Except.ok.inj made).symm

/-- A member that is read from a subtree is that subtree. -/
theorem navigate_of_subtree {gindex : Gindex} {schema : Schema}
    (read : view.memberIn (.subtree gindex schema) = .ok member) :
    view.tree.navigate gindex = .ok member.tree := by
  obtain ⟨node, reached, made⟩ := bind_eq_ok.mp read
  obtain rfl := Except.ok.inj made
  exact reached

/-- An element that is read is kept by the node of its slot. -/
theorem keepsElement_of_memberIn {element : Schema} {depth : Nat}
    (read : view.memberIn (element.sequenceSlot index depth) = .ok member) :
    ∃ node, view.tree.navigate (element.sequenceSlot index depth).gindex = .ok node ∧
      element.KeepsElement index.toNat member node := by
  simp only [Schema.KeepsElement, Schema.sequenceSlot] at read ⊢
  cases own : element.scalar? with
  | some type =>
    simp only [own] at read ⊢
    obtain ⟨chunk, reached, made⟩ := bind_eq_ok.mp read
    obtain rfl := Except.ok.inj made
    refine ⟨_, Tree.navigate_of_chunkAt reached, chunk, rfl, ?_⟩
    -- The leaf of the member starts with the bytes that were cut out for it.
    have room := type.scalar_le_chunk index.toNat
    have width := Chunk.length_slice chunk _ _ room
    have cut := Chunk.slice_padded (width ▸ type.byteLength_le)
    rw [width] at cut
    rw [type.toNat_mod_share]
    exact congrArg Except.ok cut
  | none =>
    simp only [own] at read ⊢
    exact ⟨_, navigate_of_subtree read, rfl⟩

/-- A bit that is read is kept by the node of its slot. -/
theorem keepsBit_of_memberIn {depth : Nat}
    (read : view.memberIn (Schema.bitSlot index depth) = .ok member) :
    ∃ node, view.tree.navigate (Schema.bitSlot index depth).gindex = .ok node ∧
      Schema.KeepsBit index.toNat member node := by
  obtain ⟨chunk, reached, made⟩ := bind_eq_ok.mp read
  obtain rfl := Except.ok.inj made
  refine ⟨_, Tree.navigate_of_chunkAt reached, chunk, rfl, ?_⟩
  -- The leaf of the member holds a byte that is one exactly if the bit is set.
  have remainder : (index % 256).toNat = index.toNat % 256 := by simp
  rw [remainder]
  cases chunk.getBit (index.toNat % 256) <;> rfl

/-- A member that is read is kept by the node of its slot. -/
theorem keeps_of_memberIn {slot : Slot} (found : view.schema.slotAt index none = .ok slot)
    (read : view.memberIn slot = .ok member) :
    ∃ node, view.tree.navigate slot.gindex = .ok node ∧
      view.schema.Keeps index.toNat member node := by
  -- The schema says what kind of slot was found, and each kind keeps its member in its own way.
  obtain ⟨schema, tree⟩ := view
  cases schema with
  | scalar type => cases found
  | vector element length =>
    obtain ⟨_, rfl⟩ := slotBelow_eq_ok.mp found
    exact keepsElement_of_memberIn read
  | list element maxLength =>
    obtain ⟨_, rfl⟩ := slotBelow_eq_ok.mp found
    exact keepsElement_of_memberIn read
  | bitvector length =>
    obtain ⟨_, rfl⟩ := slotBelow_eq_ok.mp found
    exact keepsBit_of_memberIn read
  | bitlist maxLength =>
    obtain ⟨_, rfl⟩ := slotBelow_eq_ok.mp found
    exact keepsBit_of_memberIn read
  | container fields =>
    obtain ⟨field, _, rfl⟩ := Schema.slotAt_container.mp found
    exact ⟨_, navigate_of_subtree read, rfl⟩
  | union variants =>
    simp only [Schema.slotAt] at found
    split at found <;> cases found
    exact ⟨_, navigate_of_subtree read, rfl⟩

end Members

/--
A step from a view to a member: the slot that the schema alone tells for the key, and the node that
lies there in the tree of the view.
-/
structure Step (view : View) (key : Key) (member : View) (slot : Slot) (number : Nat)
    (node : Tree) : Prop where
  located : view.schema.slot key none = .ok slot
  numbered : view.schema.numberOf key = .ok number
  nonzero : slot.gindex ≠ 0
  deep : slot.gindex.depth = view.schema.memberDepth
  reached : view.tree.navigate slot.gindex = .ok node
  kept : view.schema.Keeps number member node
  typed : member.schema = slot.schema
  own : ∀ gindex schema, slot = .subtree gindex schema → node = member.tree

/-- Reading a member of a canonical view is a step to it. -/
theorem Canonical.step {view member : View} (canonical : view.Canonical) {key : Key}
    (found : view.get key = .ok member) :
    ∃ slot number node, view.Step key member slot number node := by
  obtain ⟨accepted, value, represents⟩ := canonical
  by_cases isUnion : view.schema.kind = .union
  · obtain ⟨variants, isUnion⟩ := Schema.union_of_kind isUnion
    obtain ⟨selector, payload, rfl, _, _, named, stands⟩ := union_of_get isUnion represents found
    have within : selector.toUInt64.toNat = selector.toNat := selector.toNat_toUInt64
    -- The variant is the left child of the root, whatever its selector is.
    have placed : view.schema.slotAt selector.toUInt64 none = .ok (.subtree 2 member.schema) := by
      rw [isUnion, Schema.slotAt, within, named]
    obtain ⟨nonzero, deep⟩ := accepted.gindex_slotAt placed
    refine ⟨_, _, member.tree, placed, rfl, nonzero, deep, ?_, ?_, rfl, fun _ _ _ => rfl⟩
    · rw [stands]
      exact Tree.navigate_two _ _
    · rw [isUnion]
      rfl
  · -- The accessor looked below the live bound, and the schema looks below its own.
    rw [get_eq_memberIn isUnion] at found
    obtain ⟨slot, located, read⟩ := bind_eq_ok.mp found
    obtain ⟨bound, bounded, located⟩ := bind_eq_ok.mp located
    obtain ⟨index, numbered, placed⟩ := Schema.numberOf_of_slot accepted located
    have placed := Schema.slotAt_declared represents bounded placed
    obtain ⟨nonzero, deep⟩ := accepted.gindex_slotAt placed
    obtain ⟨node, reached, kept⟩ := keeps_of_memberIn placed read
    refine ⟨slot, index.toNat, node, Schema.slot_declared represents bounded located, numbered,
      nonzero, deep, reached, kept, schema_of_memberIn read, ?_⟩
    rintro gindex schema rfl
    exact Except.ok.inj (reached.symm.trans (navigate_of_subtree read))

/-- The view that a path of keys leads to, from member to member. -/
def walk (view : View) : (path : List Key) → Except ViewError View
  | [] => .ok view
  | key :: rest => do (← view.get key).walk rest

/-- How many levels a walk goes down the trees of the views that it passes. -/
def levels (view : View) : (path : List Key) → Nat
  | [] => 0
  | key :: rest =>
    match view.get key with
    | .ok member => view.schema.memberDepth + member.levels rest
    | .error _ => 0

/--
A node is where a path leads to: the tree of the view itself where the path is empty, and otherwise
what keeps the view that is reached as a member of the last view before it.
-/
structure Locates (view : View) (path : List Key) (reached : View) (node : Tree) : Prop where
  whole : path = [] → node = reached.tree
  last : ∀ front key, path = front ++ [key] → ∃ parent number, view.walk front = .ok parent ∧
    parent.get key = .ok reached ∧ parent.schema.numberOf key = .ok number ∧
    parent.schema.Keeps number reached node

section Walk

variable {view member reached : View} {key : Key} {rest : List Key} {slot : Slot} {number : Nat}
  {node : Tree}

/-- Scalars have no members, so that a walk which comes to one ends there. -/
theorem eq_nil_of_walk_scalar {type : Scalar} (scalar : member.schema = .scalar type)
    (walked : member.walk rest = .ok reached) : rest = [] := by
  -- One more key would be looked up in the scalar, which refuses numbers and names.
  cases rest with
  | nil => rfl
  | cons key rest =>
    obtain ⟨_, found, _⟩ := bind_eq_ok.mp walked
    obtain ⟨schema, tree⟩ := member
    obtain rfl : schema = .scalar type := scalar
    cases key with
    | index index => cases found
    | name name => cases found

/-- A path of one key leads to the node that keeps the member. -/
theorem Step.locates (step : view.Step key member slot number node)
    (found : view.get key = .ok member) : view.Locates [key] member node where
  whole := by simp
  last front last same := by
    -- The last key is the only one, so the view itself is the last parent.
    obtain ⟨rfl, rfl⟩ : front = [] ∧ key = last := by
      cases front <;> simp_all
    exact ⟨view, number, rfl, found, step.numbered, step.kept⟩

/-- Where the path of a member leads to, there leads the path with the key of the member first. -/
theorem Step.locates_cons (step : view.Step key member slot number node)
    (found : view.get key = .ok member) (own : node = member.tree) {inner : Tree}
    (walked : member.walk rest = .ok reached) (located : member.Locates rest reached inner) :
    view.Locates (key :: rest) reached inner where
  whole := by simp
  last front last same := by
    cases front with
    | nil =>
      -- The member itself is reached, whose tree the node is.
      obtain ⟨rfl, rfl⟩ := List.cons.inj same
      obtain rfl := Except.ok.inj walked
      obtain rfl := (located.whole rfl).trans own.symm
      exact ⟨view, number, rfl, found, step.numbered, step.kept⟩
    | cons first front =>
      obtain ⟨rfl, later⟩ := List.cons.inj same
      obtain ⟨parent, place, before, kept⟩ := located.last front last later
      exact ⟨parent, place, bind_eq_ok.mpr ⟨member, found, before⟩, kept⟩

end Walk

/--
From a view at a position of a larger tree, the schema tells the position of the node that a walk
leads to, unless that lies too deep for a word.
-/
theorem Canonical.gindexBelow_walk {view reached : View} (canonical : view.Canonical)
    {path : List Key} (walked : view.walk path = .ok reached) {whole : Tree} {base : Gindex}
    (here : whole.navigate base = .ok view.tree) :
    (63 < base.depth + view.levels path →
      ∃ passed, view.schema.gindexBelow base path = .error (.gindexOutOfBounds passed)) ∧
    (base.depth + view.levels path ≤ 63 →
      ∃ gindex node, view.schema.gindexBelow base path = .ok gindex ∧
        gindex.depth = base.depth + view.levels path ∧ whole.navigate gindex = .ok node ∧
        view.Locates path reached node) := by
  -- Each step joins the position of a slot to the one reached before it.
  induction path generalizing view base with
  | nil =>
    obtain rfl := Except.ok.inj walked
    have shallow := base.depth_lt
    refine ⟨fun deep => ?_, fun _ => ⟨base, view.tree, rfl, rfl, here, fun _ => rfl, ?_⟩⟩
    · simp only [levels] at deep
      omega
    · intro front key same
      simp at same
  | cons key rest ih =>
    obtain ⟨member, found, later⟩ := bind_eq_ok.mp walked
    obtain ⟨slot, number, node, step⟩ := canonical.step found
    have total : view.levels (key :: rest) = view.schema.memberDepth + member.levels rest := by
      simp only [levels, found]
    have nonzero := (Tree.atPosition_eq_ok.mp here).1
    rw [Schema.gindexBelow, step.located, ok_bind, total]
    cases joined : base.concat slot.gindex with
    | none =>
      -- Neither position is zero, so it was the depth that did not fit.
      have deep : 63 < base.depth + view.schema.memberDepth := by
        rw [← step.deep]
        simpa [nonzero, step.nonzero] using Gindex.concat_eq_none.mp joined
      exact ⟨fun _ => ⟨base, rfl⟩, fun _ => by omega⟩
    | some next =>
      have depth := Gindex.depth_concat joined
      have there := (Tree.navigate_concat joined whole node).mpr ⟨_, here, step.reached⟩
      rw [step.deep] at depth
      cases slot with
      | subtree gindex schema =>
        -- The walk goes on below the member, which has the schema that the slot tells.
        have own := step.own gindex schema rfl
        obtain rfl : member.schema = schema := step.typed
        obtain ⟨beyond, within⟩ := ih (canonical.get found) later (own ▸ there)
        rw [depth, Nat.add_assoc] at beyond within
        refine ⟨beyond, fun shallow => ?_⟩
        obtain ⟨gindex, inner, told, deep, lies, located⟩ := within shallow
        exact ⟨gindex, inner, told, deep, lies, step.locates_cons found own later located⟩
      | packed gindex offset type =>
        -- A packed scalar is the end of the path, and so is a bit.
        obtain rfl := eq_nil_of_walk_scalar step.typed later
        obtain rfl := Except.ok.inj later
        have shallow := next.depth_lt
        simp only [levels, Nat.add_zero, ← depth]
        exact ⟨fun deep => by omega, fun _ => ⟨next, node, rfl, rfl, there, step.locates found⟩⟩
      | bit gindex position =>
        obtain rfl := eq_nil_of_walk_scalar step.typed later
        obtain rfl := Except.ok.inj later
        have shallow := next.depth_lt
        simp only [levels, Nat.add_zero, ← depth]
        exact ⟨fun deep => by omega, fun _ => ⟨next, node, rfl, rfl, there, step.locates found⟩⟩

/--
A path of keys that leads from a reachable view to another one has a position, unless the levels of
its steps do not fit in a word. At the position lies the tree of the view that is reached, or the
leaf in which its bytes or its bit stand at their place.
-/
theorem Reachable.gindexOf_walk {view reached : View} (reachable : view.Reachable)
    {path : List Key} (walked : view.walk path = .ok reached) :
    (63 < view.levels path →
      ∃ passed, view.schema.gindexOf path = .error (.gindexOutOfBounds passed)) ∧
    (view.levels path ≤ 63 →
      ∃ gindex node, view.schema.gindexOf path = .ok gindex ∧
        gindex.depth = view.levels path ∧ view.tree.navigate gindex = .ok node ∧
        view.Locates path reached node) := by
  -- The walk starts at the root, which has no level above it.
  have here : view.tree.navigate Gindex.root = .ok view.tree := by
    refine Tree.atPosition_eq_ok.mpr ⟨by decide, ?_⟩
    have turns : Gindex.root.path = [] := rfl
    simp [turns, Tree.descend]
  have top : Gindex.root.depth = 0 := by decide
  simpa only [Schema.gindexOf, top, Nat.zero_add] using
    reachable.canonical.gindexBelow_walk walked here

/-- The last number of the last pair in a list of pairs, where the list is a variant of a union. -/
theorem Reachable.gindexOf_walk_nested :
    ∃ view reached gindex node,
      View.ofValue (.union [none, some (.list (.vector (.scalar .uint16) 2) 4)])
        (.union 1 (some (.sequence
          [.sequence [.uint 1, .uint 2], .sequence [.uint 3, .uint 4]]))) = .ok view ∧
      view.walk [.index 1, .index 1, .index 1] = .ok reached ∧
      view.levels [.index 1, .index 1, .index 1] ≤ 63 ∧
      view.schema.gindexOf [.index 1, .index 1, .index 1] = .ok gindex ∧
      view.tree.navigate gindex = .ok node ∧
      view.Locates [.index 1, .index 1, .index 1] reached node := by
  have accepted : (Schema.union [none, some (.list (.vector (.scalar .uint16) 2) 4)]).Accepted :=
    ⟨⟨⟨⟨trivial, rfl⟩, rfl⟩, trivial⟩, rfl⟩
  -- One level to the variant, one to the content, and two to the pair, which is a single leaf.
  have built : View.ofValue (.union [none, some (.list (.vector (.scalar .uint16) 2) 4)])
      (.union 1 (some (.sequence
        [.sequence [.uint 1, .uint 2], .sequence [.uint 3, .uint 4]]))) =
      .ok ⟨.union [none, some (.list (.vector (.scalar .uint16) 2) 4)],
        ((Tree.branch (.branch (.leafOfBytes [1, 0, 2, 0]) (.leafOfBytes [3, 0, 4, 0]))
          (.zero 1)).withLength 2).withSelector 1⟩ := by cbv
  have walked : (⟨.union [none, some (.list (.vector (.scalar .uint16) 2) 4)],
        ((Tree.branch (.branch (.leafOfBytes [1, 0, 2, 0]) (.leafOfBytes [3, 0, 4, 0]))
          (.zero 1)).withLength 2).withSelector 1⟩ : View).walk [.index 1, .index 1, .index 1] =
      .ok ⟨.scalar .uint16, .leafOfBytes [4, 0]⟩ := rfl
  have shallow : (⟨.union [none, some (.list (.vector (.scalar .uint16) 2) 4)],
        ((Tree.branch (.branch (.leafOfBytes [1, 0, 2, 0]) (.leafOfBytes [3, 0, 4, 0]))
          (.zero 1)).withLength 2).withSelector 1⟩ : View).levels [.index 1, .index 1, .index 1] =
      4 := rfl
  obtain ⟨_, within⟩ := (Reachable.ofValue accepted built).gindexOf_walk walked
  obtain ⟨gindex, node, told, _, lies, located⟩ := within (by rw [shallow]; decide)
  exact ⟨_, _, gindex, node, built, walked, by rw [shallow]; decide, told, lies, located⟩

end View

end Ssz
