import Ssz.Proofs.Checked
import Ssz.Proofs.Gindex
import Ssz.Tree.Position

/-!
Walks down a tree: which positions they reach, walks that go on from where others ended, and walks
after a subtree was replaced.
-/

namespace Ssz.Tree

variable {gindex base child joined : Gindex}

/-- A walk to a position succeeds exactly when its path can be gone and it is not zero. -/
theorem atPosition_eq_ok {α : Type} {find : List Bool → Option α} {found : α} :
    atPosition gindex find = .ok found ↔ gindex ≠ 0 ∧ find gindex.path = some found := by
  -- Zero is refused before any walk, although its path is empty.
  rw [atPosition]
  split
  · rename_i zero
    simp [zero]
  · rename_i nonzero
    cases find gindex.path <;> simp [nonzero]

/-- Walks that agree on the path of a position reach the same there. -/
theorem atPosition_congr {α : Type} {find other : List Bool → Option α}
    (same : find gindex.path = other gindex.path) :
    atPosition gindex find = atPosition gindex other := by
  rw [atPosition, atPosition, same]

/-- A walk to one position, reported at another one. -/
theorem mapError_atPosition {α : Type} (nonzero : base ≠ 0) (also : joined ≠ 0)
    (find : List Bool → Option α) :
    (atPosition base find).mapError (fun _ => .gindexOutOfBounds joined) =
      atPosition joined fun _ => find base.path := by
  rw [atPosition, atPosition, if_neg nonzero, if_neg also]
  cases find base.path <;> rfl

/-- The left child of the root lies at position two. -/
theorem navigate_two (left right : Tree) : (branch left right).navigate 2 = .ok left := by
  have turns : Gindex.path 2 = [false] := rfl
  refine atPosition_eq_ok.mpr ⟨by decide, ?_⟩
  simp [turns, descend]

/-- A position of a level is walked to by the turns to its number. -/
theorem navigate_ofDepthIndex {depth : Nat} {index : UInt64} (shallow : depth < 64)
    (within : index.toNat < 2 ^ depth) {tree node : Tree} :
    tree.navigate (Gindex.ofDepthIndex depth index) = .ok node ↔
      tree.descend (turnsTo depth index.toNat) = some node := by
  rw [navigate, atPosition_eq_ok, Gindex.path_ofDepthIndex shallow within,
    and_iff_right (Gindex.ofDepthIndex_ne_zero shallow within)]

/-- A chunk is found where there is a leaf with it. -/
theorem navigate_of_chunkAt {tree : Tree} {chunk : Chunk}
    (found : tree.chunkAt gindex = .ok chunk) :
    tree.navigate gindex = .ok (leaf chunk) := by
  obtain ⟨node, reached, held⟩ := bind_eq_ok.mp found
  -- Branches have no chunk to give.
  cases node with
  | leaf own =>
    obtain rfl := Except.ok.inj held
    exact reached
  | branch => cases held

/-- A walk can stop on the way and go on from the subtree reached. -/
theorem descend_append (tree : Tree) (turns later : List Bool) :
    tree.descend (turns ++ later) = (tree.descend turns).bind (·.descend later) := by
  -- A leaf on the way ends both walks, the whole one and the first half of it.
  induction turns generalizing tree with
  | nil => simp [descend]
  | cons turn turns ih =>
    cases tree with
    | leaf chunk => simp [descend]
    | branch left right => cases turn <;> simp [descend, ih]

/-- What lies at a joined position lies at the second one below the first. -/
theorem navigate_concat (found : base.concat child = some joined) (tree node : Tree) :
    tree.navigate joined = .ok node ↔
      ∃ inner, tree.navigate base = .ok inner ∧ inner.navigate child = .ok node := by
  obtain ⟨first, second, _⟩ := Gindex.concat_eq_some.mp found
  simp only [navigate, atPosition_eq_ok, Gindex.path_concat found, descend_append,
    Option.bind_eq_some_iff]
  -- None of the three positions is zero, so only their turns count.
  simp [first, second, Gindex.concat_ne_zero found]

/-- Turns that part from each other before either list of them ends. -/
def Apart (first second : List Bool) : Prop :=
  ¬ first <+: second ∧ ¬ second <+: first

instance (first second : List Bool) : Decidable (Apart first second) :=
  inferInstanceAs (Decidable (¬ first <+: second ∧ ¬ second <+: first))

/-- Different lists of equally many turns part somewhere. -/
theorem apart_of_length {first second : List Bool} (sized : first.length = second.length)
    (other : first ≠ second) : Apart first second :=
  ⟨fun ahead => other (ahead.eq_of_length sized),
    fun behind => other (behind.eq_of_length sized.symm).symm⟩

/-- After a turn that two walks share, they part in what is left. -/
theorem Apart.of_cons {turn : Bool} {first second : List Bool}
    (apart : Apart (turn :: first) (turn :: second)) : Apart first second := by
  simpa [Apart, List.cons_prefix_cons] using apart

section Graft

variable {tree subtree grafted : Tree} {turns other : List Bool}

/-- A subtree is replaced exactly where there is one. -/
theorem isSome_graft (tree : Tree) (turns : List Bool) (subtree : Tree) :
    (tree.graft turns subtree).isSome = (tree.descend turns).isSome := by
  -- Both walks need a branch for each turn, and nothing else.
  induction turns generalizing tree with
  | nil => simp [graft, descend]
  | cons turn turns ih =>
    cases tree with
    | leaf chunk => rfl
    | branch left right => cases turn <;> simp [graft, descend, ih]

/-- A replacement is found where it was put. -/
theorem descend_graft (done : tree.graft turns subtree = some grafted) :
    grafted.descend turns = some subtree := by
  induction turns generalizing tree grafted with
  | nil =>
    obtain rfl : subtree = grafted := by simpa [graft] using done
    simp [descend]
  | cons turn turns ih =>
    cases tree with
    | leaf chunk => cases done
    | branch left right =>
      -- Only the child on the way is rebuilt, and the walk goes on in it.
      cases turn with
      | false =>
        obtain ⟨inner, placed, rfl⟩ := Option.map_eq_some_iff.mp done
        exact ih placed
      | true =>
        obtain ⟨inner, placed, rfl⟩ := Option.map_eq_some_iff.mp done
        exact ih placed

/-- Walks that part from the way to a replacement find what they found before. -/
theorem descend_graft_of_apart (done : tree.graft turns subtree = some grafted)
    (apart : Apart turns other) : grafted.descend other = tree.descend other := by
  induction turns generalizing tree grafted other with
  | nil => exact absurd List.nil_prefix apart.1
  | cons turn turns ih =>
    cases other with
    | nil => exact absurd List.nil_prefix apart.2
    | cons next other =>
      cases tree with
      | leaf chunk => cases done
      | branch left right =>
        -- Either the walks part at this turn, or they go on into the same child.
        cases turn with
        | false =>
          obtain ⟨inner, placed, rfl⟩ := Option.map_eq_some_iff.mp done
          cases next with
          | false => simpa [descend] using ih placed apart.of_cons
          | true => rfl
        | true =>
          obtain ⟨inner, placed, rfl⟩ := Option.map_eq_some_iff.mp done
          cases next with
          | false => rfl
          | true => simpa [descend] using ih placed apart.of_cons

/-- A replacement leaves the positions of its own level in use that were in use before. -/
theorem isSome_descend_graft (done : tree.graft turns subtree = some grafted)
    (sized : turns.length = other.length) :
    (grafted.descend other).isSome = (tree.descend other).isSome := by
  by_cases same : turns = other
  · subst same
    -- There was a subtree to be replaced, and now there is the replacement.
    rw [descend_graft done, ← isSome_graft tree turns subtree, done, Option.isSome_some,
      Option.isSome_some]
  · rw [descend_graft_of_apart done (apart_of_length sized same)]

/-- Walks that go on from where a replacement was put go on in the replacement. -/
theorem descend_graft_append (done : tree.graft turns subtree = some grafted)
    (later : List Bool) : grafted.descend (turns ++ later) = subtree.descend later := by
  rw [descend_append, descend_graft done, Option.bind_some]

/-- A replacement on the left rebuilds the left child. -/
theorem graft_false (left right : Tree) (turns : List Bool) (subtree : Tree) :
    (branch left right).graft (false :: turns) subtree =
      (left.graft turns subtree).map (branch · right) := rfl

/-- A replacement on the right rebuilds the right child. -/
theorem graft_true (left right : Tree) (turns : List Bool) (subtree : Tree) :
    (branch left right).graft (true :: turns) subtree =
      (right.graft turns subtree).map (branch left ·) := rfl

/-- Replacing at the end of a longer walk is replacing in the subtree that is reached on the way. -/
theorem graft_append (tree : Tree) (turns later : List Bool) (subtree : Tree) :
    tree.graft (turns ++ later) subtree =
      (tree.descend turns).bind fun inner =>
        (inner.graft later subtree).bind (tree.graft turns ·) := by
  -- Whatever is put in below a branch, that branch is rebuilt around the child on the way.
  induction turns generalizing tree with
  | nil => simp [descend, graft]
  | cons turn turns ih =>
    cases tree with
    | leaf chunk => rfl
    | branch left right =>
      cases turn with
      | false =>
        simp only [List.cons_append, graft_false, ih, Option.map_bind, Function.comp_def]
        rfl
      | true =>
        simp only [List.cons_append, graft_true, ih, Option.map_bind, Function.comp_def]
        rfl

/-- Putting back the subtree that is there leaves the tree as it is. -/
theorem graft_self (reached : tree.descend turns = some subtree) :
    tree.graft turns subtree = some tree := by
  -- The branch that is built anew on the way has the same two children.
  induction turns generalizing tree with
  | nil =>
    obtain rfl : tree = subtree := by simpa [descend] using reached
    simp [graft]
  | cons turn turns ih =>
    cases tree with
    | leaf chunk => cases reached
    | branch left right =>
      cases turn with
      | false => simp [graft_false, ih reached]
      | true => simp [graft_true, ih reached]

/-- Of two replacements at the end of one walk only the second is left. -/
theorem graft_graft (tree : Tree) (turns : List Bool) (first second : Tree) :
    (tree.graft turns first).bind (·.graft turns second) = tree.graft turns second := by
  induction turns generalizing tree with
  | nil => simp [graft]
  | cons turn turns ih =>
    cases tree with
    | leaf chunk => rfl
    | branch left right =>
      -- The second replacement rebuilds the branches that the first one made.
      cases turn with
      | false =>
        rw [graft_false, graft_false, ← ih left]
        cases left.graft turns first <;> rfl
      | true =>
        rw [graft_true, graft_true, ← ih right]
        cases right.graft turns first <;> rfl

/-- Replacements at the ends of walks that part can be made in either order. -/
theorem graft_comm (apart : Apart turns other) (tree first second : Tree) :
    (tree.graft turns first).bind (·.graft other second) =
      (tree.graft other second).bind (·.graft turns first) := by
  induction turns generalizing tree other with
  | nil => exact absurd List.nil_prefix apart.1
  | cons turn turns ih =>
    cases other with
    | nil => exact absurd List.nil_prefix apart.2
    | cons next other =>
      cases tree with
      | leaf chunk => rfl
      | branch left right =>
        cases turn with
        | false =>
          cases next with
          | false =>
            -- Both go on in the left child, which the right one does not notice.
            have below := congrArg (Option.map (branch · right)) (ih apart.of_cons left)
            simpa only [graft_false, Option.bind_map, Option.map_bind, Function.comp_def]
              using below
          | true =>
            -- Here the walks part, and each replacement rebuilds a child of its own.
            simp only [graft_false, graft_true, Option.bind_map, Function.comp_def]
            cases left.graft turns first <;> cases right.graft other second <;> rfl
        | true =>
          cases next with
          | false =>
            simp only [graft_false, graft_true, Option.bind_map, Function.comp_def]
            cases right.graft turns first <;> cases left.graft other second <;> rfl
          | true =>
            have below := congrArg (Option.map (branch left ·)) (ih apart.of_cons right)
            simpa only [graft_true, Option.bind_map, Option.map_bind, Function.comp_def]
              using below

end Graft

end Ssz.Tree
