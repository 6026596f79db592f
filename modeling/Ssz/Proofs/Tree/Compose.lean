import Ssz.Proofs.Tree.Walk

/-! Joining positions: paths are composed like the words of their turns, and trees follow them. -/

namespace Ssz

namespace Tree

variable {base child joined : Gindex}

/-- A joined position is walked to in two walks, whose faults name the joined position. -/
theorem navigate_joined (found : base.concat child = some joined) (tree : Tree) :
    tree.navigate joined = (tree.navigate base >>= (·.navigate child)).mapError fun _ =>
      .gindexOutOfBounds joined := by
  obtain ⟨first, second, _⟩ := Gindex.concat_eq_some.mp found
  simp only [navigate, atPosition, if_neg first, if_neg second,
    if_neg (Gindex.concat_ne_zero found), Gindex.path_concat found, descend_append]
  -- The first walk either leaves the tree or ends where the second one sets out.
  cases tree.descend base.path with
  | none => rfl
  | some inner =>
    rw [Option.bind_some, ok_bind]
    cases inner.descend child.path <;> rfl

/-- A subtree at a joined position is replaced within the subtree at the first of the two. -/
theorem update_joined (found : base.concat child = some joined) (tree subtree : Tree) :
    tree.update joined subtree =
      (do
        let inner ← tree.navigate base
        let filled ← inner.update child subtree
        tree.update base filled).mapError fun _ => .gindexOutOfBounds joined := by
  -- The graft along both paths goes through the first one, and a walk that fails does so as a
  -- whole.
  obtain ⟨first, second, _⟩ := Gindex.concat_eq_some.mp found
  simp only [navigate, update, atPosition, if_neg first, if_neg second,
    if_neg (Gindex.concat_ne_zero found), Gindex.path_concat found, graft_append]
  cases tree.descend base.path with
  | none => rfl
  | some inner =>
    rw [Option.bind_some, ok_bind]
    cases inner.graft child.path subtree with
    | none => rfl
    | some filled =>
      rw [Option.bind_some, ok_bind]
      cases tree.graft base.path filled <;> rfl

end Tree

namespace Gindex

/--
What it means that positions are composed as paths: joining them is joining their turns, as deep as
a word reaches, and a tree is walked or changed at a joined position by way of the first one.
-/
structure ComposesPaths (first second : Gindex) : Prop where
  /-- Nothing is joined where one of the two names no position, or a word does not reach. -/
  missing : first.concat second = none ↔ first = 0 ∨ second = 0 ∨ 63 < first.depth + second.depth
  /-- The root adds nothing on either side of a position. -/
  neutral : first ≠ 0 → root.concat first = some first ∧ first.concat root = some first
  /-- Of three positions either two can be joined first, and both ways miss the same positions. -/
  associates : ∀ third, (first.concat second).bind (·.concat third) =
    (second.concat third).bind (first.concat ·)
  /-- A position is its depth and its number there. -/
  numbered : first ≠ 0 → ofDepthIndex first.depth first.indexAtDepth = first
  /-- A joined position lies as deep as both together. -/
  deep : ∀ joined, first.concat second = some joined → joined.depth = first.depth + second.depth
  /-- The turns to a joined position are those to the first and then those to the second. -/
  turns : ∀ joined, first.concat second = some joined → joined.path = first.path ++ second.path
  /-- A tree is walked to a joined position in two walks. -/
  walked : ∀ joined, first.concat second = some joined → ∀ tree : Tree,
    tree.navigate joined = (tree.navigate first >>= (·.navigate second)).mapError fun _ =>
      .gindexOutOfBounds joined
  /-- A tree is changed at a joined position by changing the subtree at the first one. -/
  changed : ∀ joined, first.concat second = some joined → ∀ tree subtree : Tree,
    tree.update joined subtree =
      (do
        let inner ← tree.navigate first
        let filled ← inner.update second subtree
        tree.update first filled).mapError fun _ => .gindexOutOfBounds joined

/-- All positions are composed as paths. -/
theorem composesPaths (first second : Gindex) : ComposesPaths first second where
  missing := concat_eq_none
  neutral nonzero := ⟨root_concat nonzero, concat_root nonzero⟩
  associates := concat_assoc first second
  numbered := ofDepthIndex_indexAtDepth
  deep _ := depth_concat
  turns _ := path_concat
  walked _ := Tree.navigate_joined
  changed _ := Tree.update_joined

/-- The last position of all is joined from two halves, and one more turn is one too many. -/
example : concat 0xffffffff 0xffffffff = some 0x7fffffffffffffff ∧
    concat 0x1ffffffff 0xffffffff = some 0xffffffffffffffff ∧
    concat 0x1ffffffff 0x1ffffffff = none := by
  decide

end Gindex

end Ssz
