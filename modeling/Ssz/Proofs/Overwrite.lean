import Mathlib.Data.List.Forall2

/-! Lists with one entry written at a position: replaced, or added right after the last one. -/

namespace Ssz

variable {α β : Type}

/-- The list with an entry written at a position, which may be the one after the last. -/
def overwrite (entries : List α) (position : Nat) (entry : α) : List α :=
  entries.take position ++ entry :: entries.drop (position + 1)

/-- Writing at a position in use replaces its entry. -/
theorem overwrite_eq_set {entries : List α} {position : Nat} (entry : α)
    (within : position < entries.length) :
    overwrite entries position entry = entries.set position entry := by
  rw [overwrite, List.set_eq_take_append_cons_drop, if_pos within]

/-- Writing right after the last entry adds one. -/
theorem overwrite_length (entries : List α) (entry : α) :
    overwrite entries entries.length entry = entries ++ [entry] := by
  rw [overwrite, List.take_length, List.drop_eq_nil_of_le (by omega)]

/-- Writing changes what is read at its own position and at no other. -/
theorem getD_overwrite {entries : List α} {position : Nat} (entry default : α)
    (within : position ≤ entries.length) (i : Nat) :
    (overwrite entries position entry).getD i default =
      if i = position then entry else entries.getD i default := by
  have front : (entries.take position).length = position := by simp [within]
  simp only [overwrite, List.getD_eq_getElem?_getD, List.getElem?_append, front]
  -- The position read lies before, at, or after the one written.
  rcases Nat.lt_trichotomy i position with before | here | after
  · simp [before, Nat.ne_of_lt before]
  · simp [here]
  · obtain ⟨ahead, rfl⟩ := Nat.exists_eq_add_of_lt after
    have skip : position + ahead + 1 - position = ahead + 1 := by omega
    have order : position + 1 + ahead = position + ahead + 1 := by omega
    have other : position + ahead + 1 ≠ position := by omega
    simp [skip, order, other, show ¬ position + ahead + 1 < position by omega]

/-- A function applied to every entry is applied to the one written. -/
theorem map_overwrite (f : α → β) (entries : List α) (position : Nat) (entry : α) :
    (overwrite entries position entry).map f = overwrite (entries.map f) position (f entry) := by
  simp [overwrite, List.map_take, List.map_drop]

/-- An entry of the list written to is the new one or an old one. -/
theorem mem_overwrite {entries : List α} {position : Nat} {entry other : α}
    (member : other ∈ overwrite entries position entry) : other = entry ∨ other ∈ entries := by
  -- What is kept stood either before or after the position written.
  rcases List.mem_append.mp member with front | back
  · exact .inr (List.mem_of_mem_take front)
  · rcases List.mem_cons.mp back with here | back
    · exact .inl here
    · exact .inr (List.mem_of_mem_drop back)

/-- Related lists stay related when related entries are written at one position. -/
theorem forall₂_overwrite {related : α → β → Prop} {entries : List α} {others : List β}
    (each : List.Forall₂ related entries others) (position : Nat) {entry : α} {other : β}
    (written : related entry other) :
    List.Forall₂ related (overwrite entries position entry) (overwrite others position other) :=
  List.rel_append (List.forall₂_take position each)
    (.cons written (List.forall₂_drop (position + 1) each))

end Ssz
