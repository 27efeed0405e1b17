import Mathlib.Data.List.Basic

/-!
# Paths

A path is a list of symbols with a separator `slash`; its components are what stands
between separators. `resolve` follows them from a directory, itself the list of the
components that lead to it from the root: an empty component and `.` stay, `..` goes up.
Links are not followed. A `Name` is a component that neither stays nor goes up: appended
to a directory's path it leads to an entry of that directory.
-/

namespace Paths

section

variable {α : Type} [DecidableEq α] (slash dot : α)

/-- Follow one component. -/
def enter (dir : List (List α)) (c : List α) : List (List α) :=
  if c = [] ∨ c = [dot] then dir
  else if c = [dot, dot] then dir.dropLast
  else dir ++ [c]

/-- Where a path leads, seen from the directory `cwd`. -/
def resolve (cwd : List (List α)) (path : List α) : List (List α) :=
  (path.splitOn slash).foldl (enter dot) (if path.head? = some slash then [] else cwd)

/-- The name of a directory entry. -/
structure Name (c : List α) : Prop where
  nonempty : c ≠ []
  noSlash : slash ∉ c
  notDot : c ≠ [dot]
  notDotDot : c ≠ [dot, dot]

variable {slash dot} {cwd dir : List (List α)} {c : List α}

theorem enter_nil : enter dot dir [] = dir := by
  unfold enter
  rw [if_pos (.inl rfl)]

theorem enter_name (h : Name slash dot c) : enter dot dir c = dir ++ [c] := by
  have hstay : ¬ (c = [] ∨ c = [dot]) := not_or.mpr ⟨h.nonempty, h.notDot⟩
  unfold enter
  rw [if_neg hstay, if_neg h.notDotDot]

/-- The last component is followed from where the rest leads. -/
theorem resolve_append (path : List α) (h : slash ∉ c) :
    resolve slash dot cwd (path ++ slash :: c) =
      enter dot (resolve slash dot cwd (path ++ [slash])) c := by
  have hhead : (path ++ slash :: c).head? = (path ++ [slash]).head? := by
    cases path <;> rfl
  unfold resolve
  rw [hhead, List.splitOn_append_cons_self, List.splitOn_append_cons_self,
    List.splitOn_eq_singleton h, List.splitOn_nil, List.foldl_append, List.foldl_append]
  simp only [List.foldl_cons, List.foldl_nil, enter_nil]

theorem resolve_name (path : List α) (h : Name slash dot c) :
    resolve slash dot cwd (path ++ slash :: c) =
      resolve slash dot cwd (path ++ [slash]) ++ [c] := by
  rw [resolve_append path h.noSlash, enter_name h]

end

end Paths
