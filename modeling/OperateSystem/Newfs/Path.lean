import OperateSystem.Newfs.Operations

/-!
# Normalised paths

A normalised absolute path is a slash before each of its components.  On such
paths the three ways newfs takes a path apart agree: the slash count, the tokens
of `strtok` and the text after the last slash.
-/

namespace OperateSystem.Newfs

/-- A file name: not empty, without slash and without NUL. -/
structure ValidName (name : List Byte) : Prop where
  ne_nil : name ≠ []
  no_slash : slash ∉ name
  no_nul : (0 : Byte) ∉ name

/-- A list of components that makes up a normalised path. -/
def ValidPath (comps : List (List Byte)) : Prop := ∀ name ∈ comps, ValidName name

/-- The path with these components, as the C string. -/
def pathOf (comps : List (List Byte)) : List Byte := comps.flatMap (slash :: ·)

@[simp]
theorem pathOf_nil : pathOf [] = [] := rfl

@[simp]
theorem pathOf_cons (name : List Byte) (comps : List (List Byte)) :
    pathOf (name :: comps) = slash :: (name ++ pathOf comps) := rfl

theorem pathOf_append (comps comps' : List (List Byte)) :
    pathOf (comps ++ comps') = pathOf comps ++ pathOf comps' := List.flatMap_append

section Parse

variable {comps : List (List Byte)}

theorem ValidPath.of_cons {name : List Byte} (h : ValidPath (name :: comps)) :
    ValidName name ∧ ValidPath comps :=
  ⟨h name (by simp), fun other hother => h other (by simp [hother])⟩

theorem splitOn_name_pathOf {name : List Byte} (hname : slash ∉ name) (h : ValidPath comps) :
    (name ++ pathOf comps).splitOn slash = name :: comps := by
  induction comps generalizing name with
  | nil =>
      rw [pathOf_nil, List.append_nil]
      exact List.splitOn_eq_singleton hname
  | cons next comps ih =>
      rw [pathOf_cons, List.splitOn_append_cons_self_of_not_mem hname,
        ih h.of_cons.1.no_slash h.of_cons.2]

/-- `strtok` yields the components. -/
theorem tokens_pathOf (h : ValidPath comps) : tokens (pathOf comps) = comps := by
  have hsplit := splitOn_name_pathOf (show slash ∉ ([] : List Byte) by simp) h
  rw [List.nil_append] at hsplit
  rw [tokens, hsplit, List.filter_cons_of_neg (by simp), List.filter_eq_self]
  intro name hname
  simpa using (h name hname).ne_nil

theorem count_slash_pathOf (h : ValidPath comps) : (pathOf comps).count slash = comps.length := by
  induction comps with
  | nil => rfl
  | cons name comps ih =>
      rw [pathOf_cons, List.count_cons_self, List.count_append,
        List.count_eq_zero_of_not_mem h.of_cons.1.no_slash, ih h.of_cons.2]
      simp

/-- The level is the number of components. -/
theorem calcLvl_pathOf (h : ValidPath comps) : calcLvl (pathOf comps) = comps.length := by
  have hroot : pathOf comps ≠ [slash] := by
    cases comps with
    | nil => simp
    | cons name comps =>
        have hname := h.of_cons.1.ne_nil
        simp [hname]
  rw [calcLvl, if_neg hroot, count_slash_pathOf h]

/-- The name of the entry is the last component. -/
theorem getFname_pathOf {name : List Byte} (hname : slash ∉ name) :
    getFname (pathOf (comps ++ [name])) = some name := by
  have hpath : pathOf (comps ++ [name]) = pathOf comps ++ slash :: name := by
    rw [pathOf_append, pathOf_cons, pathOf_nil, List.append_nil]
  have hrev : (pathOf comps ++ slash :: name).reverse
      = name.reverse ++ slash :: (pathOf comps).reverse := by simp
  have hall : ∀ byte ∈ name.reverse, decide (byte ≠ slash) = true := by
    intro byte hbyte
    simp only [decide_eq_true_eq]
    rintro rfl
    exact hname (by simpa using hbyte)
  rw [getFname, hpath, if_pos (by simp), hrev, List.takeWhile_append_of_pos hall]
  simp

end Parse

end OperateSystem.Newfs
