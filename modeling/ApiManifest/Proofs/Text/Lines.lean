import ApiManifest.Proofs.Path.Following

/-!
The lines of a text. A text that is printed with a line feed after it gives a line for each of the
pieces between its own line feeds (`lines_join`), so that texts come out one to a line exactly when
no line feed stands in any of them (`flatMap_pieces_eq_iff`). A text that starts without a line feed
passes its start on to its first piece alone (`pieces_append_of_not_mem`).
-/

set_option autoImplicit false
set_option relaxedAutoImplicit false

namespace ApiManifest.Text

/-- The pieces of a text between its line feeds. -/
def pieces (s : String) : List String := (s.toList.splitOn '\n').map String.ofList

/-- The lines of a text, each ended by a line feed. What stands after the last one is no line. -/
def lines (s : String) : List String := (pieces s).dropLast

variable {s t : String} {ts : List String}

theorem pieces_append_lineFeed (s t : String) : pieces (s ++ "\n" ++ t) = pieces s ++ pieces t := by
  have hlist : (s ++ "\n" ++ t).toList = s.toList ++ '\n' :: t.toList := by simp
  have hsplit : (s.toList ++ '\n' :: t.toList).splitOn '\n' =
      s.toList.splitOn '\n' ++ t.toList.splitOn '\n' :=
    List.splitOnP_append_cons _ _ (beq_self_eq_true '\n')
  rw [pieces, hlist, hsplit, List.map_append]
  rfl

theorem pieces_ne_nil (s : String) : pieces s ≠ [] := by
  rw [pieces, Ne, List.map_eq_nil_iff]
  exact List.splitOn_ne_nil _ _

theorem lines_append_lineFeed (s t : String) : lines (s ++ "\n" ++ t) = pieces s ++ lines t := by
  rw [lines, pieces_append_lineFeed, List.dropLast_append_of_ne_nil (pieces_ne_nil t)]
  rfl

/-- Printed texts give the lines of their pieces. -/
theorem lines_join (ts : List String) :
    lines (String.join (ts.map fun t ↦ t ++ "\n")) = ts.flatMap pieces := by
  induction ts with
  | nil => rfl
  | cons t ts ih =>
    rw [List.map_cons, String.join_cons, lines_append_lineFeed, ih, List.flatMap_cons]

theorem pieces_of_not_mem (h : '\n' ∉ s.toList) : pieces s = [s] := by
  rw [pieces, List.splitOn_eq_singleton h, List.map_singleton, String.ofList_toList]

theorem lineFeed_not_mem_of_mem_pieces (h : t ∈ pieces s) : '\n' ∉ t.toList := by
  obtain ⟨cs, hcs, rfl⟩ := List.mem_map.mp h
  rw [String.toList_ofList]
  exact Path.not_mem_of_mem_splitOn cs hcs

/-- Texts are the lines that they give exactly when no line feed stands in them. -/
theorem flatMap_pieces_eq_iff : ts.flatMap pieces = ts ↔ ∀ t ∈ ts, '\n' ∉ t.toList := by
  constructor
  · intro h t ht
    rw [← h] at ht
    obtain ⟨s, -, hs⟩ := List.mem_flatMap.mp ht
    exact lineFeed_not_mem_of_mem_pieces hs
  · intro h
    induction ts with
    | nil => rfl
    | cons t ts ih =>
      obtain ⟨ht, hts⟩ := List.forall_mem_cons.mp h
      rw [List.flatMap_cons, pieces_of_not_mem ht, ih hts, List.singleton_append]

theorem splitOn_append_of_not_mem {c : Char} {front : List Char} (h : c ∉ front)
    (rest : List Char) :
    (front ++ rest).splitOn c = (rest.splitOn c).modifyHead (front ++ ·) := by
  induction front with
  | nil => exact (congrFun List.modifyHead_id (rest.splitOn c)).symm
  | cons d front ih =>
    rw [List.mem_cons, not_or] at h
    rw [List.cons_append, List.splitOn_cons_eq_if_modifyHead,
      if_neg fun hsame ↦ h.1 (beq_iff_eq.mp hsame).symm, ih h.2, List.modifyHead_modifyHead]
    rfl

/-- What starts a text without a line feed starts its first piece. -/
theorem pieces_append_of_not_mem (h : '\n' ∉ s.toList) (t : String) :
    pieces (s ++ t) = (pieces t).modifyHead (s ++ ·) := by
  rw [pieces, String.toList_append, splitOn_append_of_not_mem h, pieces]
  cases hsplit : t.toList.splitOn '\n' with
  | nil => rfl
  | cons first rest => simp

end ApiManifest.Text
