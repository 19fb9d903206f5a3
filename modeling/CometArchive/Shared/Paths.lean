import CometArchive.Shared.Text

set_option autoImplicit false

namespace GoText

def trimLeftChar (c : Char) (text : String) : String := String.ofList (text.toList.dropWhile (· == c))

def trimPrefix (text lead : String) : String :=
  if lead.toList.isPrefixOf text.toList then String.ofList (text.toList.drop lead.toList.length) else text

theorem trimPrefix_append (lead text : String) : trimPrefix (lead ++ text) lead = text := by
  rw [trimPrefix, if_pos]
  · rw [String.toList_append, List.drop_left, String.ofList_toList]
  · rw [List.isPrefixOf_iff_prefix, String.toList_append]
    exact List.prefix_append _ _

variable {value : String} {parts : List (List Char)}

theorem splitSlash_join (left right : String) :
    splitSlash (left ++ "/" ++ right) = splitSlash left ++ splitSlash right := by
  have slash : ("/" : String).toList = ['/'] := rfl
  rw [splitSlash, String.toList_append, String.toList_append, slash, List.append_assoc, List.singleton_append]
  exact List.splitOn_append_cons_self _ _

theorem intercalate_splitSlash (value : String) : ['/'].intercalate (splitSlash value) = value.toList :=
  List.intercalate_splitOn '/'

theorem splitSlash_ne_nil (value : String) : splitSlash value ≠ [] := List.splitOn_ne_nil _ _

theorem splitSlash_of_intercalate (plain : ∀ part ∈ parts, '/' ∉ part) (filled : parts ≠ [])
    (same : value.toList = ['/'].intercalate parts) : splitSlash value = parts := by
  rw [splitSlash, same]
  exact List.splitOn_intercalate '/' plain filled

theorem splitSlash_of_notMem (plain : '/' ∉ value.toList) : splitSlash value = [value.toList] :=
  List.splitOn_eq_singleton plain

theorem mem_intercalate {c : Char} {part : List Char} (among : part ∈ parts) (member : c ∈ part) :
    c ∈ ['/'].intercalate parts := by
  induction parts with
  | nil => cases among
  | cons first rest ih =>
    cases rest with
    | nil =>
      rw [List.mem_singleton.mp among] at member
      rwa [List.intercalate_singleton]
    | cons second others =>
      rw [List.intercalate_cons_cons, List.mem_append, List.mem_append]
      rcases List.mem_cons.mp among with rfl | later
      · exact .inl (.inl member)
      · exact .inr (ih later)

theorem of_mem_intercalate {c : Char} (member : c ∈ ['/'].intercalate parts) : c = '/' ∨ ∃ part ∈ parts, c ∈ part := by
  induction parts with
  | nil => cases member
  | cons first rest ih =>
    cases rest with
    | nil =>
      rw [List.intercalate_singleton] at member
      exact .inr ⟨first, by simp, member⟩
    | cons second others =>
      rw [List.intercalate_cons_cons, List.mem_append, List.mem_append, List.mem_singleton] at member
      rcases member with (inFirst | slash) | later
      · exact .inr ⟨first, by simp, inFirst⟩
      · exact .inl slash
      · rcases ih later with slash | ⟨part, among, inPart⟩
        · exact .inl slash
        · exact .inr ⟨part, List.mem_cons_of_mem _ among, inPart⟩

theorem slash_notMem_of_mem_splitSlash {part : List Char} (among : part ∈ splitSlash value) : '/' ∉ part := by
  rw [splitSlash] at among
  generalize value.toList = chars at among
  induction chars generalizing part with
  | nil =>
    rw [List.splitOn_nil, List.mem_singleton] at among
    simp [among]
  | cons c rest ih =>
    rw [List.splitOn_cons_eq_if_modifyHead] at among
    split at among
    · rcases List.mem_cons.mp among with rfl | later
      · simp
      · exact ih later
    next other =>
      cases shape : rest.splitOn '/' with
      | nil => exact absurd shape (List.splitOn_ne_nil _ _)
      | cons first others =>
        rw [shape, List.modifyHead_cons, List.mem_cons] at among
        rw [shape] at ih
        rcases among with rfl | later
        · have plain := ih (List.mem_cons_self ..)
          simp only [beq_iff_eq] at other
          simp [plain, Ne.symm other]
        · exact ih (List.mem_cons_of_mem _ later)

theorem intercalate_append {left right : List (List Char)} (leftFilled : left ≠ []) (rightFilled : right ≠ []) :
    ['/'].intercalate (left ++ right) = ['/'].intercalate left ++ '/' :: ['/'].intercalate right := by
  induction left with
  | nil => exact absurd rfl leftFilled
  | cons first rest ih =>
    cases rest with
    | nil => simp [List.intercalate_cons_of_ne_nil rightFilled]
    | cons second others =>
      have tail := ih (by simp)
      rw [List.cons_append, List.intercalate_cons_of_ne_nil (by simp), tail, List.intercalate_cons_cons]
      simp

end GoText
