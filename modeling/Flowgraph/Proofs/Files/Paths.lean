import Flowgraph.Files.Path
import Mathlib.Data.List.DropRight

/-!
# The last element of a joined path

Splitting a text at its slashes undoes joining texts with slashes. The normal form of a path drops
elements and takes some back, but it never touches a name at the end: whatever such a path is joined
to, it ends in the same name.
-/

namespace Flowgraph.Files

/-! ## Splitting and joining

A text that is split at its slashes and joined again is the same text, and joined elements are split
back if none of them has a slash. So a path and its elements can be used for each other. -/

theorem splitSlash_ne_nil (cs : List Char) : splitSlash cs ≠ [] := by
  cases cs with
  | nil => simp [splitSlash]
  | cons c cs =>
    rw [splitSlash]
    split
    · simp
    · split <;> simp

theorem splitSlash_cons_slash (cs : List Char) : splitSlash ('/' :: cs) = [] :: splitSlash cs := by
  rw [splitSlash]
  split
  · rename_i hnil
    exact absurd hnil (splitSlash_ne_nil cs)
  · rename_i part parts hparts
    rw [if_pos rfl, hparts]

theorem splitSlash_cons {c : Char} (hc : c ≠ '/') {cs part : List Char} {parts : List (List Char)}
    (h : splitSlash cs = part :: parts) : splitSlash (c :: cs) = (c :: part) :: parts := by
  rw [splitSlash, h]
  exact if_neg hc

private theorem splitSlash_append : ∀ cs ds : List Char,
    splitSlash (cs ++ '/' :: ds) = splitSlash cs ++ splitSlash ds
  | [], ds => splitSlash_cons_slash ds
  | c :: cs, ds => by
    have ih := splitSlash_append cs ds
    obtain ⟨part, parts, hparts⟩ := List.exists_cons_of_ne_nil (splitSlash_ne_nil cs)
    rw [hparts, List.cons_append] at ih
    by_cases hc : c = '/'
    · rw [hc, List.cons_append, splitSlash_cons_slash, splitSlash_cons_slash, ih, hparts]
      rfl
    · rw [List.cons_append, splitSlash_cons hc ih, splitSlash_cons hc hparts]
      rfl

private theorem splitSlash_of_notMem : ∀ {cs : List Char}, '/' ∉ cs → splitSlash cs = [cs]
  | [], _ => rfl
  | c :: cs, h => by
    rw [List.mem_cons, not_or] at h
    exact splitSlash_cons (Ne.symm h.1) (splitSlash_of_notMem h.2)

private theorem notMem_of_mem_splitSlash :
    ∀ {cs part : List Char}, part ∈ splitSlash cs → '/' ∉ part
  | [], part, h => by
    rw [splitSlash, List.mem_singleton] at h
    simp [h]
  | c :: cs, part, h => by
    obtain ⟨first, parts, hparts⟩ := List.exists_cons_of_ne_nil (splitSlash_ne_nil cs)
    have ih : ∀ part ∈ first :: parts, '/' ∉ part := fun part hpart ↦
      notMem_of_mem_splitSlash (by rw [hparts]; exact hpart)
    by_cases hc : c = '/'
    · rw [hc, splitSlash_cons_slash, hparts, List.mem_cons] at h
      rcases h with rfl | h
      · simp
      · exact ih part h
    · rw [splitSlash_cons hc hparts, List.mem_cons] at h
      rcases h with rfl | h
      · rw [List.mem_cons, not_or]
        exact ⟨Ne.symm hc, ih first List.mem_cons_self⟩
      · exact ih part (List.mem_cons_of_mem _ h)

private theorem splitSlash_intercalate : ∀ {parts : List (List Char)}, parts ≠ [] →
    splitSlash (['/'].intercalate parts) = parts.flatMap splitSlash
  | [], h => absurd rfl h
  | [part], _ => by simp
  | part :: next :: parts, _ => by
    have ih := splitSlash_intercalate (List.cons_ne_nil next parts)
    rw [List.intercalate_cons_cons, List.flatMap_cons, ← ih, List.append_assoc]
    exact splitSlash_append _ _

private theorem intercalate_splitSlash : ∀ cs : List Char, ['/'].intercalate (splitSlash cs) = cs
  | [] => rfl
  | c :: cs => by
    have ih := intercalate_splitSlash cs
    obtain ⟨part, parts, hparts⟩ := List.exists_cons_of_ne_nil (splitSlash_ne_nil cs)
    rw [hparts] at ih
    by_cases hc : c = '/'
    · rw [hc, splitSlash_cons_slash, hparts, List.intercalate_cons_cons, ih]
      rfl
    · rw [splitSlash_cons hc hparts]
      cases parts with
      | nil =>
        rw [List.intercalate_singleton] at ih ⊢
        rw [ih]
      | cons next parts =>
        rw [List.intercalate_cons_cons] at ih ⊢
        rw [List.cons_append, List.cons_append, ih]

theorem elements_ne_nil (path : String) : elements path ≠ [] := by
  rw [elements, Ne, List.map_eq_nil_iff]
  exact splitSlash_ne_nil _

/-- Is a text an element, that is, free of slashes? -/
def IsElement (e : String) : Prop := '/' ∉ e.toList

private theorem isElement_of_mem_elements {path e : String} (h : e ∈ elements path) :
    IsElement e := by
  obtain ⟨part, hpart, rfl⟩ := List.mem_map.mp h
  rw [IsElement, String.toList_ofList]
  exact notMem_of_mem_splitSlash hpart

theorem elements_of_isElement {e : String} (h : IsElement e) : elements e = [e] := by
  rw [elements, splitSlash_of_notMem h, List.map_singleton, String.ofList_toList]

theorem elements_intercalate {paths : List String} (h : paths ≠ []) :
    elements ("/".intercalate paths) = paths.flatMap elements := by
  have hne : paths.map String.toList ≠ [] := by simpa using h
  rw [elements, String.toList_intercalate]
  change (splitSlash (['/'].intercalate _)).map String.ofList = _
  rw [splitSlash_intercalate hne, List.flatMap_map, List.map_flatMap]
  rfl

theorem elements_slash (path : String) : elements ("/" ++ path) = "" :: elements path := by
  rw [elements, String.toList_append]
  change (splitSlash ('/' :: path.toList)).map _ = _
  rw [splitSlash_cons_slash]
  rfl

/-! ## Names at the end

`EndsIn path name` says that the last element of the path is `name`, which is a real name and no dot
or dots. Joining and cleaning keep it, whatever stands in front. -/

/-- A path ends in a name, which is neither empty nor made of dots. -/
structure EndsIn (path name : String) : Prop where
  last : (elements path).getLast? = some name
  ne_empty : name ≠ ""
  ne_dot : name ≠ "."
  ne_dots : name ≠ ".."

variable {path name : String}

private theorem suffix_intercalate {sep part : List Char} : ∀ {parts : List (List Char)},
    parts.getLast? = some part → part <:+ sep.intercalate parts
  | [], h => by cases h
  | [first], h => by
    cases h
    rw [List.intercalate_singleton]
    exact List.suffix_refl _
  | first :: next :: parts, h => by
    rw [List.getLast?_cons_cons] at h
    rw [List.intercalate_cons_cons]
    exact (suffix_intercalate h).trans (List.suffix_append _ _)

/-- The name at the end of a path is the end of its text. -/
theorem EndsIn.suffix (h : EndsIn path name) : name.toList <:+ path.toList := by
  have hlast := h.last
  rw [elements, List.getLast?_map, Option.map_eq_some_iff] at hlast
  obtain ⟨part, hpart, rfl⟩ := hlast
  rw [String.toList_ofList]
  conv_rhs => rw [← intercalate_splitSlash path.toList]
  exact suffix_intercalate hpart

private theorem forall_mem_pushElement {absolute : Bool} {e : String} {stack : List String}
    {P : String → Prop} (hdots : P "..") (he : P e) (hstack : ∀ e ∈ stack, P e) :
    ∀ e' ∈ pushElement absolute stack e, P e' := by
  unfold pushElement
  by_cases hdot : e = "" ∨ e = "."
  · rw [if_pos hdot]
    exact hstack
  by_cases hup : e = ".."
  · rw [if_neg hdot, if_pos hup]
    cases stack with
    | nil =>
      cases absolute with
      | true => exact hstack
      | false => exact List.forall_mem_singleton.mpr hdots
    | cons top below =>
      rw [List.forall_mem_cons] at hstack
      dsimp only
      split
      · exact List.forall_mem_cons.mpr ⟨hdots, List.forall_mem_cons.mpr hstack⟩
      · exact hstack.2
  · rw [if_neg hdot, if_neg hup]
    exact List.forall_mem_cons.mpr ⟨he, hstack⟩

private theorem forall_mem_foldl_pushElement {absolute : Bool} {P : String → Prop}
    (hdots : P "..") :
    ∀ {es stack : List String}, (∀ e ∈ es, P e) → (∀ e ∈ stack, P e) →
      ∀ e ∈ es.foldl (pushElement absolute) stack, P e
  | [], _, _, hstack => hstack
  | e :: es, stack, hes, hstack => by
    rw [List.forall_mem_cons] at hes
    rw [List.foldl_cons]
    exact forall_mem_foldl_pushElement hdots hes.2 (forall_mem_pushElement hdots hes.1 hstack)

private theorem EndsIn.pushElement (h : EndsIn path name) (absolute : Bool) (stack : List String) :
    pushElement absolute stack name = name :: stack := by
  unfold Files.pushElement
  rw [if_neg (not_or.mpr ⟨h.ne_empty, h.ne_dot⟩), if_neg h.ne_dots]

private theorem EndsIn.clean (h : EndsIn path name) : EndsIn (clean path) name := by
  refine ⟨?_, h.ne_empty, h.ne_dot, h.ne_dots⟩
  obtain ⟨es, helems⟩ := List.getLast?_eq_some_iff.mp h.last
  have hparts : ((elements path).foldl (Files.pushElement (isAbsolute path)) []).reverse
      = (es.foldl (Files.pushElement (isAbsolute path)) []).reverse ++ [name] := by
    rw [helems, List.foldl_concat, h.pushElement, List.reverse_cons]
  have hall : ∀ e ∈ (es.foldl (Files.pushElement (isAbsolute path)) []).reverse ++ [name],
      IsElement e := by
    rw [← hparts]
    intro e he
    refine forall_mem_foldl_pushElement (by rw [IsElement]; decide)
      (fun e he ↦ isElement_of_mem_elements he) (fun e he ↦ ?_) e (List.mem_reverse.mp he)
    cases he
  rw [Files.clean, hparts]
  generalize (es.foldl (Files.pushElement (isAbsolute path)) []).reverse = front at hall
  have hbody : elements ("/".intercalate (front ++ [name])) = front ++ [name] := by
    rw [elements_intercalate (by simp)]
    conv_rhs => rw [← List.flatMap_singleton' (front ++ [name])]
    refine List.flatMap_congr fun e he ↦ elements_of_isElement (hall e he)
  split
  · rw [elements_slash, hbody, List.getLast?_cons, List.getLast?_concat, Option.getD_some]
  · rw [if_neg (by simp), hbody, List.getLast?_concat]

/-- A joined path ends in the name that the last part ends in. -/
theorem EndsIn.join (h : EndsIn path name) (paths : List String) :
    EndsIn (join (paths ++ [path])) name := by
  have hpath : path ≠ "" := by
    rintro rfl
    exact h.ne_empty (Option.some.inj h.last).symm
  have hkept : (paths ++ [path]).filter (· ≠ "") = paths.filter (· ≠ "") ++ [path] := by
    rw [List.filter_append, List.filter_singleton]
    simp [hpath]
  rw [Files.join, hkept]
  split
  · rename_i hnil
    simp at hnil
  · refine EndsIn.clean ⟨?_, h.ne_empty, h.ne_dot, h.ne_dots⟩
    rw [elements_intercalate (by simp), List.flatMap_append, List.flatMap_singleton,
      List.getLast?_append, h.last, Option.some_or]

/-- An element ends in itself. -/
theorem endsIn_self (h : IsElement name) (hempty : name ≠ "") (hdot : name ≠ ".")
    (hdots : name ≠ "..") : EndsIn name name := by
  refine ⟨?_, hempty, hdot, hdots⟩
  rw [elements_of_isElement h]
  rfl

/-- The last element of a path is an element, unless the path is the root. -/
theorem baseName_cases (path : String) :
    baseName path = "/" ∨ baseName path ≠ "" ∧ IsElement (baseName path) := by
  rw [baseName]
  split
  · exact Or.inr ⟨by decide, by rw [IsElement]; decide⟩
  · split
    · exact Or.inl rfl
    · rename_i htrim
      refine Or.inr ⟨?_, ?_⟩
      · rw [splitLast, trimSlashes, String.toList_ofList, List.reverse_reverse]
        cases hrest : path.toList.reverse.dropWhile (· = '/') with
        | nil => exact absurd (by rw [trimSlashes, hrest]; rfl) htrim
        | cons c cs =>
          have hc := List.head?_dropWhile_not (· = '/') path.toList.reverse
          rw [hrest, List.head?_cons] at hc
          have hc : c ≠ '/' := by simpa using hc
          rw [List.takeWhile_cons_of_pos (by simpa using hc)]
          simp
      · rw [IsElement, splitLast, String.toList_ofList, List.mem_reverse]
        intro hmem
        simpa using List.mem_takeWhile_imp hmem

end Flowgraph.Files
