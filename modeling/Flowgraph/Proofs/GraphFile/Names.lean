import Flowgraph.GraphFile.Textual
import Flowgraph.Proofs.Graph.Sound
import Mathlib.Data.List.DropRight
import Mathlib.Data.List.Nodup

/-!
# Names in textual graph files

Names are compared in normal form. A name without white space whose characters all come before the
combining marks is its own normal form, and so are the names that handles give: a letter and a
number. Different numbers give different names, so that a handle is found under its name. No name is
defined twice in a file iff the labels are different names, and the values are. That is the case in
every file from which a graph is read (`graph_eq_ok_iff`).

## Names that change

Normal forms are taken segment by segment with tables that look at the low sixteen bits of a
character only, so that taking a normal form twice can give something else than taking it once.
`normalName_not_idempotent` has a name of three characters.
-/

namespace Flowgraph

namespace Text

theorem trim_eq (s : String) :
    trim s = String.ofList ((s.toList.dropWhile isBlank).rdropWhile isBlank) := rfl

theorem trim_trim (s : String) : trim (trim s) = trim s := by
  rw [trim_eq (trim s), trim_eq s, String.toList_ofList]
  refine congrArg String.ofList ?_
  have hfront : ((s.toList.dropWhile isBlank).rdropWhile isBlank).dropWhile isBlank
      = (s.toList.dropWhile isBlank).rdropWhile isBlank := by
    rw [List.dropWhile_eq_self_iff]
    intro hpos
    obtain ⟨cut, hcut⟩ := List.rdropWhile_prefix isBlank (l := s.toList.dropWhile isBlank)
    have hsame := (List.dropWhile_eq_self_iff (p := isBlank)).mp
      (List.dropWhile_idempotent (p := isBlank) (l := s.toList))
    have hlen : 0 < (s.toList.dropWhile isBlank).length := by
      rw [← hcut, List.length_append]
      exact Nat.add_pos_left hpos _
    have hhead : ((s.toList.dropWhile isBlank).rdropWhile isBlank)[0]
        = (s.toList.dropWhile isBlank)[0] := by
      rw [List.getElem_of_eq hcut.symm hlen, List.getElem_append_left hpos]
    rw [hhead]
    exact hsame hlen
  rw [hfront, List.rdropWhile_idempotent]

private theorem trim_of_forall {s : String} (h : ∀ c ∈ s.toList, isBlank c = false) :
    trim s = s := by
  have hfront : s.toList.dropWhile isBlank = s.toList := by
    rw [List.dropWhile_eq_self_iff]
    intro hpos
    simp [h _ (List.getElem_mem hpos)]
  have hback : s.toList.rdropWhile isBlank = s.toList := by
    rw [List.rdropWhile_eq_self_iff]
    intro hne
    simp [h _ (List.getLast_mem hne)]
  rw [trim_eq, hfront, hback, String.ofList_toList]

private theorem normal_of_forall {s : String} (h : ∀ c ∈ s.toList, c.toNat < 0x300) :
    normal s = s := by
  rw [normal, if_pos (by simpa using h)]

end Text

/-- The bytes of a byte string. -/
theorem toList_eq_data (b : ByteArray) : b.toList = b.data.toList := by
  have hloop : ∀ (i : Nat) (r : List UInt8),
      ByteArray.toList.loop b i r = r.reverse ++ b.data.toList.drop i := by
    intro i r
    induction i, r using ByteArray.toList.loop.induct b with
    | case1 i r hlt ih =>
      have hlt' : i < b.data.toList.length := hlt
      have hget : b.get! i = b.data.toList[i] := by
        rw [ByteArray.get!, getElem!_pos b.data i hlt]
        rfl
      rw [ByteArray.toList.loop, if_pos hlt, ih, List.drop_eq_getElem_cons hlt', hget]
      simp
    | case2 i r hle =>
      have hle' : b.data.toList.length ≤ i := Nat.not_lt.mp hle
      rw [ByteArray.toList.loop, if_neg hle, List.drop_eq_nil_of_le hle', List.append_nil]
  rw [ByteArray.toList, hloop]
  rfl

namespace Textual

def textOf (b : ByteArray) : String := (String.fromUTF8? b).getD ""

@[simp] theorem textOf_toUTF8 (s : String) : textOf s.toUTF8 = s := by
  simp only [textOf, String.fromUTF8?, String.toUTF8_eq_toByteArray, dif_pos s.isValidUTF8]
  rfl

private theorem normalName_of_forall {s : String}
    (h : ∀ c ∈ s.toList, Text.isBlank c = false ∧ c.toNat < 0x300) : normalName s = s := by
  rw [normalName, Text.trim_of_forall fun c hc ↦ (h c hc).1,
    Text.normal_of_forall fun c hc ↦ (h c hc).2]

/-- The normal form of a normal form can be another one. -/
theorem normalName_not_idempotent :
    ∃ s, normalName (normalName s) ≠ normalName s :=
  ⟨String.ofList [Char.ofNat 0x100C4, Char.ofNat 0x323, Char.ofNat 0x304], by decide +kernel⟩

/-! ## Names of handles

A letter and a number are below the combining marks and have no white space, so nothing in them
changes. Different numbers have different digits. -/

/-- The name that a position gives. -/
def numbered (letter : String) (n : Nat) : String := letter ++ toString n

theorem text_op {i : OpIndex} (h : i < noHandle) : i.text = numbered "v" i := by
  rw [OpIndex.text, if_neg (Nat.ne_of_lt h)]
  rfl

theorem text_block {b : BlockIndex} (h : b < noHandle) : b.text = numbered "b" b := by
  rw [BlockIndex.text, if_neg (Nat.ne_of_lt h)]
  rfl

theorem toList_numbered (letter : String) (n : Nat) :
    (numbered letter n).toList = letter.toList ++ Nat.toDigits 10 n := by
  rw [numbered, String.toList_append]
  congr 1
  exact Nat.toList_repr

theorem numbered_inj {letter : String} {m n : Nat} (h : numbered letter m = numbered letter n) :
    m = n := by
  have hdigits := congrArg String.toList h
  rw [toList_numbered, toList_numbered, List.append_cancel_left_eq] at hdigits
  rw [← Nat.ofDigitChars_ten_toDigits (n := m), hdigits, Nat.ofDigitChars_ten_toDigits]

theorem numbered_ne_empty {letter : String} (hl : letter ≠ "") (n : Nat) :
    (numbered letter n).isEmpty = false := by
  rw [← Bool.not_eq_true, String.isEmpty_iff, ← String.toList_inj, toList_numbered]
  simp [hl]

private theorem digit_plain {c : Char} (h : c.isDigit = true) :
    Text.isBlank c = false ∧ c.toNat < 0x300 := by
  have hrange : 48 ≤ c.toNat ∧ c.toNat ≤ 57 := by
    rw [Char.isDigit, Bool.and_eq_true, decide_eq_true_eq, decide_eq_true_eq] at h
    exact ⟨UInt32.le_iff_toNat_le.mp h.1, UInt32.le_iff_toNat_le.mp h.2⟩
  refine ⟨?_, by omega⟩
  simp only [Text.isBlank, Bool.or_eq_false_iff, Bool.and_eq_false_iff, decide_eq_false_iff_not]
  omega

/-- A letter with a number is a name in normal form. -/
theorem normalName_numbered {letter : String}
    (hl : ∀ c ∈ letter.toList, Text.isBlank c = false ∧ c.toNat < 0x300) (n : Nat) :
    normalName (numbered letter n) = numbered letter n := by
  refine normalName_of_forall fun c hc ↦ ?_
  rw [toList_numbered, List.mem_append] at hc
  rcases hc with hc | hc
  · exact hl c hc
  · exact digit_plain (Nat.isDigit_of_mem_toDigits (by decide) (by decide) hc)

theorem letter_plain {a : Char} (h : Text.isBlank a = false ∧ a.toNat < 0x300) :
    ∀ c ∈ (String.ofList [a]).toList, Text.isBlank c = false ∧ c.toNat < 0x300 := by
  rwa [String.toList_ofList, List.forall_mem_singleton]

theorem normalName_value (n : Nat) : normalName (numbered "v" n) = numbered "v" n :=
  normalName_numbered (letter_plain (a := 'v') (by decide)) n

theorem normalName_label (n : Nat) : normalName (numbered "b" n) = numbered "b" n :=
  normalName_numbered (letter_plain (a := 'b') (by decide)) n

/-- A numbered name is found at its number. -/
theorem idxOf?_numbered {letter : String} {k n : Nat} (h : k < n) :
    ((List.range n).map (numbered letter)).idxOf? (numbered letter k) = some k := by
  rw [List.idxOf?_eq_some_iff]
  refine ⟨by simpa using h, by simp, fun j hj heq ↦ ?_⟩
  rw [List.getElem_map, List.getElem_range] at heq
  exact Nat.ne_of_lt hj (numbered_inj heq)

theorem nodup_numbered (letter : String) (n : Nat) :
    ((List.range n).map (numbered letter)).Nodup :=
  List.nodup_range.map fun _ _ h ↦ numbered_inj h

/-! ## Names that are defined twice

A name of a later block counts as defined twice if an earlier block has it, and within a block the
order counts in the same way. Taken together this is a single list of names without repetitions. -/

private theorem again_eq_nil_iff {names seen : List String} (hseen : seen.Nodup) :
    (names.zipIdx.filter fun (v, k) ↦ seen.contains v || (names.take k).contains v) = [] ↔
      (names ++ seen).Nodup := by
  rw [List.filter_eq_nil_iff, List.nodup_append]
  constructor
  · intro h
    have hnew : ∀ (k : Nat) (hk : k < names.length),
        names[k] ∉ seen ∧ names[k] ∉ names.take k := fun k hk ↦ by
      have := h (names[k], k) (List.mk_mem_zipIdx_iff_getElem?.mpr (List.getElem?_eq_getElem hk))
      simpa [not_or] using this
    refine ⟨List.pairwise_iff_getElem.mpr fun i j hi hj hij heq ↦ ?_, hseen, fun a ha c hc heq ↦ ?_⟩
    · exact (hnew j hj).2 (List.mem_take_iff_getElem.mpr ⟨i, by omega, heq⟩)
    · obtain ⟨k, hk, rfl⟩ := List.mem_iff_getElem.mp ha
      exact (hnew k hk).1 (heq ▸ hc)
  · rintro ⟨hnames, -, hdisjoint⟩ ⟨v, k⟩ hmem
    obtain ⟨hk, rfl⟩ := List.getElem?_eq_some_iff.mp (List.mk_mem_zipIdx_iff_getElem?.mp hmem)
    rw [Bool.or_eq_true, List.contains_iff_mem, List.contains_iff_mem, not_or]
    refine ⟨fun hold ↦ hdisjoint _ (List.getElem_mem hk) _ hold rfl, fun htake ↦ ?_⟩
    obtain ⟨j, hj, heq⟩ := List.mem_take_iff_getElem.mp htake
    have hjk : j = k := hnames.getElem_inj_iff.mp heq
    omega

/-- The labels of some blocks, of which the first has number `b`. -/
def labelsFrom (b : Nat) (l : List BlockEntry) : List String :=
  (l.zipIdx b).map fun (e, i) ↦ nameOr e.label "b" i

/-- The names of some values, of which the first has number `n`. -/
def valuesFrom (n : Nat) (l : List OpEntry) : List String :=
  (l.zipIdx n).map fun (op, k) ↦ nameOr op.value "v" k

private theorem labelsFrom_cons (b : Nat) (e : BlockEntry) (l : List BlockEntry) :
    labelsFrom b (e :: l) = nameOr e.label "b" b :: labelsFrom (b + 1) l := rfl

private theorem valuesFrom_append (n : Nat) (l l' : List OpEntry) :
    valuesFrom n (l ++ l') = valuesFrom n l ++ valuesFrom (n + l.length) l' := by
  rw [valuesFrom, List.zipIdx_append, List.map_append]
  rfl

private theorem length_valuesFrom (n : Nat) (l : List OpEntry) :
    (valuesFrom n l).length = l.length := by
  rw [valuesFrom, List.length_map, List.length_zipIdx]

private theorem valuesFrom_eq_map (n : Nat) (l : List OpEntry) :
    (l.zipIdx.map fun (op, k) ↦ nameOr op.value "v" (n + k)) = valuesFrom n l := by
  rw [valuesFrom, List.zipIdx_eq_map_add (i := n), List.map_map]
  exact List.map_congr_left fun ⟨_, _⟩ _ ↦ by simp only [Function.comp_apply]

private theorem duplicates_eq_nil_iff : ∀ {l : List BlockEntry} {b : Nat}
    {labels seen : List String},
    labels.Nodup → seen.Nodup → (duplicates (l.zipIdx b) labels seen = [] ↔
      (labelsFrom b l ++ labels).Nodup ∧
        (valuesFrom seen.length (l.flatMap BlockEntry.ops) ++ seen).Nodup)
  | [], _, labels, seen, hlabels, hseen => by
    simp [duplicates, labelsFrom, valuesFrom, hlabels, hseen]
  | e :: l, b, labels, seen, hlabels, hseen => by
    rw [List.zipIdx_cons, duplicates]
    dsimp only
    rw [valuesFrom_eq_map, List.append_eq_nil_iff, List.append_eq_nil_iff, List.map_eq_nil_iff,
      again_eq_nil_iff hseen, List.flatMap_cons, valuesFrom_append, labelsFrom_cons]
    have hlen : seen.length + e.ops.length = (valuesFrom seen.length e.ops ++ seen).length := by
      rw [List.length_append, length_valuesFrom, Nat.add_comm]
    rw [hlen]
    generalize nameOr e.label "b" b = label
    generalize valuesFrom seen.length e.ops = values
    have hlabel : (if labels.contains label then [Fault.duplicateLabel b label] else []) = [] ↔
        (label :: labels).Nodup := by
      simp [hlabels]
    -- the names of this block stand in front of the later ones, and are in scope for them
    have hmiddle : ∀ later : List String,
        (label :: later ++ labels).Nodup ↔ (later ++ label :: labels).Nodup :=
      fun later ↦ List.perm_middle.nodup_iff.symm
    have hlast : ∀ later : List String,
        (values ++ later ++ seen).Nodup ↔ (later ++ (values ++ seen)).Nodup := fun later ↦ by
      rw [← List.append_assoc]
      exact (List.perm_append_comm.append_right seen).nodup_iff
    rw [hlabel, hmiddle, hlast]
    constructor
    · rintro ⟨⟨hl, hs⟩, hrest⟩
      exact (duplicates_eq_nil_iff hl hs).mp hrest
    · intro h
      have hl := h.1.of_append_right
      have hs := h.2.of_append_right
      exact ⟨⟨hl, hs⟩, (duplicates_eq_nil_iff hl hs).mpr h⟩

theorem duplicates_blocks_eq_nil_iff {e : GraphEntry} :
    duplicates e.blocks.zipIdx [] [] = [] ↔ e.labels.Nodup ∧ e.values.Nodup := by
  rw [duplicates_eq_nil_iff List.nodup_nil List.nodup_nil, List.append_nil, List.append_nil]
  rfl

/-! ## Kinds that are not known -/

theorem unknownKinds_eq_nil_iff {l : List BlockEntry} : (l.zipIdx.filterMap fun (b, i) ↦
      if (kindOf? b.kind).isNone then some (Fault.unknownKind i b.kind) else none) = [] ↔
    ∀ b ∈ l, ∃ k, kindOf? b.kind = some k := by
  rw [List.filterMap_eq_nil_iff]
  constructor
  · intro h b hb
    obtain ⟨i, hi⟩ := List.mem_iff_getElem?.mp hb
    have hknown := h (b, i) (List.mk_mem_zipIdx_iff_getElem?.mpr hi)
    simpa [Option.isSome_iff_exists, ← Option.isSome_iff_ne_none] using hknown
  · rintro h ⟨b, i⟩ hmem
    obtain ⟨k, hk⟩ := h b (List.fst_mem_of_mem_zipIdx hmem)
    simp [hk]

/-! ## What is read

The conditions on names and kinds are checked before anything is built. So they can be taken out in
front: what is left is the filling of the blocks. -/

/-- A graph is read from an entry exactly if there are blocks, with no name taken twice and no kind
that is not known, and the blocks can be added and filled. -/
theorem graph_eq_ok_iff {e : GraphEntry} {g : Graph} : e.graph = .ok g ↔
    e.blocks ≠ [] ∧ (e.labels.Nodup ∧ e.values.Nodup) ∧
      (∀ b ∈ e.blocks, ∃ k, kindOf? b.kind = some k) ∧
      ∃ g₀, e.blocks.foldlM
          (fun g b ↦ Graph.addBlock g ((kindOf? b.kind).getD .entry) b.deferred)
          (Graph.empty (normalName e.name).toUTF8) = .ok g₀ ∧
        fillBlocks ⟨e.labels, e.values⟩ e.blocks.zipIdx g₀ [] = .ok g := by
  rw [GraphEntry.graph, ← duplicates_blocks_eq_nil_iff, ← unknownKinds_eq_nil_iff]
  constructor
  · intro h
    have hne : e.blocks ≠ [] := by
      intro hnil
      rw [hnil] at h
      cases h
    rw [if_neg (by simpa using hne)] at h
    dsimp only at h
    split at h
    · rename_i hfaults
      obtain ⟨hdup, hkinds⟩ := List.append_eq_nil_iff.mp hfaults
      obtain ⟨g₀, hadd, hfill⟩ := exists_of_bind_ok h
      exact ⟨hne, hdup, hkinds, g₀, mapError_eq_ok hadd, hfill⟩
    · cases h
  · rintro ⟨hne, hdup, hkinds, g₀, hadd, hfill⟩
    rw [if_neg (by simpa using hne)]
    simp only [hdup, hkinds, hadd]
    exact hfill

end Textual

end Flowgraph
