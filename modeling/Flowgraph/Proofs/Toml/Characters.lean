import Flowgraph.Proofs.GraphFile.Names

/-!
# Texts of printable characters

A text of printable ASCII characters and line feeds has one byte for each character, and a reader of
TOML takes all of them as they are.
-/

namespace Flowgraph

private theorem flatMap_utf8EncodeChar : ∀ {l : List Char}, (∀ c ∈ l, c.toNat < 0x80) →
    l.flatMap String.utf8EncodeChar = l.map fun c ↦ c.val.toUInt8
  | [], _ => rfl
  | c :: l, h => by
    rw [List.forall_mem_cons] at h
    have hsize : c.utf8Size = 1 := Char.utf8Size_eq_one_iff.mpr (Nat.lt_succ_iff.mp h.1)
    rw [List.flatMap_cons, String.utf8EncodeChar_eq_singleton hsize, List.singleton_append,
      List.map_cons, flatMap_utf8EncodeChar h.2]

theorem toNat_toUInt8 {c : Char} (h : c.toNat < 0x80) : c.val.toUInt8.toNat = c.toNat :=
  Nat.mod_eq_of_lt (Nat.lt_trans h (by decide))

private theorem Text.piecesAfter_map : ∀ {l : List Char}, (∀ c ∈ l, c.toNat < 0x80) →
    piecesAfter 0 (l.map fun c ↦ c.val.toUInt8) = l.map .char
  | [], _ => rfl
  | c :: l, h => by
    rw [List.forall_mem_cons] at h
    have hhead : ∀ rest, headChar? (c.val.toUInt8 :: rest) = some (c, 0) := fun rest ↦ by
      unfold headChar?
      dsimp only
      rw [toNat_toUInt8 h.1, if_pos h.1, Char.ofNat_toNat]
    rw [List.map_cons, piecesAfter, hhead]
    simp only [piecesAfter_map h.2, List.map_cons]

private theorem Text.mapM_char {f : Piece → Option Char} (hf : ∀ c, f (.char c) = some c) :
    ∀ l : List Char, (l.map Piece.char).mapM f = some l
  | [] => rfl
  | c :: l => by
    rw [List.map_cons, List.mapM_cons, hf, mapM_char hf l]
    rfl

namespace Toml

/-- A printable ASCII character or a line feed. -/
def isPrintable (c : Char) : Bool := c = '\n' || (' ' ≤ c && c ≤ '~')

private theorem isPrintable_eq_true {c : Char} (h : isPrintable c = true) :
    c.toNat < 0x80 ∧ isControl c = false ∧ c ≠ '\r' := by
  have hcases : c = '\n' ∨ ' ' ≤ c ∧ c ≤ '~' := by simpa [isPrintable] using h
  rcases hcases with rfl | ⟨hlow, hhigh⟩
  · decide
  · have hlow' : 0x20 ≤ c.toNat := hlow
    have hhigh' : c.toNat ≤ 0x7E := hhigh
    have hne : ∀ d : Char, d.toNat < 0x20 ∨ 0x7E < d.toNat → c ≠ d := by
      rintro d hd rfl
      omega
    refine ⟨by omega, ?_, hne _ (by decide)⟩
    simp [isControl, Char.not_lt.mpr hlow, hne '\x7f' (by decide)]

private theorem returnsPaired_of_forall :
    ∀ {l : List Char}, (∀ c ∈ l, c ≠ '\r') → returnsPaired l = true
  | [], _ => rfl
  | c :: l, h => by
    rw [List.forall_mem_cons] at h
    unfold returnsPaired
    split
    · rfl
    · rename_i heq
      exact absurd (List.cons.inj heq).1 h.1
    · rename_i heq
      exact absurd (List.cons.inj heq).1 h.1
    · rename_i heq
      rw [← (List.cons.inj heq).2]
      exact returnsPaired_of_forall h.2

private theorem characters?_of_printable {s : String} (h : ∀ c ∈ s.toList, isPrintable c = true) :
    characters? s.toUTF8 = some s.toList := by
  have hascii : ∀ c ∈ s.toList, c.toNat < 0x80 := fun c hc ↦ (isPrintable_eq_true (h c hc)).1
  have hbytes : s.toUTF8.toList = s.toList.map fun c ↦ c.val.toUInt8 := by
    rw [toList_eq_data, String.toUTF8_eq_toByteArray, ← String.utf8Encode_toList, List.utf8Encode,
      List.data_toByteArray, flatMap_utf8EncodeChar hascii]
  have hmark : ∀ b ∈ s.toUTF8.toList, b.toNat < 0x80 := by
    rw [hbytes, List.forall_mem_map]
    exact fun c hc ↦ (toNat_toUInt8 (hascii c hc)).trans_lt (hascii c hc)
  have hcontrol : s.toList.any isControl = false :=
    List.any_eq_false.mpr fun c hc ↦ by simp [isPrintable_eq_true (h c hc)]
  have hreplacement : s.toList.contains '\uFFFD' = false := by
    rw [← Bool.not_eq_true, List.contains_iff_mem]
    exact fun hc ↦ absurd (hascii _ hc) (by decide)
  have hreturns := returnsPaired_of_forall fun c hc ↦ (isPrintable_eq_true (h c hc)).2.2
  rw [characters?]
  split
  case h_4 =>
    rw [hbytes, Text.piecesAfter_map hascii, Text.mapM_char fun _ ↦ rfl]
    simp only [Option.bind_eq_bind, Option.bind_some, hcontrol, hreplacement, hreturns,
      Bool.not_true, Bool.or_self, Bool.false_eq_true, if_false]
  all_goals
    rename_i hbytes
    exact absurd (hmark _ (hbytes ▸ List.mem_cons_self)) (by decide)

theorem characters?_ofList {l : List Char} (h : l.all isPrintable = true) :
    characters? (String.ofList l).toUTF8 = some l := by
  rw [characters?_of_printable, String.toList_ofList]
  rwa [String.toList_ofList, ← List.all_eq_true]

end Toml

end Flowgraph
