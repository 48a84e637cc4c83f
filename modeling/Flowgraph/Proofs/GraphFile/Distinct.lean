import Flowgraph.GraphFile.Format
import Flowgraph.Proofs.Graph.Sound
import Flowgraph.Proofs.GraphFile.Names

/-!
# The two forms of graph files are told apart by their bytes

A textual file starts with an ASCII character or a byte order mark: the first character that is no
white space and no comment has to open a header or a key. To a reader of the binary form such a
first byte is a number, and a number is not a record. So no bytes are a graph in both forms.
-/

namespace Flowgraph

namespace Text

private theorem le_toNat_of_charFrom? {least n : Nat} {c : Char} (h : charFrom? least n = some c) :
    least ≤ c.toNat := by
  rw [charFrom?] at h
  split at h
  · rename_i hn
    cases h
    have hvalue : (Char.ofNat n).toNat = n := by
      rw [Char.ofNat, dif_pos hn.2]
      exact UInt32.toNat_ofNatLT
    rw [hvalue]
    exact hn.1
  · cases h

private theorem le_toNat_of_headChar? {b : UInt8} {rest : List UInt8} {c : Char} {n : Nat}
    (h : headChar? (b :: rest) = some (c, n)) (hb : 0x80 ≤ b.toNat) : 0x80 ≤ c.toNat := by
  have hlong : ∀ {least k m : Nat}, 0x80 ≤ least →
      (do return (← charFrom? least k, m) : Option (Char × Nat)) = some (c, n) →
        0x80 ≤ c.toNat := by
    intro least k m hleast hread
    obtain ⟨d, hd, hread⟩ := Option.bind_eq_some_iff.mp hread
    cases hread
    exact Nat.le_trans hleast (le_toNat_of_charFrom? hd)
  unfold headChar? at h
  dsimp only at h
  rw [if_neg (Nat.not_lt.mpr hb)] at h
  split_ifs at h
  · split at h
    · obtain ⟨x, -, h⟩ := Option.bind_eq_some_iff.mp h
      exact hlong (by decide) h
    · cases h
  · split at h
    · obtain ⟨x, -, h⟩ := Option.bind_eq_some_iff.mp h
      obtain ⟨y, -, h⟩ := Option.bind_eq_some_iff.mp h
      exact hlong (by decide) h
    · cases h
  · split at h
    · obtain ⟨x, -, h⟩ := Option.bind_eq_some_iff.mp h
      obtain ⟨y, -, h⟩ := Option.bind_eq_some_iff.mp h
      obtain ⟨z, -, h⟩ := Option.bind_eq_some_iff.mp h
      exact hlong (by decide) h
    · cases h

end Text

namespace Toml

theorem ne_of_le_toNat {c d : Char} (hc : 0x80 ≤ c.toNat) (hd : d.toNat < 0x80) : c ≠ d := by
  rintro rfl
  exact Nat.not_le.mpr hd hc

private theorem isBare_eq_false {c : Char} (hc : 0x80 ≤ c.toNat) : isBare c = false := by
  have hafter : ∀ {least greatest : UInt32}, greatest.toNat < 0x80 →
      decide (least ≤ c.val ∧ c.val ≤ greatest) = false := by
    intro least greatest hgreatest
    refine decide_eq_false fun h ↦ ?_
    exact Nat.not_le.mpr hgreatest (Nat.le_trans hc (UInt32.le_iff_toNat_le.mp h.2))
  have hletter : c.isAlphanum = false := by
    change (decide ('A'.val ≤ c.val ∧ c.val ≤ 'Z'.val)
      || (decide ('a'.val ≤ c.val) && decide (c.val ≤ 'z'.val))
      || (decide ('0'.val ≤ c.val) && decide (c.val ≤ '9'.val))) = false
    rw [← Bool.decide_and, ← Bool.decide_and, hafter (by decide), hafter (by decide),
      hafter (by decide)]
    rfl
  rw [isBare, hletter, decide_eq_false (ne_of_le_toNat hc (by decide)),
    decide_eq_false (ne_of_le_toNat hc (by decide))]
  rfl

private theorem skipSpace_cons {c : Char} (hc : 0x80 ≤ c.toNat) (cs : List Char) :
    skipSpace (c :: cs) = c :: cs := by
  have hblank : (isBlank c || isNewline c) = false := by
    simp only [isBlank, isNewline, Bool.or_eq_false_iff, decide_eq_false_iff_not]
    exact ⟨⟨ne_of_le_toNat hc (by decide), ne_of_le_toNat hc (by decide)⟩,
      ne_of_le_toNat hc (by decide), ne_of_le_toNat hc (by decide)⟩
  rw [skipSpace, hblank, if_neg (by simp), if_neg (ne_of_le_toNat hc (by decide))]

private theorem skipBlanks_cons {c : Char} (hc : 0x80 ≤ c.toNat) (cs : List Char) :
    skipBlanks (c :: cs) = c :: cs := by
  have hblank : isBlank c = false := by
    simp only [isBlank, Bool.or_eq_false_iff, decide_eq_false_iff_not]
    exact ⟨ne_of_le_toNat hc (by decide), ne_of_le_toNat hc (by decide)⟩
  rw [skipBlanks, List.dropWhile_cons, hblank]
  rfl

private theorem key_cons {c : Char} (hc : 0x80 ≤ c.toNat) (cs : List Char) :
    key (c :: cs) = none := by
  have hpart : keyPart (c :: cs) = none := by
    unfold keyPart
    split
    · rename_i heq
      exact absurd (List.cons.inj heq).1 (ne_of_le_toNat hc (by decide))
    · rename_i heq
      exact absurd (List.cons.inj heq).1 (ne_of_le_toNat hc (by decide))
    · rw [List.takeWhile_cons, isBare_eq_false hc]
      rfl
  rw [key]
  cases ((c :: cs).takeWhile (!isNewline ·)).length with
  | zero => rfl
  | succ parts =>
    rw [keyWithin, skipBlanks_cons hc, hpart]
    rfl

private theorem statements_cons {c : Char} (hc : 0x80 ≤ c.toNat) (cs : List Char) :
    statements (c :: cs) = none := by
  have hstatement : ∀ size, statement size (c :: cs) = none := by
    intro size
    unfold statement
    split
    · rename_i heq
      exact absurd (List.cons.inj heq).1 (ne_of_le_toNat hc (by decide))
    · rename_i heq
      exact absurd (List.cons.inj heq).1 (ne_of_le_toNat hc (by decide))
    · rw [key_cons hc]
      rfl
  rw [statements, statementsWithin, skipSpace_cons hc]
  dsimp only
  rw [hstatement]
  rfl

private theorem head_of_statements {bytes : ByteArray} {cs : List Char} {l : List Statement}
    (hchars : characters? bytes = some cs) (hl : statements cs = some l) {b : UInt8}
    {rest : List UInt8} (hbytes : bytes.toList = b :: rest) : b.toNat < 0x80 ∨ 0xE0 ≤ b.toNat := by
  by_contra hb
  rw [not_or, Nat.not_lt, Nat.not_le] at hb
  have hlow : ∀ {k : UInt8} {more : List UInt8}, b :: rest = k :: more → k.toNat < 0xE0 := by
    intro k more heq
    rw [← (List.cons.inj heq).1]
    exact hb.2
  rw [characters?, hbytes] at hchars
  split at hchars
  · rename_i heq
    exact absurd (hlow heq) (by decide)
  · rename_i heq
    exact absurd (hlow heq) (by decide)
  · rename_i heq
    exact absurd (hlow heq) (by decide)
  -- the byte is in the text, as it starts none of the three marks
  rw [Text.piecesAfter] at hchars
  obtain ⟨cs', hpieces, hchars⟩ := Option.bind_eq_some_iff.mp hchars
  have hsame : cs' = cs := by
    split at hchars
    · cases hchars
    · exact Option.some.inj hchars
  cases hhead : Text.headChar? (b :: rest) with
  | none =>
    rw [hhead] at hpieces
    cases hpieces
  | some read =>
    obtain ⟨c, n⟩ := read
    rw [hhead, List.mapM_cons] at hpieces
    obtain ⟨c', hc', hpieces⟩ := Option.bind_eq_some_iff.mp hpieces
    obtain ⟨more, -, hpieces⟩ := Option.bind_eq_some_iff.mp hpieces
    cases hc'
    cases hpieces
    rw [← hsame, statements_cons (Text.le_toNat_of_headChar? hhead hb.1)] at hl
    cases hl

end Toml

private theorem Textual.head_of_decode {bytes : ByteArray} {g : Graph}
    (h : Textual.decode bytes = .ok g) {b : UInt8} {rest : List UInt8}
    (hbytes : bytes.toList = b :: rest) : b.toNat < 0x80 ∨ 0xE0 ≤ b.toNat := by
  obtain ⟨entry, hentry, -⟩ := exists_of_bind_ok h
  rw [GraphEntry.ofBytes] at hentry
  split at hentry
  · cases hentry
  · rename_i d hd
    obtain ⟨cs, hcs, hd⟩ := Option.bind_eq_some_iff.mp hd
    obtain ⟨l, hl, -⟩ := Option.bind_eq_some_iff.mp hd
    exact Toml.head_of_statements hcs hl hbytes

private theorem Binary.decode_of_head {bytes : ByteArray} (h : ∀ {b : UInt8} {rest : List UInt8},
    bytes.toList = b :: rest → b.toNat < 0x80 ∨ 0xE0 ≤ b.toNat) :
    Binary.decode bytes = .error .notARecord := by
  have hread : (MessagePack.ofBytes? bytes).bind GraphRecord.ofValue? = none := by
    rw [MessagePack.ofBytes?, MessagePack.decode?]
    cases hbytes : bytes.toList with
    | nil => rfl
    | cons b rest =>
      rw [MessagePack.decodeWithin]
      rcases h hbytes with hlow | hhigh
      · simp only [if_pos hlow]
        rfl
      · have hge : ∀ k, k ≤ 0xE0 → ¬b.toNat < k := fun k hk ↦
          Nat.not_lt.mpr (Nat.le_trans hk hhigh)
        simp only [if_neg (hge 0x80 (by decide)), if_neg (hge 0x90 (by decide)),
          if_neg (hge 0xA0 (by decide)), if_neg (hge 0xC0 (by decide)), if_pos hhigh]
        rfl
  rw [Binary.decode, hread]

private theorem Textual.binary_decode {bytes : ByteArray} {g : Graph}
    (h : Textual.decode bytes = .ok g) : Binary.decode bytes = .error .notARecord :=
  Binary.decode_of_head fun hbytes ↦ head_of_decode h hbytes

/-- No bytes are a graph in both forms. -/
theorem GraphFormat.decode_inj {f f' : GraphFormat} {bytes : ByteArray} {g g' : Graph}
    (h : f.decode bytes = .ok g) (h' : f'.decode bytes = .ok g') : f = f' ∧ g = g' := by
  cases f with
  | text =>
    cases f' with
    | text => exact ⟨rfl, Except.ok.inj (h.symm.trans h')⟩
    | binary =>
      rw [GraphFormat.decode, Textual.binary_decode (mapError_eq_ok h)] at h'
      cases h'
  | binary =>
    cases f' with
    | text =>
      rw [GraphFormat.decode, Textual.binary_decode (mapError_eq_ok h')] at h
      cases h
    | binary => exact ⟨rfl, Except.ok.inj (h.symm.trans h')⟩

end Flowgraph
