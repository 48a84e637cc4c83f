import Flowgraph.MessagePack.Decode
import Flowgraph.MessagePack.Encode
import Flowgraph.MessagePack.Slots
import Flowgraph.Proofs.GraphFile.Names
import Mathlib.Tactic.Ring

/-!
# MessagePack values that come back

A text, a byte string or a list is written after its length, which has four bytes at most, and a
number of fixed width in exactly that width. A value made up of these is read back as it was
written, whatever follows it: `decodeWithin_encode`. Of the numbers in their shortest form only
those of one byte are among them; the others come back as numbers of another width.

## Records

A record is a map from names to values. When the names are those of the fields in order, reading the
map is reading the list of its values.
-/

namespace Flowgraph.MessagePack

/-! ## Numbers

A number of fixed width is written as its bytes, highest first, and so many bytes are read back as
the number. -/

private theorem foldl_bigEndian (n : Nat) : ∀ k acc : Nat,
    (bigEndian k n).foldl (fun acc b ↦ acc * 256 + b.toNat) acc = acc * 256 ^ k + n % 256 ^ k
  | 0, acc => by simp [bigEndian, Nat.mod_one]
  | k + 1, acc => by
    have hbyte : (n >>> (8 * k)).toUInt8.toNat = n / 256 ^ k % 256 := by
      rw [Nat.shiftRight_eq_div_pow, Nat.pow_mul]
      exact UInt8.toNat_ofNat'
    rw [bigEndian, List.foldl_cons, foldl_bigEndian n k, hbyte, Nat.pow_succ, Nat.mod_mul]
    ring

private theorem length_bigEndian (n : Nat) : ∀ k : Nat, (bigEndian k n).length = k
  | 0 => rfl
  | k + 1 => by rw [bigEndian, List.length_cons, length_bigEndian n k]

theorem takeBytes_append (front rest : List UInt8) :
    takeBytes front.length (front ++ rest) = some (front, rest) := by
  simp [takeBytes, List.splitAt_eq]

theorem takeNat_bigEndian {k n : Nat} (h : n < 256 ^ k) (rest : List UInt8) :
    takeNat k (bigEndian k n ++ rest) = some (n, rest) := by
  have htake := takeBytes_append (bigEndian k n) rest
  rw [length_bigEndian] at htake
  rw [takeNat, htake]
  simp [foldl_bigEndian, Nat.mod_eq_of_lt h]

theorem withLength_bigEndian {α : Type} {k n : Nat} (h : n < 256 ^ k) (body : Nat → Reader α)
    (rest : List UInt8) : withLength k body (bigEndian k n ++ rest) = body n rest := by
  rw [withLength, takeNat_bigEndian h]
  rfl

private theorem takeBlob_append (f : ByteArray → Value) (b : ByteArray) (rest : List UInt8) :
    takeBlob b.size f (b.toList ++ rest) = some (f b, rest) := by
  have htake := takeBytes_append b.data.toList rest
  rw [takeBlob, toList_eq_data]
  have hsize : b.data.toList.length = b.size := by simp
  rw [hsize] at htake
  rw [htake]
  rfl

/-! ## Values

By induction on the value. The reader has a bound on its depth, for which the number of bytes is
always enough. -/

/-- A value without long numbers in shortest form, all of whose lengths fit four bytes. -/
inductive Plain : Value → Prop
  | nil : Plain .nil
  | bool (b : Bool) : Plain (.bool b)
  | int {n : Nat} (short : n < 0x80) : Plain (.int n)
  | word8 (n : UInt8) : Plain (.word8 n)
  | word16 (n : UInt16) : Plain (.word16 n)
  | word32 (n : UInt32) : Plain (.word32 n)
  | str {b : ByteArray} (size : b.size < 2 ^ 32) : Plain (.str b)
  | bin {b : ByteArray} (size : b.size < 2 ^ 32) : Plain (.bin b)
  | array {items : List Value} (length : items.length < 2 ^ 32)
      (plain : ∀ v ∈ items, Plain v) : Plain (.array items)
  | map {entries : List (Value × Value)} (length : entries.length < 2 ^ 32)
      (keys : ∀ e ∈ entries, Plain e.1) (values : ∀ e ∈ entries, Plain e.2) : Plain (.map entries)

section Heads

variable {depth n : Nat} (rest : List UInt8)

theorem toNat_head (base : Nat) {bound : Nat} (hn : n < bound) (hbase : base + bound ≤ 256) :
    (base + n).toUInt8.toNat = base + n := by
  rw [Nat.toUInt8, UInt8.toNat_ofNat', Nat.mod_eq_of_lt (by omega)]

private theorem decodeWithin_strHead (hn : n < 2 ^ 32) :
    decodeWithin (depth + 1) (strHead n ++ rest) = takeBlob n .str rest := by
  let body (n : Nat) : Reader Value := takeBlob n .str
  rw [strHead]
  split
  · rename_i hlow
    have hhead := toNat_head 0xA0 hlow (by decide)
    rw [List.singleton_append, decodeWithin]
    simp only [hhead]
    rw [if_neg (by omega), if_neg (by omega), if_neg (by omega), if_pos (by omega),
      Nat.add_sub_cancel_left]
  · split
    · exact withLength_bigEndian (k := 1) (by omega) body rest
    · split
      · exact withLength_bigEndian (k := 2) (by omega) body rest
      · exact withLength_bigEndian (k := 4) (by omega) body rest

private theorem decodeWithin_binHead (hn : n < 2 ^ 32) :
    decodeWithin (depth + 1) (binHead n ++ rest) = takeBlob n .bin rest := by
  let body (n : Nat) : Reader Value := takeBlob n .bin
  rw [binHead]
  split
  · exact withLength_bigEndian (k := 1) (by omega) body rest
  · split
    · exact withLength_bigEndian (k := 2) (by omega) body rest
    · exact withLength_bigEndian (k := 4) (by omega) body rest

private theorem decodeWithin_arrayHead (hn : n < 2 ^ 32) :
    decodeWithin (depth + 1) (arrayHead n ++ rest)
      = (takeMany (decodeWithin depth) n rest >>= fun r ↦ some (.array r.1, r.2)) := by
  let body (n : Nat) : Reader Value := fun bytes ↦
    takeMany (decodeWithin depth) n bytes >>= fun r ↦ some (.array r.1, r.2)
  rw [arrayHead]
  split
  · rename_i hlow
    have hhead := toNat_head 0x90 hlow (by decide)
    rw [List.singleton_append, decodeWithin]
    simp only [hhead]
    rw [if_neg (by omega), if_neg (by omega), if_pos (by omega), Nat.add_sub_cancel_left]
    rfl
  · split
    · exact withLength_bigEndian (k := 2) (by omega) body rest
    · exact withLength_bigEndian (k := 4) (by omega) body rest

private theorem length_arrayHead_pos (n : Nat) : 0 < (arrayHead n).length := by
  rw [arrayHead]
  split_ifs <;> simp

private theorem length_mapHead_pos (n : Nat) : 0 < (mapHead n).length := by
  rw [mapHead]
  split_ifs <;> simp

private theorem decodeWithin_mapHead (hn : n < 2 ^ 32) :
    decodeWithin (depth + 1) (mapHead n ++ rest)
      = (takeMany (takePair (decodeWithin depth)) n rest >>= fun r ↦ some (.map r.1, r.2)) := by
  let body (n : Nat) : Reader Value := fun bytes ↦
    takeMany (takePair (decodeWithin depth)) n bytes >>= fun r ↦ some (.map r.1, r.2)
  rw [mapHead]
  split
  · rename_i hlow
    have hhead := toNat_head 0x80 hlow (by decide)
    rw [List.singleton_append, decodeWithin]
    simp only [hhead]
    rw [if_neg (by omega), if_pos (by omega), Nat.add_sub_cancel_left]
    rfl
  · split
    · exact withLength_bigEndian (k := 2) (by omega) body rest
    · exact withLength_bigEndian (k := 4) (by omega) body rest

end Heads

private theorem takeNat_bind {k n : Nat} (h : n < 256 ^ k) (f : Nat → Value) (rest : List UInt8) :
    (takeNat k (bigEndian k n ++ rest) >>= fun r ↦ some (f r.1, r.2)) = some (f n, rest) := by
  rw [takeNat_bigEndian h]
  rfl

private theorem takeMany_append {α : Type} {r : Reader α} {f : α → List UInt8} :
    ∀ {l : List α}, (∀ a ∈ l, ∀ rest, r (f a ++ rest) = some (a, rest)) →
      ∀ rest, takeMany r l.length (l.flatMap f ++ rest) = some (l, rest)
  | [], _, rest => rfl
  | a :: l, h, rest => by
    rw [List.forall_mem_cons] at h
    rw [List.length_cons, List.flatMap_cons, List.append_assoc, takeMany, h.1]
    change (takeMany r l.length (l.flatMap f ++ rest) >>= _) = _
    rw [takeMany_append h.2]
    rfl

private theorem takePair_append {α : Type} {item : Reader α} {front back : List UInt8} {a b : α}
    (hfront : ∀ rest, item (front ++ rest) = some (a, rest))
    (hback : ∀ rest, item (back ++ rest) = some (b, rest)) (rest : List UInt8) :
    takePair item (front ++ back ++ rest) = some ((a, b), rest) := by
  rw [List.append_assoc, takePair, hfront]
  change (item (back ++ rest) >>= _) = _
  rw [hback]
  rfl

private theorem encodeItems_eq : ∀ items : List Value, encodeItems items = items.flatMap encode
  | [] => rfl
  | v :: items => by rw [encodeItems, List.flatMap_cons, encodeItems_eq items]

private theorem encodeEntries_eq : ∀ entries : List (Value × Value),
    encodeEntries entries = entries.flatMap fun e ↦ encode e.1 ++ encode e.2
  | [] => rfl
  | (k, v) :: entries => by rw [encodeEntries, List.flatMap_cons, encodeEntries_eq entries]

private theorem length_le_of_mem_flatMap {β : Type} {f : β → List UInt8} {l : List β} {b : β}
    (h : b ∈ l) : (f b).length ≤ (l.flatMap f).length := by
  obtain ⟨l₁, l₂, rfl⟩ := List.append_of_mem h
  simp only [List.flatMap_append, List.flatMap_cons, List.length_append]
  omega

/-- A plain value is read back. The depth is only there to end the recursion: there is enough of it
as soon as it exceeds the number of bytes. -/
private theorem decodeWithin_encode {v : Value} (h : Plain v) {d : Nat} (hd : (encode v).length ≤ d)
    (rest : List UInt8) : decodeWithin (d + 1) (encode v ++ rest) = some (v, rest) := by
  induction h generalizing d rest with
  | nil => rfl
  | bool b => cases b <;> rfl
  | @int n short =>
    have hcode := toNat_head 0 short (by decide)
    rw [Nat.zero_add] at hcode
    rw [encode, encodeInt, if_pos (Int.natCast_nonneg n), Int.toNat_natCast, encodeNat,
      if_pos short, List.singleton_append, decodeWithin]
    simp only [hcode]
    rw [if_pos short]
  | word8 n =>
    have hread := takeNat_bind (k := 1) n.toNat_lt (fun k ↦ .word8 k.toUInt8) rest
    have hbytes : bigEndian 1 n.toNat = [n] := by simp [bigEndian]
    rw [hbytes, Nat.toUInt8, UInt8.ofNat_toNat] at hread
    exact hread
  | word16 n =>
    have hread := takeNat_bind (k := 2) n.toNat_lt (fun k ↦ .word16 k.toUInt16) rest
    rw [Nat.toUInt16, UInt16.ofNat_toNat] at hread
    exact hread
  | word32 n =>
    have hread := takeNat_bind (k := 4) n.toNat_lt (fun k ↦ .word32 k.toUInt32) rest
    rw [Nat.toUInt32, UInt32.ofNat_toNat] at hread
    exact hread
  | @str b size =>
    rw [encode, List.append_assoc, decodeWithin_strHead _ size, takeBlob_append]
  | @bin b size =>
    rw [encode, List.append_assoc, decodeWithin_binHead _ size, takeBlob_append]
  | @array items length plain ih =>
    have hhead := length_arrayHead_pos items.length
    rw [encode, encodeItems_eq, List.length_append] at hd
    -- the head takes a byte, so that there is depth left for the items
    obtain ⟨d, rfl⟩ : ∃ e, d = e + 1 := Nat.exists_eq_succ_of_ne_zero (by omega)
    have hitems := takeMany_append (r := decodeWithin (d + 1)) (f := encode) (l := items)
      fun v hv ↦ by
        have hle := length_le_of_mem_flatMap (f := encode) hv
        exact ih v hv (by omega)
    rw [encode, encodeItems_eq, List.append_assoc, decodeWithin_arrayHead _ length, hitems]
    rfl
  | @map entries length keys values ihk ihv =>
    have hhead := length_mapHead_pos entries.length
    rw [encode, encodeEntries_eq, List.length_append] at hd
    obtain ⟨d, rfl⟩ : ∃ e, d = e + 1 := Nat.exists_eq_succ_of_ne_zero (by omega)
    have hentries := takeMany_append (r := takePair (decodeWithin (d + 1)))
      (f := fun e ↦ encode e.1 ++ encode e.2) (l := entries) fun e he ↦ by
        have hle := length_le_of_mem_flatMap (f := fun e ↦ encode e.1 ++ encode e.2) he
        rw [List.length_append] at hle
        exact takePair_append (ihk e he (by omega)) (ihv e he (by omega))
    rw [encode, encodeEntries_eq, List.append_assoc, decodeWithin_mapHead _ length, hentries]
    rfl

/-- A plain value is read back from its bytes. -/
theorem ofBytes?_toBytes {v : Value} (h : Plain v) : ofBytes? (toBytes v) = some v := by
  have hread := decodeWithin_encode h (Nat.le_refl _) []
  rw [List.append_nil] at hread
  rw [ofBytes?, toBytes, toList_eq_data, decode?]
  simp only [hread, Option.map_some]

/-! ## Records -/

section Records

variable {α : Type}

private theorem bytes_beq_iff {a b : ByteArray} : (a == b) = true ↔ a = b := by
  rcases a with ⟨a⟩
  rcases b with ⟨b⟩
  change (a == b) = true ↔ _
  simp

private theorem toUTF8_beq_iff {s t : String} : (s.toUTF8 == t.toUTF8) = true ↔ s = t := by
  rw [bytes_beq_iff, String.toUTF8_eq_toByteArray, String.toUTF8_eq_toByteArray,
    String.toByteArray_inj]

/-- Sets the field that an entry names, if there is one. -/
def setField (fields : List (String × (Value → α → Option α))) (r : α) (e : Value × Value) :
    Option α := do
  match fields.find? (·.1.toUTF8 == (← e.1.toText?)) with
  | some field => field.2 e.2 r
  | none => some r

private theorem setField_text {fields : List (String × (Value → α → Option α))}
    (hnodup : (fields.map Prod.fst).Nodup) {field : String × (Value → α → Option α)}
    (hfield : field ∈ fields) (v : Value) (r : α) :
    setField fields r (.text field.1, v) = field.2 v r := by
  have hfind : fields.find? (·.1.toUTF8 == field.1.toUTF8) = some field := by
    induction fields with
    | nil => cases hfield
    | cons first fields ih =>
      rw [List.map_cons, List.nodup_cons] at hnodup
      rw [List.find?_cons]
      obtain rfl | htail := List.mem_cons.mp hfield
      · rw [toUTF8_beq_iff.mpr rfl]
      · have hne : first.1 ≠ field.1 := fun heq ↦ hnodup.1 (heq ▸ List.mem_map_of_mem htail)
        rw [Bool.eq_false_iff.mpr (toUTF8_beq_iff.not.mpr hne)]
        exact ih hnodup.2 htail
  change (match fields.find? (·.1.toUTF8 == field.1.toUTF8) with
    | some field => field.2 v r
    | none => some r) = _
  rw [hfind]

/-- Reading the record of named values whose names are those of the fields in order. -/
theorem toRecord?_record {zero old : α} {fields : List (String × (Value → α → Option α))}
    (hnodup : (fields.map Prod.fst).Nodup) {values : List (String × Value)}
    (hnames : values.map Prod.fst = fields.map Prod.fst) :
    Value.toRecord? zero fields (.record values) old
      = (fields.zip values).foldlM (fun r e ↦ e.1.2 e.2.2 r) old := by
  -- by induction on the rest of the fields, while names are looked up among all of them
  have hsub : ∀ {l : List (String × (Value → α → Option α))} {vs : List (String × Value)} {r : α},
      (∀ f ∈ l, f ∈ fields) → vs.map Prod.fst = l.map Prod.fst →
      (vs.map fun e ↦ (Value.text e.1, e.2)).foldlM (setField fields) r
        = (l.zip vs).foldlM (fun r e ↦ e.1.2 e.2.2 r) r := by
    intro l
    induction l with
    | nil =>
      intro vs r _ hvs
      rw [List.map_eq_nil_iff.mp hvs]
      rfl
    | cons f l ih =>
      rintro (_ | ⟨⟨name, v⟩, vs⟩) r hl hvs
      · cases hvs
      · rw [List.map_cons, List.map_cons, List.cons.injEq] at hvs
        obtain ⟨rfl, hvs⟩ := hvs
        rw [List.forall_mem_cons] at hl
        rw [List.map_cons, List.foldlM_cons, List.zip_cons_cons, List.foldlM_cons,
          setField_text hnodup hl.1]
        congr 1
        exact funext fun r' ↦ ih hl.2 hvs
  exact hsub (fun _ h ↦ h) hnames

/-- A record of plain values is plain. -/
theorem plain_record {fields : List (String × Value)} (hlength : fields.length < 2 ^ 32)
    (hnames : ∀ f ∈ fields, f.1.utf8ByteSize < 2 ^ 32) (hvalues : ∀ f ∈ fields, Plain f.2) :
    Plain (.record fields) := by
  refine .map (by rwa [List.length_map]) ?_ ?_
  · simp only [List.forall_mem_map]
    exact fun f hf ↦ .str (hnames f hf)
  · simp only [List.forall_mem_map]
    exact hvalues

theorem plain_listOrNil {items : List Value} (hlength : items.length < 2 ^ 32)
    (hitems : ∀ v ∈ items, Plain v) : Plain (.listOrNil items) := by
  rw [Value.listOrNil]
  split
  · exact .nil
  · exact .array hlength hitems

private theorem readOnto_map {zero : α} {read : Value → α → Option α} {f : α → Value} :
    ∀ {l : List α}, (∀ a ∈ l, read (f a) zero = some a) →
      Slots.readOnto zero read (l.map f) [] = some (l, [])
  | [], _ => rfl
  | a :: l, h => by
    rw [List.forall_mem_cons] at h
    rw [List.map_cons, Slots.readOnto, List.headD_nil, h.1, List.tail_nil]
    change (Slots.readOnto zero read (l.map f) [] >>= _) = _
    rw [readOnto_map h.2]
    rfl

theorem ofValue?_array {zero : α} {read : Value → α → Option α} {f : α → Value} {l : List α}
    (h : ∀ a ∈ l, read (f a) zero = some a) :
    Slots.ofValue? zero read (.array (l.map f)) .empty = some (some (.ofList l)) := by
  have hread := readOnto_map h
  change (Slots.readOnto zero read (l.map f) [] >>= fun r ↦ some (some (Slots.mk r.1 r.2))) = _
  rw [hread]
  rfl

end Records

end Flowgraph.MessagePack
