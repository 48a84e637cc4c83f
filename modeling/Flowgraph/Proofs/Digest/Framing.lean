import Flowgraph.Proofs.Digest.Keys

/-!
# Framed lists of byte strings

In a framed list each byte string stands after its length, and the length takes eight bytes. As
long as eight bytes are enough for every length, the bytes of the whole list say where each string
ends: the first eight give the length of the first string, so many bytes are that string, and what
is left is the rest of the list, framed. It does not matter what the strings hold, so that a string
may look like a length itself, and lists of different lengths are told apart too.

The key of a result is the digest of such a list. Where the hash does not collide, two keys agree
exactly if they were made from the same input, the same name and the same settings.
-/

namespace Flowgraph

namespace Digest

/-! ## Lengths

The eight bytes of a length are its digits to the base 256, lowest first. As long as the length has
no more digits, they give it back. -/

/-- The number that a length stands for, least significant byte first. -/
def lengthValue (bytes : List UInt8) : Nat := bytes.foldr (fun b n ↦ b.toNat + 256 * n) 0

private theorem toNat_toUInt8 (n : Nat) : n.toUInt8.toNat = n % 256 := UInt8.toNat_ofNat'

private theorem lengthValue_bytes (count n : Nat) :
    lengthValue ((List.range count).map fun i ↦ (n >>> (8 * i)).toUInt8) = n % 256 ^ count := by
  induction count generalizing n with
  | zero => rw [Nat.pow_zero, Nat.mod_one]; rfl
  | succ count ih =>
    have hshift : ∀ i, n >>> (8 * (i + 1)) = (n / 256) >>> (8 * i) := by
      intro i
      rw [Nat.mul_succ, Nat.add_comm, Nat.shiftRight_add, Nat.shiftRight_eq_div_pow n]
    have hrest := ih (n / 256)
    rw [lengthValue] at hrest
    rw [lengthValue, List.range_succ_eq_map, List.map_cons, List.map_map, List.foldr_cons]
    simp only [Function.comp_def, Nat.succ_eq_add_one, hshift, hrest, toNat_toUInt8, Nat.mul_zero,
      Nat.shiftRight_zero]
    rw [Nat.pow_succ', Nat.mod_mul]

private theorem lengthBytes_inj {m n : Nat} (hm : m < 2 ^ 64) (hn : n < 2 ^ 64)
    (h : lengthBytes m = lengthBytes n) : m = n := by
  have hvalue : m % 256 ^ 8 = n % 256 ^ 8 := by
    rw [← lengthValue_bytes, ← lengthValue_bytes]
    exact congrArg lengthValue h
  rwa [Nat.mod_eq_of_lt (by simpa using hm), Nat.mod_eq_of_lt (by simpa using hn)] at hvalue

/-! ## Lists

By induction on the list: the first eight bytes are the length of the first string, which says where
the rest begins. A string is not told from its own bytes but from what stands in front of it. -/

/-- A framed string is not the start of another one: what follows it is told from it. -/
private theorem frame_append_inj {p q rest rest' : ByteArray} (hp : p.size < 2 ^ 64)
    (hq : q.size < 2 ^ 64) (h : frame p ++ rest = frame q ++ rest') : p = q ∧ rest = rest' := by
  rw [frame, frame, ByteArray.append_assoc, ByteArray.append_assoc] at h
  obtain ⟨hlength, hbytes⟩ := (ByteArray.append_eq_append_iff_of_size_eq_left (by
    change (lengthBytes p.size).length = (lengthBytes q.size).length
    rw [lengthBytes, lengthBytes, List.length_map, List.length_map])).mp h
  have hsize : p.size = q.size :=
    lengthBytes_inj hp hq (congrArg (fun b ↦ b.data.toList) hlength)
  exact (ByteArray.append_eq_append_iff_of_size_eq_left hsize).mp hbytes

private theorem foldl_frame (parts : List ByteArray) : ∀ front : ByteArray,
    parts.foldl (fun out p ↦ out ++ frame p) front = front ++ framed parts := by
  induction parts with
  | nil => exact fun front ↦ ByteArray.append_empty.symm
  | cons p parts ih =>
    intro front
    rw [framed, List.foldl_cons, List.foldl_cons, ih, ih, ByteArray.empty_append,
      ByteArray.append_assoc]

theorem framed_cons (p : ByteArray) (parts : List ByteArray) :
    framed (p :: parts) = frame p ++ framed parts := by
  rw [framed, List.foldl_cons, foldl_frame, ByteArray.empty_append]

private theorem framed_cons_ne_nil (p : ByteArray) (parts : List ByteArray) :
    framed (p :: parts) ≠ framed [] := by
  intro h
  have hsize := congrArg ByteArray.size h
  rw [framed_cons, ByteArray.size_append, size_frame] at hsize
  change _ = 0 at hsize
  omega

private theorem eq_of_framed_eq : ∀ {parts parts' : List ByteArray},
    (∀ p ∈ parts, p.size < 2 ^ 64) → (∀ p ∈ parts', p.size < 2 ^ 64) →
      framed parts = framed parts' → parts = parts' := by
  intro parts
  induction parts with
  | nil =>
    intro parts' _ _ h
    cases parts' with
    | nil => rfl
    | cons q parts' => exact absurd h.symm (framed_cons_ne_nil q parts')
  | cons p parts ih =>
    intro parts' hparts hparts' h
    cases parts' with
    | nil => exact absurd h (framed_cons_ne_nil p parts)
    | cons q parts' =>
      rw [List.forall_mem_cons] at hparts hparts'
      rw [framed_cons, framed_cons] at h
      obtain ⟨rfl, hrest⟩ := frame_append_inj hparts.1 hparts'.1 h
      rw [ih hparts.2 hparts'.2 hrest]

/-- What is hashed for a list of byte strings of less than 2 ^ 64 bytes each determines the list.
Two keys of results agree exactly if input, name and settings do, unless the hash collides on the
inputs or on what is hashed last. -/
theorem tells_parts_apart :
    (∀ parts parts' : List ByteArray, (∀ p ∈ parts, p.size < 2 ^ 64) →
      (∀ p ∈ parts', p.size < 2 ^ 64) → (framed parts = framed parts' ↔ parts = parts')) ∧
    ∀ (input input' name name' : ByteArray) (s s' : Pipeline.Settings),
      (Sha256.hash input = Sha256.hash input' → input = input') →
      (Sha256.hash (framed [Sha256.hash input, name, fingerprint s])
          = Sha256.hash (framed [Sha256.hash input', name', fingerprint s']) →
        framed [Sha256.hash input, name, fingerprint s]
          = framed [Sha256.hash input', name', fingerprint s']) →
      (resultKey input name s = resultKey input' name' s' ↔
        input = input' ∧ name = name' ∧ s = s') := by
  refine ⟨fun parts parts' hparts hparts' ↦ ⟨eq_of_framed_eq hparts hparts', congrArg framed⟩,
    fun input input' name name' s s' hinput hlast ↦ ⟨resultKey_inj hinput hlast, ?_⟩⟩
  rintro ⟨rfl, rfl, rfl⟩
  rfl

/-- Two empty strings are told from one string that holds what stands for the length zero. Two
inputs of one byte with the same name and settings have different keys. -/
theorem tells_parts_apart_of_zeros :
    framed [.empty, .empty] ≠ framed [⟨(lengthBytes 0).toArray⟩] ∧
    resultKey "a".toUTF8 "loop".toUTF8 .default ≠ resultKey "b".toUTF8 "loop".toUTF8 .default := by
  obtain ⟨hlists, hkeys⟩ := tells_parts_apart
  have hinput : Sha256.hash "a".toUTF8 = Sha256.hash "b".toUTF8 → "a".toUTF8 = "b".toUTF8 :=
    fun h ↦ absurd h (by decide +kernel)
  have hlast : Sha256.hash (framed [Sha256.hash "a".toUTF8, "loop".toUTF8, fingerprint .default])
      = Sha256.hash (framed [Sha256.hash "b".toUTF8, "loop".toUTF8, fingerprint .default]) →
      framed [Sha256.hash "a".toUTF8, "loop".toUTF8, fingerprint .default]
        = framed [Sha256.hash "b".toUTF8, "loop".toUTF8, fingerprint .default] :=
    fun h ↦ absurd h (by decide +kernel)
  constructor
  · rw [Ne, hlists _ _ (by decide) (by decide)]
    decide
  · rw [Ne, hkeys _ _ _ _ _ _ hinput hlast]
    rintro ⟨heq, -, -⟩
    exact absurd heq (by decide)

end Digest

end Flowgraph
