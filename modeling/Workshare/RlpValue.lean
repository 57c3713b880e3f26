import Mathlib
import Workshare.Rlp
import Workshare.Outcome

/-!
# Typed values

The stream decoder of the vendored package for the types stored values are
made of: unsigned integers of at most eight bytes, big integers, booleans, and
structs as lists of their fields. A reader returns the value and the bytes
after it, and `decodeBytes` reads one value that must be the whole input. An
integer must be canonical: no leading zero byte, and zero as the empty string.

The writers are the canonical encodings (`math/big`'s `Bytes` as a string for
a big integer, and an error for a negative one), and each reader reads its
writer back whatever follows.
-/
namespace Rlp

/-- A reader of one value: the value and the bytes after it. -/
abbrev Reader (α : Type) := List UInt8 → Except Error (α × List UInt8)

/-- `decodeBigInt`: the content of a string or a single byte, with no leading zero. -/
def readBigInt : Reader ℕ := fun b =>
  (split b).bind fun (k, content, rest) =>
    if k = .list then .error .expectedString
    else if content.head? = some 0 then .error .canonInt
    else .ok (beNat content, rest)

/-- `Stream.Uint64`: a canonical integer of at most eight bytes. -/
def readUint64 : Reader UInt64 := fun b =>
  (split b).bind fun (k, content, rest) =>
    if k = .list then .error .expectedString
    else if content.length > 8 then .error .uintOverflow
    else if content.head? = some 0 then .error .canonInt
    else .ok ((beNat content).toUInt64, rest)

/-- `Stream.Bool`: a canonical integer of one byte, zero or one. -/
def readBool : Reader Bool := fun b =>
  (split b).bind fun (k, content, rest) =>
    if k = .list then .error .expectedString
    else if content.length > 1 then .error .uintOverflow
    else if content.head? = some 0 then .error .canonInt
    else if beNat content = 0 then .ok (false, rest)
    else if beNat content = 1 then .ok (true, rest)
    else .error .invalidBool

/-- One field of a struct: the list must not have ended. -/
def readField {α : Type} (r : Reader α) : Reader α := fun b =>
  if b.isEmpty then .error .tooFewElements else r b

/-- Two fields in a row. -/
def readPair {α β : Type} (r₁ : Reader α) (r₂ : Reader β) : Reader (α × β) := fun b =>
  (readField r₁ b).bind fun (x, b) => (readField r₂ b).map fun (y, b) => ((x, y), b)

/-- A struct: its fields fill the list exactly. -/
def readList {α : Type} (fields : Reader α) : Reader α := fun b =>
  (splitList b).bind fun (content, rest) =>
    (fields content).bind fun (v, left) =>
      if left.isEmpty then .ok (v, rest) else .error .tooManyElements

/-- `DecodeBytes`: one value and nothing after it. -/
def decodeBytes {α : Type} (r : Reader α) (b : List UInt8) : Except Error α :=
  (r b).bind fun (v, rest) => if rest.isEmpty then .ok v else .error .moreThanOneValue

/-- `big.Int.Bytes`: the shortest big-endian bytes, none for zero. -/
def bigBytes (n : ℕ) : List UInt8 := if n = 0 then [] else putint n

/-- `writeBigInt` of a non-negative integer. -/
def writeBigInt (n : ℕ) : List UInt8 := encodeString (bigBytes n)

/-- `writeBigInt`, which refuses a negative integer. -/
def encodeBigInt (i : ℤ) : Except Error (List UInt8) :=
  if i < 0 then .error .negativeBigInt else .ok (writeBigInt i.toNat)

/-- `writeBool`. -/
def encodeBool (b : Bool) : List UInt8 := if b then [0x01] else [0x80]

/-! ### Reading back what was written -/

theorem bigBytes_spec (n : ℕ) : beNat (bigBytes n) = n ∧ (bigBytes n).head? ≠ some 0 := by
  by_cases hn : n = 0
  · subst hn
    simp [bigBytes, beNat]
  · obtain ⟨hval, -, hhead, -⟩ := putint_spec n
    simp only [bigBytes, hn, if_false]
    exact ⟨hval, hhead hn⟩

theorem split_writeBigInt {n : ℕ} (hn : (bigBytes n).length < 2 ^ 64) (rest : List UInt8) :
    ∃ k, k ≠ .list ∧ split (writeBigInt n ++ rest) = .ok (k, bigBytes n, rest) := by
  obtain ⟨k, hk, he⟩ := item_encodeString hn
  exact ⟨k, hk, he.split rest⟩

theorem readBigInt_writeBigInt {n : ℕ} (hn : (bigBytes n).length < 2 ^ 64) (rest : List UInt8) :
    readBigInt (writeBigInt n ++ rest) = .ok (n, rest) := by
  obtain ⟨k, hk, hs⟩ := split_writeBigInt hn rest
  obtain ⟨hval, hhead⟩ := bigBytes_spec n
  simp [readBigInt, hs, hk, hhead, hval, Except.bind]

theorem length_bigBytes_le {n : ℕ} (hn : n < 2 ^ 64) : (bigBytes n).length ≤ 8 := by
  unfold bigBytes
  split
  · simp
  · exact putint_length_le hn

/-- Below `2 ^ 64` the unsigned writer and the big integer writer agree. -/
theorem encodeUint_eq_writeBigInt {n : ℕ} (hn : n < 2 ^ 64) : encodeUint n = writeBigInt n := by
  obtain ⟨hval, hne, -, -⟩ := putint_spec n
  have hlen := putint_length_le hn
  by_cases h0 : n = 0
  · subst h0
    rfl
  by_cases hsmall : n < 128
  · have hp : putint n = [n.toUInt8] := by
      simp [putint, putintAux, show n < 256 by omega]
    have hle : n.toUInt8 ≤ 0x7F := by
      rw [UInt8.le_iff_toNat_le]
      simp
      omega
    simp [encodeUint, writeBigInt, bigBytes, encodeString, h0, hsmall, hp, hle]
  · rcases hp : putint n with _ | ⟨x, _ | ⟨y, t⟩⟩
    · exact absurd hp hne
    · have hx : n = x.toNat := by simpa [hp, beNat] using hval.symm
      have hgt : ¬ x ≤ 0x7F := by
        rw [UInt8.le_iff_toNat_le]
        simp
        omega
      simp [encodeUint, writeBigInt, bigBytes, encodeString, h0, hsmall, hp, hgt, head]
    · have h56 : t.length + 1 + 1 < 56 := by
        have := congrArg List.length hp
        simp at this
        omega
      simp [encodeUint, writeBigInt, bigBytes, encodeString, h0, hsmall, hp, head, h56]

theorem readUint64_encodeUint (x : UInt64) (rest : List UInt8) :
    readUint64 (encodeUint x.toNat ++ rest) = .ok (x, rest) := by
  have hx := x.toNat_lt
  have hlen := length_bigBytes_le hx
  rw [encodeUint_eq_writeBigInt hx]
  obtain ⟨k, hk, hs⟩ := split_writeBigInt (n := x.toNat) (by omega) rest
  obtain ⟨hval, hhead⟩ := bigBytes_spec x.toNat
  have hover : ¬ (bigBytes x.toNat).length > 8 := by omega
  simp [readUint64, hs, hk, hhead, hval, hover, Except.bind]

theorem readBool_encodeBool (b : Bool) (rest : List UInt8) :
    readBool (encodeBool b ++ rest) = .ok (b, rest) := by
  cases b <;> simp [readBool, encodeBool, split, readKind, beNat, Except.bind, Except.map]

theorem readField_of_ne_nil {α : Type} (r : Reader α) {b : List UInt8} (hb : b ≠ []) :
    readField r b = r b := by
  simp [readField, List.isEmpty_iff, hb]

/-- A field was read from a list that had not ended. -/
theorem readField_eq_ok {α : Type} {r : Reader α} {b : List UInt8} {v : α × List UInt8}
    (h : readField r b = .ok v) : r b = .ok v := by
  unfold readField at h
  split at h
  · cases h
  · exact h

/-- Two fields written one after the other read back as the pair. -/
theorem readPair_append {α β : Type} {r₁ : Reader α} {r₂ : Reader β} {e₁ e₂ : List UInt8} {x : α} {y : β}
    (h₁ : ∀ rest, r₁ (e₁ ++ rest) = .ok (x, rest)) (h₂ : ∀ rest, r₂ (e₂ ++ rest) = .ok (y, rest))
    (hne₁ : e₁ ≠ []) (hne₂ : e₂ ≠ []) (rest : List UInt8) :
    readPair r₁ r₂ (e₁ ++ e₂ ++ rest) = .ok ((x, y), rest) := by
  have hne₁' : e₁ ++ e₂ ++ rest ≠ [] := by simp [hne₁]
  have hne₂' : e₂ ++ rest ≠ [] := by simp [hne₂]
  rw [readPair, readField_of_ne_nil _ hne₁', List.append_assoc, h₁]
  simp [readField_of_ne_nil _ hne₂', h₂, Except.bind, Except.map]

/-- A struct whose fields read their content to its end. -/
theorem readList_encodeList {α : Type} {fields : Reader α} {items : List UInt8} {v : α}
    (hlen : items.length < 2 ^ 64) (h : fields items = .ok (v, [])) (rest : List UInt8) :
    readList fields (encodeList items ++ rest) = .ok (v, rest) := by
  simp [readList, splitList_encodeList hlen, h, Except.bind]

theorem decodeBytes_of_read {α : Type} {r : Reader α} {b : List UInt8} {v : α}
    (h : r (b ++ []) = .ok (v, [])) : decodeBytes r b = .ok v := by
  rw [List.append_nil] at h
  simp [decodeBytes, h, Except.bind]

theorem writeBigInt_ne_nil (n : ℕ) : writeBigInt n ≠ [] := encodeString_ne_nil _

theorem length_bigBytes_le_of_lt {n k : ℕ} (hk : 0 < k) (h : n < 256 ^ k) : (bigBytes n).length ≤ k := by
  unfold bigBytes
  split
  · simp
  · exact (putint_spec n).2.2.2 k hk h

/-- A value `decodeBytes` accepted was read whole by its reader. -/
theorem decodeBytes_eq_ok {α : Type} {r : Reader α} {b : List UInt8} {v : α}
    (h : decodeBytes r b = .ok v) : r b = .ok (v, []) := by
  simp only [decodeBytes, Except.bind_eq_ok_iff] at h
  obtain ⟨⟨v', rest⟩, hr, h⟩ := h
  by_cases he : rest.isEmpty
  · simp only [he, if_true, Except.ok.injEq] at h
    rw [hr, h, List.isEmpty_iff.mp he]
  · simp [he] at h

/-- A struct `readList` accepted was read from the content of a list. -/
theorem readList_eq_ok {α : Type} {fields : Reader α} {b rest : List UInt8} {v : α}
    (h : readList fields b = .ok (v, rest)) : ∃ content, fields content = .ok (v, []) := by
  simp only [readList, Except.bind_eq_ok_iff] at h
  obtain ⟨⟨content, rest'⟩, -, ⟨v', left⟩, hf, h⟩ := h
  by_cases he : left.isEmpty
  · simp only [he, if_true, Except.ok.injEq, Prod.mk.injEq] at h
    rw [List.isEmpty_iff.mp he, h.1] at hf
    exact ⟨content, hf⟩
  · simp [he] at h

/-- A struct `readList` accepted: a list whose content its fields read to the end. -/
theorem readList_sound {α : Type} {fields : Reader α} {b rest : List UInt8} {v : α}
    (h : readList fields b = .ok (v, rest)) :
    ∃ content, fields content = .ok (v, []) ∧ b = encodeList content ++ rest := by
  cases hs : splitList b with
  | error e => simp [readList, hs, Except.bind] at h
  | ok p =>
    obtain ⟨content, rest'⟩ := p
    cases hf : fields content with
    | error e => simp [readList, hs, hf, Except.bind] at h
    | ok q =>
      obtain ⟨v', left⟩ := q
      by_cases he : left.isEmpty
      · simp only [readList, hs, hf, he, Except.bind, if_true, Except.ok.injEq, Prod.mk.injEq] at h
        obtain ⟨rfl, rfl⟩ := h
        rw [List.isEmpty_iff.mp he] at hf
        exact ⟨content, hf, splitList_eq_ok hs⟩
      · simp [readList, hs, hf, he, Except.bind] at h

/-- The shortest bytes of a number are the canonical bytes it was read from. -/
theorem bigBytes_beNat {l : List UInt8} (h : l.head? ≠ some 0) : bigBytes (beNat l) = l := by
  cases l with
  | nil => simp [bigBytes, beNat]
  | cons x t =>
    have hx : x ≠ 0 := fun hx => h (by simp [hx])
    have hpos : 0 < beNat (x :: t) := Nat.lt_of_lt_of_le (Nat.pow_pos (by decide)) (pow_le_beNat hx)
    rw [bigBytes, if_neg (by omega), putint_beNat (by simp) h]

end Rlp
