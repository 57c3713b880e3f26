import Workshare.Codec
import Workshare.RlpValue

/-!
# Codecs of the vendored package

The reflection-driven encoder and stream decoder of the vendored package as
`PrefixCodec`s over bytes: unsigned integers of a given width, big integers,
byte strings and byte arrays, pointers tagged `nil`, raw values, slices and
structs. The laws hold up to `NilByte`: the decoder of a pointer tagged `nil`
reads an empty list as nil besides the empty string the encoder writes for
it, and everything else it accepts is in the encoder's form.

The readers of string contents refuse a one-byte string below `0x80` as
`split` does; `streamKind` is the stream's own header reader, which leaves
that test to them and lets `Raw` keep such a value as it is.
-/
namespace Rlp

/-- Where an accepted input may differ from the encoding of what it decodes to:
an empty list `0xC0` read as a nil pointer, which the encoder writes as the
empty string `0x80`. -/
def NilByte (x y : UInt8) : Prop := x = y ∨ (x = 0xC0 ∧ y = 0x80)

instance reflNilByte : Std.Refl NilByte := ⟨fun _ => .inl rfl⟩

instance reflEqUInt8 : Std.Refl (@Eq UInt8) := ⟨fun _ => rfl⟩

/-- A codec of the vendored package for values of fewer than `2 ^ 64` bytes,
what it accepts being what it writes up to `r`: equality, or `NilByte` where
a pointer tagged `nil` is read. -/
abbrev Codec (r : UInt8 → UInt8 → Prop) (α : Type) := PrefixCodec UInt8 Error r (2 ^ 64) α

/-! ### The stream's header reader -/

/-- The kind, header size and content size a header byte announces, as the
stream's `readKind` reads them. -/
def streamHeader (x : UInt8) (r : List UInt8) : Except Error (Kind × ℕ × ℕ) :=
  if x < 0x80 then .ok (.byte, 0, 1)
  else if x < 0xB8 then .ok (.string, 1, (x - 0x80).toNat)
  else if x < 0xC0 then (readSize r (x - 0xB7).toNat).map fun cs => (.string, (x - 0xB7).toNat + 1, cs)
  else if x < 0xF8 then .ok (.list, 1, (x - 0xC0).toNat)
  else (readSize r (x - 0xF7).toNat).map fun cs => (.list, (x - 0xF7).toNat + 1, cs)

/-- `Stream.Kind`: the header of the next value, which must fit in the input. -/
def streamKind : List UInt8 → Except Error (Kind × ℕ × ℕ)
  | [] => .error .unexpectedEOF
  | x :: r => (streamHeader x r).bind fun (k, ts, cs) =>
    if cs > r.length + 1 - ts then .error .valueTooLarge else .ok (k, ts, cs)

theorem readSize_append {r t : List UInt8} {slen s : ℕ} (h : readSize r slen = .ok s) :
    readSize (r ++ t) slen = .ok s := by
  unfold readSize at h ⊢
  split at h
  · cases h
  rename_i hlen
  have hne : r ≠ [] := by
    rintro rfl
    simp [beNat] at h
  have htake : (r ++ t).take slen = r.take slen := List.take_append_of_le_length (by omega)
  have hhead : (r ++ t).head? = r.head? := by
    obtain ⟨x, r, rfl⟩ := List.exists_cons_of_ne_nil hne
    rfl
  rw [if_neg (by simp; omega)]
  simpa only [htake, hhead] using h

theorem readSize_take {r : List UInt8} {slen s n : ℕ} (h : readSize r slen = .ok s) (hn : slen ≤ n) :
    readSize (r.take n) slen = .ok s := by
  rw [← List.take_append_drop n r] at h
  unfold readSize at h ⊢
  split at h
  · cases h
  rename_i hlen
  simp only [List.length_append, List.length_take, List.length_drop] at hlen
  have hfit : slen ≤ (r.take n).length := by simp; omega
  have htake : (r.take n ++ r.drop n).take slen = (r.take n).take slen := List.take_append_of_le_length hfit
  have hne : r.take n ≠ [] := by
    intro he
    rw [he] at hfit
    simp only [List.length_nil, Nat.le_zero] at hfit
    subst hfit
    simp [beNat] at h
  have hhead : (r.take n ++ r.drop n).head? = (r.take n).head? := by
    obtain ⟨x, t, ht⟩ := List.exists_cons_of_ne_nil hne
    rw [ht]
    rfl
  rw [if_neg (by omega)]
  simpa only [htake, hhead] using h

theorem map_readSize_append {r t : List UInt8} {slen : ℕ} {f : ℕ → Kind × ℕ × ℕ} {v : Kind × ℕ × ℕ}
    (h : (readSize r slen).map f = .ok v) : (readSize (r ++ t) slen).map f = .ok v := by
  cases hs : readSize r slen with
  | error e => simp [hs, Except.map] at h
  | ok s => rwa [readSize_append hs, ← hs]

theorem map_readSize_take {r : List UInt8} {slen n : ℕ} {f : ℕ → Kind × ℕ × ℕ} {v : Kind × ℕ × ℕ}
    (h : (readSize r slen).map f = .ok v) (hn : slen ≤ n) : (readSize (r.take n) slen).map f = .ok v := by
  cases hs : readSize r slen with
  | error e => simp [hs, Except.map] at h
  | ok s => rwa [readSize_take hs hn, ← hs]

theorem streamHeader_append {x : UInt8} {r t : List UInt8} {v : Kind × ℕ × ℕ}
    (h : streamHeader x r = .ok v) : streamHeader x (r ++ t) = .ok v := by
  unfold streamHeader at h ⊢
  split_ifs at h ⊢
  all_goals first
    | exact h
    | exact map_readSize_append h

/-- A header's size field lies within the header. -/
theorem streamHeader_take {x : UInt8} {r : List UInt8} {k : Kind} {ts cs n : ℕ}
    (h : streamHeader x r = .ok (k, ts, cs)) (hn : ts ≤ n + 1) : streamHeader x (r.take n) = .ok (k, ts, cs) := by
  unfold streamHeader at h ⊢
  split_ifs at h ⊢
  all_goals first
    | exact h
    | skip
  · cases hs : readSize r (x - 0xB7).toNat with
    | error e => simp [hs, Except.map] at h
    | ok s =>
      simp only [hs, Except.map, Except.ok.injEq, Prod.mk.injEq] at h
      obtain ⟨rfl, rfl, rfl⟩ := h
      exact map_readSize_take (by rw [hs]; rfl) (by omega)
  · cases hs : readSize r (x - 0xF7).toNat with
    | error e => simp [hs, Except.map] at h
    | ok s =>
      simp only [hs, Except.map, Except.ok.injEq, Prod.mk.injEq] at h
      obtain ⟨rfl, rfl, rfl⟩ := h
      exact map_readSize_take (by rw [hs]; rfl) (by omega)

theorem readSize_eq_ok {r : List UInt8} {slen s : ℕ} (h : readSize r slen = .ok s) :
    slen ≤ r.length ∧ 56 ≤ s := by
  unfold readSize at h
  split at h
  · cases h
  rename_i hlen
  dsimp only at h
  split at h
  · cases h
  rename_i hcanon
  cases h
  omega

/-- The headers `streamHeader` reads: a byte, a short string or list whose size
is in the header byte, or a long one whose size is at least 56. -/
theorem streamHeader_cases {x : UInt8} {r : List UInt8} {k : Kind} {ts cs : ℕ}
    (h : streamHeader x r = .ok (k, ts, cs)) :
    (x < 0x80 ∧ k = .byte ∧ ts = 0 ∧ cs = 1) ∨
    (¬ x < 0x80 ∧ x < 0xB8 ∧ k = .string ∧ ts = 1 ∧ cs = (x - 0x80).toNat) ∨
    (¬ x < 0xC0 ∧ x < 0xF8 ∧ k = .list ∧ ts = 1 ∧ cs = (x - 0xC0).toNat) ∨
    (k ≠ .byte ∧ 1 < ts ∧ ts ≤ r.length + 1 ∧ 56 ≤ cs) := by
  have hlt := UInt8.toNat_lt x
  unfold streamHeader at h
  by_cases h1 : x < 0x80
  · simp only [h1, if_true, Except.ok.injEq, Prod.mk.injEq] at h
    obtain ⟨rfl, rfl, rfl⟩ := h
    exact .inl ⟨h1, rfl, rfl, rfl⟩
  by_cases h2 : x < 0xB8
  · simp only [h1, h2, if_true, if_false, Except.ok.injEq, Prod.mk.injEq] at h
    obtain ⟨rfl, rfl, rfl⟩ := h
    exact .inr (.inl ⟨h1, h2, rfl, rfl, rfl⟩)
  by_cases h3 : x < 0xC0
  · -- a long string
    simp only [h1, h2, h3, if_true, if_false] at h
    cases hs : readSize r (x - 0xB7).toNat with
    | error e => simp [hs, Except.map] at h
    | ok s =>
      simp only [hs, Except.map, Except.ok.injEq, Prod.mk.injEq] at h
      obtain ⟨rfl, rfl, rfl⟩ := h
      obtain ⟨hlen, hbig⟩ := readSize_eq_ok hs
      have hslen : 0 < (x - 0xB7).toNat := by
        rw [UInt8.lt_iff_toNat_lt] at h2
        simp [UInt8.toNat_sub] at h2 ⊢
        omega
      exact .inr (.inr (.inr ⟨by decide, by omega, by omega, hbig⟩))
  by_cases h4 : x < 0xF8
  · simp only [h1, h2, h3, h4, if_true, if_false, Except.ok.injEq, Prod.mk.injEq] at h
    obtain ⟨rfl, rfl, rfl⟩ := h
    exact .inr (.inr (.inl ⟨h3, h4, rfl, rfl, rfl⟩))
  · -- a long list
    simp only [h1, h2, h3, h4, if_false] at h
    cases hs : readSize r (x - 0xF7).toNat with
    | error e => simp [hs, Except.map] at h
    | ok s =>
      simp only [hs, Except.map, Except.ok.injEq, Prod.mk.injEq] at h
      obtain ⟨rfl, rfl, rfl⟩ := h
      obtain ⟨hlen, hbig⟩ := readSize_eq_ok hs
      have hslen : 0 < (x - 0xF7).toNat := by
        rw [UInt8.lt_iff_toNat_lt] at h4
        simp [UInt8.toNat_sub] at h4 ⊢
        omega
      exact .inr (.inr (.inr ⟨by decide, by omega, by omega, hbig⟩))

/-- What `streamKind` accepts: a header, and a value that fits in the input. -/
theorem streamKind_eq_ok {x : UInt8} {r : List UInt8} {k : Kind} {ts cs : ℕ}
    (h : streamKind (x :: r) = .ok (k, ts, cs)) :
    streamHeader x r = .ok (k, ts, cs) ∧ 0 < ts + cs ∧ ts + cs ≤ r.length + 1 := by
  simp only [streamKind, Except.bind] at h
  cases hh : streamHeader x r with
  | error e => simp [hh] at h
  | ok v =>
    obtain ⟨k', ts', cs'⟩ := v
    simp only [hh] at h
    split at h
    · cases h
    rename_i hfit
    cases h
    refine ⟨rfl, ?_⟩
    rcases streamHeader_cases hh with ⟨-, -, rfl, rfl⟩ | ⟨-, -, -, rfl, -⟩ | ⟨-, -, -, rfl, -⟩ | ⟨-, hts, hle, hcs⟩
    all_goals omega

theorem streamKind_of_header {x : UInt8} {r : List UInt8} {k : Kind} {ts cs : ℕ}
    (h : streamHeader x r = .ok (k, ts, cs)) (hfit : ts + cs ≤ r.length + 1) :
    streamKind (x :: r) = .ok (k, ts, cs) := by
  simp only [streamKind, h, Except.bind]
  rw [if_neg (by omega)]

/-- `streamKind` reads the same value whatever follows it. -/
theorem streamKind_append {b t : List UInt8} {k : Kind} {ts cs : ℕ}
    (h : streamKind b = .ok (k, ts, cs)) : streamKind (b ++ t) = .ok (k, ts, cs) := by
  cases b with
  | nil => simp [streamKind] at h
  | cons x r =>
    obtain ⟨hh, -, hfit⟩ := streamKind_eq_ok h
    exact streamKind_of_header (streamHeader_append hh) (by simp; omega)

/-- `streamKind` reads a value from its own bytes alone. -/
theorem streamKind_take {b : List UInt8} {k : Kind} {ts cs : ℕ}
    (h : streamKind b = .ok (k, ts, cs)) : streamKind (b.take (ts + cs)) = .ok (k, ts, cs) := by
  cases b with
  | nil => simp [streamKind] at h
  | cons x r =>
    obtain ⟨hh, hpos, hfit⟩ := streamKind_eq_ok h
    obtain ⟨n, hn⟩ : ∃ n, ts + cs = n + 1 := ⟨ts + cs - 1, by omega⟩
    rw [hn, List.take_succ_cons]
    have hts : ts ≤ n + 1 := by omega
    exact streamKind_of_header (streamHeader_take hh hts) (by simp; omega)

/-- A value of no content other than a byte is an empty string or an empty list. -/
theorem streamKind_empty {x : UInt8} {r : List UInt8} {k : Kind} {ts : ℕ}
    (h : streamKind (x :: r) = .ok (k, ts, 0)) (hk : k ≠ .byte) : ts = 1 ∧ (x = 0x80 ∨ x = 0xC0) := by
  obtain ⟨hh, -, -⟩ := streamKind_eq_ok h
  have hlt := UInt8.toNat_lt x
  rcases streamHeader_cases hh with ⟨-, rfl, -, -⟩ | ⟨h1, -, -, rfl, hcs⟩ | ⟨h3, -, -, rfl, hcs⟩ | ⟨-, -, -, hcs⟩
  · exact absurd rfl hk
  · refine ⟨rfl, .inl ?_⟩
    rw [UInt8.lt_iff_toNat_lt] at h1
    simp [UInt8.toNat_sub] at h1 hcs
    apply UInt8.toNat_inj.mp
    simp
    omega
  · refine ⟨rfl, .inr ?_⟩
    rw [UInt8.lt_iff_toNat_lt] at h3
    simp [UInt8.toNat_sub] at h3 hcs
    apply UInt8.toNat_inj.mp
    simp
    omega
  · omega

theorem streamKind_fits {b : List UInt8} {k : Kind} {ts cs : ℕ} (h : streamKind b = .ok (k, ts, cs)) :
    0 < ts + cs ∧ ts + cs ≤ b.length := by
  cases b with
  | nil => simp [streamKind] at h
  | cons x r =>
    obtain ⟨-, hpos, hfit⟩ := streamKind_eq_ok h
    exact ⟨hpos, by simpa using hfit⟩

/-- The stream reads every header `split` reads, the same way. -/
theorem streamKind_of_readKind {b : List UInt8} {v : Kind × ℕ × ℕ} (h : readKind b = .ok v) :
    streamKind b = .ok v := by
  cases b with
  | nil => simp [readKind] at h
  | cons x r =>
    unfold readKind at h
    simp only [streamKind, streamHeader]
    by_cases h1 : x < 0x80
    · simpa [h1] using h
    by_cases h2 : x < 0xB8
    · -- `readKind` refuses a one-byte string below `0x80`, where the stream goes on
      by_cases hc : (x - 0x80).toNat = 1 ∧ r.head?.any (· < 128)
      · simp [h1, h2, hc, Except.bind] at h
      · simpa [h1, h2, hc] using h
    · simpa [h1, h2] using h

/-- The stream reads the header of a value `split` reads, whatever follows it. -/
theorem Item.streamKind {k : Kind} {c e : List UInt8} (he : Item k c e) (rest : List UInt8) :
    ∃ ts, streamKind (e ++ rest) = .ok (k, ts, c.length) := by
  obtain ⟨h, -, hk⟩ := he
  exact ⟨h.length, streamKind_of_readKind (hk rest)⟩

theorem streamKind_emptyString (rest : List UInt8) : streamKind (0x80 :: rest) = .ok (.string, 1, 0) := by
  simp [streamKind, streamHeader, Except.bind]

theorem streamKind_emptyList (rest : List UInt8) : streamKind (0xC0 :: rest) = .ok (.list, 1, 0) := by
  simp [streamKind, streamHeader, Except.bind]

theorem forall₂_encodeList {r : UInt8 → UInt8 → Prop} [Std.Refl r] {a b : List UInt8}
    (h : List.Forall₂ r a b) : List.Forall₂ r (encodeList a) (encodeList b) := by
  rw [encodeList, encodeList, h.length_eq]
  exact List.rel_append (List.forall₂_refl _) h

/-! ### Raw values -/

/-- `u` is one value as the stream reads it, header included. -/
def isRaw (u : List UInt8) : Bool :=
  match streamKind u with
  | .ok (_, ts, cs) => ts + cs == u.length
  | .error _ => false

theorem isRaw_iff {u : List UInt8} :
    isRaw u = true ↔ ∃ k ts cs, streamKind u = .ok (k, ts, cs) ∧ ts + cs = u.length := by
  unfold isRaw
  split
  · rename_i k ts cs hk
    simp [hk]
  · rename_i e he
    simp [he]

theorem isRaw_of_item {k : Kind} {c e : List UInt8} (he : Item k c e) : isRaw e = true := by
  obtain ⟨h, rfl, hk⟩ := he
  have hs := streamKind_of_readKind (hk [])
  rw [List.append_nil] at hs
  exact isRaw_iff.mpr ⟨k, h.length, c.length, hs, by simp⟩

/-- `Stream.Raw`: the next value whole, as the bytes it was read from; its
header is in shortest form, so the header `Raw` puts back is the one it read. -/
def readRaw : Reader (List UInt8) := fun b =>
  (streamKind b).map fun (_, ts, cs) => (b.take (ts + cs), b.drop (ts + cs))

section Generic

variable {r : UInt8 → UInt8 → Prop} [Std.Refl r]

/-- `RawValue`: written as it is, and read as the next value whole. -/
def raw : Codec r (List UInt8) where
  write u := u
  read := readRaw
  valid u := isRaw u
  write_ne_nil u hu := by
    rintro rfl
    simp [isRaw, streamKind] at hu
  read_write u rest hu _ := by
    obtain ⟨k, ts, cs, hk, hlen⟩ := isRaw_iff.mp hu
    simp [readRaw, streamKind_append hk, Except.map, List.take_left' hlen.symm, List.drop_left' hlen.symm]
  read_sound {b v rest} h := by
    simp only [readRaw, Except.map_eq_ok_iff] at h
    obtain ⟨⟨k, ts, cs⟩, hk, h⟩ := h
    simp only [Prod.mk.injEq] at h
    obtain ⟨rfl, rfl⟩ := h
    have hfit := (streamKind_fits hk).2
    refine ⟨isRaw_iff.mpr ⟨k, ts, cs, streamKind_take hk, ?_⟩, _, List.forall₂_refl _,
      (List.take_append_drop _ _).symm⟩
    simp
    omega

/-! ### Integers and strings -/

/-- `Stream.uint`: a canonical integer of at most `n` bytes. -/
def readUint (n : ℕ) : Reader ℕ := fun b =>
  (split b).bind fun (k, content, rest) =>
    if k = .list then .error .expectedString
    else if content.length > n then .error .uintOverflow
    else if content.head? = some 0 then .error .canonInt
    else .ok (beNat content, rest)

theorem readUint_sound {n : ℕ} {b rest : List UInt8} {v : ℕ} (h : readUint n b = .ok (v, rest)) :
    v < 256 ^ n ∧ b = writeBigInt v ++ rest := by
  simp only [readUint, Except.bind_eq_ok_iff] at h
  obtain ⟨⟨k, content, rest'⟩, hs, h⟩ := h
  split_ifs at h with hk hover hz
  dsimp only at hk hover hz
  simp only [Except.ok.injEq, Prod.mk.injEq] at h
  obtain ⟨rfl, rfl⟩ := h
  refine ⟨Nat.lt_of_lt_of_le (beNat_lt content) (Nat.pow_le_pow_right (by decide) (by omega)), ?_⟩
  rw [writeBigInt, bigBytes_beNat hz]
  simpa [hk] using split_eq_ok hs

theorem pow_256_le {n : ℕ} (hn : n ≤ 8) : 256 ^ n ≤ 2 ^ 64 :=
  Nat.le_trans (Nat.pow_le_pow_right (by decide) hn) (by decide)

theorem encodeUint_ne_nil (v : ℕ) : encodeUint v ≠ [] := by
  unfold encodeUint
  split_ifs <;> simp

/-- `decodeUint` reads back what `writeUint` writes, for a value of at most
`n ≤ 8` bytes. -/
theorem readUint_encodeUint {n v : ℕ} (hn : n ≤ 8) (hv : v < 256 ^ n) (rest : List UInt8) :
    readUint n (encodeUint v ++ rest) = .ok (v, rest) := by
  have h64 : v < 2 ^ 64 := Nat.lt_of_lt_of_le hv (pow_256_le hn)
  have hlen : (bigBytes v).length ≤ n := by
    by_cases h0 : v = 0
    · simp [bigBytes, h0]
    · have hpos : 0 < n := Nat.pos_of_ne_zero fun h => by subst h; simp at hv; omega
      exact length_bigBytes_le_of_lt hpos hv
  rw [encodeUint_eq_writeBigInt h64]
  obtain ⟨k, hk, hs⟩ := split_writeBigInt (n := v) (by omega) rest
  obtain ⟨hval, hhead⟩ := bigBytes_spec v
  simp [readUint, hs, hk, hhead, hval, Except.bind, show ¬ (bigBytes v).length > n by omega]

/-- What `decodeUint` accepts is what `writeUint` writes of the value read. -/
theorem readUint_encodeUint_sound {n : ℕ} (hn : n ≤ 8) {b rest : List UInt8} {v : ℕ}
    (h : readUint n b = .ok (v, rest)) :
    v < 256 ^ n ∧ ∃ pre, List.Forall₂ r pre (encodeUint v) ∧ b = pre ++ rest := by
  obtain ⟨hv, hb⟩ := readUint_sound h
  have h64 := Nat.lt_of_lt_of_le hv (pow_256_le hn)
  exact ⟨hv, _, List.forall₂_refl _, by rw [encodeUint_eq_writeBigInt h64]; exact hb⟩

/-- An unsigned integer of `n` bytes, at most eight: `writeUint` and `decodeUint`. -/
def uint (n : ℕ) (hn : n ≤ 8) : Codec r ℕ where
  write := encodeUint
  read := readUint n
  valid v := v < 256 ^ n
  write_ne_nil v _ := encodeUint_ne_nil v
  read_write _ rest hv _ := readUint_encodeUint hn hv rest
  read_sound h := readUint_encodeUint_sound hn h

theorem isRaw_encodeUint {n : ℕ} (hn : n < 2 ^ 64) : isRaw (encodeUint n) = true := by
  rw [encodeUint_eq_writeBigInt hn]
  obtain ⟨k, -, he⟩ := item_encodeString (Nat.lt_of_le_of_lt (length_bigBytes_le hn) (by decide))
  exact isRaw_of_item he

/-- `uint8`. -/
def uint8 : Codec r UInt8 :=
  (uint 1 (by decide)).map Nat.toUInt8 UInt8.toNat (fun x => by simp) (fun a ha =>
    UInt8.toNat_ofNat_of_lt' (Nat.lt_of_lt_of_le (ha : a < 256 ^ 1) (by decide)))

/-- `uint32`. -/
def uint32 : Codec r UInt32 :=
  (uint 4 (by decide)).map Nat.toUInt32 UInt32.toNat (fun x => by simp) (fun a ha =>
    UInt32.toNat_ofNat_of_lt' (Nat.lt_of_lt_of_le (ha : a < 256 ^ 4) (by decide)))

/-- `uint64`. -/
def uint64 : Codec r UInt64 :=
  (uint 8 (by decide)).map Nat.toUInt64 UInt64.toNat (fun x => by simp) (fun a ha =>
    UInt64.toNat_ofNat_of_lt' (Nat.lt_of_lt_of_le (ha : a < 256 ^ 8) (by decide)))

theorem uint32_read_sound {b rest : List UInt8} {v : UInt32} (h : (uint32 (r := r)).read b = .ok (v, rest)) :
    b = encodeUint v.toNat ++ rest := by
  simp only [uint32, PrefixCodec.map, uint, Except.map_eq_ok_iff] at h
  obtain ⟨⟨a, rest'⟩, ha, h⟩ := h
  simp only [Prod.mk.injEq] at h
  obtain ⟨rfl, rfl⟩ := h
  obtain ⟨hlt, hb⟩ := readUint_sound ha
  have ha32 : a < UInt32.size := Nat.lt_of_lt_of_le hlt (by decide)
  have hv : a.toUInt32.toNat = a := UInt32.toNat_ofNat_of_lt' ha32
  rw [hb, hv, encodeUint_eq_writeBigInt (Nat.lt_of_lt_of_le ha32 (by decide))]

theorem readBigInt_sound {b rest : List UInt8} {n : ℕ} (h : readBigInt b = .ok (n, rest)) :
    b = writeBigInt n ++ rest := by
  simp only [readBigInt, Except.bind_eq_ok_iff] at h
  obtain ⟨⟨k, content, rest'⟩, hs, h⟩ := h
  split_ifs at h with hk hz
  simp only [Except.ok.injEq, Prod.mk.injEq] at h
  obtain ⟨rfl, rfl⟩ := h
  rw [writeBigInt, bigBytes_beNat hz]
  simpa [hk] using split_eq_ok hs

/-- `*big.Int`, by `writeBigInt` and `decodeBigInt`: a non-negative integer in
its shortest big-endian bytes. -/
def bigInt : Codec r ℤ where
  write i := writeBigInt i.toNat
  read b := (readBigInt b).map fun (n, rest) => ((n : ℤ), rest)
  valid i := 0 ≤ i
  write_ne_nil i _ := writeBigInt_ne_nil _
  read_write i rest hi hlen := by
    have hb : (bigBytes i.toNat).length < 2 ^ 64 := Nat.lt_of_le_of_lt (length_le_encodeString _) hlen
    simp [readBigInt_writeBigInt hb, Except.map, Int.toNat_of_nonneg hi]
  read_sound h := by
    simp only [Except.map_eq_ok_iff] at h
    obtain ⟨⟨n, rest'⟩, hr, h⟩ := h
    simp only [Prod.mk.injEq] at h
    obtain ⟨rfl, rfl⟩ := h
    exact ⟨by omega, _, List.forall₂_refl _, by simpa using readBigInt_sound hr⟩

/-- `[]byte`: `writeBytes` and `decodeByteSlice`. -/
def bytes : Codec r (List UInt8) where
  write := encodeString
  read := splitString
  valid _ := True
  write_ne_nil b _ := encodeString_ne_nil b
  read_write b rest _ hlen := splitString_encodeString (Nat.lt_of_le_of_lt (length_le_encodeString b) hlen) rest
  read_sound h := ⟨trivial, _, List.forall₂_refl _, splitString_eq_ok h⟩

/-- `decodeByteArray`: a string of exactly `n` bytes, or a single byte when `n` is one. -/
def readByteArray (n : ℕ) : Reader (Vector UInt8 n) := fun b =>
  (split b).bind fun (k, content, rest) =>
    if k = .list then .error .expectedString
    else if h : content.length = n then .ok (⟨content.toArray, by simpa using h⟩, rest)
    else if content.length > n then .error .inputStringTooLong
    else .error .inputStringTooShort

theorem readByteArray_sound {n : ℕ} {b rest : List UInt8} {v : Vector UInt8 n}
    (h : readByteArray n b = .ok (v, rest)) : b = encodeString v.toList ++ rest := by
  simp only [readByteArray, Except.bind_eq_ok_iff] at h
  obtain ⟨⟨k, content, rest'⟩, hs, h⟩ := h
  split_ifs at h with hk hlen
  simp only [Except.ok.injEq, Prod.mk.injEq] at h
  obtain ⟨rfl, rfl⟩ := h
  simpa [hk] using split_eq_ok hs

/-- `[n]byte`: `writeByteArray` and `decodeByteArray`. -/
def byteArray (n : ℕ) : Codec r (Vector UInt8 n) where
  write v := encodeString v.toList
  read := readByteArray n
  valid _ := True
  write_ne_nil v _ := encodeString_ne_nil _
  read_write v rest _ hlen := by
    obtain ⟨k, hk, he⟩ := item_encodeString (Nat.lt_of_le_of_lt (length_le_encodeString _) hlen)
    simp [readByteArray, he.split rest, hk, Except.bind, Vector.toArray_toList]
  read_sound h := ⟨trivial, _, List.forall₂_refl _, readByteArray_sound h⟩

end Generic

/-! ### Pointers, fields, slices and structs -/

/-- `makeOptionalPtrDecoder`: an empty string or an empty list is nil, and
anything else goes to the element's reader. -/
def readNilPtr {α : Type} (read : Reader α) : Reader (Option α) := fun b =>
  (streamKind b).bind fun (k, ts, cs) =>
    if cs = 0 ∧ k ≠ .byte then .ok (none, b.drop ts)
    else (read b).map fun (v, rest) => (some v, rest)

/-- A pointer to `[n]byte` tagged `nil`: `makePtrWriter` writes nil as the
empty string, and `makeOptionalPtrDecoder` reads nil from either empty value. -/
def nilByteArray (n : ℕ) : Codec NilByte (Option (Vector UInt8 n)) where
  write v := match v with
    | none => [0x80]
    | some a => encodeString a.toList
  read := readNilPtr (readByteArray n)
  valid v := v = none ∨ 0 < n
  write_ne_nil v _ := by
    cases v
    · simp
    · exact encodeString_ne_nil _
  read_write v rest hv hlen := by
    cases v with
    | none => simp [readNilPtr, streamKind_emptyString, Except.bind]
    | some a =>
      have hn : 0 < n := by simpa using hv
      obtain ⟨k, -, ⟨h, he, hk⟩⟩ := item_encodeString (Nat.lt_of_le_of_lt (length_le_encodeString _) hlen)
      have hs := streamKind_of_readKind (hk rest)
      have hne : ¬ (a.toList.length = 0 ∧ k ≠ .byte) := by simp; omega
      have hr : readByteArray n (encodeString a.toList ++ rest) = .ok (a, rest) :=
        (byteArray (r := NilByte) n).read_write a rest trivial hlen
      simp only [readNilPtr, hs, Except.bind, if_neg hne]
      simp [hr, Except.map]
  read_sound {b v rest} h := by
    simp only [readNilPtr, Except.bind_eq_ok_iff] at h
    obtain ⟨⟨k, ts, cs⟩, hk, h⟩ := h
    split_ifs at h with hnil
    · -- nil, read from the one byte of an empty string or an empty list
      simp only [Except.ok.injEq, Prod.mk.injEq] at h
      obtain ⟨rfl, rfl⟩ := h
      obtain ⟨hcs, hkb⟩ := hnil
      subst hcs
      cases b with
      | nil => simp [streamKind] at hk
      | cons x r =>
        obtain ⟨rfl, hx⟩ := streamKind_empty hk hkb
        refine ⟨.inl rfl, [x], ?_, rfl⟩
        rcases hx with rfl | rfl
        · exact .cons (.inl rfl) .nil
        · exact .cons (.inr ⟨rfl, rfl⟩) .nil
    · simp only [Except.map_eq_ok_iff] at h
      obtain ⟨⟨a, rest'⟩, ha, h⟩ := h
      simp only [Prod.mk.injEq] at h
      obtain ⟨rfl, rfl⟩ := h
      have hb := readByteArray_sound ha
      refine ⟨.inr ?_, _, List.forall₂_refl _, hb⟩
      -- an array of no bytes is written as the empty string, which reads as nil
      apply Nat.pos_of_ne_zero
      intro hn
      subst hn
      have ha0 : a.toList = [] := by simp
      rw [ha0] at hb
      rw [hb] at hk
      simp [encodeString, head, streamKind_emptyString] at hk
      obtain ⟨rfl, -, rfl⟩ := hk
      simp at hnil

section Generic

variable {r : UInt8 → UInt8 → Prop} [Std.Refl r]

/-- A field of a struct: the struct's list must not have ended. -/
def field {α : Type} (c : Codec r α) : Codec r α where
  write := c.write
  read := readField c.read
  valid := c.valid
  write_ne_nil := c.write_ne_nil
  read_write v rest hv hlen := by
    rw [readField_of_ne_nil _ (by simp [c.write_ne_nil v hv])]
    exact c.read_write v rest hv hlen
  read_sound {b v rest} h := by
    by_cases hb : b = []
    · subst hb
      simp [readField] at h
    · rw [readField_of_ne_nil _ hb] at h
      exact c.read_sound h

/-- `decodeListSlice`: a list whose content is the elements laid end to end. -/
def readSlice {α : Type} (read : Reader α) : Reader (List α) := fun b =>
  (splitList b).bind fun (content, rest) =>
    (PrefixCodec.readItems read content.length content).map fun vs => (vs, rest)

/-- A slice: `makeSliceWriter` and `decodeListSlice`. -/
def slice {α : Type} (c : Codec r α) : Codec r (List α) where
  write vs := encodeList (vs.flatMap c.write)
  read := readSlice c.read
  valid vs := ∀ v ∈ vs, c.valid v
  write_ne_nil vs _ := encodeList_ne_nil _
  read_write vs rest hvs hlen := by
    have hlen' : (vs.flatMap c.write).length < 2 ^ 64 := Nat.lt_trans (length_lt_encodeList _) hlen
    have hitems := c.readItems_write vs _ hvs hlen' (c.length_le_length_flatMap hvs)
    simp only [readSlice, splitList_encodeList hlen', Except.bind, hitems, Except.map]
  read_sound {b vs rest} h := by
    simp only [readSlice, Except.bind_eq_ok_iff, Except.map_eq_ok_iff] at h
    obtain ⟨⟨content, rest'⟩, hs, vs', hi, h⟩ := h
    simp only [Prod.mk.injEq] at h
    obtain ⟨rfl, rfl⟩ := h
    obtain ⟨hvs, hrel⟩ := c.readItems_sound content.length (Nat.le_refl _) hi
    exact ⟨hvs, encodeList content, forall₂_encodeList hrel, splitList_eq_ok hs⟩

/-- A struct: `makeStructWriter` and `makeStructDecoder`, a list of its fields
read to its end. -/
def struct {α : Type} (c : Codec r α) : Codec r α where
  write v := encodeList (c.write v)
  read := readList c.read
  valid := c.valid
  write_ne_nil v _ := encodeList_ne_nil _
  read_write v rest hv hlen := by
    have hlen' : (c.write v).length < 2 ^ 64 := Nat.lt_trans (length_lt_encodeList _) hlen
    exact readList_encodeList hlen' (by simpa using c.read_write v [] hv hlen') rest
  read_sound h := by
    obtain ⟨content, hf, rfl⟩ := readList_sound h
    obtain ⟨hv, pre, hpre, hc⟩ := c.read_sound hf
    rw [List.append_nil] at hc
    exact ⟨hv, encodeList pre, forall₂_encodeList hpre, by rw [hc]⟩

end Generic

/-- A struct is read from the content of the list that `splitList` cuts off. -/
theorem splitList_of_readList {α : Type} {fields : Reader α} {b rest : List UInt8} {v : α}
    (h : readList fields b = .ok (v, rest)) :
    ∃ content, splitList b = .ok (content, rest) ∧ fields content = .ok (v, []) := by
  simp only [readList, Except.bind_eq_ok_iff] at h
  obtain ⟨⟨content, rest'⟩, hs, ⟨v', left⟩, hf, h⟩ := h
  split_ifs at h with he
  dsimp only at he hf
  simp only [Except.ok.injEq, Prod.mk.injEq] at h
  obtain ⟨rfl, rfl⟩ := h
  rw [List.isEmpty_iff.mp he] at hf
  exact ⟨content, hs, hf⟩

/-- The stream reads the header of a list `splitList` accepts as `split` does. -/
theorem streamKind_of_splitList {b content rest : List UInt8} (h : splitList b = .ok (content, rest)) :
    ∃ ts, streamKind b = .ok (.list, ts, content.length) := by
  simp only [splitList, Except.bind_eq_ok_iff] at h
  obtain ⟨⟨k, content', rest'⟩, hs, h⟩ := h
  split_ifs at h with hk
  dsimp only at hk
  simp only [Except.ok.injEq, Prod.mk.injEq] at h
  obtain ⟨rfl, rfl⟩ := h
  subst hk
  simp only [split, Except.map_eq_ok_iff] at hs
  obtain ⟨⟨k', ts, cs⟩, hkind, hs⟩ := hs
  simp only [Prod.mk.injEq] at hs
  obtain ⟨rfl, rfl, rfl⟩ := hs
  refine ⟨ts, ?_⟩
  have hfit : ts + cs ≤ b.length := by
    have := streamKind_fits (streamKind_of_readKind hkind)
    omega
  rw [streamKind_of_readKind hkind, List.length_take, List.length_drop]
  congr
  omega

/-- `ListSize`: the encoded size of a list with content of `contentSize` bytes. -/
def listSize (contentSize : ℕ) : ℕ := (head 0xC0 0xF7 contentSize).length + contentSize

theorem listSize_eq_length (content : List UInt8) : listSize content.length = (encodeList content).length := by
  simp [listSize, encodeList]

end Rlp
