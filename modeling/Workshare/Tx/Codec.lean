import Workshare.Tx.Transaction
import Workshare.RlpCodec

/-!
# The transaction wire format

`Transaction.EncodeRLP` writes the `body` struct and `DecodeRLP` reads it back
with the vendored package's codecs; `Clause` is its own struct, and
`reserved` has an encoder of its own that drops the empty values at the end
of its list (the features among them, when they are zero) and a decoder that
refuses a list ending in one.

What the decoder accepts is exactly what the encoder writes of a transaction
whose unused reserved values are values each and do not end in an empty one,
up to `NilByte`: a nil `To` or `DependsOn` may arrive as the empty list and is
written back as the empty string.
-/
namespace Workshare

open Rlp

/-- `isEmptyRLPRaw`: no bytes, the empty list or the empty string. -/
def isEmptyRLPRaw (value : Bytes) : Bool :=
  value.length == 0 || value == [0xC0] || value == [0x80]

/-- The trimming loop of `reserved.EncodeRLP`: the empty values at the end popped. -/
def trimRaws (raws : List Bytes) : List Bytes :=
  (raws.reverse.dropWhile isEmptyRLPRaw).reverse

/-- A list that does not end in an empty value is trimmed already. -/
theorem trimRaws_of_getLast {raws : List Bytes} (h : raws.getLast?.any isEmptyRLPRaw = false) :
    trimRaws raws = raws := by
  unfold trimRaws
  cases hr : raws.reverse with
  | nil => simp [List.reverse_eq_nil_iff.mp hr]
  | cons x t =>
    have hx : isEmptyRLPRaw x = false := by
      rw [← List.head?_reverse, hr] at h
      simpa using h
    rw [List.dropWhile_cons_of_neg (by simp [hx]), ← hr, List.reverse_reverse]

theorem isEmptyRLPRaw_encodeUint {n : ℕ} (hn : n ≠ 0) : isEmptyRLPRaw (encodeUint n) = false := by
  unfold encodeUint
  rw [if_neg hn]
  split_ifs with hsmall
  · have hx : n.toUInt8 ≠ 0x80 ∧ n.toUInt8 ≠ 0xC0 := by
      constructor <;> intro h <;> have := congrArg UInt8.toNat h <;> simp at this <;> omega
    simp [isEmptyRLPRaw, hx.1, hx.2]
  · have hpos := putint_length_pos n
    obtain ⟨y, t, ht⟩ := List.exists_cons_of_length_pos hpos
    simp [isEmptyRLPRaw, ht]

namespace Reserved

/-- `reserved.EncodeRLP`: the features, then the unused values, less the empty
values at the end. -/
def encodeRLP (r : Reserved) : Bytes :=
  (slice (r := Eq) raw).write (trimRaws (encodeUint r.features.toNat :: r.unused))

/-- `reserved.DecodeRLP`: no values is no features; otherwise the last value
must not be empty, and the first holds the features. -/
def decodeRLP : Reader Reserved := fun b =>
  ((slice (r := Eq) raw).read b).bind fun (raws, rest) =>
    match raws with
    | [] => .ok (⟨0, []⟩, rest)
    | raw0 :: unused =>
      if (raw0 :: unused).getLast?.any isEmptyRLPRaw then
        .error (.other "invalid reserved fields: not trimmed")
      else (decodeBytes (uint32 (r := Eq)).read raw0).map fun feat => (⟨feat, unused⟩, rest)

/-- The unused values are values each and the last of them is not empty, so
that the encoder keeps them all. -/
def Trimmed (r : Reserved) : Prop :=
  (∀ u ∈ r.unused, isRaw u = true) ∧ r.unused.getLast?.any isEmptyRLPRaw = false

instance : DecidablePred Trimmed := fun r =>
  inferInstanceAs (Decidable ((∀ u ∈ r.unused, isRaw u = true) ∧ r.unused.getLast?.any isEmptyRLPRaw = false))

theorem getLast?_cons_any {raw0 : Bytes} {unused : List Bytes}
    (h : unused.getLast?.any isEmptyRLPRaw = false) (h0 : unused = [] → isEmptyRLPRaw raw0 = false) :
    (raw0 :: unused).getLast?.any isEmptyRLPRaw = false := by
  cases unused with
  | nil => simpa using h0 rfl
  | cons u us => rwa [List.getLast?_cons_cons]

/-- The values the encoder writes: the features and every unused value, unless
both the features are zero and no value is unused. -/
theorem trimRaws_encodeUint {r : Reserved} (hr : r.Trimmed) :
    (r.features = 0 ∧ r.unused = [] ∧ trimRaws (encodeUint r.features.toNat :: r.unused) = []) ∨
    ((encodeUint r.features.toNat :: r.unused).getLast?.any isEmptyRLPRaw = false ∧
      trimRaws (encodeUint r.features.toNat :: r.unused) = encodeUint r.features.toNat :: r.unused) := by
  by_cases h0 : r.features = 0 ∧ r.unused = []
  · obtain ⟨hf, hu⟩ := h0
    refine .inl ⟨hf, hu, ?_⟩
    rw [hf, hu]
    rfl
  · have hlast := getLast?_cons_any hr.2 fun hu =>
      isEmptyRLPRaw_encodeUint fun hn => h0 ⟨UInt32.toNat_inj.mp (by simpa using hn), hu⟩
    exact .inr ⟨hlast, trimRaws_of_getLast hlast⟩

/-- `reserved` as a codec: its own encoder and decoder, on trimmed values. -/
def codec : Codec Eq Reserved where
  write := encodeRLP
  read := decodeRLP
  valid := Trimmed
  write_ne_nil _ _ := encodeList_ne_nil _
  read_write r rest hr hlen := by
    have hfeat : isRaw (encodeUint r.features.toNat) = true :=
      isRaw_encodeUint (Nat.lt_trans r.features.toNat_lt (by decide))
    rcases trimRaws_encodeUint hr with ⟨hf, hu, htrim⟩ | ⟨hlast, htrim⟩
    · -- zero features and nothing unused: the empty list
      have hread : (slice (r := Eq) raw).read ((slice (r := Eq) raw).write [] ++ rest) = .ok ([], rest) :=
        (slice raw).read_write [] rest (by simp [slice]) (by decide)
      obtain ⟨features, unused⟩ := r
      simp only at hf hu
      subst hf hu
      simp only [encodeRLP, htrim] at hlen ⊢
      simp [decodeRLP, hread, Except.bind]
    · -- every value is kept, the features first
      have hvalid : (slice (r := Eq) raw).valid (encodeUint r.features.toNat :: r.unused) := by
        simp only [slice, raw, List.mem_cons, forall_eq_or_imp]
        exact ⟨hfeat, hr.1⟩
      simp only [encodeRLP, htrim] at hlen ⊢
      have h64 : r.features.toNat < 2 ^ 64 := Nat.lt_trans r.features.toNat_lt (by decide)
      have hlenFeat : (encodeUint r.features.toNat).length < 2 ^ 64 := by
        have hb := length_bigBytes_le h64
        have hs := length_encodeString_le (Nat.lt_of_le_of_lt hb (by decide))
        rw [encodeUint_eq_writeBigInt h64, writeBigInt]
        omega
      have hfeatRead : (uint32 (r := Eq)).read (encodeUint r.features.toNat ++ []) = .ok (r.features, []) :=
        uint32.read_write r.features [] (by simpa [uint32, PrefixCodec.map, uint] using r.features.toNat_lt)
          hlenFeat
      simp only [decodeRLP, (slice raw).read_write _ rest hvalid hlen, Except.bind, hlast,
        Bool.false_eq_true, if_false, decodeBytes_of_read hfeatRead]
      rfl
  read_sound {b r rest} h := by
    simp only [decodeRLP, Except.bind_eq_ok_iff] at h
    obtain ⟨⟨raws, rest'⟩, hs, h⟩ := h
    obtain ⟨hraws, pre, hpre, hb⟩ := (slice raw).read_sound hs
    cases raws with
    | nil =>
      simp only [Except.ok.injEq, Prod.mk.injEq] at h
      obtain ⟨rfl, rfl⟩ := h
      exact ⟨by simp [Trimmed], pre, hpre, hb⟩
    | cons raw0 unused =>
      simp only at h
      split_ifs at h with hlast
      simp only [Bool.not_eq_true] at hlast
      simp only [Except.map_eq_ok_iff] at h
      obtain ⟨feat, hfeat, h⟩ := h
      simp only [Prod.mk.injEq] at h
      obtain ⟨rfl, rfl⟩ := h
      have h0 : raw0 = encodeUint feat.toNat := by
        simpa using uint32_read_sound (decodeBytes_eq_ok hfeat)
      subst h0
      have hunused : ∀ u ∈ unused, isRaw u = true := fun u hu => hraws u (by simp [hu])
      have hlast' : unused.getLast?.any isEmptyRLPRaw = false := by
        cases unused with
        | nil => rfl
        | cons u us => rwa [List.getLast?_cons_cons] at hlast
      refine ⟨⟨hunused, hlast'⟩, pre, ?_, hb⟩
      simp only [encodeRLP]
      rw [trimRaws_of_getLast hlast]
      exact hpre

end Reserved

namespace Clause

/-- `Clause.EncodeRLP` and `DecodeRLP`: the struct `clauseBody`, whose `To` is
a pointer tagged `nil`. -/
def codec : Codec NilByte Clause :=
  (struct ((field (nilByteArray 20)).pair ((field bigInt).pair (field bytes)))).map
    (fun (t, v, d) => ⟨t, v, d⟩) (fun c => (c.«to», c.value, c.data)) (fun _ => rfl) (fun _ _ => rfl)

theorem codec_valid (c : Clause) : codec.valid c ↔ 0 ≤ c.value := by
  simp [codec, PrefixCodec.map, PrefixCodec.pair, struct, field, nilByteArray, bigInt, bytes]

end Clause

namespace Transaction

/-- The struct `body`, field by field. -/
def bodyCodec : Codec NilByte Transaction :=
  (struct ((field uint8).pair ((field uint64).pair ((field uint32).pair
    ((field (slice Clause.codec)).pair ((field uint8).pair ((field uint64).pair
    ((field (nilByteArray 32)).pair ((field uint64).pair ((field (Reserved.codec.weaken fun h => .inl h)).pair
    (field bytes))))))))))).map
    (fun (chainTag, blockRef, expiration, clauses, gasPriceCoef, gas, dependsOn, nonce, reserved,
        signature) =>
      ⟨chainTag, blockRef, expiration, clauses, gasPriceCoef, gas, dependsOn, nonce, reserved, signature⟩)
    (fun t => (t.chainTag, t.blockRef, t.expiration, t.clauses, t.gasPriceCoef, t.gas, t.dependsOn,
      t.nonce, t.reserved, t.signature))
    (fun _ => rfl) (fun _ _ => rfl)

/-- The bodies the codec reads back: non-negative values and a trimmed reserved list. -/
theorem bodyCodec_valid (t : Transaction) :
    bodyCodec.valid t ↔ (∀ c ∈ t.clauses, 0 ≤ c.value) ∧ t.reserved.Trimmed := by
  -- the integer fields are valid by their types
  have h₁ : t.chainTag.toNat < 256 := t.chainTag.toNat_lt
  have h₂ : t.blockRef.toNat < 18446744073709551616 := t.blockRef.toNat_lt
  have h₃ : t.expiration.toNat < 4294967296 := t.expiration.toNat_lt
  have h₄ : t.gasPriceCoef.toNat < 256 := t.gasPriceCoef.toNat_lt
  have h₅ : t.gas.toNat < 18446744073709551616 := t.gas.toNat_lt
  have h₆ : t.nonce.toNat < 18446744073709551616 := t.nonce.toNat_lt
  simp [bodyCodec, PrefixCodec.map, PrefixCodec.pair, struct, field, slice, Clause.codec_valid, uint8,
    uint32, uint64, uint, nilByteArray, bytes, Reserved.codec, PrefixCodec.weaken, h₁, h₂, h₃, h₄, h₅, h₆]

/-- `Transaction.EncodeRLP`: the body, unless a clause's value is negative,
which `writeBigInt` refuses. -/
def encodeRLP (t : Transaction) : Except Rlp.Error Bytes :=
  if t.clauses.all (fun c => decide (0 ≤ c.value)) then .ok (bodyCodec.write t) else .error .negativeBigInt

/-- `Transaction.DecodeRLP`: the body, and the size of its list, which it keeps
for `Size`. -/
def decodeRLP : Reader (Transaction × ℕ) := fun b =>
  let size := match streamKind b with
    | .ok (_, _, cs) => cs
    | .error _ => 0
  (bodyCodec.read b).map fun (t, rest) => ((t, listSize size), rest)

theorem encodeRLP_eq_ok {t : Transaction} {b : Bytes} :
    t.encodeRLP = .ok b ↔ (∀ c ∈ t.clauses, 0 ≤ c.value) ∧ bodyCodec.write t = b := by
  unfold encodeRLP
  have hall : t.clauses.all (fun c => decide (0 ≤ c.value)) = true ↔ ∀ c ∈ t.clauses, 0 ≤ c.value := by
    simp
  split_ifs with h
  · constructor
    · intro he
      cases he
      exact ⟨hall.mp h, rfl⟩
    · rintro ⟨-, rfl⟩
      rfl
  · constructor
    · intro he
      cases he
    · rintro ⟨hv, -⟩
      exact absurd (hall.mpr hv) h

/-- The size `DecodeRLP` keeps is the length of the list it read. -/
theorem decodeRLP_size {b rest : Bytes} {t : Transaction} {n : ℕ} (h : decodeRLP b = .ok ((t, n), rest)) :
    bodyCodec.read b = .ok (t, rest) ∧ n + rest.length = b.length := by
  simp only [decodeRLP, Except.map_eq_ok_iff] at h
  obtain ⟨⟨t', rest'⟩, hr, h⟩ := h
  simp only [Prod.mk.injEq] at h
  obtain ⟨⟨rfl, rfl⟩, rfl⟩ := h
  refine ⟨hr, ?_⟩
  simp only [bodyCodec, PrefixCodec.map, struct, Except.map_eq_ok_iff] at hr
  obtain ⟨⟨a, rest''⟩, hl, h⟩ := hr
  simp only [Prod.mk.injEq] at h
  obtain ⟨-, rfl⟩ := h
  obtain ⟨content, hs, -⟩ := splitList_of_readList hl
  obtain ⟨ts, hk⟩ := streamKind_of_splitList hs
  rw [hk]
  simp [splitList_eq_ok hs, listSize_eq_length]

/-- Decoding what `EncodeRLP` wrote gives the transaction back, and its size is
the length of what was written. -/
theorem decodeRLP_encodeRLP {t : Transaction} {b : Bytes} (ht : t.reserved.Trimmed)
    (he : t.encodeRLP = .ok b) (hlen : b.length < 2 ^ 64) (rest : Bytes) :
    decodeRLP (b ++ rest) = .ok ((t, b.length), rest) := by
  obtain ⟨hv, rfl⟩ := encodeRLP_eq_ok.mp he
  have hread := bodyCodec.read_write t rest ((bodyCodec_valid t).mpr ⟨hv, ht⟩) hlen
  cases hd : decodeRLP (bodyCodec.write t ++ rest) with
  | error e => simp [decodeRLP, hread, Except.map] at hd
  | ok p =>
    obtain ⟨⟨t', n⟩, rest'⟩ := p
    obtain ⟨hr, hn⟩ := decodeRLP_size hd
    rw [hread] at hr
    simp only [Except.ok.injEq, Prod.mk.injEq] at hr
    obtain ⟨rfl, rfl⟩ := hr
    simp only [List.length_append] at hn
    rw [show n = (bodyCodec.write t).length by omega]

/-- What `DecodeRLP` accepts is a trimmed body with non-negative values, and it
is what `EncodeRLP` writes of that body, up to a nil pointer read from an
empty list. -/
theorem decodeRLP_sound {b rest : Bytes} {t : Transaction} {n : ℕ} (h : decodeRLP b = .ok ((t, n), rest)) :
    t.reserved.Trimmed ∧ ∃ pre, List.Forall₂ NilByte pre (bodyCodec.write t) ∧ b = pre ++ rest ∧
      t.encodeRLP = .ok (bodyCodec.write t) ∧ n = pre.length := by
  obtain ⟨hr, hn⟩ := decodeRLP_size h
  obtain ⟨hv, pre, hpre, rfl⟩ := bodyCodec.read_sound hr
  obtain ⟨hval, htrim⟩ := (bodyCodec_valid t).mp hv
  refine ⟨htrim, pre, hpre, rfl, encodeRLP_eq_ok.mpr ⟨hval, rfl⟩, ?_⟩
  simp only [List.length_append] at hn
  omega

/-- The wire format of a transaction: what `EncodeRLP` writes of a body with a
trimmed reserved list, `DecodeRLP` reads back whole with its length as the
size; and every input it accepts whole is such a body's encoding, byte for
byte but for a nil pointer read from an empty list. -/
theorem decodeRLP_encodeRLP_up_to_nil :
    (∀ (t : Transaction) (b : Bytes), t.reserved.Trimmed → t.encodeRLP = .ok b → b.length < 2 ^ 64 →
      decodeBytes decodeRLP b = .ok (t, b.length)) ∧
    (∀ (b : Bytes) (t : Transaction) (n : ℕ), decodeBytes decodeRLP b = .ok (t, n) →
      t.reserved.Trimmed ∧ n = b.length ∧ ∃ b', t.encodeRLP = .ok b' ∧ List.Forall₂ NilByte b b') := by
  refine ⟨fun t b ht he hlen => decodeBytes_of_read (decodeRLP_encodeRLP ht he hlen []), fun b t n h => ?_⟩
  obtain ⟨htrim, pre, hpre, hb, he, hn⟩ := decodeRLP_sound (decodeBytes_eq_ok h)
  rw [List.append_nil] at hb
  subst hb
  exact ⟨htrim, hn, _, he, hpre⟩

theorem decodeRLP_encodeRLP_up_to_nil_small :
    decodeBytes decodeRLP [0xCA, 0x80, 0x80, 0x80, 0xC0, 0x80, 0x80, 0x80, 0x80, 0xC0, 0x80] =
        .ok (⟨0, 0, 0, [], 0, 0, none, 0, ⟨0, []⟩, []⟩, 11) ∧
      ∃ b', (⟨0, 0, 0, [⟨none, 0, []⟩], 0, 0, none, 0, ⟨0, []⟩, []⟩ : Transaction).encodeRLP = .ok b' ∧
        List.Forall₂ NilByte
          [0xCE, 0x80, 0x80, 0x80, 0xC4, 0xC3, 0xC0, 0x80, 0x80, 0x80, 0x80, 0x80, 0x80, 0xC0, 0x80] b' :=
  ⟨decodeRLP_encodeRLP_up_to_nil.1 _ _ (by decide) rfl (by decide),
    (decodeRLP_encodeRLP_up_to_nil.2 _ _ 15 rfl).2.2⟩

/-- Two inputs the format is not a bijection on: a nil `To` arrives as the
empty list `0xC0` and is written back as the empty string `0x80`; and an
unused reserved value made of two values is read back as two. -/
theorem decodeRLP_accepts_nil_list :
    decodeBytes decodeRLP [0xCE, 0x80, 0x80, 0x80, 0xC4, 0xC3, 0xC0, 0x80, 0x80, 0x80, 0x80, 0x80, 0x80, 0xC0, 0x80] =
        .ok (⟨0, 0, 0, [⟨none, 0, []⟩], 0, 0, none, 0, ⟨0, []⟩, []⟩, 15) ∧
      (⟨0, 0, 0, [⟨none, 0, []⟩], 0, 0, none, 0, ⟨0, []⟩, []⟩ : Transaction).encodeRLP =
        .ok [0xCE, 0x80, 0x80, 0x80, 0xC4, 0xC3, 0x80, 0x80, 0x80, 0x80, 0x80, 0x80, 0x80, 0xC0, 0x80] ∧
      (⟨0, 0, 0, [], 0, 0, none, 0, ⟨1, [[0x01, 0x02]]⟩, []⟩ : Transaction).encodeRLP =
        .ok [0xCD, 0x80, 0x80, 0x80, 0xC0, 0x80, 0x80, 0x80, 0x80, 0xC3, 0x01, 0x01, 0x02, 0x80] ∧
      decodeBytes decodeRLP [0xCD, 0x80, 0x80, 0x80, 0xC0, 0x80, 0x80, 0x80, 0x80, 0xC3, 0x01, 0x01, 0x02, 0x80] =
        .ok (⟨0, 0, 0, [], 0, 0, none, 0, ⟨1, [[0x01], [0x02]]⟩, []⟩, 14) :=
  ⟨rfl, rfl, rfl, rfl⟩

end Transaction

end Workshare
