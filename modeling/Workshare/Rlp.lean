import Mathlib

/-!
# Recursive length prefix

The reading side follows the vendored `rlp.Split` family: `readKind` reads a
header, rejects non-canonical sizes and values longer than their input, and
`split` cuts the first value off. The writing side is the canonical encoding of
strings, unsigned integers and lists that the low-level encoder produces:
`putint` is the shortest big-endian form, `head` the string or list header.
The reading side reads the writing side back: `split` of an encoding gives
its content and what follows it.
-/
namespace Rlp

inductive Kind
  | byte
  | string
  | list
  deriving DecidableEq, Repr

inductive Error
  | unexpectedEOF
  | canonSize
  | valueTooLarge
  | expectedString
  | expectedList
  | canonInt
  | uintOverflow
  | invalidBool
  | tooFewElements
  | tooManyElements
  | moreThanOneValue
  | negativeBigInt
  | inputStringTooLong
  | inputStringTooShort
  /-- An error a type's own `DecodeRLP` returns, with its text. -/
  | other (msg : String)
  deriving DecidableEq, Repr

/-- The big-endian value of a byte string. -/
def beNat (b : List UInt8) : ℕ :=
  b.foldl (fun acc x => acc * 256 + x.toNat) 0

/-- `readSize`: a size of `slen` bytes that must need all of them and be at least 56. -/
def readSize (b : List UInt8) (slen : ℕ) : Except Error ℕ :=
  if b.length < slen then .error .unexpectedEOF
  else
    let s := beNat (b.take slen)
    if s < 56 ∨ b.head? = some 0 then .error .canonSize else .ok s

/-- `readKind`: the kind, header size and content size of the first value. -/
def readKind : List UInt8 → Except Error (Kind × ℕ × ℕ)
  | [] => .error .unexpectedEOF
  | b :: rest =>
    let header : Except Error (Kind × ℕ × ℕ) :=
      if b < 0x80 then .ok (.byte, 0, 1)
      else if b < 0xB8 then
        if (b - 0x80).toNat = 1 ∧ rest.head?.any (· < 128) then .error .canonSize
        else .ok (.string, 1, (b - 0x80).toNat)
      else if b < 0xC0 then
        (readSize rest (b - 0xB7).toNat).map fun cs => (.string, (b - 0xB7).toNat + 1, cs)
      else if b < 0xF8 then .ok (.list, 1, (b - 0xC0).toNat)
      else (readSize rest (b - 0xF7).toNat).map fun cs => (.list, (b - 0xF7).toNat + 1, cs)
    header.bind fun (k, ts, cs) =>
      if cs > rest.length + 1 - ts then .error .valueTooLarge else .ok (k, ts, cs)

/-- `Split`: the kind and content of the first value, and the bytes after it. -/
def split (b : List UInt8) : Except Error (Kind × List UInt8 × List UInt8) :=
  (readKind b).map fun (k, ts, cs) => (k, (b.drop ts).take cs, b.drop (ts + cs))

/-- `SplitString`. -/
def splitString (b : List UInt8) : Except Error (List UInt8 × List UInt8) :=
  (split b).bind fun (k, content, rest) =>
    if k = .list then .error .expectedString else .ok (content, rest)

/-- `SplitList`. -/
def splitList (b : List UInt8) : Except Error (List UInt8 × List UInt8) :=
  (split b).bind fun (k, content, rest) =>
    if k = .list then .ok (content, rest) else .error .expectedList

/-- The loop of `CountValues`: the number of values the input holds, one value
consumed a step (each has at least one byte). -/
def countValuesAux : ℕ → List UInt8 → Except Error ℕ
  | 0, _ => .ok 0
  | _, [] => .ok 0
  | fuel + 1, b =>
    (readKind b).bind fun (_, ts, cs) => (countValuesAux fuel (b.drop (ts + cs))).map (· + 1)

/-- `CountValues`. -/
def countValues (b : List UInt8) : Except Error ℕ := countValuesAux b.length b

/-- The loop of `putint`: the bytes of `i` before `acc`, lowest first; the
fuel outlasts the bytes of any number below it. -/
def putintAux : ℕ → ℕ → List UInt8 → List UInt8
  | 0, _, acc => acc
  | fuel + 1, i, acc =>
    if i < 256 then i.toUInt8 :: acc else putintAux fuel (i / 256) ((i % 256).toUInt8 :: acc)

/-- `putint`: the shortest big-endian bytes of a number, one byte for zero. -/
def putint (i : ℕ) : List UInt8 := putintAux (i + 1) i []

/-- `puthead`: a string or list header for content of `size` bytes. -/
def head (smalltag largetag : UInt8) (size : ℕ) : List UInt8 :=
  if size < 56 then [smalltag + size.toUInt8]
  else (largetag + (putint size).length.toUInt8) :: putint size

/-- `EncodeString`: a single byte below `0x80` is its own encoding. -/
def encodeString (b : List UInt8) : List UInt8 :=
  match b with
  | [x] => if x ≤ 0x7F then [x] else head 0x80 0xB7 1 ++ b
  | _ => head 0x80 0xB7 b.length ++ b

/-- `EncodeUint`. -/
def encodeUint (i : ℕ) : List UInt8 :=
  if i = 0 then [0x80] else if i < 128 then [i.toUInt8] else (0x80 + (putint i).length.toUInt8) :: putint i

/-- A list whose items are already encoded. -/
def encodeList (items : List UInt8) : List UInt8 :=
  head 0xC0 0xF7 items.length ++ items

/-! ### Reading back what was written

Every value shorter than `2 ^ 64` bytes, the most a `uint64` size can state,
reads back as itself. -/

theorem beNat_append_single (b : List UInt8) (x : UInt8) : beNat (b ++ [x]) = beNat b * 256 + x.toNat := by
  simp [beNat, List.foldl_append]

/-- What `putint` produces before its accumulator: the big-endian digits of
the number, without a leading zero, as few as the number needs. -/
theorem putintAux_spec : ∀ (fuel i : ℕ) (acc : List UInt8), i < 256 ^ (fuel + 1) →
    ∃ bs, putintAux (fuel + 1) i acc = bs ++ acc ∧ beNat bs = i ∧ bs ≠ [] ∧
      (i ≠ 0 → bs.head? ≠ some 0) ∧ ∀ n, 0 < n → i < 256 ^ n → bs.length ≤ n
  | fuel, i, acc, hi => by
    by_cases hs : i < 256
    · refine ⟨[i.toUInt8], by simp [putintAux, hs], ?_, by simp, ?_, ?_⟩
      · simp [beNat]; omega
      · intro h0 h
        simp only [List.head?_cons, Option.some.injEq] at h
        have := congrArg UInt8.toNat h
        simp at this
        omega
      · intro n hn _
        simpa using Nat.one_le_iff_ne_zero.mpr (Nat.pos_iff_ne_zero.mp hn)
    · cases fuel with
      | zero => simp at hi; omega
      | succ fuel =>
        have hq : i / 256 < 256 ^ (fuel + 1) := by
          rw [Nat.div_lt_iff_lt_mul (by decide)]
          simpa [Nat.pow_succ] using hi
        obtain ⟨bs, heq, hval, hne, hhead, hlen⟩ := putintAux_spec fuel (i / 256) ((i % 256).toUInt8 :: acc) hq
        refine ⟨bs ++ [(i % 256).toUInt8], ?_, ?_, by simp, ?_, ?_⟩
        · rw [putintAux, if_neg hs, heq]
          simp
        · rw [beNat_append_single, hval]
          simp
          omega
        · intro _
          obtain ⟨x, bs', rfl⟩ := List.exists_cons_of_ne_nil hne
          simpa using hhead (by omega)
        · intro n hn hin
          have h2 : 2 ≤ n := by
            by_contra h
            obtain rfl : n = 1 := by omega
            simp at hin
            omega
          have := hlen (n - 1) (by omega) (by
            rw [Nat.div_lt_iff_lt_mul (by decide)]
            rw [← Nat.pow_succ, Nat.succ_eq_add_one, Nat.sub_add_cancel (by omega)]
            exact hin)
          simp
          omega

theorem putint_spec (i : ℕ) :
    beNat (putint i) = i ∧ putint i ≠ [] ∧ (i ≠ 0 → (putint i).head? ≠ some 0) ∧
      ∀ n, 0 < n → i < 256 ^ n → (putint i).length ≤ n := by
  have hi : i < 256 ^ (i + 1) :=
    calc i < 256 ^ i := Nat.lt_pow_self (by decide)
      _ ≤ 256 ^ (i + 1) := Nat.pow_le_pow_right (by decide) (Nat.le_succ i)
  obtain ⟨bs, heq, hval, hne, hhead, hlen⟩ := putintAux_spec i i [] hi
  rw [putint, heq, List.append_nil]
  exact ⟨hval, hne, hhead, hlen⟩


theorem putint_length_le {i : ℕ} (hi : i < 2 ^ 64) : (putint i).length ≤ 8 :=
  (putint_spec i).2.2.2 8 (by decide) (by simpa using hi)

theorem putint_length_pos (i : ℕ) : 0 < (putint i).length :=
  List.length_pos_iff.mpr (putint_spec i).2.1

/-- `readSize` reads back the size `putint` wrote for a long value. -/
theorem readSize_putint {size : ℕ} (hs : 56 ≤ size) (rest : List UInt8) :
    readSize (putint size ++ rest) (putint size).length = .ok size := by
  obtain ⟨hval, hne, hhead, -⟩ := putint_spec size
  obtain ⟨x, p, hp⟩ := List.exists_cons_of_ne_nil hne
  have hx : x ≠ 0 := fun h => hhead (by omega) (by rw [hp, h]; rfl)
  have hnot : ¬ (size < 56 ∨ (putint size ++ rest).head? = some 0) := by
    rw [hp]
    simp [hx]
    omega
  have hlen : ¬ (putint size).length + rest.length < (putint size).length := by omega
  simp only [readSize, List.length_append, List.take_left, hnot, hlen, if_false, hval]

theorem readKind_string_short {size : ℕ} (hs : size < 56) (rest : List UInt8) (hr : size ≤ rest.length)
    (hcanon : size = 1 → ∀ x, rest.head? = some x → ¬ x < 128) :
    readKind (head 0x80 0xB7 size ++ rest) = .ok (.string, 1, size) := by
  have hb : ((0x80 : UInt8) + size.toUInt8).toNat = 128 + size := by
    simp [UInt8.toNat_add]
    omega
  have h1 : ¬ ((0x80 : UInt8) + size.toUInt8) < 0x80 := by
    rw [UInt8.lt_iff_toNat_lt, hb]; simp
  have h2 : ((0x80 : UInt8) + size.toUInt8) < 0xB8 := by
    rw [UInt8.lt_iff_toNat_lt, hb]; simp; omega
  have h3 : (((0x80 : UInt8) + size.toUInt8) - 0x80).toNat = size := by
    simp [UInt8.toNat_add, UInt8.toNat_sub]
    omega
  have h4 : ¬ (size = 1 ∧ Option.any (fun x => decide (x < 128)) rest.head? = true) := by
    rintro ⟨rfl, hany⟩
    cases hh : rest.head? with
    | none => simp [hh] at hany
    | some x => simp [hh] at hany; exact hcanon rfl x hh hany
  simp only [head, hs, if_true, List.singleton_append, readKind, h1, h2, if_true, if_false, h3]
  rw [if_neg h4]
  simpa [Except.bind] using hr

theorem readKind_string_long {size : ℕ} (hs : 56 ≤ size) (hs64 : size < 2 ^ 64) (rest : List UInt8)
    (hr : size ≤ rest.length) :
    readKind (head 0x80 0xB7 size ++ rest) = .ok (.string, (putint size).length + 1, size) := by
  have hL := putint_length_le hs64
  have hL0 := putint_length_pos size
  have hb : ((0xB7 : UInt8) + (putint size).length.toUInt8).toNat = 183 + (putint size).length := by
    simp [UInt8.toNat_add]
    omega
  have h1 : ¬ ((0xB7 : UInt8) + (putint size).length.toUInt8) < 0x80 := by
    rw [UInt8.lt_iff_toNat_lt, hb]; simp; omega
  have h2 : ¬ ((0xB7 : UInt8) + (putint size).length.toUInt8) < 0xB8 := by
    rw [UInt8.lt_iff_toNat_lt, hb]; simp; omega
  have h3 : ((0xB7 : UInt8) + (putint size).length.toUInt8) < 0xC0 := by
    rw [UInt8.lt_iff_toNat_lt, hb]; simp; omega
  have h4 : (((0xB7 : UInt8) + (putint size).length.toUInt8) - 0xB7).toNat = (putint size).length := by
    simp [UInt8.toNat_add, UInt8.toNat_sub]
    omega
  have hns : ¬ size < 56 := by omega
  simp only [head, hns, if_false, List.cons_append, readKind, h1, h2, h3, if_true, if_false, h4,
    readSize_putint hs]
  simpa [Except.map, Except.bind] using hr

theorem readKind_list_short {size : ℕ} (hs : size < 56) (rest : List UInt8) (hr : size ≤ rest.length) :
    readKind (head 0xC0 0xF7 size ++ rest) = .ok (.list, 1, size) := by
  have hb : ((0xC0 : UInt8) + size.toUInt8).toNat = 192 + size := by
    simp [UInt8.toNat_add]
    omega
  have h1 : ¬ ((0xC0 : UInt8) + size.toUInt8) < 0x80 := by
    rw [UInt8.lt_iff_toNat_lt, hb]; simp; omega
  have h2 : ¬ ((0xC0 : UInt8) + size.toUInt8) < 0xB8 := by
    rw [UInt8.lt_iff_toNat_lt, hb]; simp; omega
  have h3 : ¬ ((0xC0 : UInt8) + size.toUInt8) < 0xC0 := by
    rw [UInt8.lt_iff_toNat_lt, hb]; simp
  have h4 : ((0xC0 : UInt8) + size.toUInt8) < 0xF8 := by
    rw [UInt8.lt_iff_toNat_lt, hb]; simp; omega
  have h5 : (((0xC0 : UInt8) + size.toUInt8) - 0xC0).toNat = size := by
    simp [UInt8.toNat_add, UInt8.toNat_sub]
    omega
  simp only [head, hs, if_true, List.singleton_append, readKind, h1, h2, h3, h4, if_true, if_false, h5]
  simpa [Except.bind] using hr

theorem readKind_list_long {size : ℕ} (hs : 56 ≤ size) (hs64 : size < 2 ^ 64) (rest : List UInt8)
    (hr : size ≤ rest.length) :
    readKind (head 0xC0 0xF7 size ++ rest) = .ok (.list, (putint size).length + 1, size) := by
  have hL := putint_length_le hs64
  have hL0 := putint_length_pos size
  have hb : ((0xF7 : UInt8) + (putint size).length.toUInt8).toNat = 247 + (putint size).length := by
    simp [UInt8.toNat_add]
    omega
  have h1 : ¬ ((0xF7 : UInt8) + (putint size).length.toUInt8) < 0x80 := by
    rw [UInt8.lt_iff_toNat_lt, hb]; simp; omega
  have h2 : ¬ ((0xF7 : UInt8) + (putint size).length.toUInt8) < 0xB8 := by
    rw [UInt8.lt_iff_toNat_lt, hb]; simp; omega
  have h3 : ¬ ((0xF7 : UInt8) + (putint size).length.toUInt8) < 0xC0 := by
    rw [UInt8.lt_iff_toNat_lt, hb]; simp; omega
  have h4 : ¬ ((0xF7 : UInt8) + (putint size).length.toUInt8) < 0xF8 := by
    rw [UInt8.lt_iff_toNat_lt, hb]; simp; omega
  have h5 : (((0xF7 : UInt8) + (putint size).length.toUInt8) - 0xF7).toNat = (putint size).length := by
    simp [UInt8.toNat_add, UInt8.toNat_sub]
    omega
  have hns : ¬ size < 56 := by omega
  simp only [head, hns, if_false, List.cons_append, readKind, h1, h2, h3, h4, if_false, h5,
    readSize_putint hs]
  simpa [Except.map, Except.bind] using hr

theorem length_lt_encodeList (items : List UInt8) : items.length < (encodeList items).length := by
  simp only [encodeList, head, List.length_append]
  split <;> simp

theorem length_le_encodeString (b : List UInt8) : b.length ≤ (encodeString b).length := by
  unfold encodeString
  split
  · split <;> simp
  · simp

theorem encodeList_ne_nil (items : List UInt8) : encodeList items ≠ [] :=
  List.ne_nil_of_length_pos (Nat.lt_of_le_of_lt (Nat.zero_le _) (length_lt_encodeList items))

theorem encodeString_ne_nil (b : List UInt8) : encodeString b ≠ [] := by
  unfold encodeString head
  split
  · split <;> simp
  · split <;> simp

/-- `e` is one encoded value of kind `k` with content `c`: a header, then the
content, and `readKind` reads both back whatever follows. -/
def Item (k : Kind) (c e : List UInt8) : Prop :=
  ∃ h, e = h ++ c ∧ ∀ rest, readKind (e ++ rest) = .ok (k, h.length, c.length)

theorem Item.split {k : Kind} {c e : List UInt8} (he : Item k c e) (rest : List UInt8) :
    split (e ++ rest) = .ok (k, c, rest) := by
  obtain ⟨h, rfl, hk⟩ := he
  have hr := hk rest
  rw [List.append_assoc] at hr
  simp [Rlp.split, hr, Except.map]

theorem Item.ne_nil {k : Kind} {c e : List UInt8} (he : Item k c e) : e ≠ [] := by
  rintro rfl
  obtain ⟨h, -, hk⟩ := he
  have := hk []
  simp [readKind] at this

theorem item_head_string {b : List UInt8} (hb : b.length < 2 ^ 64) (hcanon : b.length = 1 → ∀ x, b.head? = some x → ¬ x < 128) :
    Item .string b (head 0x80 0xB7 b.length ++ b) := by
  refine ⟨head 0x80 0xB7 b.length, rfl, fun rest => ?_⟩
  rw [List.append_assoc]
  by_cases hs : b.length < 56
  · rw [readKind_string_short hs _ (by simp)]
    · simp [head, hs]
    · intro h1 x hx
      apply hcanon h1 x
      obtain ⟨y, rfl⟩ := List.length_eq_one_iff.mp h1
      simpa using hx
  · rw [readKind_string_long (by omega) hb _ (by simp)]
    simp [head, hs]

theorem item_encodeString {b : List UInt8} (hb : b.length < 2 ^ 64) :
    ∃ k, k ≠ .list ∧ Item k b (encodeString b) := by
  match b, hb with
  | [x], _ =>
    by_cases hx : x ≤ 0x7F
    · have hlt : x < 0x80 := by
        rw [UInt8.le_iff_toNat_le] at hx
        rw [UInt8.lt_iff_toNat_lt]
        simp at hx ⊢
        omega
      refine ⟨.byte, by decide, [], by simp [encodeString, hx], fun rest => ?_⟩
      simp [encodeString, hx, readKind, hlt, Except.bind]
    · refine ⟨.string, by decide, ?_⟩
      have := item_head_string (b := [x]) (by simp) (fun _ y hy => ?_)
      · simpa [encodeString, hx] using this
      · simp only [List.head?_cons, Option.some.injEq] at hy
        subst hy
        rw [UInt8.le_iff_toNat_le] at hx
        rw [UInt8.lt_iff_toNat_lt]
        simp at hx ⊢
        omega
  | [], hb => exact ⟨.string, by decide, item_head_string hb (by simp)⟩
  | x :: y :: b, hb => exact ⟨.string, by decide, item_head_string hb (by simp)⟩

theorem item_encodeList {items : List UInt8} (hb : items.length < 2 ^ 64) :
    Item .list items (encodeList items) := by
  refine ⟨head 0xC0 0xF7 items.length, rfl, fun rest => ?_⟩
  rw [encodeList, List.append_assoc]
  by_cases hs : items.length < 56
  · rw [readKind_list_short hs _ (by simp)]
    simp [head, hs]
  · rw [readKind_list_long (by omega) hb _ (by simp)]
    simp [head, hs]

theorem splitString_encodeString {b : List UInt8} (hb : b.length < 2 ^ 64) (rest : List UInt8) :
    splitString (encodeString b ++ rest) = .ok (b, rest) := by
  obtain ⟨k, hk, he⟩ := item_encodeString hb
  simp [splitString, he.split, hk, Except.bind]

theorem splitList_encodeList {items : List UInt8} (hb : items.length < 2 ^ 64) (rest : List UInt8) :
    splitList (encodeList items ++ rest) = .ok (items, rest) := by
  simp [splitList, (item_encodeList hb).split, Except.bind]

/-- Lists of fewer than `2 ^ 64` bytes are written differently. -/
theorem encodeList_inj {a b : List UInt8} (ha : a.length < 2 ^ 64) (hb : b.length < 2 ^ 64)
    (h : encodeList a = encodeList b) : a = b := by
  have hs := splitList_encodeList ha []
  rw [h, splitList_encodeList hb] at hs
  exact (Prod.mk.inj (Except.ok.inj hs)).1.symm

/-- `CountValues` over encoded values laid end to end counts them. -/
theorem countValuesAux_flatten : ∀ (es : List (List UInt8)) (fuel : ℕ), (∀ e ∈ es, ∃ k c, Item k c e) →
    es.length ≤ fuel → countValuesAux fuel es.flatten = .ok es.length
  | [], fuel, _, _ => by cases fuel <;> rfl
  | e :: es, fuel, hes, hlen => by
    obtain ⟨k, c, he⟩ := hes e List.mem_cons_self
    obtain ⟨f, rfl⟩ : ∃ f, fuel = f + 1 := ⟨fuel - 1, by simp at hlen; omega⟩
    have ih := countValuesAux_flatten es f (fun e' he' => hes e' (List.mem_cons_of_mem _ he')) (by simpa using hlen)
    obtain ⟨x, t, hxt⟩ := List.exists_cons_of_ne_nil (List.append_ne_nil_of_left_ne_nil he.ne_nil es.flatten)
    obtain ⟨h, rfl, hk⟩ := he
    have hrk := hk es.flatten
    rw [List.flatten_cons, hxt]
    simp only [countValuesAux]
    rw [← hxt, hrk]
    simp only [Except.bind]
    rw [List.drop_left' (by simp), ih]
    rfl

theorem countValues_flatten (es : List (List UInt8)) (hes : ∀ e ∈ es, ∃ k c, Item k c e) :
    countValues es.flatten = .ok es.length := by
  apply countValuesAux_flatten es _ hes
  -- every value takes at least one byte
  induction es with
  | nil => simp
  | cons e es ih =>
    obtain ⟨k, c, he⟩ := hes e List.mem_cons_self
    have := List.length_pos_iff.mpr he.ne_nil
    simp only [List.length_cons, List.flatten_cons, List.length_append]
    have := ih (fun e' he' => hes e' (List.mem_cons_of_mem _ he'))
    omega

theorem length_head_le {a b : UInt8} {n : ℕ} (h : n < 2 ^ 64) : (head a b n).length ≤ 9 := by
  unfold head
  split
  · simp
  · have := putint_length_le h
    simp
    omega

theorem length_encodeString_le {b : List UInt8} (h : b.length < 2 ^ 64) : (encodeString b).length ≤ b.length + 9 := by
  unfold encodeString
  split
  · split
    · simp
    · have := length_head_le (a := 0x80) (b := 0xB7) (n := 1) (by decide)
      simp only [List.length_append] at *
      omega
  · have := length_head_le (a := 0x80) (b := 0xB7) h
    simp only [List.length_append]
    omega

theorem length_encodeList_le {items : List UInt8} (h : items.length < 2 ^ 64) :
    (encodeList items).length ≤ items.length + 9 := by
  have := length_head_le (a := 0xC0) (b := 0xF7) h
  simp only [encodeList, List.length_append]
  omega

/-! ### Writing back what was read

The reading side accepts only headers in their shortest form, so a value it
splits off is the encoding of its content. -/

theorem foldl_beNat (acc : ℕ) (l : List UInt8) :
    l.foldl (fun acc x => acc * 256 + x.toNat) acc = acc * 256 ^ l.length + beNat l := by
  induction l generalizing acc with
  | nil => simp [beNat]
  | cons x l ih =>
    simp only [beNat, List.foldl_cons] at ih ⊢
    rw [ih, ih (0 * 256 + x.toNat), List.length_cons, Nat.pow_succ', Nat.add_mul, Nat.mul_assoc,
      Nat.zero_mul, Nat.zero_add]
    omega

theorem beNat_cons (x : UInt8) (l : List UInt8) : beNat (x :: l) = x.toNat * 256 ^ l.length + beNat l := by
  have h := foldl_beNat (0 * 256 + x.toNat) l
  simpa [beNat] using h

theorem beNat_lt (l : List UInt8) : beNat l < 256 ^ l.length := by
  induction l with
  | nil => simp [beNat]
  | cons x l ih =>
    rw [beNat_cons, List.length_cons, Nat.pow_succ]
    have hx := x.toNat_lt
    have hmul : x.toNat * 256 ^ l.length + 256 ^ l.length ≤ 255 * 256 ^ l.length + 256 ^ l.length :=
      Nat.add_le_add_right (Nat.mul_le_mul_right _ (by omega)) _
    omega

/-- A byte string with no leading zero byte needs all its bytes. -/
theorem pow_le_beNat {x : UInt8} {l : List UInt8} (hx : x ≠ 0) : 256 ^ l.length ≤ beNat (x :: l) := by
  rw [beNat_cons]
  have : 1 ≤ x.toNat := by
    rcases Nat.eq_zero_or_pos x.toNat with h | h
    · exact absurd (UInt8.toNat_inj.mp (by simpa using h)) hx
    · exact h
  calc 256 ^ l.length = 1 * 256 ^ l.length := (Nat.one_mul _).symm
    _ ≤ x.toNat * 256 ^ l.length := Nat.mul_le_mul_right _ this
    _ ≤ _ := Nat.le_add_right _ _

theorem eq_of_beNat_eq_of_length_eq : ∀ {l₁ l₂ : List UInt8}, l₁.length = l₂.length →
    beNat l₁ = beNat l₂ → l₁ = l₂
  | [], [], _, _ => rfl
  | x :: l₁, y :: l₂, hlen, h => by
    have hl : l₁.length = l₂.length := by simpa using hlen
    rw [beNat_cons, beNat_cons, hl] at h
    have h₁ := beNat_lt l₁
    have h₂ := beNat_lt l₂
    rw [hl] at h₁
    have hP : 0 < 256 ^ l₂.length := Nat.pow_pos (by decide)
    -- the leading byte is the quotient by the weight of the others
    have hxy : x.toNat = y.toNat := by
      have hq := congrArg (· / 256 ^ l₂.length) h
      simp only [Nat.add_comm (x.toNat * _), Nat.add_comm (y.toNat * _),
        Nat.add_mul_div_right _ _ hP, Nat.div_eq_of_lt h₁, Nat.div_eq_of_lt h₂] at hq
      omega
    rw [hxy] at h
    rw [UInt8.toNat_inj.mp hxy, eq_of_beNat_eq_of_length_eq hl (by omega)]

/-- Two byte strings with no leading zero byte and the same value are equal. -/
theorem eq_of_beNat_eq {l₁ l₂ : List UInt8} (h₁ : l₁.head? ≠ some 0) (h₂ : l₂.head? ≠ some 0)
    (h : beNat l₁ = beNat l₂) : l₁ = l₂ := by
  apply eq_of_beNat_eq_of_length_eq _ h
  -- a canonical string's length is fixed by its value
  have hbound : ∀ {l l' : List UInt8}, l'.head? ≠ some 0 → beNat l = beNat l' → l.length < l'.length → False := by
    intro l l' hl' hv hlt
    obtain ⟨y, l'', rfl⟩ := List.exists_cons_of_length_pos (Nat.lt_of_le_of_lt (Nat.zero_le _) hlt)
    have hy : y ≠ 0 := fun hy => hl' (by simp [hy])
    have hlow := pow_le_beNat (l := l'') hy
    have hhigh := beNat_lt l
    have hpow : 256 ^ l.length ≤ 256 ^ l''.length :=
      Nat.pow_le_pow_right (by decide) (by simp at hlt; omega)
    omega
  rcases Nat.lt_trichotomy l₁.length l₂.length with hlt | heq | hgt
  · exact (hbound h₂ h hlt).elim
  · exact heq
  · exact (hbound h₁ h.symm hgt).elim

theorem putint_beNat {l : List UInt8} (hne : l ≠ []) (hhead : l.head? ≠ some 0) : putint (beNat l) = l := by
  obtain ⟨x, l', rfl⟩ := List.exists_cons_of_ne_nil hne
  have hx : x ≠ 0 := fun hx => hhead (by simp [hx])
  have hpos : beNat (x :: l') ≠ 0 := by
    have := pow_le_beNat (l := l') hx
    have : 0 < 256 ^ l'.length := Nat.pow_pos (by decide)
    omega
  obtain ⟨hval, -, hh, -⟩ := putint_spec (beNat (x :: l'))
  exact eq_of_beNat_eq (hh hpos) hhead hval

theorem encodeString_of_length_ne_one {b : List UInt8} (h : b.length ≠ 1) :
    encodeString b = head 0x80 0xB7 b.length ++ b := by
  unfold encodeString
  split
  · simp at h
  · rfl

theorem eq_add_of_sub {x t : UInt8} {n : ℕ} (h : (x - t).toNat = n) : x = t + n.toUInt8 := by
  have hn : n.toUInt8 = x - t := by
    rw [← h]
    simp
  rw [hn]
  grind

/-- A long header's size, read back by `readSize`, is written by `putint` in as
many bytes as the header gave it. -/
theorem head_of_readSize {r : List UInt8} {slen size : ℕ} {x smalltag largetag : UInt8}
    (hx : (x - largetag).toNat = slen) (hslen : 0 < slen) (h : readSize r slen = .ok size) :
    56 ≤ size ∧ x :: r.take slen = head smalltag largetag size := by
  unfold readSize at h
  split at h
  · cases h
  · rename_i hlen
    dsimp only at h
    split at h
    · cases h
    · rename_i hcanon
      cases h
      have hne : r.take slen ≠ [] := by
        simpa [List.take_eq_nil_iff] using ⟨by omega, fun h => by simp [h] at hlen; omega⟩
      have hhead : (r.take slen).head? ≠ some 0 := by
        rw [List.head?_take, if_neg (by omega)]
        exact fun h => hcanon (.inr h)
      have hbig : 56 ≤ beNat (r.take slen) := by
        by_contra hlt
        exact hcanon (.inl (by omega))
      refine ⟨hbig, ?_⟩
      rw [head, if_neg (by omega), putint_beNat hne hhead, List.length_take_of_le (by omega)]
      rw [eq_add_of_sub hx]

/-- The header `readKind` accepted, with the content after it, is the encoding
of that content. -/
theorem readKind_eq_ok {x : UInt8} {r : List UInt8} {k : Kind} {ts cs : ℕ}
    (h : readKind (x :: r) = .ok (k, ts, cs)) :
    (x :: r).take ts ++ ((x :: r).drop ts).take cs =
      (if k = .list then encodeList else encodeString) (((x :: r).drop ts).take cs) := by
  unfold readKind at h
  by_cases h1 : x < 0x80
  · -- a single byte is its own encoding
    simp only [h1, if_true, Except.bind] at h
    split at h
    · cases h
    · cases h
      have hx : x ≤ 0x7F := by
        rw [UInt8.lt_iff_toNat_lt] at h1
        rw [UInt8.le_iff_toNat_le]
        simp at h1 ⊢
        omega
      simp [encodeString, hx]
  by_cases h2 : x < 0xB8
  · -- a short string: one byte below `0x80` must stand alone
    simp only [h1, h2, if_true, if_false, Except.bind] at h
    by_cases hc : (x - 128).toNat = 1 ∧ Option.any (fun x => decide (x < 128)) r.head? = true
    · rw [if_pos hc] at h
      cases h
    rw [if_neg hc] at h
    dsimp only at h
    split at h
    · cases h
    rename_i hfit
    cases h
    have hsmall : (x - 128).toNat < 56 := by
      rw [UInt8.lt_iff_toNat_lt] at h1 h2
      simp [UInt8.toNat_sub] at h1 h2 ⊢
      omega
    have hlen : (r.take (x - 128).toNat).length = (x - 128).toNat := List.length_take_of_le (by omega)
    simp only [List.take_succ_cons, List.take_zero, List.drop_succ_cons, List.drop_zero,
      if_neg (by decide : Kind.string ≠ Kind.list), List.singleton_append]
    by_cases h1n : (x - 128).toNat = 1
    · obtain ⟨y, r', rfl⟩ := List.exists_cons_of_length_pos (show 0 < r.length by omega)
      have hy : ¬ y ≤ 0x7F := by
        intro hy
        apply hc ⟨h1n, _⟩
        rw [UInt8.le_iff_toNat_le] at hy
        simp [UInt8.lt_iff_toNat_lt]
        simp at hy
        omega
      rw [h1n, eq_add_of_sub h1n]
      simp [encodeString, hy, head]
    · rw [encodeString_of_length_ne_one (by omega), hlen, head, if_pos hsmall, ← eq_add_of_sub rfl]
      rfl
  by_cases h3 : x < 0xC0
  · -- a long string: its size in the fewest bytes, and at least 56
    simp only [h1, h2, h3, if_true, if_false, Except.bind] at h
    cases hs : readSize r (x - 183).toNat with
    | error e => simp [hs, Except.map] at h
    | ok size =>
      simp only [hs, Except.map] at h
      split at h
      · cases h
      rename_i hfit
      cases h
      have hslen : 0 < (x - 183).toNat := by
        rw [UInt8.lt_iff_toNat_lt] at h2 h3
        simp [UInt8.toNat_sub] at h2 h3 ⊢
        omega
      obtain ⟨hbig, hhead⟩ := @head_of_readSize r _ _ x 0x80 _ rfl hslen hs
      have hlen : ((r.drop (x - 183).toNat).take cs).length = cs :=
        List.length_take_of_le (by simp; omega)
      simp only [List.take_succ_cons, List.drop_succ_cons, if_neg (by decide : Kind.string ≠ Kind.list)]
      rw [encodeString_of_length_ne_one (by omega), hlen, ← hhead, List.cons_append]
  by_cases h4 : x < 0xF8
  · -- a short list
    simp only [h1, h2, h3, h4, if_true, if_false, Except.bind] at h
    split at h
    · cases h
    rename_i hfit
    cases h
    have hsmall : (x - 192).toNat < 56 := by
      rw [UInt8.lt_iff_toNat_lt] at h3 h4
      simp [UInt8.toNat_sub] at h3 h4 ⊢
      omega
    have hlen : (r.take (x - 192).toNat).length = (x - 192).toNat := List.length_take_of_le (by omega)
    simp only [List.take_succ_cons, List.take_zero, List.drop_succ_cons, List.drop_zero, if_true,
      List.singleton_append, encodeList]
    rw [hlen, head, if_pos hsmall, ← eq_add_of_sub rfl]
    rfl
  · -- a long list
    simp only [h1, h2, h3, h4, if_false, Except.bind] at h
    cases hs : readSize r (x - 247).toNat with
    | error e => simp [hs, Except.map] at h
    | ok size =>
      simp only [hs, Except.map] at h
      split at h
      · cases h
      rename_i hfit
      cases h
      have hslen : 0 < (x - 247).toNat := by
        have hlt := UInt8.toNat_lt x
        rw [UInt8.lt_iff_toNat_lt] at h4
        simp [UInt8.toNat_sub] at h4 ⊢
        omega
      obtain ⟨hbig, hhead⟩ := @head_of_readSize r _ _ x 0xC0 _ rfl hslen hs
      have hlen : ((r.drop (x - 247).toNat).take cs).length = cs :=
        List.length_take_of_le (by simp; omega)
      simp only [List.take_succ_cons, List.drop_succ_cons, if_true, encodeList]
      rw [hlen, ← hhead, List.cons_append]

/-- A value `split` accepts is the encoding of its content: a header in its
shortest form, or a single byte below `0x80` standing for itself. -/
theorem split_eq_ok {b content rest : List UInt8} {k : Kind} (h : split b = .ok (k, content, rest)) :
    b = (if k = .list then encodeList content else encodeString content) ++ rest := by
  cases hk : readKind b with
  | error e => simp [split, hk, Except.map] at h
  | ok v =>
  obtain ⟨k', ts, cs⟩ := v
  simp only [split, hk, Except.map, Except.ok.injEq, Prod.mk.injEq] at h
  obtain ⟨rfl, rfl, rfl⟩ := h
  cases b with
  | nil => simp [readKind] at hk
  | cons x r =>
    have henc := readKind_eq_ok hk
    have hsplit : x :: r = (x :: r).take ts ++ ((x :: r).drop ts).take cs ++ (x :: r).drop (ts + cs) := by
      rw [List.append_assoc, ← List.drop_drop, List.take_append_drop, List.take_append_drop]
    rw [henc] at hsplit
    split
    · rename_i hl
      rw [if_pos hl] at hsplit
      exact hsplit
    · rename_i hl
      rw [if_neg hl] at hsplit
      exact hsplit

theorem splitString_eq_ok {b content rest : List UInt8} (h : splitString b = .ok (content, rest)) :
    b = encodeString content ++ rest := by
  cases hs : split b with
  | error e => simp [splitString, hs, Except.bind] at h
  | ok v =>
    obtain ⟨k, content', rest'⟩ := v
    by_cases hk : k = .list
    · simp [splitString, hs, hk, Except.bind] at h
    · simp only [splitString, hs, hk, Except.bind, if_false, Except.ok.injEq, Prod.mk.injEq] at h
      obtain ⟨rfl, rfl⟩ := h
      simpa [hk] using split_eq_ok hs

theorem splitList_eq_ok {b content rest : List UInt8} (h : splitList b = .ok (content, rest)) :
    b = encodeList content ++ rest := by
  cases hs : split b with
  | error e => simp [splitList, hs, Except.bind] at h
  | ok v =>
    obtain ⟨k, content', rest'⟩ := v
    by_cases hk : k = .list
    · simp only [splitList, hs, hk, Except.bind, if_true, Except.ok.injEq, Prod.mk.injEq] at h
      obtain ⟨rfl, rfl⟩ := h
      simpa [hk] using split_eq_ok hs
    · simp [splitList, hs, hk, Except.bind] at h

end Rlp
