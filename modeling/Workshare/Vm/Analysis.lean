import Workshare.Basic
import Mathlib

/-!
# The jump-destination bitmap

`codeBitmap` marks the bytes of a contract's code that are the data of a
`PUSH`, one bit a byte, so that `JUMP` can refuse to land inside push data:
`codeSegment` reads a clear bit as an opcode. The bitmap has four bytes of
slack, since the data of a `PUSH32` in the last byte runs past the code.

The data of a `PUSHn` is written `16`, then `8`, then the rest of the bits at
a time, with masks shifted to the position's place in its byte; the byte a
mask spills into is assigned, not or-ed, which is sound because every bit from
the current position on is still clear. Every write lands in the bitmap, and
the bits below the code's length are clear exactly at the opcodes of the
reference walk, which steps over the data of each `PUSH`.
-/
namespace Workshare

namespace Vm

/-- `PUSH1`. -/
def PUSH1 : UInt8 := 0x60

/-- `PUSH32`. -/
def PUSH32 : UInt8 := 0x7f

/-- `set2BitsMask`. -/
def set2BitsMask : UInt16 := 0b11

/-- `set3BitsMask`. -/
def set3BitsMask : UInt16 := 0b111

/-- `set4BitsMask`. -/
def set4BitsMask : UInt16 := 0b1111

/-- `set5BitsMask`. -/
def set5BitsMask : UInt16 := 0b11111

/-- `set6BitsMask`. -/
def set6BitsMask : UInt16 := 0b111111

/-- `set7BitsMask`. -/
def set7BitsMask : UInt16 := 0b1111111

/-- `bitvec`: a bit a byte of code, set where the byte is data of a `PUSH`. -/
abbrev Bitvec := List UInt8

/-- `bits[i] = v`, which panics out of range. -/
def store (bits : Bitvec) (i : ℕ) (v : UInt8) : Option Bitvec :=
  if i < bits.length then some (bits.set i v) else none

/-- `set1`. -/
def set1 (bits : Bitvec) (pos : ℕ) : Option Bitvec := do
  let x ← bits[pos / 8]?
  store bits (pos / 8) (x ||| (1 <<< (pos % 8).toUInt8))

/-- `setN`: the mask shifted to the position; its spill into the next byte is
assigned. -/
def setN (bits : Bitvec) (flag : UInt16) (pos : ℕ) : Option Bitvec := do
  let a := flag <<< (pos % 8).toUInt16
  let x ← bits[pos / 8]?
  let bits ← store bits (pos / 8) (x ||| a.toUInt8)
  let b := (a >>> 8).toUInt8
  if b ≠ 0 then store bits (pos / 8 + 1) b else pure bits

/-- `set8`. -/
def set8 (bits : Bitvec) (pos : ℕ) : Option Bitvec := do
  let a := (0xFF : UInt8) <<< (pos % 8).toUInt8
  let x ← bits[pos / 8]?
  let bits ← store bits (pos / 8) (x ||| a)
  store bits (pos / 8 + 1) (~~~a)

/-- `set16`. -/
def set16 (bits : Bitvec) (pos : ℕ) : Option Bitvec := do
  let a := (0xFF : UInt8) <<< (pos % 8).toUInt8
  let x ← bits[pos / 8]?
  let bits ← store bits (pos / 8) (x ||| a)
  let bits ← store bits (pos / 8 + 1) 0xFF
  store bits (pos / 8 + 2) (~~~a)

/-- `codeSegment`: whether the byte at `pos` is an opcode. -/
def codeSegment (bits : Bitvec) (pos : ℕ) : Option Bool :=
  bits[pos / 8]?.map fun x => (x >>> (pos % 8).toUInt8) &&& 1 == 0

/-- The `numbits >= 16` loop of `codeBitmapInternal`. -/
def set16s (bits : Bitvec) (pc : ℕ) : ℕ → Option (Bitvec × ℕ × ℕ)
  | numbits + 16 => (set16 bits pc).bind fun bits => set16s bits (pc + 16) numbits
  | numbits => some (bits, pc, numbits)

/-- The `numbits >= 8` loop of `codeBitmapInternal`. -/
def set8s (bits : Bitvec) (pc : ℕ) : ℕ → Option (Bitvec × ℕ × ℕ)
  | numbits + 8 => (set8 bits pc).bind fun bits => set8s bits (pc + 8) numbits
  | numbits => some (bits, pc, numbits)

/-- The `switch` on the bits left below `8`. -/
def setRest (bits : Bitvec) (pc : ℕ) : ℕ → Option (Bitvec × ℕ)
  | 1 => (set1 bits pc).map (·, pc + 1)
  | 2 => (setN bits set2BitsMask pc).map (·, pc + 2)
  | 3 => (setN bits set3BitsMask pc).map (·, pc + 3)
  | 4 => (setN bits set4BitsMask pc).map (·, pc + 4)
  | 5 => (setN bits set5BitsMask pc).map (·, pc + 5)
  | 6 => (setN bits set6BitsMask pc).map (·, pc + 6)
  | 7 => (setN bits set7BitsMask pc).map (·, pc + 7)
  | _ => some (bits, pc)

/-- The body of `codeBitmapInternal` after a `PUSH`: its `numbits` bytes of
data from `pc` on, and the position after them. -/
def setData (bits : Bitvec) (pc numbits : ℕ) : Option (Bitvec × ℕ) :=
  let filled : Option (Bitvec × ℕ × ℕ) :=
    if numbits ≥ 8 then (set16s bits pc numbits).bind fun (bits, pc, numbits) => set8s bits pc numbits
    else some (bits, pc, numbits)
  filled.bind fun (bits, pc, numbits) => setRest bits pc numbits

/-- The loop of `codeBitmapInternal`; each turn moves `pc` on, so the code's
length bounds the turns. -/
def codeBitmapLoop (code : Bytes) : ℕ → ℕ → Bitvec → Option Bitvec
  | 0, _, _ => none
  | fuel + 1, pc, bits =>
    match code[pc]? with
    | none => some bits
    | some op =>
      if op < PUSH1 ∨ op > PUSH32 then codeBitmapLoop code fuel (pc + 1) bits
      else
        (setData bits (pc + 1) (op - PUSH1 + 1).toNat).bind fun (bits, pc) => codeBitmapLoop code fuel pc bits

/-- `codeBitmapInternal`. -/
def codeBitmapInternal (code : Bytes) (bits : Bitvec) : Option Bitvec :=
  codeBitmapLoop code (code.length + 1) 0 bits

/-- `codeBitmap`: a bitmap four bytes longer than the code needs. -/
def codeBitmap (code : Bytes) : Option Bitvec :=
  codeBitmapInternal code (List.replicate (code.length / 8 + 1 + 4) 0)

/-! ### The reference walk -/

/-- The bytes of data after an opcode: `n` after `PUSHn`, none after any other. -/
def pushSize (op : UInt8) : ℕ := if PUSH1 ≤ op ∧ op ≤ PUSH32 then (op - PUSH1).toNat + 1 else 0

/-- The reference walk from an opcode at `p`: the next opcode is at
`p + 1 + n` after `PUSHn`, and at `p + 1` after any other. -/
inductive Reaches (code : Bytes) : ℕ → ℕ → Prop
  | refl (p : ℕ) : Reaches code p p
  | step {p q : ℕ} {op : UInt8} (hop : code[p]? = some op) (rest : Reaches code (p + 1 + pushSize op) q) :
      Reaches code p q

theorem Reaches.le {code : Bytes} {p q : ℕ} (h : Reaches code p q) : p ≤ q := by
  induction h with
  | refl => exact Nat.le_refl _
  | step _ _ ih => omega

/-- From an opcode the walk reaches a later position only through the next opcode. -/
theorem reaches_iff {code : Bytes} {p q : ℕ} {op : UInt8} (hop : code[p]? = some op) (hq : q ≠ p) :
    Reaches code p q ↔ Reaches code (p + 1 + pushSize op) q := by
  constructor
  · intro h
    cases h with
    | refl => exact absurd rfl hq
    | step hop' rest =>
      rw [hop] at hop'
      cases hop'
      exact rest
  · exact Reaches.step hop

/-! ### Bits -/

/-- The bit of position `q`, clear beyond the bitmap. -/
def bitAt (bits : Bitvec) (q : ℕ) : Bool := ((bits[q / 8]?).getD 0).toNat.testBit (q % 8)

/-- No position from `pos` on is set. -/
def ClearFrom (bits : Bitvec) (pos : ℕ) : Prop := ∀ q, pos ≤ q → bitAt bits q = false

/-- `bits'` is `bits`, of the same length, with the positions `[pos, pos + w)` set. -/
def Sets (bits bits' : Bitvec) (pos w : ℕ) : Prop :=
  bits'.length = bits.length ∧ ∀ q, bitAt bits' q = (bitAt bits q || decide (pos ≤ q ∧ q < pos + w))

theorem testBit_or (x y : UInt8) (j : ℕ) : (x ||| y).toNat.testBit j = (x.toNat.testBit j || y.toNat.testBit j) := by
  rw [UInt8.toNat_or, Nat.testBit_or]

/-- The masks of the setters, bit by bit, for a position `k` in its byte. -/
theorem testBit_one_shift : ∀ k < 8, ∀ j < 8, ((1 : UInt8) <<< k.toUInt8).toNat.testBit j = decide (j = k) := by
  decide

theorem testBit_high_mask : ∀ k < 8, ∀ j < 8, ((0xFF : UInt8) <<< k.toUInt8).toNat.testBit j = decide (k ≤ j) := by
  decide

theorem testBit_low_mask : ∀ k < 8, ∀ j < 8, (~~~((0xFF : UInt8) <<< k.toUInt8)).toNat.testBit j = decide (j < k) := by
  decide

theorem testBit_flag_low : ∀ n < 8, ∀ k < 8, ∀ j < 8,
    ((((1 : UInt16) <<< n.toUInt16) - 1) <<< k.toUInt16).toUInt8.toNat.testBit j = decide (k ≤ j ∧ j < k + n) := by
  decide

theorem testBit_flag_high : ∀ n < 8, ∀ k < 8, ∀ j < 8,
    (((((1 : UInt16) <<< n.toUInt16) - 1) <<< k.toUInt16) >>> 8).toUInt8.toNat.testBit j = decide (8 + j < k + n) := by
  decide

theorem testBit_ff : ∀ j < 8, (0xFF : UInt8).toNat.testBit j = true := by
  decide

theorem toNat_toUInt8_mod {k : ℕ} (hk : k < 8) : k.toUInt8.toNat % 8 = k := by
  rw [Nat.toUInt8, UInt8.toNat_ofNat_of_lt' (lt_of_lt_of_le hk (by decide))]
  omega

/-- The byte test of `codeSegment` is the bit, negated. -/
theorem codeSegment_byte (x : UInt8) {k : ℕ} (hk : k < 8) : ((x >>> k.toUInt8) &&& 1 == 0) = !x.toNat.testBit k := by
  have h : ((x >>> k.toUInt8) &&& 1).toNat = x.toNat >>> k &&& 1 := by
    rw [UInt8.toNat_and, UInt8.toNat_shiftRight, toNat_toUInt8_mod hk]
    rfl
  rw [Nat.testBit, Bool.eq_iff_iff]
  simp only [beq_iff_eq, Bool.not_eq_true', bne_eq_false_iff_eq]
  rw [← UInt8.toNat_inj, h, UInt8.toNat_zero, Nat.and_comm]

/-- A clear bit reads as an opcode. -/
theorem codeSegment_eq {bits : Bitvec} {pos : ℕ} (h : pos / 8 < bits.length) :
    codeSegment bits pos = some (!bitAt bits pos) := by
  rw [codeSegment, List.getElem?_eq_getElem h, Option.map_some, bitAt, List.getElem?_eq_getElem h, Option.getD_some,
    codeSegment_byte _ (Nat.mod_lt _ (by decide))]

theorem store_eq {bits : Bitvec} {i : ℕ} (v : UInt8) (h : i < bits.length) : store bits i v = some (bits.set i v) := by
  rw [store, if_pos h]

/-- A store changes the bits of its byte only. -/
theorem bitAt_set {bits : Bitvec} {i : ℕ} (v : UInt8) (h : i < bits.length) (q : ℕ) :
    bitAt (bits.set i v) q = if q / 8 = i then v.toNat.testBit (q % 8) else bitAt bits q := by
  unfold bitAt
  by_cases hq : q / 8 = i
  · rw [if_pos hq, hq, List.getElem?_set_self h]
    rfl
  · rw [if_neg hq, List.getElem?_set_ne (Ne.symm hq)]

/-- The bit of a byte that a setter or-ed a mask into. -/
theorem bitAt_or {bits : Bitvec} {q i : ℕ} (h : i < bits.length) (hq : q / 8 = i) (m : UInt8) :
    (bits[i] ||| m).toNat.testBit (q % 8) = (bitAt bits q || m.toNat.testBit (q % 8)) := by
  rw [testBit_or, bitAt, hq, List.getElem?_eq_getElem h, Option.getD_some]

theorem Sets.trans {b b₁ b₂ : Bitvec} {pos w₁ w₂ : ℕ} (h₁ : Sets b b₁ pos w₁) (h₂ : Sets b₁ b₂ (pos + w₁) w₂) :
    Sets b b₂ pos (w₁ + w₂) := by
  refine ⟨h₂.1.trans h₁.1, fun q => ?_⟩
  rw [h₂.2, h₁.2]
  by_cases hlo : pos ≤ q ∧ q < pos + w₁ <;> by_cases hhi : pos + w₁ ≤ q ∧ q < pos + w₁ + w₂ <;>
    simp [hlo, hhi] <;> omega

theorem Sets.clearFrom {b b' : Bitvec} {pos w : ℕ} (h : Sets b b' pos w) (hc : ClearFrom b pos) :
    ClearFrom b' (pos + w) := by
  intro q hq
  rw [h.2, hc q (by omega)]
  simp only [Bool.false_or, decide_eq_false_iff_not, not_and, Nat.not_lt]
  omega

/-- Outside the range a setter writes, a bit is kept. -/
theorem or_outside (b : Bool) {pos w q : ℕ} (h : ¬ (pos ≤ q ∧ q < pos + w)) : b = (b || decide (pos ≤ q ∧ q < pos + w)) := by
  simp [h]

/-- A byte or-ed with a mask whose bit at `q` is set exactly inside `[pos, pos + w)`. -/
theorem testBit_or_range {bits : Bitvec} {q i pos w : ℕ} (h : i < bits.length) (hq : q / 8 = i) {m : UInt8}
    {p : Prop} [Decidable p] (hm : m.toNat.testBit (q % 8) = decide p) (hp : p ↔ pos ≤ q ∧ q < pos + w) :
    (bits[i] ||| m).toNat.testBit (q % 8) = (bitAt bits q || decide (pos ≤ q ∧ q < pos + w)) := by
  rw [bitAt_or h hq, hm, decide_eq_decide.mpr hp]

/-- A byte assigned, over bits that are clear, with a mask whose bit at `q` is
set exactly below `pos + w`: the spill of a setter. -/
theorem testBit_assign_range {bits : Bitvec} {q pos w : ℕ} (hc : ClearFrom bits pos) (hq : pos ≤ q) {m : UInt8}
    {p : Prop} [Decidable p] (hm : m.toNat.testBit (q % 8) = decide p) (hp : p ↔ q < pos + w) :
    m.toNat.testBit (q % 8) = (bitAt bits q || decide (pos ≤ q ∧ q < pos + w)) := by
  rw [hm, hc q hq, Bool.false_or, decide_eq_decide]
  exact hp.trans ⟨fun h => ⟨hq, h⟩, And.right⟩

/-! ### The setters -/

section Setters

variable {bits : Bitvec} {pos : ℕ}

theorem set1_eq (h : pos / 8 < bits.length) :
    set1 bits pos = some (bits.set (pos / 8) (bits[pos / 8] ||| 1 <<< (pos % 8).toUInt8)) := by
  rw [set1, List.getElem?_eq_getElem h]
  exact store_eq _ h

theorem set1_spec (h : pos / 8 < bits.length) : ∃ bits', set1 bits pos = some bits' ∧ Sets bits bits' pos 1 := by
  have hk : pos % 8 < 8 := Nat.mod_lt _ (by decide)
  refine ⟨_, set1_eq h, List.length_set .., fun q => ?_⟩
  rw [bitAt_set _ h]
  by_cases hq : q / 8 = pos / 8
  · rw [if_pos hq]
    exact testBit_or_range h hq (testBit_one_shift _ hk _ (Nat.mod_lt _ (by decide))) (by omega)
  · rw [if_neg hq]
    exact or_outside _ (by omega)

/-- `setN` with the mask of `n` bits writes its byte, and the next one only
when the mask spills into it. -/
theorem setN_eq {n : ℕ} (h₀ : pos / 8 < bits.length) :
    let a : UInt16 := (((1 : UInt16) <<< n.toUInt16) - 1) <<< (pos % 8).toUInt16
    setN bits (((1 : UInt16) <<< n.toUInt16) - 1) pos =
      (if (a >>> 8).toUInt8 ≠ 0 then store (bits.set (pos / 8) (bits[pos / 8] ||| a.toUInt8)) (pos / 8 + 1) (a >>> 8).toUInt8
      else some (bits.set (pos / 8) (bits[pos / 8] ||| a.toUInt8))) := by
  intro a
  rw [setN, List.getElem?_eq_getElem h₀]
  show (store bits (pos / 8) (bits[pos / 8] ||| a.toUInt8)).bind _ = _
  rw [store_eq _ h₀]
  rfl

/-- `setN` with the mask of `n` bits: the spill is assigned, over bits that are clear. -/
theorem setN_spec {n : ℕ} (hn : n < 8) (hc : ClearFrom bits pos) (h : pos / 8 + 1 < bits.length) :
    ∃ bits', setN bits (((1 : UInt16) <<< n.toUInt16) - 1) pos = some bits' ∧ Sets bits bits' pos n := by
  have hk : pos % 8 < 8 := Nat.mod_lt _ (by decide)
  have h₀ : pos / 8 < bits.length := by omega
  set a : UInt16 := (((1 : UInt16) <<< n.toUInt16) - 1) <<< (pos % 8).toUInt16
  set b₁ := bits.set (pos / 8) (bits[pos / 8] ||| a.toUInt8)
  have hlen₁ : b₁.length = bits.length := List.length_set ..
  have hlow : ∀ q, bitAt b₁ q = (bitAt bits q || decide (q / 8 = pos / 8 ∧ pos ≤ q ∧ q < pos + n)) := by
    intro q
    rw [bitAt_set _ h₀]
    by_cases hq : q / 8 = pos / 8
    · rw [if_pos hq, bitAt_or h₀ hq, testBit_flag_low _ hn _ hk _ (Nat.mod_lt _ (by decide))]
      congr 1
      simp only [decide_eq_decide]
      omega
    · rw [if_neg hq]
      simp [hq]
  -- the byte after: where the mask spills, the positions below `pos + n`
  have hspill : ∀ q, q / 8 = pos / 8 + 1 → (a >>> 8).toUInt8.toNat.testBit (q % 8) = decide (q < pos + n) := by
    intro q hq
    rw [testBit_flag_high _ hn _ hk _ (Nat.mod_lt _ (by decide))]
    simp only [decide_eq_decide]
    omega
  have heq := setN_eq (n := n) h₀
  by_cases hb : (a >>> 8).toUInt8 ≠ 0
  · refine ⟨b₁.set (pos / 8 + 1) (a >>> 8).toUInt8, ?_, by simp [hlen₁], fun q => ?_⟩
    · rw [heq, if_pos hb]
      exact store_eq _ (by rw [hlen₁]; exact h)
    rw [bitAt_set _ (by rw [hlen₁]; exact h)]
    by_cases hq : q / 8 = pos / 8 + 1
    · rw [if_pos hq]
      exact testBit_assign_range hc (by omega) (hspill q hq) Iff.rfl
    · rw [if_neg hq, hlow]
      by_cases hq' : q / 8 = pos / 8
      · simp only [hq', true_and]
      · rw [or_outside (bitAt bits q) (show ¬ (pos ≤ q ∧ q < pos + n) by omega)]
        simp [hq']
  · -- no spill: the mask ends in the byte of `pos`
    simp only [ne_eq, not_not] at hb
    refine ⟨b₁, by rw [heq, if_neg (by simpa using hb)], hlen₁, fun q => ?_⟩
    rw [hlow]
    by_cases hq' : q / 8 = pos / 8
    · simp only [hq', true_and]
    · have hout : ¬ (pos ≤ q ∧ q < pos + n) := by
        intro hin
        have hq : q / 8 = pos / 8 + 1 := by omega
        have hs := hspill q hq
        rw [hb, UInt8.toNat_zero, Nat.zero_testBit] at hs
        simp only [false_eq_decide_iff, Nat.not_lt] at hs
        omega
      simp [hq', hout]

theorem set8_eq (h : pos / 8 + 1 < bits.length) :
    let a := (0xFF : UInt8) <<< (pos % 8).toUInt8
    set8 bits pos = some ((bits.set (pos / 8) (bits[pos / 8] ||| a)).set (pos / 8 + 1) (~~~a)) := by
  intro a
  have h₀ : pos / 8 < bits.length := by omega
  rw [set8, List.getElem?_eq_getElem h₀]
  show (store bits (pos / 8) (bits[pos / 8] ||| a)).bind _ = _
  rw [store_eq _ h₀]
  exact store_eq _ (by rw [List.length_set]; exact h)

/-- `set8`: the byte of `pos` from `pos` on, and the next byte below `pos + 8`, assigned. -/
theorem set8_spec (hc : ClearFrom bits pos) (h : pos / 8 + 1 < bits.length) :
    ∃ bits', set8 bits pos = some bits' ∧ Sets bits bits' pos 8 := by
  have hk : pos % 8 < 8 := Nat.mod_lt _ (by decide)
  have h₀ : pos / 8 < bits.length := by omega
  refine ⟨_, set8_eq h, by simp, fun q => ?_⟩
  rw [bitAt_set _ (by rw [List.length_set]; exact h), bitAt_set _ h₀]
  by_cases hq₁ : q / 8 = pos / 8 + 1
  · rw [if_pos hq₁]
    exact testBit_assign_range hc (by omega) (testBit_low_mask _ hk _ (Nat.mod_lt _ (by decide))) (by omega)
  rw [if_neg hq₁]
  by_cases hq₀ : q / 8 = pos / 8
  · rw [if_pos hq₀]
    exact testBit_or_range h₀ hq₀ (testBit_high_mask _ hk _ (Nat.mod_lt _ (by decide))) (by omega)
  · rw [if_neg hq₀]
    exact or_outside _ (by omega)

theorem set16_eq (h : pos / 8 + 2 < bits.length) :
    let a := (0xFF : UInt8) <<< (pos % 8).toUInt8
    set16 bits pos =
      some (((bits.set (pos / 8) (bits[pos / 8] ||| a)).set (pos / 8 + 1) 0xFF).set (pos / 8 + 2) (~~~a)) := by
  intro a
  have h₀ : pos / 8 < bits.length := by omega
  rw [set16, List.getElem?_eq_getElem h₀]
  show (store bits (pos / 8) (bits[pos / 8] ||| a)).bind _ = _
  rw [store_eq _ h₀]
  show (store _ (pos / 8 + 1) 0xFF).bind _ = _
  rw [store_eq _ (by rw [List.length_set]; omega)]
  exact store_eq _ (by rw [List.length_set, List.length_set]; exact h)

/-- `set16`: the byte of `pos` from `pos` on, the next byte whole, and the one
after below `pos + 16`, assigned. -/
theorem set16_spec (hc : ClearFrom bits pos) (h : pos / 8 + 2 < bits.length) :
    ∃ bits', set16 bits pos = some bits' ∧ Sets bits bits' pos 16 := by
  have hk : pos % 8 < 8 := Nat.mod_lt _ (by decide)
  have h₀ : pos / 8 < bits.length := by omega
  refine ⟨_, set16_eq h, by simp, fun q => ?_⟩
  rw [bitAt_set _ (by rw [List.length_set, List.length_set]; exact h), bitAt_set _ (by rw [List.length_set]; omega),
    bitAt_set _ h₀]
  by_cases hq₂ : q / 8 = pos / 8 + 2
  · rw [if_pos hq₂]
    exact testBit_assign_range hc (by omega) (testBit_low_mask _ hk _ (Nat.mod_lt _ (by decide))) (by omega)
  rw [if_neg hq₂]
  by_cases hq₁ : q / 8 = pos / 8 + 1
  · rw [if_pos hq₁, hc q (by omega), testBit_ff _ (Nat.mod_lt _ (by decide)), Bool.false_or]
    exact (decide_eq_true (by omega)).symm
  rw [if_neg hq₁]
  by_cases hq₀ : q / 8 = pos / 8
  · rw [if_pos hq₀]
    exact testBit_or_range h₀ hq₀ (testBit_high_mask _ hk _ (Nat.mod_lt _ (by decide))) (by omega)
  · rw [if_neg hq₀]
    exact or_outside _ (by omega)

theorem Sets.refl (bits : Bitvec) (pos : ℕ) : Sets bits bits pos 0 :=
  ⟨rfl, fun q => by simp⟩

theorem set16s_lt {pc numbits : ℕ} (h : numbits < 16) : set16s bits pc numbits = some (bits, pc, numbits) := by
  rw [set16s.eq_def]
  split
  · omega
  · rfl

theorem set8s_lt {pc numbits : ℕ} (h : numbits < 8) : set8s bits pc numbits = some (bits, pc, numbits) := by
  rw [set8s.eq_def]
  split
  · omega
  · rfl

/-- The `numbits >= 16` loop sets `16` bits a turn while `16` are left. -/
theorem set16s_spec : ∀ (numbits : ℕ) {bits : Bitvec} {pc : ℕ}, ClearFrom bits pc →
    (∀ k, k < numbits / 16 → (pc + 16 * k) / 8 + 2 < bits.length) →
    ∃ bits', set16s bits pc numbits = some (bits', pc + 16 * (numbits / 16), numbits % 16) ∧
      Sets bits bits' pc (16 * (numbits / 16)) := by
  intro numbits
  induction numbits using Nat.strong_induction_on with
  | _ numbits ih =>
    intro bits pc hc hb
    by_cases h : numbits < 16
    · refine ⟨bits, ?_, ?_⟩
      · rw [set16s_lt h, Nat.div_eq_of_lt h, Nat.mod_eq_of_lt h]
        rfl
      · rw [Nat.div_eq_of_lt h]
        exact Sets.refl bits pc
    obtain ⟨r, rfl⟩ : ∃ r, numbits = r + 16 := ⟨numbits - 16, by omega⟩
    obtain ⟨b₁, h₁, hs₁⟩ := set16_spec hc (by simpa using hb 0 (by omega))
    obtain ⟨b₂, h₂, hs₂⟩ := ih r (by omega) (hs₁.clearFrom hc) (fun k hk => by
      have := hb (k + 1) (by omega)
      rw [hs₁.1]
      omega)
    refine ⟨b₂, ?_, ?_⟩
    · rw [set16s, h₁, Option.bind_some, h₂]
      congr 3 <;> omega
    · have := hs₁.trans hs₂
      rwa [show 16 + 16 * (r / 16) = 16 * ((r + 16) / 16) by omega] at this

/-- The `numbits >= 8` loop, with fewer than `16` bits left: one turn at most. -/
theorem set8s_spec {numbits pc : ℕ} (hn : numbits < 16) (hc : ClearFrom bits pc)
    (hb : 8 ≤ numbits → pc / 8 + 1 < bits.length) :
    ∃ bits', set8s bits pc numbits = some (bits', pc + 8 * (numbits / 8), numbits % 8) ∧
      Sets bits bits' pc (8 * (numbits / 8)) := by
  by_cases h : numbits < 8
  · refine ⟨bits, ?_, ?_⟩
    · rw [set8s_lt h, Nat.div_eq_of_lt h, Nat.mod_eq_of_lt h]
      rfl
    · rw [Nat.div_eq_of_lt h]
      exact Sets.refl bits pc
  obtain ⟨r, rfl⟩ : ∃ r, numbits = r + 8 := ⟨numbits - 8, by omega⟩
  obtain ⟨b₁, h₁, hs₁⟩ := set8_spec hc (hb (by omega))
  refine ⟨b₁, ?_, ?_⟩
  · rw [set8s, h₁, Option.bind_some, set8s_lt (by omega)]
    congr 3 <;> omega
  · rwa [show 8 * ((r + 8) / 8) = 8 by omega]

/-- The `switch` case of `n` bits is `setN` with the mask of `n` bits. -/
theorem setRest_eq_setN {pc : ℕ} : ∀ n, 2 ≤ n → n < 8 →
    setRest bits pc n = (setN bits (((1 : UInt16) <<< n.toUInt16) - 1) pc).map (·, pc + n)
  | 2, _, _ | 3, _, _ | 4, _, _ | 5, _, _ | 6, _, _ | 7, _, _ => rfl

theorem setRest_spec {numbits pc : ℕ} (hn : numbits < 8) (hc : ClearFrom bits pc)
    (hb : 0 < numbits → pc / 8 + 1 < bits.length) :
    ∃ bits', setRest bits pc numbits = some (bits', pc + numbits) ∧ Sets bits bits' pc numbits := by
  rcases Nat.lt_or_ge numbits 2 with h | h
  · rcases Nat.lt_or_ge numbits 1 with h₀ | h₁
    · obtain rfl : numbits = 0 := by omega
      exact ⟨bits, rfl, Sets.refl bits pc⟩
    · obtain rfl : numbits = 1 := by omega
      obtain ⟨b₁, h₁, hs₁⟩ := set1_spec (show pc / 8 < bits.length by have := hb (by decide); omega)
      exact ⟨b₁, by rw [setRest, h₁]; rfl, hs₁⟩
  · obtain ⟨b₁, h₁, hs₁⟩ := setN_spec hn hc (hb (by omega))
    exact ⟨b₁, by rw [setRest_eq_setN numbits h hn, h₁]; rfl, hs₁⟩

/-- The data of a `PUSH` of up to `32` bytes from `pc`, with the bitmap's
slack after `pc`: every write lands, and the bits set are exactly the data. -/
theorem setData_spec {pc numbits : ℕ} (hc : ClearFrom bits pc) (hn : numbits ≤ 32)
    (hL : pc / 8 + 5 ≤ bits.length) :
    ∃ bits', setData bits pc numbits = some (bits', pc + numbits) ∧ Sets bits bits' pc numbits := by
  unfold setData
  by_cases h8 : numbits ≥ 8
  · rw [if_pos h8]
    obtain ⟨b₁, h₁, hs₁⟩ := set16s_spec numbits hc (fun k hk => by omega)
    obtain ⟨b₂, h₂, hs₂⟩ := set8s_spec (Nat.mod_lt numbits (by decide)) (hs₁.clearFrom hc)
      (fun _ => by rw [hs₁.1]; omega)
    obtain ⟨b₃, h₃, hs₃⟩ := setRest_spec (Nat.mod_lt (numbits % 16) (by decide))
      (hs₂.clearFrom (hs₁.clearFrom hc)) (fun hr => by rw [hs₂.1, hs₁.1]; omega)
    refine ⟨b₃, ?_, ?_⟩
    · simp only [h₁, Option.bind_some, h₂, h₃]
      congr 2
      omega
    · rw [Nat.add_assoc] at hs₃
      have := (hs₁.trans hs₂).trans hs₃
      rwa [show 16 * (numbits / 16) + 8 * (numbits % 16 / 8) + numbits % 16 % 8 = numbits by omega] at this
  · rw [if_neg h8]
    exact setRest_spec (by omega) hc (fun _ => by omega)

end Setters

/-! ### The loop -/

theorem pushSize_of_not_push {op : UInt8} (h : op < PUSH1 ∨ op > PUSH32) : pushSize op = 0 := by
  rw [pushSize, if_neg]
  rintro ⟨h₁, h₂⟩
  rcases h with h | h
  · exact absurd h₁ (UInt8.not_le.mpr h)
  · exact absurd h₂ (UInt8.not_le.mpr h)

/-- After a `PUSHn` the loop sets `n` bits, `n` at most `32`. -/
theorem pushSize_of_push {op : UInt8} (h : ¬(op < PUSH1 ∨ op > PUSH32)) :
    (op - PUSH1 + 1).toNat = pushSize op ∧ pushSize op ≤ 32 := by
  simp only [not_or, UInt8.not_lt] at h
  rw [pushSize, if_pos h]
  have h₁ := UInt8.le_iff_toNat_le.mp h.1
  have h₂ := UInt8.le_iff_toNat_le.mp h.2
  rw [UInt8.toNat_add, UInt8.toNat_sub_of_le _ _ h.1]
  simp only [PUSH1, PUSH32, UInt8.reduceToNat] at h₁ h₂ ⊢
  omega

theorem ClearFrom.mono {bits : Bitvec} {pos pos' : ℕ} (hc : ClearFrom bits pos) (h : pos ≤ pos') :
    ClearFrom bits pos' :=
  fun q hq => hc q (Nat.le_trans h hq)

theorem codeBitmapLoop_done {code : Bytes} {fuel pc : ℕ} {bits : Bitvec} (h : code.length ≤ pc) :
    codeBitmapLoop code (fuel + 1) pc bits = some bits := by
  rw [codeBitmapLoop, List.getElem?_eq_none h]

/-- One turn of the loop at an opcode: the bits of its data, if it is a
`PUSH`, are set, and the loop goes on after them. -/
theorem codeBitmapLoop_step (fuel : ℕ) {code : Bytes} {pc : ℕ} {bits : Bitvec} {op : UInt8}
    (hop : code[pc]? = some op) (hc : ClearFrom bits pc) (hL : (pc + 1) / 8 + 5 ≤ bits.length) :
    ∃ bits₁, Sets bits bits₁ (pc + 1) (pushSize op) ∧
      codeBitmapLoop code (fuel + 1) pc bits = codeBitmapLoop code fuel (pc + 1 + pushSize op) bits₁ := by
  by_cases hp : op < PUSH1 ∨ op > PUSH32
  · rw [pushSize_of_not_push hp]
    refine ⟨bits, Sets.refl bits (pc + 1), ?_⟩
    simp only [codeBitmapLoop, hop, if_pos hp, Nat.add_zero]
  · obtain ⟨hsize, h32⟩ := pushSize_of_push hp
    obtain ⟨bits₁, h₁, hs₁⟩ := setData_spec (hc.mono (Nat.le_succ pc)) h32 hL
    refine ⟨bits₁, hs₁, ?_⟩
    simp only [codeBitmapLoop, hop, if_neg hp, hsize, h₁, Option.bind_some]

/-- The loop from an opcode at `pc`, with a turn for every byte left and the
bitmap clear from `pc` on, returns a bitmap of the same length that keeps the
bits below `pc` and, from `pc` on within the code, is clear exactly at the
positions the walk from `pc` reaches. -/
theorem codeBitmapLoop_spec (code : Bytes) : ∀ (fuel pc : ℕ) (bits : Bitvec), code.length ≤ fuel + pc →
    ClearFrom bits pc → code.length / 8 + 5 ≤ bits.length →
    ∃ bits', codeBitmapLoop code (fuel + 1) pc bits = some bits' ∧ bits'.length = bits.length ∧
      (∀ q, q < pc → bitAt bits' q = bitAt bits q) ∧
      ∀ q, pc ≤ q → q < code.length → (bitAt bits' q = false ↔ Reaches code pc q) := by
  intro fuel
  induction fuel with
  | zero =>
    intro pc bits hf _ _
    exact ⟨bits, codeBitmapLoop_done (by omega), rfl, fun _ _ => rfl, fun q hq hq' => by omega⟩
  | succ fuel ih =>
    intro pc bits hf hc hL
    cases hop : code[pc]? with
    | none =>
      have hend : code.length ≤ pc := List.getElem?_eq_none_iff.mp hop
      exact ⟨bits, codeBitmapLoop_done hend, rfl, fun _ _ => rfl, fun q hq hq' => by omega⟩
    | some op =>
      have hpc : pc < code.length := (List.getElem?_eq_some_iff.mp hop).1
      obtain ⟨bits₁, hs₁, hstep⟩ := codeBitmapLoop_step (fuel + 1) hop hc (by omega)
      obtain ⟨bits', hrun, hlen, hbelow, hreach⟩ :=
        ih (pc + 1 + pushSize op) bits₁ (by omega) (hs₁.clearFrom (hc.mono (Nat.le_succ pc))) (by rw [hs₁.1]; exact hL)
      refine ⟨bits', hstep.trans hrun, hlen.trans hs₁.1, fun q hq => ?_, fun q hq hq' => ?_⟩
      · rw [hbelow q (by omega), hs₁.2]
        exact (or_outside _ (by omega)).symm
      by_cases hqp : q = pc
      · -- the opcode itself: its bit stays clear
        subst hqp
        rw [hbelow q (by omega), hs₁.2, hc q (Nat.le_refl q)]
        simp only [Bool.false_or, decide_eq_false_iff_not]
        exact ⟨fun _ => Reaches.refl q, fun _ h => by omega⟩
      rw [reaches_iff hop hqp]
      by_cases hd : q < pc + 1 + pushSize op
      · -- the data of a `PUSH`: set, and stepped over by the walk
        rw [hbelow q hd, hs₁.2]
        have hset : decide (pc + 1 ≤ q ∧ q < pc + 1 + pushSize op) = true := decide_eq_true (by omega)
        rw [hset, Bool.or_true, Bool.true_eq_false, false_iff]
        exact fun h => absurd h.le (by omega)
      · exact hreach q (by omega) hq'

theorem clearFrom_replicate (n pos : ℕ) : ClearFrom (List.replicate n 0) pos := by
  intro q _
  rw [bitAt, List.getElem?_replicate]
  split <;> simp

/-- `codeBitmap` makes every write inside its bitmap, keeps the bitmap's
length, and reads an opcode at a position of the code exactly when the
reference walk from `0` reaches it. -/
theorem codeBitmap_exact (code : Bytes) :
    ∃ bits, codeBitmap code = some bits ∧ bits.length = code.length / 8 + 1 + 4 ∧
      ∀ pos, pos < code.length → (codeSegment bits pos = some true ↔ Reaches code 0 pos) := by
  obtain ⟨bits, hrun, hlen, -, hreach⟩ :=
    codeBitmapLoop_spec code code.length 0 (List.replicate (code.length / 8 + 1 + 4) 0) (by omega)
      (clearFrom_replicate _ 0) (by simp)
  rw [List.length_replicate] at hlen
  refine ⟨bits, hrun, hlen, fun pos hpos => ?_⟩
  rw [codeSegment_eq (by omega), Option.some_inj, Bool.not_eq_true']
  exact hreach pos (Nat.zero_le pos) hpos

example : codeBitmap [0x60, 0x5b, 0x00] = some [2, 0, 0, 0, 0] := by decide

end Vm

end Workshare
