import Workshare.Basic
import Workshare.Rlp

/-!
# The low-level RLP encoder

`lowrlp.Encoder` writes string data into `str` as it comes and does not know
a list's header until the list ends. `List` records where the list starts in
`str` and how many header bytes `lhsize` had counted by then; `ListEnd`
computes the list's size from the running `size()` and adds its header's
length to `lhsize`. `ToBytes` and `ToWriter` splice the headers into the
string data at the recorded offsets, in the order the lists were started,
`ToBytes` into a buffer of `size()` bytes.

For every well-nested sequence of calls, that is the calls that encode a
forest of strings, unsigned integers, raw encodings and lists with each
`ListEnd` given the index its `List` returned, both outputs are the canonical
encoding (`toBytes_callsAll`). The proof splits the effect of the calls into
the string data and the headers, in the order the lists start, at offsets into
that data (`run_callsAll`), and shows that splicing them gives the encoding
(`out_headsAll`).
-/
namespace Workshare.Lowrlp

open Rlp

/-- `listhead`: where a list starts in the string data, and its size: the
header bytes counted when it started while it is open, the size of its
encoded content once it has ended. -/
structure ListHead where
  offset : ℕ
  size : ℕ

/-- `listhead.encode`: `puthead` with the list tags. -/
def ListHead.encode (h : ListHead) : Bytes := head 0xC0 0xF7 h.size

/-- `intsize`: the bytes `i` takes, at least one. -/
def intsize (i : ℕ) : ℕ := if i / 256 = 0 then 1 else intsize (i / 256) + 1
termination_by i
decreasing_by omega

theorem intsize_of_lt {i : ℕ} (h : i < 256) : intsize i = 1 := by
  rw [intsize, if_pos (by omega)]

theorem intsize_of_ge {i : ℕ} (h : 256 ≤ i) : intsize i = intsize (i / 256) + 1 := by
  conv_lhs => rw [intsize]
  rw [if_neg (by omega)]

theorem length_putintAux : ∀ (fuel i : ℕ) (acc : Bytes), i < 256 ^ (fuel + 1) →
    (putintAux (fuel + 1) i acc).length = intsize i + acc.length
  | fuel, i, acc, hi => by
    by_cases hs : i < 256
    · rw [putintAux, if_pos hs, intsize_of_lt hs, List.length_cons, Nat.add_comm]
    · cases fuel with
      | zero => simp at hi; omega
      | succ fuel =>
        have hq : i / 256 < 256 ^ (fuel + 1) := by
          rw [Nat.div_lt_iff_lt_mul (by decide)]
          simpa [Nat.pow_succ] using hi
        rw [putintAux, if_neg hs, length_putintAux fuel (i / 256) _ hq, intsize_of_ge (show 256 ≤ i by omega),
          List.length_cons]
        omega

/-- `intsize` counts the bytes `putint` writes. -/
theorem length_putint (i : ℕ) : (putint i).length = intsize i := by
  have hi : i < 256 ^ (i + 1) :=
    (Nat.lt_pow_self (by decide)).trans (Nat.pow_lt_pow_right (by decide) (Nat.lt_succ_self i))
  rw [putint]
  simpa using length_putintAux i i [] hi

/-- The header `ListEnd` counts is the header `puthead` writes. -/
theorem length_head (a b : UInt8) (size : ℕ) :
    (head a b size).length = if size < 56 then 1 else 1 + intsize size := by
  unfold head
  split <;> simp [length_putint, Nat.add_comm]

/-- `Encoder`; the scratch buffer `sizebuf` is left out. -/
structure Encoder where
  str : Bytes
  lheads : List ListHead
  lhsize : ℕ

namespace Encoder

/-- `Reset`. -/
def reset (w : Encoder) : Encoder := { w with lhsize := 0, str := [], lheads := [] }

/-- `encodeStringHeader`. -/
def encodeStringHeader (w : Encoder) (size : ℕ) : Encoder := { w with str := w.str ++ head 0x80 0xB7 size }

/-- `EncodeString`: a single byte up to `0x7F` is written without a header. -/
def encodeString (w : Encoder) (b : Bytes) : Encoder :=
  match b with
  | [x] =>
    if x ≤ 0x7F then { w with str := w.str ++ [x] }
    else let w := w.encodeStringHeader 1; { w with str := w.str ++ [x] }
  | b => let w := w.encodeStringHeader b.length; { w with str := w.str ++ b }

/-- `EncodeUint`. -/
def encodeUint (w : Encoder) (i : UInt64) : Encoder :=
  if i = 0 then { w with str := w.str ++ [0x80] }
  else if i < 128 then { w with str := w.str ++ [i.toUInt8] }
  else { w with str := w.str ++ (0x80 + (putint i.toNat).length.toUInt8) :: putint i.toNat }

/-- `EncodeRaw`. -/
def encodeRaw (w : Encoder) (r : Bytes) : Encoder := { w with str := w.str ++ r }

/-- `EncodeEmptyString`. -/
def encodeEmptyString (w : Encoder) : Encoder := { w with str := w.str ++ [0x80] }

/-- `EncodeEmptyList`. -/
def encodeEmptyList (w : Encoder) : Encoder := { w with str := w.str ++ [0xC0] }

/-- `size`: the string data and the header bytes counted so far. -/
def size (w : Encoder) : ℕ := w.str.length + w.lhsize

/-- `List`, and the index it returns. -/
def list (w : Encoder) : Encoder × ℕ :=
  ({ w with lheads := w.lheads ++ [⟨w.str.length, w.lhsize⟩] }, w.lheads.length)

/-- `ListEnd`: an index no `List` returned panics. -/
def listEnd (w : Encoder) (index : ℕ) : Option Encoder :=
  match w.lheads[index]? with
  | none => none
  | some lh =>
    let size := w.size - lh.offset - lh.size
    some { w with
      lheads := w.lheads.set index { lh with size := size }
      lhsize := if size < 56 then w.lhsize + 1 else w.lhsize + (1 + intsize size) }

/-- Go's `copy` of `src` into `out` at `pos` without the bounds: the bytes
from `pos` on are overwritten. -/
def writeAt (out : Bytes) (pos : ℕ) (src : Bytes) : Bytes :=
  out.take pos ++ src ++ out.drop (pos + src.length)

/-- `copy(out[pos:], src)`: as many bytes as fit, and how many. -/
def copyAt (out : Bytes) (pos : ℕ) (src : Bytes) : Bytes × ℕ :=
  let n := min (out.length - pos) src.length
  (writeAt out pos (src.take n), n)

/-- The loop of `ToBytes` over the headers: the buffer, the place in it and
the place in the string data. -/
def toBytesLoop (str : Bytes) : List ListHead → Bytes → ℕ → ℕ → Option (Bytes × ℕ × ℕ)
  | [], out, pos, strpos => some (out, pos, strpos)
  | h :: hs, out, pos, strpos =>
    -- `w.str[strpos:head.offset]` panics outside the string data
    if h.offset < strpos ∨ str.length < h.offset then none
    else
      let (out, n) := copyAt out pos ((str.drop strpos).take (h.offset - strpos))
      -- `puthead` panics when the header does not fit the rest of the buffer
      if out.length - (pos + n) < h.encode.length then none
      else toBytesLoop str hs (writeAt out (pos + n) h.encode) (pos + n + h.encode.length) (strpos + n)

/-- `ToBytes`. -/
def toBytes (w : Encoder) : Option Bytes :=
  (toBytesLoop w.str w.lheads (List.replicate w.size 0) 0 0).map fun r =>
    (copyAt r.1 r.2.1 (w.str.drop r.2.2)).1

/-- The loop of `ToWriter` over the headers, to a writer that takes every
write: the bytes written. -/
def toWriterLoop (str : Bytes) : List ListHead → ℕ → Option Bytes
  | [], strpos => some (if strpos < str.length then str.drop strpos else [])
  | h :: hs, strpos =>
    if strpos < h.offset then
      -- `w.str[strpos:head.offset]` panics past the string data
      if str.length < h.offset then none
      else (toWriterLoop str hs h.offset).map fun rest => (str.drop strpos).take (h.offset - strpos) ++ h.encode ++ rest
    else (toWriterLoop str hs strpos).map fun rest => h.encode ++ rest

/-- `ToWriter`, to a writer that takes every write: the bytes written. -/
def toWriter (w : Encoder) : Option Bytes := toWriterLoop w.str w.lheads 0

/-- The encoder's calls; `list` drops the index `List` returns. -/
inductive Call
  | encodeString (b : Bytes)
  | encodeUint (i : UInt64)
  | encodeEmptyString
  | encodeEmptyList
  | encodeRaw (r : Bytes)
  | list
  | listEnd (index : ℕ)

/-- One call; `none` when it panics. -/
def exec (w : Encoder) : Call → Option Encoder
  | .encodeString b => some (w.encodeString b)
  | .encodeUint i => some (w.encodeUint i)
  | .encodeEmptyString => some w.encodeEmptyString
  | .encodeEmptyList => some w.encodeEmptyList
  | .encodeRaw r => some (w.encodeRaw r)
  | .list => some w.list.1
  | .listEnd index => w.listEnd index

/-- A sequence of calls. -/
def run (w : Encoder) : List Call → Option Encoder
  | [] => some w
  | c :: cs => (w.exec c).bind (·.run cs)

theorem run_append (w : Encoder) (cs cs' : List Call) : w.run (cs ++ cs') = (w.run cs).bind (·.run cs') := by
  induction cs generalizing w with
  | nil => rfl
  | cons c cs ih =>
    simp only [List.cons_append, run]
    cases w.exec c with
    | none => rfl
    | some w' => exact ih w'

/-- Each encoding call appends its canonical encoding to the string data. -/
theorem encodeString_eq (w : Encoder) (b : Bytes) : w.encodeString b = { w with str := w.str ++ Rlp.encodeString b } := by
  match b with
  | [] => simp [encodeString, Rlp.encodeString, encodeStringHeader]
  | [x] => by_cases hx : x ≤ 0x7F <;> simp [encodeString, Rlp.encodeString, encodeStringHeader, hx]
  | x :: y :: t => simp [encodeString, Rlp.encodeString, encodeStringHeader]

theorem encodeUint_eq (w : Encoder) (i : UInt64) : w.encodeUint i = { w with str := w.str ++ Rlp.encodeUint i.toNat } := by
  have h0 : i = 0 ↔ i.toNat = 0 := by simp [UInt64.toNat_inj.symm]
  have h128 : i < 128 ↔ i.toNat < 128 := UInt64.lt_iff_toNat_lt
  unfold encodeUint Rlp.encodeUint
  by_cases hz : i = 0
  · simp [hz]
  · by_cases hs : i < 128
    · simp [hz, h0.not.mp hz, hs, h128.mp hs]
    · simp [hz, h0.not.mp hz, hs, h128.not.mp hs]

end Encoder

/-! ## What the calls encode -/

/-- A tree of values; `raw` is an item the caller passes already encoded. -/
inductive Item
  | string (b : Bytes)
  | uint (i : UInt64)
  | emptyString
  | emptyList
  | raw (it : Item)
  | list (items : List Item)

mutual
/-- The canonical RLP encoding of an item. -/
def Item.encode : Item → Bytes
  | .string b => encodeString b
  | .uint i => encodeUint i.toNat
  | .emptyString => encodeString []
  | .emptyList => encodeList []
  | .raw it => it.encode
  | .list items => encodeList (Item.encodeAll items)

/-- The encodings of a list of items, one after the other. -/
def Item.encodeAll : List Item → Bytes
  | [] => []
  | it :: its => it.encode ++ Item.encodeAll its
end

mutual
/-- The lists an item starts. -/
def Item.lists : Item → ℕ
  | .list items => Item.listsAll items + 1
  | _ => 0

def Item.listsAll : List Item → ℕ
  | [] => 0
  | it :: its => it.lists + Item.listsAll its
end

mutual
/-- The calls that encode an item after `n` lists were started: each
`ListEnd` gets the index its `List` returns, and inner lists end first. -/
def Item.calls (n : ℕ) : Item → List Encoder.Call
  | .string b => [.encodeString b]
  | .uint i => [.encodeUint i]
  | .emptyString => [.encodeEmptyString]
  | .emptyList => [.encodeEmptyList]
  | .raw it => [.encodeRaw it.encode]
  | .list items => .list :: (Item.callsAll (n + 1) items ++ [.listEnd n])

def Item.callsAll (n : ℕ) : List Item → List Encoder.Call
  | [] => []
  | it :: its => it.calls n ++ Item.callsAll (n + it.lists) its
end

/-! ## What the calls leave in the encoder -/

mutual
/-- The string data an item's calls write: its encoding without the list
headers. -/
def Item.data : Item → Bytes
  | .string b => encodeString b
  | .uint i => encodeUint i.toNat
  | .emptyString => [0x80]
  | .emptyList => [0xC0]
  | .raw it => it.encode
  | .list items => Item.dataAll items

def Item.dataAll : List Item → Bytes
  | [] => []
  | it :: its => it.data ++ Item.dataAll its
end

mutual
/-- The header bytes of an item's lists. -/
def Item.hdrLen : Item → ℕ
  | .list items => (head 0xC0 0xF7 (Item.encodeAll items).length).length + Item.hdrLenAll items
  | _ => 0

def Item.hdrLenAll : List Item → ℕ
  | [] => 0
  | it :: its => it.hdrLen + Item.hdrLenAll its
end

mutual
/-- The headers of an item's lists in the order the lists start, at offsets
into the string data counted from `o`, with their sizes once ended. -/
def Item.heads (o : ℕ) : Item → List ListHead
  | .list items => ⟨o, (Item.encodeAll items).length⟩ :: Item.headsAll o items
  | _ => []

def Item.headsAll (o : ℕ) : List Item → List ListHead
  | [] => []
  | it :: its => it.heads o ++ Item.headsAll (o + it.data.length) its
end

mutual
/-- An encoding is the string data and the headers. -/
theorem Item.length_encode : ∀ it : Item, it.encode.length = it.data.length + it.hdrLen
  | .string _ | .uint _ | .emptyString | .emptyList | .raw _ => by
    simp [Item.encode, Item.data, Item.hdrLen, Rlp.encodeString, Rlp.encodeList, head]
  | .list items => by
    have ih := Item.length_encodeAll items
    simp only [Item.encode, Item.data, Item.hdrLen, Rlp.encodeList, List.length_append]
    omega

theorem Item.length_encodeAll : ∀ its : List Item,
    (Item.encodeAll its).length = (Item.dataAll its).length + Item.hdrLenAll its
  | [] => rfl
  | it :: its => by
    have h₁ := Item.length_encode it
    have h₂ := Item.length_encodeAll its
    simp only [Item.encodeAll, Item.dataAll, Item.hdrLenAll, List.length_append]
    omega
end

mutual
/-- One header per list. -/
theorem Item.length_heads (o : ℕ) : ∀ it : Item, (it.heads o).length = it.lists
  | .string _ | .uint _ | .emptyString | .emptyList | .raw _ => rfl
  | .list items => by
    simp [Item.heads, Item.lists, Item.length_headsAll o items]

theorem Item.length_headsAll (o : ℕ) : ∀ its : List Item, (Item.headsAll o its).length = Item.listsAll its
  | [] => rfl
  | it :: its => by
    simp [Item.headsAll, Item.listsAll, Item.length_heads o it, Item.length_headsAll (o + it.data.length) its]
end

namespace Encoder

/-- `ListEnd` of a header that is there. -/
theorem listEnd_eq (w : Encoder) {index : ℕ} {lh : ListHead} (h : w.lheads[index]? = some lh) :
    w.listEnd index = some { w with
      lheads := w.lheads.set index { lh with size := w.size - lh.offset - lh.size }
      lhsize := w.lhsize + (head 0xC0 0xF7 (w.size - lh.offset - lh.size)).length } := by
  simp only [listEnd, h, length_head]
  by_cases hc : w.size - lh.offset - lh.size < 56 <;> simp [hc]

mutual
/-- The calls of an item append its string data and its headers, and count
its header bytes. -/
theorem run_calls (w : Encoder) : ∀ it : Item,
    w.run (it.calls w.lheads.length) =
      some ⟨w.str ++ it.data, w.lheads ++ it.heads w.str.length, w.lhsize + it.hdrLen⟩
  | .string b => by simp [Item.calls, run, exec, encodeString_eq, Item.data, Item.heads, Item.hdrLen]
  | .uint i => by simp [Item.calls, run, exec, encodeUint_eq, Item.data, Item.heads, Item.hdrLen]
  | .emptyString => by
    simp [Item.calls, run, exec, encodeEmptyString, Item.data, Item.heads, Item.hdrLen]
  | .emptyList => by
    simp [Item.calls, run, exec, encodeEmptyList, Item.data, Item.heads, Item.hdrLen]
  | .raw it => by simp [Item.calls, run, exec, encodeRaw, Item.data, Item.heads, Item.hdrLen]
  | .list items => by
    -- `List` opens the header at the end of the data, with the header bytes so far
    let w₁ : Encoder := w.list.1
    have hlen : w₁.lheads.length = w.lheads.length + 1 := by simp [w₁, list]
    have hinner := run_callsAll w₁ items
    rw [hlen] at hinner
    have hlist : w.run (Item.calls w.lheads.length (.list items)) =
        (w₁.run (Item.callsAll (w.lheads.length + 1) items)).bind (·.run [.listEnd w.lheads.length]) := by
      simp only [Item.calls, run, exec, Option.bind_some, run_append]
      rfl
    -- `ListEnd` finds that header, still open, and sets the size of the list's content
    have hopen : (w₁.lheads ++ Item.headsAll w₁.str.length items)[w.lheads.length]? =
        some ⟨w.str.length, w.lhsize⟩ := by
      simp [w₁, list]
    have hsize : (⟨w₁.str ++ Item.dataAll items, w₁.lheads ++ Item.headsAll w₁.str.length items,
        w₁.lhsize + Item.hdrLenAll items⟩ : Encoder).size - w.str.length - w.lhsize =
        (Item.encodeAll items).length := by
      have := Item.length_encodeAll items
      simp only [size, List.length_append, w₁, list]
      omega
    rw [hlist, hinner, Option.bind_some, run, exec, listEnd_eq _ hopen]
    simp only [hsize, Option.bind_some, run, Option.some.injEq, Encoder.mk.injEq]
    refine ⟨by simp [w₁, list, Item.data], ?_, by simp [w₁, list, Item.hdrLen]; omega⟩
    simp only [w₁, list, Item.heads]
    rw [List.append_assoc, List.set_append_right _ _ (le_refl _)]
    simp

theorem run_callsAll (w : Encoder) : ∀ its : List Item,
    w.run (Item.callsAll w.lheads.length its) =
      some ⟨w.str ++ Item.dataAll its, w.lheads ++ Item.headsAll w.str.length its, w.lhsize + Item.hdrLenAll its⟩
  | [] => by simp [Item.callsAll, run, Item.dataAll, Item.headsAll, Item.hdrLenAll]
  | it :: its => by
    have hlen : (w.lheads ++ it.heads w.str.length).length = w.lheads.length + it.lists := by
      simp [Item.length_heads]
    have hrest := run_callsAll ⟨w.str ++ it.data, w.lheads ++ it.heads w.str.length, w.lhsize + it.hdrLen⟩ its
    simp only [hlen, List.length_append] at hrest
    simp only [Item.callsAll, run_append, run_calls w it, Option.bind_some, hrest, Item.dataAll,
      Item.headsAll, Item.hdrLenAll, List.append_assoc, Nat.add_assoc]
end

end Encoder

/-! ## Splicing the headers in -/

/-- What both outputs write for the headers `hs` from place `p` of the string
data `S`, before the data after the last header: the data up to each header,
then the header; and the place in the data after the last header. -/
def splice (S : Bytes) : List ListHead → ℕ → Bytes × ℕ
  | [], p => ([], p)
  | h :: hs, p =>
    let r := splice S hs (max p h.offset)
    ((S.drop p).take (h.offset - p) ++ h.encode ++ r.1, r.2)

/-- Everything both outputs write: the spliced headers, then the rest of the
string data. -/
def out (S : Bytes) (hs : List ListHead) (p : ℕ) : Bytes := (splice S hs p).1 ++ S.drop (splice S hs p).2

@[simp] theorem out_nil (S : Bytes) (p : ℕ) : out S [] p = S.drop p := rfl

theorem out_cons {S : Bytes} {h : ListHead} {p : ℕ} (hp : p ≤ h.offset) (hs : List ListHead) :
    out S (h :: hs) p = (S.drop p).take (h.offset - p) ++ h.encode ++ out S hs h.offset := by
  simp [out, splice, Nat.max_eq_right hp]

theorem out_cons_of_le {S : Bytes} {h : ListHead} {p : ℕ} (hp : h.offset ≤ p) (hs : List ListHead) :
    out S (h :: hs) p = h.encode ++ out S hs p := by
  simp [out, splice, Nat.max_eq_left hp, Nat.sub_eq_zero_of_le hp]

/-- The data between two places comes first when no header lies between them. -/
theorem out_shift {S : Bytes} {p q : ℕ} (hpq : p ≤ q) :
    ∀ {hs : List ListHead}, (∀ h ∈ hs, q ≤ h.offset) → out S hs p = (S.drop p).take (q - p) ++ out S hs q
  | [], _ => by
    rw [out_nil, out_nil]
    conv_lhs => rw [← List.take_append_drop (q - p) (S.drop p)]
    rw [List.drop_drop, Nat.add_sub_cancel' hpq]
  | h :: hs, hq => by
    have hh := hq h (List.mem_cons_self ..)
    rw [out_cons (hpq.trans hh), out_cons hh]
    have : h.offset - p = (q - p) + (h.offset - q) := by omega
    rw [this, List.take_add, List.drop_drop, Nat.add_sub_cancel' hpq]
    simp only [List.append_assoc]

mutual
/-- An item's headers lie within its string data. -/
theorem Item.offset_heads {o : ℕ} : ∀ {it : Item}, ∀ h ∈ it.heads o, o ≤ h.offset ∧ h.offset ≤ o + it.data.length
  | .string _, _, hh | .uint _, _, hh | .emptyString, _, hh | .emptyList, _, hh | .raw _, _, hh => by
    simp [Item.heads] at hh
  | .list items, h, hh => by
    simp only [Item.heads, List.mem_cons] at hh
    rcases hh with rfl | hh
    · simp
    · simpa [Item.data] using Item.offset_headsAll h hh

theorem Item.offset_headsAll {o : ℕ} : ∀ {its : List Item}, ∀ h ∈ Item.headsAll o its,
    o ≤ h.offset ∧ h.offset ≤ o + (Item.dataAll its).length
  | [], _, hh => by simp [Item.headsAll] at hh
  | it :: its, h, hh => by
    simp only [Item.headsAll, List.mem_append] at hh
    rcases hh with hh | hh
    · have := Item.offset_heads h hh
      simp only [Item.dataAll, List.length_append]
      omega
    · have := Item.offset_headsAll h hh
      simp only [Item.dataAll, List.length_append]
      omega
end

mutual
/-- Splicing an item's headers into its string data gives its encoding, and
leaves the headers after it as they were. -/
theorem Item.out_heads {S : Bytes} {o : ℕ} : ∀ (it : Item) {T : Bytes}, S.drop o = it.data ++ T →
    ∀ {hs : List ListHead}, (∀ h ∈ hs, o + it.data.length ≤ h.offset) →
      out S (it.heads o ++ hs) o = it.encode ++ out S hs (o + it.data.length)
  | .list items, T, hS, hs, hhs => by
    -- the list's own header stands first, at the start of its data
    rw [Item.heads, List.cons_append, out_cons (le_refl o), Nat.sub_self, List.take_zero, List.nil_append,
      Item.out_headsAll items hS hhs]
    simp [Item.encode, Item.data, ListHead.encode, Rlp.encodeList]
  | .string _, T, hS, hs, hhs | .uint _, T, hS, hs, hhs | .emptyString, T, hS, hs, hhs
  | .emptyList, T, hS, hs, hhs | .raw _, T, hS, hs, hhs => by
    -- no header: the item is its own string data
    simp only [Item.heads, List.nil_append]
    rw [out_shift (Nat.le_add_right _ _) hhs, Nat.add_sub_cancel_left, hS, List.take_left' rfl]
    simp [Item.encode, Item.data, Rlp.encodeString, Rlp.encodeList, head]

theorem Item.out_headsAll {S : Bytes} {o : ℕ} : ∀ (its : List Item) {T : Bytes}, S.drop o = Item.dataAll its ++ T →
    ∀ {hs : List ListHead}, (∀ h ∈ hs, o + (Item.dataAll its).length ≤ h.offset) →
      out S (Item.headsAll o its ++ hs) o = Item.encodeAll its ++ out S hs (o + (Item.dataAll its).length)
  | [], T, _, hs, _ => by simp [Item.headsAll, Item.encodeAll, Item.dataAll]
  | it :: its, T, hS, hs, hhs => by
    have hS' : S.drop (o + it.data.length) = Item.dataAll its ++ T := by
      rw [← List.drop_drop, hS, Item.dataAll, List.append_assoc, List.drop_left]
    have hafter : ∀ h ∈ Item.headsAll (o + it.data.length) its ++ hs, o + it.data.length ≤ h.offset := by
      intro h hh
      rcases List.mem_append.mp hh with hh | hh
      · exact (Item.offset_headsAll h hh).1
      · have := hhs h hh
        simp only [Item.dataAll, List.length_append] at this
        omega
    rw [Item.headsAll, List.append_assoc, Item.out_heads it (by rw [hS, Item.dataAll, List.append_assoc]) hafter,
      Item.out_headsAll its hS' (by simpa [Item.dataAll, Nat.add_assoc] using hhs)]
    simp [Item.encodeAll, Item.dataAll, Nat.add_assoc]
end

mutual
/-- An item's headers are in the order of their offsets. -/
theorem Item.sorted_heads (o : ℕ) : ∀ it : Item, (it.heads o).Pairwise fun a b => a.offset ≤ b.offset
  | .string _ | .uint _ | .emptyString | .emptyList | .raw _ => List.Pairwise.nil
  | .list items => by
    rw [Item.heads, List.pairwise_cons]
    exact ⟨fun b hb => (Item.offset_headsAll b hb).1, Item.sorted_headsAll o items⟩

theorem Item.sorted_headsAll (o : ℕ) : ∀ its : List Item,
    (Item.headsAll o its).Pairwise fun a b => a.offset ≤ b.offset
  | [] => List.Pairwise.nil
  | it :: its => by
    rw [Item.headsAll, List.pairwise_append]
    refine ⟨Item.sorted_heads o it, Item.sorted_headsAll _ its, fun a ha b hb => ?_⟩
    exact (Item.offset_heads a ha).2.trans (Item.offset_headsAll b hb).1
end

/-! ## The two outputs -/

namespace Encoder

theorem writeAt_replicate (P src : Bytes) (z : ℕ) :
    writeAt (P ++ List.replicate z 0) P.length src = P ++ src ++ List.replicate (z - src.length) 0 := by
  simp [writeAt, List.drop_append, List.drop_replicate]

theorem copyAt_replicate (P : Bytes) {src : Bytes} {z : ℕ} (h : src.length ≤ z) :
    copyAt (P ++ List.replicate z 0) P.length src = (P ++ src ++ List.replicate (z - src.length) 0, src.length) := by
  have hn : min ((P ++ List.replicate z 0).length - P.length) src.length = src.length := by simp; omega
  simp only [copyAt, hn, List.take_length, writeAt_replicate]

/-- `ToWriter` writes the spliced headers and data when every header lies
within the data. -/
theorem toWriterLoop_eq (S : Bytes) : ∀ (hs : List ListHead) (p : ℕ), (∀ h ∈ hs, h.offset ≤ S.length) →
    toWriterLoop S hs p = some (out S hs p)
  | [], p, _ => by
    by_cases hp : p < S.length
    · simp [toWriterLoop, hp]
    · simp [toWriterLoop, hp, List.drop_eq_nil_of_le (Nat.le_of_not_lt hp)]
  | h :: hs, p, hin => by
    have hrest := toWriterLoop_eq S hs
    have hh := hin h (List.mem_cons_self ..)
    have hin' : ∀ h ∈ hs, h.offset ≤ S.length := fun h' hh' => hin h' (List.mem_cons_of_mem _ hh')
    by_cases hp : p < h.offset
    · rw [toWriterLoop, if_pos hp, if_neg (Nat.not_lt.mpr hh), hrest _ hin', out_cons (Nat.le_of_lt hp)]
      rfl
    · rw [toWriterLoop, if_neg hp, hrest _ hin', out_cons_of_le (Nat.le_of_not_lt hp)]
      rfl

/-- `ToBytes` writes the spliced headers into a buffer with room for them:
the buffer's written part grows by what `splice` writes, and the rest stays
zero. -/
theorem toBytesLoop_eq (S : Bytes) : ∀ (hs : List ListHead) (p : ℕ) (P : Bytes) (z : ℕ),
    hs.Pairwise (fun a b => a.offset ≤ b.offset) → (∀ h ∈ hs, p ≤ h.offset ∧ h.offset ≤ S.length) →
    (splice S hs p).1.length ≤ z →
    toBytesLoop S hs (P ++ List.replicate z 0) P.length p =
      some (P ++ (splice S hs p).1 ++ List.replicate (z - (splice S hs p).1.length) 0,
        P.length + (splice S hs p).1.length, (splice S hs p).2)
  | [], p, P, z, _, _, _ => by simp [toBytesLoop, splice]
  | h :: hs, p, P, z, hsorted, hin, hz => by
    obtain ⟨hph, hhS⟩ := hin h (List.mem_cons_self ..)
    rw [List.pairwise_cons] at hsorted
    -- the data up to the header, then the header, each fits what is left of the buffer
    set seg := (S.drop p).take (h.offset - p) with hseg_def
    have hseg : seg.length = h.offset - p := by simp [seg]; omega
    have hsp : splice S (h :: hs) p = (seg ++ h.encode ++ (splice S hs h.offset).1, (splice S hs h.offset).2) := by
      simp [splice, seg, Nat.max_eq_right hph]
    rw [hsp] at hz ⊢
    simp only [List.length_append] at hz
    have hcopy := copyAt_replicate P (show seg.length ≤ z by omega)
    have hfits : ¬ (P ++ seg ++ List.replicate (z - seg.length) 0).length - (P.length + seg.length) <
        h.encode.length := by simp; omega
    have hwrite := writeAt_replicate (P ++ seg) h.encode (z - seg.length)
    simp only [List.length_append] at hwrite
    have hrest := toBytesLoop_eq S hs h.offset (P ++ seg ++ h.encode) (z - seg.length - h.encode.length)
      hsorted.2 (fun b hb => ⟨hsorted.1 b hb, (hin b (List.mem_cons_of_mem _ hb)).2⟩) (by omega)
    rw [toBytesLoop, if_neg (by omega), ← hseg_def]
    simp only [hcopy, hfits, if_false, hwrite]
    rw [show p + seg.length = h.offset by omega, show P.length + seg.length + h.encode.length =
      (P ++ seg ++ h.encode).length by simp [Nat.add_assoc], hrest]
    have hz' : z - seg.length - h.encode.length - (splice S hs h.offset).1.length =
        z - (seg ++ h.encode ++ (splice S hs h.offset).1).length := by simp; omega
    rw [hz']
    simp [Nat.add_assoc]

end Encoder

/-- An encoder holding a forest's string data and headers outputs the
forest's encoding, both ways. -/
theorem outputs_eq (items : List Item) :
    (⟨Item.dataAll items, Item.headsAll 0 items, Item.hdrLenAll items⟩ : Encoder).toBytes =
        some (Item.encodeAll items) ∧
      (⟨Item.dataAll items, Item.headsAll 0 items, Item.hdrLenAll items⟩ : Encoder).toWriter =
        some (Item.encodeAll items) := by
  set S := Item.dataAll items
  set H := Item.headsAll 0 items
  have hin : ∀ h ∈ H, 0 ≤ h.offset ∧ h.offset ≤ S.length := fun h hh => by
    simpa using Item.offset_headsAll h hh
  -- splicing the headers into the data gives the encoding
  have hout : out S H 0 = Item.encodeAll items := by
    have := Item.out_headsAll items (S := S) (o := 0) (T := []) (by simp [S])
      (show ∀ h ∈ ([] : List ListHead), 0 + S.length ≤ h.offset by simp)
    simpa [S, H] using this
  have hlen : S.length + Item.hdrLenAll items = (Item.encodeAll items).length :=
    (Item.length_encodeAll items).symm
  have hsplit : (splice S H 0).1.length + (S.drop (splice S H 0).2).length = (Item.encodeAll items).length := by
    rw [← hout, out, List.length_append]
  constructor
  · -- the buffer is exactly as long as the encoding
    have hloop := Encoder.toBytesLoop_eq S H 0 [] (S.length + Item.hdrLenAll items) (Item.sorted_headsAll 0 items) hin
      (by omega)
    simp only [List.nil_append, List.length_nil, Nat.zero_add] at hloop
    have hz : (S.drop (splice S H 0).2).length ≤ S.length + Item.hdrLenAll items - (splice S H 0).1.length := by
      omega
    have hcopy := Encoder.copyAt_replicate (splice S H 0).1 hz
    simp only [Encoder.toBytes, Encoder.size, hloop, Option.map_some, hcopy]
    rw [show S.length + Item.hdrLenAll items - (splice S H 0).1.length - (S.drop (splice S H 0).2).length = 0 by omega,
      List.replicate_zero, List.append_nil, ← out, hout]
  · exact (Encoder.toWriterLoop_eq S H 0 fun h hh => (hin h hh).2).trans (by rw [hout])

/-- Every well-nested sequence of calls on a reset encoder, the calls of a
forest of items: `ToBytes` and `ToWriter` both give the canonical encoding. -/
theorem toBytes_callsAll (w : Encoder) (items : List Item) :
    ∃ w', w.reset.run (Item.callsAll 0 items) = some w' ∧
      w'.toBytes = some (Item.encodeAll items) ∧ w'.toWriter = some (Item.encodeAll items) := by
  have hrun := Encoder.run_callsAll w.reset items
  simp only [Encoder.reset, List.length_nil, List.nil_append, Nat.zero_add] at hrun
  exact ⟨_, hrun, outputs_eq items⟩

end Workshare.Lowrlp
