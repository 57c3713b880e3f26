import Workshare.Muxdb.Trie
import Workshare.Lowrlp
import Workshare.RlpValue

/-!
# Node keys never collide

A managed trie stores a node under a history key: the history space, the
partition of the commit number, the trie name, the encoded path, the rest of
the commit number and the distinct number; and reads it also under a
deduplicated key of space, partition, name and path. The node cache keys a
blob by name, raw path and distinct number, and the queried-node cache adds
the commit number. Names have no length prefix, so these keys tell their
parts apart only because the names the system creates are prefix-free: "a"
for accounts, "i" for the chain index, and "s" followed by a storage id that
`Stage` builds from three RLP unsigned integers. Paths are packed four
nibbles to two bytes after a byte counting the groups of four, with a tagged
tail for the last one to three nibbles.

From these, each key determines the parts it is built from
(`nodeKeys_injective`), so that a cached blob is only ever returned for the
name, sequence and path it was added for, and `CleanHistory` reads back the
commit number of every history key.
-/
namespace Workshare.Muxdb

open Lowrlp

/-- `AccountTrieName`, "a". -/
def accountTrieName : Bytes := [0x61]

/-- `IndexTrieName`, "i". -/
def indexTrieName : Bytes := [0x69]

/-- `StorageTrieName`: "s" before the storage id; it panics on an empty id. -/
def storageTrieName (sid : Bytes) : Option Bytes := if sid = [] then none else some (0x73 :: sid)

/-- The storage id `Stage` gives a new storage trie: the block number, the
block's conflicts and the number of storage tries created before it in the
stage, each encoded by `EncodeUint` on a fresh encoder. -/
def storageId (blockNum conflicts : UInt32) (count : UInt64) : Option Bytes :=
  ((⟨[], [], 0⟩ : Encoder).run
    [.encodeUint blockNum.toUInt64, .encodeUint conflicts.toUInt64, .encodeUint count]).bind Encoder.toBytes

/-- The names of the tries the system creates. -/
def TrieName (name : Bytes) : Prop :=
  name = accountTrieName ∨ name = indexTrieName ∨
    ∃ blockNum conflicts count sid, storageId blockNum conflicts count = some sid ∧ storageTrieName sid = some name

/-! ## Names -/

theorem storageId_eq (blockNum conflicts : UInt32) (count : UInt64) :
    storageId blockNum conflicts count =
      some (Rlp.encodeUint blockNum.toUInt64.toNat ++ Rlp.encodeUint conflicts.toUInt64.toNat ++
        Rlp.encodeUint count.toNat) := by
  have hrun := Encoder.run_callsAll ⟨[], [], 0⟩ [.uint blockNum.toUInt64, .uint conflicts.toUInt64, .uint count]
  simp only [List.length_nil, List.nil_append, Nat.zero_add] at hrun
  have hcalls : Item.callsAll 0 [.uint blockNum.toUInt64, .uint conflicts.toUInt64, .uint count] =
      [.encodeUint blockNum.toUInt64, .encodeUint conflicts.toUInt64, .encodeUint count] := rfl
  rw [storageId, ← hcalls, hrun, Option.bind_some, (outputs_eq _).1]
  simp [Item.encodeAll, Item.encode]

/-- An unsigned integer's encoding followed by anything is read back. -/
theorem encodeUint_prefix_unique {x y : UInt64} {r r' : Bytes}
    (h : Rlp.encodeUint x.toNat ++ r = Rlp.encodeUint y.toNat ++ r') : x = y ∧ r = r' := by
  have hx := Rlp.readUint64_encodeUint x r
  rw [h, Rlp.readUint64_encodeUint] at hx
  obtain ⟨hxy, hr⟩ := Prod.mk.inj (Except.ok.inj hx)
  exact ⟨hxy.symm, hr.symm⟩

/-- A storage id followed by anything is read back: its three numbers, and
what follows. -/
theorem storageId_prefix_unique {a b a' b' : UInt32} {c c' : UInt64} {sid sid' r r' : Bytes}
    (h : storageId a b c = some sid) (h' : storageId a' b' c' = some sid') (he : sid ++ r = sid' ++ r') :
    sid = sid' ∧ r = r' := by
  rw [storageId_eq, Option.some.injEq] at h h'
  subst h h'
  simp only [List.append_assoc] at he
  obtain ⟨ha, he₁⟩ := encodeUint_prefix_unique he
  obtain ⟨hb, he₂⟩ := encodeUint_prefix_unique he₁
  obtain ⟨hc, he₃⟩ := encodeUint_prefix_unique he₂
  exact ⟨by rw [ha, hb, hc], he₃⟩

/-- A name the system creates is one of its three forms. -/
theorem TrieName.cases {n : Bytes} (hn : TrieName n) :
    n = [0x61] ∨ n = [0x69] ∨ ∃ a b c sid, storageId a b c = some sid ∧ n = 0x73 :: sid := by
  rcases hn with rfl | rfl | ⟨a, b, c, sid, hs, hn⟩
  · exact .inl rfl
  · exact .inr (.inl rfl)
  · have h0 : sid ≠ [] := fun h0 => by simp [storageTrieName, h0] at hn
    simp only [storageTrieName, h0, if_false, Option.some.injEq] at hn
    exact .inr (.inr ⟨a, b, c, sid, hs, hn.symm⟩)

/-- The names the system creates are prefix-free: a name followed by
anything is read back. -/
theorem TrieName.prefix_unique {n n' r r' : Bytes} (hn : TrieName n) (hn' : TrieName n')
    (he : n ++ r = n' ++ r') : n = n' ∧ r = r' := by
  rcases hn.cases with rfl | rfl | ⟨a, b, c, sid, hs, rfl⟩ <;>
    rcases hn'.cases with rfl | rfl | ⟨a', b', c', sid', hs', rfl⟩
  all_goals simp only [List.cons_append, List.nil_append, List.cons.injEq] at he
  -- names of different kinds differ in their first byte
  all_goals try exact absurd he.1 (by decide)
  · exact ⟨rfl, he.2⟩
  · exact ⟨rfl, he.2⟩
  · -- two storage trie names: the storage ids are read back
    obtain ⟨hsid, hr⟩ := storageId_prefix_unique hs hs' he.2
    exact ⟨by rw [hsid], hr⟩

/-! ## Fixed-width numbers -/

/-- An or with a number below the shift is a sum. -/
theorem mul_two_pow_or {x y k : ℕ} (hy : y < 2 ^ k) : x * 2 ^ k ||| y = x * 2 ^ k + y := by
  rw [← Nat.shiftLeft_eq]
  exact (Nat.shiftLeft_add_eq_or_of_lt hy x).symm

/-- The four bytes `appendUint32` writes, as numbers. -/
theorem map_toNat_appendUint32 (v : UInt32) :
    (appendUint32 [] v).map UInt8.toNat =
      [v.toNat / 2 ^ 24 % 256, v.toNat / 2 ^ 16 % 256, v.toNat / 2 ^ 8 % 256, v.toNat % 256] := by
  simp [appendUint32, UInt32.toNat_shiftRight, Nat.shiftRight_eq_div_pow]

theorem toNat_shiftLeft_or_toUInt32 (acc : UInt32) (x : UInt8) :
    ((acc <<< 8) ||| x.toUInt32).toNat = (acc.toNat % 2 ^ 24 * 2 ^ 8 + x.toNat) := by
  have h8 : (8 : UInt32).toNat % 32 = 8 := rfl
  have hx : x.toNat < 2 ^ 8 := x.toNat_lt
  rw [UInt32.toNat_or, UInt32.toNat_shiftLeft, h8, Nat.shiftLeft_eq, UInt8.toNat_toUInt32,
    show acc.toNat * 2 ^ 8 % 2 ^ 32 = acc.toNat % 2 ^ 24 * 2 ^ 8 by omega, mul_two_pow_or hx]

/-- `binary.BigEndian.Uint32` reads back what `appendUint32` wrote. -/
theorem beUint32_appendUint32 (v : UInt32) (r : Bytes) : beUint32 (appendUint32 [] v ++ r) = v := by
  have hv := v.toNat_lt
  have h24 : (24 : UInt32).toNat % 32 = 24 := rfl
  have h16 : (16 : UInt32).toNat % 32 = 16 := rfl
  have h8 : (8 : UInt32).toNat % 32 = 8 := rfl
  apply UInt32.toNat_inj.mp
  simp only [beUint32, appendUint32, List.nil_append, List.cons_append, List.take_succ_cons, List.take_zero,
    List.foldl_cons, List.foldl_nil, toNat_shiftLeft_or_toUInt32, UInt32.toNat_zero, UInt32.toNat_toUInt8,
    UInt32.toNat_shiftRight, Nat.shiftRight_eq_div_pow, h24, h16, h8]
  omega

theorem appendUint32_inj {v v' : UInt32} (h : appendUint32 [] v = appendUint32 [] v') : v = v' := by
  have hv := beUint32_appendUint32 v []
  rw [h, beUint32_appendUint32] at hv
  exact hv.symm

/-- The commit and distinct numbers of a sequence. -/
theorem toNat_makeSequence (commitNum distinctNum : UInt32) :
    (makeSequence commitNum distinctNum).toNat = distinctNum.toNat * 2 ^ 32 + commitNum.toNat := by
  have h32 : (32 : UInt64).toNat % 64 = 32 := rfl
  have hc : commitNum.toNat < 2 ^ 32 := commitNum.toNat_lt
  have hd : distinctNum.toNat < 2 ^ 32 := distinctNum.toNat_lt
  rw [makeSequence, UInt64.toNat_or, UInt64.toNat_shiftLeft, h32, Nat.shiftLeft_eq, UInt32.toNat_toUInt64,
    UInt32.toNat_toUInt64, Nat.mod_eq_of_lt (by omega), Nat.or_comm, mul_two_pow_or hc]

@[simp] theorem commitNumOf_makeSequence (commitNum distinctNum : UInt32) :
    commitNumOf (makeSequence commitNum distinctNum) = commitNum := by
  apply UInt32.toNat_inj.mp
  rw [commitNumOf, UInt64.toNat_toUInt32, toNat_makeSequence]
  have := commitNum.toNat_lt
  omega

@[simp] theorem distinctNumOf_makeSequence (commitNum distinctNum : UInt32) :
    distinctNumOf (makeSequence commitNum distinctNum) = distinctNum := by
  apply UInt32.toNat_inj.mp
  have h32 : (32 : UInt64).toNat % 64 = 32 := rfl
  rw [distinctNumOf, UInt64.toNat_toUInt32, UInt64.toNat_shiftRight, h32, toNat_makeSequence,
    Nat.shiftRight_eq_div_pow]
  have := commitNum.toNat_lt
  have := distinctNum.toNat_lt
  omega

@[simp] theorem length_appendUint32 (v : UInt32) : (appendUint32 [] v).length = 4 := rfl

/-- A sequence is its commit and distinct numbers. -/
theorem seq_eq {seq seq' : UInt64} (hc : commitNumOf seq = commitNumOf seq')
    (hd : distinctNumOf seq = distinctNumOf seq') : seq = seq' := by
  have h32 : (32 : UInt64).toNat % 64 = 32 := rfl
  rw [← UInt32.toNat_inj, commitNumOf, commitNumOf, UInt64.toNat_toUInt32, UInt64.toNat_toUInt32] at hc
  rw [← UInt32.toNat_inj, distinctNumOf, distinctNumOf, UInt64.toNat_toUInt32, UInt64.toNat_toUInt32,
    UInt64.toNat_shiftRight, UInt64.toNat_shiftRight, h32, Nat.shiftRight_eq_div_pow,
    Nat.shiftRight_eq_div_pow] at hd
  have := seq.toNat_lt
  have := seq'.toNat_lt
  exact UInt64.toNat_inj.mp (by omega)

/-- A partition and its remainder make the number again; the product cannot wrap. -/
theorem div_mul_add_mod_uint32 (a b : UInt32) : a / b * b + a % b = a := by
  apply UInt32.toNat_inj.mp
  have h := Nat.div_add_mod' a.toNat b.toNat
  have ha := a.toNat_lt
  rw [UInt32.toNat_add, UInt32.toNat_mul, UInt32.toNat_div, UInt32.toNat_mod]
  omega

/-! ## Paths -/

/-- A byte of two nibbles. -/
theorem toNat_nibbles {a b : UInt8} (ha : a.toNat < 16) (hb : b.toNat < 16) :
    ((a <<< 4) ||| b).toNat = a.toNat * 16 + b.toNat := by
  have h4 : (4 : UInt8).toNat % 8 = 4 := rfl
  rw [UInt8.toNat_or, UInt8.toNat_shiftLeft, h4, Nat.shiftLeft_eq, Nat.mod_eq_of_lt (by omega),
    mul_two_pow_or (by omega)]
  omega

/-- Sixteen bits of nibbles, from the top. -/
theorem toNat_nibbles₂ {a b : UInt8} (ha : a.toNat < 16) (hb : b.toNat < 16) :
    ((a.toUInt16 <<< 4) ||| b.toUInt16).toNat = a.toNat * 16 + b.toNat := by
  have h4 : (4 : UInt16).toNat % 16 = 4 := rfl
  rw [UInt16.toNat_or, UInt16.toNat_shiftLeft, h4, UInt8.toNat_toUInt16, UInt8.toNat_toUInt16,
    Nat.shiftLeft_eq, Nat.mod_eq_of_lt (by omega), mul_two_pow_or (by omega)]
  omega

theorem toNat_nibbles₃ {a b c : UInt8} (ha : a.toNat < 16) (hb : b.toNat < 16) (hc : c.toNat < 16) :
    (((a.toUInt16 <<< 8) ||| (b.toUInt16 <<< 4)) ||| c.toUInt16).toNat =
      a.toNat * 256 + b.toNat * 16 + c.toNat := by
  have h8 : (8 : UInt16).toNat % 16 = 8 := rfl
  have h4 : (4 : UInt16).toNat % 16 = 4 := rfl
  rw [UInt16.toNat_or, UInt16.toNat_or, UInt16.toNat_shiftLeft, UInt16.toNat_shiftLeft, h8, h4,
    UInt8.toNat_toUInt16, UInt8.toNat_toUInt16, UInt8.toNat_toUInt16, Nat.shiftLeft_eq, Nat.shiftLeft_eq,
    Nat.mod_eq_of_lt (a := a.toNat * 2 ^ 8) (by omega), Nat.mod_eq_of_lt (a := b.toNat * 2 ^ 4) (by omega),
    mul_two_pow_or (by omega),
    show a.toNat * 2 ^ 8 + b.toNat * 2 ^ 4 = (a.toNat * 16 + b.toNat) * 2 ^ 4 by omega, mul_two_pow_or (by omega)]
  omega

/-- The two bytes `appendUint16` writes, as numbers. -/
theorem map_toNat_appendUint16 (v : UInt16) : (appendUint16 [] v).map UInt8.toNat = [v.toNat / 256, v.toNat % 256] := by
  have h8 : (8 : UInt16).toNat % 16 = 8 := rfl
  have := v.toNat_lt
  simp only [appendUint16, List.nil_append, List.map_cons, List.map_nil, UInt16.toNat_toUInt8,
    UInt16.toNat_shiftRight, h8, Nat.shiftRight_eq_div_pow, List.cons.injEq, and_true]
  omega

/-- The tagged tail `encodePath` writes for the last one to three nibbles, as
numbers: after an empty tail a zero, after one nibble an odd byte below
`0x80`, after two a byte from `0x80` and an even byte, after three a byte
from `0x80` and an odd byte. -/
def tailCode : List ℕ → List ℕ
  | [] => [0]
  | [a] => [a * 8 + 1]
  | [a, b] => [128 + (a * 16 + b) / 2, (a * 16 + b) % 2 * 128]
  | [a, b, c] => [128 + (a * 256 + b * 16 + c) / 32, (a * 256 + b * 16 + c) % 32 * 8 + 1]
  | _ => []

theorem map_toNat_encodePathLoop_tail {p : Bytes} (hp : ∀ x ∈ p, x.toNat < 16) (hl : p.length < 4) :
    (encodePathLoop p).map UInt8.toNat = tailCode (p.map UInt8.toNat) := by
  match p, hl with
  | [], _ => rfl
  | [a], _ =>
    have h3 : (3 : UInt8).toNat % 8 = 3 := rfl
    have ha := hp a (by simp)
    simp only [encodePathLoop, List.map_cons, List.map_nil, tailCode, UInt8.toNat_or, UInt8.toNat_shiftLeft, h3,
      Nat.shiftLeft_eq, Nat.mod_eq_of_lt (show a.toNat * 2 ^ 3 < 2 ^ 8 by omega), mul_two_pow_or (show (1 : UInt8).toNat < 2 ^ 3 by decide)]
    rfl
  | [a, b], _ =>
    have ha := hp a (by simp)
    have hb := hp b (by simp)
    have h7 : (7 : UInt16).toNat % 16 = 7 := rfl
    have hv : ((0x8000 : UInt16) ||| (((a.toUInt16 <<< 4) ||| b.toUInt16) <<< 7)).toNat =
        32768 + (a.toNat * 16 + b.toNat) * 128 := by
      rw [UInt16.toNat_or, UInt16.toNat_shiftLeft, toNat_nibbles₂ ha hb, h7, Nat.shiftLeft_eq,
        Nat.mod_eq_of_lt (by omega), show (0x8000 : UInt16).toNat = 1 * 2 ^ 15 from rfl, mul_two_pow_or (by omega)]
      omega
    rw [encodePathLoop, map_toNat_appendUint16, hv]
    simp only [List.map_cons, List.map_nil, tailCode, List.cons.injEq, and_true]
    omega
  | [a, b, c], _ =>
    have ha := hp a (by simp)
    have hb := hp b (by simp)
    have hc := hp c (by simp)
    have h3 : (3 : UInt16).toNat % 16 = 3 := rfl
    have hv : ((0x8000 : UInt16) ||| ((((a.toUInt16 <<< 8) ||| (b.toUInt16 <<< 4)) ||| c.toUInt16) <<< 3) |||
        1).toNat = 32768 + (a.toNat * 256 + b.toNat * 16 + c.toNat) * 8 + 1 := by
      rw [UInt16.toNat_or, UInt16.toNat_or, UInt16.toNat_shiftLeft, toNat_nibbles₃ ha hb hc, h3, Nat.shiftLeft_eq,
        Nat.mod_eq_of_lt (by omega), show (0x8000 : UInt16).toNat = 1 * 2 ^ 15 from rfl, mul_two_pow_or (by omega),
        show 1 * 2 ^ 15 + (a.toNat * 256 + b.toNat * 16 + c.toNat) * 2 ^ 3 =
          (4096 + (a.toNat * 256 + b.toNat * 16 + c.toNat)) * 2 ^ 3 by omega,
        mul_two_pow_or (show (1 : UInt16).toNat < 2 ^ 3 by decide)]
      simp only [UInt16.toNat_one]
      omega
    rw [encodePathLoop, map_toNat_appendUint16, hv]
    simp only [List.map_cons, List.map_nil, tailCode, List.cons.injEq, and_true]
    omega

/-- The four kinds of tail differ, and each determines its nibbles. -/
theorem tailCode_inj {p q : List ℕ} (hp : ∀ x ∈ p, x < 16) (hq : ∀ x ∈ q, x < 16) (hpl : p.length < 4)
    (hql : q.length < 4) (h : tailCode p = tailCode q) : p = q := by
  match p, q, hpl, hql with
  | [], [], _, _ => rfl
  | [a], [a'], _, _ =>
    simp only [tailCode, List.cons.injEq, and_true] at h ⊢
    omega
  | [a, b], [a', b'], _, _ => simp_all [tailCode]; omega
  | [a, b, c], [a', b', c'], _, _ => simp_all [tailCode]; omega
  -- tails of different kinds
  | [], [_], _, _ | [_], [], _, _
  | [], [_, _], _, _ | [], [_, _, _], _, _ | [_, _], [], _, _ | [_, _, _], [], _, _
  | [_], [_, _], _, _ | [_], [_, _, _], _, _ | [_, _], [_], _, _ | [_, _, _], [_], _, _ => simp [tailCode] at h
  | [a, b], [a', b', c'], _, _ | [a, b, c], [a', b'], _, _ => simp [tailCode] at h; omega

theorem encodePathLoop_tail_inj {p q : Bytes} (hp : ∀ x ∈ p, x.toNat < 16) (hq : ∀ x ∈ q, x.toNat < 16)
    (hpl : p.length < 4) (hql : q.length < 4) (h : encodePathLoop p = encodePathLoop q) : p = q := by
  have hmap : tailCode (p.map UInt8.toNat) = tailCode (q.map UInt8.toNat) := by
    rw [← map_toNat_encodePathLoop_tail hp hpl, ← map_toNat_encodePathLoop_tail hq hql, h]
  have hnat := tailCode_inj (by simpa using hp) (by simpa using hq) (by simpa using hpl) (by simpa using hql) hmap
  exact List.map_injective_iff.mpr (fun _ _ => UInt8.toNat_inj.mp) hnat

/-- Paths with as many groups of four are told apart by their loop bytes:
the groups byte by byte, the tails by `tailCode_inj`. -/
theorem encodePathLoop_inj {p q : Bytes} (hp : ∀ x ∈ p, x.toNat < 16) (hq : ∀ x ∈ q, x.toNat < 16)
    (hl : p.length / 4 = q.length / 4) (h : encodePathLoop p = encodePathLoop q) : p = q := by
  induction p using encodePathLoop.induct generalizing q with
  | case1 => exact encodePathLoop_tail_inj hp hq (by simp) (by simp at hl; omega) h
  | case2 => exact encodePathLoop_tail_inj hp hq (by simp) (by simp at hl; omega) h
  | case3 => exact encodePathLoop_tail_inj hp hq (by simp) (by simp at hl; omega) h
  | case4 => exact encodePathLoop_tail_inj hp hq (by simp) (by simp at hl; omega) h
  | case5 a b c d p ih =>
    match q, hl with
    | [], hl | [_], hl | [_, _], hl | [_, _, _], hl => simp at hl; omega
    | a' :: b' :: c' :: d' :: q, hl =>
      simp only [encodePathLoop, List.cons.injEq, ← UInt8.toNat_inj] at h
      obtain ⟨h₁, h₂, h₃⟩ := h
      rw [toNat_nibbles (hp a (by simp)) (hp b (by simp)), toNat_nibbles (hq a' (by simp)) (hq b' (by simp))] at h₁
      rw [toNat_nibbles (hp c (by simp)) (hp d (by simp)), toNat_nibbles (hq c' (by simp)) (hq d' (by simp))] at h₂
      have hb := hp b (by simp)
      have hb' := hq b' (by simp)
      have hd := hp d (by simp)
      have hd' := hq d' (by simp)
      have hrest : p = q :=
        ih (fun x hx => hp x (by simp [hx])) (fun x hx => hq x (by simp [hx])) (by simp at hl; omega) h₃
      simp only [← UInt8.toNat_inj, List.cons.injEq]
      exact ⟨by omega, by omega, by omega, by omega, hrest⟩

/-- What `encodePath` writes after its destination: the count of groups of
four, then the loop. -/
def pathCode (path : Bytes) : Bytes := (path.length / 4).toUInt8 :: encodePathLoop path

theorem encodePath_eq {dst path : Bytes} (hl : path.length < 1024) :
    encodePath dst path = some (dst ++ pathCode path) := by
  rw [encodePath, if_neg (by omega), pathCode]

/-- The count byte is the count below 1024 nibbles, so the loop bytes are
compared at equal counts. -/
theorem pathCode_inj {p q : Bytes} (hp : ∀ x ∈ p, x.toNat < 16) (hq : ∀ x ∈ q, x.toNat < 16)
    (hpl : p.length < 1024) (hql : q.length < 1024) (h : pathCode p = pathCode q) : p = q := by
  simp only [pathCode, List.cons.injEq, ← UInt8.toNat_inj, UInt8.toNat_ofNat'] at h
  exact encodePathLoop_inj hp hq (by omega) h.2

/-- `encodePath` is injective on nibble paths, where it does not panic. -/
theorem encodePath_inj {dst p q : Bytes} (hp : ∀ x ∈ p, x.toNat < 16) (hq : ∀ x ∈ q, x.toNat < 16)
    (hpl : p.length < 1024) (hql : q.length < 1024) (h : encodePath dst p = encodePath dst q) : p = q := by
  rw [encodePath_eq hpl, encodePath_eq hql, Option.some.injEq] at h
  exact pathCode_inj hp hq hpl hql (List.append_cancel_left h)

/-! ## Store keys -/

section StoreKeys

variable {t t' : Trie} {back : Backend} {seq seq' : UInt64} {path path' : Bytes}

/-- A history key, part by part. -/
theorem makeHistNodeKey_eq (hl : path.length < 1024) :
    t.makeHistNodeKey back seq path =
      some ([back.histSpace] ++ appendUint32 [] (commitNumOf seq / back.histPtnFactor) ++ t.name ++ pathCode path ++
        appendUint32 [] (commitNumOf seq % back.histPtnFactor) ++ appendUint32 [] (distinctNumOf seq)) := by
  simp only [Trie.makeHistNodeKey, encodePath_eq hl, Option.map_some, appendUint32, List.append_assoc,
    List.cons_append, List.nil_append]

/-- A deduplicated key, part by part. -/
theorem makeDedupedNodeKey_eq (hl : path.length < 1024) :
    t.makeDedupedNodeKey back seq path =
      some ([back.dedupedSpace] ++ appendUint32 [] (commitNumOf seq / back.dedupedPtnFactor) ++ t.name ++
        pathCode path) := by
  simp only [Trie.makeDedupedNodeKey, encodePath_eq hl, appendUint32, List.cons_append, List.nil_append]

/-- After a space byte, a partition, a created name and a path code are read
back from their concatenation. -/
theorem spaced_inj {sp : UInt8} {q q' : UInt32} {n n' : Bytes} (hn : TrieName n) (hn' : TrieName n')
    (hp : ∀ x ∈ path, x.toNat < 16) (hp' : ∀ x ∈ path', x.toNat < 16) (hl : path.length < 1024)
    (hl' : path'.length < 1024)
    (h : [sp] ++ appendUint32 [] q ++ n ++ pathCode path = [sp] ++ appendUint32 [] q' ++ n' ++ pathCode path') :
    q = q' ∧ n = n' ∧ path = path' := by
  simp only [List.append_assoc] at h
  obtain ⟨hq, h⟩ := List.append_inj (List.append_cancel_left h) (by simp)
  obtain ⟨hname, hcode⟩ := hn.prefix_unique hn' h
  exact ⟨appendUint32_inj hq, hname, pathCode_inj hp hp' hl hl' hcode⟩

variable (hn : TrieName t.name) (hn' : TrieName t'.name) (hp : ∀ x ∈ path, x.toNat < 16)
  (hp' : ∀ x ∈ path', x.toNat < 16) (hl : path.length < 1024) (hl' : path'.length < 1024)
include hn hn' hp hp' hl hl'

/-- History keys of created names and nibble paths determine name, path and
sequence: the last eight bytes give the remainder and the distinct number,
the front the partition, name and path. -/
theorem makeHistNodeKey_inj (h : t.makeHistNodeKey back seq path = t'.makeHistNodeKey back seq' path') :
    t.name = t'.name ∧ path = path' ∧ seq = seq' := by
  rw [makeHistNodeKey_eq hl, makeHistNodeKey_eq hl', Option.some.injEq] at h
  obtain ⟨h, hd⟩ := List.append_inj' h (by simp)
  obtain ⟨h, hm⟩ := List.append_inj' h (by simp)
  obtain ⟨hq, hname, hpath⟩ := spaced_inj hn hn' hp hp' hl hl' h
  refine ⟨hname, hpath, seq_eq ?_ (appendUint32_inj hd)⟩
  rw [← div_mul_add_mod_uint32 (commitNumOf seq) back.histPtnFactor, hq, appendUint32_inj hm,
    div_mul_add_mod_uint32]

/-- Deduplicated keys determine name, path and the partition of the commit number. -/
theorem makeDedupedNodeKey_inj (h : t.makeDedupedNodeKey back seq path = t'.makeDedupedNodeKey back seq' path') :
    t.name = t'.name ∧ path = path' ∧
      commitNumOf seq / back.dedupedPtnFactor = commitNumOf seq' / back.dedupedPtnFactor := by
  rw [makeDedupedNodeKey_eq hl, makeDedupedNodeKey_eq hl', Option.some.injEq] at h
  obtain ⟨hq, hname, hpath⟩ := spaced_inj hn hn' hp hp' hl hl' h
  exact ⟨hname, hpath, hq⟩

end StoreKeys

/-! ## Cache keys -/

section CacheKeys

variable {name name' : Bytes} {seq seq' : UInt64} {path path' : Bytes}

/-- Node cache keys of created names determine name, raw path and distinct
number; the path needs no bound, since the name ends where it is read. -/
theorem nodeKey_inj (hn : TrieName name) (hn' : TrieName name')
    (h : Cache.nodeKey name seq path = Cache.nodeKey name' seq' path') :
    name = name' ∧ path = path' ∧ distinctNumOf seq = distinctNumOf seq' := by
  rw [Cache.nodeKey, Cache.nodeKey, appendUint32, appendUint32] at h
  obtain ⟨h, hd⟩ := List.append_inj' h rfl
  obtain ⟨hname, hpath⟩ := hn.prefix_unique hn' (by simpa only [List.append_assoc] using h)
  exact ⟨hname, hpath, appendUint32_inj hd⟩

/-- The queried-node key adds the commit number, and so determines the sequence. -/
theorem queriedKey_inj (hn : TrieName name) (hn' : TrieName name')
    (h : appendUint32 (Cache.nodeKey name seq path) (commitNumOf seq) =
      appendUint32 (Cache.nodeKey name' seq' path') (commitNumOf seq')) :
    name = name' ∧ path = path' ∧ seq = seq' := by
  rw [appendUint32, appendUint32] at h
  obtain ⟨h, hc⟩ := List.append_inj' h rfl
  obtain ⟨hname, hpath, hd⟩ := nodeKey_inj hn hn' h
  exact ⟨hname, hpath, seq_eq (appendUint32_inj hc) hd⟩

end CacheKeys

/-! ## Cached blobs -/

/-- A call of `AddNodeBlob`. -/
structure NodeBlobAdd where
  name : Bytes
  seq : UInt64
  path : Bytes
  blob : Bytes
  isCommitting : Bool

/-- The cache after a sequence of `AddNodeBlob` calls. -/
def addNodeBlobs (c : Option Cache) (adds : List NodeBlobAdd) : Option Cache :=
  adds.foldl (fun c a => addNodeBlob c a.name a.seq a.path a.blob a.isCommitting) c

/-- Every blob of the two node caches is stored under the key of a call among
`adds`, a committing blob behind that call's commit number. -/
structure BlobsAdded (adds : List NodeBlobAdd) (c : Cache) : Prop where
  committed : ∀ k v, c.committedNodes k = some v → ∃ a ∈ adds, a.isCommitting = true ∧
    Cache.nodeKey a.name a.seq a.path = k ∧ v = appendUint32 [] (commitNumOf a.seq) ++ a.blob
  queried : ∀ k v, c.queriedNodes k = some v → ∃ a ∈ adds,
    appendUint32 (Cache.nodeKey a.name a.seq a.path) (commitNumOf a.seq) = k ∧ v = a.blob

section Blobs

variable {adds : List NodeBlobAdd} {c : Cache}

theorem blobsAdded_empty : BlobsAdded [] Cache.empty := ⟨by simp [Cache.empty], by simp [Cache.empty]⟩

theorem BlobsAdded.append (h : BlobsAdded adds c) (more : List NodeBlobAdd) : BlobsAdded (adds ++ more) c where
  committed k v hk := by
    obtain ⟨a, ha, h⟩ := h.committed k v hk
    exact ⟨a, List.mem_append_left more ha, h⟩
  queried k v hk := by
    obtain ⟨a, ha, h⟩ := h.queried k v hk
    exact ⟨a, List.mem_append_left more ha, h⟩

/-- One call keeps the invariant: the entry it writes is its own, and the
other cache is untouched. -/
theorem BlobsAdded.add {c' : Cache} (h : BlobsAdded adds c) (a : NodeBlobAdd)
    (hc : addNodeBlob (some c) a.name a.seq a.path a.blob a.isCommitting = some c') :
    BlobsAdded (adds ++ [a]) c' := by
  simp only [addNodeBlob, Option.map_some, Option.some.injEq] at hc
  subst hc
  have hmem : a ∈ adds ++ [a] := by simp
  have h' := h.append [a]
  cases hcm : a.isCommitting
  · refine ⟨fun k v hk => h'.committed k v (by simpa [hcm] using hk), fun k v hk => ?_⟩
    simp only [Bool.false_eq_true, if_false, Function.update_apply] at hk
    split_ifs at hk with hkey
    · exact ⟨a, hmem, hkey.symm, (Option.some.inj hk).symm⟩
    · exact h'.queried k v hk
  · refine ⟨fun k v hk => ?_, fun k v hk => h'.queried k v (by simpa [hcm] using hk)⟩
    simp only [if_true, Function.update_apply] at hk
    split_ifs at hk with hkey
    · exact ⟨a, hmem, hcm, hkey.symm, (Option.some.inj hk).symm⟩
    · exact h'.committed k v hk

/-- A run of calls from a cache ends in a cache, which keeps the invariant
with the calls added. -/
theorem BlobsAdded.addNodeBlobs (h : BlobsAdded adds c) (more : List NodeBlobAdd) :
    ∃ c', addNodeBlobs (some c) more = some c' ∧ BlobsAdded (adds ++ more) c' := by
  induction more generalizing adds c with
  | nil => exact ⟨c, rfl, by simpa using h⟩
  | cons a more ih =>
    obtain ⟨c₁, hc₁⟩ : ∃ c₁, addNodeBlob (some c) a.name a.seq a.path a.blob a.isCommitting = some c₁ :=
      ⟨_, rfl⟩
    obtain ⟨c', hrun, hc'⟩ := ih (h.add a hc₁)
    refine ⟨c', ?_, by simpa using hc'⟩
    rw [Workshare.Muxdb.addNodeBlobs, List.foldl_cons, hc₁]
    exact hrun

/-- A non-empty `GetNodeBlob` is a committing blob whose commit number is the
one asked for, or a queried blob. -/
theorem getNodeBlob_of_ne_nil {name path : Bytes} {seq : UInt64} (hb : getNodeBlob (some c) name seq path ≠ []) :
    (∃ v, c.committedNodes (Cache.nodeKey name seq path) = some v ∧ beUint32 v = commitNumOf seq ∧
      v.drop 4 = getNodeBlob (some c) name seq path) ∨
    c.queriedNodes (appendUint32 (Cache.nodeKey name seq path) (commitNumOf seq)) =
      some (getNodeBlob (some c) name seq path) := by
  unfold getNodeBlob at hb ⊢
  cases hk : c.committedNodes (Cache.nodeKey name seq path) with
  | some v =>
    by_cases hv : beUint32 v = commitNumOf seq ∧ v.drop 4 ≠ []
    · simp [hk, hv.1, hv.2]
    · cases hq : c.queriedNodes (appendUint32 (Cache.nodeKey name seq path) (commitNumOf seq)) <;>
        by_cases hc : beUint32 v = commitNumOf seq <;> simp_all
  | none =>
    cases hq : c.queriedNodes (appendUint32 (Cache.nodeKey name seq path) (commitNumOf seq)) <;> simp_all

/-- `GetNodeBlob` only returns a blob added for the same name, sequence and
path: the key found is the key of the call that stored it. -/
theorem BlobsAdded.getNodeBlob_sound {name path : Bytes} {seq : UInt64} (h : BlobsAdded adds c)
    (hnames : ∀ a ∈ adds, TrieName a.name) (hn : TrieName name) (hb : getNodeBlob (some c) name seq path ≠ []) :
    ∃ a ∈ adds, a.name = name ∧ a.seq = seq ∧ a.path = path ∧ a.blob = getNodeBlob (some c) name seq path := by
  rcases getNodeBlob_of_ne_nil hb with ⟨v, hv, hcn, hdrop⟩ | hq
  · -- a committing blob, behind its commit number
    obtain ⟨a, ha, -, hk, rfl⟩ := h.committed _ _ hv
    obtain ⟨hname, hpath, hd⟩ := nodeKey_inj (hnames a ha) hn hk
    rw [beUint32_appendUint32] at hcn
    refine ⟨a, ha, hname, seq_eq hcn hd, hpath, ?_⟩
    rw [← hdrop, List.drop_left' (length_appendUint32 _)]
  · obtain ⟨a, ha, hk, hv⟩ := h.queried _ _ hq
    obtain ⟨hname, hpath, hseq⟩ := queriedKey_inj (hnames a ha) hn hk
    exact ⟨a, ha, hname, hseq, hpath, hv.symm⟩

end Blobs

/-! ## History cleaning -/

/-- The commit number `CleanHistory` computes from a key: the partition read
after the space byte, times the factor, plus the remainder read eight bytes
from the end. -/
def nodeCommitNum (back : Backend) (key : Bytes) : UInt32 :=
  let ptn := beUint32 (key.drop 1)
  let mod := beUint32 (key.drop (key.length - 8))
  ptn * back.histPtnFactor + mod

theorem length_lt_of_encodePath {dst path k : Bytes} (h : encodePath dst path = some k) : path.length < 1024 := by
  rw [encodePath] at h
  split_ifs at h with hl
  omega

/-- `CleanHistory` reads back the commit number of every history key. -/
theorem nodeCommitNum_makeHistNodeKey {t : Trie} {back : Backend} {seq : UInt64} {path key : Bytes}
    (h : t.makeHistNodeKey back seq path = some key) : nodeCommitNum back key = commitNumOf seq := by
  have hl : path.length < 1024 := by
    simp only [Trie.makeHistNodeKey, Option.map_eq_some_iff] at h
    obtain ⟨k, hk, -⟩ := h
    exact length_lt_of_encodePath hk
  rw [makeHistNodeKey_eq hl, Option.some.injEq] at h
  subst h
  set mid := appendUint32 [] (commitNumOf seq / back.histPtnFactor) ++ t.name ++ pathCode path
  set m := appendUint32 [] (commitNumOf seq % back.histPtnFactor)
  set d := appendUint32 [] (distinctNumOf seq)
  have hkey : [back.histSpace] ++ appendUint32 [] (commitNumOf seq / back.histPtnFactor) ++ t.name ++
      pathCode path ++ m ++ d = ([back.histSpace] ++ mid) ++ (m ++ d) := by
    simp only [mid, List.append_assoc]
  have hptn : beUint32 (([back.histSpace] ++ mid) ++ (m ++ d)).tail =
      commitNumOf seq / back.histPtnFactor := by
    simp only [mid, List.cons_append, List.nil_append, List.tail_cons, List.append_assoc,
      beUint32_appendUint32]
  have hmod : (([back.histSpace] ++ mid) ++ (m ++ d)).drop
      ((([back.histSpace] ++ mid) ++ (m ++ d)).length - 8) = m ++ d :=
    List.drop_left' (by simp [m, d])
  rw [nodeCommitNum, hkey, List.drop_one, hptn, hmod, beUint32_appendUint32, div_mul_add_mod_uint32]

/-! ## Keys never collide -/

/-- The store keys of nodes, the path encoding and the node cache keys
determine what they are built from, for the names the system creates and
nibble paths below 1024 nibbles; so a cached blob comes from a call for the
same name, sequence and path, and `CleanHistory` reads back the commit number
of every history key. -/
theorem nodeKeys_injective :
    (∀ (t t' : Trie) (back : Backend) (seq seq' : UInt64) (path path' : Bytes),
      TrieName t.name → TrieName t'.name → (∀ x ∈ path, x.toNat < 16) → (∀ x ∈ path', x.toNat < 16) →
      path.length < 1024 → path'.length < 1024 →
      t.makeHistNodeKey back seq path = t'.makeHistNodeKey back seq' path' →
      t.name = t'.name ∧ path = path' ∧ commitNumOf seq = commitNumOf seq' ∧
        distinctNumOf seq = distinctNumOf seq') ∧
    (∀ (t t' : Trie) (back : Backend) (seq seq' : UInt64) (path path' : Bytes),
      TrieName t.name → TrieName t'.name → (∀ x ∈ path, x.toNat < 16) → (∀ x ∈ path', x.toNat < 16) →
      path.length < 1024 → path'.length < 1024 →
      t.makeDedupedNodeKey back seq path = t'.makeDedupedNodeKey back seq' path' →
      t.name = t'.name ∧ path = path' ∧
        commitNumOf seq / back.dedupedPtnFactor = commitNumOf seq' / back.dedupedPtnFactor) ∧
    (∀ dst p q : Bytes, (∀ x ∈ p, x.toNat < 16) → (∀ x ∈ q, x.toNat < 16) → p.length < 1024 →
      q.length < 1024 → encodePath dst p = encodePath dst q → p = q) ∧
    (∀ (name name' : Bytes) (seq seq' : UInt64) (path path' : Bytes), TrieName name → TrieName name' →
      Cache.nodeKey name seq path = Cache.nodeKey name' seq' path' →
      name = name' ∧ path = path' ∧ distinctNumOf seq = distinctNumOf seq') ∧
    (∀ (name name' : Bytes) (seq seq' : UInt64) (path path' : Bytes), TrieName name → TrieName name' →
      appendUint32 (Cache.nodeKey name seq path) (commitNumOf seq) =
        appendUint32 (Cache.nodeKey name' seq' path') (commitNumOf seq') →
      name = name' ∧ path = path' ∧ commitNumOf seq = commitNumOf seq' ∧ distinctNumOf seq = distinctNumOf seq') ∧
    (∀ (adds : List NodeBlobAdd) (name : Bytes) (seq : UInt64) (path : Bytes),
      (∀ a ∈ adds, TrieName a.name) → TrieName name →
      ∃ c, addNodeBlobs (some Cache.empty) adds = some c ∧
        (getNodeBlob (some c) name seq path ≠ [] → ∃ a ∈ adds, a.name = name ∧ a.seq = seq ∧ a.path = path ∧
          a.blob = getNodeBlob (some c) name seq path)) ∧
    (∀ (t : Trie) (back : Backend) (seq : UInt64) (path key : Bytes),
      t.makeHistNodeKey back seq path = some key → nodeCommitNum back key = commitNumOf seq) := by
  refine ⟨?hist, ?deduped, ?path, ?node, ?queried, ?blob, ?clean⟩
  case hist =>
    intro t t' back seq seq' path path' hn hn' hp hp' hl hl' h
    obtain ⟨hname, hpath, rfl⟩ := makeHistNodeKey_inj hn hn' hp hp' hl hl' h
    exact ⟨hname, hpath, rfl, rfl⟩
  case deduped =>
    intro t t' back seq seq' path path' hn hn' hp hp' hl hl' h
    exact makeDedupedNodeKey_inj hn hn' hp hp' hl hl' h
  case path =>
    intro dst p q hp hq hpl hql h
    exact encodePath_inj hp hq hpl hql h
  case node =>
    intro name name' seq seq' path path' hn hn' h
    exact nodeKey_inj hn hn' h
  case queried =>
    intro name name' seq seq' path path' hn hn' h
    obtain ⟨hname, hpath, rfl⟩ := queriedKey_inj hn hn' h
    exact ⟨hname, hpath, rfl, rfl⟩
  case blob =>
    intro adds name seq path hnames hn
    obtain ⟨c, hrun, hc⟩ := blobsAdded_empty.addNodeBlobs adds
    exact ⟨c, hrun, fun hb => hc.getNodeBlob_sound (by simpa using hnames) hn hb⟩
  case clean =>
    intro t back seq path key h
    exact nodeCommitNum_makeHistNodeKey h

/-- An account trie node at path 1 2 3 in commit 9, distinct number 2, with
history partitions of 4: a blob added for it comes back for it, and its
history key reads back commit 9. -/
theorem nodeKeys_injective_account :
    (∃ c, addNodeBlobs (some Cache.empty) [⟨accountTrieName, makeSequence 9 2, [1, 2, 3], [0xAB], true⟩] = some c ∧
      (getNodeBlob (some c) accountTrieName (makeSequence 9 2) [1, 2, 3] ≠ [] →
        ∃ a ∈ [(⟨accountTrieName, makeSequence 9 2, [1, 2, 3], [0xAB], true⟩ : NodeBlobAdd)],
          a.name = accountTrieName ∧ a.seq = makeSequence 9 2 ∧ a.path = [1, 2, 3] ∧
            a.blob = getNodeBlob (some c) accountTrieName (makeSequence 9 2) [1, 2, 3])) ∧
    nodeCommitNum ⟨fun _ => none, none, none, 0x68, 0x64, 4, 8, 0, by decide, by decide⟩
      [104, 0, 0, 0, 2, 97, 0, 137, 25, 0, 0, 0, 1, 0, 0, 0, 2] = 9 := by
  have hname : TrieName accountTrieName := Or.inl rfl
  refine ⟨nodeKeys_injective.2.2.2.2.2.1 _ _ _ _ (by simpa using hname) hname, ?_⟩
  -- the key is the history key of the account trie's node, built by `New`
  have hclean := nodeKeys_injective.2.2.2.2.2.2
    (new ⟨fun _ => none, none, none, 0x68, 0x64, 4, 8, 0, by decide, by decide⟩ accountTrieName
      (fun _ => Vector.replicate 32 0) (Vector.replicate 32 0) 9 2 false).1
    ⟨fun _ => none, none, none, 0x68, 0x64, 4, 8, 0, by decide, by decide⟩ (makeSequence 9 2) [1, 2, 3]
    [104, 0, 0, 0, 2, 97, 0, 137, 25, 0, 0, 0, 1, 0, 0, 0, 2] (by decide)
  simpa using hclean

end Workshare.Muxdb
