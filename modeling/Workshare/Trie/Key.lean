import Workshare.Basic

/-!
# Trie keys

The three encodings of `trie/encoding.go`. KEYBYTES is the key as given. HEX
has one byte per nibble and a terminator `16` closing a key that leads to a
value; nodes in memory use it. COMPACT packs two nibbles a byte behind a flag
byte recording oddness and the terminator; nodes on disk use it.
-/
namespace Workshare

/-- The terminator nibble. -/
def terminator : UInt8 := 16

/-- `keybytesToHex`: the two nibbles of every byte, then the terminator. -/
def keybytesToHex (str : Bytes) : Bytes :=
  str.flatMap (fun b => [b / 16, b % 16]) ++ [terminator]

theorem keybytesToHex_ne_nil (key : Bytes) : keybytesToHex key ≠ [] := by
  simp [keybytesToHex]

theorem length_keybytesToHex (key : Bytes) : (keybytesToHex key).length = 2 * key.length + 1 := by
  induction key with
  | nil => rfl
  | cons x key ih =>
    simp only [keybytesToHex, List.flatMap_cons, List.length_append, List.length_cons, List.length_nil] at ih ⊢
    omega

/-- A byte is given by its two nibbles. -/
theorem eq_of_nibbles_eq {x y : UInt8} (h1 : x / 16 = y / 16) (h2 : x % 16 = y % 16) : x = y := by
  have h1' := congrArg UInt8.toNat h1
  have h2' := congrArg UInt8.toNat h2
  have h16 : (16 : UInt8).toNat = 16 := rfl
  simp only [UInt8.toNat_div, UInt8.toNat_mod, h16] at h1' h2'
  apply UInt8.toNat_inj.mp
  omega

/-- Two keys with the same nibbles are the same key: the trie's entries are
keyed by the keys themselves. -/
theorem keybytesToHex_injective : Function.Injective keybytesToHex := by
  intro a b h
  have hb : a.flatMap (fun x => [x / 16, x % 16]) = b.flatMap (fun x => [x / 16, x % 16]) :=
    List.append_cancel_right h
  induction a generalizing b with
  | nil =>
    cases b with
    | nil => rfl
    | cons y b => simp at hb
  | cons x a ih =>
    cases b with
    | nil => simp at hb
    | cons y b =>
      simp only [List.flatMap_cons, List.cons_append, List.nil_append, List.cons.injEq] at hb
      obtain ⟨h1, h2, hrest⟩ := hb
      rw [eq_of_nibbles_eq h1 h2, ih (by simp [keybytesToHex, hrest]) hrest]

/-- `hasTerm`. -/
def hasTerm (s : Bytes) : Bool := s.getLast? == some terminator

/-- `decodeNibbles`: pairs of nibbles packed into bytes. -/
def decodeNibbles : Bytes → Bytes
  | hi :: lo :: rest => (hi <<< 4 ||| lo) :: decodeNibbles rest
  | _ => []

/-- `hexToCompact`: flag byte `terminator << 5 | odd << 4`, the first nibble
joins it when the length is odd. -/
def hexToCompact (hex : Bytes) : Bytes :=
  let term : UInt8 := if hasTerm hex then 1 else 0
  let hex := if hasTerm hex then hex.dropLast else hex
  if hex.length % 2 = 1 then
    (term <<< 5 ||| (1 : UInt8) <<< 4 ||| hex.headD 0) :: decodeNibbles hex.tail
  else (term <<< 5) :: decodeNibbles hex

/-- `compactToHex`: the nibbles of the compact key, less the flag nibbles, with
the terminator back when the flag has it. -/
def compactToHex (compact : Bytes) : Bytes :=
  if compact.isEmpty then compact
  else
    let base := keybytesToHex compact
    let base := if base.headD 0 < 2 then base.dropLast else base
    base.drop (2 - (base.headD 0 &&& 1)).toNat

/-- `hexToKeybytes`: the terminator dropped, the nibbles packed in pairs;
`none` is the panic on a key of odd length. -/
def hexToKeybytes (hex : Bytes) : Option Bytes :=
  let hex := if hasTerm hex then hex.dropLast else hex
  if hex.length % 2 ≠ 0 then none
  else some (decodeNibbles hex)

/-- `prefixLen`: the length of the common prefix. -/
def prefixLen : Bytes → Bytes → ℕ
  | a :: as, b :: bs => if a = b then prefixLen as bs + 1 else 0
  | _, _ => 0

@[simp] theorem prefixLen_nil_left (b : Bytes) : prefixLen [] b = 0 := by cases b <;> rfl

@[simp] theorem prefixLen_nil_right (a : Bytes) : prefixLen a [] = 0 := by cases a <;> rfl

theorem prefixLen_cons_cons (x y : UInt8) (a b : Bytes) :
    prefixLen (x :: a) (y :: b) = if x = y then prefixLen a b + 1 else 0 := rfl

theorem prefixLen_le_left : ∀ a b : Bytes, prefixLen a b ≤ a.length
  | [], _ => by simp
  | _ :: _, [] => by simp
  | x :: a, y :: b => by
    rw [prefixLen_cons_cons]
    split
    · simpa using prefixLen_le_left a b
    · simp

theorem prefixLen_le_right : ∀ a b : Bytes, prefixLen a b ≤ b.length
  | [], _ => by simp
  | _ :: _, [] => by simp
  | x :: a, y :: b => by
    rw [prefixLen_cons_cons]
    split
    · simpa using prefixLen_le_right a b
    · simp

/-- The whole of `b` is common exactly when `b` is a prefix of `a`. -/
theorem prefixLen_eq_length_iff : ∀ {a b : Bytes}, prefixLen a b = b.length ↔ b <+: a
  | [], [] => by simp
  | [], _ :: _ => by simp
  | _ :: _, [] => by simp
  | x :: a, y :: b => by
    rw [prefixLen_cons_cons, List.cons_prefix_cons]
    split
    · simp [*, prefixLen_eq_length_iff]
    · rename_i hxy
      simp only [List.length_cons, Nat.right_eq_add, Nat.add_one_ne_zero, false_iff, not_and]
      exact fun hyx => absurd hyx.symm hxy

/-- Where the common prefix stops short of both lists, the next nibbles differ. -/
theorem exists_split_prefixLen : ∀ {a b : Bytes}, prefixLen a b < a.length → prefixLen a b < b.length →
    ∃ p x a' y b', a = p ++ x :: a' ∧ b = p ++ y :: b' ∧ x ≠ y ∧ p.length = prefixLen a b
  | [], _, ha, _ => by simp at ha
  | _ :: _, [], _, hb => by simp at hb
  | x :: a, y :: b, ha, hb => by
    rw [prefixLen_cons_cons] at ha hb ⊢
    split
    · rename_i hxy
      subst hxy
      obtain ⟨p, x', a', y', b', rfl, rfl, hne, hl⟩ :=
        exists_split_prefixLen (by simp at ha; omega) (by simp at hb; omega)
      exact ⟨x :: p, x', a', y', b', rfl, rfl, hne, by simp [hl]⟩
    · exact ⟨[], x, a, y, b, rfl, rfl, by assumption, rfl⟩

theorem prefixLen_comm : ∀ a b : Bytes, prefixLen a b = prefixLen b a
  | [], _ => by simp
  | _ :: _, [] => by simp
  | x :: a, y :: b => by
    rw [prefixLen_cons_cons, prefixLen_cons_cons, prefixLen_comm a b]
    by_cases h : x = y
    · simp [h]
    · simp [h, Ne.symm h]

theorem prefixLen_append_left (p a b : Bytes) : prefixLen (p ++ a) (p ++ b) = p.length + prefixLen a b := by
  induction p with
  | nil => simp
  | cons x p ih => rw [List.cons_append, List.cons_append, prefixLen_cons_cons, if_pos rfl, ih]; simp; omega

theorem length_decodeNibbles_le : ∀ l : Bytes, (decodeNibbles l).length ≤ l.length
  | [] => by simp [decodeNibbles]
  | [_] => by simp [decodeNibbles]
  | _ :: _ :: rest => by
    have := length_decodeNibbles_le rest
    simp [decodeNibbles]
    omega

theorem length_hexToCompact_le (k : Bytes) : (hexToCompact k).length ≤ k.length + 1 := by
  unfold hexToCompact
  dsimp only
  have h1 := length_decodeNibbles_le k
  have h2 := length_decodeNibbles_le k.tail
  have h3 := length_decodeNibbles_le k.dropLast
  have h4 := length_decodeNibbles_le k.dropLast.tail
  split <;> split <;> simp [List.length_dropLast, List.length_tail] at * <;> omega

/-! ### The compact encoding read back -/

theorem unpack_nibbles : ∀ a b : Fin 16,
    ((a.val.toUInt8 <<< 4 ||| b.val.toUInt8) / 16 = a.val.toUInt8) ∧
      ((a.val.toUInt8 <<< 4 ||| b.val.toUInt8) % 16 = b.val.toUInt8) := by
  decide

/-- The flag byte of an odd key: its high nibble is the flags, its low nibble the first nibble. -/
theorem unpack_flag : ∀ b : Fin 16,
    (((0 : UInt8) <<< 5 ||| (1 : UInt8) <<< 4 ||| b.val.toUInt8) / 16 = 1) ∧
      (((0 : UInt8) <<< 5 ||| (1 : UInt8) <<< 4 ||| b.val.toUInt8) % 16 = b.val.toUInt8) ∧
      (((1 : UInt8) <<< 5 ||| (1 : UInt8) <<< 4 ||| b.val.toUInt8) / 16 = 3) ∧
      (((1 : UInt8) <<< 5 ||| (1 : UInt8) <<< 4 ||| b.val.toUInt8) % 16 = b.val.toUInt8) := by
  decide

theorem flatMap_decodeNibbles : ∀ ns : Bytes, (∀ x ∈ ns, x < 16) → ns.length % 2 = 0 →
    (decodeNibbles ns).flatMap (fun b => [b / 16, b % 16]) = ns
  | [], _, _ => rfl
  | [_], _, h => by simp at h
  | hi :: lo :: rest, hns, hlen => by
    have hhi : hi.toNat < 16 := by have := hns hi (by simp); rwa [UInt8.lt_iff_toNat_lt] at this
    have hlo : lo.toNat < 16 := by have := hns lo (by simp); rwa [UInt8.lt_iff_toNat_lt] at this
    obtain ⟨h1, h2⟩ := unpack_nibbles ⟨hi.toNat, hhi⟩ ⟨lo.toNat, hlo⟩
    simp only [Nat.toUInt8_eq, UInt8.ofNat_toNat] at h1 h2
    simp only [decodeNibbles, List.flatMap_cons]
    rw [flatMap_decodeNibbles rest (fun x hx => hns x (by simp [hx])) (by simp at hlen; omega)]
    simp_all

theorem lt_sixteen_toNat {x : UInt8} (h : x < 16) : x.toNat < 16 := by
  rwa [UInt8.lt_iff_toNat_lt] at h

theorem compactToHex_cons (f : UInt8) {body : Bytes} (hb : ∀ x ∈ body, x < 16) (he : body.length % 2 = 0) :
    compactToHex (f :: decodeNibbles body) =
      let base := [f / 16, f % 16] ++ body ++ [terminator]
      let base := if base.headD 0 < 2 then base.dropLast else base
      base.drop (2 - (base.headD 0 &&& 1)).toNat := by
  simp only [compactToHex, List.isEmpty_cons, Bool.false_eq_true, if_false, keybytesToHex, List.flatMap_cons,
    flatMap_decodeNibbles body hb he]

theorem hasTerm_of_nibbles {ns : Bytes} (h : ∀ x ∈ ns, x < 16) : hasTerm ns = false := by
  cases hl : ns.getLast? with
  | none => simp [hasTerm, hl]
  | some x =>
    have hx := h x (List.mem_of_getLast? hl)
    have : x ≠ terminator := fun h => by simp [h, terminator] at hx
    simp [hasTerm, hl, this]

theorem hasTerm_append_terminator (ns : Bytes) : hasTerm (ns ++ [terminator]) = true := by
  simp [hasTerm]

theorem dropLast_cons_append_single {α : Type} (a : α) (l : List α) (x : α) :
    (a :: (l ++ [x])).dropLast = a :: l := by
  rw [← List.cons_append, List.dropLast_concat]

/-- The flag nibble's byte values, as `compactToHex` reads them. -/
theorem flag_nibbles :
    (1 : UInt8) <<< 5 / 16 = 2 ∧ (1 : UInt8) <<< 5 % 16 = 0 ∧
    (2 - ((2 : UInt8) &&& 1)).toNat = 2 ∧ (2 - ((3 : UInt8) &&& 1)).toNat = 1 ∧
    (1 : UInt8) < 2 ∧ ¬ (2 : UInt8) < 2 ∧ ¬ (3 : UInt8) < 2 := by
  decide

/-- The compact encoding of a key in nibbles, with or without the terminator, decodes to the key. -/
theorem compactToHex_hexToCompact {ns : Bytes} (h : ∀ x ∈ ns, x < 16) :
    compactToHex (hexToCompact ns) = ns ∧ compactToHex (hexToCompact (ns ++ [terminator])) = ns ++ [terminator] := by
  obtain ⟨f1, f2, d2, d3, l1, l2, l3⟩ := flag_nibbles
  rcases Nat.mod_two_eq_zero_or_one ns.length with he | ho
  · constructor
    · simp only [hexToCompact, hasTerm_of_nibbles h, Bool.false_eq_true, if_false, he]
      rw [if_neg (by decide), compactToHex_cons _ h he]
      simp [dropLast_cons_append_single]
    · simp only [hexToCompact, hasTerm_append_terminator, if_true, List.dropLast_concat, he]
      rw [if_neg (by decide), compactToHex_cons _ h he]
      simp [f1, f2, l2, d2, terminator]
  · obtain ⟨n0, rest, rfl⟩ := List.exists_cons_of_ne_nil (List.ne_nil_of_length_pos (by omega) : ns ≠ [])
    have hn0 := lt_sixteen_toNat (h n0 (by simp))
    have hrest : ∀ x ∈ rest, x < 16 := fun x hx => h x (by simp [hx])
    have hre : rest.length % 2 = 0 := by simp at ho; omega
    obtain ⟨h1, h2, h3, h4⟩ := unpack_flag ⟨n0.toNat, hn0⟩
    simp only [Nat.toUInt8_eq, UInt8.ofNat_toNat] at h1 h2 h3 h4
    constructor
    · simp only [hexToCompact, hasTerm_of_nibbles h, Bool.false_eq_true, if_false, ho, if_true,
        List.headD_cons, List.tail_cons]
      rw [compactToHex_cons _ hrest hre, h1, h2]
      simp [dropLast_cons_append_single, l1]
    · simp only [hexToCompact, hasTerm_append_terminator, if_true, List.dropLast_concat, ho,
        List.headD_cons, List.tail_cons]
      rw [compactToHex_cons _ hrest hre, h3, h4]
      simp [l3, d3, terminator]

/-! ### Key bytes read back -/

/-- A byte is its high nibble shifted back above its low one. -/
theorem pack_nibbles (b : UInt8) : (b / 16) <<< 4 ||| b % 16 = b := by
  apply UInt8.toNat_inj.mp
  have h16 : (16 : UInt8).toNat = 2 ^ 4 := rfl
  have h4 : (4 : UInt8).toNat % 8 = 4 := rfl
  have hlo : b.toNat % 2 ^ 4 < 2 ^ 4 := Nat.mod_lt _ (by decide)
  have hb := b.toNat_lt
  rw [UInt8.toNat_or, UInt8.toNat_shiftLeft, UInt8.toNat_div, UInt8.toNat_mod, h16, h4,
    Nat.mod_eq_of_lt (a := (b.toNat / 2 ^ 4) <<< 4) (by rw [Nat.shiftLeft_eq]; omega),
    ← Nat.shiftLeft_add_eq_or_of_lt hlo, Nat.shiftLeft_eq]
  omega

theorem decodeNibbles_flatMap (key : Bytes) :
    decodeNibbles (key.flatMap (fun b => [b / 16, b % 16])) = key := by
  induction key with
  | nil => rfl
  | cons b key ih =>
    rw [List.flatMap_cons, List.cons_append, List.singleton_append, decodeNibbles, ih, pack_nibbles]

theorem hasTerm_keybytesToHex (key : Bytes) : hasTerm (keybytesToHex key) = true :=
  hasTerm_append_terminator _

theorem hexToKeybytes_keybytesToHex (key : Bytes) : hexToKeybytes (keybytesToHex key) = some key := by
  have heven : (key.flatMap (fun b => [b / 16, b % 16])).length % 2 = 0 := by
    have := length_keybytesToHex key
    simp only [keybytesToHex, List.length_append, List.length_singleton] at this
    omega
  simp only [hexToKeybytes, hasTerm_keybytesToHex, if_true]
  rw [keybytesToHex, List.dropLast_concat, if_neg (by omega), decodeNibbles_flatMap]

/-! ### The common prefix -/

theorem take_prefixLen : ∀ a b : Bytes, a.take (prefixLen a b) = b.take (prefixLen a b)
  | [], _ => by simp
  | _ :: _, [] => by simp
  | x :: a, y :: b => by
    rw [prefixLen_cons_cons]
    split
    · rename_i hxy
      subst hxy
      simp [take_prefixLen a b]
    · simp

theorem length_le_prefixLen : ∀ {p a b : Bytes}, p <+: a → p <+: b → p.length ≤ prefixLen a b
  | [], _, _, _, _ => by simp
  | _ :: _, [], _, ha, _ => by simp at ha
  | _ :: _, _ :: _, [], _, hb => by simp at hb
  | z :: p, x :: a, y :: b, ha, hb => by
    rw [List.cons_prefix_cons] at ha hb
    obtain ⟨rfl, ha⟩ := ha
    obtain ⟨rfl, hb⟩ := hb
    rw [prefixLen_cons_cons, if_pos rfl, List.length_cons]
    exact Nat.succ_le_succ (length_le_prefixLen ha hb)

/-- The three encodings undo each other where the trie relies on it, and
`prefixLen` is the length of the longest common prefix. -/
theorem key_encodings_roundtrip :
    (∀ key : Bytes, hexToKeybytes (keybytesToHex key) = some key) ∧
    (∀ ns : Bytes, (∀ x ∈ ns, x < 16) →
      compactToHex (hexToCompact ns) = ns ∧
        compactToHex (hexToCompact (ns ++ [terminator])) = ns ++ [terminator]) ∧
    (∀ a b : Bytes, (∃ p, p <+: a ∧ p <+: b ∧ p.length = prefixLen a b) ∧
      ∀ p, p <+: a → p <+: b → p.length ≤ prefixLen a b) := by
  refine ⟨hexToKeybytes_keybytesToHex, fun ns h => compactToHex_hexToCompact h, fun a b => ?_⟩
  refine ⟨⟨a.take (prefixLen a b), List.take_prefix _ _, ?_, ?_⟩, fun p => length_le_prefixLen⟩
  · rw [take_prefixLen]
    exact List.take_prefix _ _
  · simp [prefixLen_le_left]

theorem key_encodings_roundtrip_odd :
    (∀ x ∈ ([1, 2, 3] : Bytes), x < 16) ∧
      compactToHex (hexToCompact [1, 2, 3]) = [1, 2, 3] ∧
        compactToHex (hexToCompact ([1, 2, 3] ++ [terminator])) = [1, 2, 3] ++ [terminator] :=
  ⟨by simp, key_encodings_roundtrip.2.1 [1, 2, 3] (by simp)⟩

end Workshare
