import Mathlib

/-!
# Prefix codecs

A codec is a writer and a reader of values laid end to end: the reader returns
the value and the input after it. Its laws: a valid value whose written form is
shorter than `bound` reads back whatever follows it, and what the reader
accepts is the written form of a valid value, symbol for symbol up to `r`. The
relation lets a reader accept spellings its writer never produces; with `r`
equality a codec is a bijection between its valid values and the inputs it
accepts.

`pair` and `map` build the codec of a record from the codecs of its fields, and
`readItems` reads values laid end to end until the input ends.
-/

/-- A writer and a reader of one value, each the inverse of the other on valid values. -/
structure PrefixCodec (β ε : Type) (r : β → β → Prop) (bound : ℕ) (α : Type) where
  write : α → List β
  read : List β → Except ε (α × List β)
  valid : α → Prop
  write_ne_nil : ∀ v, valid v → write v ≠ []
  read_write : ∀ v rest, valid v → (write v).length < bound → read (write v ++ rest) = .ok (v, rest)
  read_sound : ∀ {b v rest}, read b = .ok (v, rest) →
    valid v ∧ ∃ pre, List.Forall₂ r pre (write v) ∧ b = pre ++ rest

namespace PrefixCodec

variable {β ε α γ : Type} {r : β → β → Prop} {bound : ℕ}

/-- Every read consumes input. -/
theorem length_lt_of_read (c : PrefixCodec β ε r bound α) {b rest : List β} {v : α}
    (h : c.read b = .ok (v, rest)) : rest.length < b.length := by
  obtain ⟨hv, pre, hpre, rfl⟩ := c.read_sound h
  have hne : (c.write v).length ≠ 0 := by
    simpa using c.write_ne_nil v hv
  have hlen := hpre.length_eq
  simp only [List.length_append]
  omega

/-- A codec up to equality accepts exactly the written forms of its values. -/
theorem read_sound_eq (c : PrefixCodec β ε Eq bound α) {b rest : List β} {v : α} (h : c.read b = .ok (v, rest)) :
    c.valid v ∧ b = c.write v ++ rest := by
  obtain ⟨hv, pre, hpre, rfl⟩ := c.read_sound h
  rw [List.forall₂_eq_eq_eq] at hpre
  exact ⟨hv, by rw [hpre]⟩

theorem length_le_length_flatMap (c : PrefixCodec β ε r bound α) {vs : List α}
    (hvs : ∀ v ∈ vs, c.valid v) : vs.length ≤ (vs.flatMap c.write).length := by
  induction vs with
  | nil => simp
  | cons v vs ih =>
    have hne : (c.write v).length ≠ 0 := by
      simpa using c.write_ne_nil v (hvs v (by simp))
    have := ih (fun w hw => hvs w (by simp [hw]))
    simp only [List.flatMap_cons, List.length_append, List.length_cons]
    omega

/-- Two values, one after the other. -/
def pair (c₁ : PrefixCodec β ε r bound α) (c₂ : PrefixCodec β ε r bound γ) :
    PrefixCodec β ε r bound (α × γ) where
  write v := c₁.write v.1 ++ c₂.write v.2
  read b := (c₁.read b).bind fun (x, b) => (c₂.read b).map fun (y, b) => ((x, y), b)
  valid v := c₁.valid v.1 ∧ c₂.valid v.2
  write_ne_nil v hv := by simp [c₁.write_ne_nil v.1 hv.1]
  read_write v rest hv hlen := by
    simp only [List.length_append] at hlen
    have h₁ : (c₁.write v.1).length < bound := by omega
    have h₂ : (c₂.write v.2).length < bound := by omega
    simp [List.append_assoc, c₁.read_write _ _ hv.1 h₁, c₂.read_write _ _ hv.2 h₂, Except.bind,
      Except.map]
  read_sound {b v rest} h := by
    cases h₁ : c₁.read b with
    | error e => simp [h₁, Except.bind] at h
    | ok p =>
      obtain ⟨x, b'⟩ := p
      cases h₂ : c₂.read b' with
      | error e => simp [h₁, h₂, Except.bind, Except.map] at h
      | ok q =>
        obtain ⟨y, rest'⟩ := q
        simp only [h₁, h₂, Except.bind, Except.map, Except.ok.injEq, Prod.mk.injEq] at h
        obtain ⟨rfl, rfl⟩ := h
        obtain ⟨hx, pre₁, hr₁, rfl⟩ := c₁.read_sound h₁
        obtain ⟨hy, pre₂, hr₂, rfl⟩ := c₂.read_sound h₂
        exact ⟨⟨hx, hy⟩, pre₁ ++ pre₂, List.rel_append hr₁ hr₂, (List.append_assoc _ _ _).symm⟩

/-- The codec of `γ` through a bijection with the valid values of `α`. -/
def map (c : PrefixCodec β ε r bound α) (f : α → γ) (g : γ → α)
    (hfg : ∀ x, f (g x) = x) (hgf : ∀ a, c.valid a → g (f a) = a) : PrefixCodec β ε r bound γ where
  write x := c.write (g x)
  read b := (c.read b).map fun (a, b) => (f a, b)
  valid x := c.valid (g x)
  write_ne_nil x hx := c.write_ne_nil _ hx
  read_write x rest hx hlen := by simp [c.read_write _ _ hx hlen, hfg, Except.map]
  read_sound {b x rest} h := by
    cases h₁ : c.read b with
    | error e => simp [h₁, Except.map] at h
    | ok p =>
      obtain ⟨a, rest'⟩ := p
      simp only [h₁, Except.map, Except.ok.injEq, Prod.mk.injEq] at h
      obtain ⟨rfl, rfl⟩ := h
      obtain ⟨ha, hpre⟩ := c.read_sound h₁
      rw [hgf a ha]
      exact ⟨ha, hpre⟩

/-- The values of `c` that pass `p`; the reader refuses the others with `e`. -/
def refine (c : PrefixCodec β ε r bound α) (p : α → Bool) (e : ε) : PrefixCodec β ε r bound α where
  write := c.write
  read b := (c.read b).bind fun (v, rest) => if p v then .ok (v, rest) else .error e
  valid v := c.valid v ∧ p v = true
  write_ne_nil v hv := c.write_ne_nil v hv.1
  read_write v rest hv hlen := by simp [c.read_write v rest hv.1 hlen, hv.2, Except.bind]
  read_sound {b v rest} h := by
    cases h₁ : c.read b with
    | error e' => simp [h₁, Except.bind] at h
    | ok q =>
      obtain ⟨v', rest'⟩ := q
      simp only [h₁, Except.bind] at h
      split_ifs at h with hp
      simp only [Except.ok.injEq, Prod.mk.injEq] at h
      obtain ⟨rfl, rfl⟩ := h
      obtain ⟨hv, hpre⟩ := c.read_sound h₁
      exact ⟨⟨hv, hp⟩, hpre⟩

/-- The same codec, what it accepts stated up to a coarser relation. -/
def weaken {r' : β → β → Prop} (c : PrefixCodec β ε r bound α) (h : ∀ {x y}, r x y → r' x y) :
    PrefixCodec β ε r' bound α where
  write := c.write
  read := c.read
  valid := c.valid
  write_ne_nil := c.write_ne_nil
  read_write := c.read_write
  read_sound hb := by
    obtain ⟨hv, pre, hpre, hb⟩ := c.read_sound hb
    exact ⟨hv, pre, List.Forall₂.imp (fun _ _ hr => h hr) hpre, hb⟩

/-- Values laid end to end, read until the input ends; the fuel outlasts the
values, since each read consumes input. -/
def readItems (read : List β → Except ε (α × List β)) : ℕ → List β → Except ε (List α)
  | _, [] => .ok []
  | 0, _ :: _ => .ok []
  | fuel + 1, x :: b => (read (x :: b)).bind fun (v, rest) => (readItems read fuel rest).map (v :: ·)

@[simp] theorem readItems_nil (read : List β → Except ε (α × List β)) (fuel : ℕ) :
    readItems read fuel [] = .ok [] := by
  cases fuel <;> rfl

theorem readItems_cons_eq (read : List β → Except ε (α × List β)) (fuel : ℕ) {b : List β} (hb : b ≠ []) :
    readItems read (fuel + 1) b =
      (read b).bind fun (v, rest) => (readItems read fuel rest).map (v :: ·) := by
  obtain ⟨x, b, rfl⟩ := List.exists_cons_of_ne_nil hb
  rfl

/-- Valid values written end to end read back, given a fuel for each. -/
theorem readItems_write (c : PrefixCodec β ε r bound α) (vs : List α) :
    ∀ fuel, (∀ v ∈ vs, c.valid v) → (vs.flatMap c.write).length < bound → vs.length ≤ fuel →
      readItems c.read fuel (vs.flatMap c.write) = .ok vs := by
  induction vs with
  | nil => simp
  | cons v vs ih =>
    intro fuel hv hlen hfuel
    obtain ⟨fuel, rfl⟩ : ∃ f, fuel = f + 1 := ⟨fuel - 1, by simp at hfuel; omega⟩
    simp only [List.flatMap_cons, List.length_append] at hlen
    have hv₁ : c.valid v := hv v (by simp)
    have hne : c.write v ++ vs.flatMap c.write ≠ [] := by simp [c.write_ne_nil v hv₁]
    rw [List.flatMap_cons, readItems_cons_eq _ _ hne, c.read_write _ _ hv₁ (by omega)]
    have hrest := ih fuel (fun w hw => hv w (by simp [hw])) (by omega) (by simpa using hfuel)
    simp [hrest, Except.bind, Except.map]

/-- What `readItems` accepts is the values written end to end, up to `r`. -/
theorem readItems_sound (c : PrefixCodec β ε r bound α) (fuel : ℕ) :
    ∀ {b : List β} {vs : List α}, b.length ≤ fuel → readItems c.read fuel b = .ok vs →
      (∀ v ∈ vs, c.valid v) ∧ List.Forall₂ r b (vs.flatMap c.write) := by
  induction fuel with
  | zero =>
    intro b vs hlen h
    obtain rfl : b = [] := List.eq_nil_of_length_eq_zero (by omega)
    simp only [readItems_nil, Except.ok.injEq] at h
    subst h
    simp
  | succ fuel ih =>
    intro b vs hlen h
    by_cases hb : b = []
    · subst hb
      simp only [readItems_nil, Except.ok.injEq] at h
      subst h
      simp
    rw [readItems_cons_eq _ _ hb] at h
    cases h₁ : c.read b with
    | error e => simp [h₁, Except.bind] at h
    | ok p =>
      obtain ⟨v, rest⟩ := p
      cases h₂ : readItems c.read fuel rest with
      | error e => simp [h₁, h₂, Except.bind, Except.map] at h
      | ok vs' =>
        simp only [h₁, h₂, Except.bind, Except.map, Except.ok.injEq] at h
        subst h
        have hshort := c.length_lt_of_read h₁
        obtain ⟨hvs, hrel⟩ := ih (by omega) h₂
        obtain ⟨hv, pre, hpre, rfl⟩ := c.read_sound h₁
        refine ⟨fun w hw => ?_, ?_⟩
        · rcases List.mem_cons.mp hw with rfl | hw
          · exact hv
          · exact hvs w hw
        · rw [List.flatMap_cons]
          exact List.rel_append hpre hrel

end PrefixCodec
