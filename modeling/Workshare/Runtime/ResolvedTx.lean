import Workshare.Builtin.Prototype
import Workshare.Tx.Transaction

/-!
# Resolving a transaction and buying its gas

`ResolveTransaction` recovers the origin and the delegator, checks that the
gas covers the intrinsic gas and that the clause values are non-negative and
sum below `2 ^ 256`. `BuyGas` then takes `gas * gasPrice` of energy from one
payer, tried in order: the delegator, if the transaction is delegated;
otherwise, when all clauses call one contract and the origin has enough credit
with it, the contract's current sponsor if flagged, then the contract itself;
last the origin. Each try is an `Energy.Sub` that writes nothing unless it
takes the amount, so a failed purchase leaves the state as it was. The
`returnGas` it returns gives energy back to the same payer, and for a payer
found through the contract's credit also stores the credit the origin used.

`Pays` states the order of the tries over the state `BuyGas` starts from;
`Pays.unique` shows it names at most one payer.
-/
namespace Workshare

/-- The errors of the runtime: the state's, and those it raises itself. -/
inductive RuntimeError
  | state (e : StateError)
  | other (msg : String)

/-- A method of the state, failing with the runtime's errors. -/
def liftMethod {α : Type} (m : Method α) : EStateM RuntimeError State α := m.adaptExcept .state

/-- What is recovered from a transaction's signature: its origin, and the
delegator's signature on it. -/
structure Signer where
  origin : Transaction → Except String Address
  delegator : Transaction → Except String Address

/-- `Transaction.Delegator`: none unless the transaction is delegated. -/
def Signer.delegatorOf (sg : Signer) (tx : Transaction) : Except String (Option Address) :=
  if tx.isDelegated then (sg.delegator tx).map some else .ok none

/-- `math.MaxBig256`. -/
def MaxBig256 : ℤ := 2 ^ 256 - 1

/-- `ResolvedTransaction`. -/
structure ResolvedTransaction where
  tx : Transaction
  origin : Address
  delegator : Option Address
  intrinsicGas : UInt64
  clauses : List Clause

/-- The value loop of `ResolveTransaction`: no negative value, and a running
sum that stays within `MaxBig256`. -/
def sumClauseValues (clauses : List Clause) : Except String ℤ :=
  clauses.foldlM (fun sumValue c =>
    if c.value < 0 then .error "clause with negative value"
    else if sumValue + c.value > MaxBig256 then .error "tx value too large"
    else .ok (sumValue + c.value)) 0

/-- `ResolveTransaction`. -/
def resolveTransaction (sg : Signer) (tx : Transaction) : Except String ResolvedTransaction := do
  let origin ← sg.origin tx
  let intrinsicGas ← Workshare.intrinsicGas tx.clauses
  if tx.gas < intrinsicGas then throw "intrinsic gas exceeds provided gas"
  let delegator ← sg.delegatorOf tx
  let _ ← sumClauseValues tx.clauses
  pure ⟨tx, origin, delegator, intrinsicGas, tx.clauses⟩

/-- A resolved transaction is the transaction itself, with its clauses and an
intrinsic gas that its gas covers. -/
theorem resolveTransaction_eq_ok {sg : Signer} {tx : Transaction} {r : ResolvedTransaction}
    (h : resolveTransaction sg tx = .ok r) :
    r.tx = tx ∧ r.clauses = tx.clauses ∧ intrinsicGas tx.clauses = .ok r.intrinsicGas ∧ r.intrinsicGas ≤ tx.gas := by
  simp only [resolveTransaction, bind, Except.bind, pure, Except.pure] at h
  -- the origin, then the intrinsic gas, then its test against the gas
  split at h
  · cases h
  split at h
  · cases h
  rename_i ig hig
  split at h
  · split at h
    · cases h
    · rename_i hthrow
      cases hthrow
  rename_i hge
  -- the delegator and the clause values only decide whether it succeeds
  split at h
  · cases h
  split at h
  · cases h
  cases h
  exact ⟨rfl, rfl, hig, UInt64.not_lt.mp hge⟩

/-- What `BuyGas` returns: the base gas price, the gas price, the payer and the
`returnGas` callback. -/
structure Bought where
  baseGasPrice : ℤ
  gasPrice : ℤ
  payer : Address
  returnGas : UInt64 → Method Unit

namespace ResolvedTransaction

variable (r : ResolvedTransaction) (blake2b : Bytes → Bytes32) (blockTime : UInt64)

/-- `CommonTo`: the address every clause calls, if there is one. -/
def commonTo : Option Address :=
  match r.clauses with
  | [] => none
  | c :: cs =>
    match c.«to» with
    | none => none
    | some firstTo => if cs.all (fun c => c.«to» == some firstTo) then some firstTo else none

/-- The `returnGas` of a payer found without credit: give the energy back. -/
def returnGasTo (gasPrice : ℤ) (payer : Address) (rgas : UInt64) : Method Unit :=
  Energy.add blake2b blockTime.toNat payer (rgas.toNat * gasPrice)

/-- The `returnGas` of a payer found through the credit of the origin at `c`:
give the energy back, then store as the origin's credit what it had less what
the transaction used. -/
def returnGasAndSetCredit (gasPrice prepaid credit : ℤ) (c payer : Address) (rgas : UInt64) :
    Method Unit := do
  returnGasTo blake2b blockTime gasPrice payer rgas
  Prototype.setUserCredit blake2b c r.origin (credit - (prepaid - rgas.toNat * gasPrice)) blockTime

/-- `Energy.Sub` at the block time. -/
def subEnergy (addr : Address) (amount : ℤ) : EStateM RuntimeError State Bool :=
  liftMethod (Energy.sub blake2b blockTime.toNat addr amount)

/-- The tries on the contract `c`: its current sponsor if flagged, then `c`. -/
def sponsoredPayer (c : Address) (prepaid : ℤ) : EStateM RuntimeError State (Option Address) := do
  let sponsor ← liftMethod (readOnly (Prototype.currentSponsor blake2b c))
  let flag ← liftMethod (readOnly (Prototype.isSponsor blake2b c · sponsor))
  let sponsorPaid ← (if flag then subEnergy blake2b blockTime sponsor prepaid else pure false :
    EStateM RuntimeError State Bool)
  if sponsorPaid then pure (some sponsor)
  else do
    let sufficient ← subEnergy blake2b blockTime c prepaid
    pure (if sufficient then some c else none)

/-- The tries through the origin's credit at the common `To`, with the
`returnGas` of the payer found. -/
def creditPayer (gasPrice prepaid : ℤ) (c : Address) :
    EStateM RuntimeError State (Option (Address × (UInt64 → Method Unit))) := do
  let credit ← liftMethod (readOnly (Prototype.userCredit blake2b c · r.origin blockTime))
  if credit ≥ prepaid then
    let payer ← sponsoredPayer blake2b blockTime c prepaid
    pure (payer.map fun p => (p, r.returnGasAndSetCredit blake2b blockTime gasPrice prepaid credit c p))
  else pure none

/-- `BuyGas`. -/
def buyGas : EStateM RuntimeError State Bought := do
  let baseGasPrice ← liftMethod (readOnly (Params.get · KeyBaseGasPrice))
  let gasPrice := r.tx.gasPrice baseGasPrice
  let prepaid := r.tx.gas.toNat * gasPrice
  match r.delegator with
  | some delegator =>
    let sufficient ← subEnergy blake2b blockTime delegator prepaid
    if sufficient then pure ⟨baseGasPrice, gasPrice, delegator, returnGasTo blake2b blockTime gasPrice delegator⟩
    else throw (.other "insufficient energy")
  | none =>
    let sponsored ← (match r.commonTo with
      | none => pure none
      | some c => r.creditPayer blake2b blockTime gasPrice prepaid c :
      EStateM RuntimeError State (Option (Address × (UInt64 → Method Unit))))
    match sponsored with
    | some (payer, returnGas) => pure ⟨baseGasPrice, gasPrice, payer, returnGas⟩
    | none =>
      -- fallback to deduct from the origin
      let sufficient ← subEnergy blake2b blockTime r.origin prepaid
      if sufficient then pure ⟨baseGasPrice, gasPrice, r.origin, returnGasTo blake2b blockTime gasPrice r.origin⟩
      else throw (.other "insufficient energy")

/-- No try through the credit takes the amount: the origin's credit at the
common `To` is too small, or neither the flagged sponsor nor `To` holds enough. -/
def NotSponsored (s : State) (prepaid : ℤ) : Prop :=
  ∀ c, r.commonTo = some c → ∃ credit, Prototype.userCredit blake2b c s r.origin blockTime = .ok credit ∧
    (credit < prepaid ∨ ∃ sponsor flag, Prototype.currentSponsor blake2b c s = .ok sponsor ∧
      Prototype.isSponsor blake2b c s sponsor = .ok flag ∧
      (flag = true → Energy.Short blockTime.toNat s sponsor prepaid) ∧
      Energy.Short blockTime.toNat s c prepaid)

/-- The payer `BuyGas` selects on the state `s` for `prepaid`, and whether it was
found through the origin's credit at the common `To`. -/
inductive Pays (s : State) (prepaid : ℤ) : Bool → Address → Prop
  | delegator {d : Address} : r.delegator = some d → Energy.CanPay blockTime.toNat s d prepaid →
      Pays s prepaid false d
  | sponsor {c sponsor : Address} {credit : ℤ} : r.delegator = none → r.commonTo = some c →
      Prototype.userCredit blake2b c s r.origin blockTime = .ok credit → prepaid ≤ credit →
      Prototype.currentSponsor blake2b c s = .ok sponsor →
      Prototype.isSponsor blake2b c s sponsor = .ok true →
      Energy.CanPay blockTime.toNat s sponsor prepaid → Pays s prepaid true sponsor
  | commonTo {c sponsor : Address} {credit : ℤ} {flag : Bool} : r.delegator = none → r.commonTo = some c →
      Prototype.userCredit blake2b c s r.origin blockTime = .ok credit → prepaid ≤ credit →
      Prototype.currentSponsor blake2b c s = .ok sponsor →
      Prototype.isSponsor blake2b c s sponsor = .ok flag →
      (flag = true → Energy.Short blockTime.toNat s sponsor prepaid) →
      Energy.CanPay blockTime.toNat s c prepaid → Pays s prepaid true c
  | origin : r.delegator = none → r.NotSponsored blake2b blockTime s prepaid →
      Energy.CanPay blockTime.toNat s r.origin prepaid → Pays s prepaid false r.origin

variable {r blake2b blockTime}

/-- At most one payer, found one way. -/
theorem Pays.unique {s : State} {prepaid : ℤ} {b b' : Bool} {p p' : Address}
    (h : r.Pays blake2b blockTime s prepaid b p) (h' : r.Pays blake2b blockTime s prepaid b' p') :
    b = b' ∧ p = p' := by
  cases h with
  | delegator hd hp =>
    cases h' with
    | delegator hd' _ => rw [hd] at hd'; cases hd'; exact ⟨rfl, rfl⟩
    | sponsor hd' => rw [hd] at hd'; cases hd'
    | commonTo hd' => rw [hd] at hd'; cases hd'
    | origin hd' => rw [hd] at hd'; cases hd'
  | sponsor hd hc hcr hle hsp hfl hp =>
    cases h' with
    | delegator hd' => rw [hd] at hd'; cases hd'
    | sponsor _ hc' hcr' _ hsp' =>
      rw [hc] at hc'; cases hc'
      rw [hsp] at hsp'; cases hsp'
      exact ⟨rfl, rfl⟩
    | commonTo _ hc' hcr' _ hsp' hfl' hshort =>
      rw [hc] at hc'; cases hc'
      rw [hsp] at hsp'; cases hsp'
      rw [hfl] at hfl'; cases hfl'
      exact absurd hp (Energy.not_canPay_of_short _ (hshort rfl))
    | origin _ hno =>
      obtain ⟨credit', hcr', hout⟩ := hno _ hc
      rw [hcr] at hcr'; cases hcr'
      rcases hout with hlt | ⟨sponsor', flag', hsp', hfl', hshort, -⟩
      · omega
      · rw [hsp] at hsp'; cases hsp'
        rw [hfl] at hfl'; cases hfl'
        exact absurd hp (Energy.not_canPay_of_short _ (hshort rfl))
  | commonTo hd hc hcr hle hsp hfl hshort hp =>
    cases h' with
    | delegator hd' => rw [hd] at hd'; cases hd'
    | sponsor _ hc' hcr' _ hsp' hfl' hp' =>
      rw [hc] at hc'; cases hc'
      rw [hsp] at hsp'; cases hsp'
      rw [hfl] at hfl'; cases hfl'
      exact absurd hp' (Energy.not_canPay_of_short _ (hshort rfl))
    | commonTo _ hc' => rw [hc] at hc'; cases hc'; exact ⟨rfl, rfl⟩
    | origin _ hno =>
      obtain ⟨credit', hcr', hout⟩ := hno _ hc
      rw [hcr] at hcr'; cases hcr'
      rcases hout with hlt | ⟨-, -, -, -, -, hshort'⟩
      · omega
      · exact absurd hp (Energy.not_canPay_of_short _ hshort')
  | origin hd hno hp =>
    cases h' with
    | delegator hd' => rw [hd] at hd'; cases hd'
    | sponsor _ hc hcr hle hsp hfl hp' =>
      obtain ⟨credit', hcr', hout⟩ := hno _ hc
      rw [hcr] at hcr'; cases hcr'
      rcases hout with hlt | ⟨sponsor', flag', hsp', hfl', hshort, -⟩
      · omega
      · rw [hsp] at hsp'; cases hsp'
        rw [hfl] at hfl'; cases hfl'
        exact absurd hp' (Energy.not_canPay_of_short _ (hshort rfl))
    | commonTo _ hc hcr hle _ _ _ hp' =>
      obtain ⟨credit', hcr', hout⟩ := hno _ hc
      rw [hcr] at hcr'; cases hcr'
      rcases hout with hlt | ⟨-, -, -, -, -, hshort'⟩
      · omega
      · exact absurd hp' (Energy.not_canPay_of_short _ hshort')
    | origin => exact ⟨rfl, rfl⟩

/-! ### What each step of `BuyGas` can do -/

@[simp] theorem liftMethod_eq_ok_iff {α : Type} {m : Method α} {s s' : State} {a : α} :
    liftMethod m s = .ok a s' ↔ m s = .ok a s' :=
  EStateM.adaptExcept_eq_ok_iff

theorem liftMethod_readOnly_error {α : Type} {f : State → Except StateError α} {s s' : State}
    {e : RuntimeError} (h : liftMethod (readOnly f) s = .error e s') : s' = s := by
  simp only [liftMethod, EStateM.adaptExcept_eq_error_iff, readOnly_eq_error_iff] at h
  obtain ⟨_, ⟨-, rfl⟩, -⟩ := h
  rfl

theorem subEnergy_error {s s' : State} {addr : Address} {amount : ℤ} {e : RuntimeError}
    (h : subEnergy blake2b blockTime addr amount s = .error e s') : s' = s := by
  simp only [subEnergy, liftMethod, EStateM.adaptExcept_eq_error_iff] at h
  obtain ⟨_, h, -⟩ := h
  exact Energy.sub_error h

/-- The tries on the contract: nothing taken and nothing written, or one of
the two addresses pays. -/
theorem sponsoredPayer_spec {s s' : State} {c : Address} {prepaid : ℤ} {p : Option Address}
    (hs : s.sm.mapStack ≠ []) (h : sponsoredPayer blake2b blockTime c prepaid s = .ok p s') :
    ∃ sponsor flag, Prototype.currentSponsor blake2b c s = .ok sponsor ∧
      Prototype.isSponsor blake2b c s sponsor = .ok flag ∧
      ((p = none ∧ (flag = true → Energy.Short blockTime.toNat s sponsor prepaid) ∧
          Energy.Short blockTime.toNat s c prepaid ∧ s' = s) ∨
        (p = some sponsor ∧ flag = true ∧ Energy.CanPay blockTime.toNat s sponsor prepaid ∧
          Energy.Moved blockTime.toNat s s' sponsor (-prepaid) ∧
          s.SameExcept (Energy.Touched blake2b sponsor) s') ∨
        (p = some c ∧ (flag = true → Energy.Short blockTime.toNat s sponsor prepaid) ∧
          Energy.CanPay blockTime.toNat s c prepaid ∧ Energy.Moved blockTime.toNat s s' c (-prepaid) ∧
          s.SameExcept (Energy.Touched blake2b c) s')) := by
  simp only [sponsoredPayer, EStateM.bind_eq_ok_iff, liftMethod_eq_ok_iff, readOnly_eq_ok_iff] at h
  obtain ⟨sponsor, _, ⟨hsp, rfl⟩, flag, _, ⟨hfl, rfl⟩, paid, s₁, hpaid, h⟩ := h
  refine ⟨sponsor, flag, hsp, hfl, ?_⟩
  -- what the try on the sponsor left: it paid, or nothing was written
  have hsponsor : (paid = true ∧ flag = true ∧ Energy.CanPay blockTime.toNat s sponsor prepaid ∧
        Energy.Moved blockTime.toNat s s₁ sponsor (-prepaid) ∧
        s.SameExcept (Energy.Touched blake2b sponsor) s₁) ∨
      (paid = false ∧ (flag = true → Energy.Short blockTime.toNat s sponsor prepaid) ∧ s₁ = s) := by
    cases flag with
    | false =>
      simp only [Bool.false_eq_true, if_false, EStateM.pure_apply, EStateM.Result.ok.injEq] at hpaid
      obtain ⟨rfl, rfl⟩ := hpaid
      exact .inr ⟨rfl, by simp, rfl⟩
    | true =>
      simp only [if_true, subEnergy, liftMethod_eq_ok_iff] at hpaid
      rcases Energy.sub_spec hs hpaid with ⟨rfl, hp, hm, hf⟩ | ⟨rfl, hsh, rfl⟩
      · exact .inl ⟨rfl, rfl, hp, hm, hf⟩
      · exact .inr ⟨rfl, fun _ => hsh, rfl⟩
  rcases hsponsor with ⟨rfl, hflag, hp, hm, hf⟩ | ⟨rfl, hsh, rfl⟩
  · simp only [if_true, EStateM.pure_apply, EStateM.Result.ok.injEq] at h
    obtain ⟨rfl, rfl⟩ := h
    exact .inr (.inl ⟨rfl, hflag, hp, hm, hf⟩)
  · simp only [Bool.false_eq_true, if_false, EStateM.bind_eq_ok_iff, subEnergy, liftMethod_eq_ok_iff,
      EStateM.pure_apply, EStateM.Result.ok.injEq] at h
    obtain ⟨sufficient, s₂, hsub, rfl, rfl⟩ := h
    rcases Energy.sub_spec hs hsub with ⟨rfl, hp, hm, hf⟩ | ⟨rfl, hsh', rfl⟩
    · exact .inr (.inr ⟨rfl, hsh, hp, hm, hf⟩)
    · exact .inl ⟨rfl, hsh, hsh', rfl⟩

theorem sponsoredPayer_error {s s' : State} {c : Address} {prepaid : ℤ} {e : RuntimeError}
    (hs : s.sm.mapStack ≠ []) (h : sponsoredPayer blake2b blockTime c prepaid s = .error e s') : s' = s := by
  simp only [sponsoredPayer, EStateM.bind_eq_error_iff, liftMethod_eq_ok_iff, readOnly_eq_ok_iff] at h
  rcases h with h | ⟨sponsor, _, ⟨-, rfl⟩, h⟩
  · exact liftMethod_readOnly_error h
  rcases h with h | ⟨flag, _, ⟨-, rfl⟩, h⟩
  · exact liftMethod_readOnly_error h
  rcases h with h | ⟨paid, s₁, hpaid, h⟩
  · cases flag with
    | false => simp at h
    | true => exact subEnergy_error h
  -- a try that returned wrote nothing unless it paid, and then nothing follows
  cases paid with
  | true => simp at h
  | false =>
    have hs₁ : s₁ = s := by
      cases flag with
      | false =>
        simp only [Bool.false_eq_true, if_false, EStateM.pure_apply, EStateM.Result.ok.injEq] at hpaid
        exact hpaid.2.symm
      | true =>
        simp only [if_true, subEnergy, liftMethod_eq_ok_iff] at hpaid
        rcases Energy.sub_spec hs hpaid with ⟨h1, -⟩ | ⟨-, -, h2⟩
        · cases h1
        · exact h2
    subst hs₁
    simp only [Bool.false_eq_true, if_false, EStateM.bind_eq_error_iff, EStateM.pure_apply,
      reduceCtorEq, and_false, exists_false, or_false] at h
    exact subEnergy_error h

/-- The tries through the credit: none of them took anything, or one payer,
found through the credit, took the amount. -/
theorem creditPayer_spec {s s' : State} {gasPrice prepaid : ℤ} {c : Address}
    {o : Option (Address × (UInt64 → Method Unit))} (hs : s.sm.mapStack ≠ [])
    (hd : r.delegator = none) (hc : r.commonTo = some c)
    (h : r.creditPayer blake2b blockTime gasPrice prepaid c s = .ok o s') :
    ∃ credit, Prototype.userCredit blake2b c s r.origin blockTime = .ok credit ∧
      ((o = none ∧ s' = s ∧ (credit < prepaid ∨ ∃ sponsor flag, Prototype.currentSponsor blake2b c s = .ok sponsor ∧
          Prototype.isSponsor blake2b c s sponsor = .ok flag ∧
          (flag = true → Energy.Short blockTime.toNat s sponsor prepaid) ∧
          Energy.Short blockTime.toNat s c prepaid)) ∨
        ∃ p, o = some (p, r.returnGasAndSetCredit blake2b blockTime gasPrice prepaid credit c p) ∧
          r.Pays blake2b blockTime s prepaid true p ∧ Energy.Moved blockTime.toNat s s' p (-prepaid) ∧
          s.SameExcept (Energy.Touched blake2b p) s') := by
  simp only [creditPayer, EStateM.bind_eq_ok_iff, liftMethod_eq_ok_iff, readOnly_eq_ok_iff] at h
  obtain ⟨credit, _, ⟨hcr, rfl⟩, h⟩ := h
  refine ⟨credit, hcr, ?_⟩
  split at h
  case isFalse hlt =>
    simp only [EStateM.pure_apply, EStateM.Result.ok.injEq] at h
    obtain ⟨rfl, rfl⟩ := h
    exact .inl ⟨rfl, rfl, .inl (by omega)⟩
  case isTrue hle =>
    simp only [EStateM.bind_eq_ok_iff, EStateM.pure_apply, EStateM.Result.ok.injEq] at h
    obtain ⟨payer, s₁, hpayer, rfl, rfl⟩ := h
    obtain ⟨sponsor, flag, hsp, hfl, hcases⟩ := sponsoredPayer_spec hs hpayer
    rcases hcases with ⟨rfl, hsh, hsh', rfl⟩ | ⟨rfl, rfl, hp, hm, hf⟩ | ⟨rfl, hsh, hp, hm, hf⟩
    · exact .inl ⟨rfl, rfl, .inr ⟨sponsor, flag, hsp, hfl, hsh, hsh'⟩⟩
    · exact .inr ⟨sponsor, rfl, .sponsor hd hc hcr hle hsp hfl hp, hm, hf⟩
    · exact .inr ⟨c, rfl, .commonTo hd hc hcr hle hsp hfl hsh hp, hm, hf⟩

theorem creditPayer_error {s s' : State} {gasPrice prepaid : ℤ} {c : Address} {e : RuntimeError}
    (hs : s.sm.mapStack ≠ []) (h : r.creditPayer blake2b blockTime gasPrice prepaid c s = .error e s') :
    s' = s := by
  simp only [creditPayer, EStateM.bind_eq_error_iff, liftMethod_eq_ok_iff, readOnly_eq_ok_iff] at h
  rcases h with h | ⟨credit, _, ⟨-, rfl⟩, h⟩
  · exact liftMethod_readOnly_error h
  split at h
  case isFalse => simp at h
  case isTrue =>
    simp only [EStateM.bind_eq_error_iff, EStateM.pure_apply, reduceCtorEq, and_false, exists_false,
      or_false] at h
    exact sponsoredPayer_error hs h

/-- A failed `BuyGas` leaves the state as it was. -/
theorem buyGas_error {s s' : State} {e : RuntimeError} (hs : s.sm.mapStack ≠ [])
    (h : r.buyGas blake2b blockTime s = .error e s') : s' = s := by
  simp only [buyGas, EStateM.bind_eq_error_iff, liftMethod_eq_ok_iff, readOnly_eq_ok_iff] at h
  rcases h with h | ⟨baseGasPrice, _, ⟨-, rfl⟩, h⟩
  · exact liftMethod_readOnly_error h
  cases hd : r.delegator with
  | some d =>
    simp only [hd, EStateM.bind_eq_error_iff] at h
    rcases h with h | ⟨sufficient, s₁, hsub, h⟩
    · exact subEnergy_error h
    cases sufficient with
    | true => simp at h
    | false =>
      simp only [subEnergy, liftMethod_eq_ok_iff] at hsub
      rcases Energy.sub_spec hs hsub with ⟨h1, -⟩ | ⟨-, -, rfl⟩
      · cases h1
      · simp only [Bool.false_eq_true, if_false, EStateM.throw_apply, EStateM.Result.error.injEq] at h
        exact h.2.symm
  | none =>
    simp only [hd, EStateM.bind_eq_error_iff] at h
    rcases h with h | ⟨sponsored, s₁, hsp, h⟩
    · cases hc : r.commonTo with
      | none => simp [hc] at h
      | some c =>
        simp only [hc] at h
        exact creditPayer_error hs h
    -- the tries through the credit took nothing, or `BuyGas` returned
    obtain ⟨rfl, rfl⟩ : sponsored = none ∧ s₁ = s := by
      cases hc : r.commonTo with
      | none =>
        simp only [hc, EStateM.pure_apply, EStateM.Result.ok.injEq] at hsp
        exact ⟨hsp.1.symm, hsp.2.symm⟩
      | some c =>
        simp only [hc] at hsp
        obtain ⟨credit, -, ⟨rfl, rfl, -⟩ | ⟨p, rfl, -⟩⟩ := creditPayer_spec hs hd hc hsp
        · exact ⟨rfl, rfl⟩
        · simp at h
    simp only [EStateM.bind_eq_error_iff] at h
    rcases h with h | ⟨sufficient, s₂, hsub, h⟩
    · exact subEnergy_error h
    cases sufficient with
    | true => simp at h
    | false =>
      simp only [subEnergy, liftMethod_eq_ok_iff] at hsub
      rcases Energy.sub_spec hs hsub with ⟨h1, -⟩ | ⟨-, -, rfl⟩
      · cases h1
      · simp only [Bool.false_eq_true, if_false, EStateM.throw_apply, EStateM.Result.error.injEq] at h
        exact h.2.symm

/-- What the tries through the credit leave when `BuyGas` goes on: they took
nothing and the origin comes next, or a payer found through the credit took
the amount. -/
theorem sponsored_cases {s s' : State} {gasPrice prepaid : ℤ}
    {sponsored : Option (Address × (UInt64 → Method Unit))} (hs : s.sm.mapStack ≠ [])
    (hd : r.delegator = none)
    (h : (match r.commonTo with
      | none => pure none
      | some c => r.creditPayer blake2b blockTime gasPrice prepaid c :
        EStateM RuntimeError State (Option (Address × (UInt64 → Method Unit)))) s = .ok sponsored s') :
    (sponsored = none ∧ s' = s ∧ r.NotSponsored blake2b blockTime s prepaid) ∨
      ∃ c credit p, sponsored = some (p, r.returnGasAndSetCredit blake2b blockTime gasPrice prepaid credit c p) ∧
        r.commonTo = some c ∧ Prototype.userCredit blake2b c s r.origin blockTime = .ok credit ∧
        r.Pays blake2b blockTime s prepaid true p ∧ Energy.Moved blockTime.toNat s s' p (-prepaid) ∧
        s.SameExcept (Energy.Touched blake2b p) s' := by
  cases hc : r.commonTo with
  | none =>
    simp only [hc, EStateM.pure_apply, EStateM.Result.ok.injEq] at h
    obtain ⟨rfl, rfl⟩ := h
    exact .inl ⟨rfl, rfl, fun c hc' => by rw [hc] at hc'; cases hc'⟩
  | some c =>
    simp only [hc] at h
    obtain ⟨credit, hcr, ⟨rfl, rfl, hout⟩ | ⟨p, rfl, hpays, hm, hf⟩⟩ := creditPayer_spec hs hd hc h
    · refine .inl ⟨rfl, rfl, fun c' hc' => ?_⟩
      rw [hc] at hc'
      cases hc'
      exact ⟨credit, hcr, hout⟩
    · exact .inr ⟨c, credit, p, rfl, rfl, hcr, hpays, hm, hf⟩

/-- What a successful `BuyGas` did: it read the base gas price, found the one
payer `Pays` names, took the prepaid energy from it and wrote nothing but the
payer's account and the energy totals. Its `returnGas` is the one of the way
the payer was found. -/
theorem buyGas_ok {s s' : State} {b : Bought} (hs : s.sm.mapStack ≠ [])
    (h : r.buyGas blake2b blockTime s = .ok b s') :
    Params.get s KeyBaseGasPrice = .ok b.baseGasPrice ∧ b.gasPrice = r.tx.gasPrice b.baseGasPrice ∧
      ∃ sponsored, r.Pays blake2b blockTime s (r.tx.gas.toNat * b.gasPrice) sponsored b.payer ∧
        Energy.Moved blockTime.toNat s s' b.payer (-(r.tx.gas.toNat * b.gasPrice)) ∧
        s.SameExcept (Energy.Touched blake2b b.payer) s' ∧
        (sponsored = false → b.returnGas = returnGasTo blake2b blockTime b.gasPrice b.payer) ∧
        (sponsored = true → ∃ c credit, r.commonTo = some c ∧
          Prototype.userCredit blake2b c s r.origin blockTime = .ok credit ∧
          b.returnGas = r.returnGasAndSetCredit blake2b blockTime b.gasPrice
            (r.tx.gas.toNat * b.gasPrice) credit c b.payer) := by
  simp only [buyGas, EStateM.bind_eq_ok_iff, liftMethod_eq_ok_iff, readOnly_eq_ok_iff] at h
  obtain ⟨baseGasPrice, _, ⟨hbase, rfl⟩, h⟩ := h
  cases hd : r.delegator with
  | some d =>
    simp only [hd, EStateM.bind_eq_ok_iff] at h
    obtain ⟨sufficient, s₁, hsub, h⟩ := h
    simp only [subEnergy, liftMethod_eq_ok_iff] at hsub
    rcases Energy.sub_spec hs hsub with ⟨rfl, hp, hm, hf⟩ | ⟨rfl, -, rfl⟩
    · simp only [if_true, EStateM.pure_apply, EStateM.Result.ok.injEq] at h
      obtain ⟨rfl, rfl⟩ := h
      exact ⟨hbase, rfl, false, .delegator hd hp, hm, hf, fun _ => rfl, fun h => by cases h⟩
    · simp at h
  | none =>
    simp only [hd, EStateM.bind_eq_ok_iff] at h
    obtain ⟨sponsored, s₁, hsp, h⟩ := h
    rcases sponsored_cases hs hd hsp with ⟨rfl, rfl, hno⟩ | ⟨c, credit, p, rfl, hc, hcr, hpays, hm, hf⟩
    · -- the origin pays
      simp only [EStateM.bind_eq_ok_iff] at h
      obtain ⟨sufficient, s₂, hsub, h⟩ := h
      simp only [subEnergy, liftMethod_eq_ok_iff] at hsub
      rcases Energy.sub_spec hs hsub with ⟨rfl, hp, hm, hf⟩ | ⟨rfl, -, rfl⟩
      · simp only [if_true, EStateM.pure_apply, EStateM.Result.ok.injEq] at h
        obtain ⟨rfl, rfl⟩ := h
        exact ⟨hbase, rfl, false, .origin hd hno hp, hm, hf, fun _ => rfl, fun h => by cases h⟩
      · simp at h
    · simp only [EStateM.pure_apply, EStateM.Result.ok.injEq] at h
      obtain ⟨rfl, rfl⟩ := h
      exact ⟨hbase, rfl, true, hpays, hm, hf, (fun h => by cases h), fun _ => ⟨c, credit, hc, hcr, rfl⟩⟩

/-- A payer found through the credit had at least the prepaid credit. -/
theorem Pays.le_credit {s : State} {prepaid credit : ℤ} {p c : Address}
    (h : r.Pays blake2b blockTime s prepaid true p) (hc : r.commonTo = some c)
    (hcr : Prototype.userCredit blake2b c s r.origin blockTime = .ok credit) : prepaid ≤ credit := by
  cases h with
  | sponsor _ hc' hcr' hle =>
    rw [hc] at hc'
    cases hc'
    rw [hcr] at hcr'
    cases hcr'
    exact hle
  | commonTo _ hc' hcr' hle =>
    rw [hc] at hc'
    cases hc'
    rw [hcr] at hcr'
    cases hcr'
    exact hle

/-- The plain `returnGas` adds the returned energy to the payer. -/
theorem returnGasTo_spec {s s' : State} {gasPrice : ℤ} {payer : Address} {rgas : UInt64} {u : Unit}
    (hs : s.sm.mapStack ≠ []) (h : returnGasTo blake2b blockTime gasPrice payer rgas s = .ok u s') :
    Energy.Moved blockTime.toNat s s' payer (rgas.toNat * gasPrice) ∧
      s.SameExcept (Energy.Touched blake2b payer) s' :=
  ⟨(Energy.add_spec hs h).1, (Energy.add_spec hs h).2.1⟩

/-- The `returnGas` of a payer found through the credit adds the returned
energy to the payer and stores the origin's credit less what was used, which
`UserCredit` then reads back when the plan is the one it read. -/
theorem returnGasAndSetCredit_spec {s s' : State} {gasPrice prepaid credit : ℤ} {c payer : Address}
    {rgas : UInt64} {u : Unit} (hs : s.sm.mapStack ≠ [])
    (h : r.returnGasAndSetCredit blake2b blockTime gasPrice prepaid credit c payer rgas s = .ok u s') :
    Energy.Moved blockTime.toNat s s' payer (rgas.toNat * gasPrice) ∧
      s.SameExcept (fun k => Energy.Touched blake2b payer k ∨ Prototype.UserSlot blake2b c r.origin k) s' ∧
      ∀ plan, Prototype.getCreditPlan blake2b c s = .ok plan → plan.credit < 2 ^ 256 → blockTime ≠ 0 →
        Prototype.userKey blake2b c r.origin ≠ Prototype.creditPlanKey blake2b c →
        0 ≤ credit - (prepaid - rgas.toNat * gasPrice) → credit - (prepaid - rgas.toNat * gasPrice) ≤ plan.credit →
        Prototype.userCredit blake2b c s' r.origin blockTime = .ok (credit - (prepaid - rgas.toNat * gasPrice)) := by
  simp only [returnGasAndSetCredit, EStateM.bind_eq_ok_iff] at h
  obtain ⟨_, s₁, hadd, hset⟩ := h
  obtain ⟨hm, hf, hs₁⟩ := Energy.add_spec hs hadd
  have hf' := Prototype.setUserCredit_sameExcept hset
  refine ⟨hm.of_sameExcept hf' (fun h => by obtain ⟨_, hk⟩ := h; cases hk), ?_, ?_⟩
  · exact (hf.mono fun k hk => .inl hk).trans (hf'.mono fun k hk => .inr hk)
  · intro plan hplan hbound ht hkey h0 hle
    -- `Add` wrote the account and the energy totals, not the plan's slot
    have hplan₁ : Prototype.getCreditPlan blake2b c s₁ = .ok plan := by
      rw [← hplan]
      simp only [Prototype.getCreditPlan, State.decodeStorage]
      rw [State.getRawStorage_of_sameExcept hf (by rintro (h | ⟨_, h⟩) <;> cases h)
        fun b => by
          rintro (h | ⟨_, h⟩)
          · cases h
          · injection h with h1
            exact prototypeAddress_ne_energyAddress h1]
    exact Prototype.userCredit_setUserCredit hs₁ hkey hplan₁ hbound h0 hle ht hset

/-- `BuyGas` takes the prepaid gas from exactly one payer, the one `Pays`
names, and its `returnGas` settles with that payer. A failed `BuyGas` leaves
the state as it was. A successful one reads the base gas price, takes
`gas * gasPrice` from the payer's energy at the block time, and leaves every
read but the payer's account and the totals slot of `Energy` as it was.
`returnGas` of at most the bought gas adds `rgas * gasPrice` back to the payer;
for a payer found through the credit, with the contract's plan unchanged, it
also leaves the origin with its credit less the energy the transaction used. -/
theorem buyGas_exactly_one_payer (r : ResolvedTransaction) (blake2b : Bytes → Bytes32) (blockTime : UInt64)
    (s : State) (hs : s.sm.mapStack ≠ []) :
    (∀ e s', r.buyGas blake2b blockTime s = .error e s' → s' = s) ∧
    ∀ b s', r.buyGas blake2b blockTime s = .ok b s' →
      Params.get s KeyBaseGasPrice = .ok b.baseGasPrice ∧ b.gasPrice = r.tx.gasPrice b.baseGasPrice ∧
      (∃ sponsored, r.Pays blake2b blockTime s (r.tx.gas.toNat * b.gasPrice) sponsored b.payer) ∧
      (∀ sponsored p, r.Pays blake2b blockTime s (r.tx.gas.toNat * b.gasPrice) sponsored p → p = b.payer) ∧
      Energy.Moved blockTime.toNat s s' b.payer (-(r.tx.gas.toNat * b.gasPrice)) ∧
      s.SameExcept (Energy.Touched blake2b b.payer) s' ∧
      ∀ rgas s₂ s₂', rgas ≤ r.tx.gas → s₂.sm.mapStack ≠ [] → b.returnGas rgas s₂ = .ok () s₂' →
        Energy.Moved blockTime.toNat s₂ s₂' b.payer (rgas.toNat * b.gasPrice) ∧
        s₂.SameExcept (fun k => Energy.Touched blake2b b.payer k ∨
          ∃ c, r.commonTo = some c ∧ Prototype.UserSlot blake2b c r.origin k) s₂' ∧
        ∀ c credit plan, r.Pays blake2b blockTime s (r.tx.gas.toNat * b.gasPrice) true b.payer →
          r.commonTo = some c → Prototype.userCredit blake2b c s r.origin blockTime = .ok credit →
          Prototype.getCreditPlan blake2b c s₂ = Prototype.getCreditPlan blake2b c s →
          Prototype.getCreditPlan blake2b c s₂ = .ok plan → plan.credit < 2 ^ 256 → blockTime ≠ 0 →
          Prototype.userKey blake2b c r.origin ≠ Prototype.creditPlanKey blake2b c →
          Prototype.userCredit blake2b c s₂' r.origin blockTime =
            .ok (credit - (r.tx.gas.toNat * b.gasPrice - rgas.toNat * b.gasPrice)) := by
  refine ⟨fun e s' h => buyGas_error hs h, fun b s' h => ?_⟩
  obtain ⟨hbase, hgp, sponsored, hpays, hm, hf, hplain, hcredit⟩ := buyGas_ok hs h
  have hgp0 : 0 ≤ b.gasPrice := hgp ▸ r.tx.gasPrice_nonneg (Params.get_nonneg hbase)
  refine ⟨hbase, hgp, ⟨sponsored, hpays⟩, fun _ p hp => (hpays.unique hp).2.symm, hm, hf, ?_⟩
  intro rgas s₂ s₂' hle hs₂ hret
  cases sponsored with
  | false =>
    rw [hplain rfl] at hret
    obtain ⟨hm₂, hf₂⟩ := returnGasTo_spec hs₂ hret
    refine ⟨hm₂, hf₂.mono fun k hk => .inl hk, fun c credit plan hp => ?_⟩
    exact absurd (hpays.unique hp).1 Bool.false_ne_true
  | true =>
    obtain ⟨c, credit, hc, hcr, hrg⟩ := hcredit rfl
    rw [hrg] at hret
    obtain ⟨hm₂, hf₂, hcr₂⟩ := returnGasAndSetCredit_spec hs₂ hret
    refine ⟨hm₂, hf₂.mono fun k hk => hk.imp_right fun hk => ⟨c, hc, hk⟩, ?_⟩
    intro c' credit' plan _ hc' hcr' hsame hplan hbound ht hkey
    rw [hc] at hc'
    cases hc'
    rw [hcr] at hcr'
    cases hcr'
    -- the credit covered the prepaid gas and is within the plan
    have hprepaid := hpays.le_credit hc hcr
    have hwithin := Prototype.userCredit_le (hsame ▸ hplan) hcr
    have hrgas : (rgas.toNat : ℤ) ≤ r.tx.gas.toNat := by
      have := UInt64.le_iff_toNat_le.mp hle
      omega
    have hused : (rgas.toNat : ℤ) * b.gasPrice ≤ r.tx.gas.toNat * b.gasPrice :=
      Int.mul_le_mul_of_nonneg_right hrgas hgp0
    have hret0 : 0 ≤ (rgas.toNat : ℤ) * b.gasPrice := Int.mul_nonneg (by omega) hgp0
    exact hcr₂ plan hplan hbound ht hkey (by omega) (by omega)

theorem buyGas_exactly_one_payer_new :
    let r : ResolvedTransaction :=
      ⟨⟨0, 0, 0, [], 0, 21000, none, 0, ⟨0, []⟩, []⟩, Vector.replicate 20 1, none, 21000, []⟩
    let s := State.new .empty
    s.sm.mapStack ≠ [] ∧
    (∀ e s', r.buyGas bytesToBytes32 1 s = .error e s' → s' = s) ∧
    ∀ b s', r.buyGas bytesToBytes32 1 s = .ok b s' →
      Params.get s KeyBaseGasPrice = .ok b.baseGasPrice ∧ b.gasPrice = r.tx.gasPrice b.baseGasPrice ∧
      (∃ sponsored, r.Pays bytesToBytes32 1 s (r.tx.gas.toNat * b.gasPrice) sponsored b.payer) ∧
      (∀ sponsored p, r.Pays bytesToBytes32 1 s (r.tx.gas.toNat * b.gasPrice) sponsored p → p = b.payer) ∧
      Energy.Moved (1 : UInt64).toNat s s' b.payer (-(r.tx.gas.toNat * b.gasPrice)) ∧
      s.SameExcept (Energy.Touched bytesToBytes32 b.payer) s' ∧
      ∀ rgas s₂ s₂', rgas ≤ r.tx.gas → s₂.sm.mapStack ≠ [] → b.returnGas rgas s₂ = .ok () s₂' →
        Energy.Moved (1 : UInt64).toNat s₂ s₂' b.payer (rgas.toNat * b.gasPrice) ∧
        s₂.SameExcept (fun k => Energy.Touched bytesToBytes32 b.payer k ∨
          ∃ c, r.commonTo = some c ∧ Prototype.UserSlot bytesToBytes32 c r.origin k) s₂' ∧
        ∀ c credit plan, r.Pays bytesToBytes32 1 s (r.tx.gas.toNat * b.gasPrice) true b.payer →
          r.commonTo = some c → Prototype.userCredit bytesToBytes32 c s r.origin 1 = .ok credit →
          Prototype.getCreditPlan bytesToBytes32 c s₂ = Prototype.getCreditPlan bytesToBytes32 c s →
          Prototype.getCreditPlan bytesToBytes32 c s₂ = .ok plan → plan.credit < 2 ^ 256 → (1 : UInt64) ≠ 0 →
          Prototype.userKey bytesToBytes32 c r.origin ≠ Prototype.creditPlanKey bytesToBytes32 c →
          Prototype.userCredit bytesToBytes32 c s₂' r.origin 1 =
            .ok (credit - (r.tx.gas.toNat * b.gasPrice - rgas.toNat * b.gasPrice)) := by
  intro r s
  have hs : s.sm.mapStack ≠ [] := by simp [s, State.new]
  exact ⟨hs, buyGas_exactly_one_payer r bytesToBytes32 1 s hs⟩

/-- BuyGas also writes the totals slot of the Energy contract, which no account reads. -/
theorem buyGas_writes_energy_totals :
    let origin : Address := Vector.replicate 20 1
    let r : ResolvedTransaction :=
      ⟨⟨0, 0, 0, [], 0, 21000, none, 0, ⟨0, []⟩, []⟩, origin, none, 21000, []⟩
    let s := (State.new (.ofAccounts fun a => if a = origin then ⟨0, 1000000, 1, [], [], []⟩ else emptyAccount)).put
      (.storage paramsAddress 0 KeyBaseGasPrice) (.raw (Rlp.writeBigInt 1))
    ∃ b s', r.buyGas bytesToBytes32 1 s = .ok b s' ∧ b.payer = origin ∧
      s'.getRawStorage energyAddress (Energy.totalAddSubKey bytesToBytes32) ≠
        s.getRawStorage energyAddress (Energy.totalAddSubKey bytesToBytes32) := by
  intro origin r s
  have hrun : (match r.buyGas bytesToBytes32 1 s with
      | .ok b s' => decide (b.payer = origin) &&
          decide (s'.getRawStorage energyAddress (Energy.totalAddSubKey bytesToBytes32) ≠
            s.getRawStorage energyAddress (Energy.totalAddSubKey bytesToBytes32))
      | .error _ _ => false) = true := by
    decide +kernel
  rcases hres : r.buyGas bytesToBytes32 1 s with ⟨b, s'⟩ | ⟨e, s'⟩
  · rw [hres] at hrun
    simp only [Bool.and_eq_true, decide_eq_true_eq] at hrun
    exact ⟨b, s', rfl, hrun⟩
  · rw [hres] at hrun
    exact absurd hrun Bool.false_ne_true

end ResolvedTransaction

end Workshare
