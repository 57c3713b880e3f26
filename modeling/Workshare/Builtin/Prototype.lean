import Workshare.Builtin.Energy

/-!
# The native side of `Prototype`

A contract `self` may sponsor its users: it keeps a credit plan (a credit and
the rate at which used credit recovers per second), for each user the credit
used as of a block time, a flag for each address willing to pay for it, and
the sponsor currently selected. All of it lives in the storage of the
`Prototype` contract, under keys hashed from `self`.

A user's credit is the plan's credit less the used credit, after the used
credit has recovered since its block time. `SetUserCredit` stores the credit
back as used credit, clamped at zero, so a credit between zero and the plan's
credit reads back as itself at the same block time.
-/
namespace Workshare

/-- `builtin.Prototype.Address`. -/
def prototypeAddress : Address := bytesToAddress "Prototype".toUTF8.toList

theorem prototypeAddress_ne_energyAddress : prototypeAddress ≠ energyAddress := by decide +kernel

namespace Prototype

/-- `creditPlan`. -/
structure CreditPlan where
  credit : ℤ
  recoveryRate : ℤ
  deriving DecidableEq, Repr

/-- `userObject`: the credit a user has used, as of a block time. -/
structure UserObject where
  usedCredit : ℤ
  blockTime : UInt64
  deriving DecidableEq, Repr

/-- `userObject.IsEmpty`. -/
def UserObject.isEmpty (u : UserObject) : Bool := u.usedCredit == 0 && u.blockTime == 0

/-- `userObject.Credit`: the plan's credit less the used credit, which recovers
at the plan's rate since the object's block time. -/
def UserObject.credit (u : UserObject) (plan : CreditPlan) (blockTime : UInt64) : ℤ :=
  if u.usedCredit = 0 then plan.credit
  else
    let used := if blockTime ≤ u.blockTime then u.usedCredit
      else u.usedCredit - (blockTime - u.blockTime).toNat * plan.recoveryRate
    if used ≤ 0 then plan.credit
    else if used ≥ plan.credit then 0
    else plan.credit - used

/-- The fields of a user object: a big integer and a `uint64`. -/
def readUserObjectFields : Rlp.Reader UserObject := fun b =>
  (Rlp.readPair Rlp.readBigInt Rlp.readUint64 b).map fun ((u, t), rest) => (⟨u, t⟩, rest)

/-- The RLP struct of a user object. -/
def readUserObject : Rlp.Reader UserObject := Rlp.readList readUserObjectFields

/-- `rlp.EncodeToBytes(uo)`. -/
def encodeUserObject (u : UserObject) : Except Rlp.Error Bytes :=
  (Rlp.encodeBigInt u.usedCredit).map fun c => Rlp.encodeList (c ++ Rlp.encodeUint u.blockTime.toNat)

/-- The RLP struct of two big integers. -/
def readCreditPlan : Rlp.Reader CreditPlan := Rlp.readList fun b =>
  (Rlp.readPair Rlp.readBigInt Rlp.readBigInt b).map fun ((c, r), rest) => (⟨c, r⟩, rest)

variable (blake2b : Bytes → Bytes32) (self : Address)

/-- `userKey`. -/
def userKey (user : Address) : Bytes32 := blake2b (self.toList ++ user.toList ++ "user".toUTF8.toList)

/-- `creditPlanKey`. -/
def creditPlanKey : Bytes32 := blake2b (self.toList ++ "credit-plan".toUTF8.toList)

/-- `sponsorKey`. -/
def sponsorKey (sponsor : Address) : Bytes32 :=
  blake2b (self.toList ++ sponsor.toList ++ "sponsor".toUTF8.toList)

/-- `curSponsorKey`. -/
def curSponsorKey : Bytes32 := blake2b (self.toList ++ "cur-sponsor".toUTF8.toList)

/-- `getUserObject`: an empty slot is a user with nothing used at time zero. -/
def getUserObject (s : State) (user : Address) : Except StateError UserObject :=
  s.decodeStorage prototypeAddress (userKey blake2b self user) fun raw =>
    if raw.isEmpty then .ok ⟨0, 0⟩ else Rlp.decodeBytes readUserObject raw

/-- `setUserObject`: an empty object clears the slot. -/
def setUserObject (user : Address) (uo : UserObject) : Method Unit :=
  encodeStorage prototypeAddress (userKey blake2b self user)
    (if uo.isEmpty then .ok [] else encodeUserObject uo)

/-- `getCreditPlan`. -/
def getCreditPlan (s : State) : Except StateError CreditPlan :=
  s.decodeStorage prototypeAddress (creditPlanKey blake2b self) fun raw =>
    if raw.isEmpty then .ok ⟨0, 0⟩ else Rlp.decodeBytes readCreditPlan raw

/-- `Binding.UserCredit`: zero for an address that is not a user. -/
def userCredit (s : State) (user : Address) (blockTime : UInt64) : Except StateError ℤ :=
  (getUserObject blake2b self s user).bind fun uo =>
    if uo.isEmpty then .ok 0
    else (getCreditPlan blake2b self s).map fun cp => uo.credit cp blockTime

/-- `Binding.SetUserCredit`: the plan's credit less `credit` is stored as used,
and a negative one as zero. -/
def setUserCredit (user : Address) (credit : ℤ) (blockTime : UInt64) : Method Unit := do
  let up ← readOnly (getCreditPlan blake2b self)
  let used := up.credit - credit
  setUserObject blake2b self user ⟨if used < 0 then 0 else used, blockTime⟩

/-- `Binding.IsSponsor`. -/
def isSponsor (s : State) (sponsor : Address) : Except StateError Bool :=
  s.decodeStorage prototypeAddress (sponsorKey blake2b self sponsor) fun raw =>
    if raw.isEmpty then .ok false else Rlp.decodeBytes Rlp.readBool raw

/-- `Binding.CurrentSponsor`: the last twenty bytes of the slot. -/
def currentSponsor (s : State) : Except StateError Address :=
  (s.getStorage blake2b prototypeAddress (curSponsorKey blake2b self)).map fun v => bytesToAddress v.toList

/-- The slot `SetUserCredit` writes. -/
def UserSlot (user : Address) (k : StateKey) : Prop :=
  ∃ b, k = .storage prototypeAddress b (userKey blake2b self user)

variable {blake2b self}

/-- `SetUserCredit` writes the user's slot and nothing else. -/
theorem setUserCredit_sameExcept {s s' : State} {user : Address} {credit : ℤ} {blockTime : UInt64}
    {u : Unit} (h : setUserCredit blake2b self user credit blockTime s = .ok u s') :
    s.SameExcept (UserSlot blake2b self user) s' := by
  simp only [setUserCredit, setUserObject, EStateM.bind_eq_ok_iff, readOnly_eq_ok_iff,
    encodeStorage_eq_ok] at h
  obtain ⟨up, _, ⟨-, rfl⟩, raw, -, rfl⟩ := h
  exact (State.sameExcept_put s _ _).mono fun k hk => ⟨_, hk⟩

/-- A stored plan is made of unsigned integers: its credit and its rate. -/
theorem getCreditPlan_valid {s : State} {plan : CreditPlan}
    (h : getCreditPlan blake2b self s = .ok plan) : 0 ≤ plan.credit ∧ 0 ≤ plan.recoveryRate := by
  simp only [getCreditPlan, State.decodeStorage, Except.bind_eq_ok_iff, Except.mapError_eq_ok_iff] at h
  obtain ⟨raw, -, h⟩ := h
  split at h
  · cases h
    simp
  · obtain ⟨content, hc⟩ := Rlp.readList_eq_ok (Rlp.decodeBytes_eq_ok h)
    simp only [Except.map_eq_ok_iff] at hc
    obtain ⟨⟨⟨c, r⟩, rest⟩, -, hv⟩ := hc
    simp only [Prod.mk.injEq] at hv
    rw [← hv.1]
    simp

/-- A stored plan is made of unsigned integers. -/
theorem getCreditPlan_nonneg {s : State} {plan : CreditPlan}
    (h : getCreditPlan blake2b self s = .ok plan) : 0 ≤ plan.credit :=
  (getCreditPlan_valid h).1

/-- A user's credit is between zero and the plan's credit. -/
theorem credit_le (u : UserObject) {plan : CreditPlan} (blockTime : UInt64) (hp : 0 ≤ plan.credit) :
    0 ≤ u.credit plan blockTime ∧ u.credit plan blockTime ≤ plan.credit := by
  dsimp only [UserObject.credit]
  split_ifs <;> omega

/-- A credit between zero and the plan's is what the plan leaves after using the rest. -/
theorem credit_used {plan : CreditPlan} {used : ℤ} (blockTime : UInt64) (h0 : 0 ≤ used)
    (hle : used ≤ plan.credit) : (UserObject.credit ⟨used, blockTime⟩ plan blockTime) = plan.credit - used := by
  dsimp only [UserObject.credit]
  rw [if_pos (UInt64.le_refl blockTime)]
  split_ifs <;> omega

/-- Time elapsed since a block time is longer at a later time. -/
theorem toNat_sub_le_sub {a t₁ t₂ : UInt64} (h₁ : a ≤ t₁) (ht : t₁ ≤ t₂) : (t₁ - a).toNat ≤ (t₂ - a).toNat := by
  rw [UInt64.toNat_sub_of_le _ _ h₁, UInt64.toNat_sub_of_le _ _ (UInt64.le_trans h₁ ht)]
  have := UInt64.le_iff_toNat_le.mp ht
  omega

/-- Credit only recovers as time goes on. -/
theorem credit_mono (u : UserObject) {plan : CreditPlan} {t₁ t₂ : UInt64} (hp : 0 ≤ plan.credit)
    (hr : 0 ≤ plan.recoveryRate) (ht : t₁ ≤ t₂) : u.credit plan t₁ ≤ u.credit plan t₂ := by
  have hrec : ∀ t : UInt64, 0 ≤ ((t - u.blockTime).toNat : ℤ) * plan.recoveryRate := fun t =>
    Int.mul_nonneg (by omega) hr
  have h₁ := hrec t₁
  have h₂ := hrec t₂
  dsimp only [UserObject.credit]
  by_cases hb₁ : t₁ ≤ u.blockTime
  · by_cases hb₂ : t₂ ≤ u.blockTime
    · simp only [hb₁, hb₂, if_true]
      split_ifs <;> omega
    · simp only [hb₁, hb₂, if_true, if_false]
      split_ifs <;> omega
  · have hb₂ : ¬ t₂ ≤ u.blockTime := fun h => hb₁ (UInt64.le_trans ht h)
    -- the later time has recovered at least as much
    have hmore : ((t₁ - u.blockTime).toNat : ℤ) * plan.recoveryRate ≤
        ((t₂ - u.blockTime).toNat : ℤ) * plan.recoveryRate :=
      Int.mul_le_mul_of_nonneg_right
        (by exact_mod_cast toNat_sub_le_sub (UInt64.le_of_lt (UInt64.not_le.mp hb₁)) ht) hr
    simp only [hb₁, hb₂, if_false]
    split_ifs <;> omega

/-- A credit `c` set at `t` has recovered linearly by `t'`, up to the plan's credit. -/
theorem credit_after {plan : CreditPlan} {c : ℤ} {t t' : UInt64} (h0 : 0 ≤ c) (hle : c ≤ plan.credit)
    (hr : 0 ≤ plan.recoveryRate) (ht : t ≤ t') :
    UserObject.credit ⟨plan.credit - c, t⟩ plan t' = min plan.credit (c + (t' - t).toNat * plan.recoveryRate) := by
  have hnn : 0 ≤ ((t' - t).toNat : ℤ) * plan.recoveryRate := Int.mul_nonneg (by omega) hr
  dsimp only [UserObject.credit]
  by_cases hb : t' ≤ t
  · -- no time has passed: nothing recovered
    have htt : t' = t := UInt64.le_antisymm hb ht
    subst htt
    simp only [UInt64.sub_self, UInt64.toNat_zero, Nat.cast_zero, Int.zero_mul, Int.add_zero, UInt64.le_refl,
      if_true]
    split_ifs <;> omega
  · simp only [hb, if_false]
    split_ifs <;> omega

/-- `UserCredit` of a user whose object and plan are read. -/
theorem userCredit_of {s : State} {user : Address} {uo : UserObject} {plan : CreditPlan}
    (huo : getUserObject blake2b self s user = .ok uo) (hplan : getCreditPlan blake2b self s = .ok plan)
    (blockTime : UInt64) :
    userCredit blake2b self s user blockTime = .ok (if uo.isEmpty then 0 else uo.credit plan blockTime) := by
  simp only [userCredit, huo, Except.bind]
  split
  · rfl
  · simp [hplan, Except.map]

/-- A credit `UserCredit` reads comes from the user's object and the plan. -/
theorem userCredit_eq_ok {s : State} {user : Address} {blockTime : UInt64} {credit : ℤ} {plan : CreditPlan}
    (hplan : getCreditPlan blake2b self s = .ok plan) (h : userCredit blake2b self s user blockTime = .ok credit) :
    ∃ uo, getUserObject blake2b self s user = .ok uo ∧
      credit = if uo.isEmpty then 0 else uo.credit plan blockTime := by
  have hread := h
  simp only [userCredit, Except.bind_eq_ok_iff] at hread
  obtain ⟨uo, huo, -⟩ := hread
  refine ⟨uo, huo, ?_⟩
  rw [userCredit_of huo hplan blockTime] at h
  exact (Except.ok.inj h).symm

/-- What `UserCredit` reads is at most the plan's credit, and not negative. -/
theorem userCredit_le {s : State} {user : Address} {blockTime : UInt64} {credit : ℤ} {plan : CreditPlan}
    (hplan : getCreditPlan blake2b self s = .ok plan) (h : userCredit blake2b self s user blockTime = .ok credit) :
    0 ≤ credit ∧ credit ≤ plan.credit := by
  have hp := getCreditPlan_nonneg hplan
  simp only [userCredit, Except.bind_eq_ok_iff] at h
  obtain ⟨uo, -, h⟩ := h
  split at h
  · cases h
    omega
  · simp only [hplan, Except.map_eq_ok_iff, Except.ok.injEq, exists_eq_left'] at h
    subst h
    exact credit_le uo blockTime hp

/-- The stored object of a user reads back. -/
theorem decode_encodeUserObject {used : ℕ} (blockTime : UInt64) (hu : used < 2 ^ 256) :
    Rlp.decodeBytes readUserObject (Rlp.encodeList (Rlp.writeBigInt used ++ Rlp.encodeUint blockTime.toNat)) =
      .ok ⟨used, blockTime⟩ := by
  have hb : (Rlp.bigBytes used).length ≤ 32 := Rlp.length_bigBytes_le_of_lt (by decide) (by simpa using hu)
  have hw : (Rlp.writeBigInt used).length ≤ 41 := by
    have := Rlp.length_encodeString_le (b := Rlp.bigBytes used) (by omega)
    unfold Rlp.writeBigInt
    omega
  have ht : (Rlp.encodeUint blockTime.toNat).length ≤ 17 := by
    rw [Rlp.encodeUint_eq_writeBigInt blockTime.toNat_lt]
    have h8 := Rlp.length_bigBytes_le blockTime.toNat_lt
    have := Rlp.length_encodeString_le (b := Rlp.bigBytes blockTime.toNat) (by omega)
    unfold Rlp.writeBigInt
    omega
  have hpair := Rlp.readPair_append (Rlp.readBigInt_writeBigInt (by omega))
    (Rlp.readUint64_encodeUint blockTime) (Rlp.writeBigInt_ne_nil used)
    (by rw [Rlp.encodeUint_eq_writeBigInt blockTime.toNat_lt]; exact Rlp.writeBigInt_ne_nil _) []
  rw [List.append_nil] at hpair
  have hfields : readUserObjectFields (Rlp.writeBigInt used ++ Rlp.encodeUint blockTime.toNat) =
      .ok (⟨used, blockTime⟩, []) := by
    simp [readUserObjectFields, hpair, Except.map]
  have hlen : (Rlp.writeBigInt used ++ Rlp.encodeUint blockTime.toNat).length < 2 ^ 64 := by
    simp only [List.length_append]
    omega
  have hlist := Rlp.readList_encodeList hlen hfields []
  apply Rlp.decodeBytes_of_read
  rw [List.append_nil]
  simpa [readUserObject] using hlist

/-- After `SetUserCredit` of a credit between zero and the plan's, at a non-zero
block time, the user's object holds the plan's credit less the credit as used,
and the plan reads as before. The user's slot must not be the plan's. -/
theorem setUserCredit_reads {s s' : State} {user : Address} {credit : ℤ} {blockTime : UInt64}
    {plan : CreditPlan} {u : Unit} (hs : s.sm.mapStack ≠ [])
    (hkey : userKey blake2b self user ≠ creditPlanKey blake2b self)
    (hplan : getCreditPlan blake2b self s = .ok plan) (hbound : plan.credit < 2 ^ 256)
    (h0 : 0 ≤ credit) (hle : credit ≤ plan.credit) (ht : blockTime ≠ 0)
    (h : setUserCredit blake2b self user credit blockTime s = .ok u s') :
    getUserObject blake2b self s' user = .ok ⟨plan.credit - credit, blockTime⟩ ∧
      getCreditPlan blake2b self s' = .ok plan := by
  simp only [setUserCredit, setUserObject, EStateM.bind_eq_ok_iff, readOnly_eq_ok_iff,
    encodeStorage_eq_ok] at h
  obtain ⟨up, _, ⟨hup, rfl⟩, raw, hraw, rfl⟩ := h
  rw [hplan] at hup
  cases hup
  -- the used credit is the plan's less the credit, already not negative
  have hused : ¬ plan.credit - credit < 0 := by omega
  have hne : (UserObject.isEmpty ⟨plan.credit - credit, blockTime⟩) = false := by
    simp [UserObject.isEmpty, ht]
  simp only [hused, if_false, hne, Bool.false_eq_true, encodeUserObject, Rlp.encodeBigInt,
    Except.map_eq_ok_iff, Except.ok.injEq, exists_eq_left'] at hraw
  subst hraw
  have hread := State.getRawStorage_setRawStorage_self prototypeAddress (userKey blake2b self user)
    (Rlp.encodeList (Rlp.writeBigInt (plan.credit - credit).toNat ++ Rlp.encodeUint blockTime.toNat)) hs
  simp only [resultState, setRawStorage] at hread
  have hdec := @decode_encodeUserObject (plan.credit - credit).toNat blockTime (by omega)
  rw [Int.toNat_of_nonneg (by omega)] at hdec
  constructor
  · simp [getUserObject, State.decodeStorage, hread, hdec, Rlp.encodeList_ne_nil, Except.mapError]
  · -- the plan's slot is another key, so it reads as before
    rw [← hplan]
    simp only [getCreditPlan, State.decodeStorage]
    rw [State.getRawStorage_put_ne s _ (by simp) fun b h => hkey (by injection h with _ _ h3; exact h3.symm)]

/-- `SetUserCredit` of a credit between zero and the plan's, at a non-zero block
time, makes `UserCredit` read it back at that time. The user's slot must not be
the plan's. -/
theorem userCredit_setUserCredit {s s' : State} {user : Address} {credit : ℤ} {blockTime : UInt64}
    {plan : CreditPlan} {u : Unit} (hs : s.sm.mapStack ≠ [])
    (hkey : userKey blake2b self user ≠ creditPlanKey blake2b self)
    (hplan : getCreditPlan blake2b self s = .ok plan) (hbound : plan.credit < 2 ^ 256)
    (h0 : 0 ≤ credit) (hle : credit ≤ plan.credit) (ht : blockTime ≠ 0)
    (h : setUserCredit blake2b self user credit blockTime s = .ok u s') :
    userCredit blake2b self s' user blockTime = .ok credit := by
  obtain ⟨huo, hplan'⟩ := setUserCredit_reads hs hkey hplan hbound h0 hle ht h
  have hne : (UserObject.isEmpty ⟨plan.credit - credit, blockTime⟩) = false := by
    simp [UserObject.isEmpty, ht]
  rw [userCredit_of huo hplan' blockTime, hne, if_neg (by simp), credit_used blockTime (by omega) (by omega)]
  congr 1
  omega

/-- User credit stays within the plan, only recovers with time, and after
`SetUserCredit` recovers linearly from the credit set: for any plan with a
non-negative credit and rate, and for the plan and objects a state stores. -/
theorem userCredit_recovers :
    (∀ (u : UserObject) (plan : CreditPlan) (t₁ t₂ : UInt64), 0 ≤ plan.credit → 0 ≤ plan.recoveryRate →
      t₁ ≤ t₂ → 0 ≤ u.credit plan t₁ ∧ u.credit plan t₁ ≤ u.credit plan t₂ ∧ u.credit plan t₂ ≤ plan.credit) ∧
    (∀ (s : State) (user : Address) (plan : CreditPlan) (t₁ t₂ : UInt64) (c₁ c₂ : ℤ),
      getCreditPlan blake2b self s = .ok plan → t₁ ≤ t₂ →
      userCredit blake2b self s user t₁ = .ok c₁ → userCredit blake2b self s user t₂ = .ok c₂ →
      0 ≤ c₁ ∧ c₁ ≤ c₂ ∧ c₂ ≤ plan.credit) ∧
    (∀ (s s' : State) (user : Address) (credit : ℤ) (blockTime : UInt64) (plan : CreditPlan) (u : Unit),
      s.sm.mapStack ≠ [] → userKey blake2b self user ≠ creditPlanKey blake2b self →
      getCreditPlan blake2b self s = .ok plan → plan.credit < 2 ^ 256 → 0 ≤ credit → credit ≤ plan.credit →
      blockTime ≠ 0 → setUserCredit blake2b self user credit blockTime s = .ok u s' →
      ∀ t', blockTime ≤ t' → userCredit blake2b self s' user t' =
        .ok (min plan.credit (credit + (t' - blockTime).toNat * plan.recoveryRate))) := by
  refine ⟨fun u plan t₁ t₂ hp hr ht => ?_, fun s user plan t₁ t₂ c₁ c₂ hplan ht h₁ h₂ => ?_,
    fun s s' user credit blockTime plan u hs hkey hplan hbound h0 hle hbt h t' ht => ?_⟩
  · exact ⟨(credit_le u t₁ hp).1, credit_mono u hp hr ht, (credit_le u t₂ hp).2⟩
  · -- both reads see the same object and plan
    obtain ⟨hp, hr⟩ := getCreditPlan_valid hplan
    obtain ⟨uo, huo, rfl⟩ := userCredit_eq_ok hplan h₁
    obtain ⟨uo', huo', rfl⟩ := userCredit_eq_ok hplan h₂
    rw [huo] at huo'
    cases huo'
    split
    · omega
    · exact ⟨(credit_le uo t₁ hp).1, credit_mono uo hp hr ht, (credit_le uo t₂ hp).2⟩
  · obtain ⟨huo, hplan'⟩ := setUserCredit_reads hs hkey hplan hbound h0 hle hbt h
    have hne : (UserObject.isEmpty ⟨plan.credit - credit, blockTime⟩) = false := by
      simp [UserObject.isEmpty, hbt]
    rw [userCredit_of huo hplan' t', hne, if_neg (by simp),
      credit_after h0 hle (getCreditPlan_valid hplan).2 ht]

theorem userCredit_recovers_sixty :
    let self : Address := Vector.replicate 20 1
    let user : Address := Vector.replicate 20 2
    let s := (State.new .empty).put (.storage prototypeAddress 0 (creditPlanKey bytesToBytes32 self))
      (.raw (Rlp.encodeList (Rlp.writeBigInt 100 ++ Rlp.writeBigInt 2)))
    s.sm.mapStack ≠ [] ∧ userKey bytesToBytes32 self user ≠ creditPlanKey bytesToBytes32 self ∧
      getCreditPlan bytesToBytes32 self s = .ok ⟨100, 2⟩ ∧
      ∃ s', setUserCredit bytesToBytes32 self user 40 10 s = .ok () s' ∧
        userCredit bytesToBytes32 self s' user 20 = .ok 60 := by
  intro self user s
  have hs : s.sm.mapStack ≠ [] := State.mapStack_put_ne_nil _ _ (by simp [State.new])
  have hkey : userKey bytesToBytes32 self user ≠ creditPlanKey bytesToBytes32 self := by decide +kernel
  have hplan : getCreditPlan bytesToBytes32 self s = .ok ⟨100, 2⟩ := by
    decide +kernel
  have hrun : (setUserCredit bytesToBytes32 self user 40 10).run' s = some () := by
    decide +kernel
  rcases hset : setUserCredit bytesToBytes32 self user 40 10 s with ⟨⟨⟩, s'⟩ | ⟨e, s'⟩
  · have hread := userCredit_recovers.2.2 s s' user 40 10 ⟨100, 2⟩ () hs hkey hplan (by decide) (by decide)
      (by decide) (by decide) hset 20 (by decide)
    exact ⟨hs, hkey, hplan, s', rfl, hread.trans (by decide)⟩
  · simp [EStateM.run', EStateM.run, hset] at hrun

end Prototype

end Workshare
