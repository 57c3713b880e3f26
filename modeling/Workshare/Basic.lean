import Mathlib

/-!
# Byte strings, addresses and chain constants

Go byte slices are lists of bytes; a nil slice and an empty slice are both the
empty list, since every branch of the modelled code tests them by length.
Addresses and 32-byte words are fixed-length vectors, so that a value of the
wrong length cannot be built. Balances and energies are `*big.Int` in the
source and `Int` here; `uint64` block times and gas amounts are `Nat` except
where a wrap-around is part of what is proved.
-/
namespace Workshare

/-- A Go `[]byte`. -/
abbrev Bytes := List UInt8

/-- `workshare.Address`, a 20-byte account address. -/
abbrev Address := Vector UInt8 20

/-- `workshare.Bytes32`, a 32-byte word. -/
abbrev Bytes32 := Vector UInt8 32

/-- `Address.IsZero` and `Bytes32.IsZero`: every byte is zero. -/
def isZero {n : ℕ} (v : Vector UInt8 n) : Bool :=
  v.toList.all (· == 0)

/-- `BytesToBytes32`: right-align the last 32 bytes, padding with zeros. -/
def bytesToBytes32 (b : Bytes) : Bytes32 :=
  let tail := b.drop (b.length - 32)
  ⟨(List.replicate (32 - tail.length) 0 ++ tail).toArray, by simp [tail]; omega⟩

/-- `BytesToAddress`: right-align the last 20 bytes, padding with zeros. -/
def bytesToAddress (b : Bytes) : Address :=
  let tail := b.drop (b.length - 20)
  ⟨(List.replicate (20 - tail.length) 0 ++ tail).toArray, by simp [tail]; omega⟩

/-- `math.MaxUint64`. -/
def MaxUint64 : UInt64 := 18446744073709551615

/-- `workshare.BlockInterval`: seconds between two consecutive blocks. -/
def BlockInterval : ℕ := 10

/-- `workshare.MaxBlockProposers`. -/
def MaxBlockProposers : ℕ := 101

/-- `workshare.EnergyGrowthRate`: wei of energy per VET wei per second, scaled by `1e18`. -/
def EnergyGrowthRate : ℤ := 5000000000

end Workshare
