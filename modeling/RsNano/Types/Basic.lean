import Mathlib.Data.BitVec

/-!
# Base types of the ledger

The 32-byte values of the node are newtypes generated by one macro; here they are one
structure indexed by the kind of value, so that a conversion between two kinds keeps the
number. Amounts are 128-bit words whose arithmetic wraps, which is what the release build
of the node computes; every claim that an operation does not overflow is stated apart.
-/

namespace RsNano

/-- The newtypes over 32 bytes that the node distinguishes. -/
inductive U256Kind
  | account
  | publicKey
  | blockHash
  | link
  | root
  | rawKey
  | walletId
  | hashOrAccount
  | nodeId
  deriving DecidableEq

/-- A 32-byte value of a given kind. -/
@[ext] structure U256 (kind : U256Kind) where
  number : BitVec 256
  deriving DecidableEq

abbrev Account := U256 .account

abbrev PublicKey := U256 .publicKey

abbrev BlockHash := U256 .blockHash

abbrev Link := U256 .link

abbrev Root := U256 .root

/-- A private key, or a key that encrypts private keys. -/
abbrev RawKey := U256 .rawKey

abbrev WalletId := U256 .walletId

abbrev HashOrAccount := U256 .hashOrAccount

abbrev NodeId := U256 .nodeId

namespace U256

variable {a b c : U256Kind}

instance : Zero (U256 a) := ⟨⟨0⟩⟩

instance : Inhabited (U256 a) := ⟨0⟩

instance (n : ℕ) : OfNat (U256 a) (n + 1) := ⟨⟨BitVec.ofNat 256 (n + 1)⟩⟩

/-- Reinterpret the bytes of one kind of value as another kind. -/
def into (b : U256Kind) (x : U256 a) : U256 b := ⟨x.number⟩

/-- A reinterpretation loses no information. -/
@[simp] theorem into_inj {x y : U256 a} : x.into b = y.into b ↔ x = y := by
  constructor
  · intro h
    exact U256.ext (congrArg (fun z : U256 b => z.number) h)
  · rintro rfl
    rfl

/-- The order of the bytes. -/
def byteLe (x y : U256 a) : Prop := x.number.toNat ≤ y.number.toNat

instance : DecidableRel (byteLe (a := a)) := fun x y =>
  inferInstanceAs (Decidable (x.number.toNat ≤ y.number.toNat))

instance : IsTrans (U256 a) byteLe := ⟨fun _ _ _ h h' => Nat.le_trans h h'⟩

instance : Std.Total (byteLe (a := a)) := ⟨fun x y => Nat.le_total x.number.toNat y.number.toNat⟩

instance : Std.Antisymm (byteLe (a := a)) :=
  ⟨fun _ _ h h' => U256.ext (BitVec.eq_of_toNat_eq (Nat.le_antisymm h h'))⟩

/-- The next number, if there is one. -/
def inc (x : U256 a) : Option (U256 a) :=
  if x.number.toNat + 1 < 2 ^ 256 then some ⟨BitVec.ofNat 256 (x.number.toNat + 1)⟩ else none

theorem toNat_of_inc {x y : U256 a} (h : x.inc = some y) : y.number.toNat = x.number.toNat + 1 := by
  rw [inc] at h
  split at h
  · next hlt =>
    cases h
    exact Nat.mod_eq_of_lt hlt
  · cases h

/-- Two values, one behind the other, as a number. -/
def pair (x : U256 a) (y : U256 b) : ℕ := x.number.toNat * 2 ^ 256 + y.number.toNat

variable {x x' : U256 a} {y y' : U256 b}

theorem pair_inj : x.pair y = x'.pair y' ↔ x = x' ∧ y = y' := by
  simp only [pair, U256.ext_iff, ← BitVec.toNat_inj]
  omega

/-- Pairs are compared by their first components first. -/
theorem byteLe_of_pair_le (h : x.pair y ≤ x'.pair y') : byteLe x x' := by
  simp only [pair, byteLe] at h ⊢
  omega

theorem pair_zero_le_iff : x.pair (0 : U256 b) ≤ x'.pair y' ↔ byteLe x x' := by
  have hzero : (0 : U256 b).number.toNat = 0 := rfl
  simp only [pair, byteLe, hzero]
  omega

end U256

/-- A 128-bit amount of raw. -/
abbrev Amount := BitVec 128

/-- The genesis supply, `u128::MAX`. -/
def Amount.max : Amount := BitVec.allOnes 128

/-- A sum of amounts is not above the sum of the numbers. -/
theorem Amount.toNat_sum_le (amounts : List Amount) :
    amounts.sum.toNat ≤ (amounts.map BitVec.toNat).sum := by
  induction amounts with
  | nil => exact le_rfl
  | cons a amounts ih =>
    exact (Nat.mod_le _ _).trans (Nat.add_le_add_left ih _)

/-- A sum of amounts is the sum of the numbers where that fits. -/
theorem Amount.toNat_sum {amounts : List Amount} (h : (amounts.map BitVec.toNat).sum < 2 ^ 128) :
    amounts.sum.toNat = (amounts.map BitVec.toNat).sum := by
  induction amounts with
  | nil => rfl
  | cons a amounts ih =>
    rw [List.map_cons, List.sum_cons] at h
    rw [List.sum_cons, BitVec.toNat_add, ih (by omega)]
    exact Nat.mod_eq_of_lt h

/-- An ed25519 signature. -/
abbrev Signature := BitVec 512

/-- A proof-of-work nonce. -/
abbrev WorkNonce := BitVec 64

/-- Tag for which epoch an entry belongs to. -/
inductive Epoch
  | invalid
  | unspecified
  | epoch0
  | epoch1
  | epoch2
  deriving DecidableEq, Repr

namespace Epoch

/-- The discriminant of the enumeration. -/
def toNat : Epoch → ℕ
  | invalid => 0
  | unspecified => 1
  | epoch0 => 2
  | epoch1 => 3
  | epoch2 => 4

instance : Inhabited Epoch := ⟨unspecified⟩

instance : LE Epoch := ⟨fun a b => a.toNat ≤ b.toNat⟩

instance (a b : Epoch) : Decidable (a ≤ b) := inferInstanceAs (Decidable (a.toNat ≤ b.toNat))

/-- `std::cmp::max` on epochs. -/
def max (a b : Epoch) : Epoch := if a ≤ b then b else a

/-- Two epochs below the first one cannot raise it. -/
@[simp] theorem max_epoch0 : max epoch0 epoch0 = epoch0 := rfl

end Epoch

/-! ### Times -/

/-- Nanoseconds since the start of the steady clock, an `i128`. -/
abbrev Timestamp := ℤ

instance : IsTrans Timestamp (· ≤ ·) := ⟨fun _ _ _ => Int.le_trans⟩

instance : Std.Antisymm (α := Timestamp) (· ≤ ·) := ⟨fun _ _ => Int.le_antisymm⟩

instance : Std.Total (α := Timestamp) (· ≤ ·) := ⟨Int.le_total⟩

/-- The nanoseconds between two points in time, truncated to 64 bits. -/
def Timestamp.sub (t start : Timestamp) : ℕ := ((t - start) % 2 ^ 64).toNat

/-- The full milliseconds of a point in time, truncated to 64 bits. -/
def Timestamp.millis (t : Timestamp) : ℤ := (t.tdiv 1000000).bmod (2 ^ 64)

/-! ### Network addresses -/

/-- An address as its 16 octets in network order. -/
abbrev Ipv6Addr := BitVec 128

structure SocketAddrV6 where
  ip : Ipv6Addr
  port : BitVec 16
  flowinfo : BitVec 32
  scopeId : BitVec 32
  deriving DecidableEq

end RsNano
