import Mathlib.Data.Nat.Digits.Defs
import RsNano.Types.Basic
import RsNano.Lib.Loop

/-!
# The text form of accounts

An account is written as sixty digits of five bits each, the account above its checksum, behind a
prefix. The parser accepts several prefixes. A string is the list of its characters here, and the
checksum of five bytes is a 40-bit number, its least significant byte first; it is an arbitrary
function of the account. The accesses to tables and the checked addition can panic. The loops
are over numbers of any width; the code uses 512 bits.

For the prefixes of accounts the parser checks the length of the text. For the prefix of node ids
it does not, so that a longer text is read as an account too.
-/

namespace RsNano

open List Nat

inductive AccountPanic
  | indexOutOfRange
  | addOverflow
  deriving DecidableEq, Repr

def accountLookup : List Char :=
  ['1', '3', '4', '5', '6', '7', '8', '9', 'a', 'b', 'c', 'd', 'e', 'f', 'g', 'h', 'i', 'j', 'k',
    'm', 'n', 'o', 'p', 'q', 'r', 's', 't', 'u', 'w', 'x', 'y', 'z']

def accountEncode (value : BitVec 8) : Except AccountPanic Char :=
  match accountLookup[value.toNat]? with
  | some c => .ok c
  | none => .error .indexOutOfRange

namespace Account

end Account

namespace EncodedAccountStr

/-- The number of bytes of a string. -/
def len (s : List Char) : ℕ := (s.map Char.utf8Size).sum

end EncodedAccountStr

namespace EncodedAccountU512

end EncodedAccountU512

open EncodedAccountStr

/-- A character is the digit of a five-bit number. -/
def IsDigit (c : Char) (v : BitVec 8) : Prop := v.toNat < 32 ∧ accountEncode v = .ok c

instance (c : Char) (v : BitVec 8) : Decidable (IsDigit c v) := inferInstanceAs (Decidable (_ ∧ _))

variable {w : ℕ}

variable {vs : List (BitVec 8)} {p t : List Char}

/-- The numbers of some digits. -/
def digitValues (vs : List (BitVec 8)) : List ℕ := vs.map BitVec.toNat

theorem digitValues_lt {cs : List Char} (h : Forall₂ IsDigit cs vs) :
    ∀ x ∈ digitValues vs, x < 32 := by
  induction h with
  | nil => exact fun x hx => absurd hx not_mem_nil
  | cons hdigit _ ih =>
    intro x hx
    rcases mem_cons.mp hx with rfl | hx
    · exact hdigit.1
    · exact ih x hx

/-- The digits of a length are determined by their number. -/
theorem digits_unique {cs cs' : List Char} {vs' : List (BitVec 8)} (h : Forall₂ IsDigit cs vs)
    (h' : Forall₂ IsDigit cs' vs') (hlen : cs.length = cs'.length)
    (hvalue : ofDigits 32 (digitValues vs) = ofDigits 32 (digitValues vs')) : cs = cs' := by
  have hlens : (digitValues vs).length = (digitValues vs').length := by
    rw [digitValues, digitValues, length_map, length_map, ← h.length_eq, ← h'.length_eq, hlen]
  have hvalues := ofDigits_inj_of_len_eq (by decide) hlens (digitValues_lt h)
    (digitValues_lt h') hvalue
  have hinj : Function.Injective (BitVec.toNat : BitVec 8 → ℕ) := fun _ _ => BitVec.eq_of_toNat_eq
  obtain rfl := map_injective_iff.mpr hinj hvalues
  clear hlen hvalue hlens hvalues
  induction h generalizing cs' with
  | nil =>
    cases h'
    rfl
  | cons hdigit _ ih =>
    cases h' with
    | cons hdigit' hrest =>
      cases hdigit.2.symm.trans hdigit'.2
      rw [ih hrest]

/-! ### Prefixes -/

namespace EncodedAccountStr

end EncodedAccountStr

open EncodedAccountStr

/-! ### Encoded numbers -/

namespace Account

open EncodedAccountU512

variable {checksum : Account → BitVec 40} {a : Account}

/-- The value of the encoded number of an account. -/
def encodedValue (checksum : Account → BitVec 40) (a : Account) : ℕ :=
  a.number.toNat * 2 ^ 40 + (checksum a).toNat

/-- The sixty characters of an account. -/
def IsBody (checksum : Account → BitVec 40) (a : Account) (body : List Char) : Prop :=
  body.length = 60 ∧ ∃ vs, Forall₂ IsDigit body.reverse vs ∧
    ofDigits 32 (digitValues vs) = encodedValue checksum a

theorem IsBody.unique {body body' : List Char} (h : IsBody checksum a body)
    (h' : IsBody checksum a body') : body = body' := by
  obtain ⟨hlen, vs, hdigits, hvalue⟩ := h
  obtain ⟨hlen', vs', hdigits', hvalue'⟩ := h'
  refine reverse_injective (digits_unique hdigits hdigits' ?_ (hvalue.trans hvalue'.symm))
  rw [length_reverse, length_reverse, hlen, hlen']

end Account

end RsNano
