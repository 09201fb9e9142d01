import Mathlib.Data.Nat.Notation
import Mathlib.Data.List.Basic
import Mathlib.Algebra.Ring.Nat
import Mathlib.Algebra.Order.Monoid.Unbundled.Pow

/-!
# Bytes, readers and their round trips

Fixed-width numbers as bytes in both byte orders, and readers that consume bytes from the front
of a list. `Reads r bytes x` says that a reader turns the given bytes into a value and leaves
whatever comes after them; round trips of composed formats are put together from those of their
fields with `Reads.bind`.
-/

namespace RsNano

open List

abbrev Byte := BitVec 8

namespace Bytes

/-- The lowest `n` bytes of a number, the least significant byte first. -/
def ofNatLe : ℕ → ℕ → List Byte
  | 0, _ => []
  | n + 1, v => BitVec.ofNat 8 v :: ofNatLe n (v / 256)

/-- The number that the bytes denote, the least significant byte first. -/
def toNatLe : List Byte → ℕ
  | [] => 0
  | b :: bs => b.toNat + 256 * toNatLe bs

/-- The lowest `n` bytes of a number, the most significant byte first. -/
def ofNatBe (n v : ℕ) : List Byte := (ofNatLe n v).reverse

/-- The number that the bytes denote, the most significant byte first. -/
def toNatBe (bs : List Byte) : ℕ := toNatLe bs.reverse

@[simp] theorem length_ofNatLe (n v : ℕ) : (ofNatLe n v).length = n := by
  induction n generalizing v with
  | zero => rfl
  | succ n ih => rw [ofNatLe, length_cons, ih]

@[simp] theorem length_ofNatBe (n v : ℕ) : (ofNatBe n v).length = n := by
  rw [ofNatBe, length_reverse, length_ofNatLe]

/-- Writing keeps the low bytes. -/
theorem toNatLe_ofNatLe (n v : ℕ) : toNatLe (ofNatLe n v) = v % 256 ^ n := by
  induction n generalizing v with
  | zero => simp [ofNatLe, toNatLe, Nat.mod_one]
  | succ n ih =>
    rw [Nat.pow_succ', Nat.mod_mul, ofNatLe, toNatLe, ih, BitVec.toNat_ofNat]

/-- Writing keeps the low bytes. -/
theorem toNatBe_ofNatBe (n v : ℕ) : toNatBe (ofNatBe n v) = v % 256 ^ n := by
  rw [toNatBe, ofNatBe, reverse_reverse, toNatLe_ofNatLe]

/-- The bytes of a word, the most significant byte first. -/
def be {w : ℕ} (n : ℕ) (x : BitVec w) : List Byte := ofNatBe n x.toNat

/-- The bytes of a word, the least significant byte first. -/
def le {w : ℕ} (n : ℕ) (x : BitVec w) : List Byte := ofNatLe n x.toNat

variable {w n : ℕ}

@[simp] theorem length_be (n : ℕ) (x : BitVec w) : (be n x).length = n := length_ofNatBe _ _

@[simp] theorem length_le (n : ℕ) (x : BitVec w) : (le n x).length = n := length_ofNatLe _ _

/-- Items of one size take up as much as their number says. -/
theorem length_flatMap {α : Type*} {f : α → List Byte} (h : ∀ x, (f x).length = n) (xs : List α) :
    (xs.flatMap f).length = xs.length * n := by
  simp [List.length_flatMap, h]

/-- A word that fits its bytes is not truncated. -/
theorem toNat_mod_of_fits (h : w ≤ 8 * n) (x : BitVec w) : x.toNat % 256 ^ n = x.toNat := by
  refine Nat.mod_eq_of_lt (x.isLt.trans_le ?_)
  calc 2 ^ w ≤ 2 ^ (8 * n) := Nat.pow_le_pow_right Nat.two_pos h
    _ = 256 ^ n := pow_mul 2 8 n

end Bytes

open Bytes

/-- A computation that consumes bytes from the front of its input. -/
abbrev Reader (ε : Type) := StateT (List Byte) (Except ε)

namespace Reader

variable {ε α β : Type}

/-- Consume exactly the given number of bytes. -/
def readExact (eof : ε) (n : ℕ) : Reader ε (List Byte) := fun bytes =>
  if n ≤ bytes.length then .ok (bytes.take n, bytes.drop n) else .error eof

/-- Read a number of the given size, the most significant byte first. -/
def readNatBe (eof : ε) (n : ℕ) : Reader ε ℕ := do
  let bytes ← readExact eof n
  return toNatBe bytes

/-- Read a word, the most significant byte first. -/
def readBe {w : ℕ} (eof : ε) (n : ℕ) : Reader ε (BitVec w) := do
  let bytes ← readExact eof n
  return BitVec.ofNat w (toNatBe bytes)

/-- Read a word, the least significant byte first. -/
def readLe {w : ℕ} (eof : ε) (n : ℕ) : Reader ε (BitVec w) := do
  let bytes ← readExact eof n
  return BitVec.ofNat w (toNatLe bytes)

/-- Stop with an error. -/
def fail (e : ε) : Reader ε α := fun _ => .error e

/-- Return a value, or stop with an error where there is none. -/
def okOr (e : ε) : Option α → Reader ε α
  | some x => pure x
  | none => fail e

/-- The same reader with its errors in a larger type. -/
def mapError {δ : Type} (f : ε → δ) (r : Reader ε α) : Reader δ α := fun bytes =>
  (r bytes).mapError f

/-- The bytes that are left. -/
def remaining : Reader ε (List Byte) := fun bytes => .ok (bytes, bytes)

/-- A reader turns these bytes into this value and leaves the rest alone. -/
def Reads (r : Reader ε α) (bytes : List Byte) (x : α) : Prop :=
  ∀ rest, r (bytes ++ rest) = .ok (x, rest)

namespace Reads

protected theorem pure (x : α) : Reads (pure x : Reader ε α) [] x := fun _ => rfl

/-- Formats follow one another. -/
protected theorem bind {r : Reader ε α} {f : α → Reader ε β} {bytes bytes' : List Byte} {x : α}
    {y : β} (h : Reads r bytes x) (h' : Reads (f x) bytes' y) :
    Reads (r >>= f) (bytes ++ bytes') y := by
  intro rest
  have hx : (r >>= f) (bytes ++ (bytes' ++ rest)) = f x (bytes' ++ rest) := by
    change (r (bytes ++ (bytes' ++ rest)) >>= fun p => f p.1 p.2) = _
    rw [h]
    rfl
  rw [List.append_assoc, hx, h']

variable {x : α} {r : Reader ε α} {bytes : List Byte} {eof : ε}

/-- What follows the last part of a format reads nothing. -/
theorem bind_nil {f : α → Reader ε β} {y : β} (h : Reads r bytes x) (h' : Reads (f x) [] y) :
    Reads (r >>= f) bytes y := by
  have hbind := h.bind h'
  rwa [append_nil] at hbind

/-- The last part of a format. -/
theorem bind_pure {f : α → β} (h : Reads r bytes x) : Reads (do return f (← r)) bytes (f x) :=
  h.bind_nil (.pure (f x))

/-- A field that is there under a condition only. -/
protected theorem ite {p : Prop} [Decidable p] (y : α) (h : Reads r bytes x) :
    Reads (if p then r else pure y) (if p then bytes else []) (if p then x else y) := by
  split
  · exact h
  · exact .pure y

/-- A field that is a code for a value. -/
theorem code {decode : α → Option β} {e : ε} {y : β} (h : Reads r bytes x)
    (hdecode : decode x = some y) : Reads (do okOr e (decode (← r))) bytes y := by
  refine h.bind_nil ?_
  rw [hdecode]
  exact .pure y

/-- The bytes are as many as are asked for. -/
theorem readExact (h : bytes.length = n) : Reads (readExact eof n) bytes bytes := by
  intro rest
  rw [Reader.readExact, if_pos (by rw [length_append]; omega), ← h, take_left, drop_left]

/-- Numbers are read back up to their size. -/
theorem readNatBe (n v : ℕ) : Reads (readNatBe eof n) (ofNatBe n v) (v % 256 ^ n) := by
  rw [← toNatBe_ofNatBe]
  exact (Reads.readExact (length_ofNatBe n v)).bind_pure

/-- Words are read back. -/
theorem readBe (h : w ≤ 8 * n) (x : BitVec w) : Reads (readBe eof n) (be n x) x := by
  have hx : BitVec.ofNat w (toNatBe (be n x)) = x := by
    rw [be, toNatBe_ofNatBe, toNat_mod_of_fits h, BitVec.ofNat_toNat, BitVec.setWidth_eq]
  have hread : Reads (Reader.readBe eof n) (be n x) (BitVec.ofNat w _) :=
    (Reads.readExact (length_be n x)).bind_pure
  rwa [hx] at hread

/-- Words are read back. -/
theorem readLe (h : w ≤ 8 * n) (x : BitVec w) : Reads (readLe eof n) (le n x) x := by
  have hx : BitVec.ofNat w (toNatLe (le n x)) = x := by
    rw [le, toNatLe_ofNatLe, toNat_mod_of_fits h, BitVec.ofNat_toNat, BitVec.setWidth_eq]
  have hread : Reads (Reader.readLe eof n) (le n x) (BitVec.ofNat w _) :=
    (Reads.readExact (length_le n x)).bind_pure
  rwa [hx] at hread

/-- A reader that succeeds does so with any treatment of its errors. -/
theorem mapError {δ : Type} {f : ε → δ} (h : Reads r bytes x) : Reads (mapError f r) bytes x := by
  intro rest
  rw [Reader.mapError, h]
  rfl

end Reads

/-- A reader turns the whole input into this value; what it does not need is ignored. -/
def Decodes (r : Reader ε α) (bytes : List Byte) (x : α) : Prop := ∃ rest, r bytes = .ok (x, rest)

namespace Decodes

variable {r : Reader ε α} {bytes : List Byte}

theorem bind {f : α → Reader ε β} {bytes' : List Byte} {y : β} (h : Reads r bytes x)
    (h' : Decodes (f x) bytes' y) : Decodes (r >>= f) (bytes ++ bytes') y := by
  obtain ⟨rest, hrest⟩ := h'
  refine ⟨rest, ?_⟩
  change (r (bytes ++ bytes') >>= fun p => f p.1 p.2) = _
  rw [h]
  exact hrest

/-- What is left after a decoded value does not matter to the rest of the reader. -/
theorem bind_reads {f : α → Reader ε β} {y : β} (h : Decodes r bytes x) (h' : Reads (f x) [] y) :
    Decodes (r >>= f) bytes y := by
  obtain ⟨rest, hrest⟩ := h
  refine ⟨rest, ?_⟩
  change (r bytes >>= fun p => f p.1 p.2) = _
  rw [hrest]
  exact h' rest

theorem bind_pure {f : α → β} (h : Decodes r bytes x) : Decodes (do return f (← r)) bytes (f x) :=
  h.bind_reads (.pure (f x))

/-- A reader goes on where there are bytes left. -/
theorem remaining {y : α} (h : Decodes r bytes x) (hne : bytes ≠ []) :
    Decodes (do if (← remaining).isEmpty then return y else r) bytes x := by
  cases bytes with
  | nil => exact absurd rfl hne
  | cons => exact h

theorem mapError {δ : Type} {f : ε → δ} (h : Decodes r bytes x) :
    Decodes (mapError f r) bytes x := by
  obtain ⟨rest, hrest⟩ := h
  refine ⟨rest, ?_⟩
  rw [Reader.mapError, hrest]
  rfl

end Decodes

/-- Bytes that are read back with any rest are decoded. -/
theorem Reads.decodes {r : Reader ε α} {bytes : List Byte} (h : Reads r bytes x) :
    Decodes r bytes x :=
  ⟨[], by simpa using h []⟩

/-- Whatever the input, a value that is read satisfies `Q` and an error satisfies `E`. -/
def Ensures (r : Reader ε α) (Q : α → Prop) (E : ε → Prop) : Prop :=
  ∀ bytes, (∃ x rest, r bytes = .ok (x, rest) ∧ Q x) ∨ ∃ e, r bytes = .error e ∧ E e

namespace Ensures

protected theorem pure {Q : α → Prop} {E : ε → Prop} {x : α} (h : Q x) :
    Ensures (pure x) Q E := fun bytes => .inl ⟨x, bytes, rfl, h⟩

protected theorem bind {r : Reader ε α} {f : α → Reader ε β} {P : α → Prop} {Q : β → Prop}
    {E : ε → Prop} (h : Ensures r P E) (h' : ∀ x, P x → Ensures (f x) Q E) :
    Ensures (r >>= f) Q E := by
  intro bytes
  have hbind : (r >>= f) bytes = (r bytes >>= fun p => f p.1 p.2) := rfl
  rw [hbind]
  rcases h bytes with ⟨x, rest, hx, hP⟩ | ⟨e, he, hE⟩
  · rw [hx]
    exact h' x hP rest
  · rw [he]
    exact .inr ⟨e, rfl, hE⟩

/-- Errors that come from a smaller type only. -/
theorem mapError {δ : Type} {f : ε → δ} {r : Reader ε α} {Q : α → Prop} {E : δ → Prop}
    (h : Ensures r Q fun e => E (f e)) : Ensures (mapError f r) Q E := by
  intro bytes
  rw [Reader.mapError]
  rcases h bytes with ⟨x, rest, hx, hQ⟩ | ⟨e, he, hE⟩
  · exact .inl ⟨x, rest, by rw [hx]; rfl, hQ⟩
  · exact .inr ⟨f e, by rw [he]; rfl, hE⟩

/-- Every reader ensures nothing. -/
theorem trivial (r : Reader ε α) : Ensures r (fun _ => True) fun _ => True := by
  intro bytes
  cases h : r bytes with
  | ok p => exact .inl ⟨p.1, p.2, rfl, True.intro⟩
  | error e => exact .inr ⟨e, rfl, True.intro⟩

end Ensures

end Reader

end RsNano
