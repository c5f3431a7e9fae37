import Ozymandias.BitLists

/-!
Variable-length numbers and length-prefixed strings over bytes. A reader takes
what it needs from the front and returns the rest; that it reads back what was
written is stated for any bytes behind it, so that readers can be chained. The
numbers are unbounded here.
-/

namespace Ozymandias.Varint

open BitLists

/-- Seven bits in a byte, least significant first; the top bit says that more follow. -/
def appendUvarint (n : ℕ) : List Byte :=
  if n < 128 then [BitVec.ofNat 8 n] else BitVec.ofNat 8 (n % 128 + 128) :: appendUvarint (n / 128)

/-- `binary.Uvarint` refuses what has more than 64 bits besides; nothing that is written has. -/
def uvarint : List Byte → Option (ℕ × List Byte)
  | [] => none
  | b :: rest =>
    if b.toNat < 128 then some (b.toNat, rest)
    else (uvarint rest).map (fun p => (b.toNat - 128 + 128 * p.1, p.2))

def zigzag : ℤ → ℕ
  | .ofNat n => 2 * n
  | .negSucc n => 2 * n + 1

def unzigzag (n : ℕ) : ℤ := if n % 2 = 0 then .ofNat (n / 2) else .negSucc (n / 2)

def appendVarint (t : ℤ) : List Byte := appendUvarint (zigzag t)

def varint (bytes : List Byte) : Option (ℤ × List Byte) :=
  (uvarint bytes).map (fun p => (unzigzag p.1, p.2))

def leBytes : ℕ → ℕ → List Byte
  | 0, _ => []
  | k + 1, n => BitVec.ofNat 8 n :: leBytes k (n / 256)

def leNumber : List Byte → ℕ
  | [] => 0
  | b :: bytes => b.toNat + 256 * leNumber bytes

def appendUint64 (v : BitVec 64) : List Byte := leBytes 8 v.toNat

def uint64 (bytes : List Byte) : Option (BitVec 64 × List Byte) :=
  if bytes.length < 8 then none
  else some (BitVec.ofNat 64 (leNumber (bytes.take 8)), bytes.drop 8)

def appendString (s : List Byte) : List Byte := appendUvarint s.length ++ s

abbrev Reader (ε α : Type) := List Byte → Except ε (α × List Byte)

def Reader.orFail {ε α : Type} (read : List Byte → Option (α × List Byte)) (e : ε) : Reader ε α :=
  fun bytes =>
    match read bytes with
    | some p => .ok p
    | none => .error e

/-- A string and its length before it; `exceeds` is told the length and what is left. -/
def str {ε : Type} (truncated : ε) (exceeds : ℕ → ℕ → ε) : Reader ε (List Byte) := fun bytes =>
  match uvarint bytes with
  | none => .error truncated
  | some (n, rest) =>
    if rest.length < n then .error (exceeds n rest.length) else .ok (rest.take n, rest.drop n)

def readMany {ε α : Type} (read : Reader ε α) : ℕ → Reader ε (List α)
  | 0, bytes => .ok ([], bytes)
  | n + 1, bytes => do
    let (a, rest) ← read bytes
    let (as, rest) ← readMany read n rest
    return (a :: as, rest)

def readPair {ε α β : Type} (read : Reader ε α) (read' : Reader ε β) : Reader ε (α × β) :=
  fun bytes => do
    let (a, rest) ← read bytes
    let (b, rest) ← read' rest
    return ((a, b), rest)

/-- The reader takes exactly these bytes and returns this value. -/
def Decodes {ε α : Type} (read : Reader ε α) (bytes : List Byte) (a : α) : Prop :=
  ∀ rest, read (bytes ++ rest) = .ok (a, rest)

theorem uvarint_append (n : ℕ) (rest : List Byte) :
    uvarint (appendUvarint n ++ rest) = some (n, rest) := by
  induction n using Nat.strongRecOn with
  | ind n ih =>
    rw [appendUvarint]
    split
    next hlt =>
      have hn : (BitVec.ofNat 8 n).toNat = n := by
        rw [BitVec.toNat_ofNat]
        omega
      rw [List.singleton_append, uvarint, hn, if_pos hlt]
    next hge =>
      have hn : (BitVec.ofNat 8 (n % 128 + 128)).toNat = n % 128 + 128 := by
        rw [BitVec.toNat_ofNat]
        omega
      rw [List.cons_append, uvarint, if_neg (by omega), ih (n / 128) (by omega)]
      simp only [Option.map_some, Option.some.injEq, Prod.mk.injEq, and_true]
      omega

theorem unzigzag_zigzag (t : ℤ) : unzigzag (zigzag t) = t := by
  cases t with
  | ofNat n =>
    change unzigzag (2 * n) = _
    unfold unzigzag
    rw [if_pos (by omega), show 2 * n / 2 = n by omega]
  | negSucc n =>
    change unzigzag (2 * n + 1) = _
    unfold unzigzag
    rw [if_neg (by omega), show (2 * n + 1) / 2 = n by omega]

theorem varint_append (t : ℤ) (rest : List Byte) :
    varint (appendVarint t ++ rest) = some (t, rest) := by
  unfold varint appendVarint
  rw [uvarint_append, Option.map_some, unzigzag_zigzag]

variable (k n : ℕ)

theorem length_leBytes : (leBytes k n).length = k := by
  induction k generalizing n with
  | zero => rfl
  | succ k ih => rw [leBytes, List.length_cons, ih]

theorem leNumber_leBytes : leNumber (leBytes k n) = n % 256 ^ k := by
  induction k generalizing n with
  | zero => simp [leBytes, leNumber, Nat.mod_one]
  | succ k ih =>
    have hsplit := Nat.mod_mul (a := 256) (b := 256 ^ k) (x := n)
    rw [leBytes, leNumber, ih, BitVec.toNat_ofNat, show 256 ^ (k + 1) =
      256 * 256 ^ k from pow_succ' .., hsplit]

theorem uint64_append (v : BitVec 64) (rest : List Byte) :
    uint64 (appendUint64 v ++ rest) = some (v, rest) := by
  have hlen : (appendUint64 v).length = 8 := length_leBytes 8 v.toNat
  have hlong : ¬ (appendUint64 v ++ rest).length < 8 := by
    rw [List.length_append]
    omega
  have hv : leNumber (appendUint64 v) = v.toNat := by
    rw [appendUint64, leNumber_leBytes]
    exact Nat.mod_eq_of_lt v.isLt
  unfold uint64
  rw [if_neg hlong, List.take_left' hlen, List.drop_left' hlen, hv, BitVec.ofNat_toNat,
    BitVec.setWidth_eq]

section Readers

variable {ε α β : Type} {a : α} {bytes : List Byte} {read : Reader ε α}

theorem decodes_orFail {read : List Byte → Option (α × List Byte)}
    (h : ∀ rest, read (bytes ++ rest) = some (a, rest)) (e : ε) :
    Decodes (Reader.orFail read e) bytes a := by
  intro rest
  unfold Reader.orFail
  rw [h]

theorem decodes_str (truncated : ε) (exceeds : ℕ → ℕ → ε) (s : List Byte) :
    Decodes (str truncated exceeds) (appendString s) s := by
  intro rest
  unfold str appendString
  rw [List.append_assoc, uvarint_append]
  simp

theorem Decodes.pair {read' : Reader ε β} {bytes' : List Byte} {b : β} (h : Decodes read bytes a)
    (h' : Decodes read' bytes' b) : Decodes (readPair read read') (bytes ++ bytes') (a, b) := by
  intro rest
  unfold readPair
  rw [List.append_assoc, h]
  change (do let (b, rest) ← read' (bytes' ++ rest); pure ((a, b), rest)) = _
  rw [h']
  rfl

theorem decodes_many {write : α → List Byte} (h : ∀ a, Decodes read (write a) a) (as : List α) :
    Decodes (readMany read as.length) (as.flatMap write) as := by
  induction as with
  | nil => exact fun rest => rfl
  | cons a as ih =>
    intro rest
    rw [List.flatMap_cons, List.append_assoc, List.length_cons, readMany, h]
    change (do
      let (as, rest) ← readMany read as.length (as.flatMap write ++ rest); pure (a :: as, rest)) = _
    rw [ih]
    rfl

end Readers

theorem length_appendUvarint_pos (n : ℕ) : 0 < (appendUvarint n).length := by
  rw [appendUvarint]
  split <;> simp

theorem length_appendString_pos (s : List Byte) : 0 < (appendString s).length := by
  have := length_appendUvarint_pos s.length
  unfold appendString
  rw [List.length_append]
  omega

theorem length_appendUvarint_le (hn : n < 128 ^ (k + 1)) : (appendUvarint n).length ≤ k + 1 := by
  induction k generalizing n with
  | zero =>
    rw [appendUvarint, if_pos (by simpa using hn)]
    simp
  | succ k ih =>
    rw [appendUvarint]
    split
    · simp
    · have hdiv : n / 128 < 128 ^ (k + 1) := by
        rw [Nat.div_lt_iff_lt_mul (by omega)]
        exact hn
      have := ih (n / 128) hdiv
      rw [List.length_cons]
      omega

end Ozymandias.Varint
