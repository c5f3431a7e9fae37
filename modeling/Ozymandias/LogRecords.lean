import Ozymandias.Varint
import Ozymandias.WalFrame

/-!
The log store's records in its write-ahead log. A record holds the sequence
number of its first log and the bodies of a run of logs, whose numbers follow.
A batch is cut into records by size, so that none is refused for its length
unless one log is too long.
-/
namespace Ozymandias.LogRecords

open BitLists Varint WalFrame

def walRecordLogs : Byte := 1
def maxWALRecord : ℕ := 8 * 2 ^ 20
def maxVarintLen64 : ℕ := 10

def putUint64 (n : ℕ) : List Byte := (leBytes 8 n).reverse

def beNumber (bytes : List Byte) : ℕ := leNumber bytes.reverse

def encodeWALRecord (base : ℕ) (bodies : List (List Byte)) : List Byte :=
  putUint64 base ++ appendUvarint bodies.length ++ bodies.flatMap appendString

inductive RecordErr where
  | short
  | badCount
  | badLength
  | trailing
  deriving DecidableEq

def decodeWALRecord (p : List Byte) : Except RecordErr (ℕ × List (List Byte)) :=
  if p.length < 9 then .error .short
  else
    match uvarint (p.drop 8) with
    | none => .error .badCount
    | some (n, rest) =>
      if (p.drop 8).length < n then .error .badCount
      else
        match readMany (str .badLength (fun _ _ => .badLength)) n rest with
        | .error e => .error e
        | .ok (bodies, []) => .ok (beNumber (p.take 8), bodies)
        | .ok (_, _ :: _) => .error .trailing

/-- Cut a batch: a record takes its first body, and further ones while they fit. -/
def splitBatch (size : ℕ) (taken : List (List Byte)) : List (List Byte) → List (List (List Byte))
  | [] => if taken = [] then [] else [taken]
  | body :: rest =>
    if taken = [] ∨ size + body.length < maxWALRecord then
      splitBatch (size + body.length + maxVarintLen64) (taken ++ [body]) rest
    else taken :: splitBatch (body.length + maxVarintLen64) [body] rest

def numberRecords (base : ℕ) : List (List (List Byte)) → List Record
  | [] => []
  | bodies :: rest =>
    ⟨walRecordLogs, encodeWALRecord base bodies⟩ :: numberRecords (base + bodies.length) rest

def batchRecords (base : ℕ) (bodies : List (List Byte)) : List Record :=
  numberRecords base (splitBatch 0 [] bodies)

theorem flatten_splitBatch (size : ℕ) (taken bodies : List (List Byte)) :
    (splitBatch size taken bodies).flatten = taken ++ bodies := by
  fun_induction splitBatch size taken bodies with
  | case1 => rfl
  | case2 => simp
  | case3 size taken body rest hfits ih =>
    rw [ih, List.append_assoc]
    rfl
  | case4 size taken body rest hfull ih =>
    rw [List.flatten_cons, ih]
    rfl

theorem length_putUint64 (n : ℕ) : (putUint64 n).length = 8 := by
  unfold putUint64
  rw [List.length_reverse, length_leBytes]

theorem beNumber_putUint64 (n : ℕ) (hn : n < 2 ^ 64) : beNumber (putUint64 n) = n := by
  unfold beNumber putUint64
  rw [List.reverse_reverse, leNumber_leBytes]
  exact Nat.mod_eq_of_lt hn

/-- What is logged is read back. -/
theorem decode_encodeWALRecord (base : ℕ) (bodies : List (List Byte)) (hbase : base < 2 ^ 64) :
    decodeWALRecord (encodeWALRecord base bodies) = .ok (base, bodies) := by
  have hlen := length_putUint64 base
  have hcount := length_appendUvarint_pos bodies.length
  have hbodies := length_le_flatMap length_appendString_pos bodies
  have htake : (encodeWALRecord base bodies).take 8 = putUint64 base := by
    unfold encodeWALRecord
    rw [List.append_assoc, List.take_left' hlen]
  have hdrop : (encodeWALRecord base bodies).drop 8 =
      appendUvarint bodies.length ++ bodies.flatMap appendString := by
    unfold encodeWALRecord
    rw [List.append_assoc, List.drop_left' hlen]
  have hshort : ¬ (encodeWALRecord base bodies).length < 9 := by
    unfold encodeWALRecord
    simp only [List.length_append]
    omega
  have hfits : ¬ (appendUvarint bodies.length ++ bodies.flatMap appendString).length <
      bodies.length := by
    rw [List.length_append]
    omega
  have hread : readMany (str RecordErr.badLength (fun _ _ => .badLength)) bodies.length
      (bodies.flatMap appendString) = .ok (bodies, []) := by
    have hmany := decodes_many (decodes_str RecordErr.badLength (fun _ _ => .badLength)) bodies []
    rwa [List.append_nil] at hmany
  unfold decodeWALRecord
  rw [if_neg hshort, hdrop, uvarint_append]
  dsimp only
  rw [if_neg hfits, hread]
  rw [htake, beNumber_putUint64 base hbase]

end Ozymandias.LogRecords
