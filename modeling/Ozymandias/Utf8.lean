import Ozymandias.BitLists
import Ozymandias.Substrings

/-!
Byte strings as UTF-8. A string is read rune by rune, a byte that begins no
well-formed sequence as the replacement rune. The sequences of runes are
recognised from any lead byte on, so that a well-formed piece of a well-formed
string is a piece of its runes; lower-casing rune by rune keeps such pieces.
-/

namespace Ozymandias.Utf8

open BitLists Substrings

def runeError : ℕ := 0xFFFD

def IsRune (r : ℕ) : Prop := r < 0xD800 ∨ 0xE000 ≤ r ∧ r < 0x110000

instance (r : ℕ) : Decidable (IsRune r) := by
  unfold IsRune
  infer_instance

def encodeRune (r : ℕ) : List Byte :=
  if r < 0x80 then [BitVec.ofNat 8 r]
  else if r < 0x800 then [BitVec.ofNat 8 (0xC0 + r / 64), BitVec.ofNat 8 (0x80 + r % 64)]
  else
    let r := if IsRune r then r else runeError
    if r < 0x10000 then
      [BitVec.ofNat 8 (0xE0 + r / 4096), BitVec.ofNat 8 (0x80 + r / 64 % 64),
        BitVec.ofNat 8 (0x80 + r % 64)]
    else
      [BitVec.ofNat 8 (0xF0 + r / 262144), BitVec.ofNat 8 (0x80 + r / 4096 % 64),
        BitVec.ofNat 8 (0x80 + r / 64 % 64), BitVec.ofNat 8 (0x80 + r % 64)]

def isCont (b : Byte) : Bool := 0x80 ≤ b.toNat && b.toNat < 0xC0

def secondOk (lead : ℕ) (b : Byte) : Bool :=
  isCont b && (lead ≠ 0xE0 || 0xA0 ≤ b.toNat) && (lead ≠ 0xED || b.toNat < 0xA0) &&
    (lead ≠ 0xF0 || 0x90 ≤ b.toNat) && (lead ≠ 0xF4 || b.toNat < 0x90)

def decodeRune (b : Byte) (rest : List Byte) : ℕ × List Byte :=
  let lead := b.toNat
  if lead < 0x80 then (lead, rest)
  else if lead < 0xC2 then (runeError, rest)
  else if lead < 0xE0 then
    match rest with
    | c :: rest' =>
      if secondOk lead c then ((lead - 0xC0) * 64 + (c.toNat - 0x80), rest') else (runeError, rest)
    | [] => (runeError, rest)
  else if lead < 0xF0 then
    match rest with
    | c :: d :: rest' =>
      if secondOk lead c && isCont d then
        ((lead - 0xE0) * 4096 + (c.toNat - 0x80) * 64 + (d.toNat - 0x80), rest')
      else (runeError, rest)
    | _ => (runeError, rest)
  else if lead < 0xF5 then
    match rest with
    | c :: d :: e :: rest' =>
      if secondOk lead c && isCont d && isCont e then
        ((lead - 0xF0) * 262144 + (c.toNat - 0x80) * 4096 + (d.toNat - 0x80) * 64 +
          (e.toNat - 0x80), rest')
      else (runeError, rest)
    | _ => (runeError, rest)
  else (runeError, rest)

def runesFrom : ℕ → List Byte → List ℕ
  | 0, _ => []
  | _, [] => []
  | fuel + 1, b :: rest => (decodeRune b rest).1 :: runesFrom fuel (decodeRune b rest).2

def runes (s : List Byte) : List ℕ := runesFrom s.length s

def encode (rs : List ℕ) : List Byte := rs.flatMap encodeRune

def Valid (s : List Byte) : Prop := ∃ rs, (∀ r ∈ rs, IsRune r) ∧ s = encode rs

variable (b : Byte) {n r : ℕ} (rest : List Byte) {rs : List ℕ} {s : List Byte}

theorem length_decodeRune : (decodeRune b rest).2.length ≤ rest.length := by
  unfold decodeRune
  dsimp only
  repeat' split
  all_goals simp
  all_goals omega

theorem runesFrom_of_le {fuel : ℕ} (h : s.length ≤ fuel) :
    runesFrom fuel s = runes s := by
  have haux : ∀ n m s, s.length ≤ n → s.length ≤ m → runesFrom n s = runesFrom m s := by
    intro n
    induction n with
    | zero =>
      intro m s hn hm
      obtain rfl : s = [] := List.length_eq_zero_iff.mp (by omega)
      cases m <;> rfl
    | succ n ih =>
      intro m s hn hm
      cases s with
      | nil => cases m <;> rfl
      | cons b rest =>
        cases m with
        | zero => simp at hm
        | succ m =>
          have hlen := length_decodeRune b rest
          simp only [List.length_cons] at hn hm
          rw [runesFrom, runesFrom, ih m _ (by omega) (by omega)]
  exact haux fuel s.length s h le_rfl

theorem runes_cons :
    runes (b :: rest) = (decodeRune b rest).1 :: runes (decodeRune b rest).2 := by
  have hlen := length_decodeRune b rest
  have hstep : runes (b :: rest) =
      (decodeRune b rest).1 :: runesFrom rest.length (decodeRune b rest).2 := rfl
  rw [hstep, runesFrom_of_le hlen]

theorem toNat_ofNat8 (h : n < 256) : (BitVec.ofNat 8 n).toNat = n := by
  rw [BitVec.toNat_ofNat, Nat.mod_eq_of_lt (by simpa using h)]

theorem isCont_ofNat (h : n < 256) :
    isCont (BitVec.ofNat 8 n) = (decide (0x80 ≤ n) && decide (n < 0xC0)) := by
  unfold isCont
  rw [toNat_ofNat8 h]

theorem secondOk_ofNat {lead : ℕ} (h : n < 256) (hcont : 0x80 ≤ n ∧ n < 0xC0)
    (hE0 : lead = 0xE0 → 0xA0 ≤ n) (hED : lead = 0xED → n < 0xA0) (hF0 : lead = 0xF0 → 0x90 ≤ n)
    (hF4 : lead = 0xF4 → n < 0x90) : secondOk lead (BitVec.ofNat 8 n) = true := by
  unfold secondOk
  rw [isCont_ofNat h, toNat_ofNat8 h]
  simp only [Bool.and_eq_true, Bool.or_eq_true, decide_eq_true_eq]
  omega

theorem isCont_add (h : n < 64) : isCont (BitVec.ofNat 8 (0x80 + n)) = true := by
  rw [isCont_ofNat (by omega), Bool.and_eq_true, decide_eq_true_eq, decide_eq_true_eq]
  omega

theorem isCont_lead (h : n < 256) (hn : n < 0x80 ∨ 0xC0 ≤ n) :
    isCont (BitVec.ofNat 8 n) = false := by
  rw [isCont_ofNat h, Bool.and_eq_false_iff, decide_eq_false_iff_not, decide_eq_false_iff_not]
  omega

/-- A sequence: a lead byte that is no continuation, the others that are, and the rune read back. -/
theorem encodeRune_spec (h : IsRune r) : ∃ b bs, encodeRune r = b :: bs ∧
    isCont b = false ∧ (∀ c ∈ bs, isCont c = true) ∧
    ∀ rest, decodeRune b (bs ++ rest) = (r, rest) := by
  unfold encodeRune
  by_cases h1 : r < 0x80
  · refine ⟨BitVec.ofNat 8 r, [], by rw [if_pos h1], isCont_lead (by omega) (by omega), by simp,
      fun rest => ?_⟩
    unfold decodeRune
    rw [toNat_ofNat8 (by omega), if_pos h1]
    rfl
  rw [if_neg h1]
  by_cases h2 : r < 0x800
  · refine ⟨_, _, by rw [if_pos h2], isCont_lead (by omega) (by omega), ?_, fun rest => ?_⟩
    · exact List.forall_mem_singleton.mpr (isCont_add (by omega))
    · have hsecond : secondOk (0xC0 + r / 64) (BitVec.ofNat 8 (0x80 + r % 64)) = true :=
        secondOk_ofNat (by omega) (by omega) (by omega) (by omega) (by omega) (by omega)
      unfold decodeRune
      rw [toNat_ofNat8 (by omega)]
      simp only [List.cons_append]
      rw [if_neg (by omega), if_neg (by omega), if_pos (by omega), if_pos hsecond,
        toNat_ofNat8 (by omega)]
      exact Prod.ext (by change _ = r; omega) rfl
  rw [if_neg h2]
  have hr : (if IsRune r then r else runeError) = r := if_pos h
  unfold IsRune at h
  simp only [hr]
  by_cases h3 : r < 0x10000
  · refine ⟨_, _, by rw [if_pos h3], isCont_lead (by omega) (by omega), ?_, fun rest => ?_⟩
    · refine List.forall_mem_cons.mpr ⟨isCont_add (by omega), ?_⟩
      exact List.forall_mem_singleton.mpr (isCont_add (by omega))
    · have hsecond : secondOk (0xE0 + r / 4096) (BitVec.ofNat 8 (0x80 + r / 64 % 64)) = true :=
        secondOk_ofNat (by omega) (by omega) (by omega) (by omega) (by omega) (by omega)
      have hthird : isCont (BitVec.ofNat 8 (0x80 + r % 64)) = true := isCont_add (by omega)
      unfold decodeRune
      rw [toNat_ofNat8 (by omega)]
      simp only [List.cons_append]
      rw [if_neg (by omega), if_neg (by omega), if_neg (by omega), if_pos (by omega),
        if_pos (by rw [hsecond, hthird]; rfl), toNat_ofNat8 (by omega), toNat_ofNat8 (by omega)]
      exact Prod.ext (by change _ = r; omega) rfl
  · refine ⟨_, _, by rw [if_neg h3], isCont_lead (by omega) (by omega), ?_, fun rest => ?_⟩
    · refine List.forall_mem_cons.mpr ⟨isCont_add (by omega), ?_⟩
      refine List.forall_mem_cons.mpr ⟨isCont_add (by omega), ?_⟩
      exact List.forall_mem_singleton.mpr (isCont_add (by omega))
    · have hsecond : secondOk (0xF0 + r / 262144) (BitVec.ofNat 8 (0x80 + r / 4096 % 64)) = true :=
        secondOk_ofNat (by omega) (by omega) (by omega) (by omega) (by omega) (by omega)
      have hthird : isCont (BitVec.ofNat 8 (0x80 + r / 64 % 64)) = true := isCont_add (by omega)
      have hfourth : isCont (BitVec.ofNat 8 (0x80 + r % 64)) = true := isCont_add (by omega)
      unfold decodeRune
      rw [toNat_ofNat8 (by omega)]
      simp only [List.cons_append]
      rw [if_neg (by omega), if_neg (by omega), if_neg (by omega), if_neg (by omega),
        if_pos (by omega), if_pos (by rw [hsecond, hthird, hfourth]; rfl), toNat_ofNat8 (by omega),
        toNat_ofNat8 (by omega), toNat_ofNat8 (by omega)]
      exact Prod.ext (by change _ = r; omega) rfl

theorem runes_encodeRune (h : IsRune r) (rest : List Byte) :
    runes (encodeRune r ++ rest) = r :: runes rest := by
  obtain ⟨b, bs, henc, -, -, hdec⟩ := encodeRune_spec h
  rw [henc, List.cons_append, runes_cons, hdec]

theorem encode_cons (r : ℕ) (rs : List ℕ) : encode (r :: rs) = encodeRune r ++ encode rs :=
  List.flatMap_cons

theorem runes_encode (h : ∀ r ∈ rs, IsRune r) : runes (encode rs) = rs := by
  induction rs with
  | nil => rfl
  | cons r rs ih =>
    rw [encode_cons, runes_encodeRune (h r List.mem_cons_self), ih (List.forall_mem_cons.mp h).2]

theorem encode_append (xs ys : List ℕ) : encode (xs ++ ys) = encode xs ++ encode ys :=
  List.flatMap_append

theorem isRune_decodeRune : IsRune (decodeRune b rest).1 := by
  have herr : IsRune runeError := Or.inr ⟨by decide, by decide⟩
  unfold decodeRune IsRune
  simp only [secondOk, isCont, Bool.and_eq_true, Bool.or_eq_true, decide_eq_true_eq]
  split_ifs with hascii hcont htwo hthree hfour
  · exact Or.inl (by dsimp only; omega)
  · exact herr
  · rcases rest with _ | ⟨c, rest⟩
    · exact herr
    · dsimp only
      split_ifs with hok
      · omega
      · exact herr
  · rcases rest with _ | ⟨c, _ | ⟨d, rest⟩⟩
    · exact herr
    · exact herr
    · dsimp only
      split_ifs with hok
      · omega
      · exact herr
  · rcases rest with _ | ⟨c, _ | ⟨d, _ | ⟨e, rest⟩⟩⟩
    · exact herr
    · exact herr
    · exact herr
    · dsimp only
      split_ifs with hok
      · omega
      · exact herr
  · exact herr

theorem isRune_runes (s : List Byte) : ∀ r ∈ runes s, IsRune r := by
  have hfuel : ∀ (fuel : ℕ) (s : List Byte), ∀ r ∈ runesFrom fuel s, IsRune r := by
    intro fuel
    induction fuel with
    | zero => exact fun s r hr => (nomatch hr)
    | succ fuel ih =>
      intro s r hr
      cases s with
      | nil => cases hr
      | cons b rest =>
        rcases List.mem_cons.mp hr with rfl | hr
        · exact isRune_decodeRune b rest
        · exact ih _ r hr
  exact hfuel _ s

/-- A string is well formed if reading and writing its runes leaves it as it is. -/
theorem valid_iff : encode (runes s) = s ↔ Valid s := by
  constructor
  · intro h
    exact ⟨runes s, isRune_runes s, h.symm⟩
  · rintro ⟨rs, hrs, rfl⟩
    rw [runes_encode hrs]

variable {b : List Byte} {ts : List ℕ}

/-- A well-formed piece at the front ends where a rune does. -/
theorem encode_eq_append (hrs : ∀ r ∈ rs, IsRune r) (hts : ∀ r ∈ ts, IsRune r)
    (h : encode rs = encode ts ++ b) : ∃ bs, rs = ts ++ bs := by
  induction ts generalizing rs with
  | nil => exact ⟨rs, rfl⟩
  | cons t ts ih =>
    have ht := hts t List.mem_cons_self
    have hread : runes (encode rs) = t :: runes (encode ts ++ b) := by
      rw [h, encode_cons, List.append_assoc, runes_encodeRune ht]
    rw [runes_encode hrs] at hread
    obtain ⟨rs, rfl⟩ : ∃ rs', rs = t :: rs' := ⟨_, hread⟩
    have htail : encode rs = encode ts ++ b := by
      rw [encode_cons, encode_cons, List.append_assoc] at h
      exact List.append_cancel_left h
    obtain ⟨bs, rfl⟩ := ih (List.forall_mem_cons.mp hrs).2 (List.forall_mem_cons.mp hts).2 htail
    exact ⟨bs, rfl⟩

/-- A well-formed piece of a well-formed string is a piece of its runes: it begins with a lead byte,
and inside a sequence there is none. -/
theorem infix_of_encode {a : List Byte} (hrs : ∀ r ∈ rs, IsRune r) (hts : ∀ r ∈ ts, IsRune r)
    (h : encode rs = a ++ encode ts ++ b) : ts <:+: rs := by
  cases ts with
  | nil => exact List.nil_infix
  | cons t ts =>
    induction rs generalizing a with
    | nil =>
      obtain ⟨lead, more, henc, -⟩ := encodeRune_spec (hts t List.mem_cons_self)
      rw [encode_cons, henc] at h
      simp [encode] at h
    | cons r rs ih =>
      cases a with
      | nil =>
        obtain ⟨bs, hbs⟩ := encode_eq_append hrs hts h
        exact ⟨[], bs, hbs.symm⟩
      | cons x a =>
        obtain ⟨lead, more, henc, hlead, hmore, -⟩ := encodeRune_spec (hrs r List.mem_cons_self)
        obtain ⟨lead', more', henc', hlead', -, -⟩ := encodeRune_spec (hts t List.mem_cons_self)
        have hsplit : more ++ encode rs = a ++ encode (t :: ts) ++ b := by
          rw [encode_cons, henc] at h
          simp only [List.cons_append, List.cons.injEq] at h
          exact h.2
        have hlong : more <+: a := by
          rw [List.append_assoc] at hsplit
          rcases List.append_eq_append_iff.mp hsplit with ⟨a', ha, -⟩ | ⟨c, hc, hrest⟩
          · exact ⟨a', ha.symm⟩
          · cases c with
            | nil =>
              rw [List.append_nil] at hc
              rw [hc]
            | cons y c =>
              have hy : y ∈ more := by
                rw [hc]
                simp
              rw [encode_cons, henc'] at hrest
              simp only [List.cons_append, List.cons.injEq] at hrest
              have hcont := hmore y hy
              rw [← hrest.1, hlead'] at hcont
              cases hcont
        obtain ⟨a', rfl⟩ := hlong
        have htail : encode rs = a' ++ encode (t :: ts) ++ b := by
          rw [List.append_assoc, List.append_assoc] at hsplit
          have := List.append_cancel_left hsplit
          rw [this, List.append_assoc]
        exact (ih (List.forall_mem_cons.mp hrs).2 htail).trans (List.suffix_cons r rs).isInfix

def lowerAscii (r : ℕ) : ℕ := if 65 ≤ r ∧ r ≤ 90 then r + 32 else r

def lowerByte (b : Byte) : Byte := if 65 ≤ b.toNat ∧ b.toNat ≤ 90 then b + 32 else b

structure CaseMap where
  lower : ℕ → ℕ
  ascii : ∀ r < 0x80, lower r = lowerAscii r

def asciiCase : CaseMap := ⟨lowerAscii, fun _ _ => rfl⟩

def isAscii (s : List Byte) : Bool := s.all (fun b => b.toNat < 0x80)

/-- Lower case for strings: bytes of ASCII are lowered in place, anything else is read rune by
rune and written again. -/
def toLower (cm : CaseMap) (s : List Byte) : List Byte :=
  if isAscii s then s.map lowerByte else (runes s).flatMap (fun r => encodeRune (cm.lower r))

theorem encodeRune_of_ascii (h : r < 0x80) : encodeRune r = [BitVec.ofNat 8 r] := if_pos h

theorem lowerByte_ofNat (h : r < 0x80) :
    lowerByte (BitVec.ofNat 8 r) = BitVec.ofNat 8 (lowerAscii r) := by
  unfold lowerByte lowerAscii
  rw [toNat_ofNat8 (by omega)]
  split
  · rw [BitVec.ofNat_add]
    rfl
  · rfl

/-- A byte of ASCII in a sequence is the whole of it. -/
theorem rune_of_ascii_byte (h : IsRune r) {b : Byte} (hb : b ∈ encodeRune r)
    (hlt : b.toNat < 0x80) :
    r = b.toNat := by
  obtain ⟨lead, bs, henc, -, hcont, hdec⟩ := encodeRune_spec h
  rw [henc] at hb
  rcases List.mem_cons.mp hb with rfl | hmem
  · have hread := hdec []
    unfold decodeRune at hread
    rw [if_pos hlt] at hread
    exact (Prod.mk.inj hread).1.symm
  · have hb := hcont b hmem
    unfold isCont at hb
    rw [Bool.and_eq_true, decide_eq_true_eq] at hb
    omega

theorem ascii_of_encode (hrs : ∀ r ∈ rs, IsRune r) (h : isAscii (encode rs) = true) :
    ∀ r ∈ rs, r < 0x80 := by
  intro r hr
  obtain ⟨b, bs, henc, -⟩ := encodeRune_spec (hrs r hr)
  have hmem : b ∈ encode rs := List.mem_flatMap.mpr ⟨r, hr, by rw [henc]; exact List.mem_cons_self⟩
  have hb : b.toNat < 0x80 := of_decide_eq_true (List.all_eq_true.mp h b hmem)
  have heq := rune_of_ascii_byte (hrs r hr) (by rw [henc]; exact List.mem_cons_self) hb
  omega

variable (cm : CaseMap)

theorem toLower_encode (hrs : ∀ r ∈ rs, IsRune r) :
    toLower cm (encode rs) = rs.flatMap (fun r => encodeRune (cm.lower r)) := by
  unfold toLower
  split
  next hascii =>
    have hsmall := ascii_of_encode hrs hascii
    clear hascii hrs
    induction rs with
    | nil => rfl
    | cons r rs ih =>
      have hr := hsmall r List.mem_cons_self
      have hlow : lowerAscii r < 0x80 := by
        unfold lowerAscii
        split <;> omega
      have hrest := ih (List.forall_mem_cons.mp hsmall).2
      unfold encode at hrest ⊢
      rw [List.flatMap_cons, List.flatMap_cons, List.map_append, hrest, encodeRune_of_ascii hr,
        cm.ascii r hr, encodeRune_of_ascii hlow, List.map_singleton, lowerByte_ofNat hr]
  next => rw [runes_encode hrs]

/-- A piece of a string is, in lower case, a piece of the string in lower case. -/
theorem toLower_isInfix {t : List Byte} (hs : Valid s) (ht : Valid t) (h : t <:+: s) :
    toLower cm t <:+: toLower cm s := by
  obtain ⟨rs, hrs, rfl⟩ := hs
  obtain ⟨ts, hts, rfl⟩ := ht
  obtain ⟨a, b, hab⟩ := h
  obtain ⟨as, bs, hin⟩ := infix_of_encode hrs hts hab.symm
  rw [toLower_encode cm hrs, toLower_encode cm hts, ← hin]
  exact ⟨as.flatMap _, bs.flatMap _, by rw [List.flatMap_append, List.flatMap_append]⟩

/-- The pieces of a lowered string are in the pieces of the string, lowered. -/
theorem piece_of_toLower {piece : List Byte} (hs : Valid s) {c : ℕ} (hc : c < 0x80)
    (hlower : lowerAscii c = c) (h : piece ∈ (toLower cm s).splitOn (BitVec.ofNat 8 c)) :
    ∃ part ∈ s.splitOn (BitVec.ofNat 8 c), Valid part ∧ piece <:+: toLower cm part := by
  obtain ⟨rs, hrs, rfl⟩ := hs
  rw [toLower_encode cm hrs] at h
  have hsep : encodeRune (cm.lower c) = [BitVec.ofNat 8 c] := by
    rw [cm.ascii c hc, hlower, encodeRune_of_ascii hc]
  obtain ⟨part, hpart, hin⟩ :=
    piece_of_flatMap (g := fun r => encodeRune (cm.lower r)) hsep h
  have hrunes : ∀ r ∈ part, IsRune r := fun r hr => hrs r ((isInfix_of_mem_splitOn hpart).subset hr)
  refine ⟨encode part, ?_, ⟨part, hrunes, rfl⟩, by rwa [toLower_encode cm hrunes]⟩
  unfold encode
  rw [splitOn_flatMap (encodeRune_of_ascii hc)]
  · exact List.mem_map_of_mem hpart
  · intro x hx hne hmem
    have hbyte := toNat_ofNat8 (n := c) (by omega)
    have heq := rune_of_ascii_byte (hrs x hx) hmem (by omega)
    omega

end Ozymandias.Utf8
