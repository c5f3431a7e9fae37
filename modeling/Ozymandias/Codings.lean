import Ozymandias.Utf8

/-!
Text as the languages store it. A coding writes every character as a few code
units and an ASCII character as itself; no other character has an ASCII unit.
UTF-8 and UTF-16 are such codings. What can only be said of
ASCII text therefore says the same of a text and of its units.
-/

namespace Ozymandias.Codings

open Substrings Utf8

structure Coding where
  units : ℕ → List ℕ
  ascii : ∀ r, r < 128 → units r = [r]
  ne_nil : ∀ r, IsRune r → units r ≠ []
  whole : ∀ r, IsRune r → ∀ u ∈ units r, u < 128 → r = u

def surrogates (r : ℕ) : List ℕ :=
  if r < 0x10000 then [r] else [0xD800 + (r - 0x10000) / 0x400, 0xDC00 + (r - 0x10000) % 0x400]

variable (r : ℕ)

theorem utf8_ne_nil (h : IsRune r) : (encodeRune r).map BitVec.toNat ≠ [] := by
  obtain ⟨b, bs, henc, -⟩ := encodeRune_spec h
  rw [henc]
  exact List.cons_ne_nil _ _

theorem utf8_whole (h : IsRune r) : ∀ u ∈ (encodeRune r).map BitVec.toNat, u < 128 → r = u := by
  intro u hu hlt
  obtain ⟨b, hb, rfl⟩ := List.mem_map.mp hu
  exact rune_of_ascii_byte h hb hlt

def utf8 : Coding where
  units r := (encodeRune r).map BitVec.toNat
  ascii r h := by
    rw [encodeRune_of_ascii h, List.map_singleton, toNat_ofNat8 (by omega)]
  ne_nil := utf8_ne_nil
  whole := utf8_whole

theorem surrogates_whole (_ : IsRune r) : ∀ u ∈ surrogates r, u < 128 → r = u := by
  intro u hu hlt
  unfold surrogates at hu
  split at hu
  · exact (List.mem_singleton.mp hu).symm
  · rcases List.mem_pair.mp hu with hu | hu <;> omega

theorem surrogates_ne_nil (_ : IsRune r) : surrogates r ≠ [] := by
  unfold surrogates
  split <;> exact List.cons_ne_nil _ _

def utf16 : Coding where
  units := surrogates
  ascii r h := if_pos (by omega)
  ne_nil := surrogates_ne_nil
  whole := surrogates_whole

def Coding.text (c : Coding) (p : List ℕ) : List ℕ := p.flatMap c.units

def IsText (p : List ℕ) : Prop := ∀ r ∈ p, IsRune r

variable {c : Coding} {p a b : List ℕ} {d r : ℕ}

theorem text_of_ascii (h : ∀ r ∈ p, r < 128) : c.text p = p := by
  unfold Coding.text
  rw [List.flatMap_congr (fun r hr => c.ascii r (h r hr))]
  exact List.flatMap_singleton' p

/-- A text ends in the ASCII units that its units end in. -/
theorem text_eq_append (hp : IsText p) (h : c.text p = a ++ b) (hb : ∀ u ∈ b, u < 128) :
    ∃ front, p = front ++ b ∧ a = c.text front := by
  induction b using List.reverseRecOn generalizing p with
  | nil => exact ⟨p, (List.append_nil p).symm, by rw [h, List.append_nil]⟩
  | append_singleton b u ih =>
    rcases List.eq_nil_or_concat' p with rfl | ⟨front, r, rfl⟩
    · simp [Coding.text] at h
    rw [← List.append_assoc] at h
    have hr : IsRune r := hp r (by simp)
    unfold Coding.text at h
    rw [List.flatMap_append, List.flatMap_singleton] at h
    have hu : u ∈ c.units r := by
      have hlast := congrArg List.getLast? h
      rw [List.getLast?_append_of_ne_nil _ (c.ne_nil r hr), List.getLast?_concat] at hlast
      exact List.mem_of_getLast? hlast
    have hru : r = u := c.whole r hr u hu (hb u (by simp))
    rw [c.ascii r (hru ▸ hb u (by simp)), hru] at h
    obtain ⟨front', hfront, ha⟩ := ih (fun r hr => hp r (by simp [hr]))
      (List.append_cancel_right h) (fun u hu => hb u (by simp [hu]))
    exact ⟨front', by rw [hfront, hru, List.append_assoc], ha⟩

/-- What only ASCII text has, a text has when its units have it. -/
theorem text_iff {P : List ℕ → Prop} (hP : ∀ t, P t → ∀ u ∈ t, u < 128) (hp : IsText p) :
    P (c.text p) ↔ P p := by
  constructor
  · intro h
    obtain ⟨front, hfront, hnil⟩ := text_eq_append (a := []) (b := c.text p) hp rfl (hP _ h)
    have hempty : front = [] := by
      refine List.eq_nil_iff_forall_not_mem.mpr fun r hr => ?_
      exact c.ne_nil r (hp r (by rw [hfront]; simp [hr]))
        (List.flatMap_eq_nil_iff.mp hnil.symm r hr)
    rw [hempty, List.nil_append] at hfront
    rwa [← hfront] at h
  · intro h
    rwa [text_of_ascii (hP p h)]

theorem not_mem_units (hd : d < 128) (hr : IsRune r) (hne : r ≠ d) : d ∉ c.units r :=
  fun hmem => hne (c.whole r hr d hmem hd)

theorem splitOn_text (hd : d < 128) (hp : IsText p) :
    (c.text p).splitOn d = (p.splitOn d).map c.text :=
  splitOn_flatMap (c.ascii d hd) (fun r hr hne => not_mem_units hd (hp r hr) hne)

theorem takeWhile_text {cls : ℕ → Bool} (hcls : ∀ u, cls u = true → u < 128) (hp : IsText p) :
    (c.text p).takeWhile (fun u => !cls u) = c.text (p.takeWhile fun u => !cls u) := by
  unfold Coding.text
  induction p with
  | nil => rfl
  | cons r p ih =>
    obtain ⟨hr, hp⟩ := List.forall_mem_cons.mp hp
    rw [List.flatMap_cons]
    cases hin : cls r with
    | true =>
      rw [c.ascii r (hcls r hin), List.singleton_append, List.takeWhile_cons_of_neg (by simp [hin]),
        List.takeWhile_cons_of_neg (by simp [hin])]
      rfl
    | false =>
      have hunits : ∀ u ∈ c.units r, (!cls u) = true := by
        intro u hu
        cases hu' : cls u with
        | true => rw [c.whole r hr u hu (hcls u hu'), hu'] at hin; cases hin
        | false => rfl
      rw [List.takeWhile_append_of_pos hunits, List.takeWhile_cons_of_pos (by simp [hin]), ih hp,
        List.flatMap_cons]

end Ozymandias.Codings
