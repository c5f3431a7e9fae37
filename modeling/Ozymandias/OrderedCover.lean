import Ozymandias.FirstOccurrence
import Mathlib.Data.List.Induction

/-!
Reading a sequence back from copies of it. Parts may be repeated and elements
that are not kept may be missing, but nothing is read before all that is kept
of what preceded it. Such readings can be put one after the other, filtered
and extended, and an invariant that ignores repetitions and omissions holds
after reading as after the sequence itself.
-/

namespace Ozymandias.OrderedCover

open FirstOccurrence

variable {α : Type} {keep : α → Bool} {history read : List α}

/-- Each element read is one of the history, behind all kept ones before it. -/
def Follows (keep : α → Bool) (history read : List α) : Prop :=
  ∀ as r bs, read = as ++ r :: bs →
    ∃ hs ts, history = hs ++ r :: ts ∧ ∀ x ∈ hs, keep x = true → x ∈ as

structure Covers (keep : α → Bool) (history read : List α) : Prop where
  follows : Follows keep history read
  complete : ∀ x ∈ history, keep x = true → x ∈ read

variable {as bs more : List α} {keep' : α → Bool} {r : α}

/-- An element of two lists in a row is in the one or the other. -/
theorem append_eq_append_cons {pre post : List α} {x : α} (h : as ++ bs = pre ++ x :: post) :
    (∃ cs, pre = as ++ cs ∧ bs = cs ++ x :: post) ∨ ∃ cs, as = pre ++ x :: cs ∧
      post = cs ++ bs := by
  rcases List.append_eq_append_iff.mp h with ⟨cs, hpre, hbs⟩ | ⟨cs, has, hpost⟩
  · exact Or.inl ⟨cs, hpre, hbs⟩
  · cases cs with
    | nil => exact Or.inl ⟨[], by simpa using has.symm, by simpa using hpost.symm⟩
    | cons c cs =>
      obtain ⟨rfl, htail⟩ := List.cons.inj hpost
      exact Or.inr ⟨cs, has, htail⟩

theorem follows_nil : Follows keep history [] := by
  intro as r bs h
  simp at h

theorem Covers.refl (keep : α → Bool) (history : List α) : Covers keep history history where
  follows as _ bs h := ⟨as, bs, h, fun _ hx _ => hx⟩
  complete _ hx _ := hx

theorem Follows.mono (h : Follows keep history read) (hk : ∀ x, keep' x = true → keep x = true) :
    Follows keep' history read := by
  intro as r bs hread
  obtain ⟨hs, ts, hhist, hkept⟩ := h as r bs hread
  exact ⟨hs, ts, hhist, fun x hx hk' => hkept x hx (hk x hk')⟩

theorem Covers.mono (h : Covers keep history read) (hk : ∀ x, keep' x = true → keep x = true) :
    Covers keep' history read where
  follows := h.follows.mono hk
  complete x hx hk' := h.complete x hx (hk x hk')

theorem Follows.longer (h : Follows keep history read) {longer : List α}
    (hp : history <+: longer) : Follows keep longer read := by
  intro as r bs hread
  obtain ⟨hs, ts, hhist, hkept⟩ := h as r bs hread
  obtain ⟨rest, rfl⟩ := hp
  exact ⟨hs, ts ++ rest, by rw [hhist]; simp, hkept⟩

theorem Follows.mem (h : Follows keep history read) (hr : r ∈ read) : r ∈ history := by
  obtain ⟨as, bs, hread⟩ := List.append_of_mem hr
  obtain ⟨hs, ts, hhist, -⟩ := h as r bs hread
  rw [hhist]
  simp

/-- Two readings, one after the other. -/
theorem Follows.append (h : Follows keep history read) (h' : Follows keep history more) :
    Follows keep history (read ++ more) := by
  intro as r bs hread
  rcases append_eq_append_cons hread with ⟨cs, rfl, hmore⟩ | ⟨cs, hsplit, -⟩
  · obtain ⟨hs, ts, hhist, hkept⟩ := h' cs r bs hmore
    exact ⟨hs, ts, hhist, fun x hx hk => List.mem_append_right _ (hkept x hx hk)⟩
  · exact h as r cs hsplit

/-- Behind a complete reading anything of the history may be read again. -/
theorem Covers.append_copies (h : Covers keep history read) {copies : List α}
    (hc : ∀ x ∈ copies, x ∈ history) : Covers keep history (read ++ copies) where
  complete x hx hk := List.mem_append_left _ (h.complete x hx hk)
  follows := by
    intro as r bs hread
    rcases append_eq_append_cons hread with ⟨cs, rfl, hmore⟩ | ⟨cs, hsplit, -⟩
    · obtain ⟨hs, ts, hhist⟩ := List.append_of_mem (hc r (by rw [hmore]; simp))
      refine ⟨hs, ts, hhist, fun x hx hk => List.mem_append_left _ (h.complete x ?_ hk)⟩
      rw [hhist]
      exact List.mem_append_left _ hx
    · exact h.follows as r cs hsplit

theorem Covers.prepend (h : Covers keep history read) (h' : Follows keep history more) :
    Covers keep history (more ++ read) where
  follows := h'.append h.follows
  complete x hx hk := List.mem_append_right _ (h.complete x hx hk)

/-- What is new is read behind all of the old. -/
theorem Covers.extend (h : Covers keep history read) (more : List α) :
    Covers keep (history ++ more) (read ++ more) where
  complete x hx hk := by
    rcases List.mem_append.mp hx with hx | hx
    · exact List.mem_append_left _ (h.complete x hx hk)
    · exact List.mem_append_right _ hx
  follows := by
    intro as r bs hread
    rcases append_eq_append_cons hread with ⟨cs, rfl, hmore⟩ | ⟨cs, hsplit, -⟩
    · refine ⟨history ++ cs, bs, by rw [hmore, List.append_assoc], ?_⟩
      intro x hx hk
      rcases List.mem_append.mp hx with hx | hx
      · exact List.mem_append_left _ (h.complete x hx hk)
      · exact List.mem_append_right _ hx
    · exact (h.follows.longer (List.prefix_append history more)) as r cs hsplit

theorem filter_eq_append_cons {p : α → Bool} {l : List α} (h : l.filter p = as ++ r :: bs) :
    ∃ as' bs', l = as' ++ r :: bs' ∧ as'.filter p = as := by
  obtain ⟨as', rest, rfl, has, hrest⟩ := List.filter_eq_append_iff.mp h
  obtain ⟨skipped, bs', rfl, hskipped, -⟩ := List.filter_eq_cons_iff.mp hrest
  refine ⟨as' ++ skipped, bs', by simp, ?_⟩
  have hnone : skipped.filter p = [] := by
    apply List.filter_eq_nil_iff.mpr
    exact hskipped
  rw [List.filter_append, has, hnone, List.append_nil]

/-- Leaving out what is not kept. -/
theorem Covers.filter (h : Covers keep history read) : Covers keep history (read.filter keep) where
  complete x hx hk := List.mem_filter.mpr ⟨h.complete x hx hk, hk⟩
  follows := by
    intro as r bs hread
    obtain ⟨as', bs', rfl, rfl⟩ := filter_eq_append_cons hread
    obtain ⟨hs, ts, hhist, hkept⟩ := h.follows as' r bs' rfl
    exact ⟨hs, ts, hhist, fun x hx hk => List.mem_filter.mpr ⟨hkept x hx hk, hk⟩⟩

/-- A reading of images is the image of a reading. -/
theorem Covers.of_map {β : Type} {f : β → α} (hf : Function.Injective f) {source : List β}
    (h : Covers keep (source.map f) read) :
    ∃ bs, read = bs.map f ∧ Covers (fun b => keep (f b)) source bs := by
  have hrange : ∀ r ∈ read, ∃ b, f b = r := by
    intro r hr
    obtain ⟨b, -, hb⟩ := List.mem_map.mp (h.follows.mem hr)
    exact ⟨b, hb⟩
  obtain ⟨bs, rfl⟩ : ∃ bs : List β, read = bs.map f := by
    clear h
    induction read with
    | nil => exact ⟨[], rfl⟩
    | cons r read ih =>
      obtain ⟨bs, rfl⟩ := ih (List.forall_mem_cons.mp hrange).2
      obtain ⟨b, rfl⟩ := hrange r List.mem_cons_self
      exact ⟨b :: bs, rfl⟩
  refine ⟨bs, rfl, ?_, ?_⟩
  · intro as b cs hsplit
    obtain ⟨hs, ts, hhist, hkept⟩ := h.follows (as.map f) (f b) (cs.map f) (by rw [hsplit]; simp)
    obtain ⟨hs', rest, rfl, rfl, hrest⟩ := List.map_eq_append_iff.mp hhist
    obtain ⟨b', ts', rfl, hb', -⟩ := List.map_eq_cons_iff.mp hrest
    obtain rfl := hf hb'
    refine ⟨hs', ts', rfl, fun x hx hk => ?_⟩
    exact (List.mem_map_of_injective hf).mp (hkept (f x) (List.mem_map_of_mem hx) hk)
  · intro x hx hk
    exact (List.mem_map_of_injective hf).mp (h.complete (f x) (List.mem_map_of_mem hx) hk)

section Run

variable {σ : Type} {step : σ → α → σ} {P : ℕ → σ → Prop} {start : σ}

/-- A property of how far the history has been read that survives reading
something again and passing over what was read or is not kept. -/
structure Insensitive (keep : α → Bool) (history : List α) (step : σ → α → σ) (P : ℕ → σ → Prop) :
    Prop where
  again : ∀ n s r, P n s → r ∈ history.take n → P n (step s r)
  next : ∀ s hs r ts, history = hs ++ r :: ts → P hs.length s → P (hs.length + 1) (step s r)
  pass : ∀ n m s, P n s → n ≤ m →
    (∀ x ∈ (history.take m).drop n, keep x = true → x ∈ history.take n) → P m s

theorem Follows.init {r : α} (h : Follows keep history (read ++ [r])) :
    Follows keep history read := by
  intro as x bs hread
  exact h as x (bs ++ [r]) (by rw [hread]; simp)

theorem take_append_cons (hs : List α) (r : α) (ts : List α) :
    (hs ++ r :: ts).take hs.length = hs ∧ (hs ++ r :: ts).take (hs.length + 1) = hs ++ [r] := by
  constructor
  · simp
  · rw [List.take_append, List.take_of_length_le (by omega)]
    simp

theorem Follows.run (hf : Follows keep history read) (hi : Insensitive keep history step P)
    (h0 : P 0 start) :
    ∃ n, n ≤ history.length ∧ P n (read.foldl step start) ∧ ∀ r ∈ read, r ∈ history.take n := by
  induction read using List.reverseRecOn with
  | nil => exact ⟨0, Nat.zero_le _, h0, by simp⟩
  | append_singleton as r ih =>
    obtain ⟨n, hn, hP, hread⟩ := ih hf.init
    obtain ⟨hs, ts, hhist, hkept⟩ := hf as r [] rfl
    obtain ⟨htake, htake'⟩ := take_append_cons hs r ts
    rw [← hhist] at htake htake'
    rw [List.foldl_append, List.foldl_cons]
    by_cases hlt : hs.length < n
    · have hr : r ∈ history.take n := by
        have hsub := List.take_subset_take_left history (show hs.length + 1 ≤ n from hlt)
        rw [htake'] at hsub
        exact hsub (by simp)
      exact ⟨n, hn, hi.again n _ r hP hr,
        List.forall_mem_append.mpr ⟨hread, List.forall_mem_singleton.mpr hr⟩⟩
    · have hpassed : P hs.length (as.foldl step start) := by
        refine hi.pass n hs.length _ hP (by omega) ?_
        rw [htake]
        intro x hx hkx
        exact hread x (hkept x (List.mem_of_mem_drop hx) hkx)
      refine ⟨hs.length + 1, ?_, hi.next _ hs r ts hhist hpassed, ?_⟩
      · rw [hhist, List.length_append, List.length_cons]
        omega
      · intro x hx
        rcases List.mem_append.mp hx with hx | hx
        · exact List.take_subset_take_left history (by omega) (hread x hx)
        · rw [htake']
          exact List.mem_append_right _ hx

/-- After a complete reading the property holds for the whole history. -/
theorem Covers.run (hc : Covers keep history read) (hi : Insensitive keep history step P)
    (h0 : P 0 start) : P history.length (read.foldl step start) := by
  obtain ⟨n, hn, hP, hread⟩ := hc.follows.run hi h0
  refine hi.pass n history.length _ hP hn ?_
  rw [List.take_length]
  intro x hx hk
  exact hread x (hc.complete x (List.mem_of_mem_drop hx) hk)

end Run

/-- A complete reading has the kept elements of the history in order. -/
theorem Covers.sameFirsts [DecidableEq α] (h : Covers keep history read) :
    SameFirsts keep read history := by
  have hi : Insensitive keep history (fun as r => as ++ [r])
      (fun n as => SameFirsts keep as (history.take n)) := by
    refine ⟨?_, ?_, ?_⟩
    · intro n as r hsame hr
      refine hsame.append_subset ?_
      intro d hd
      rw [List.mem_singleton.mp hd]
      exact hr
    · intro as hs r ts hhist hsame
      obtain ⟨htake, htake'⟩ := take_append_cons hs r ts
      rw [← hhist] at htake htake'
      rw [htake] at hsame
      rw [htake']
      exact hsame.append [r]
    · intro n m as hsame hnm hpass
      have hsplit : history.take m = history.take n ++ (history.take m).drop n := by
        conv_lhs => rw [← List.take_append_drop n (history.take m), List.take_take,
          Nat.min_eq_left hnm]
      rw [hsplit]
      exact hsame.trans (sameFirsts_append_kept hpass)
  have hstart : SameFirsts keep [] (history.take 0) := rfl
  have hrun := h.run hi hstart
  have hfold : read.foldl (fun as r => as ++ [r]) [] = read := by
    rw [List.foldl_append_eq_append, ← List.flatMap_def, List.flatMap_singleton', List.nil_append]
  rw [hfold, List.take_length] at hrun
  exact hrun

end Ozymandias.OrderedCover
