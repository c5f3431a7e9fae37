import Ozymandias.LogPages
import Mathlib.Algebra.Order.BigOperators.Group.List
import Mathlib.Algebra.Order.Group.Nat

/-!
The pages of a search, one after the other. Between two pages everything listed
at or before the cursor has been returned, and the blocks that reach back to the
cursor are few enough for the next page. So the next cursor is never before the
last one, and the pages together are the beginning of the full list.
-/
namespace Ozymandias.LogPaging

open TimeMerge LogSearch LogPages

variable {L : Type}

def reaching (o : Order) (t : ℤ) (runs : List (Run L)) : List (Run L) :=
  runs.filter (fun r => decide (r.edge o ≤ t))

variable {a : Call L} {k : Key} {logs : List (Entry L)} {q : Request L} {xs ys : List (Run L)}

theorem Affordable.mono {total : ℤ} (h : Affordable total ys)
    (hsub : (charges xs).Subperm (charges ys)) : Affordable total xs := by
  obtain ⟨zs, hperm, hsub⟩ := hsub
  have hlen := hsub.length_le
  have hsum : zs.sum ≤ (charges ys).sum := hsub.sum_le_sum (fun _ _ => Nat.zero_le _)
  rw [hperm.length_eq] at hlen
  rw [hperm.sum_eq] at hsum
  unfold Affordable at h ⊢
  omega

theorem charges_sublist (h : xs.Sublist ys) :
    (charges xs).Sublist (charges ys) := (h.filter _).map _

theorem charges_perm (h : xs.Perm ys) : (charges xs).Perm (charges ys) :=
  (h.filter _).map _

/-- A narrower window has no further blocks. -/
theorem charges_narrower (o : Order) (t : ℤ) (c : Content L) {w w' : Window} (hlo : w.lo ≤ w'.lo)
    (hhi : w'.hi ≤ w.hi) :
    (charges (reaching o t (snapshot c w'))).Sublist (charges (reaching o t (snapshot c w))) := by
  have hsource : ∀ (s : Source L) (v : Window), charges (reaching o t (s.runs v.lo v.hi)) =
      charges (reaching o t ((s.blocks.filter (fun b => overlaps v.lo v.hi b.1)).map
        (blockRun s.pred))) := by
    intro s v
    have hhead : charges (reaching o t (headRun s.pred s.head v.lo v.hi)) = [] := by
      unfold charges reaching
      rw [List.map_eq_nil_iff, List.filter_eq_nil_iff]
      intro r hr
      have hr := (mem_headRun (List.mem_filter.mp hr).1).2.1
      simp [Run.charged, hr]
    unfold Source.runs reaching
    rw [List.filter_append, charges_append]
    change charges (reaching o t _) ++ _ = _
    rw [hhead]
    rfl
  have hall : ∀ v : Window, charges (reaching o t (snapshot c v)) =
      c.sources.flatMap (fun s => charges (reaching o t (s.runs v.lo v.hi))) := by
    intro v
    unfold charges reaching snapshot
    rw [List.filter_flatMap, List.filter_flatMap, List.map_flatMap]
  rw [hall, hall]
  refine List.Sublist.flatMap_right _ (fun s _ => ?_)
  rw [hsource s w', hsource s w]
  refine charges_sublist (List.Sublist.filter _ (List.Sublist.map _ ?_))
  refine List.monotone_filter_right _ (fun b hb => ?_)
  simp only [overlaps, decide_eq_true_eq] at hb ⊢
  omega

/-- The window of a later cursor is narrower. -/
theorem window_narrower (q : Request L) {cur : Option Key}
    (h : ∀ c, cur = some c → q.order.pos c ≤ q.order.pos k) :
    (q.window cur).lo ≤ (q.window (some k)).lo ∧ (q.window (some k)).hi ≤ (q.window cur).hi := by
  have hat : ∀ c, cur = some c → q.order.at (ofLex c).1 ≤ q.order.at (ofLex k).1 :=
    fun c hc => at_le_of_pos (h c hc)
  unfold Request.window narrow
  generalize q.order = o at hat
  cases cur with
  | none =>
    cases o with
    | newest => exact ⟨le_rfl, min_le_left _ _⟩
    | oldest => exact ⟨le_max_left _ _, le_rfl⟩
  | some c =>
    have hle := hat c rfl
    cases o with
    | newest =>
      have hle : -(ofLex c).1 ≤ -(ofLex k).1 := hle
      exact ⟨le_rfl, min_le_min le_rfl (by omega)⟩
    | oldest => exact ⟨max_le_max le_rfl hle, le_rfl⟩

/-- After some pages: everything listed at or before the cursor has been returned, and the next page
can afford the blocks that reach back to it. -/
structure Paged (q : Request L) (logs : List (Entry L)) (k : Key) : Prop where
  splits : ∃ rest, q.content.listed q.order q.lo q.hi = logs ++ rest ∧
    ∀ e ∈ rest, q.order.pos k < q.order.pos e.key
  covers : ∀ e ∈ logs, q.order.pos e.key ≤ q.order.pos k
  number : (ofLex k).2 ≤ maxUint64
  affordable : ∀ a : Call L, a.cur = some k → a.Valid q →
    Affordable q.budget (reaching q.order (q.order.at (ofLex k).1) a.runs)

theorem left_of_splits {rest : List (Entry L)}
    (hsplit : q.content.listed q.order q.lo q.hi = logs ++ rest)
    (hrest : ∀ e ∈ rest, q.order.pos k < q.order.pos e.key)
    (hlogs : ∀ e ∈ logs, q.order.pos e.key ≤ q.order.pos k) : q.left (some k) = rest := by
  unfold Request.left
  rw [hsplit, List.filter_append]
  have hnone : logs.filter (fun e => behind q.order (some k) e.key) = [] := by
    rw [List.filter_eq_nil_iff]
    intro e he
    change ¬ q.order.after k e.key = true
    rw [after_iff]
    exact not_lt.mpr (hlogs e he)
  have hall : rest.filter (fun e => behind q.order (some k) e.key) = rest := by
    rw [List.filter_eq_self]
    intro e he
    exact after_iff.mpr (hrest e he)
  rw [hnone, hall, List.nil_append]

variable {r : Run L} {calls : List (Call L)}

/-- The resume position of a block past a cursor is not before the cursor. -/
theorem le_resume {o : Order} (hn : (ofLex k).2 ≤ maxUint64) (h : o.at (ofLex k).1 < r.edge o) :
    o.pos k ≤ o.pos (r.resume o) := by
  obtain ⟨ts, seq⟩ := k
  have hn : seq ≤ maxUint64 := hn
  rw [Prod.Lex.le_iff]
  cases o with
  | newest =>
    have h : -ts < -r.maxTs := h
    change -ts < -(r.maxTs + 1) ∨ -ts = -(r.maxTs + 1) ∧ -(seq : ℤ) ≤ -((0 : ℕ) : ℤ)
    omega
  | oldest =>
    have h : ts < r.minTs := h
    change ts < r.minTs - 1 ∨ ts = r.minTs - 1 ∧ (seq : ℤ) ≤ ((maxUint64 : ℕ) : ℤ)
    omega

theorem resume_number (o : Order) (r : Run L) : (ofLex (r.resume o)).2 ≤ maxUint64 := by
  cases o with
  | newest => exact Nat.zero_le _
  | oldest => exact le_rfl

/-- Where a page stands, its blocks do not all reach back to an affordable position. -/
theorem Stands.past (hvalid : a.Valid q) {read post : List (Run L)}
    (h : Stands q a r read post) {t : ℤ}
    (hafford : Affordable q.budget (reaching q.order t a.runs)) : t < r.edge q.order := by
  by_contra hle
  have hle := not_lt.mp hle
  refine h.exceeds (Affordable.mono hafford ?_)
  have hsorted := Arranged.edges hvalid
  rw [h.runs] at hsorted ⊢
  have hkeep : reaching q.order t (read ++ [r]) = read ++ [r] := by
    refine List.filter_eq_self.mpr (fun x hx => decide_eq_true ?_)
    rcases List.mem_append.mp hx with hx | hx
    · exact ((List.pairwise_append.mp hsorted).2.2 x hx r List.mem_cons_self).trans hle
    · rw [List.mem_singleton.mp hx]
      exact hle
  have hsub : (reaching q.order t (read ++ [r])).Sublist (reaching q.order t (read ++ r :: post)) :=
    List.Sublist.filter _ ((List.Sublist.refl read).append
      (List.singleton_sublist.mpr List.mem_cons_self))
  rw [hkeep] at hsub
  exact (charges_sublist hsub).subperm

/-- One page: from what was left to what is left. -/
theorem paged_page (hvalid : a.Valid q)
    (hleft : q.content.listed q.order q.lo q.hi = logs ++ q.left a.cur)
    (hk : (a.page q).cursor = some k) (hlogs : ∀ e ∈ logs, q.order.pos e.key ≤ q.order.pos k)
    (hmono : ∀ c, a.cur = some c → q.order.pos c ≤ q.order.pos k) :
    Paged q (logs ++ (a.page q).logs) k := by
  have hstops := page_stops hvalid hk
  obtain ⟨rest, hsplit, hrest⟩ := hstops.splits
  refine ⟨⟨rest, ?_, hrest⟩, ?_, ?_, ?_⟩
  · rw [hleft, hsplit, List.append_assoc]
  · exact List.forall_mem_append.mpr ⟨hlogs, hstops.covers⟩
  · rcases hstops.moves with ⟨e, he, rfl, -⟩ | ⟨-, r, -, -, rfl, -⟩
    · exact le_of_lt (q.content.numbered e he).2
    · exact resume_number q.order r
  · intro b hb hvalid'
    obtain ⟨read, post, hruns, hafford, hpost⟩ := hstops.reads
    refine Affordable.mono hafford ?_
    have hvalid' : Arranged q.order q.content (q.window b.cur) b.runs := hvalid'
    rw [hb] at hvalid'
    obtain ⟨hlo, hhi⟩ := window_narrower q hmono
    set edge := q.order.at (ofLex k).1
    have hsub := (charges_narrower q.order edge q.content hlo hhi).subperm
    have hnext : (charges (reaching q.order edge b.runs)).Perm
        (charges (reaching q.order edge (snapshot q.content (q.window (some k))))) :=
      charges_perm (hvalid'.perm.filter _)
    have hthis : (charges (reaching q.order edge a.runs)).Perm
        (charges (reaching q.order edge (snapshot q.content (q.window a.cur)))) :=
      charges_perm ((Arranged.perm hvalid).filter _)
    have hread : (charges (reaching q.order edge a.runs)).Sublist (charges read) := by
      have hnone : reaching q.order edge post = [] :=
        List.filter_eq_nil_iff.mpr (fun r hr => by simpa using hpost r hr)
      rw [hruns]
      unfold reaching at hnone ⊢
      rw [List.filter_append, hnone, List.append_nil]
      exact charges_sublist List.filter_sublist
    exact (hnext.subperm.trans hsub).trans (hthis.symm.subperm.trans hread.subperm)

/-- A later page goes on where the pages before it ended. -/
theorem Paged.next (h : Paged q logs k) (hcur : a.cur = some k) (hvalid : a.Valid q) :
    q.content.listed q.order q.lo q.hi = logs ++ q.left a.cur ∧
      ∀ k', (a.page q).cursor = some k' → Paged q (logs ++ (a.page q).logs) k' := by
  obtain ⟨rest, hsplit, hrest⟩ := h.splits
  have hleft : q.left a.cur = rest := by
    rw [hcur]
    exact left_of_splits hsplit hrest h.covers
  refine ⟨by rw [hsplit, hleft], fun k' hk' => ?_⟩
  have hle : q.order.pos k ≤ q.order.pos k' := by
    rcases (page_stops hvalid hk').moves with ⟨e, -, rfl, hbehind⟩ | ⟨-, r,
      read, post, rfl, hstands⟩
    · rw [hcur] at hbehind
      exact le_of_lt (after_iff.mp hbehind)
    · exact le_resume h.number (Stands.past hvalid hstands (h.affordable a hcur hvalid))
  refine paged_page hvalid (by rw [hsplit, hleft]) hk' ?_ ?_
  · intro e he
    exact (h.covers e he).trans hle
  · intro c hc
    rw [hcur] at hc
    obtain rfl := Option.some.inj hc
    exact hle

theorem left_none (q : Request L) : q.left none = q.content.listed q.order q.lo q.hi :=
  List.filter_eq_self.mpr (fun _ _ => rfl)

/-- The first page, and every page after it. -/
theorem first_paged (hcur : a.cur = none) (hvalid : a.Valid q) (hk : (a.page q).cursor = some k) :
    Paged q (a.page q).logs k := by
  have hleft : q.content.listed q.order q.lo q.hi = [] ++ q.left a.cur := by
    rw [hcur, left_none]
    rfl
  exact paged_page hvalid hleft hk (by simp) (by simp [hcur])

def logsOf (q : Request L) (calls : List (Call L)) : List (Entry L) :=
  calls.flatMap (fun a => (a.page q).logs)

structure After (q : Request L) (calls : List (Call L)) (a : Call L) : Prop where
  valid : a.Valid q
  left : ∃ logs, logsOf q calls = logs ++ (a.page q).logs ∧
    q.content.listed q.order q.lo q.hi = logs ++ q.left a.cur
  paged : ∀ k, (a.page q).cursor = some k → Paged q (logsOf q calls) k

theorem following_after (h : Following q calls) (ha : calls.getLast? = some a) :
    After q calls a := by
  induction h generalizing a with
  | first b hcur hvalid =>
    obtain rfl : b = a := by simpa using ha
    have hlogs : logsOf q [b] = (b.page q).logs := by simp [logsOf]
    refine ⟨hvalid, ⟨[], hlogs, ?_⟩, fun k hk => ?_⟩
    · rw [hcur, left_none]
      rfl
    · rw [hlogs]
      exact first_paged hcur hvalid hk
  | next calls b c hbefore hsome hcur hvalid ih =>
    obtain rfl : c = a := by simpa using ha
    obtain ⟨k, hk⟩ := Option.isSome_iff_exists.mp hsome
    have hpaged := (ih (by simp)).paged k hk
    obtain ⟨hleft, hnext⟩ := hpaged.next (hcur.trans hk) hvalid
    have hlogs : logsOf q (calls ++ [b] ++ [c]) = logsOf q (calls ++ [b]) ++ (c.page q).logs := by
      simp [logsOf]
    refine ⟨hvalid, ⟨logsOf q (calls ++ [b]), hlogs, hleft⟩, fun k' hk' => ?_⟩
    rw [hlogs]
    exact hnext k' hk'

theorem After.beginning (h : After q calls a) :
    logsOf q calls <+: q.content.listed q.order q.lo q.hi ∧
      ((a.page q).cursor = none → logsOf q calls = q.content.listed q.order q.lo q.hi) := by
  obtain ⟨logs, hlogs, hleft⟩ := h.left
  have hlast : (a.page q).cursor = none → logsOf q calls = q.content.listed q.order q.lo q.hi := by
    intro hnone
    rw [hlogs, hleft, (page_last h.valid hnone).1]
  refine ⟨?_, hlast⟩
  cases hcursor : (a.page q).cursor with
  | none =>
    exact ⟨[], by rw [hlast hcursor, List.append_nil]⟩
  | some k =>
    obtain ⟨rest, hsplit, -⟩ := (h.paged k hcursor).splits
    exact ⟨rest, hsplit.symm⟩

/-- Sound filters hide nothing. -/
theorem listed_eq_matching {c : Content L} (h : c.SoundFilters) (o : Order) (lo hi : ℤ) :
    c.listed o lo hi = c.matching o lo hi := by
  have hsub : (c.sources.flatMap (fun s =>
      s.entries.filter (fun e => decide (lo ≤ e.ts ∧ e.ts ≤ hi) && s.pred e.log))).Sublist
        (c.sources.flatMap Source.entries) :=
    List.Sublist.flatMap_right _ (fun s _ => List.filter_sublist)
  have hkeys := (c.distinct.sublist (hsub.map Entry.key)).map (pos_injective o)
  rw [List.map_map] at hkeys
  refine ascending_ext (ascending_listed c o lo hi) (ascending_sortBy hkeys) (fun e => ?_)
  rw [mem_listed]
  unfold Content.matching
  rw [mem_sortBy, List.mem_flatMap]
  simp only [List.mem_filter, Bool.and_eq_true, decide_eq_true_eq]
  constructor
  · rintro ⟨s, hs, he, hin, hm⟩
    exact ⟨s, hs, (visible_sublist s).subset he, hin, hm⟩
  · rintro ⟨s, hs, he, hin, hm⟩
    refine ⟨s, hs, ?_, hin, hm⟩
    rcases List.mem_append.mp he with he | he
    · exact mem_visible.mpr (Or.inl he)
    · obtain ⟨b, hb, he⟩ := List.mem_flatMap.mp he
      refine mem_visible.mpr (Or.inr ⟨b, hb, ?_, he⟩)
      cases hskip : b.2 with
      | false => rfl
      | true =>
        rw [h s hs b hb hskip e he] at hm
        simp at hm

end Ozymandias.LogPaging
