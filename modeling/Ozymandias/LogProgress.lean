import Ozymandias.LogPaging

/-!
When the pages of a search move on. A page that has to decode several blocks
before its first entry, and cannot afford them together, examines nothing; if
the block it stopped at reaches back to the cursor it was given, the cursor it
returns is no later, and the next page does the same. This is the only way for
a page to stand still, and while none does the pages come to an end.
-/
namespace Ozymandias.LogProgress

open Peaks TimeMerge LogSearch LogPages LogPaging

variable {L : Type}

/-- A call that will stand still: a block it comes to before any entry does not fit into the budget
with the blocks decoded before it, and is not past the cursor. -/
def Standing (q : Request L) (a : Call L) : Prop :=
  (q.window a.cur).lo ≤ (q.window a.cur).hi ∧
    ∃ r read post, Stands q a r read post ∧
      ∀ c, a.cur = some c → q.order.after c (r.resume q.order) = false

/-- A truncated page moves on: its cursor is later than the one given; and if none was given, the
next page examines an entry, ends, or returns a later cursor. -/
def Progresses (q : Request L) (cur : Option Key) : Prop :=
  ∀ a : Call L, a.cur = cur → a.Valid q → (a.page q).truncated = true →
    ∃ k, (a.page q).cursor = some k ∧
      match cur with
      | some c => q.order.after c k = true
      | none => ∀ b : Call L, b.cur = some k → b.Valid q →
          0 < (b.page q).stats.entriesExamined ∨ (b.page q).cursor = none ∨
            ∃ k', (b.page q).cursor = some k' ∧ q.order.after k k' = true

variable {a : Call L} {calls : List (Call L)} {k : Key} {post : List (Run L)} {q : Request L}
  {r : Run L} {read : List (Run L)} {w : Window} {total : ℤ} {xs ys : List (Run L)} {o : Order}

theorem Affordable.of_sublist (h : Affordable total ys) (hsub : xs.Sublist ys) :
    Affordable total xs :=
  Affordable.mono h (charges_sublist hsub).subperm

/-- Of two ways to cut a list, the one that is affordable comes before the one that is not. -/
theorem before_of_affordable (hcut : xs ++ ys = read ++ r :: post) (hafford : Affordable total xs)
    (hover : ¬ Affordable total (read ++ [r])) : ∃ zs, read = xs ++ zs ∧ ys = zs ++ r :: post := by
  rcases List.append_eq_append_iff.mp hcut with ⟨zs, hread, hys⟩ | ⟨zs, hxs, hpost⟩
  · exact ⟨zs, hread, hys⟩
  · cases zs with
    | nil =>
      rw [List.append_nil] at hxs
      exact ⟨[], by rw [hxs, List.append_nil], hpost.symm⟩
    | cons z zs =>
      exfalso
      obtain ⟨rfl, -⟩ := List.cons.inj hpost
      refine hover (Affordable.of_sublist hafford ?_)
      rw [hxs]
      exact (List.Sublist.refl read).append (List.singleton_sublist.mpr List.mem_cons_self)

/-- A page that stands examines nothing and returns the edge of a block that is no later. -/
theorem Stands.page (hvalid : a.Valid q) (hw : (q.window a.cur).lo ≤ (q.window a.cur).hi)
    (h : Stands q a r read post) :
    ∃ r' read' post', Stands q a r' read' post' ∧ r'.edge q.order ≤ r.edge q.order ∧
      (a.page q).truncated = true ∧ (a.page q).cursor = some (r'.resume q.order) ∧
      (a.page q).stats.entriesExamined = 0 := by
  have hgood := Arranged.good hvalid q.budget
  have hpage := page_eq_scan hw
  obtain ⟨_, hfill, ⟨s, read', hruns, hready, -⟩ |
    ⟨s, r', read', post', hruns, hheap, hrefused, hcount⟩⟩ := fill_spec q.order (q.window a.cur)
      q.budget a.runs hgood.queue [] [] q.budget ⟨0, 0, 0, 0⟩ hgood.books hgood.inOrder
  · obtain ⟨zs, hread, hleft⟩ :=
      before_of_affordable (hruns.symm.trans h.runs) hready.books.affordable h.exceeds
    obtain ⟨pred, e, heap', hpop, hlt⟩ := hready.settled r (by rw [hleft]; simp)
    have hitem : (e, pred e.log) ∈ heapItems s.heap :=
      (popTop_spec hready.inOrder hpop).1.mem_iff.mpr List.mem_cons_self
    have hperm : (heapItems s.heap).Perm (runItems q.order (q.window a.cur) read') := by
      have hitems := hready.items
      rw [hruns, runItems_append] at hitems
      exact (List.perm_append_right_iff _).mp hitems
    have hmem := hperm.mem_iff.mp hitem
    refine absurd hlt (not_lt.mpr (h.behind (e, pred e.log) ?_))
    rw [hread, runItems_append]
    exact List.mem_append_left _ hmem
  · obtain ⟨zs, hread, hleft⟩ := before_of_affordable (hruns.symm.trans h.runs)
      hrefused.books.affordable h.exceeds
    have hedge : r'.edge q.order ≤ r.edge q.order := by
      have hsorted := Arranged.edges hvalid
      rw [hruns] at hsorted
      cases zs with
      | nil =>
        obtain ⟨rfl, -⟩ := List.cons.inj hleft
        exact le_rfl
      | cons z zs =>
        obtain ⟨rfl, hpost⟩ := List.cons.inj hleft
        refine (List.pairwise_cons.mp (List.pairwise_append.mp hsorted).2.1).1 r ?_
        rw [hpost]
        simp
    have hstands : Stands q a r' read' post' := by
      refine ⟨hruns, hrefused.charged, hrefused.not_affordable, fun x hx => ?_⟩
      exact hrefused.behind x (hheap.mem_iff.mpr (List.mem_append_right _ hx))
    refine ⟨r', read', post', hstands, hedge, ?_⟩
    rw [hpage]
    simp only [scan, hfill, true_and]
    exact hcount

theorem resume_mono {r' : Run L} (h : r'.edge o ≤ r.edge o) :
    o.pos (r'.resume o) ≤ o.pos (r.resume o) := by
  rw [Prod.Lex.le_iff]
  cases o with
  | newest =>
    have h : -r'.maxTs ≤ -r.maxTs := h
    change -(r'.maxTs + 1) < -(r.maxTs + 1) ∨ -(r'.maxTs + 1) = -(r.maxTs + 1) ∧ _ ≤ _
    rcases lt_or_eq_of_le h with hlt | heq
    · exact Or.inl (by omega)
    · exact Or.inr ⟨by omega, le_rfl⟩
  | oldest =>
    have h : r'.minTs ≤ r.minTs := h
    change r'.minTs - 1 < r.minTs - 1 ∨ r'.minTs - 1 = r.minTs - 1 ∧ _ ≤ _
    rcases lt_or_eq_of_le h with hlt | heq
    · exact Or.inl (by omega)
    · exact Or.inr ⟨by omega, le_rfl⟩

/-- A truncated page has a cursor. -/
theorem truncated_cursor (hvalid : a.Valid q) (h : (a.page q).truncated = true) :
    ∃ k, (a.page q).cursor = some k := by
  cases hcursor : (a.page q).cursor with
  | some k => exact ⟨k, rfl⟩
  | none =>
    rw [(page_last hvalid hcursor).2] at h
    simp at h

/-- A page that does not stand still returns a later cursor, truncated or not. -/
theorem cursor_after (hvalid : a.Valid q) (hgo : ¬ Standing q a) {c : Key} (hcur : a.cur = some c)
    (hk : (a.page q).cursor = some k) :
    q.order.pos c < q.order.pos k := by
  rw [← after_iff]
  rcases (page_stops hvalid hk).moves with ⟨e, -, rfl, hbehind⟩ | ⟨-, r, read, post, rfl, hstands⟩
  · rw [hcur] at hbehind
    exact hbehind
  · by_contra hno
    refine hgo ⟨window_of_cursor hvalid hk, r, read, post, hstands, fun c' hc' => ?_⟩
    rw [hcur] at hc'
    obtain rfl := Option.some.inj hc'
    simpa using hno

/-- Given a cursor, the page moves on unless it stands still. -/
theorem progresses_some (q : Request L) (c : Key) :
    Progresses q (some c) ↔ ∀ a : Call L, a.cur = some c → a.Valid q → ¬ Standing q a := by
  constructor
  · rintro h a hcur hvalid ⟨hw, r, read, post, hstands, hpast⟩
    obtain ⟨r', _, _, -, hedge, htruncated, hcursor, -⟩ := Stands.page hvalid hw hstands
    obtain ⟨k, hk, hafter⟩ := h a hcur hvalid htruncated
    rw [hcursor] at hk
    obtain rfl := Option.some.inj hk
    have hlt := (after_iff.mp hafter).trans_le (resume_mono hedge)
    have hno := hpast c hcur
    rw [after_iff.mpr hlt] at hno
    simp at hno
  · intro h a hcur hvalid htruncated
    obtain ⟨k, hk⟩ := truncated_cursor hvalid htruncated
    exact ⟨k, hk, after_iff.mpr (cursor_after hvalid (h a hcur hvalid) hcur hk)⟩

def within (w : Window) (runs : List (Run L)) : List (Run L) :=
  runs.filter (fun r => decide (w.lo ≤ r.maxTs ∧ r.minTs ≤ w.hi))

/-- Where a page stands, everything in its window is at or behind the block's edge. -/
theorem Stands.all_behind (hvalid : a.Valid q) (h : Stands q a r read post) {x : Item L}
    (hx : x ∈ runItems q.order (q.window a.cur) a.runs) : r.edge q.order ≤ q.order.at x.1.ts := by
  have hqueue : Queue q.order (read ++ r :: post) := h.runs ▸ Arranged.queue hvalid
  rw [h.runs, runItems_append] at hx
  rcases List.mem_append.mp hx with hx | hx
  · exact h.behind x hx
  · exact hqueue.right.head_le hx

/-- A charged run is a block of a source that overlaps the window. -/
theorem charged_block (hvalid : a.Valid q) (hr : r ∈ a.runs) (hcharged : r.charged = true) :
    ∃ s ∈ q.content.sources, ∃ b ∈ s.blocks, b.2 = false ∧ r = blockRun s.pred b ∧
      overlaps (q.window a.cur).lo (q.window a.cur).hi b.1 = true := by
  obtain ⟨s, hs, hr⟩ := mem_snapshot.mp ((Arranged.perm hvalid).mem_iff.mp hr)
  rcases mem_runs.mp hr with hr | ⟨b, hb, hover, rfl⟩
  · simp [Run.charged, (mem_headRun hr).2.1] at hcharged
  · exact ⟨s, hs, b, hb, by simpa [Run.charged, blockRun] using hcharged, rfl, hover⟩

/-- A window after a block that did not fit, seen from the first page. -/
structure Resumed (q : Request L) (r : Run L) (w : Window) : Prop where
  lo : q.lo ≤ w.lo
  hi : w.hi ≤ q.hi
  nonempty : w.lo ≤ w.hi
  holds : ∀ ts, q.lo ≤ ts → ts ≤ q.hi → r.edge q.order ≤ q.order.at ts → w.lo ≤ ts ∧ ts ≤ w.hi
  reached : ∀ x y, q.lo ≤ y → x ≤ q.hi → (r.edge q.order ≤ q.order.at x ∨ x < q.lo) →
    (r.edge q.order ≤ q.order.at y ∨ q.hi < y) → w.lo ≤ y ∧ x ≤ w.hi

theorem resumed (q : Request L) (hq : q.lo ≤ q.hi) (hlo : q.lo ≤ r.maxTs) (hhi : r.minTs ≤ q.hi) :
    Resumed q r (q.window (some (r.resume q.order))) := by
  cases ho : q.order with
  | newest =>
    have hedge : r.edge q.order = -r.maxTs := by rw [ho]; rfl
    have hat : ∀ ts, q.order.at ts = -ts := by intro ts; rw [ho]; rfl
    have hwin : q.window (some (r.resume .newest)) =
        ⟨q.lo, min q.hi (r.maxTs + 1), some (r.resume .newest)⟩ := by
      unfold Request.window
      rw [ho]
      rfl
    rw [hwin]
    refine ⟨le_rfl, min_le_left _ _, le_min hq (by omega : q.lo ≤ r.maxTs + 1), ?_, ?_⟩
    · intro ts h₁ h₂ h₃
      rw [hat] at h₃
      exact ⟨h₁, le_min h₂ (by omega)⟩
    · intro x y h₁ h₂ h₃ h₄
      rw [hat] at h₃
      exact ⟨h₁, le_min h₂ (by omega)⟩
  | oldest =>
    have hedge : r.edge q.order = r.minTs := by rw [ho]; rfl
    have hat : ∀ ts, q.order.at ts = ts := by intro ts; rw [ho]; rfl
    have hwin : q.window (some (r.resume .oldest)) =
        ⟨max q.lo (r.minTs - 1), q.hi, some (r.resume .oldest)⟩ := by
      unfold Request.window
      rw [ho]
      rfl
    rw [hwin]
    refine ⟨le_max_left _ _, le_rfl, max_le hq (by omega : r.minTs - 1 ≤ q.hi), ?_, ?_⟩
    · intro ts h₁ h₂ h₃
      rw [hat] at h₃
      exact ⟨max_le h₁ (by omega), h₂⟩
    · intro x y h₁ h₂ h₃ h₄
      rw [hat] at h₄
      exact ⟨max_le h₁ (by omega), h₂⟩

/-- The head of a stream is the same in both windows. -/
theorem headRun_within {pred : L → Bool} {head : List (Entry L)} {lo hi : ℤ} (hlo : lo ≤ w.lo)
    (hhi : w.hi ≤ hi) (hall : ∀ e ∈ head, lo ≤ e.ts → e.ts ≤ hi → w.lo ≤ e.ts ∧ e.ts ≤ w.hi) :
    headRun pred head w.lo w.hi = within w (headRun pred head lo hi) := by
  have hsame : headRun pred head w.lo w.hi = headRun pred head lo hi := by
    have hfilter : head.filter (fun e => decide (w.lo ≤ e.ts ∧ e.ts ≤ w.hi)) =
        head.filter (fun e => decide (lo ≤ e.ts ∧ e.ts ≤ hi)) := by
      refine List.filter_congr (fun e he => decide_eq_decide.mpr ⟨fun h => ?_, fun h => ?_⟩)
      · exact ⟨hlo.trans h.1, h.2.trans hhi⟩
      · exact hall e he h.1 h.2
    unfold headRun
    rw [hfilter]
  rw [hsame]
  refine (List.filter_eq_self.mpr (fun r hr => decide_eq_true ?_)).symm
  obtain ⟨-, -, -, hentries, hrange⟩ := mem_headRun hr
  have hne : r.entries ≠ [] := by
    unfold headRun at hr
    split at hr
    · simp at hr
    · rw [List.mem_singleton.mp hr]
      simp
  obtain ⟨e, he⟩ := List.exists_mem_of_ne_nil _ hne
  have hin := hrange e he
  rw [hentries] at he
  obtain ⟨hmem, hbounds⟩ := List.mem_filter.mp (mem_sortBy.mp he)
  have hbounds : lo ≤ e.ts ∧ e.ts ≤ hi := by simpa using hbounds
  have hw := hall e hmem hbounds.1 hbounds.2
  omega

/-- A narrower window that holds every head entry takes the runs that overlap it. -/
theorem snapshot_within {c : Content L} {w' : Window} (hlo : w.lo ≤ w'.lo) (hhi : w'.hi ≤ w.hi)
    (hall : ∀ s ∈ c.sources, ∀ e ∈ s.head, w.lo ≤ e.ts → e.ts ≤ w.hi →
      w'.lo ≤ e.ts ∧ e.ts ≤ w'.hi) : snapshot c w' = within w' (snapshot c w) := by
  unfold snapshot within
  rw [List.filter_flatMap]
  refine List.flatMap_congr (fun s hs => ?_)
  unfold Source.runs
  rw [List.filter_append, headRun_within hlo hhi (hall s hs), List.filter_map, List.filter_filter]
  refine congrArg _ (congrArg _ (List.filter_congr (fun b _ => ?_)))
  rw [Bool.eq_iff_iff, Bool.and_eq_true]
  simp only [overlaps, Function.comp_apply, blockRun, decide_eq_true_eq]
  constructor
  · intro h
    exact ⟨decide_eq_true h, by omega⟩
  · rintro ⟨h, -⟩
    exact of_decide_eq_true h

theorem charges_within {runs : List (Run L)}
    (h : ∀ r ∈ runs, r.charged = true → w.lo ≤ r.maxTs ∧ r.minTs ≤ w.hi) :
    charges (within w runs) = charges runs := by
  unfold charges within
  rw [List.filter_filter]
  refine congrArg _ (List.filter_congr (fun r hr => ?_))
  cases hcharged : r.charged with
  | false => rfl
  | true => simpa using h r hr hcharged

/-- The page after a first page that stands has the same blocks to decode. -/
theorem Stands.second (hcur : a.cur = none) (hvalid : a.Valid q) (hq : q.lo ≤ q.hi)
    (h : Stands q a r read post) :
    ∃ b : Call L, b.cur = some (r.resume q.order) ∧ b.Valid q ∧
      (q.window b.cur).lo ≤ (q.window b.cur).hi ∧ ∃ read' post', Stands q b r read' post' := by
  have hwin : q.window a.cur = ⟨q.lo, q.hi, none⟩ := by rw [hcur]; rfl
  have hitem : ∀ s ∈ q.content.sources, ∀ e ∈ s.visible, q.lo ≤ e.ts → e.ts ≤ q.hi →
      r.edge q.order ≤ q.order.at e.ts := by
    intro s hs e he hlo hhi
    have hin : (q.window a.cur).inside q.order e = true := by
      rw [inside_iff, hwin]
      exact ⟨⟨hlo, hhi⟩, rfl⟩
    exact Stands.all_behind hvalid h ((Arranged.mem_runItems hvalid).mpr ⟨s, hs, he, hin, rfl⟩)
  have hblock : ∀ x ∈ a.runs, x.charged = true → q.lo ≤ x.maxTs ∧ x.minTs ≤ q.hi ∧
      (r.edge q.order ≤ q.order.at x.minTs ∨ x.minTs < q.lo) ∧
      (r.edge q.order ≤ q.order.at x.maxTs ∨ q.hi < x.maxTs) := by
    intro x hx hcharged
    obtain ⟨s, hs, b, hb, hskip, rfl, hover⟩ := charged_block hvalid hx hcharged
    rw [hwin] at hover
    have hover : q.lo ≤ b.1.maxTs ∧ b.1.minTs ≤ q.hi := by simpa [overlaps] using hover
    have hvisible : ∀ e ∈ b.1.entries, e ∈ s.visible :=
      fun e he => mem_visible.mpr (Or.inr ⟨b, hb, hskip, he⟩)
    refine ⟨hover.1, hover.2, ?_, ?_⟩
    · obtain ⟨e, he, hts⟩ := b.1.lowest
      change _ ≤ q.order.at b.1.minTs ∨ b.1.minTs < q.lo
      rw [← hts] at hover ⊢
      by_cases hlo : e.ts < q.lo
      · exact Or.inr hlo
      · exact Or.inl (hitem s hs e (hvisible e he) (not_lt.mp hlo) hover.2)
    · obtain ⟨e, he, hts⟩ := b.1.highest
      change _ ≤ q.order.at b.1.maxTs ∨ q.hi < b.1.maxTs
      rw [← hts] at hover ⊢
      by_cases hhi : q.hi < e.ts
      · exact Or.inr hhi
      · exact Or.inl (hitem s hs e (hvisible e he) hover.1 (not_lt.mp hhi))
  have hr : r ∈ a.runs := by rw [h.runs]; simp
  have hres := resumed q hq (hblock r hr h.charged).1 (hblock r hr h.charged).2.1
  set w := q.window (some (r.resume q.order))
  refine ⟨⟨some (r.resume q.order), within w a.runs⟩, rfl, ?_, hres.nonempty, within w read,
    within w post, ?_⟩
  · have hsnap : snapshot q.content w = within w (snapshot q.content (q.window a.cur)) := by
      rw [hwin]
      refine snapshot_within hres.lo hres.hi (fun s hs e he hlo hhi => ?_)
      exact hres.holds e.ts hlo hhi (hitem s hs e (mem_visible.mpr (Or.inl he)) hlo hhi)
    refine ⟨?_, (Arranged.edges hvalid).filter _⟩
    rw [hsnap]
    exact (Arranged.perm hvalid).filter _
  · have hkeep : ∀ x ∈ a.runs, x.charged = true → w.lo ≤ x.maxTs ∧ x.minTs ≤ w.hi := by
      intro x hx hcharged
      obtain ⟨h₁, h₂, h₃, h₄⟩ := hblock x hx hcharged
      exact hres.reached x.minTs x.maxTs h₁ h₂ h₃ h₄
    refine ⟨?_, h.charged, ?_, ?_⟩
    · change within _ a.runs = _
      unfold within
      rw [h.runs, List.filter_append,
        List.filter_cons_of_pos (by exact decide_eq_true (hkeep r hr h.charged))]
    · intro hafford
      refine h.exceeds (Affordable.mono hafford ?_)
      have hread : ∀ x ∈ read, x ∈ a.runs := fun x hx => by
        rw [h.runs]
        exact List.mem_append_left _ hx
      rw [charges_append, charges_append, charges_within (fun x hx => hkeep x (hread x hx))]
    · rintro ⟨e, m⟩ hx
      obtain ⟨x, hx, hskip, he, hin, hm⟩ := mem_runItems.mp hx
      refine h.behind (e, m) (mem_runItems.mpr ⟨x, (List.mem_filter.mp hx).1, hskip, he, ?_, hm⟩)
      have hbounds := (inside_iff.mp hin).1
      rw [inside_iff, hwin]
      exact ⟨⟨hres.lo.trans hbounds.1, hbounds.2.trans hres.hi⟩, rfl⟩

/-- The resume position of a block past an entry is behind the entry. -/
theorem lt_resume {e : Entry L} (hn : 0 < e.seq ∧ e.seq < maxUint64) (h : o.at e.ts < r.edge o) :
    o.after e.key (r.resume o) = true := by
  rw [after_iff, Prod.Lex.lt_iff]
  cases o with
  | newest =>
    have h : -e.ts < -r.maxTs := h
    change -e.ts < -(r.maxTs + 1) ∨ -e.ts = -(r.maxTs + 1) ∧ -(e.seq : ℤ) < -((0 : ℕ) : ℤ)
    omega
  | oldest =>
    have h : e.ts < r.minTs := h
    change e.ts < r.minTs - 1 ∨ e.ts = r.minTs - 1 ∧ (e.seq : ℤ) < ((maxUint64 : ℕ) : ℤ)
    omega

theorem after_irrefl (o : Order) {j : Key} (h : o.pos k ≤ o.pos j) : ¬ o.after j k = true := by
  rw [after_iff]
  exact not_lt.mpr h

/-- Without a cursor, the pages move on unless the first one stands. -/
theorem progresses_none (q : Request L) :
    Progresses q none ↔ ∀ a : Call L, a.cur = none → a.Valid q → ¬ Standing q a := by
  constructor
  · rintro h a hcur hvalid ⟨hw, r, read, post, hstands, -⟩
    obtain ⟨r', read', post', hstands', -, htruncated, hcursor, -⟩ := Stands.page hvalid hw hstands
    obtain ⟨k, hk, hnext⟩ := h a hcur hvalid htruncated
    rw [hcursor] at hk
    obtain rfl := Option.some.inj hk
    have hq : q.lo ≤ q.hi := by
      rw [hcur] at hw
      exact hw
    obtain ⟨b, hb, hvalid', hw', read₂, post₂, hstands₂⟩ := Stands.second hcur hvalid hq hstands'
    obtain ⟨r₂, _, _, -, hedge, -, hcursor₂, hcount⟩ := Stands.page hvalid' hw' hstands₂
    rcases hnext b hb hvalid' with hsome | hnone | ⟨k', hk', hafter⟩
    · omega
    · rw [hcursor₂] at hnone
      simp at hnone
    · rw [hcursor₂] at hk'
      obtain rfl := Option.some.inj hk'
      exact after_irrefl q.order (resume_mono hedge) hafter
  · intro h a hcur hvalid htruncated
    obtain ⟨k, hk⟩ := truncated_cursor hvalid htruncated
    refine ⟨k, hk, fun b hb hvalid' => ?_⟩
    rcases (page_stops hvalid hk).moves with ⟨e, he, rfl, -⟩ | ⟨-, r, read, post, -, hstands⟩
    · cases hcursor : (b.page q).cursor with
      | none => exact Or.inr (Or.inl rfl)
      | some k' =>
        refine Or.inr (Or.inr ⟨k', rfl, ?_⟩)
        have hafford := (first_paged hcur hvalid hk).affordable b hb hvalid'
        rcases (page_stops hvalid' hcursor).moves with
          ⟨e', -, rfl, hbehind⟩ | ⟨-, r, read, post, rfl, hstands⟩
        · rw [hb] at hbehind
          exact hbehind
        · exact lt_resume (q.content.numbered e he) (Stands.past hvalid' hstands hafford)
    · exfalso
      refine h a hcur hvalid ⟨window_of_cursor hvalid hk, r, read, post, hstands, fun c hc => ?_⟩
      rw [hcur] at hc
      simp at hc

theorem progresses_iff (q : Request L) (cur : Option Key) :
    Progresses q cur ↔ ∀ a : Call L, a.cur = cur → a.Valid q → ¬ Standing q a := by
  cases cur with
  | none => exact progresses_none q
  | some c => exact progresses_some q c

def marks (q : Request L) : List Key :=
  (q.content.sources.flatMap Source.entries).map Entry.key ++
    q.content.sources.flatMap (fun s => s.blocks.map (fun b => (blockRun s.pred b).resume q.order))

theorem cursor_mem_marks (hvalid : a.Valid q) (hk : (a.page q).cursor = some k) : k ∈ marks q := by
  rcases (page_stops hvalid hk).moves with ⟨e, he, rfl, -⟩ | ⟨-, r, read, post, rfl, hstands⟩
  · exact List.mem_append_left _ (List.mem_map_of_mem he)
  · have hr : r ∈ a.runs := by rw [hstands.runs]; simp
    obtain ⟨s, hs, b, hb, -, rfl, -⟩ := charged_block hvalid hr hstands.charged
    exact List.mem_append_right _ (List.mem_flatMap.mpr ⟨s, hs, List.mem_map_of_mem hb⟩)

/-- The cursors of pages that do not stand still ascend. -/
theorem cursors_ascend (h : Following q calls) (hgo : ∀ a ∈ calls, ¬ Standing q a) :
    calls.length = (calls.filterMap Call.cur).length + 1 ∧
      Ascending q.order.pos (calls.filterMap Call.cur) ∧
      (∀ k ∈ calls.filterMap Call.cur, k ∈ marks q) ∧
      ∀ a, calls.getLast? = some a → a.Valid q ∧ (calls.filterMap Call.cur).getLast? = a.cur := by
  induction h with
  | first a hcur hvalid =>
    simp [hcur, Ascending, hvalid]
  | next calls a b hbefore hsome hcur hvalid ih =>
    obtain ⟨hlen, hasc, hmarks, hlast⟩ := ih (fun c hc => hgo c (List.mem_append_left _ hc))
    obtain ⟨hvalidA, hlastA⟩ := hlast a (by simp)
    obtain ⟨k, hk⟩ := Option.isSome_iff_exists.mp hsome
    have hb : b.cur = some k := hcur.trans hk
    have hmap : (calls ++ [a] ++ [b]).filterMap Call.cur =
      (calls ++ [a]).filterMap Call.cur ++ [k] := by
      rw [List.filterMap_append]
      simp [hb]
    rw [hmap]
    refine ⟨?_, ?_, ?_, ?_⟩
    · rw [List.length_append, hlen, List.length_append]
      rfl
    · refine ascending_concat_iff.mpr ⟨hasc, fun c hc => ?_⟩
      rw [hlastA] at hc
      exact cursor_after hvalidA (hgo a (by simp)) hc hk
    · exact List.forall_mem_append.mpr
        ⟨hmarks, List.forall_mem_singleton.mpr (cursor_mem_marks hvalidA hk)⟩
    · intro c hc
      obtain rfl : b = c := by simpa using hc
      exact ⟨hvalid, by simp [hb]⟩

/-- Pages that do not stand still are at most one more than the cursors there are. -/
theorem following_bounded (h : Following q calls) (hgo : ∀ a ∈ calls, ¬ Standing q a) :
    calls.length ≤ (marks q).length + 1 := by
  obtain ⟨hlen, hasc, hmarks, -⟩ := cursors_ascend h hgo
  have hnodup : (calls.filterMap Call.cur).Nodup := by
    refine hasc.imp (fun {j k} hlt heq => ?_)
    rw [heq] at hlt
    exact lt_irrefl _ hlt
  have hle := (hnodup.subperm hmarks).length_le
  omega

/-- Every cursor can be followed. -/
theorem exists_call (q : Request L) (cur : Option Key) : ∃ a : Call L, a.cur = cur ∧ a.Valid q :=
  ⟨⟨cur, sortBy (Run.edge q.order) (snapshot q.content (q.window cur))⟩, rfl,
    List.perm_insertionSort _ _, pairwise_sortBy _ _⟩

/-- Paging makes progress exactly where no call stands still, and pages that do not stand still come
to an end: there are at most so many of them, and each that is not the last can be followed. -/
theorem paging_progress (q : Request L) :
    (∀ cur, Progresses q cur ↔ ∀ a : Call L, a.cur = cur → a.Valid q → ¬ Standing q a) ∧
      (∀ calls, Following q calls → (∀ a ∈ calls, ¬ Standing q a) →
        calls.length ≤ (marks q).length + 1) ∧
      ∀ calls a, Following q (calls ++ [a]) → (a.page q).cursor.isSome →
        ∃ b, Following q (calls ++ [a] ++ [b]) := by
  refine ⟨progresses_iff q, fun calls h hgo => following_bounded h hgo, ?_⟩
  intro calls a h hsome
  obtain ⟨b, hb, hvalid⟩ := exists_call q (a.page q).cursor
  exact ⟨b, Following.next calls a b h hsome hb hvalid⟩

theorem following_valid (h : Following q calls) : ∀ a ∈ calls, a.Valid q := by
  induction h with
  | first a _ hvalid => exact List.forall_mem_singleton.mpr hvalid
  | next calls a b _ _ _ hvalid ih =>
    exact List.forall_mem_append.mpr ⟨ih, List.forall_mem_singleton.mpr hvalid⟩

/-- Where no call stands still, the pages come to a last one. -/
theorem exists_last (q : Request L) (hgo : ∀ a : Call L, a.Valid q → ¬ Standing q a) :
    ∃ calls a, Following q calls ∧ calls.getLast? = some a ∧ (a.page q).cursor = none := by
  by_contra hnone
  have hmore : ∀ n, ∃ calls a, Following q (calls ++ [a]) ∧ n ≤ calls.length := by
    intro n
    induction n with
    | zero =>
      obtain ⟨a, hcur, hvalid⟩ := exists_call q none
      exact ⟨[], a, Following.first a hcur hvalid, Nat.zero_le _⟩
    | succ n ih =>
      obtain ⟨calls, a, hcalls, hlen⟩ := ih
      have hsome : (a.page q).cursor.isSome := by
        by_contra hno
        exact hnone ⟨_, a, hcalls, List.getLast?_concat, Option.not_isSome_iff_eq_none.mp hno⟩
      obtain ⟨b, hb, hvalid⟩ := exists_call q (a.page q).cursor
      refine ⟨calls ++ [a], b, Following.next calls a b hcalls hsome hb hvalid, ?_⟩
      rw [List.length_append]
      exact Nat.succ_le_succ hlen
  obtain ⟨calls, a, hcalls, hlen⟩ := hmore ((marks q).length + 1)
  have hbound := following_bounded hcalls (fun b hb => hgo b (following_valid hcalls b hb))
  rw [List.length_append, List.length_singleton] at hbound
  omega

def Unlimited (q : Request L) : Prop :=
  ((q.content.sources.flatMap (fun s => s.blocks.map (fun b => b.1.rawLen))).sum : ℕ) ≤ q.budget

theorem charges_runs (s : Source L) (lo hi : ℤ) :
    (charges (s.runs lo hi)).Sublist (s.blocks.map (fun b => b.1.rawLen)) := by
  have hhead : charges (headRun s.pred s.head lo hi) = [] := by
    unfold charges
    rw [List.filter_eq_nil_iff.mpr, List.map_nil]
    intro r hr
    simp [Run.charged, (mem_headRun hr).2.1]
  unfold Source.runs
  rw [charges_append, hhead]
  unfold charges
  rw [List.filter_map, List.map_map]
  exact (List.filter_sublist.trans List.filter_sublist).map _

theorem not_standing (h : Unlimited q) (hvalid : a.Valid q) :
    ¬ Standing q a := by
  rintro ⟨-, r, read, post, hstands, -⟩
  have hafford : Affordable q.budget a.runs := by
    refine Or.inr ?_
    have hsub : (charges (snapshot q.content (q.window a.cur))).Sublist
        (q.content.sources.flatMap (fun s => s.blocks.map (fun b => b.1.rawLen))) := by
      unfold snapshot charges
      rw [List.filter_flatMap, List.map_flatMap]
      exact List.Sublist.flatMap_right _ (fun s _ => charges_runs s _ _)
    have hsum := hsub.sum_le_sum (fun _ _ => Nat.zero_le _)
    rw [(charges_perm (Arranged.perm hvalid)).sum_eq]
    exact (Int.ofNat_le.mpr hsum).trans h
  refine hstands.exceeds (Affordable.of_sublist hafford ?_)
  rw [hstands.runs]
  exact (List.Sublist.refl read).append (List.singleton_sublist.mpr List.mem_cons_self)

def pairBlock (seq : ℕ) : Block Unit where
  minTs := 10
  maxTs := 20
  rawLen := 100
  entries := [⟨10, seq, ()⟩, ⟨20, seq + 1, ()⟩]
  lowest := ⟨⟨10, seq, ()⟩, by simp, rfl⟩
  highest := ⟨⟨20, seq + 1, ()⟩, by simp, rfl⟩
  inRange := by
    intro e he
    rcases List.mem_cons.mp he with rfl | he
    · exact ⟨le_rfl, by simp⟩
    · rw [List.mem_singleton.mp he]
      exact ⟨by simp, le_rfl⟩

def twoStreams : Request Unit where
  content :=
    { sources := [⟨fun _ => true, [], [(pairBlock 1, false)]⟩,
        ⟨fun _ => true, [], [(pairBlock 3, false)]⟩]
      distinct := by decide
      numbered := by decide }
  order := .newest
  limit := 10
  scanBudget := 150
  lo := 0
  hi := 100

def twoStreamsCall (cur : Option Key) : Call Unit :=
  ⟨cur, [blockRun (fun _ => true) (pairBlock 1, false),
    blockRun (fun _ => true) (pairBlock 3, false)]⟩

/-- The first page examines nothing, and the page with the cursor it returns neither, with the same
cursor again. -/
theorem pages_stand_still :
    ¬ Progresses twoStreams none ∧ ¬ Progresses twoStreams (some (toLex (21, 0))) := by
  have hvalid : ∀ cur, cur = none ∨ cur = some (toLex (21, 0)) →
      (twoStreamsCall cur).Valid twoStreams := by
    rintro cur (rfl | rfl)
    · exact ⟨List.Perm.refl _, by decide⟩
    · exact ⟨List.Perm.refl _, by decide⟩
  have hfirst : ((twoStreamsCall none).page twoStreams).truncated = true ∧
      ((twoStreamsCall none).page twoStreams).cursor = some (toLex (21, 0)) := by decide
  have hsecond : ((twoStreamsCall (some (toLex (21, 0)))).page twoStreams).truncated = true ∧
      ((twoStreamsCall (some (toLex (21, 0)))).page twoStreams).cursor = some (toLex (21, 0)) ∧
      ((twoStreamsCall (some (toLex (21, 0)))).page twoStreams).stats.entriesExamined = 0 := by
        decide
  constructor
  · intro h
    obtain ⟨k, hk, hnext⟩ := h _ rfl (hvalid _ (Or.inl rfl)) hfirst.1
    obtain rfl := Option.some.inj hk
    rcases hnext _ rfl (hvalid _ (Or.inr rfl)) with hsome | hnone | ⟨k', hk', hafter⟩
    · omega
    · rw [hsecond.2.1] at hnone
      simp at hnone
    · obtain rfl := Option.some.inj hk'
      exact after_irrefl _ le_rfl hafter
  · intro h
    obtain ⟨k, hk, hafter⟩ := h _ rfl (hvalid _ (Or.inr rfl)) hsecond.1
    obtain rfl := Option.some.inj hk
    exact after_irrefl _ le_rfl hafter

end Ozymandias.LogProgress
