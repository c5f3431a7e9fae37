import Ozymandias.NotifyDispatch

/-!
What holds in every run of the dispatcher. The rows in flight, the pending ids and the
done marks belong together, and one condition follows every copy of a row that is held
outside the lock: once its row is gone from the table, the id is in flight or has a done
mark young enough to outlive the copy. The purge keeps that for the copies of commits
because their Enqueue runs before the first rescan that starts after the completion.
-/

namespace Ozymandias.NotifyRuns

open NotifyDispatch

variable {N P : Type}

/-- What keeps a copy of a row from being delivered again: while its row is gone from the
table, the id is in flight or done, with a mark from `start` on. -/
def Followed (s : State N P) (start : ℕ) (r : Row N P) : Prop :=
  (r ∈ s.outbox ∨ Gone s.log r.id) ∧
    (Gone s.log r.id → r.id ∈ s.ids ∨ ∃ mark, s.done r.id = some mark ∧ start ≤ mark)

/-- What the table, the rows in flight and the marks have to do with each other. -/
structure Core (conf : Config N P) (s : State N P) : Prop where
  outboxIds : (s.outbox.map Row.id).Nodup
  outboxOld : ∀ r ∈ s.outbox, r.id < s.nextId
  outboxKept : ∀ r ∈ s.outbox, ¬ Gone s.log r.id
  goneOld : ∀ id, Gone s.log id → id < s.nextId
  flightIds : s.ids.Nodup
  flightPending : ∀ id, s.pending id = true ↔ id ∈ s.ids
  flightKept : ∀ f ∈ s.flight, f.place ≠ .ended true → f.row ∈ s.outbox
  flightGone : ∀ f ∈ s.flight, f.place = .ended true → Gone s.log f.row.id
  flightHanded : ∀ f ∈ s.flight, ∀ m last, f.place = .working (m + 1) last →
    .handed f.row.id ∈ s.log
  flightOrphan : ∀ f ∈ s.flight, f.place = .orphan → f.row.notifier ∉ conf.notifiers
  doneGone : ∀ id mark, s.done id = some mark → Gone s.log id ∧ mark ≤ s.seq
  unstarted : s.started = false → s.flight = [] ∧ ∀ id, s.done id = none
  ordered : Ordered s.log

structure Inv (conf : Config N P) (s : State N P) : Prop extends Core conf s where
  owed : ∀ rows ∈ s.owed, ∀ r ∈ rows, Followed s 0 r
  lock : ∀ caller rows, s.lock = some (caller, rows) → ∀ r ∈ rows, Followed s 0 r
  copies : ∀ start rows, s.rescan = .read start rows → ∀ r ∈ rows, Followed s (start + 1) r
  startLe : ∀ start, s.rescan.start = some start → start ≤ s.seq
  owedLate : ∀ start, s.rescan.start = some start → ∀ rows ∈ s.owed, ∀ r ∈ rows, ∀ mark,
    s.done r.id = some mark → start < mark
  quiet : s.started = false → s.lock = none ∧ s.rescan = .idle

def Keeps (s s' : State N P) : Prop :=
  ∀ start r, start ≤ s.seq + 1 → Followed s start r → Followed s' start r

variable {after before : List (Flight N P)} {committed : Bool} {f : Flight N P} {place : Place}
  {r : Row N P} {s' : State N P} {p : Prop} {log : List Event} {start : ℕ} {rescan : Rescan N P}

/-- A step that changes neither the rows in flight nor what is gone. -/
theorem keeps_of_same {s : State N P} (houtbox : ∀ r ∈ s.outbox, r ∈ s'.outbox)
    (hgone : ∀ id, Gone s'.log id ↔ Gone s.log id) (hids : ∀ id ∈ s.ids, id ∈ s'.ids)
    (hdone : s'.done = s.done) : Keeps s s' := by
  intro start r _ h
  refine ⟨?_, ?_⟩
  · rcases h.1 with hr | hr
    · exact .inl (houtbox r hr)
    · exact .inr ((hgone r.id).mpr hr)
  · intro hr
    rcases h.2 ((hgone r.id).mp hr) with hid | hmark
    · exact .inl (hids r.id hid)
    · rw [hdone]
      exact .inr hmark

theorem ids_move (s : State N P) (hflight : s.flight = before ++ f :: after) (place : Place) :
    (before ++ ⟨place, f.row⟩ :: after).map (fun g => g.row.id) = s.ids := by
  unfold State.ids
  simp [hflight]

variable {conf : Config N P} {s : State N P}

theorem Core.alone (h : Core conf s) (hflight : s.flight = before ++ f :: after) :
    f.row.id ∉ (before ++ after).map (fun g => g.row.id) ∧
      ((before ++ after).map (fun g => g.row.id)).Nodup := by
  have hnodup := h.flightIds
  unfold State.ids at hnodup
  rw [hflight, List.map_append, List.map_cons, List.nodup_middle, ← List.map_append] at hnodup
  exact List.nodup_cons.mp hnodup

/-- A row in flight whose completion has not committed is still in the table. -/
theorem Core.not_gone (h : Core conf s) (hf : f ∈ s.flight) (hplace : f.place ≠ .ended true) :
    ¬ Gone s.log f.row.id :=
  h.outboxKept _ (h.flightKept f hf hplace)

theorem absurd_started (hstarted : s.started = true) (hs : s.started = false) : p := by
  rw [hstarted] at hs
  cases hs

theorem Core.started (h : Core conf s) (hf : f ∈ s.flight) : s.started = true := by
  by_contra hs
  rw [(h.unstarted (Bool.not_eq_true _ ▸ hs)).1] at hf
  cases hf

/-- Moving a row in flight to another place, with an event that completes nothing. -/
theorem Core.move (h : Core conf s) (hflight : s.flight = before ++ f :: after)
    (hf : f.place ≠ .ended true) (hplace : place ≠ .ended true) (horphan : place ≠ .orphan)
    (hgone : ∀ id, Gone log id ↔ Gone s.log id) (hlog : ∀ e ∈ s.log, e ∈ log)
    (hordered : Ordered log)
    (hhanded : ∀ m last, place = .working (m + 1) last → .handed f.row.id ∈ log) :
    Core conf { s with flight := before ++ ⟨place, f.row⟩ :: after, log := log } := by
  have hmem : ∀ g ∈ before ++ (⟨place, f.row⟩ : Flight N P) :: after,
      g ∈ s.flight ∨ g = ⟨place, f.row⟩ := by
    intro g hg
    rw [hflight]
    simp only [List.mem_append, List.mem_cons] at hg ⊢
    tauto
  have hfmem : f ∈ s.flight := by simp [hflight]
  have hids := ids_move s hflight place
  refine ⟨h.outboxIds, h.outboxOld, ?_, ?_, ?_, ?_, ?_, ?_, ?_, ?_, ?_, ?_, hordered⟩
  · intro r hr hg
    exact h.outboxKept r hr ((hgone r.id).mp hg)
  · intro id hg
    exact h.goneOld id ((hgone id).mp hg)
  · show ((before ++ (⟨place, f.row⟩ : Flight N P) :: after).map (fun g => g.row.id)).Nodup
    rw [hids]
    exact h.flightIds
  · intro id
    exact (h.flightPending id).trans (by rw [← hids]; rfl)
  · intro g hg hne
    rcases hmem g hg with hg | rfl
    · exact h.flightKept g hg hne
    · exact h.flightKept f hfmem hf
  · intro g hg hended
    rcases hmem g hg with hg | rfl
    · exact (hgone g.row.id).mpr (h.flightGone g hg hended)
    · exact absurd hended hplace
  · intro g hg m last hw
    rcases hmem g hg with hg | rfl
    · exact hlog _ (h.flightHanded g hg m last hw)
    · exact hhanded m last hw
  · intro g hg ho
    rcases hmem g hg with hg | rfl
    · exact h.flightOrphan g hg ho
    · exact absurd ho horphan
  · intro id mark hd
    exact ⟨(hgone id).mpr (h.doneGone id mark hd).1, (h.doneGone id mark hd).2⟩
  · exact fun hs => absurd_started (h.started hfmem) hs

/-- A row that is neither pending nor done, with its copy followed, is still in the table. -/
theorem Core.mem_outbox (h : Core conf s) (hr : Followed s start r)
    (hpending : s.pending r.id = false) (hdone : s.done r.id = none) : r ∈ s.outbox := by
  rcases hr.1 with hmem | hgone
  · exact hmem
  · rcases hr.2 hgone with hid | ⟨mark, hmark, -⟩
    · rw [(h.flightPending r.id).mpr hid] at hpending
      cases hpending
    · rw [hdone] at hmark
      cases hmark

theorem Core.launch (h : Core conf s) (hstarted : s.started = true) (hr : r ∈ s.outbox)
    (hpending : s.pending r.id = false) (hplace : place = .queued ∨ place = .orphan)
    (horphan : place = .orphan → r.notifier ∉ conf.notifiers) : Core conf (s.launch place r) := by
  have hmem : ∀ g ∈ s.flight ++ [(⟨place, r⟩ : Flight N P)], g ∈ s.flight ∨ g = ⟨place, r⟩ := by
    intro g hg
    simpa using hg
  have hids : (s.launch place r).ids = s.ids ++ [r.id] := by
    simp [State.ids, State.launch]
  have hfresh : r.id ∉ s.ids := by
    intro hid
    rw [(h.flightPending r.id).mpr hid] at hpending
    cases hpending
  refine ⟨h.outboxIds, h.outboxOld, h.outboxKept, h.goneOld, ?_, ?_, ?_, ?_, ?_, ?_, h.doneGone, ?_,
    h.ordered⟩
  · rw [hids]
    exact List.nodup_append.mpr ⟨h.flightIds, List.nodup_singleton _, by
      intro a ha b hb hab
      rw [hab, List.mem_singleton.mp hb] at ha
      exact hfresh ha⟩
  · intro id
    rw [hids, List.mem_append, ← h.flightPending id]
    simp only [State.launch]
    by_cases hid : id = r.id
    · simp [hid]
    · simp [hid]
  · intro g hg hne
    rcases hmem g hg with hg | rfl
    · exact h.flightKept g hg hne
    · exact hr
  · intro g hg hended
    rcases hmem g hg with hg | rfl
    · exact h.flightGone g hg hended
    · have hended : place = .ended true := hended
      rcases hplace with hp | hp <;> rw [hp] at hended <;> cases hended
  · intro g hg m last hw
    rcases hmem g hg with hg | rfl
    · exact h.flightHanded g hg m last hw
    · have hw : place = .working (m + 1) last := hw
      rcases hplace with hp | hp <;> rw [hp] at hw <;> cases hw
  · intro g hg ho
    rcases hmem g hg with hg | rfl
    · exact h.flightOrphan g hg ho
    · exact horphan ho
  · exact fun hs => absurd_started hstarted hs

/-- A committed completion: the row leaves the table while it is still in flight. -/
theorem Core.complete (h : Core conf s) (hflight : s.flight = before ++ f :: after)
    (hf : f.place ≠ .ended true) (err : Option Failure) (attempts : ℕ) :
    Core conf { s.completeOutbox f.row.id err attempts with
                flight := before ++ ⟨.ended true, f.row⟩ :: after } := by
  have hids := ids_move s hflight (.ended true)
  have hfmem : f ∈ s.flight := by simp [hflight]
  have hmem : ∀ g ∈ before ++ (⟨.ended true, f.row⟩ : Flight N P) :: after, g.place ≠ .ended true →
      g ∈ s.flight ∧ g.row.id ≠ f.row.id := by
    intro g hg hne
    have hother : g ∈ before ++ after := by
      rcases List.mem_append.mp hg with hg | hg
      · exact List.mem_append_left _ hg
      · rcases List.mem_cons.mp hg with rfl | hg
        · exact absurd rfl hne
        · exact List.mem_append_right _ hg
    refine ⟨?_, fun heq => (h.alone hflight).1 (heq ▸ List.mem_map_of_mem hother)⟩
    rw [hflight]
    simp only [List.mem_append] at hother ⊢
    tauto
  have hold : f.row.id < s.nextId := h.outboxOld _ (h.flightKept f hfmem hf)
  refine ⟨?_, ?_, ?_, ?_, ?_, ?_, ?_, ?_, ?_, ?_, ?_, ?_, ?_⟩
  · exact h.outboxIds.sublist (List.Sublist.map _ List.filter_sublist)
  · intro r hr
    exact h.outboxOld r (List.mem_of_mem_filter hr)
  · intro r hr hg
    obtain ⟨hr, hne⟩ := List.mem_filter.mp hr
    rcases gone_completed.mp hg with hg | hid
    · exact h.outboxKept r hr hg
    · exact of_decide_eq_true hne hid
  · intro id hg
    rcases gone_completed.mp hg with hg | rfl
    · exact h.goneOld id hg
    · exact hold
  · show ((before ++ (⟨.ended true, f.row⟩ : Flight N P) :: after).map (fun g => g.row.id)).Nodup
    rw [hids]
    exact h.flightIds
  · intro id
    exact (h.flightPending id).trans (by rw [← hids]; rfl)
  · intro g hg hne
    obtain ⟨hgmem, hid⟩ := hmem g hg hne
    exact List.mem_filter.mpr ⟨h.flightKept g hgmem hne, decide_eq_true hid⟩
  · intro g hg hended
    refine gone_completed.mpr ?_
    rcases List.mem_append.mp hg with hg | hg
    · exact .inl (h.flightGone g (by simp [hflight, hg]) hended)
    · rcases List.mem_cons.mp hg with rfl | hg
      · exact .inr rfl
      · exact .inl (h.flightGone g (by simp [hflight, hg]) hended)
  · intro g hg m last hw
    have hgmem := (hmem g hg (by rw [hw]; exact nofun)).1
    exact List.mem_append_left _ (h.flightHanded g hgmem m last hw)
  · intro g hg ho
    exact h.flightOrphan g (hmem g hg (by rw [ho]; exact nofun)).1 ho
  · intro id mark hd
    obtain ⟨hg, hle⟩ := h.doneGone id mark hd
    exact ⟨gone_completed.mpr (.inl hg), hle⟩
  · exact fun hs => absurd_started (h.started hfmem) hs
  · exact h.ordered.concat _ nofun

theorem keeps_complete (hflight : s.flight = before ++ f :: after) (err : Option Failure)
    (attempts : ℕ) :
    Keeps s { s.completeOutbox f.row.id err attempts with
              flight := before ++ ⟨.ended true, f.row⟩ :: after } := by
  intro start r _ h
  have hids := ids_move s hflight (.ended true)
  refine ⟨?_, ?_⟩
  · rcases h.1 with hr | hr
    · by_cases hid : r.id = f.row.id
      · exact .inr (gone_completed.mpr (.inr hid))
      · exact .inl (List.mem_filter.mpr ⟨hr, decide_eq_true hid⟩)
    · exact .inr (gone_completed.mpr (.inl hr))
  · intro hg
    rcases gone_completed.mp hg with hg | hid
    · rcases h.2 hg with hmem | hmark
      · refine .inl ?_
        show r.id ∈ (before ++ (⟨.ended true, f.row⟩ : Flight N P) :: after).map (fun g => g.row.id)
        rw [hids]
        exact hmem
      · exact .inr hmark
    · refine .inl ?_
      show r.id ∈ (before ++ (⟨.ended true, f.row⟩ : Flight N P) :: after).map (fun g => g.row.id)
      simp [hid]

theorem Core.release (h : Core conf s)
    (hflight : s.flight = before ++ ⟨.ended committed, r⟩ :: after) :
    Core conf { s.release r.id committed with flight := before ++ after } := by
  have hmem : (⟨.ended committed, r⟩ : Flight N P) ∈ s.flight := by simp [hflight]
  have hsub : ∀ g ∈ before ++ after, g ∈ s.flight := by
    intro g hg
    rw [hflight]
    simp only [List.mem_append] at hg ⊢
    tauto
  obtain ⟨hfresh, hrest⟩ := h.alone hflight
  have hids : ∀ id, id ∈ s.ids ↔ id = r.id ∨ id ∈ (before ++ after).map (fun g => g.row.id) := by
    intro id
    unfold State.ids
    rw [hflight]
    simp only [List.map_append, List.map_cons, List.mem_append, List.mem_cons]
    tauto
  refine ⟨h.outboxIds, h.outboxOld, h.outboxKept, h.goneOld, hrest, ?_, ?_, ?_, ?_, ?_, ?_, ?_,
    h.ordered⟩
  · intro id
    show Function.update s.pending r.id false id = true ↔
      id ∈ (before ++ after).map (fun g => g.row.id)
    by_cases hid : id = r.id
    · subst hid
      simp only [Function.update_self, Bool.false_eq_true, false_iff]
      exact hfresh
    · rw [Function.update_of_ne hid, h.flightPending id, hids id]
      simp [hid]
  · intro g hg hne
    exact h.flightKept g (hsub g hg) hne
  · intro g hg hended
    exact h.flightGone g (hsub g hg) hended
  · intro g hg m last hw
    exact h.flightHanded g (hsub g hg) m last hw
  · intro g hg ho
    exact h.flightOrphan g (hsub g hg) ho
  · intro id mark hd
    cases committed with
    | false => exact h.doneGone id mark hd
    | true =>
      have hd : Function.update s.done r.id (some (s.seq + 1)) id = some mark := hd
      by_cases hid : id = r.id
      · subst hid
        rw [Function.update_self, Option.some.injEq] at hd
        exact ⟨h.flightGone ⟨.ended true, r⟩ hmem rfl, Nat.le_of_eq hd.symm⟩
      · rw [Function.update_of_ne hid] at hd
        obtain ⟨hg, hle⟩ := h.doneGone id mark hd
        exact ⟨hg, Nat.le_succ_of_le hle⟩
  · exact fun hs => absurd_started (h.started hmem) hs

theorem Core.keeps_release (h : Core conf s)
    (hflight : s.flight = before ++ ⟨.ended committed, r⟩ :: after) :
    Keeps s { s.release r.id committed with flight := before ++ after } := by
  intro start q hstart hq
  refine ⟨hq.1, fun hg => ?_⟩
  have hmem : (⟨.ended committed, r⟩ : Flight N P) ∈ s.flight := by simp [hflight]
  by_cases hid : q.id = r.id
  · cases committed with
    | false => exact absurd (hid ▸ hg) (h.not_gone hmem nofun)
    | true =>
      refine .inr ⟨s.seq + 1, ?_, hstart⟩
      show Function.update s.done r.id (some (s.seq + 1)) q.id = some (s.seq + 1)
      rw [hid, Function.update_self]
  · rcases hq.2 hg with hmem | ⟨mark, hmark, hle⟩
    · refine .inl ?_
      unfold State.ids at hmem
      rw [hflight, List.map_append, List.map_cons, List.mem_append, List.mem_cons] at hmem
      show q.id ∈ (before ++ after).map (fun g => g.row.id)
      rw [List.map_append, List.mem_append]
      tauto
    · refine .inr ⟨mark, ?_, hle⟩
      cases committed with
      | false => exact hmark
      | true =>
        show Function.update s.done r.id (some (s.seq + 1)) q.id = some mark
        rw [Function.update_of_ne hid]
        exact hmark

theorem Core.commit (h : Core conf s) (notes : List (N × P)) (owed : List (List (Row N P))) :
    Core conf { s with outbox := s.outbox ++ numbered s.nextId notes,
                       nextId := s.nextId + notes.length, owed := owed } := by
  refine ⟨?_, ?_, ?_, ?_, h.flightIds, h.flightPending, ?_, h.flightGone, h.flightHanded,
    h.flightOrphan, h.doneGone, h.unstarted, h.ordered⟩
  · rw [List.map_append]
    refine List.nodup_append.mpr ⟨h.outboxIds, nodup_numbered _ _, ?_⟩
    intro a ha b hb hab
    obtain ⟨r, hr, hra⟩ := List.mem_map.mp ha
    obtain ⟨q, hq, hqb⟩ := List.mem_map.mp hb
    have hlt := h.outboxOld r hr
    have hle := (mem_numbered hq).1
    omega
  · intro r hr
    rcases List.mem_append.mp hr with hr | hr
    · exact Nat.lt_add_right _ (h.outboxOld r hr)
    · exact (mem_numbered hr).2
  · intro r hr hg
    rcases List.mem_append.mp hr with hr | hr
    · exact h.outboxKept r hr hg
    · exact absurd (h.goneOld r.id hg) (Nat.not_lt.mpr (mem_numbered hr).1)
  · intro id hg
    exact Nat.lt_add_right _ (h.goneOld id hg)
  · intro f hf hne
    exact List.mem_append_left _ (h.flightKept f hf hne)

theorem sameLock (s : State N P) (caller : Caller) (rows : List (Row N P))
    (h : s.lock = some (caller, rows)) :
    ∃ rows', s.lock = some (caller, rows') ∧ ∀ r ∈ rows, r ∈ rows' :=
  ⟨rows, h, fun _ hr => hr⟩

/-- The step rule of the invariant for steps that take no new copies of rows. -/
theorem Inv.next (h : Inv conf s) (hcore : Core conf s') (hkeeps : Keeps s s')
    (howed : ∀ rows ∈ s'.owed, rows ∈ s.owed)
    (hlock : ∀ caller rows, s'.lock = some (caller, rows) →
      ∃ rows', s.lock = some (caller, rows') ∧ ∀ r ∈ rows, r ∈ rows')
    (hrescan : s'.rescan = s.rescan) (hseq : s.seq ≤ s'.seq)
    (hquiet : s'.started = false → s'.lock = none ∧ s'.rescan = .idle)
    (hmark : ∀ id mark, s'.done id = some mark → s.done id = some mark ∨ s.seq < mark) :
    Inv conf s' := by
  refine { hcore with owed := ?_, lock := ?_, copies := ?_, startLe := ?_, owedLate := ?_,
                      quiet := hquiet }
  · intro rows hrows r hr
    exact hkeeps 0 r (Nat.zero_le _) (h.owed rows (howed rows hrows) r hr)
  · intro caller rows hrows r hr
    obtain ⟨rows', hlocked, hsub⟩ := hlock caller rows hrows
    exact hkeeps 0 r (Nat.zero_le _) (h.lock caller rows' hlocked r (hsub r hr))
  · rw [hrescan]
    intro start rows hread r hr
    have hle := h.startLe start (by rw [hread]; rfl)
    exact hkeeps (start + 1) r (Nat.succ_le_succ hle) (h.copies start rows hread r hr)
  · rw [hrescan]
    intro start hstart
    exact Nat.le_trans (h.startLe start hstart) hseq
  · rw [hrescan]
    intro start hstart rows hrows r hr mark hdone
    rcases hmark r.id mark hdone with hdone | hlt
    · exact h.owedLate start hstart rows (howed rows hrows) r hr mark hdone
    · exact Nat.lt_of_le_of_lt (h.startLe start hstart) hlt

/-- The same for a step that moves one row in flight and logs an event that completes nothing. -/
theorem Inv.move (h : Inv conf s) (hflight : s.flight = before ++ f :: after)
    (hf : f.place ≠ .ended true) (hplace : place ≠ .ended true) (horphan : place ≠ .orphan)
    (hgone : ∀ id, Gone log id ↔ Gone s.log id) (hlog : ∀ e ∈ s.log, e ∈ log)
    (hordered : Ordered log)
    (hhanded : ∀ m last, place = .working (m + 1) last → .handed f.row.id ∈ log) :
    Inv conf { s with flight := before ++ ⟨place, f.row⟩ :: after, log := log } := by
  refine h.next (h.toCore.move hflight hf hplace horphan hgone hlog hordered hhanded) ?_
    (fun _ hrows => hrows) (sameLock s) rfl (Nat.le_refl _) h.quiet
    (fun _ _ hd => .inl hd)
  refine keeps_of_same (fun _ hr => hr) hgone ?_ rfl
  intro id hid
  rw [← ids_move s hflight place] at hid
  exact hid

theorem Inv.run (h : Inv conf s) (hstarted : s.started = false) :
    Inv conf { s with started := true, flight := [], pending := fun _ => false, done :=
      fun _ => none } := by
  obtain ⟨hflight, hdone⟩ := h.unstarted hstarted
  have hids : s.ids = [] := by rw [State.ids, hflight]; rfl
  have hpending : ∀ id, s.pending id = false := by
    intro id
    rw [← Bool.not_eq_true, h.flightPending id, hids]
    exact List.not_mem_nil
  have hsame : ({ s with started := true, flight := [], pending := fun _ => false,
                         done := fun _ => none } : State N P) = { s with started := true } := by
    rw [← hflight, ← funext hpending, ← funext hdone]
  rw [hsame]
  exact h.next { h.toCore with unstarted := nofun } (fun _ _ _ hq => hq)
    (fun _ hrows => hrows) (sameLock s) rfl (Nat.le_refl _)
    nofun (fun _ _ hd => .inl hd)

theorem Inv.commit (h : Inv conf s) (notes : List (N × P)) :
    Inv conf { s with outbox := s.outbox ++ numbered s.nextId notes,
                      nextId := s.nextId + notes.length,
                      owed := s.owed ++ [numbered s.nextId notes] } := by
  have hkeeps : Keeps s { s with outbox := s.outbox ++ numbered s.nextId notes,
                                 nextId := s.nextId + notes.length,
                                 owed := s.owed ++ [numbered s.nextId notes] } :=
    keeps_of_same (fun r hr => List.mem_append_left _ hr) (fun _ => Iff.rfl) (fun _ hid => hid) rfl
  have hfresh : ∀ r ∈ numbered s.nextId notes, ¬ Gone s.log r.id := by
    intro r hr hg
    exact absurd (h.goneOld r.id hg) (Nat.not_lt.mpr (mem_numbered hr).1)
  refine { h.toCore.commit notes _ with owed := ?_, lock := ?_, copies := ?_, startLe := h.startLe,
                                        owedLate := ?_, quiet := h.quiet }
  · intro rows hrows r hr
    rcases List.mem_append.mp hrows with hrows | hrows
    · exact hkeeps 0 r (Nat.zero_le _) (h.owed rows hrows r hr)
    · rw [List.mem_singleton.mp hrows] at hr
      exact ⟨.inl (List.mem_append_right _ hr), fun hg => absurd hg (hfresh r hr)⟩
  · intro caller rows hrows r hr
    exact hkeeps 0 r (Nat.zero_le _) (h.lock caller rows hrows r hr)
  · intro start rows hread r hr
    have hle := h.startLe start (by rw [hread]; rfl)
    exact hkeeps (start + 1) r (Nat.succ_le_succ hle) (h.copies start rows hread r hr)
  · intro start hstart rows hrows r hr mark hd
    rcases List.mem_append.mp hrows with hrows | hrows
    · exact h.owedLate start hstart rows hrows r hr mark hd
    · rw [List.mem_singleton.mp hrows] at hr
      exact absurd (h.doneGone r.id mark hd).1 (hfresh r hr)

/-- An `Enqueue` takes the lock with the rows of its commit. -/
theorem Inv.enqueueOwed (h : Inv conf s) {before after : List (List (Row N P))}
    {rows : List (Row N P)}
    (howed : s.owed = before ++ rows :: after) (hstarted : s.started = true) :
    Inv conf { s with owed := before ++ after, lock := some (.committer, rows) } := by
  have hsub : ∀ batch ∈ before ++ after, batch ∈ s.owed := by
    intro batch hbatch
    rw [howed]
    simp only [List.mem_append] at hbatch ⊢
    tauto
  refine { h.toCore with
    owed := fun batch hbatch => h.owed batch (hsub batch hbatch), lock := ?_, copies := h.copies
    startLe := h.startLe
    owedLate := fun start hstart batch hbatch => h.owedLate start hstart batch (hsub batch hbatch)
    quiet := ?_ }
  · intro caller batch hbatch r hr
    cases hbatch
    exact h.owed rows (by simp [howed]) r hr
  · exact fun hs => absurd_started hstarted hs

theorem Inv.rescanStart (h : Inv conf s) (hstarted : s.started = true)
    (hprompt : ∀ rows ∈ s.owed, ∀ r ∈ rows, s.done r.id = none) :
    Inv conf { s with rescan := .started s.seq } := by
  refine { h.toCore with
    owed := h.owed, lock := h.lock, copies := nofun
    startLe := ?_, owedLate := ?_, quiet := ?_ }
  · intro start hstart
    cases hstart
    exact Nat.le_refl _
  · intro start _ rows hrows r hr mark hd
    rw [show s.done r.id = none from hprompt rows hrows r hr] at hd
    cases hd
  · exact fun hs => absurd_started hstarted hs

/-- A rescan goes on, or ends, with copies that are followed. -/
theorem Inv.rescanOn (h : Inv conf s) {lock : Option (Caller × List (Row N P))}
    (hstart : ∀ start, rescan.start = some start → s.rescan.start = some start)
    (hcopies : ∀ start rows, rescan = .read start rows → ∀ r ∈ rows, Followed s (start + 1) r)
    (hlock : ∀ caller rows, lock = some (caller, rows) → ∀ r ∈ rows, Followed s 0 r)
    (hquiet : s.started = false → lock = none ∧ rescan = .idle) :
    Inv conf { s with rescan := rescan, lock := lock } :=
  { h.toCore with
    owed := h.owed, lock := hlock, copies := hcopies
    startLe := fun start ht => h.startLe start (hstart start ht)
    owedLate := fun start ht => h.owedLate start (hstart start ht)
    quiet := hquiet }

theorem Inv.started_of_rescan (h : Inv conf s) (hrescan : s.rescan = rescan)
    (hbusy : rescan ≠ .idle) (hs : s.started = false) : p :=
  absurd (hrescan.symm.trans (h.quiet hs).2) hbusy

/-- The purge spares the marks of commits that are still owed: they are younger than this rescan. -/
theorem Inv.rescanPurge (h : Inv conf s) (hrescan : s.rescan = .enqueued start)
    (hlock : s.lock = none) :
    Inv conf { s.purge start with rescan := .idle } := by
  have hstart : s.rescan.start = some start := by rw [hrescan]; rfl
  have hpurged : ∀ id mark, (s.purge start).done id = some mark → s.done id = some mark := by
    intro id mark hd
    exact (Option.filter_eq_some_iff.mp hd).1
  refine { h.toCore with
    owed := ?_, lock := ?_, copies := nofun
    doneGone := fun id mark hd => h.doneGone id mark (hpurged id mark hd)
    unstarted := ?_
    startLe := nofun
    owedLate := nofun
    quiet := fun hs => ⟨(h.quiet hs).1, rfl⟩ }
  · intro hs
    refine ⟨(h.unstarted hs).1, fun id => ?_⟩
    show (s.done id).filter _ = none
    rw [(h.unstarted hs).2 id]
    rfl
  · intro rows hrows r hr
    obtain ⟨hknown, hseen⟩ := h.owed rows hrows r hr
    refine ⟨hknown, fun hg => ?_⟩
    rcases hseen hg with hid | ⟨mark, hmark, hle⟩
    · exact .inl hid
    · have hlate := h.owedLate start hstart rows hrows r hr mark hmark
      exact .inr ⟨mark, Option.filter_eq_some_iff.mpr ⟨hmark, decide_eq_true hlate⟩, hle⟩
  · intro caller rows hrows
    have hrows : s.lock = some (caller, rows) := hrows
    rw [hlock] at hrows
    cases hrows

theorem Inv.released (h : Inv conf s)
    (hflight : s.flight = before ++ ⟨.ended committed, r⟩ :: after) :
    Inv conf { s.release r.id committed with flight := before ++ after } := by
  refine h.next (h.toCore.release hflight) (h.toCore.keeps_release hflight) (fun _ hrows => hrows)
    (sameLock s) rfl ?_ h.quiet ?_
  · cases committed with
    | false => exact Nat.le_refl _
    | true => exact Nat.le_succ _
  · intro id mark hd
    cases committed with
    | false => exact .inl hd
    | true =>
      have hd : Function.update s.done r.id (some (s.seq + 1)) id = some mark := hd
      by_cases hid : id = r.id
      · subst hid
        rw [Function.update_self, Option.some.injEq] at hd
        exact .inr (hd ▸ Nat.lt_succ_self _)
      · rw [Function.update_of_ne hid] at hd
        exact .inl hd

theorem Core.idle (h : Core conf s) (hr : r ∈ s.outbox) :
    s.done r.id = none ∧ (r.id ∉ s.ids → s.pending r.id = false) := by
  constructor
  · cases hd : s.done r.id with
    | none => rfl
    | some mark => exact absurd (h.doneGone r.id mark hd).1 (h.outboxKept r hr)
  · intro hid
    rw [← Bool.not_eq_true, h.flightPending r.id]
    exact hid

theorem inv_of_initial (h : Initial s) : Inv conf s := by
  have hids : s.ids = [] := by rw [State.ids, h.flight]; rfl
  have hgone : ∀ id, ¬ Gone s.log id := by rw [h.log]; exact gone_nil
  refine { outboxIds := h.ids, outboxOld := h.old, outboxKept := fun r _ => hgone r.id, goneOld :=
    ?_,
           flightIds := ?_, flightPending := ?_, flightKept := ?_, flightGone :=
             ?_, flightHanded := ?_,
           flightOrphan := ?_, doneGone := ?_, unstarted := ?_, ordered := ?_, owed := ?_, lock :=
             ?_,
           copies := ?_, startLe := ?_, owedLate := ?_, quiet := ?_ }
  · exact fun id hg => absurd hg (hgone id)
  · rw [hids]
    exact List.nodup_nil
  · intro id
    rw [hids, h.pending id]
    simp
  · rw [h.flight]
    exact nofun
  · rw [h.flight]
    exact nofun
  · rw [h.flight]
    exact nofun
  · rw [h.flight]
    exact nofun
  · intro id mark hd
    rw [h.done id] at hd
    cases hd
  · exact fun _ => ⟨h.flight, h.done⟩
  · rw [h.log]
    exact List.Pairwise.nil
  · rw [h.owed]
    exact nofun
  · rw [h.lock]
    exact nofun
  · rw [h.rescan]
    exact nofun
  · rw [h.rescan]
    exact nofun
  · rw [h.rescan]
    exact nofun
  · exact fun _ => ⟨h.lock, h.rescan⟩

section Runs

variable [DecidableEq N] {s' : State N P}

/-- A turn keeps the invariant of the part it works on. -/
theorem Core.turn (h : Core conf s) (hstarted : s.started = true) (hr : Followed s 0 r) :
    Core conf (s.enqueueRow conf r) ∧ Keeps s (s.enqueueRow conf r) := by
  have hlaunched : ∀ place, ∀ id ∈ s.ids, id ∈ (s.launch place r).ids := by
    intro place id hid
    rw [show (s.launch place r).ids = s.ids ++ [r.id] by simp [State.ids, State.launch]]
    exact List.mem_append_left _ hid
  rcases enqueueRow_cases conf s
    r with ⟨-, heq⟩ | ⟨hpending, hdone, ⟨hconf, heq⟩ | ⟨-, -, heq⟩ | ⟨-, -, heq⟩⟩
  · rw [heq]
    exact ⟨h, fun _ _ _ hq => hq⟩
  · rw [heq]
    exact ⟨h.launch hstarted (h.mem_outbox hr hpending hdone) hpending (.inr rfl) (fun _ => hconf),
      keeps_of_same (fun _ hq => hq) (fun _ => Iff.rfl) (hlaunched _) rfl⟩
  · rw [heq]
    exact ⟨h.launch hstarted (h.mem_outbox hr hpending hdone) hpending (.inl rfl) nofun,
      keeps_of_same (fun _ hq => hq) (fun _ => Iff.rfl) (hlaunched _) rfl⟩
  · rw [heq]
    refine ⟨{ h with
        outboxKept := fun q hq hg => h.outboxKept q hq (gone_full.mp hg)
        goneOld := fun id hg => h.goneOld id (gone_full.mp hg)
        flightGone := fun f hf he => gone_full.mpr (h.flightGone f hf he)
        flightHanded := fun f hf m last hw => List.mem_append_left _ (h.flightHanded f hf m last hw)
        doneGone := fun id mark hd => ⟨gone_full.mpr (h.doneGone id mark hd).1,
          (h.doneGone id mark hd).2⟩
        ordered := h.ordered.concat _ nofun },
      keeps_of_same (fun _ hq => hq) (fun _ => gone_full) (fun _ hid => hid) rfl⟩

theorem Inv.turn (h : Inv conf s) {caller : Caller} {rows : List (Row N P)}
    (hlock : s.lock = some (caller, r :: rows)) :
    Inv conf { s.enqueueRow conf r with lock := some (caller, rows) } := by
  have hstarted : s.started = true := by
    by_contra hs
    rw [(h.quiet (Bool.not_eq_true _ ▸ hs)).1] at hlock
    cases hlock
  obtain ⟨hcore, hkeeps⟩ := h.toCore.turn hstarted (h.lock caller _ hlock r List.mem_cons_self)
  obtain ⟨howed, hrescan, hseq, hsame, hdone, -⟩ := enqueueRow_frame conf s r
  refine h.next { hcore with } hkeeps ?_ ?_ hrescan (Nat.le_of_eq hseq.symm) ?_ ?_
  · intro owed hmem
    exact howed ▸ hmem
  · intro c rest hrest
    cases hrest
    exact ⟨r :: rows, hlock, fun q hq => List.mem_cons_of_mem _ hq⟩
  · exact fun hs => absurd_started (hsame.trans hstarted) hs
  · intro id mark hd
    exact .inl (hdone ▸ hd)

theorem Inv.step (h : Inv conf s) (hs : Step conf s s') : Inv conf s' := by
  cases hs with
  | run hstarted => exact h.run hstarted
  | commit notes => exact h.commit notes
  | enqueueEarly before after rows howed hstarted =>
    refine h.next { h.toCore with } (fun _ _ _ hq => hq) ?_ (sameLock s) rfl (Nat.le_refl _) h.quiet
      (fun _ _ hd => .inl hd)
    intro rows hrows
    rw [howed]
    simp only [List.mem_append] at hrows ⊢
    tauto
  | enqueueOwed before after rows howed hstarted hlock => exact h.enqueueOwed howed hstarted
  | rescanStart hstarted hlock hidle hprompt => exact h.rescanStart hstarted hprompt
  | rescanRead start hrescan =>
    refine h.rescanOn ?_ ?_ h.lock (h.started_of_rescan hrescan nofun)
    · exact fun t ht => hrescan ▸ ht
    · intro t rows hread r hr
      cases hread
      exact ⟨.inl hr, fun hg => absurd hg (h.outboxKept r hr)⟩
  | rescanFail start hrescan =>
    exact h.rescanOn nofun nofun h.lock (fun hs => ⟨(h.quiet hs).1, rfl⟩)
  | rescanEnqueue start rows hrescan hlock =>
    refine h.rescanOn ?_ nofun ?_ (h.started_of_rescan hrescan nofun)
    · exact fun t ht => hrescan ▸ ht
    · intro caller batch hbatch r hr
      cases hbatch
      obtain ⟨hknown, hseen⟩ := h.copies start rows hrescan r hr
      refine ⟨hknown, fun hg => ?_⟩
      rcases hseen hg with hid | ⟨mark, hmark, -⟩
      · exact .inl hid
      · exact .inr ⟨mark, hmark, Nat.zero_le _⟩
  | turn caller r rows hlock => exact h.turn hlock
  | unlock hlock =>
    exact h.next { h.toCore with } (fun _ _ _ hq => hq) (fun _ hrows => hrows)
      nofun rfl (Nat.le_refl _) (fun hs => ⟨rfl, (h.quiet hs).2⟩)
      (fun _ _ hd => .inl hd)
  | rescanUnlock start hrescan hlock =>
    refine h.rescanOn ?_ nofun nofun (h.started_of_rescan hrescan nofun)
    exact fun t ht => hrescan ▸ ht
  | rescanPurge start hrescan hlock => exact h.rescanPurge hrescan hlock
  | take before after r hflight holdest hfree hrunning =>
    exact h.move hflight nofun nofun nofun (fun _ => Iff.rfl) (fun _ he => he) h.ordered nofun
  | attempt before after r m last answer hflight hreadable hagain =>
    have hmem : (⟨.working m last, r⟩ : Flight N P) ∈ s.flight := by simp [hflight]
    have hkept := h.toCore.not_gone hmem nofun
    refine h.move hflight nofun nofun nofun
      (fun _ => gone_handed) (fun _ he => List.mem_append_left _ he) (h.ordered.concat _ ?_) ?_
    · intro id hid
      cases hid
      exact hkept
    · intro _ _ _
      exact List.mem_append_right _ (List.mem_singleton.mpr rfl)
  | stop n hfree =>
    exact h.next { h.toCore with } (fun _ _ _ hq => hq) (fun _ hrows => hrows)
      (sameLock s) rfl (Nat.le_refl _) h.quiet (fun _ _ hd => .inl hd)
  | leave before after r m last hflight =>
    have hmoved : Inv conf { s with flight := before ++ ⟨.left, r⟩ :: after, log := s.log } :=
      h.move hflight nofun nofun nofun (fun _ => Iff.rfl) (fun _ he => he) h.ordered nofun
    exact hmoved.next { hmoved.toCore with } (fun _ _ _ hq => hq) (fun _ hrows => hrows)
      (sameLock s) rfl (Nat.le_refl _) h.quiet (fun _ _ hd => .inl hd)
  | completeCommit before after f err attempts hflight hverdict =>
    exact h.next (h.toCore.complete hflight (verdict_place hverdict) err attempts)
      (keeps_complete hflight err attempts) (fun _ hrows => hrows)
      (sameLock s) rfl (Nat.le_refl _) h.quiet (fun _ _ hd => .inl hd)
  | completeFail before after f err attempts hflight hverdict =>
    exact h.move hflight (verdict_place hverdict) nofun nofun
      (fun _ => gone_unrecorded) (fun _ he => List.mem_append_left _ he)
      (h.ordered.concat _ nofun) nofun
  | released before after r committed hflight hlock => exact h.released hflight

theorem inv_of_reachable (h : Reachable conf s) : Inv conf s := by
  obtain ⟨s₀, hinit, hruns⟩ := h
  induction hruns with
  | refl => exact inv_of_initial hinit
  | tail _ hstep ih => exact ih.step hstep

/-- A step that leaves a row in the table: its queue was full at its turn, or its completion
failed to commit and its flight ended. -/
inductive LeavesBehind (conf : Config N P) (s : State N P) (r : Row N P) : State N P → Prop
  | full (caller : Caller) (rows : List (Row N P)) (hlock : s.lock = some (caller, r :: rows))
      (hpending : s.pending r.id = false) (hdone : s.done r.id = none)
      (hconf : r.notifier ∈ conf.notifiers) (hfull : queueLen ≤ (s.queue r.notifier).length) :
      LeavesBehind conf s r { s.enqueueRow conf r with lock := some (caller, rows) }
  | failed (before after : List (Flight N P))
    (hflight : s.flight = before ++ ⟨.ended false, r⟩ :: after)
      (hlock : s.lock = none) :
      LeavesBehind conf s r { s.release r.id false with flight := before ++ after }

structure Promises (conf : Config N P) (s : State N P) : Prop where
  /-- A row whose completion committed is never handed to a notifier again. -/
  once : Ordered s.log
  /-- No row is in two queues, or in flight twice. -/
  single : s.ids.Nodup
  /-- A row in the table that is not in flight is neither pending nor done. -/
  idle : ∀ r ∈ s.outbox, r.id ∉ s.ids → s.pending r.id = false ∧ s.done r.id = none
  /-- So it is with a row that a full queue or a failed completion leaves behind. -/
  left : ∀ s' r, LeavesBehind conf s r s' →
    r ∈ s'.outbox ∧ r.id ∉ s'.ids ∧ s'.pending r.id = false ∧ s'.done r.id = none
  /-- In a rescan the turn of each row of the table comes, unless it is completed before. -/
  rescanned : ∀ s' start start', s.rescan = .started start → Within conf s s' →
    s'.rescan = .enqueued start' → ∀ r ∈ s.outbox, Gone s'.log r.id ∨
      ∃ u rows, Within conf s u ∧ Within conf u s' ∧ u.lock = some (.rescan, r :: rows)
  /-- A row of the table whose turn finds room is in flight after it. -/
  found : ∀ caller r rows, s.lock = some (caller, r :: rows) → r ∈ s.outbox →
    (r.notifier ∈ conf.notifiers → (s.queue r.notifier).length < queueLen) →
    r.id ∈ (s.enqueueRow conf r).ids
  /-- A row leaves the table after a delivery attempt, or when it has no notifier or cannot be
  read. -/
  leaves : ∀ s', Step conf s s' → ∀ r ∈ s.outbox, r ∉ s'.outbox →
    .handed r.id ∈ s.log ∨ r.notifier ∉ conf.notifiers ∨ conf.readable r.payload = false

theorem Inv.left (h : Inv conf s) (hleft : LeavesBehind conf s r s') :
    r ∈ s'.outbox ∧ r.id ∉ s'.ids := by
  cases hleft with
  | full caller rows hlock hpending hdone hconf hfull =>
    have hmem := h.toCore.mem_outbox (h.lock caller _ hlock r List.mem_cons_self) hpending hdone
    have heq : s.enqueueRow conf r = { s with log := s.log ++ [.full r.id] } := by
      rcases enqueueRow_cases conf s
        r with ⟨hskip, -⟩ | ⟨-, -, ⟨hno, -⟩ | ⟨-, hroom, -⟩ | ⟨-, -, heq⟩⟩
      · rw [hpending, hdone] at hskip
        simp at hskip
      · exact absurd hconf hno
      · exact absurd hfull (Nat.not_le.mpr hroom)
      · exact heq
    rw [heq]
    refine ⟨hmem, fun hid => ?_⟩
    rw [(h.flightPending r.id).mpr hid] at hpending
    cases hpending
  | failed before after hflight hlock =>
    have hmem : (⟨.ended false, r⟩ : Flight N P) ∈ s.flight := by simp [hflight]
    exact ⟨h.flightKept _ hmem nofun, (h.alone hflight).1⟩

theorem LeavesBehind.step (h : LeavesBehind conf s r s') : Step conf s s' := by
  cases h with
  | full caller rows hlock => exact .turn caller r rows hlock
  | failed before after hflight hlock => exact .released before after r false hflight hlock

/-- In every run of the dispatcher, notifications are delivered at least once, and not again
after their completion committed. -/
theorem delivers_at_least_once (conf : Config N P) (s : State N P) (h : Reachable conf s) :
    Promises conf s := by
  have hinv := inv_of_reachable h
  refine ⟨hinv.ordered, hinv.flightIds, ?_, ?_, ?_, ?_, ?_⟩
  · intro r hr hid
    obtain ⟨hdone, hpending⟩ := hinv.toCore.idle hr
    exact ⟨hpending hid, hdone⟩
  · intro s' r hleft
    obtain ⟨hmem, hid⟩ := hinv.left hleft
    obtain ⟨hdone, hpending⟩ := (hinv.step hleft.step).toCore.idle hmem
    exact ⟨hmem, hid, hpending hid, hdone⟩
  · intro s' start start' hstart hwithin hend r hr
    rcases hwithin.turn (.inl ⟨⟨start, hstart⟩, hr⟩) with hahead | hgone | hturn
    · rcases hahead with ⟨⟨_, hrescan⟩, -⟩ | ⟨_, _, hrescan, -⟩ | ⟨_, _, hrescan, -⟩ <;>
        rw [hend] at hrescan <;> cases hrescan
    · exact .inl hgone
    · exact .inr hturn
  · intro caller r rows hlock hr hroom
    have hlaunched : ∀ place, r.id ∈ (s.launch place r).ids := by
      intro place
      simp [State.ids, State.launch]
    rcases enqueueRow_cases conf s
      r with ⟨hskip, heq⟩ | ⟨-, -, ⟨-, heq⟩ | ⟨-, -, heq⟩ | ⟨hconf, hfull, -⟩⟩
    · rw [heq]
      rw [(hinv.toCore.idle hr).1] at hskip
      exact (hinv.flightPending r.id).mp (by simpa using hskip)
    · rw [heq]
      exact hlaunched _
    · rw [heq]
      exact hlaunched _
    · exact absurd (hroom hconf) (Nat.not_lt.mpr hfull)
  · intro s' hstep r hr hgone
    rcases hstep.outbox hr with hkept | ⟨-, f, hf, hid, v, hverdict⟩
    · exact absurd hkept hgone
    · have hrow : f.row = r := by
        have hfr := hinv.flightKept f hf (verdict_place hverdict)
        exact List.inj_on_of_nodup_map hinv.outboxIds hfr hr hid
      rcases verdict_cases hverdict with horphan | hpayload | ⟨m, last, hworking⟩
      · exact .inr (.inl (hrow ▸ hinv.flightOrphan f hf horphan))
      · exact .inr (.inr (hrow ▸ hpayload))
      · exact .inl (hid ▸ hinv.flightHanded f hf m last hworking)

end Runs

def pager : Config String Bool := ⟨["pager"], 2, id⟩

def leftover : Row String Bool := ⟨1, "pager", true⟩

def restarted : State String Bool :=
  { outbox := [leftover], nextId := 2, owed := [], started := false, lock := none, flight := [],
    pending := fun _ => false, done := fun _ => none, seq := 0, rescan := .idle, stopped :=
      [], log := [] }

def requeued : State String Bool :=
  { restarted with
    started := true, rescan := .enqueuing 0, lock := some (.rescan, []), flight :=
      [⟨.queued, leftover⟩]
    pending := Function.update (fun _ => false) 1 true }

theorem requeued_promises : Reachable pager requeued ∧ Promises pager requeued := by
  have hinit : Initial restarted := by
    refine ⟨by decide, by decide, rfl, rfl, rfl, rfl, fun _ => rfl, fun _ => rfl, rfl, rfl⟩
  have hreach : Reachable pager requeued := by
    refine ⟨restarted, hinit, ?_⟩
    refine .tail (.tail (.tail (.tail (.tail .refl (.run rfl)) (.rescanStart rfl rfl rfl ?_))
      (.rescanRead 0 rfl)) (.rescanEnqueue 0 [leftover] rfl rfl)) (.turn .rescan leftover [] rfl)
    intro rows hrows
    cases hrows
  exact ⟨hreach, delivers_at_least_once pager requeued hreach⟩

end Ozymandias.NotifyRuns
