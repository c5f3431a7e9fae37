import Ozymandias.WalRecovery

/-!
Damage behind which something was written. In a file that is not the last the
reader always reports it; in the last file it compares where the damaged record
says it ends with the end of the file, and a damaged length can say anything.
The reader reports the damage exactly when that claimed end is inside the file.
-/

namespace Ozymandias.WalCorruption

open BitLists WalFrame NumberedFiles WalLog WalRecovery

/-- Where the bytes at an offset say their record ends; for a nonsensical header
the farthest end there could be. -/
def claimedEnd (off : ℕ) (tail : List Byte) : ℕ :=
  if tail.getD 4 0 = 0 ∨ maxRecordSize < uint32 tail then off + headerSize + maxRecordSize
  else off + headerSize + uint32 tail

variable {tail : List Byte}

/-- Damage with a whole header is taken for a torn tail exactly when its claimed
end is not inside the file. -/
theorem damaged_of_not_record {off : ℕ} (hlen : headerSize ≤ tail.length)
    (hbad : ∀ x, readRecord off tail ≠ .record x) :
    ∃ cause ends, readRecord off tail = .damaged cause ends ∧
      (off + tail.length ≤ ends ↔ ¬ claimedEnd off tail < off + tail.length) := by
  have hpos : 0 < headerSize := by decide
  unfold readRecord at hbad ⊢
  unfold claimedEnd
  rw [if_neg (by omega), if_neg (by omega)] at hbad ⊢
  by_cases himp : tail.getD 4 0 = 0 ∨ maxRecordSize < uint32 tail
  · rw [if_pos himp, if_pos himp]
    exact ⟨_, _, rfl, by omega⟩
  rw [if_neg himp] at hbad ⊢
  rw [if_neg himp]
  have hbody : (tail.drop headerSize).length = tail.length - headerSize := List.length_drop
  by_cases hshort : (tail.drop headerSize).length < uint32 tail
  · rw [if_pos hshort]
    exact ⟨_, _, rfl, by omega⟩
  rw [if_neg hshort] at hbad ⊢
  by_cases hcrc : (crc32c ((tail.drop headerSize).take (uint32 tail))).toNat ≠ uint32 (tail.drop 5)
  · rw [if_pos hcrc]
    exact ⟨_, _, rfl, by omega⟩
  · rw [if_neg hcrc] at hbad
    exact absurd rfl (hbad _)

/-- The reader stops at the damage, behind the intact records. -/
theorem readFiles_damaged {pre : List Record} (hw : ∀ x ∈ pre, x.Writable)
    {cause : Damage} {ends : ℕ}
    (hread : readRecord (frames pre).length tail = .damaged cause ends) (name : FileName)
    (pos : Position) (rest : List (FileName × List Byte)) :
    readFiles false pos ((name, frames pre ++ tail) :: rest) =
      ⟨pre, if rest.isEmpty && decide ((frames pre ++ tail).length ≤ ends) then none
          else some ⟨name, (frames pre).length, cause⟩,
        ⟨some name, (frames pre).length, segmentNumber name⟩⟩ := by
  have hscan : scanFrom 0 (frames pre ++ tail) =
      ⟨pre, (frames pre).length, some (cause, ends)⟩ := by
    rw [← Nat.zero_add (frames pre).length] at hread
    rw [scanFrom_frames pre hw, scanFrom_damaged hread]
    simp
  rw [readFiles]
  simp only [hscan, Bool.not_false]
  split <;> simp_all

/-- The reader reports the damage and repair refuses to touch the log, after
the intact records and nothing else were yielded. -/
structure Reports (b : Dir (List Byte)) (intact : List Record) (name : FileName) (off : ℕ) :
    Prop where
  records : (readLog b).records = intact
  err : ∃ cause, (readLog b).err = some ⟨name, off, cause⟩ ∧ repair b = .error ⟨name, off, cause⟩

theorem repair_of_err {b : Dir (List Byte)} {e : Corrupt} (h : (readLog b).err = some e) :
    repair b = .error e := by
  unfold repair
  dsimp only
  rw [h]

def overwrite (b : Dir (List Byte)) (m : ℕ) (bytes : List Byte) : Dir (List Byte) :=
  { b with segments := b.segments.put m bytes }

section Damaged

variable {d : Dir (List (List Record))} {older : List (ℕ × List (List Record))} {n : ℕ}
  {newest : List (List Record)} (hd : HoldsCalls d older n newest)
include hd

theorem writable_of_mem {e : ℕ × List (List Record)} (he : e ∈ d.segments.entries) :
    ∀ r ∈ e.2.flatten, r.Writable := by
  intro r hr
  obtain ⟨recs, hrecs, hr⟩ := List.mem_flatten.mp hr
  refine hd.writable (.segment e.1, e.2) ?_ recs hrecs r hr
  exact List.mem_append_right _ (List.mem_map.mpr ⟨e, he, rfl⟩)

variable {back front : List (ℕ × List (List Record))} {calls : List (List Record)} {m : ℕ}

/-- Reading a directory in which one segment file was overwritten. -/
theorem readLog_overwrite (hfile : d.segments.entries = front ++ (m, calls) :: back)
    (hnone : d.checkpoints = Files.empty) (bytes : List Byte) :
    readLog (overwrite (d.map callBytes) m bytes) =
      let r := readFiles false ⟨none, 0, -1⟩
        ((.segment m, bytes) :: back.map (fun e => (.segment e.1, callBytes e.2)))
      ⟨front.flatMap (fun e => e.2.flatten) ++ r.records, r.err, r.pos⟩ := by
  have hbytes : (d.map callBytes).segments.entries = front.map (fun e => (e.1, callBytes e.2)) ++
        (m, callBytes calls) :: back.map (fun e => (e.1, callBytes e.2)) := by
    simp only [Dir.map, Files.map, hfile, List.map_append, List.map_cons]
  have hfiles : (overwrite (d.map callBytes) m bytes).files =
      (front.map (fun e => (FileName.segment e.1, e.2.flatten))).map (fun e => (e.1, frames e.2)) ++
        (.segment m, bytes) :: back.map (fun e => (.segment e.1, callBytes e.2)) := by
    have hcp : (d.map callBytes).checkpoints = Files.empty := by
      change d.checkpoints.map callBytes = _
      rw [hnone]
      rfl
    simp only [Dir.files, overwrite, hcp, Files.entries_put_at _ _ _ _ _ _ hbytes, Files.empty,
      List.map_append, List.map_map, List.map_nil, List.map_cons]
    rfl
  have hw : ∀ e ∈ front.map (fun e => (FileName.segment e.1, e.2.flatten)), ∀ r ∈ e.2,
    r.Writable := by
    intro e he
    obtain ⟨e', he', rfl⟩ := List.mem_map.mp he
    exact writable_of_mem hd (hfile ▸ List.mem_append_left _ he')
  obtain ⟨pos', hread⟩ := readFiles_whole false _ hw ⟨none, 0, -1⟩
    ((.segment m, bytes) :: back.map (fun e => (.segment e.1, callBytes e.2)))
  unfold readLog
  rw [hfiles, hread, List.flatMap_map]
  rfl

theorem reports_iff (hfile : d.segments.entries = front ++ (m, calls) :: back)
    (hnone : d.checkpoints = Files.empty) {pre post : List Record} {r : Record}
    (hrecs : calls.flatten = pre ++ r :: post) {tail : List Byte}
    (hlen : (frames pre ++ tail).length = (callBytes calls).length)
    (hbad : ∀ x, readRecord (frames pre).length tail ≠ .record x) :
    Reports (overwrite (d.map callBytes) m (frames pre ++ tail))
        (front.flatMap (fun e => e.2.flatten) ++ pre) (.segment m) (frames pre).length ↔
      back ≠ [] ∨ claimedEnd (frames pre).length tail < (callBytes calls).length := by
  have hw : ∀ x ∈ pre, x.Writable := by
    intro x hx
    have hmem : (m, calls) ∈ d.segments.entries := hfile ▸ by simp
    exact writable_of_mem hd hmem x (hrecs ▸ List.mem_append_left _ hx)
  have htail : headerSize ≤ tail.length := by
    rw [callBytes, hrecs, frames_append, frames_cons, List.length_append, List.length_append,
      List.length_append, length_frame, Record.frameSize] at hlen
    omega
  obtain ⟨cause, ends, hread, hquiet⟩ := damaged_of_not_record htail hbad
  rw [← List.length_append, hlen] at hquiet
  have hlog := readLog_overwrite hd hfile hnone (frames pre ++ tail)
  rw [readFiles_damaged hw hread, hlen] at hlog
  have hempty : (back.map (fun e => (FileName.segment e.1, callBytes e.2))).isEmpty = true ↔
      back = [] := by
    simp
  constructor
  · rintro ⟨-, cause', herr, -⟩
    by_contra hno
    rw [not_or, not_not] at hno
    rw [hlog] at herr
    rw [if_pos (by simp [hempty.mpr hno.1, hquiet.mpr hno.2])] at herr
    cases herr
  · intro hcond
    have hloud : ¬ ((back.map (fun e => (FileName.segment e.1, callBytes e.2))).isEmpty &&
        decide ((callBytes calls).length ≤ ends)) = true := by
      rw [Bool.and_eq_true, hempty, decide_eq_true_eq, hquiet]
      rintro ⟨hback, hend⟩
      exact hcond.elim (fun h => h hback) hend
    rw [if_neg hloud] at hlog
    have herr : (readLog (overwrite (d.map callBytes) m (frames pre ++ tail))).err =
        some ⟨.segment m, (frames pre).length, cause⟩ := by rw [hlog]
    exact ⟨by rw [hlog], cause, herr, repair_of_err herr⟩

end Damaged

/-- Damage to a log that calls of `Log` produced, from record `r` of segment `m`
on, that does not by coincidence frame a record. It is reported exactly when the
file is not the last one or the damaged record claims to end inside it. -/
theorem corruption_reported_iff (segmentSize : ℤ) (calls : List (List Record))
    (front back : List (ℕ × List Byte)) (m : ℕ) (bytes : List Byte) (pre post : List Record)
    (r : Record) (tail : List Byte)
    (hfile : ((openLog byteFormat segmentSize Dir.empty).logCalls calls).dir.segments.entries =
      front ++ (m, bytes) :: back)
    (hrecs : (scanFrom 0 bytes).records = pre ++ r :: post)
    (hlen : (frames pre ++ tail).length = bytes.length)
    (hbad : ∀ x, readRecord (frames pre).length tail ≠ .record x) :
    Reports
        (overwrite ((openLog byteFormat segmentSize Dir.empty).logCalls calls).dir m
          (frames pre ++ tail))
        (front.flatMap (fun e => (scanFrom 0 e.2).records) ++ pre) (.segment m)
        (frames pre).length ↔
      back ≠ [] ∨ claimedEnd (frames pre).length tail < bytes.length := by
  obtain ⟨d, older, n, newest, hd, hnone, hdir, -⟩ := fresh_holdsCalls segmentSize calls
  rw [hdir] at hfile ⊢
  obtain ⟨front', rest, hsplit, rfl, hrest⟩ := List.map_eq_append_iff.mp hfile
  obtain ⟨e, back', rfl, he, rfl⟩ := List.map_eq_cons_iff.mp hrest
  obtain ⟨rfl, rfl⟩ := Prod.mk.inj he
  have hscan : ∀ e' ∈ d.segments.entries, (scanFrom 0 (callBytes e'.2)).records = e'.2.flatten := by
    intro e' he'
    rw [callBytes, scanFrom_whole _ (writable_of_mem hd he')]
  have hrecs' : e.2.flatten = pre ++ r :: post := by
    rw [← hscan e (by rw [hsplit]; simp)]
    exact hrecs
  have hfront : (front'.map (fun e => (e.1, callBytes e.2))).flatMap
      (fun e => (scanFrom 0 e.2).records) = front'.flatMap (fun e => e.2.flatten) := by
    rw [List.flatMap_map]
    refine List.flatMap_congr (fun e' he' => hscan e' ?_)
    rw [hsplit]
    exact List.mem_append_left _ he'
  rw [hfront, reports_iff hd hsplit hnone hrecs' hlen hbad]
  simp

/-- Two records in one segment, with a wrong checksum in the first. -/
theorem corruption_reported_wrong_crc :
    Reports
      (overwrite ((openLog byteFormat 0 Dir.empty).logCalls [[tick], [tick]]).dir 0
        ([] ++ ([0, 0, 0, 0, 1, 0, 0, 0, 1] ++ tick.frame)))
      [] (.segment 0) 0 := by
  have hrecs : (scanFrom 0 (frames [tick, tick])).records = [] ++ tick :: [tick] := by
    rw [scanFrom_whole _ (by simp [writable_tick])]
    rfl
  have hread : readRecord 0 ([0, 0, 0, 0, 1, 0, 0, 0, 1] ++ tick.frame) =
      .damaged (.crcMismatch 0 1) 9 := by decide +kernel
  have hbad : ∀ x, readRecord 0 ([0, 0, 0, 0, 1, 0, 0, 0, 1] ++ tick.frame) ≠ .record x := by
    rw [hread]
    simp
  exact (corruption_reported_iff 0 [[tick], [tick]] [] [] 0 (frames [tick, tick]) [] [tick] tick
    ([0, 0, 0, 0, 1, 0, 0, 0, 1] ++ tick.frame) (by decide +kernel) hrecs (by decide +kernel)
    hbad).mpr (Or.inr (by decide +kernel))

/-- Two records in one segment, with the type of the first overwritten by 0. The header is
implausible and the file ends within the largest record behind it, so replay yields nothing,
reports nothing, and repair empties the file. -/
theorem damaged_type_discards_log :
    ∃ b b' b'' : Dir (List Byte),
      b = ((openLog byteFormat 0 Dir.empty).logCalls [[tick], [tick]]).dir ∧
      (readLog b).records = [tick, tick] ∧
      b' = overwrite b 0 ([0, 0, 0, 0, 0, 0, 0, 0, 0] ++ tick.frame) ∧
      (∀ x, readRecord 0 ([0, 0, 0, 0, 0, 0, 0, 0, 0] ++ tick.frame) ≠ .record x) ∧
      (readLog b').records = [] ∧ (readLog b').err = none ∧
      repair b' = .ok (true, b'') ∧ b''.segments.entries = [(0, [])] := by
  let b := ((openLog byteFormat 0 Dir.empty).logCalls [[tick], [tick]]).dir
  let bytes : List Byte := [0, 0, 0, 0, 0, 0, 0, 0, 0] ++ tick.frame
  have hread : readRecord 0 bytes = .damaged (.implausibleHeader 0 0) (9 + maxRecordSize) := by
    decide +kernel
  have hfiles : b.files = [(.segment 0, frames [tick, tick])] := by decide +kernel
  have hlog : readLog (overwrite b 0 bytes) = ⟨[], none, ⟨some (.segment 0), 0, 0⟩⟩ := by
    have hnone : ∀ x ∈ ([] : List Record), x.Writable := by simp
    have h := readFiles_damaged hnone hread (.segment 0) ⟨none, 0, -1⟩ []
    rw [segmentNumber_of_lt 0 (by omega)] at h
    exact h
  refine ⟨b, overwrite b 0 bytes, truncateTail (overwrite b 0 bytes) ⟨some (.segment 0), 0, 0⟩,
    rfl, ?_, rfl, ?_, by rw [hlog], by rw [hlog], ?_, by decide +kernel⟩
  · unfold readLog
    rw [hfiles, readFiles, scanFrom_whole _ (by simp [writable_tick])]
    rfl
  · rw [hread]
    simp
  · have hsize : (overwrite b 0 bytes).fileSize (.segment 0) ≠ 0 := by decide +kernel
    unfold repair
    rw [hlog]
    dsimp only
    rw [if_neg hsize]

end Ozymandias.WalCorruption
