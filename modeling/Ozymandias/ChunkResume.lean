import Ozymandias.ChunkRoundTrip

/-!
Appending to a chunk that was read back. Replaying the stream leaves the
iterator with the coder state of the writer that produced it, and its cursor
(unread bits of the byte it stands on) names the same bit as the writer's (free
bits of the last byte). The bytes are copied before the first write, so the
wrapped buffer keeps its contents.
-/

namespace Ozymandias.ChunkResume

open BitLists GoSlices BitStream BitReading GorillaChunk ChunkRoundTrip

variable {bits : List Bool} {r : BReader} {h : Heap}

/-- Where the payload ends, from the cursor of a reader that has seen it all. -/
theorem end_of_sees (hr : Sees bits [] r) :
    (if r.count = 8 then headerLen + r.pos else headerLen + r.pos + 1) =
      headerLen + (pack bits).length := by
  have hcursor := hr.cursor
  have hcount := hr.count_le
  rw [length_pack]
  split <;> omega

theorem count_of_sees (hr : Sees bits [] r) :
    (if r.count = 8 then 0 else r.count) = freeBits bits.length := by
  have hcursor := hr.cursor
  have hcount := hr.count_le
  unfold freeBits
  split <;> omega

/-- Every array that existed before is left alone and is not written to. -/
def Untouched (h h' : Heap) (s' : Slice) : Prop :=
  ∀ arr, arr < h.next → h'.arrays arr = h.arrays arr ∧ arr ≠ s'.arr

theorem Untouched.trans {h₁ h₂ : Heap} {s₁ s₂ : Slice} (hu : Untouched h h₁ s₁)
    (hle : h.next ≤ h₁.next) (hk : Keeps h₁ s₁ h₂ s₂) : Untouched h h₂ s₂ := by
  intro arr harr
  obtain ⟨heq, hne⟩ := hu arr harr
  obtain ⟨heq₂, hne₂⟩ := hk.other arr (by omega) hne
  exact ⟨heq₂.trans heq, hne₂⟩

theorem untouched_alloc (h : Heap) (bytes : List Byte) (cap : ℕ) :
    Untouched h (h.alloc bytes cap).1 (h.alloc bytes cap).2 := by
  intro arr harr
  have hne : arr ≠ h.next := by omega
  exact ⟨by simp [Heap.alloc, hne], by simpa [Heap.alloc] using hne⟩

/-- Resuming an encoding restores the writer that produced it, on a copy. -/
theorem appender_resume {ps : List Point} {s : Slice} (he : Encodes ps h s)
    (hn : ps.length ≤ maxSamplesPerChunk) :
    ∃ h' a, (⟨⟨s, 0⟩, true⟩ : Chunk).appender h = .ok (h', a) ∧
      Writes (Coder.start.run ps) (Coder.start.runBits ps) h' a ∧
      Untouched h h' a.c.b.stream ∧ h.next ≤ h'.next := by
  have hnum := Encodes.numSamples_eq (c := ⟨⟨s, 0⟩, true⟩) he hn
  by_cases h0 : ps = []
  · subst h0
    let p := h.alloc (h.read s) (max headerLen s.len + 64)
    refine ⟨p.1, ⟨⟨⟨p.2, 0⟩, false⟩, 0, 0, 0, noWindow, 0⟩, ?_, ?_, untouched_alloc _ _ _,
      (keeps_alloc h s _ _).next_le⟩
    · rw [List.length_nil] at hnum
      rw [Chunk.appender, if_pos hnum]
      rfl
    · exact ⟨⟨valid_alloc _ _ _, (read_alloc _ _ _).trans he.bytes, rfl⟩, rfl, rfl, rfl, rfl, rfl⟩
  · have hne : ps.length ≠ 0 := fun hz => h0 (List.length_eq_zero_iff.mp hz)
    obtain ⟨it, hdrain, hf⟩ := Encodes.drain_spec (c := ⟨⟨s, 0⟩, true⟩) he hn
    let last := headerLen + (pack (Coder.start.runBits ps)).length
    let p := h.alloc (h.read s) (max last s.len + 64)
    have hlast : p.2.len = last := by
      change (h.read s).length = last
      rw [length_read _ _ he.valid, he.len]
    refine ⟨p.1, ⟨⟨⟨{ p.2 with len := last }, freeBits (Coder.start.runBits ps).length⟩, false⟩,
      it.t, it.v, it.delta, it.leading, it.trailing⟩, ?_, ?_, untouched_alloc _ _ _,
      (keeps_alloc h s _ _).next_le⟩
    · rw [Chunk.appender, if_neg (by rw [hnum]; exact hne), hdrain]
      dsimp only
      rw [hf.err]
      rw [end_of_sees hf.sees, count_of_sees hf.sees]
      rfl
    · have hslice : ({ p.2 with len := last } : Slice) = p.2 := by rw [← hlast]
      refine ⟨⟨?_, ?_, rfl⟩, hf.t, hf.v, hf.delta, hf.leading, hf.trailing⟩
      · change p.1.Valid { p.2 with len := last }
        rw [hslice]
        exact valid_alloc _ _ _
      · change p.1.read { p.2 with len := last } = _
        rw [hslice, Coder.run_n, Coder.start, Nat.zero_add]
        exact (read_alloc _ _ _).trans he.bytes

def resume (h : Heap) (s : Slice) (qs : List Point) : Except ChunkErr (Heap × Appender) := do
  let c ← fromBytes s
  let (h, a) ← c.appender h
  a.appendAll h qs

/-- Resuming is invisible: whatever buffer holds the bytes of the first part,
appending the second part to it gives the bytes of one run over both, and the
buffer's backing array is unchanged. -/
theorem resume_eq_writeFresh (h g : Heap) (ps qs : List Point)
    (hlen : (ps ++ qs).length ≤ maxSamplesPerChunk)
    (hasc : (ps ++ qs).Pairwise (fun p q => p.t.toInt < q.t.toInt)) :
    ∃ h₁ a₁ g₁ b₁, writeFresh h ps = .ok (h₁, a₁) ∧ writeFresh g (ps ++ qs) = .ok (g₁, b₁) ∧
      h₁.Valid a₁.c.b.stream ∧
      ∀ (k : Heap) (s : Slice), k.Valid s → k.read s = a₁.c.bytes h₁ →
        ∃ k' a', resume k s qs = .ok (k', a') ∧ a'.c.bytes k' = b₁.c.bytes g₁ ∧
          k'.arrays s.arr = k.arrays s.arr ∧ k'.read s = k.read s := by
  have hfits : Fits (ps ++ qs) := ⟨hlen, hasc⟩
  have hps : Fits ps := by
    refine ⟨?_, (List.pairwise_append.mp hasc).1⟩
    rw [List.length_append] at hlen
    omega
  obtain ⟨h₁, a₁, hfresh, hw₁⟩ := writeFresh_spec h hps
  obtain ⟨g₁, b₁, hone, hw⟩ := writeFresh_spec g hfits
  refine ⟨h₁, a₁, g₁, b₁, hfresh, hone, hw₁.holds.valid, ?_⟩
  intro k s hv hread
  have he : Encodes ps k s := ⟨hv, hread.trans hw₁.encodes.bytes⟩
  obtain ⟨k₁, a, happ, hwa, hun, hle⟩ := appender_resume he hps.1
  obtain ⟨k₂, a₂, hall, hw₂, hkeep⟩ := appendAll_spec hwa hfits.accepts.later
  rw [← Coder.run_append, ← Coder.runBits_append] at hw₂
  obtain ⟨harr, -⟩ := hun.trans hle hkeep s.arr hv.allocated
  refine ⟨k₂, a₂, ?_, hw₂.encodes.bytes.trans hw.encodes.bytes.symm, harr, ?_⟩
  · rw [resume, he.fromBytes_eq]
    change ((⟨⟨s, 0⟩, true⟩ : Chunk).appender k >>= fun q => _) = _
    rw [happ]
    exact hall
  · rw [Heap.read, harr, Heap.read]

theorem resume_eq_writeFresh_split :
    ∃ h₁ a₁ g₁ b₁, writeFresh ⟨0, fun _ => []⟩ [⟨1#64, 5#64⟩] = .ok (h₁, a₁) ∧
      writeFresh ⟨0, fun _ => []⟩ ([⟨1#64, 5#64⟩] ++ [⟨9#64, 6#64⟩]) = .ok (g₁, b₁) ∧
      h₁.Valid a₁.c.b.stream ∧
      ∀ (k : Heap) (s : Slice), k.Valid s → k.read s = a₁.c.bytes h₁ →
        ∃ k' a', resume k s [⟨9#64, 6#64⟩] = .ok (k', a') ∧ a'.c.bytes k' = b₁.c.bytes g₁ ∧
          k'.arrays s.arr = k.arrays s.arr ∧ k'.read s = k.read s :=
  resume_eq_writeFresh _ _ _ _ (by decide) (by decide)

end Ozymandias.ChunkResume
