import Ozymandias.BlockModel
import Mathlib.Data.Prod.Lex

/-!
Planning a compaction. The blocks are walked oldest first; from each start, later
blocks of its level and resolution join a run, others are skipped, and the first
run of the required length whose time span stays within the limit is the plan.
-/

namespace Ozymandias.CompactPlan

open TimeMerge BlockModel

def wrap64 (x : ℤ) : ℤ := x.bmod (2 ^ 64)

def defaultMinBlocks : ℤ := 3

def defaultMaxBlockRange : ℤ := 54 * 60 * 60 * 1000000000

structure Options where
  minBlocks : ℤ
  maxBlockRange : ℤ
  deriving DecidableEq

def Options.setDefaults (o : Options) : Options where
  minBlocks := if o.minBlocks ≤ 0 then defaultMinBlocks else o.minBlocks
  maxBlockRange := if o.maxBlockRange ≤ 0 then defaultMaxBlockRange else o.maxBlockRange

def milliseconds (d : ℤ) : ℤ := d.tdiv 1000000

structure Plan where
  sources : List Block
  level : ℕ

def blockOrder (b : Block) : ℤ ×ₗ ℕ := toLex (b.info.minTime, b.info.ulid)

def sortBlocks (blocks : List Block) : List Block := sortBy blockOrder blocks

def extendRun (minBlocks maxRange : ℤ) (first : Meta) (run : List Block) (maxT : ℤ) :
    List Block → Option (List Block)
  | [] => none
  | b :: rest =>
    if b.info.level ≠ first.level ∨ b.info.resolutionS ≠ first.resolutionS then
      extendRun minBlocks maxRange first run maxT rest
    else if maxRange < wrap64 (max maxT b.info.maxTime - first.minTime) then none
    else if minBlocks ≤ (run ++ [b]).length then some (run ++ [b])
    else extendRun minBlocks maxRange first (run ++ [b]) (max maxT b.info.maxTime) rest

def nextFrom (minBlocks maxRange : ℤ) : List Block → Option Plan
  | [] => none
  | b :: rest =>
    match extendRun minBlocks maxRange b.info [b] b.info.maxTime rest with
    | some run => some ⟨run, b.info.level + 1⟩
    | none => nextFrom minBlocks maxRange rest

def next (blocks : List Block) (opts : Options) : Option Plan :=
  nextFrom opts.setDefaults.minBlocks (milliseconds opts.setDefaults.maxBlockRange)
    (sortBlocks blocks)

variable {maxRange minBlocks : ℤ} {blocks : List Block} {plan : Plan}

theorem extendRun_sublist {first : Meta} {run : List Block} {maxT : ℤ} {rest run' : List Block}
    (h : extendRun minBlocks maxRange first run maxT rest = some run') :
    ∃ more, more ≠ [] ∧ run' = run ++ more ∧ more.Sublist rest := by
  induction rest generalizing run maxT with
  | nil => cases h
  | cons b rest ih =>
    unfold extendRun at h
    split at h
    · obtain ⟨more, hne, hrun, hsub⟩ := ih h
      exact ⟨more, hne, hrun, hsub.cons b⟩
    · split at h
      · cases h
      · split at h
        · cases h
          exact ⟨[b], by simp, rfl, List.Sublist.cons_cons b (List.nil_sublist _)⟩
        · obtain ⟨more, -, hrun, hsub⟩ := ih h
          exact ⟨b :: more, by simp, by simpa using hrun, hsub.cons_cons b⟩

theorem nextFrom_sublist (h : nextFrom minBlocks maxRange blocks = some plan) :
    plan.sources.Sublist blocks ∧ 2 ≤ plan.sources.length := by
  induction blocks with
  | nil => cases h
  | cons b rest ih =>
    unfold nextFrom at h
    split at h
    next run hrun =>
      cases h
      obtain ⟨more, hne, rfl, hsub⟩ := extendRun_sublist hrun
      refine ⟨hsub.cons_cons b, ?_⟩
      have := List.length_pos_iff.mpr hne
      simp
      omega
    · obtain ⟨hsub, hlen⟩ := ih h
      exact ⟨hsub.cons b, hlen⟩

end Ozymandias.CompactPlan
