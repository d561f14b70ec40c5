import Graft.Corpus.Settings
import Graft.Mutation.Value

/-!
# Settings

Every field may be missing and has a default then; fields of other names mean nothing. Chances are
any numbers and count as zero below and as one above.
-/

namespace Graft

/-- How scripts are mutated. -/
structure Settings where
  /-- How many nodes a structural pass may replace. -/
  maxMutations : Nat
  /-- How often a node is replaced that may be. -/
  replaceChance : Float
  /-- How often an operator is exchanged. -/
  operatorChance : Float
  /-- How often a number is replaced. -/
  literalChance : Float
  /-- The seed of a run that can be repeated. -/
  seed : Option Nat
  corpus : CorpusSettings

namespace CorpusSettings

/-- The settings of a corpus that a value gives, if it fits. -/
def ofValue? (v : Value) : Option CorpusSettings := do
  if !v.isRecord 4 then none
  let d := CorpusSettings.default
  return {
    seedFolder := ← v.field 0 "seed_dir" (Value.orNull Value.text?) d.seedFolder
    poolFolder := ← v.field 1 "pool_dir" (Value.orNull Value.text?) d.poolFolder
    poolChance := ← v.field 2 "p_pool" Value.number? d.poolChance
    maxAttempts := ← v.field 3 "max_attempts" Value.count? d.maxAttempts }

end CorpusSettings

namespace Settings

def default : Settings :=
  { maxMutations := 5
    replaceChance := 0.05
    operatorChance := 0.25
    literalChance := 0.25
    seed := none
    corpus := .default }

/-- The settings that a value gives, if it fits. -/
def ofValue? (v : Value) : Option Settings := do
  if !v.isRecord 6 then none
  let d := Settings.default
  return {
    maxMutations := ← v.field 0 "max_mutations" Value.count? d.maxMutations
    replaceChance := ← v.field 1 "p_replace" Value.number? d.replaceChance
    operatorChance := ← v.field 2 "p_operator" Value.number? d.operatorChance
    literalChance := ← v.field 3 "p_literal" Value.number? d.literalChance
    seed := ← v.field 4 "seed" (Value.orNull Value.count?) d.seed
    corpus := ← v.field 5 "corpus" CorpusSettings.ofValue? d.corpus }

end Settings

end Graft
