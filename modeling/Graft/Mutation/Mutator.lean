import Graft.Corpus.Basic
import Graft.Mutation.Settings
import Graft.Pass.Local
import Graft.Pass.Structural
import Graft.Printing.Layout

/-!
# Mutators

A mutator runs one pass over a script at a time: it exchanges operators, replaces numbers or
replaces whole nodes. Each kind of pass draws from a stream of its own, so that what one draws does
not depend on how often the others have run; the choice among them draws from a fourth.
-/

namespace Graft

open Chance (Stream Draw Probability)

/-- The kinds of passes. -/
inductive Strategy where
  | operators
  | literals
  | structural
deriving Repr, DecidableEq

namespace Strategy

def all : List Strategy := [operators, literals, structural]

def name : Strategy → String
  | operators => "Operators"
  | literals => "Literals"
  | structural => "Structural"

end Strategy

/-- How often a pass over single nodes touches one, and the stream that it draws from. -/
structure Local where
  chance : Probability
  stream : Stream
deriving Repr, DecidableEq

namespace Local

/-- Run a pass over a script. The result is the number of nodes that were touched. -/
def run (step : Probability → NodeChange) (m : Local) (s : Script) : Nat × Script × Local :=
  let ((count, s), stream) := (NodeChange.everywhere (step m.chance) s).run m.stream
  (count, s, { m with stream })

end Local

/-- The three kinds of passes with their streams, and the stream that chooses among them. -/
structure Mutator (σ : Type) where
  stream : Stream
  operators : Local
  literals : Local
  structural : Structural σ

namespace Mutator

variable {σ : Type}

/-- A mutator whose streams are forked from that of a seed. -/
def seeded (settings : Settings) (samples : σ) (seed : UInt64) : Mutator σ :=
  let (first, stream) := Draw.fork (.seeded seed)
  let (second, stream) := Draw.fork stream
  let (third, stream) := Draw.fork stream
  { stream
    operators := ⟨.ofFloat settings.operatorChance, first⟩
    literals := ⟨.ofFloat settings.literalChance, second⟩
    structural := ⟨settings.maxMutations, .ofFloat settings.replaceChance, third, samples⟩ }

/-- Run the pass of a strategy. The result is the number of nodes that were changed. -/
def run (sampler : Sampler σ) (strategy : Strategy) (m : Mutator σ) (s : Script) :
    Nat × Script × Mutator σ :=
  match strategy with
  | .operators =>
    let (count, s, operators) := m.operators.run NodeChange.operator s
    (count, s, { m with operators })
  | .literals =>
    let (count, s, literals) := m.literals.run NodeChange.number s
    (count, s, { m with literals })
  | .structural =>
    let (count, s, structural) := m.structural.run sampler s
    (count, s, { m with structural })

/-- Choose a strategy by chance. -/
def pick (m : Mutator σ) : Strategy × Mutator σ :=
  let (rank, stream) := Draw.below Strategy.all.length m.stream
  (Strategy.all.getD rank .structural, { m with stream })

/-- Run a pass chosen by chance. -/
def runAny (sampler : Sampler σ) (m : Mutator σ) (s : Script) : Nat × Script × Mutator σ :=
  let (strategy, m) := m.pick
  m.run sampler strategy s

/-- Read a source text, run a pass chosen by chance and give the text of the result. -/
def mutateSource (sampler : Sampler σ) (source : String) (m : Mutator σ) :
    Except SourceError (String × Mutator σ) := do
  let s ← Script.read source
  let (_, s, m) := m.runAny sampler s
  return (s.text, m)

end Mutator

/-- The mutator over the corpus that settings name. -/
def Mutator.ofSettings (files : Files) (settings : Settings) (seed : UInt64) :
    Except CorpusError (Mutator Corpus) := do
  return Mutator.seeded settings (← Corpus.ofSettings files settings.corpus) seed

end Graft
