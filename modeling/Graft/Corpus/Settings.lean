/-!
# Settings of a corpus
-/

namespace Graft

/-- Where a corpus takes its sources from and how it draws from them. -/
structure CorpusSettings where
  /-- The folder of the seeds. -/
  seedFolder : Option String
  /-- The folder of the sources that the pool begins with. -/
  poolFolder : Option String
  /-- How often a draw goes to the pool when there are seeds too. -/
  poolChance : Float
  /-- How many sources are tried for one sample. -/
  maxAttempts : Nat

/-- No sources, and the usual ways of drawing. -/
def CorpusSettings.default : CorpusSettings :=
  ⟨none, none, 0.5, 64⟩

end Graft
