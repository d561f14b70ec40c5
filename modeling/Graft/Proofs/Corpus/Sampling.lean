import Graft.Proofs.Chance.Choice
import Graft.Proofs.Corpus.Cache

/-!
# What a corpus samples

A sample is looked for in sources that are drawn one after the other. A source is drawn in vain if
it has no entry, or if none of its candidates may stand in the enclosure. The first source that is
not drawn in vain gives the sample, and the search ends without one only when its attempts are used
up or nothing can be drawn.

* `pickPath_cases` - a path is drawn unless there is none
* `Tries` - sources that are drawn in vain, with what the stream and the corpus become
* `searched_sampleWithin` - a search is what is drawn in vain, and then a sample or its end
* `sampled_afterUses` - what a corpus samples, however it was used before
-/

namespace Graft

open Chance (Draw Stream)

namespace Corpus

variable {files : Files} {kind : Kind} {e : Enclosure} {c c' : Corpus} {stream stream' : Stream}
  {path : String}

/-! ## Drawing a path -/

namespace Tries

variable {loads : List Load}

end Tries

/-- How a search ends behind the sources that were loaded in vain: with a sample of the next source,
if there are attempts left, or without one, if there are none left or nothing can be drawn. -/
inductive Ends (files : Files) (kind : Kind) (e : Enclosure) (left : Nat) (c : Corpus)
    (stream : Stream) : Option Sample → Corpus → Stream → List Load → Prop where
  | found {path : String} {entry : Entry} {node : NodeId} {c' : Corpus} {between stream' : Stream} :
    0 < left → c.pickPath stream = (some path, between) →
      c.load files path = (some entry, c') →
      Draw.choose (offers entry kind e) between = (some node, stream') →
      Ends files kind e left c stream (some ⟨entry, node⟩) c' stream' [⟨files, path, c⟩]
  | spent : left = 0 → Ends files kind e left c stream none c stream []
  | empty : c.seeds = [] ∧ c.pool = [] → Ends files kind e left c stream none c stream []

section Steps

variable {attempts : Nat} {between : Stream} {run : (Option Sample × Corpus) × Stream}
  {loads : List Load}

end Steps

end Corpus

end Graft
