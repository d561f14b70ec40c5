import Graft.Control
import Graft.Corpus.Files
import Graft.Chance.Stream
import Graft.Reading.Program
import Graft.Scope.Declarations

/-!
# Entries and samples

An entry is a source file that has been read, with the index of its declarations. A sample is a
node of an entry that may take the place of another node, and a sampler finds samples by kind and
enclosure.
-/

namespace Graft

open Chance (Draw)

/-- A script with the path that it was read from and its declarations. -/
structure Entry where
  path : String
  script : Script
  index : ScopeIndex
deriving Repr, DecidableEq

/-- Why a file or a folder of a corpus cannot be used. -/
inductive CorpusError where
  /-- A file that is missing or is no text. -/
  | unreadable (path : String)
  /-- A file whose text is refused. -/
  | refused (path : String) (cause : SourceError)
  /-- A folder that is missing. -/
  | noFolder
deriving Repr, DecidableEq

namespace CorpusError

/-- The wording of each cause. -/
def message : CorpusError → String
  | unreadable path => "failed to read " ++ path
  | refused path _ => "failed to parse " ++ path
  | noFolder => "failed to list corpus directory"

end CorpusError

namespace Entry

/-- The entry of a script. -/
def ofScript (path : String) (script : Script) : Entry :=
  ⟨path, script, .ofScript script⟩

/-- Read the file at a path. -/
def read (files : Files) (path : String) : Except CorpusError Entry :=
  match files.read? path with
  | none => .error (.unreadable path)
  | some source =>
    match Script.read source with
    | .ok script => .ok (ofScript path script)
    | .error e => .error (.refused path e)

end Entry

/-- The source files under a path. -/
def Files.listSources (files : Files) (path : String) : Except CorpusError (List String) :=
  match files.listSources? path with
  | some paths => .ok paths
  | none => .error .noFolder

/-- A node inside an entry. -/
structure Sample where
  entry : Entry
  node : NodeId
deriving Repr, DecidableEq

/-- A way to find samples that keeps a state of its own: a node of the kind that may stand in its
own place and in the enclosure, or none. -/
abbrev Sampler (σ : Type) := Kind → Enclosure → StateT σ Draw (Option Sample)

namespace Sample

/-- Whether a sample is of a kind and may stand in an enclosure. -/
def fits (sample : Sample) (kind : Kind) (e : Enclosure) : Bool :=
  sample.entry.script.kind sample.node == kind &&
    sample.entry.script.admissible sample.node e

/-- The sampler that offers one sample wherever it fits. -/
def pinned {σ : Type} (sample : Sample) : Sampler σ :=
  fun kind e => return if sample.fits kind e then some sample else none

end Sample

end Graft
