import Graft.Corpus.Entry
import Graft.Corpus.Settings

/-!
# Corpora

A corpus draws samples from seeds and from a pool of later sources. A seed is read at most once and
its entry, or that it has none, is kept; a source of the pool is read anew for every draw, so that
what is kept does not grow with the pool.

* `Corpus.load` - the entry of a path
* `Corpus.sample` - a sample from sources drawn by chance
-/

namespace Graft

open Chance (Draw Probability)

/-- Why a seed has no entry. -/
inductive SkipReason where
  | unsupported (what : Feature)
  | malformed
  | unreadable
deriving Repr, DecidableEq

namespace SkipReason

def ofError : CorpusError → SkipReason
  | .refused _ (.unsupported what _) => unsupported what
  | .refused _ _ => malformed
  | .unreadable _ | .noFolder => unreadable

/-- The name under which a reason is counted. -/
def name : SkipReason → String
  | unsupported what => what.name
  | malformed => "syntax error"
  | unreadable => "unreadable"

end SkipReason

/-- Seeds in the order of paths, a pool in the order in which it grew, and what is known of the
seeds that have been read. -/
structure Corpus where
  seeds : List String
  pool : List String
  poolChance : Probability
  maxAttempts : Nat
  /-- Seeds that have been read, each with its entry if it has one. -/
  cache : List (String × Option Entry)
  /-- How many of them have no entry, by reason. -/
  skipped : List (SkipReason × Nat)
deriving Repr, DecidableEq

/-- Count one more under a reason. -/
def countReason (reason : SkipReason) : List (SkipReason × Nat) → List (SkipReason × Nat)
  | [] => [(reason, 1)]
  | (other, n) :: rest =>
    if other = reason then (other, n + 1) :: rest else (other, n) :: countReason reason rest

namespace Corpus

/-- A corpus of given seeds and a pool. -/
def ofPaths (seeds pool : List String) (settings : CorpusSettings) : Corpus :=
  { seeds := Path.dedup (Path.sort seeds)
    pool
    poolChance := .ofFloat settings.poolChance
    maxAttempts := settings.maxAttempts
    cache := []
    skipped := [] }

/-- The sources of a folder, none where no folder is given. -/
def sourcesOf (files : Files) : Option String → Except CorpusError (List String)
  | some folder => files.listSources folder
  | none => .ok []

/-- The corpus of the folders that settings name. -/
def ofSettings (files : Files) (settings : CorpusSettings) : Except CorpusError Corpus := do
  let seeds ← sourcesOf files settings.seedFolder
  let pool ← sourcesOf files settings.poolFolder
  return ofPaths seeds pool settings

/-- Add a source to the pool. -/
def push (c : Corpus) (path : String) : Corpus :=
  { c with pool := c.pool ++ [path] }

def isEmpty (c : Corpus) : Bool :=
  c.seeds.isEmpty && c.pool.isEmpty

/-- How many entries are kept. -/
def cached (c : Corpus) : Nat :=
  (c.cache.filter fun kept => kept.2.isSome).length

def isSeed (c : Corpus) (path : String) : Bool :=
  Path.among path c.seeds

/-- What is kept of a path: nothing, or its entry or that it has none. -/
def kept? (c : Corpus) (path : String) : Option (Option Entry) :=
  (c.cache.find? fun kept => Path.same path kept.1).map (·.2)

/-- Keep what reading a seed gave. -/
def keep (c : Corpus) (path : String) : Except CorpusError Entry → Corpus
  | .ok entry => { c with cache := (path, some entry) :: c.cache }
  | .error e =>
    { c with
      cache := (path, none) :: c.cache
      skipped := countReason (.ofError e) c.skipped }

/-- The entry of a path, if it has one. Seeds are kept, and a seed that is kept is not read. -/
def load (files : Files) (path : String) (c : Corpus) : Option Entry × Corpus :=
  match c.kept? path with
  | some entry => (entry, c)
  | none =>
    let outcome := Entry.read files path
    (outcome.toOption, if c.isSeed path then c.keep path outcome else c)

/-- The candidate of a kind at a rank in the source at a path. -/
def sampleAt (files : Files) (path : String) (kind : Kind) (rank : Nat) (c : Corpus) :
    Option Sample × Corpus :=
  let (entry, c) := c.load files path
  let sample := entry.bind fun entry =>
    (entry.script.candidates kind)[rank]?.map fun (node, _) => ⟨entry, node⟩
  (sample, c)

/-- A source by chance, from the pool or from the seeds. -/
def pickPath (c : Corpus) : Draw (Option String) := do
  match c.seeds, c.pool with
  | [], [] => return none
  | seeds, [] => Draw.choose seeds
  | [], pool => Draw.choose pool
  | seeds, pool => if ← Draw.bool c.poolChance then Draw.choose pool else Draw.choose seeds

/-- The nodes of an entry that are candidates of a kind and may stand in an enclosure. -/
def offers (entry : Entry) (kind : Kind) (e : Enclosure) : List NodeId :=
  ((entry.script.candidates kind).map (·.1)).filter fun id => entry.script.admissible id e

/-- A sample from one of so many sources drawn by chance. -/
def sampleWithin (files : Files) (kind : Kind) (e : Enclosure) :
    Nat → StateT Corpus Draw (Option Sample)
  | 0 => return none
  | attempts + 1 => do
    match ← (← get).pickPath with
    | none => return none
    | some path =>
      match ← modifyGet (load files path) with
      | none => sampleWithin files kind e attempts
      | some entry =>
        match ← Draw.choose (offers entry kind e) with
        | some node => return some ⟨entry, node⟩
        | none => sampleWithin files kind e attempts

/-- The sampler of a corpus over the files as they are. -/
def sampler (files : Files) : Sampler Corpus :=
  fun kind e => do sampleWithin files kind e (← get).maxAttempts

end Corpus

end Graft
