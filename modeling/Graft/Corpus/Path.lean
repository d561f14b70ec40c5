/-!
# Paths

A path is written as a text and compared by its components. Repeated slashes and a point inside
mean nothing; a point in front does, so that `./a` and `a` are two paths. Components are ordered
by their kind and then by their characters, and paths component by component, which puts what is
in a folder in front of the folder's longer-named neighbours.
-/

namespace Graft

/-- A part of a path between slashes. -/
inductive Component where
  | root
  /-- A point at the front. -/
  | here
  /-- Two points. -/
  | parent
  | name (text : String)
deriving Repr, DecidableEq

namespace Component

/-- The order of the kinds of components. -/
def rank : Component → Nat
  | root => 0
  | here => 1
  | parent => 2
  | name _ => 3

def text : Component → String
  | root => "/"
  | here => "."
  | parent => ".."
  | name text => text

def before (a b : Component) : Bool :=
  a.rank < b.rank || (a.rank == b.rank && decide (a.text < b.text))

end Component

namespace Path

/-- The parts of a text between slashes, empty ones included. -/
def segments (path : String) : List String :=
  path.splitOn "/"

/-- The component of a segment that is not the first. -/
def component? : String → Option Component
  | "" | "." => none
  | ".." => some .parent
  | text => some (.name text)

/-- The components of a path. -/
def components (path : String) : List Component :=
  match segments path with
  | "" :: _ :: _ => .root :: (segments path).filterMap component?
  | "." :: rest => .here :: rest.filterMap component?
  | all => all.filterMap component?

/-- Whether two texts are the same path. -/
def same (a b : String) : Bool :=
  components a == components b

/-- The order of component lists. -/
def componentsBefore : List Component → List Component → Bool
  | [], [] => false
  | [], _ :: _ => true
  | _ :: _, [] => false
  | a :: as, b :: bs => a.before b || (a == b && componentsBefore as bs)

/-- The order of paths. -/
def before (a b : String) : Bool :=
  componentsBefore (components a) (components b)

/-- Paths in order; the same path in two spellings stays in the order in which it came. -/
def sort (paths : List String) : List String :=
  paths.mergeSort fun a b => !before b a

/-- Leave out what is the same path as its predecessor. -/
def dedup : List String → List String
  | [] => []
  | [path] => [path]
  | a :: b :: rest =>
    match dedup (b :: rest) with
    | [] => [a]
    | c :: cs => if same a c then a :: cs else a :: c :: cs

/-- Whether a path is among paths that are in order and not repeated. The one in the middle tells on
which side of it the path can be. -/
def among (path : String) (paths : List String) : Bool :=
  match h : paths.drop (paths.length / 2) with
  | [] => false
  | middle :: behind =>
    if before path middle then among path (paths.take (paths.length / 2))
    else if before middle path then among path behind
    else true
termination_by paths.length
decreasing_by
  all_goals
    have len := congrArg List.length h
    simp only [List.length_drop, List.length_cons, List.length_take] at len ⊢
    omega

/-- The path of something in a folder. -/
def join (folder name : String) : String :=
  if folder.endsWith "/" || folder.isEmpty then folder ++ name else folder ++ "/" ++ name

/-- Whether a path can only mean a folder: it ends in a slash, or in a point behind one. -/
def namesFolder (path : String) : Bool :=
  match (segments path).reverse with
  | last :: _ :: _ => last == "" || last == "."
  | _ => false

/-- Whether the last component of a path is a name with the extension `js`. The name `.js` has
none. -/
def isSource (path : String) : Bool :=
  match (components path).getLast? with
  | some (.name text) => text.endsWith ".js" && text != ".js"
  | _ => false

end Path

end Graft
