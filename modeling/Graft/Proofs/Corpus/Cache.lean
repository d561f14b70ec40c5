import Graft.Proofs.Corpus.Path
import Graft.Proofs.Pass.Legality
import Mathlib.Algebra.GroupWithZero.Nat

/-!
# What a corpus keeps

A corpus may be asked for entries and for samples in any order, between pushes to its pool and
changes of the files. All that it learns, it learns by loads. So the uses of a corpus are turned
into the list of the loads that they make, and the loads into what the corpus knows.

* `Tracked.load` - what one load does to what is kept
* `Followed.tracked` - what loads and pushes in any order do to it
* `accounted_afterUses` - a seed is read once, all else is never kept, and the counts agree
-/

namespace Graft

open Chance (Draw Stream)

namespace Corpus

variable {c c' : Corpus} {path other : String} {files : Files}

/-! ## One load -/

theorem kept?_congr (h : Path.same path other) : c.kept? path = c.kept? other := by
  rw [kept?, kept?, Path.same_congr h]

theorem kept?_isSome : (c.kept? path).isSome ↔ ∃ kept ∈ c.cache, Path.same path kept.1 := by
  rw [kept?, Option.isSome_map, List.find?_isSome]

theorem isSeed_iff (h : Path.Ordered c.seeds) :
    c.isSeed path ↔ ∃ seed ∈ c.seeds, Path.same path seed :=
  Path.among_iff h

/-- What is kept is not read, whatever the files are. -/
theorem load_of_kept {entry : Option Entry} (h : c.kept? path = some entry) (files : Files) :
    c.load files path = (entry, c) := by
  unfold load
  rw [h]

theorem load_of_not_kept (h : c.kept? path = none) (files : Files) :
    c.load files path =
      ((Entry.read files path).toOption,
        if c.isSeed path then c.keep path (Entry.read files path) else c) := by
  unfold load
  rw [h]

theorem seeds_keep (c : Corpus) (path : String) (outcome : Except CorpusError Entry) :
    (c.keep path outcome).seeds = c.seeds := by
  cases outcome <;> rfl

theorem cache_keep (c : Corpus) (path : String) (outcome : Except CorpusError Entry) :
    (c.keep path outcome).cache = (path, outcome.toOption) :: c.cache := by
  cases outcome <;> rfl

theorem kept?_keep (c : Corpus) (path : String) (outcome : Except CorpusError Entry)
    (other : String) :
    (c.keep path outcome).kept? other =
      if Path.same other path then some outcome.toOption else c.kept? other := by
  rw [kept?, cache_keep, List.find?_cons]
  by_cases h : Path.same other path
  · rw [h, if_pos rfl]
    rfl
  · rw [Bool.eq_false_iff.2 h, if_neg Bool.false_ne_true]
    rfl

theorem sum_countReason (reason : SkipReason) (counts : List (SkipReason × Nat)) :
    ((countReason reason counts).map Prod.snd).sum = (counts.map Prod.snd).sum + 1 := by
  induction counts with
  | nil => rfl
  | cons entry counts ih =>
    obtain ⟨reason', n⟩ := entry
    rw [countReason]
    split
    · simp only [List.map_cons, List.sum_cons]
      omega
    · simp only [List.map_cons, List.sum_cons, ih]
      omega

/-- How many seeds a corpus has counted: those with an entry and those without. -/
def counted (c : Corpus) : Nat :=
  c.cached + (c.skipped.map Prod.snd).sum

theorem counted_keep (c : Corpus) (path : String) (outcome : Except CorpusError Entry) :
    (c.keep path outcome).counted = c.counted + 1 := by
  cases outcome with
  | ok entry =>
    simp only [counted, cached, keep, List.filter_cons, Option.isSome_some, if_true,
      List.length_cons]
    omega
  | error e =>
    simp only [counted, cached, keep, List.filter_cons, Option.isSome_none, Bool.false_eq_true,
      if_false, sum_countReason]
    omega

/-! ## Loads -/

/-- A load: the files as they were, the path, and the corpus that was asked. -/
structure Load where
  files : Files
  path : String
  before : Corpus

namespace Load

/-- What a load gives. -/
def result (l : Load) : Option Entry :=
  (l.before.load l.files l.path).1

def after (l : Load) : Corpus :=
  (l.before.load l.files l.path).2

/-- Whether a load reads the file. -/
def reads (l : Load) : Bool :=
  (l.before.kept? l.path).isNone

/-- What is in the file at the time of a load. -/
def found (l : Load) : Option Entry :=
  (Entry.read l.files l.path).toOption

/-- Whether a load is of a path. -/
def isOf (path : String) (l : Load) : Bool :=
  Path.same path l.path

theorem result_of_reads {l : Load} (h : l.reads) : l.result = l.found := by
  rw [result, load_of_not_kept (Option.isNone_iff_eq_none.1 h)]
  rfl

end Load

/-- What a corpus of seeds knows after loads. -/
structure Tracked (seeds : List String) (done : List Load) (c : Corpus) : Prop where
  seeds_eq : c.seeds = seeds
  /-- Only seeds are kept. -/
  keys : ∀ kept ∈ c.cache, c.isSeed kept.1
  /-- No seed is kept twice. -/
  apart : c.cache.Pairwise fun a b => ¬ Path.same a.1 b.1
  /-- What is kept of a seed is what its first load found. -/
  known : ∀ path, c.isSeed path → c.kept? path = (done.find? (Load.isOf path)).map Load.found
  counts : c.counted = c.cache.length

theorem tracked_ofPaths (seeds pool : List String) (settings : CorpusSettings) :
    Tracked (ofPaths seeds pool settings).seeds [] (ofPaths seeds pool settings) where
  seeds_eq := rfl
  keys := nofun
  apart := .nil
  known := fun _ _ => rfl
  counts := rfl

namespace Tracked

variable {seeds : List String} {done : List Load}

theorem push (h : Tracked seeds done c) (path : String) : Tracked seeds done (c.push path) :=
  ⟨h.seeds_eq, h.keys, h.apart, h.known, h.counts⟩

theorem isSeed_congr (ho : Path.Ordered seeds) (h : Tracked seeds done c)
    (hs : Path.same path other) : c.isSeed path ↔ c.isSeed other := by
  rw [← h.seeds_eq] at ho
  rw [isSeed_iff ho, isSeed_iff ho, Path.same_congr hs]

theorem isSeed_of_kept (ho : Path.Ordered seeds) (h : Tracked seeds done c)
    (hk : (c.kept? path).isSome) : c.isSeed path := by
  obtain ⟨kept, hm, hs⟩ := kept?_isSome.1 hk
  exact (h.isSeed_congr ho hs).2 (h.keys kept hm)

/-- A load that changes nothing: of what is kept, or of what is no seed. -/
theorem load_same (ho : Path.Ordered seeds) (h : Tracked seeds done c)
    (hl : (c.kept? path).isSome ∨ ¬ c.isSeed path) (files : Files) :
    Tracked seeds (done ++ [⟨files, path, c⟩]) c where
  seeds_eq := h.seeds_eq
  keys := h.keys
  apart := h.apart
  known := by
    intro other hseed
    rw [List.find?_append, h.known other hseed]
    cases hf : done.find? (Load.isOf other) with
    | some first => rfl
    | none =>
      -- The new load cannot be of the seed, which is not kept.
      have hd : ¬ Load.isOf other ⟨files, path, c⟩ := by
        intro (hs : Path.same other path)
        rcases hl with hk | hn
        · rw [← kept?_congr hs, h.known other hseed, hf] at hk
          cases hk
        · exact hn ((h.isSeed_congr ho hs).1 hseed)
      rw [List.find?_cons_of_neg hd]
      rfl
  counts := h.counts

theorem load_keep (h : Tracked seeds done c) (hk : c.kept? path = none) (hp : c.isSeed path)
    (files : Files) :
    Tracked seeds (done ++ [⟨files, path, c⟩]) (c.keep path (Entry.read files path)) where
  seeds_eq := (seeds_keep c path _).trans h.seeds_eq
  keys := by
    intro kept hm
    rw [isSeed, seeds_keep]
    rw [cache_keep] at hm
    rcases List.mem_cons.1 hm with rfl | hm
    · exact hp
    · exact h.keys kept hm
  apart := by
    rw [cache_keep]
    refine List.pairwise_cons.2 ⟨fun kept hm hs => ?_, h.apart⟩
    have : (c.kept? path).isSome := kept?_isSome.2 ⟨kept, hm, hs⟩
    rw [hk] at this
    cases this
  known := by
    intro other hseed
    rw [isSeed, seeds_keep] at hseed
    rw [kept?_keep, List.find?_append]
    by_cases hs : Path.same other path
    · have hn : done.find? (Load.isOf other) = none := by
        rw [← Option.map_eq_none_iff, ← h.known other hseed, kept?_congr hs, hk]
      have hd : Load.isOf other ⟨files, path, c⟩ := hs
      rw [if_pos hs, hn, List.find?_cons_of_pos hd]
      rfl
    · have hd : ¬ Load.isOf other ⟨files, path, c⟩ := hs
      rw [if_neg hs, h.known other hseed, List.find?_cons_of_neg hd, List.find?_nil, Option.or_none]
  counts := by
    rw [counted_keep, cache_keep, List.length_cons, h.counts]

/-- A load goes on with what is known. -/
theorem load (ho : Path.Ordered seeds) (h : Tracked seeds done c) (files : Files)
    (path : String) : Tracked seeds (done ++ [⟨files, path, c⟩]) (c.load files path).2 := by
  cases hk : c.kept? path with
  | some entry =>
    rw [load_of_kept hk]
    exact h.load_same ho (.inl (hk ▸ rfl)) files
  | none =>
    rw [load_of_not_kept hk]
    dsimp only
    split
    · rename_i hp
      exact h.load_keep hk hp files
    · rename_i hp
      exact h.load_same ho (.inr hp) files

end Tracked

/-! ## Loads in a row -/

/-- From a corpus to another by loads in the order of a list, with pushes between them. -/
inductive Followed : Corpus → List Load → Corpus → Prop where
  | done (c : Corpus) : Followed c [] c
  | push {c c' : Corpus} {loads : List Load} (path : String) :
    Followed (c.push path) loads c' → Followed c loads c'
  | load {c c' : Corpus} {loads : List Load} (files : Files) (path : String) :
    Followed (c.load files path).2 loads c' → Followed c (⟨files, path, c⟩ :: loads) c'

namespace Followed

variable {loads more : List Load} {c'' : Corpus} {seeds : List String} {done : List Load}

theorem trans (h : Followed c loads c') (h' : Followed c' more c'') :
    Followed c (loads ++ more) c'' := by
  induction h with
  | done c => exact h'
  | push path _ ih => exact .push path (ih h')
  | load files path _ ih => exact .load files path (ih h')

theorem tracked (h : Followed c loads c') (ho : Path.Ordered seeds) (ht : Tracked seeds done c) :
    Tracked seeds (done ++ loads) c' := by
  induction h generalizing done with
  | done c => rwa [List.append_nil]
  | push path _ ih => exact ih (ht.push path)
  | load files path _ ih =>
    rw [List.append_cons]
    exact ih (ht.load ho files path)

/-- Each load in a row is of a corpus that knows what the loads in front of it found. -/
theorem tracked_before (h : Followed c loads c') (ho : Path.Ordered seeds)
    (ht : Tracked seeds done c) {front back : List Load} {l : Load}
    (hl : loads = front ++ l :: back) : Tracked seeds (done ++ front) l.before := by
  induction h generalizing done front with
  | done c => exact absurd hl (by simp)
  | push path _ ih => exact ih (ht.push path) hl
  | load files path _ ih =>
    cases front with
    | nil =>
      obtain ⟨rfl, -⟩ := List.cons.inj hl
      rwa [List.append_nil]
    | cons first front =>
      obtain ⟨rfl, rest⟩ := List.cons.inj hl
      rw [List.append_cons]
      exact ih (ht.load ho files path) rest

/-- A load of a seed is of a corpus that keeps what the first load of the seed found. -/
theorem kept?_before (h : Followed c loads c') (ho : Path.Ordered seeds) (ht : Tracked seeds [] c)
    {seed : String} (hm : seed ∈ seeds) {front back : List Load} {l : Load} (hs : l.isOf seed)
    (hl : loads = front ++ l :: back) :
    l.before.kept? l.path = (front.find? (Load.isOf seed)).map Load.found := by
  have before := h.tracked_before ho ht hl
  rw [← kept?_congr hs]
  rw [← before.seeds_eq] at ho hm
  exact before.known seed ((isSeed_iff ho).2 ⟨seed, hm, Path.same_iff.2 rfl⟩)

/-- The first load of a seed reads. -/
theorem reads_first (h : Followed c loads c') (ho : Path.Ordered seeds) (ht : Tracked seeds [] c)
    {seed : String} (hm : seed ∈ seeds) {first : Load}
    (hf : loads.find? (Load.isOf seed) = some first) : first.reads := by
  obtain ⟨hs, front, back, hl, hn⟩ := List.find?_eq_some_iff_append.1 hf
  have none : front.find? (Load.isOf seed) = none :=
    List.find?_eq_none.2 fun l hl => by simpa using hn l hl
  rw [Load.reads, h.kept?_before ho ht hm hs hl, none]
  rfl

/-- Every load of a seed gives what its first load found. -/
theorem result_eq (h : Followed c loads c') (ho : Path.Ordered seeds) (ht : Tracked seeds [] c)
    {seed : String} (hm : seed ∈ seeds) {l : Load} (hl : l ∈ loads) (hs : l.isOf seed) :
    ∃ first, loads.find? (Load.isOf seed) = some first ∧ l.result = first.found := by
  obtain ⟨front, back, split⟩ := List.append_of_mem hl
  have kept := h.kept?_before ho ht hm hs split
  rw [split, List.find?_append, List.find?_cons_of_pos hs]
  cases hf : front.find? (Load.isOf seed) with
  | none =>
    rw [hf] at kept
    exact ⟨l, rfl, Load.result_of_reads (Option.isNone_iff_eq_none.2 kept)⟩
  | some first =>
    rw [hf] at kept
    exact ⟨first, rfl, by rw [Load.result, load_of_kept kept]⟩

/-- Of the loads of a seed, only the first one reads. -/
theorem countP_reads_le (h : Followed c loads c') (ho : Path.Ordered seeds)
    (ht : Tracked seeds [] c) {seed : String} (hm : seed ∈ seeds) :
    (loads.countP fun l => l.isOf seed && l.reads) ≤ 1 := by
  cases hf : loads.find? (Load.isOf seed) with
  | none =>
    have none : (loads.countP fun l => l.isOf seed && l.reads) = 0 :=
      List.countP_eq_zero.2 fun l hl => by simp [List.find?_eq_none.1 hf l hl]
    omega
  | some first =>
    obtain ⟨hs, front, back, split, hn⟩ := List.find?_eq_some_iff_append.1 hf
    have inFront : (front.countP fun l => l.isOf seed && l.reads) = 0 :=
      List.countP_eq_zero.2 fun l hl => by simp [by simpa using hn l hl]
    -- A load behind the first one is of a corpus that keeps the seed.
    have behind : (back.countP fun l => l.isOf seed && l.reads) = 0 := by
      refine List.countP_eq_zero.2 fun l hl hb => ?_
      obtain ⟨hsl, hr⟩ := Bool.and_eq_true_iff.1 hb
      obtain ⟨between, rest, rfl⟩ := List.append_of_mem hl
      have split' : loads = (front ++ first :: between) ++ l :: rest := by simp [split]
      have kept := h.kept?_before ho ht hm hsl split'
      rw [Option.isNone_iff_eq_none.1 hr, eq_comm, Option.map_eq_none_iff, List.find?_eq_none]
        at kept
      exact kept first (by simp) hs
    rw [split, List.countP_append, List.countP_cons, inFront, behind]
    split <;> omega

end Followed

/-! ## Uses -/

/-- What a corpus is asked, with the files as they are at that time. -/
inductive Use where
  | load (files : Files) (path : String)
  | sampleAt (files : Files) (path : String) (kind : Kind) (rank : Nat)
  | sample (files : Files) (kind : Kind) (e : Enclosure) (stream : Stream)
  | push (path : String)

/-- The loads that a draw of a sample makes. -/
def loadsWithin (files : Files) (kind : Kind) (e : Enclosure) : Nat → Corpus → Stream → List Load
  | 0, _, _ => []
  | attempts + 1, c, stream =>
    match c.pickPath stream with
    | (none, _) => []
    | (some path, stream) =>
      let l : Load := ⟨files, path, c⟩
      match l.result with
      | none => l :: loadsWithin files kind e attempts l.after stream
      | some entry =>
        match Draw.choose (offers entry kind e) stream with
        | (some _, _) => [l]
        | (none, stream) => l :: loadsWithin files kind e attempts l.after stream

namespace Use

/-- The corpus after a use. -/
def run : Use → Corpus → Corpus
  | load files path, c => (c.load files path).2
  | sampleAt files path kind rank, c => (c.sampleAt files path kind rank).2
  | sample files kind e stream, c => (sampler files kind e c stream).1.2
  | push path, c => c.push path

/-- The entry that a use gives, by itself or with a node of it. -/
def entry? : Use → Corpus → Option Entry
  | load files path, c => (c.load files path).1
  | sampleAt files path kind rank, c => (c.sampleAt files path kind rank).1.map Sample.entry
  | sample files kind e stream, c => (sampler files kind e c stream).1.1.map Sample.entry
  | push _, _ => none

/-- The loads that a use makes. -/
def loads : Use → Corpus → List Load
  | load files path, c => [⟨files, path, c⟩]
  | sampleAt files path _ _, c => [⟨files, path, c⟩]
  | sample files kind e stream, c => loadsWithin files kind e c.maxAttempts c stream
  | push _, _ => []

end Use

/-- A draw of a sample is its loads, the last of which gives the entry. -/
theorem followed_loadsWithin (files : Files) (kind : Kind) (e : Enclosure) (attempts : Nat)
    (c : Corpus) (stream : Stream) :
    Followed c (loadsWithin files kind e attempts c stream)
        (sampleWithin files kind e attempts c stream).1.2 ∧
      ∀ sample ∈ (sampleWithin files kind e attempts c stream).1.1,
        ∃ l ∈ loadsWithin files kind e attempts c stream, l.result = some sample.entry := by
  induction attempts generalizing c stream with
  | zero => exact ⟨.done c, nofun⟩
  | succ attempts ih =>
    rw [run_sampleWithin, loadsWithin]
    rcases c.pickPath stream with ⟨_ | path, stream⟩
    · exact ⟨.done c, nofun⟩
    · dsimp only
      rcases hl : c.load files path with ⟨result, after⟩
      have hr : Load.result ⟨files, path, c⟩ = result := congrArg Prod.fst hl
      have ha : Load.after ⟨files, path, c⟩ = after := congrArg Prod.snd hl
      have first : ∀ {loads c'}, Followed after loads c' →
          Followed c (⟨files, path, c⟩ :: loads) c' := fun h =>
        .load files path ((congrArg Prod.snd hl).symm ▸ h)
      have again : ∀ stream,
          Followed c (⟨files, path, c⟩ :: loadsWithin files kind e attempts after stream)
              (sampleWithin files kind e attempts after stream).1.2 ∧
            ∀ sample ∈ (sampleWithin files kind e attempts after stream).1.1,
              ∃ l ∈ ⟨files, path, c⟩ :: loadsWithin files kind e attempts after stream,
                l.result = some sample.entry := by
        intro stream
        obtain ⟨followed, gave⟩ := ih after stream
        refine ⟨first followed, fun sample hs => ?_⟩
        obtain ⟨l, hm, hl⟩ := gave sample hs
        exact ⟨l, List.mem_cons_of_mem _ hm, hl⟩
      rw [hr, ha]
      cases result with
      | none => exact again stream
      | some entry =>
        dsimp only
        rcases Draw.choose (offers entry kind e) stream with ⟨_ | node, stream⟩
        · exact again stream
        · refine ⟨first (.done after), fun sample hs => ⟨_, List.mem_cons_self, ?_⟩⟩
          rw [hr, ← Option.some.inj hs]

/-- A use is its loads, one of which gives the entry. -/
theorem Use.followed (use : Use) (c : Corpus) :
    Followed c (use.loads c) (use.run c) ∧
      ∀ entry ∈ use.entry? c, ∃ l ∈ use.loads c, l.result = some entry := by
  cases use with
  | load files path =>
    exact ⟨.load files path (.done _), fun entry he => ⟨_, List.mem_cons_self, he⟩⟩
  | sampleAt files path kind rank =>
    refine ⟨.load files path (.done _), fun entry he => ⟨_, List.mem_cons_self, ?_⟩⟩
    obtain ⟨sample, hs, rfl⟩ := Option.map_eq_some_iff.1 he
    obtain ⟨entry, hl, hs⟩ := Option.bind_eq_some_iff.1 hs
    obtain ⟨candidate, -, rfl⟩ := Option.map_eq_some_iff.1 hs
    exact hl
  | sample files kind e stream =>
    obtain ⟨followed, gave⟩ := followed_loadsWithin files kind e c.maxAttempts c stream
    refine ⟨followed, fun entry he => ?_⟩
    obtain ⟨sample, hs, rfl⟩ := Option.map_eq_some_iff.1 he
    exact gave sample hs
  | push path => exact ⟨.push path (.done _), nofun⟩

/-- The corpus after uses in a row. -/
def afterUses (c : Corpus) (uses : List Use) : Corpus :=
  uses.foldl (fun c use => use.run c) c

/-- The loads that uses in a row make. -/
def loadsOf : Corpus → List Use → List Load
  | _, [] => []
  | c, use :: uses => use.loads c ++ loadsOf (use.run c) uses

theorem followed_uses (c : Corpus) (uses : List Use) :
    Followed c (loadsOf c uses) (c.afterUses uses) := by
  induction uses generalizing c with
  | nil => exact .done c
  | cons use uses ih => exact (use.followed c).1.trans (ih (use.run c))

theorem loadsOf_append (c : Corpus) (front back : List Use) :
    loadsOf c (front ++ back) = loadsOf c front ++ loadsOf (c.afterUses front) back := by
  induction front generalizing c with
  | nil => rfl
  | cons use front ih =>
    rw [List.cons_append, loadsOf, loadsOf, ih, List.append_assoc]
    rfl

/-- No use gives an entry that none of the loads gave. -/
theorem exists_load_of_entry? {c : Corpus} {uses front back : List Use} {use : Use}
    (split : uses = front ++ use :: back) :
    ∀ entry ∈ use.entry? (c.afterUses front), ∃ l ∈ loadsOf c uses, l.result = some entry := by
  intro entry he
  obtain ⟨l, hl, hr⟩ := (use.followed (c.afterUses front)).2 entry he
  refine ⟨l, ?_, hr⟩
  rw [split, loadsOf_append, loadsOf]
  exact List.mem_append_right _ (List.mem_append_left _ hl)

/-! ## The account -/

theorem Tracked.length_cache {seeds : List String} {loads : List Load}
    (ho : Path.Ordered seeds) (h : Tracked seeds loads c) :
    c.cache.length = seeds.countP fun seed => loads.any (Load.isOf seed) := by
  obtain rfl := h.seeds_eq
  have loaded : ∀ seed ∈ c.seeds, loads.any (Load.isOf seed) ↔ (c.kept? seed).isSome := by
    intro seed hm
    rw [h.known seed ((isSeed_iff ho).2 ⟨seed, hm, Path.same_iff.2 rfl⟩), Option.isSome_map,
      List.find?_isSome, List.any_eq_true]
  have keys : (c.cache.map fun kept => Path.key kept.1).Nodup :=
    List.pairwise_map.2 (h.apart.imp fun hs he => hs (Path.same_iff.2 he))
  have seeds : ((c.seeds.filter fun seed => loads.any (Load.isOf seed)).map Path.key).Nodup :=
    List.pairwise_map.2 ((ho.imp fun hlt => ne_of_lt hlt).filter _)
  have perm := (List.perm_ext_iff_of_nodup keys seeds).2 fun key => ?_
  · rw [List.countP_eq_length_filter, ← List.length_map (f := Path.key), ← perm.length_eq,
      List.length_map]
  rw [List.mem_map, List.mem_map]
  constructor
  · rintro ⟨kept, hk, rfl⟩
    obtain ⟨seed, hm, hs⟩ := (isSeed_iff ho).1 (h.keys kept hk)
    refine ⟨seed, List.mem_filter.2 ⟨hm, (loaded seed hm).2 ?_⟩, (Path.same_iff.1 hs).symm⟩
    exact kept?_isSome.2 ⟨kept, hk, Path.same_comm.1 hs⟩
  · rintro ⟨seed, hm, rfl⟩
    obtain ⟨hm, hl⟩ := List.mem_filter.1 hm
    obtain ⟨kept, hk, hs⟩ := kept?_isSome.1 ((loaded seed hm).1 hl)
    exact ⟨kept, hk, (Path.same_iff.1 hs).symm⟩

/-- What a corpus keeps and counts is accounted for by the loads that were made of it. -/
structure Accounted (loads : List Load) (c : Corpus) : Prop where
  /-- Only seeds are kept. -/
  keys : ∀ kept ∈ c.cache, ∃ seed ∈ c.seeds, Path.same kept.1 seed
  /-- No seed is read twice. -/
  readOnce : ∀ seed ∈ c.seeds, (loads.countP fun l => l.isOf seed && l.reads) ≤ 1
  /-- All loads of a seed give what was in its file when the first one read it. -/
  first : ∀ seed ∈ c.seeds, ∀ l ∈ loads, l.isOf seed →
    ∃ first, loads.find? (Load.isOf seed) = some first ∧ first.reads ∧ l.result = first.found
  /-- A load that does not read gives the same over any files. -/
  unread : ∀ l ∈ loads, l.reads = false →
    ∀ files, l.before.load files l.path = (l.result, l.before)
  /-- What is no seed is read anew and leaves everything as it was. -/
  strangers : ∀ l ∈ loads, (∀ seed ∈ c.seeds, ¬ l.isOf seed) →
    l.reads ∧ l.result = l.found ∧ l.after = l.before
  /-- The seeds that are counted are those that were loaded. -/
  counts : c.counted = c.seeds.countP fun seed => loads.any (Load.isOf seed)

theorem Load.load_of_not_reads {l : Load} (h : l.reads = false) (files : Files) :
    l.before.load files l.path = (l.result, l.before) := by
  obtain ⟨entry, he⟩ := Option.isSome_iff_exists.1 (Option.isNone_eq_false_iff.1 h)
  rw [load_of_kept he, Load.result, load_of_kept he]

theorem Followed.accounted {loads : List Load} (ho : Path.Ordered c.seeds)
    (ht : Tracked c.seeds [] c) (h : Followed c loads c') : Accounted loads c' := by
  have after := h.tracked ho ht
  rw [List.nil_append] at after
  have hseeds := after.seeds_eq
  refine ⟨fun kept hk => ?_, fun seed hm => ?_, fun seed hm l hl hs => ?_,
    fun l _ hr => l.load_of_not_reads hr, fun l hl hn => ?_, ?_⟩
  · exact (isSeed_iff (hseeds ▸ ho)).1 (after.keys kept hk)
  · exact h.countP_reads_le ho ht (hseeds ▸ hm)
  · obtain ⟨first, hf, hr⟩ := h.result_eq ho ht (hseeds ▸ hm) hl hs
    exact ⟨first, hf, h.reads_first ho ht (hseeds ▸ hm) hf, hr⟩
  · obtain ⟨front, back, split⟩ := List.append_of_mem hl
    have before := h.tracked_before ho ht split
    have stranger : ¬ l.before.isSeed l.path := by
      rw [isSeed_iff (before.seeds_eq ▸ ho), before.seeds_eq, ← hseeds]
      rintro ⟨seed, hm, hs⟩
      exact hn seed hm (Path.same_comm.1 hs)
    have kept : l.before.kept? l.path = none := by
      rw [← Option.not_isSome_iff_eq_none]
      exact fun hk => stranger (before.isSeed_of_kept ho hk)
    have reads : l.reads := Option.isNone_iff_eq_none.2 kept
    refine ⟨reads, Load.result_of_reads reads, ?_⟩
    rw [Load.after, load_of_not_kept kept, if_neg stranger]
  · rw [after.counts, after.length_cache ho, hseeds]

/-- However a corpus is used while the files change: its seeds are those that it was given, in
order and without repetitions; what it learns and gives, it has from loads in a row, and these
account for all that it keeps and counts, which is never more than there are seeds. -/
theorem accounted_afterUses (seeds pool : List String) (settings : CorpusSettings)
    (uses : List Use) :
    let start := ofPaths seeds pool settings
    let c := start.afterUses uses
    (c.seeds = start.seeds ∧ Path.Ordered c.seeds ∧
      ∀ path, (∃ seed ∈ c.seeds, Path.same path seed) ↔ ∃ seed ∈ seeds, Path.same path seed) ∧
    Followed start (loadsOf start uses) c ∧
    (∀ front use back, uses = front ++ use :: back →
      ∀ entry ∈ use.entry? (start.afterUses front),
        ∃ l ∈ loadsOf start uses, l.result = some entry) ∧
    Accounted (loadsOf start uses) c ∧
    c.counted ≤ c.seeds.length := by
  intro start c
  have ho : Path.Ordered start.seeds := Path.ordered_dedup_sort seeds
  have ht := tracked_ofPaths seeds pool settings
  have followed := followed_uses start uses
  have hseeds : c.seeds = start.seeds := (followed.tracked ho ht).seeds_eq
  have accounted := followed.accounted ho ht
  refine ⟨⟨hseeds, hseeds ▸ ho, fun path => ?_⟩, followed,
    fun _ _ _ split => exists_load_of_entry? split, accounted, ?_⟩
  · rw [hseeds]
    exact Path.exists_same_dedup_sort path
  · rw [accounted.counts]
    exact List.countP_le_length

end Corpus

end Graft
