import Graft.Proofs.Grammar.Stored
import Graft.Proofs.Pass.Legality

/-!
# What is borrowed

All that a structural pass borrows comes from texts that were read. A corpus keeps only what it has
read, so that each of its samples is a node of such an entry, of the kind that was asked for; and a
declaration that is imported is one that its entry has under the name that is missing.

* `Sampler.Stocked` - a sampler together with a state in which all that it keeps was read
* `Sampler.Supplies` - what a walk relies on
* `declares_of_provider` - what provides a name declares it
-/

namespace Graft

open Chance (Draw Stream)
open Script (root)

variable {σ α ν : Type}

/-! ## Declarations that are imported -/

namespace Imported

/-- The name that a node declares if it is a declaration of a kind. -/
def declared? : Imported → Node α ν → Option ν
  | functionDecl, .functionDecl name _ _ => some name
  | classDecl, .classDecl name _ _ => some name
  | _, _ => none

/-- What is declared by a kind of declaration is among the names that a node declares. -/
theorem mem_declaredNames {kind : Imported} {n : Node α ν} {x : ν} (h : kind.declared? n = some x) :
    x ∈ n.declaredNames := by
  cases kind <;> cases n <;> simp_all [declared?, Node.declaredNames]

theorem isStatement_of_declared {kind : Imported} {n : Node α ν} {x : ν}
    (h : kind.declared? n = some x) : n.kind.isStatement := by
  cases kind <;> cases n <;> simp_all [declared?, Node.kind, Kind.isStatement]

/-- The declarations of a kind in an index. -/
def entries (kind : Imported) (index : ScopeIndex) : List (Sym × NodeId) :=
  match kind with
  | functionDecl => index.functions
  | classDecl => index.classes

theorem entries_ofScript (kind : Imported) (s : Script) :
    kind.entries (.ofScript s) =
      (s.preorder root).filterMap fun id => (kind.declared? (s.node id)).map (·, id) := by
  cases kind <;>
  · refine List.filterMap_congr fun id _ => ?_
    cases s.node id <;> rfl

theorem find?_eq_lookup (kind : Imported) (index : ScopeIndex) (name : Sym) :
    kind.find? index name = (kind.entries index).lookup name := by
  cases kind <;> rfl

/-- An index finds nodes of the program that declare the name. -/
theorem declared_of_find {kind : Imported} {s : Script} {name : Sym} {id : NodeId}
    (h : kind.find? (.ofScript s) name = some id) :
    id ∈ s.preorder root ∧ kind.declared? (s.node id) = some name := by
  rw [find?_eq_lookup, entries_ofScript] at h
  obtain ⟨place, hp, he⟩ := List.mem_filterMap.1 (Pass.mem_of_lookup h)
  obtain ⟨x, hx, he⟩ := Option.map_eq_some_iff.1 he
  obtain ⟨rfl, rfl⟩ := Prod.mk.inj he
  exact ⟨hp, hx⟩

/-- Where an index finds nothing, no node of the program declares the name. -/
theorem undeclared_of_find {kind : Imported} {s : Script} {name : Sym}
    (h : kind.find? (.ofScript s) name = none) :
    ∀ id ∈ s.preorder root, kind.declared? (s.node id) ≠ some name := by
  intro id hid hd
  rw [find?_eq_lookup, entries_ofScript, List.lookup_eq_none_iff] at h
  have entry : (name, id) ∈ (s.preorder root).filterMap fun id =>
      (kind.declared? (s.node id)).map (·, id) :=
    List.mem_filterMap.2 ⟨id, hid, by rw [hd]; rfl⟩
  simpa using h _ entry

/-- What provides a name is a node of the source that declares it. -/
theorem declares_of_provider {kind : Imported} {path : String} {s : Script} {name : String}
    {id : NodeId} (h : kind.provider? (.ofScript path s) name = some id) :
    ∃ x, s.names.text? x = some name ∧ id ∈ s.preorder root ∧
      kind.declared? (s.node id) = some x := by
  unfold provider? at h
  obtain ⟨x, hx, h⟩ := Option.bind_eq_some_iff.1 h
  obtain ⟨declaration, hd, h⟩ := Option.bind_eq_some_iff.1 h
  split at h
  · obtain rfl := Option.some.inj h
    exact ⟨x, ((Names.lookup_eq_some_iff ..).1 hx).1, declared_of_find hd⟩
  · cases h

end Imported

/-! ## Samplers -/

/-- A sampler whose samples were read and are of the kind that was asked for, as long as what it
keeps was read. -/
structure Sampler.Supplies (sampler : Sampler σ) (Kept : σ → Prop) : Prop where
  legal : sampler.Legal
  kept : ∀ kind e samples stream, Kept samples → Kept (sampler kind e samples stream).1.2
  read : ∀ kind e samples stream, Kept samples →
    ∀ sample ∈ (sampler kind e samples stream).1.1,
      sample.entry.Read ∧ sample.entry.script.kind sample.node = kind

/-- Every entry that a corpus keeps was read. -/
def Corpus.Stocked (c : Corpus) : Prop :=
  ∀ kept ∈ c.cache, ∀ entry ∈ kept.2, entry.Read

/-- The samplers that there are, with the states that they are in when all that they keep was
read. -/
inductive Sampler.Stocked : {σ : Type} → Sampler σ → σ → Prop where
  | corpus (files : Files) {c : Corpus} : c.Stocked → Stocked (Corpus.sampler files) c
  | pinned {σ : Type} {sample : Sample} (samples : σ) : sample.entry.Read →
    Stocked (Sample.pinned sample : Sampler σ) samples

theorem read_of_entry {files : Files} {path : String} {entry : Entry}
    (h : Entry.read files path = .ok entry) : entry.Read := by
  unfold Entry.read at h
  split at h
  · cases h
  · rename_i source _
    split at h
    · rename_i script hs
      exact ⟨path, source, script, hs, (Except.ok.inj h).symm⟩
    · cases h

theorem Entry.Read.wellformed {entry : Entry} (h : entry.Read) : entry.script.Wellformed := by
  obtain ⟨path, source, script, hs, rfl⟩ := h
  exact wellformed_read hs

/-- A node that was drawn is of the kind that was asked for. -/
theorem kind_of_mem_candidates {s : Script} (h : s.Rooted root) {kind : Kind} {id : NodeId}
    {e : Enclosure} (hc : (id, e) ∈ s.candidates kind) : s.kind id = kind := by
  obtain ⟨⟨t, e'⟩, ht, he⟩ := List.mem_map.1 hc
  obtain ⟨rfl, rfl⟩ := Prod.mk.inj he
  obtain ⟨ht, hk⟩ := List.mem_filter.1 ht
  have mem : t ∈ (s.tree root).preorder := by
    rw [← Tree.map_fst_placed _ .outermost]
    exact List.mem_map_of_mem ht
  obtain ⟨i, hi, rfl⟩ := h.eq_tree_of_mem_preorder mem
  simp only [Bool.and_eq_true, beq_iff_eq] at hk
  rw [Script.tag_tree, ← (h.of_mem_preorder hi).kind_eq, hk.1]

namespace Corpus

variable {c : Corpus}

theorem stocked_ofPaths (seeds pool : List String) (settings : CorpusSettings) :
    (ofPaths seeds pool settings).Stocked :=
  nofun

theorem stocked_push (h : c.Stocked) (path : String) : (c.push path).Stocked := h

theorem stocked_load (h : c.Stocked) (files : Files) (path : String) :
    (c.load files path).2.Stocked ∧ ∀ entry ∈ (c.load files path).1, entry.Read := by
  unfold load
  split
  · rename_i kept hk
    obtain ⟨found, hf, rfl⟩ := Option.map_eq_some_iff.1 hk
    exact ⟨h, h found (List.mem_of_find?_eq_some hf)⟩
  · rcases hr : Entry.read files path with cause | entry
    · refine ⟨?_, nofun⟩
      dsimp only
      split
      · exact List.forall_mem_cons.2 ⟨nofun, h⟩
      · exact h
    · have read : ∀ e ∈ some entry, e.Read := fun e he =>
        Option.some.inj he ▸ read_of_entry hr
      refine ⟨?_, read⟩
      dsimp only
      split
      · exact List.forall_mem_cons.2 ⟨read, h⟩
      · exact h

theorem stocked_sampleWithin (files : Files) (kind : Kind) (e : Enclosure) (attempts : Nat)
    (h : c.Stocked) (stream : Stream) :
    (sampleWithin files kind e attempts c stream).1.2.Stocked ∧
      ∀ sample ∈ (sampleWithin files kind e attempts c stream).1.1, sample.entry.Read := by
  induction attempts generalizing c stream with
  | zero => exact ⟨h, nofun⟩
  | succ attempts ih =>
    rw [run_sampleWithin]
    rcases c.pickPath stream with ⟨_ | path, stream⟩
    · exact ⟨h, nofun⟩
    · have loaded := stocked_load h files path
      dsimp only
      generalize c.load files path = r at loaded ⊢
      obtain ⟨_ | entry, c⟩ := r
      · exact ih loaded.1 stream
      · dsimp only
        rcases Draw.choose (offers entry kind e) stream with ⟨_ | node, stream⟩
        · exact ih loaded.1 stream
        · exact ⟨loaded.1, fun sample hs => Option.some.inj hs ▸ loaded.2 entry rfl⟩

theorem supplies_sampler (files : Files) : (Corpus.sampler files).Supplies Stocked := by
  refine ⟨legal_corpus files, fun kind e c stream h => ?_, fun kind e c stream h sample hs => ?_⟩
  · exact (stocked_sampleWithin files kind e c.maxAttempts h stream).1
  · have read := (stocked_sampleWithin files kind e c.maxAttempts h stream).2 sample hs
    have offered := mem_offers_of_sampleWithin files kind e c.maxAttempts hs
    obtain ⟨⟨node, e'⟩, hm, he⟩ := List.mem_map.1 (List.mem_filter.1 offered).1
    obtain rfl : node = sample.node := he
    exact ⟨read, kind_of_mem_candidates read.wellformed.rooted hm⟩

end Corpus

theorem supplies_pinned {sample : Sample} (h : sample.entry.Read) :
    (Sample.pinned sample : Sampler σ).Supplies fun _ => True := by
  refine ⟨legal_pinned _, fun _ _ _ _ _ => trivial, fun kind e samples stream _ found hf => ?_⟩
  unfold Sample.pinned at hf
  by_cases hfits : sample.fits kind e
  · rw [if_pos hfits] at hf
    obtain rfl : sample = found := Option.some.inj hf
    rw [Sample.fits, Bool.and_eq_true, beq_iff_eq] at hfits
    exact ⟨h, hfits.1⟩
  · rw [if_neg hfits] at hf
    cases hf

theorem Sampler.Stocked.exists_supplies {sampler : Sampler σ} {samples : σ}
    (h : sampler.Stocked samples) : ∃ Kept : σ → Prop, sampler.Supplies Kept ∧ Kept samples := by
  cases h with
  | corpus files h => exact ⟨_, Corpus.supplies_sampler files, h⟩
  | pinned _ h => exact ⟨_, supplies_pinned h, trivial⟩

end Graft
