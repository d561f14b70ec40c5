import Graft.Mutation.Mutator
import Graft.Proofs.Pass.Imports
import Graft.Proofs.Pass.Local
import Graft.Proofs.Reading.Program

/-!
# Legal programs stay legal

A structural pass over a script that was read, or that earlier passes made of one, keeps every
`break`, `continue` and `return` inside of what it needs. Both samplers see to it that a sample may
stand where it is asked for, and the passes keep the nodes of a script a tree, which is what the
walk relies on.

* `Sampler.Supplied` - the samplers of a corpus and of one sample
* `Script.Obtained` - the scripts that reading and passes give
* `Obtained.wellformed` - such a script is a tree
* `isLegal_run` - a structural pass keeps a program legal
-/

namespace Graft

open Chance (Draw Stream Probability)
open Script (root)

variable {σ : Type}

/-! ## Samplers -/

/-- An entry as it is made from a text. -/
def Entry.Read (entry : Entry) : Prop :=
  ∃ path source script, Script.read source = .ok script ∧ entry = .ofScript path script

/-- The samplers that there are: of a corpus, and of one sample from a text. -/
inductive Sampler.Supplied : {σ : Type} → Sampler σ → Prop where
  | corpus (files : Files) : Supplied (Corpus.sampler files)
  | pinned {σ : Type} {sample : Sample} : sample.entry.Read →
    Supplied (Sample.pinned sample : Sampler σ)

theorem legal_pinned (sample : Sample) : (Sample.pinned sample : Sampler σ).Legal := by
  intro kind e samples stream found hf
  unfold Sample.pinned at hf
  by_cases h : sample.fits kind e
  · rw [if_pos h] at hf
    obtain rfl : sample = found := Option.some.inj hf
    rw [Sample.fits, Bool.and_eq_true] at h
    exact h.2
  · rw [if_neg h] at hf
    cases hf

namespace Corpus

section Run

variable {α β : Type} (c : Corpus) (stream : Stream)

theorem run_bind (p : StateT Corpus Draw α) (f : α → StateT Corpus Draw β) :
    (p >>= f) c stream = f (p c stream).1.1 (p c stream).1.2 (p c stream).2 := rfl

theorem run_get : (get : StateT Corpus Draw Corpus) c stream = ((c, c), stream) := rfl

theorem run_draw (action : Draw α) :
    (liftM action : StateT Corpus Draw α) c stream = (((action stream).1, c), (action stream).2) :=
  rfl

theorem run_modifyGet (f : Corpus → α × Corpus) :
    (modifyGet f : StateT Corpus Draw α) c stream = (f c, stream) := rfl

end Run

/-- A draw from a source: a path by chance, its entry, and a node that the entry offers by chance.
Where one of the last two is missing, another draw is made. -/
theorem run_sampleWithin (files : Files) (kind : Kind) (e : Enclosure) (attempts : Nat)
    (c : Corpus) (stream : Stream) :
    sampleWithin files kind e (attempts + 1) c stream =
      match c.pickPath stream with
      | (none, stream) => ((none, c), stream)
      | (some path, stream) =>
        match load files path c with
        | (none, c) => sampleWithin files kind e attempts c stream
        | (some entry, c) =>
          match Draw.choose (offers entry kind e) stream with
          | (some node, stream) => ((some ⟨entry, node⟩, c), stream)
          | (none, stream) => sampleWithin files kind e attempts c stream := by
  rw [sampleWithin, run_bind, run_get, run_bind, run_draw]
  rcases c.pickPath stream with ⟨_ | path, stream⟩
  · rfl
  · dsimp only
    rw [run_bind, run_modifyGet]
    rcases load files path c with ⟨_ | entry, c⟩
    · rfl
    · dsimp only
      rw [run_bind, run_draw]
      rcases Draw.choose (offers entry kind e) stream with ⟨_ | node, stream⟩ <;> rfl

/-- A sample of a corpus is among what its entry offers. -/
theorem mem_offers_of_sampleWithin (files : Files) (kind : Kind) (e : Enclosure)
    (attempts : Nat) {c : Corpus} {stream : Stream} {sample : Sample}
    (h : sample ∈ (sampleWithin files kind e attempts c stream).1.1) :
    sample.node ∈ offers sample.entry kind e := by
  induction attempts generalizing c stream with
  | zero => cases h
  | succ attempts ih =>
    rw [run_sampleWithin] at h
    split at h
    · cases h
    · split at h
      · exact ih h
      · split at h
        · rename_i node _ hc
          obtain rfl := Option.some.inj h
          exact mem_of_choose (congrArg Prod.fst hc)
        · exact ih h

end Corpus

theorem legal_corpus (files : Files) : (Corpus.sampler files).Legal := by
  intro kind e c stream sample h
  have := Corpus.mem_offers_of_sampleWithin files kind e c.maxAttempts h
  exact (List.mem_filter.1 this).2

theorem Sampler.Supplied.legal {sampler : Sampler σ} (h : sampler.Supplied) : sampler.Legal := by
  cases h with
  | corpus files => exact legal_corpus files
  | pinned _ => exact legal_pinned _

/-! ## Scripts -/

/-- The scripts that there are: those that were read, and those that passes make of them. -/
inductive Script.Obtained : Script → Prop where
  | read {source : String} {s : Script} : Script.read source = .ok s → Obtained s
  | pass {σ : Type} {sampler : Sampler σ} {s : Script} (m : Mutator σ) (strategy : Strategy) :
    Obtained s → sampler.Supplied → Obtained (m.run sampler strategy s).2.1

theorem wellformed_read {source : String} {s : Script} (h : Script.read source = .ok s) :
    s.Wellformed := by
  obtain ⟨body, shows, -⟩ := shows_read h
  obtain ⟨ids, hids, -⟩ := shows.rooted.exists_body shows.erase_eq
  exact ⟨shows.rooted, ⟨ids, hids⟩, shows.closed⟩

/-- What a structural pass does to the program that it is given. -/
theorem completed_run {sampler : Sampler σ} (hl : sampler.Legal) (m : Structural σ) {s : Script}
    (hw : s.Wellformed) :
    (m.run sampler s).2.1.Wellformed ∧ (s.isLegal → (m.run sampler s).2.1.isLegal) := by
  have start : Bench.Sound (σ := σ) ⟨s, .start s m.maxMutations, m.stream, m.samples⟩ :=
    ⟨hw.closed, Pass.sound_start hw.closed _⟩
  have done := completed_structural hl m.chance start hw rfl
  exact ⟨done.wellformed, done.legal⟩

/-- The nodes of every script that there is are a tree. -/
theorem Script.Obtained.wellformed {s : Script} (h : s.Obtained) : s.Wellformed := by
  induction h with
  | read h => exact wellformed_read h
  | pass m strategy _ hsampler ih =>
    cases strategy with
    | operators => exact NodeChange.wellformed_everywhere (NodeChange.keeps_operator _) ih _
    | literals => exact NodeChange.wellformed_everywhere (NodeChange.keeps_number _) ih _
    | structural => exact (completed_run hsampler.legal m.structural ih).1

/-- A structural pass keeps a program legal, whatever its bounds, its chances, its stream and what
its sampler has seen. -/
theorem isLegal_run {sampler : Sampler σ} (hsampler : sampler.Supplied) {s : Script}
    (hs : s.Obtained) (hl : s.isLegal) (m : Structural σ) : (m.run sampler s).2.1.isLegal :=
  (completed_run hsampler.legal m hs.wellformed).2 hl

/-- A block with a `break` in the place of a block inside a loop. -/
theorem isLegal_run_block :
    ∃ s t : Script, Script.read "while (a) { b(); }" = .ok s ∧ s.isLegal ∧
      Script.read "do { break; } while (c);" = .ok t ∧ t.kind 2 = .block ∧
      (Structural.run (Sample.pinned ⟨.ofScript "t.js" t, 2⟩)
        ⟨1, .always, .seeded 0, ()⟩ s).2.1.isLegal := by
  obtain ⟨s, hs, hl⟩ : ∃ s, Script.read "while (a) { b(); }" = .ok s ∧ s.isLegal :=
    exists_read (by decide +kernel)
  obtain ⟨t, ht, hk⟩ : ∃ t, Script.read "do { break; } while (c);" = .ok t ∧
      decide (t.kind 2 = .block) = true := exists_read (by decide +kernel)
  exact ⟨s, t, hs, hl, ht, of_decide_eq_true hk,
    isLegal_run (.pinned ⟨_, _, _, ht, rfl⟩) (.read hs) hl _⟩

end Graft
