import Graft.Proofs.Pass.Looks

/-!
# The growth of the queue

The queue of a pass changes only when a repair asks for an import. Then it stays as it is, or it has
this import behind the others: a declaration of the source that has the name that is asked for and
may stand outside of everything. At that moment nothing under this name is pending, the program has
no declaration of the kind under this name, and the tree that is being repaired does not declare it.

Names are compared as texts, since a script and its sources have tables of their own. In one table
no text has two symbols, so that comparing symbols of one script does the same.

* `Request` - an import is asked for
* `Request.Queues` - what holds when an import is queued
* `Appended` - queues that differ in what the requests between them have queued
* `appended_repairing` - the requests of a repair
* `queue_run` - the queue in a structural pass
-/

namespace Graft

open Chance (Probability)
open Script (root)
open Work

variable {σ : Type} {Kept : σ → Prop} {sampler : Sampler σ} {chance : Probability} {b : Bench σ}
  {K : Sym → Prop} {copy : NodeId} {source : Entry} {nodes : List (NodeId × Option NodeId)}
  {renames : Renames}

/-! ## Requests -/

/-- A repair asks for an import: the pass at that moment, the root of the tree that is being
repaired, the entry that this tree comes from, and the name and the kind of the declaration. -/
structure Request (σ : Type) where
  before : Bench σ
  copy : NodeId
  source : Entry
  name : Sym
  kind : Imported

/-- The pass when a request has been dealt with. -/
def Request.after (r : Request σ) : Bench σ :=
  (onPass (fun s p => p.queueImport s r.name r.kind r.source) r.before).2

/-- What an import brings in is a declaration in its source, of a kind and under a name, that may
stand outside of everything. -/
structure Import.Declares (entry : Import) (kind : Imported) (name : String) : Prop where
  inside : entry.declaration ∈ entry.source.script.preorder root
  named : ∃ x, entry.source.script.names.text? x = some name ∧
    kind.declared? (entry.source.script.node entry.declaration) = some x
  admissible : entry.source.script.admissible entry.declaration .outermost

theorem Import.declares_of_provider {kind : Imported} {name : String} {declaration : NodeId}
    (read : source.Read) (h : kind.provider? source name = some declaration) :
    Import.Declares ⟨declaration, source⟩ kind name := by
  have admissible := Imported.admissible_of_provider h
  obtain ⟨path, input, script, -, rfl⟩ := read
  obtain ⟨x, hx, inside, declared⟩ := Imported.declares_of_provider h
  exact ⟨inside, ⟨x, hx, declared⟩, admissible⟩

/-- A request queues an import under a name. -/
structure Request.Queues (r : Request σ) (q : Sym × Import) (name : String) : Prop where
  key : q.1 = r.name
  text : r.before.script.names.text? r.name = some name
  source : q.2.source = r.source
  declares : q.2.Declares r.kind name
  /-- Nothing is pending under the name. -/
  fresh : ∀ q' ∈ r.before.pass.pending, r.before.script.names.text? q'.1 ≠ some name
  /-- The program has no declaration of the kind under the name. -/
  missing : ∀ i ∈ r.before.script.preorder root, ∀ x,
    r.kind.declared? (r.before.script.node i) = some x → r.before.script.names.text? x ≠ some name
  /-- The tree that is being repaired does not declare the name. -/
  undeclared : ∀ i ∈ r.before.script.preorder r.copy, ∀ x ∈ (r.before.script.node i).declaredNames,
    r.before.script.names.text? x ≠ some name

/-- A request that needs no import: the tree that is being repaired declares the name, it is
pending, the program declares it, or the source does not provide it. -/
def Request.Answered (r : Request σ) : Prop :=
  r.before.pass.Answered r.before.script r.source r.kind r.name

/-- A queue that has become another one in a list of requests: each of them was answered, or it has
put its import behind what was pending. -/
inductive Appended : List (Sym × Import) → List (Request σ) → List (Sym × Import) → Prop where
  | nil (queue : List (Sym × Import)) : Appended queue [] queue
  | kept {queue queue' : List (Sym × Import)} {r : Request σ} {rest : List (Request σ)} :
    r.before.pass.pending = queue → r.after.pass.pending = queue → r.Answered →
    Appended queue rest queue' → Appended queue (r :: rest) queue'
  | queued {queue queue' : List (Sym × Import)} {r : Request σ} {rest : List (Request σ)}
    {q : Sym × Import} {name : String} :
    r.before.pass.pending = queue → r.after.pass.pending = queue ++ [q] → r.Queues q name →
    Appended (queue ++ [q]) rest queue' → Appended queue (r :: rest) queue'

namespace Appended

variable {queue queue' queue'' : List (Sym × Import)} {requests more : List (Request σ)}

theorem append (h : Appended queue requests queue') (h' : Appended queue' more queue'') :
    Appended queue (requests ++ more) queue'' := by
  induction h with
  | nil => exact h'
  | kept before after answered _ ih => exact .kept before after answered (ih h')
  | queued before after queues _ ih => exact .queued before after queues (ih h')

/-- What is pending stays as it is. -/
theorem isPrefix (h : Appended queue requests queue') : queue <+: queue' := by
  induction h with
  | nil => exact List.prefix_refl _
  | kept _ _ _ _ ih => exact ih
  | queued _ _ _ _ ih => exact (List.prefix_append _ _).trans ih

/-- What is pending behind a request stays as it is. -/
theorem isPrefix_of_mem (h : Appended queue requests queue') {r : Request σ} (hr : r ∈ requests) :
    r.after.pass.pending <+: queue' := by
  induction h with
  | nil => cases hr
  | kept _ after _ rest ih =>
    rcases List.mem_cons.1 hr with rfl | hr
    · exact after ▸ rest.isPrefix
    · exact ih hr
  | queued _ after _ rest ih =>
    rcases List.mem_cons.1 hr with rfl | hr
    · exact after ▸ rest.isPrefix
    · exact ih hr

/-- What has become pending was queued in a request. -/
theorem exists_request (h : Appended queue requests queue') {q : Sym × Import} (hq : q ∈ queue') :
    q ∈ queue ∨ ∃ r ∈ requests, ∃ name, r.Queues q name := by
  induction h with
  | nil => exact .inl hq
  | kept _ _ _ _ ih =>
    rcases ih hq with old | ⟨r, hr, queues⟩
    · exact .inl old
    · exact .inr ⟨r, List.mem_cons_of_mem _ hr, queues⟩
  | queued _ _ queues _ ih =>
    rcases ih hq with old | ⟨r, hr, queues'⟩
    · rcases List.mem_append.1 old with old | new
      · exact .inl old
      · obtain rfl := List.mem_singleton.1 new
        exact .inr ⟨_, List.mem_cons_self, _, queues⟩
    · exact .inr ⟨r, List.mem_cons_of_mem _ hr, queues'⟩

end Appended

namespace Work

/-- The requests in the repair of a node. -/
def requestsMending (copy : NodeId) (source : Entry) (id : NodeId) (parent : Option NodeId)
    (b : Bench σ) : List (Request σ) :=
  match Imported.asked? b.script id parent with
  | some (name, kind) => [⟨b, copy, source, name, kind⟩]
  | none => []

/-- The requests in the repair of nodes. -/
def requestsRepairing (copy : NodeId) (source : Entry) :
    List (NodeId × Option NodeId) → Renames → Bench σ → List (Request σ)
  | [], _, _ => []
  | (id, parent) :: rest, renames, b =>
    let (renames', b') := repairNode source renames id parent b
    requestsMending copy source id parent b ++ requestsRepairing copy source rest renames' b'

/-- The requests when a node of an entry is copied and the copy is repaired. -/
def requestsBorrowing (source : Entry) (place : NodeId) (b : Bench σ) : List (Request σ) :=
  let (copy, script) := Script.copy source.script place b.script
  let b := { b with script }
  requestsRepairing copy source (family b.script copy) [] (b.showing (shown copy b))

/-- The requests when a sample is put in the place of a node. -/
def requestsSplicing (sampler : Sampler σ) (id : NodeId) (b : Bench σ) : List (Request σ) :=
  match sampler (b.script.kind id) b.pass.enclosure b.samples b.stream with
  | ((none, _), _) => []
  | ((some sample, samples), stream) =>
    requestsBorrowing sample.entry sample.node { b with samples, stream }

/-- The requests when the imports from a rank on are brought in, as long as the rounds last. -/
def requestsFlushing : Nat → Nat → Bench σ → List (Request σ)
  | 0, _, _ => []
  | rounds + 1, rank, b =>
    match b.pass.pending[rank]? with
    | none => []
    | some (_, entry) =>
      requestsBorrowing entry.source entry.declaration b ++
        requestsFlushing rounds (rank + 1) (bringIn entry b).2

end Work

/-- The requests in a turn: those of a splice, if chance has it that there is one. -/
def Moment.requests (sampler : Sampler σ) (chance : Probability) (m : Moment σ) :
    List (Request σ) :=
  match m.turn with
  | .enter id replaceable =>
    let (wanted, b) := chosen chance id replaceable m.before
    if wanted then requestsSplicing sampler id b else []
  | .leave _ => []

/-- All requests of a structural pass: those in its walk, and those when its imports are brought
in. -/
def Structural.requests (sampler : Sampler σ) (m : Structural σ) (s : Script)
    (moments : List (Moment σ)) : List (Request σ) :=
  moments.flatMap (Moment.requests sampler m.chance) ++
    requestsFlushing (flushBound (m.walked sampler s).pass + 1) 0 (m.walked sampler s)

/-! ## Repairs -/

/-- What is asked for is the name of an identifier. -/
theorem Imported.node_of_asked {s : Script} {id : NodeId} {parent : Option NodeId} {name : Sym}
    {kind : Imported} (h : asked? s id parent = some (name, kind)) : s.node id = .ident name := by
  unfold asked? at h
  split at h
  · rename_i found _ hn _
    split at h
    · obtain ⟨rfl, -⟩ := Prod.mk.inj (Option.some.inj h)
      exact hn
    · cases h
  · cases h

/-- Renaming a reference draws from the stream and changes the script, but not the pass. -/
theorem pass_repairReference (id : NodeId) (name : Sym) (renames : Renames) (b : Bench σ) :
    (repairReference id name renames b).2.pass = b.pass := by
  have drawn : (renamed name renames b).2.pass = b.pass := by
    unfold renamed
    cases renames.lookup name <;> rfl
  unfold repairReference
  rw [run_bind, run_get, run_bind, run_get]
  by_cases hv : b.pass.resolves b.script name
  · rw [if_pos hv, run_pure]
  · rw [if_neg hv, run_bind, ← drawn]
    generalize renamed name renames b = r
    obtain ⟨⟨_ | new, renames'⟩, b'⟩ := r <;> rfl

/-- What holds while a copied tree is repaired: its nodes can be repaired, and all names that it
declares are shown to it. -/
structure Bench.MendingCopy (K : Sym → Prop) (copy : NodeId)
    (nodes : List (NodeId × Option NodeId)) (renames : Renames) (b : Bench σ) : Prop
    extends b.Mending K nodes renames where
  distinct : b.script.names.Distinct
  copied : b.script.Rooted copy
  shown : ∀ i ∈ b.script.preorder copy, ∀ x ∈ (b.script.node i).declaredNames,
    b.pass.scope.isBorrowed x

namespace Bench.MendingCopy

/-- Repairing a node leaves the others to be repaired. -/
theorem step {id : NodeId} {parent : Option NodeId}
    (h : b.MendingCopy K copy ((id, parent) :: nodes) renames) (source : Entry) :
    let repaired := repairNode source renames id parent b
    repaired.2.MendingCopy K copy nodes repaired.1 := by
  have mending := h.toMending.step source
  obtain ⟨queued, -⟩ := queued_repairNode h.sees h.known h.closed h.exact h.rooted source
    (h.apart _ List.mem_cons_self) parent h.chosen
  obtain ⟨repaired, -⟩ := repaired_repairNode h.sees h.declared source (List.mem_singleton_self id)
    parent h.chosen
  obtain ⟨copied, places⟩ := repaired.renamed.rooted h.known h.copied
  refine ⟨mending, queued.names ▸ h.distinct, copied, ?_⟩
  -- the copy keeps its places and what it declares, and the scope stays
  intro i hi x hx
  rw [places] at hi
  rw [repaired.renamed.declaredNames_eq] at hx
  rw [queued.scope]
  exact h.shown i hi x hx

/-- Where a name is asked for, its import is queued or the queue stays as it is. -/
theorem appended_request (h : b.MendingCopy K copy nodes renames) (read : source.Read) {name : Sym}
    (known : b.script.Knows name) (kind : Imported) :
    let r : Request σ := ⟨b, copy, source, name, kind⟩
    Appended b.pass.pending [r] r.after.pass.pending := by
  intro r
  obtain ⟨text, ht⟩ := known
  -- symbols of one text are the same
  have same : ∀ {x : Sym}, b.script.names.text? x = some text → x = name := fun hx =>
    h.distinct.eq_of_text? hx ht
  obtain ⟨-, answered, scope, queued⟩ := h.exact.queueImport name kind source
  rcases queued with kept | ⟨unborrowed, fresh, missing, declaration, provided, queued⟩
  · have after : r.after.pass.pending = b.pass.pending := kept
    have before : r.Answered := by
      rw [Pass.Answered, scope, Pass.isPending_iff, kept, ← Pass.isPending_iff] at answered
      exact answered
    rw [after]
    exact .kept rfl after before (.nil _)
  · have after : r.after.pass.pending = b.pass.pending ++ [(name, ⟨declaration, source⟩)] := queued
    rw [Script.text_eq ht] at provided
    have declares := Import.declares_of_provider read provided
    rw [after]
    refine .queued rfl after ⟨rfl, ht, rfl, declares, ?_, ?_, ?_⟩ (.nil _)
    · intro q hq ht'
      exact fresh (same ht' ▸ List.mem_map_of_mem hq)
    · intro i hi x hx ht'
      exact Imported.undeclared_of_find missing i hi (same ht' ▸ hx)
    · intro i hi x hx ht'
      -- what the tree declares is shown to it, and what is shown is not asked for
      have borrowed := h.shown i hi x hx
      rw [same ht', unborrowed] at borrowed
      cases borrowed

/-- The requests in the repair of a node. -/
theorem appended_mending (h : b.MendingCopy K copy nodes renames) (read : source.Read) (id : NodeId)
    (parent : Option NodeId) : Appended b.pass.pending (requestsMending copy source id parent b)
      (repairNode source renames id parent b).2.pass.pending := by
  obtain ⟨action, run, cases⟩ := repairNode_cases (σ := σ) source renames b.script id parent
  rw [run b rfl]
  unfold requestsMending
  rcases cases with ⟨name, kind, asked, rfl⟩ | ⟨asked, rfl | ⟨name, rfl⟩⟩
  · have known : b.script.Knows name := h.closed.named id name (by
      rw [Imported.node_of_asked asked]
      simp [Node.names, Node.parts, rights])
    rw [asked]
    exact h.appended_request read known kind
  · rw [asked]
    exact .nil _
  · rw [asked, pass_repairReference]
    exact .nil _

end Bench.MendingCopy

/-- The requests in the repair of nodes: each leaves the others to be repaired. -/
theorem appended_repairing (read : source.Read) (h : b.MendingCopy K copy nodes renames) :
    Appended b.pass.pending (requestsRepairing copy source nodes renames b)
      (repairNodes source nodes renames b).2.pass.pending := by
  induction nodes generalizing b renames with
  | nil => exact .nil _
  | cons n nodes ih => exact (h.appended_mending read n.1 n.2).append (ih (h.step source))

/-- The requests when a node is copied and the copy is repaired. -/
theorem appended_borrowing (hb : b.Settled Kept) (sound : b.Sound) (hroot : b.script.Rooted root)
    (read : source.Read) (place : NodeId) :
    let made := Script.copy source.script place b.script
    Appended b.pass.pending (requestsBorrowing source place b)
      (prepare made.1 source ({ b with script := made.2 } : Bench σ)).2.pass.pending := by
  intro made
  obtain ⟨sound', exact, rooted, copied, apart⟩ := copy_beside hb.exact sound hroot source place
  have names : made.2.names = b.script.names.mentionAll _ := Script.names_plant _ b.script
  have mending := mending_showing sound' exact rooted apart
  refine appended_repairing read ⟨mending, names ▸ hb.distinct.mentionAll _, copied, ?_⟩
  -- before the first node is repaired, all that the copy declares is shown
  intro i hi x hx
  have shown : x ∈ shown made.1 { b with script := made.2 } := mem_shown_iff.2 ⟨i, hi, hx⟩
  simpa [Scope.isBorrowed, Bench.showing, Scope.borrow] using Or.inl shown

/-! ## Passes -/

theorem appended_splicing (hs : sampler.Supplies Kept) (hb : b.Settled Kept) (sound : b.Sound)
    (hroot : b.script.Rooted root) (id : NodeId) :
    Appended b.pass.pending (requestsSplicing sampler id b)
      (splice sampler id b).2.pass.pending := by
  rw [run_splice]
  unfold requestsSplicing
  have kept := hs.kept (b.script.kind id) b.pass.enclosure b.samples b.stream hb.kept
  have read := hs.read (b.script.kind id) b.pass.enclosure b.samples b.stream hb.kept
  generalize sampler (b.script.kind id) b.pass.enclosure b.samples b.stream = asked at kept read ⊢
  obtain ⟨⟨_ | sample, samples⟩, stream⟩ := asked
  · exact .nil _
  · exact appended_borrowing (hb.drawn kept stream) (sound.drawn samples stream) hroot
      (read sample rfl).1 sample.node

/-- The requests in a turn. -/
theorem appended_take (hs : sampler.Supplies Kept) (chance : Probability) (hb : b.Settled Kept)
    (sound : b.Sound) (hroot : b.script.Rooted root) (turn : Turn) :
    let m := take sampler chance turn b
    Appended b.pass.pending (m.requests sampler chance) m.after.pass.pending := by
  intro m
  -- entering and leaving a node leave the queue alone
  rw [m.counts_after.2.2]
  cases turn with
  | leave id => exact .nil _
  | enter id replaceable =>
    change Appended _ (Moment.requests sampler chance ⟨.enter id replaceable, b, _⟩)
      (tryReplace sampler chance id replaceable b).2.pass.pending
    unfold Moment.requests tryReplace
    rw [run_bind]
    obtain ⟨wanted, stream, choice, -⟩ := exists_chosen chance id replaceable b
    dsimp only
    rw [choice]
    cases wanted with
    | false => exact .nil _
    | true =>
      have hb' := hb.drawn hb.kept stream
      exact appended_splicing hs hb' (sound.drawn b.samples stream) hroot id

/-- The requests when imports are brought in: what one import asks for is pending when the next one
is brought in. -/
theorem appended_flushing (rounds rank : Nat) (hb : b.Settled Kept) (sound : b.Sound)
    (hw : b.script.Wellformed) : Appended b.pass.pending (requestsFlushing rounds rank b)
      (flushFrom rounds rank b).2.pass.pending := by
  induction rounds generalizing rank b with
  | zero => exact .nil _
  | succ rounds ih =>
    unfold requestsFlushing
    rw [run_flushFrom]
    cases hq : b.pass.pending[rank]? with
    | none => exact .nil _
    | some q =>
      have hmem := List.mem_of_getElem? hq
      have read := (hb.provided q hmem).read
      have completed := completed_bringIn sound hw (sound.pass.vetted q hmem)
      have settled := (settled_bringIn hb sound hw.rooted read).1
      have first : Appended b.pass.pending (requestsBorrowing q.2.source q.2.declaration b)
          (bringIn q.2 b).2.pass.pending := appended_borrowing hb sound hw.rooted read _
      exact first.append (ih (rank + 1) settled completed.sound completed.wellformed)

/-- The requests of all turns so far. -/
theorem carries_appended (hs : sampler.Supplies Kept) (chance : Probability)
    (queue : List (Sym × Import)) :
    Carries sampler chance fun moments b => b.Settled Kept ∧
      Appended queue (moments.flatMap (Moment.requests sampler chance)) b.pass.pending ∧
      ∀ m ∈ moments,
        Appended m.before.pass.pending (m.requests sampler chance) m.after.pass.pending := by
  rintro moments b turn ⟨hb, appended, each⟩ sound hroot place
  have next := appended_take hs chance hb sound hroot turn
  refine ⟨carries_settled hs chance moments b turn hb sound hroot place, ?_, ?_⟩
  · rw [List.flatMap_append, List.flatMap_singleton]
    exact appended.append next
  · exact List.forall_mem_append.2 ⟨each, List.forall_mem_singleton.2 next⟩

/-- Nothing is pending twice under names of one text. -/
theorem Bench.Settled.nodup_texts (hb : b.Settled Kept) :
    (b.pass.pending.map fun q => b.script.names.text q.1).Nodup := by
  refine hb.once.of_map.map_on fun q hq q' hq' he => ?_
  obtain ⟨name, ht, -⟩ := (hb.provided q hq).provided
  obtain ⟨name', ht', -⟩ := (hb.provided q' hq').provided
  rw [Script.text_eq ht, Script.text_eq ht'] at he
  subst he
  exact List.inj_on_of_nodup_map hb.once hq hq' (hb.distinct.eq_of_text? ht ht')

/-- An import is pending under the name that it declares. -/
theorem Bench.Settled.text_eq (hb : b.Settled Kept) {q : Sym × Import} (hq : q ∈ b.pass.pending)
    {kind : Imported} {name : String} (h : q.2.Declares kind name) :
    b.script.names.text q.1 = name := by
  obtain ⟨name', ht, hd, -⟩ := (hb.provided q hq).declares
  obtain ⟨x, hx, declared⟩ := h.named
  have rooted : q.2.source.script.Rooted q.2.declaration :=
    (hb.provided q hq).read.wellformed.rooted.of_mem_preorder h.inside
  rw [Import.tree, rooted.tree_eq, Tree.node, Node.declaration?_map,
    Imported.declaration_of_declared declared, Option.map_some, Script.text_eq hx] at hd
  rw [Script.text_eq ht]
  exact (Option.some.inj hd).symm

/-- The queue of a structural pass over a source text, from the start of its walk until all imports
are brought in. It only grows behind, by what is queued in a request, and what is pending stays as
it is. No name is in it twice. Each import was queued in a request, under the name that it
declares. -/
theorem queue_run {sampler : Sampler σ} {source : String} {s : Script}
    (hs : Script.read source = .ok s) (m : Structural σ) (hsampler : sampler.Stocked m.samples) :
    let done := m.finished sampler s
    ∃ moments, Toured sampler m.chance (m.bench s) moments (m.walked sampler s) ∧
      (m.run sampler s).2.1 = done.script ∧
      Appended [] (m.requests sampler s moments) done.pass.pending ∧
      (∀ moment ∈ moments, Appended moment.before.pass.pending (moment.requests sampler m.chance)
        moment.after.pass.pending) ∧
      (∀ r ∈ m.requests sampler s moments, r.after.pass.pending <+: done.pass.pending) ∧
      (done.pass.pending.map fun q => done.script.names.text q.1).Nodup ∧
      ∀ q ∈ done.pass.pending, ∃ r ∈ m.requests sampler s moments,
        r.Queues q (done.script.names.text q.1) := by
  intro done
  obtain ⟨Kept, supplies, kept⟩ := hsampler.exists_supplies
  have wellformed := wellformed_read hs
  obtain ⟨moments, toured, carried⟩ := m.toured_walked supplies.legal wellformed
  obtain ⟨settled, walk, each⟩ := carried _ (carries_appended supplies m.chance [])
    ⟨settled_bench hs kept, .nil _, nofun⟩
  have completed := m.completed_walked supplies.legal wellformed
  have flush := appended_flushing (flushBound (m.walked sampler s).pass + 1) 0 settled
    completed.sound completed.wellformed
  have appended : Appended [] (m.requests sampler s moments) done.pass.pending := walk.append flush
  obtain ⟨settled', -⟩ := flushed_flushImports settled completed.sound completed.wellformed
  refine ⟨moments, toured, rfl, appended, each, fun r hr => appended.isPrefix_of_mem hr,
    settled'.nodup_texts, fun q hq => ?_⟩
  rcases appended.exists_request hq with pending | ⟨r, hr, name, queues⟩
  · cases pending
  · exact ⟨r, hr, settled'.text_eq hq queues.declares ▸ queues⟩

/-- A block that calls a function of its source, which calls another one. -/
theorem queue_run_helper : ∃ s t, Script.read "{ a = 1; }" = .ok s ∧
    Script.read "{ f(); }\nfunction f() { g(); }\nfunction g() {}" = .ok t ∧
      let m : Structural Unit := ⟨1, .always, .seeded 0, ()⟩
      let sampler := Sample.pinned ⟨.ofScript "t.js" t, 4⟩
      let done := m.finished sampler s
      ∃ moments, Toured sampler m.chance (m.bench s) moments (m.walked sampler s) ∧
        done.pass.pending.map (fun q => done.script.names.text q.1) = ["f", "g"] ∧
        Appended [] (m.requests sampler s moments) done.pass.pending ∧
        ∀ q ∈ done.pass.pending, ∃ r ∈ m.requests sampler s moments,
          r.Queues q (done.script.names.text q.1) := by
  obtain ⟨s, t, hs, ht, moments, toured, names⟩ :=
    exists_walked "{ a = 1; }" "{ f(); }\nfunction f() { g(); }\nfunction g() {}" 4
      ⟨1, .always, .seeded 0, ()⟩ 60
      (p := fun _ _ walked =>
        let done := (flushImports walked).2
        done.pass.pending.map (fun q => done.script.names.text q.1) = ["f", "g"])
      (by decide +kernel)
  have stocked : Sampler.Stocked (Sample.pinned ⟨.ofScript "t.js" t, 4⟩) () :=
    .pinned () ⟨_, _, _, ht, rfl⟩
  obtain ⟨moments', toured', -, appended, -, -, -, queued⟩ :=
    queue_run hs ⟨1, .always, .seeded 0, ()⟩ stocked
  obtain rfl := toured.moments_eq toured'
  exact ⟨s, t, hs, ht, moments, toured, names, appended, queued⟩

end Graft
