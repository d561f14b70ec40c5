import Graft.Proofs.Building.Progress

/-!
# Where a refusal points

The spots of scanned tokens are at different places, since every token takes characters of the
text. So the place of an error tells which token it is about, and a source whose tokens are no
program is refused at one of them, in words that name it.

* `Text.Place.Before` - the order of places in a text
* `spots_increase` - scanned tokens, and the end of the input, come one behind the other
* `read_refuses_token` - a refused program
-/

namespace Graft

open Text (Place)

/-! ## Places in order -/

/-- A place that comes earlier in a text. -/
def Text.Place.Before (p q : Place) : Prop :=
  p.line < q.line ∨ p.line = q.line ∧ p.column < q.column

section Before

variable {p q r : Place} {cs : List Char}

theorem before_irrefl (p : Place) : ¬ p.Before p := by
  unfold Place.Before
  omega

theorem before_trans (h : p.Before q) (h' : q.Before r) : p.Before r := by
  unfold Place.Before at *
  omega

theorem before_next (p : Place) (c : Char) : p.Before (p.next c) := by
  unfold Place.next
  split
  · exact .inl (Nat.lt_succ_self _)
  · exact .inr ⟨rfl, Nat.lt_succ_self _⟩

/-- Walking over a text leads on, unless the text is empty. -/
theorem before_advance (p : Place) (h : cs ≠ []) : p.Before (p.advance cs) := by
  induction cs generalizing p with
  | nil => exact absurd rfl h
  | cons c cs ih =>
    rw [Place.advance_cons]
    by_cases hcs : cs = []
    · subst hcs
      exact before_next p c
    · exact before_trans (before_next p c) (ih _ hcs)

theorem eq_or_before_advance (p : Place) (cs : List Char) :
    p.advance cs = p ∨ p.Before (p.advance cs) := by
  by_cases h : cs = []
  · subst h
    exact .inl rfl
  · exact .inr (before_advance p h)

end Before

/-- What is scanned from the middle of a text stands there or behind, one behind the other. -/
theorem spots_from {previous : Option Lexeme} {place : Place} {cs : List Char} {tokens : Tokens}
    (h : scanFrom previous place cs = .ok tokens) :
    (∀ spot ∈ tokens.spots, spot.place = place ∨ place.Before spot.place) ∧
      tokens.spots.Pairwise fun spot later => spot.place.Before later.place := by
  fun_induction scanFrom previous place cs generalizing tokens with
  | case1 previous place cs s here =>
    obtain rfl := Except.ok.inj h
    simpa [Tokens.spots] using eq_or_before_advance place s.gap
  | case4 previous place cs s here hclosed c rest hrest lexeme after hlexeme tokens' hscan =>
    rename_i ih
    obtain rfl := Except.ok.inj h
    obtain ⟨from_here, behind⟩ := ih hscan
    -- the token takes a character, so all that is scanned later stands behind it
    have taken : here.Before (here.advance lexeme.text.toList) :=
      before_advance here (splitLexeme_text_ne_nil hlexeme)
    have later : ∀ spot ∈ tokens'.spots, here.Before spot.place := fun spot hs =>
      (from_here spot hs).elim (fun he => he ▸ taken) (before_trans taken)
    have reached := eq_or_before_advance place s.gap
    change (∀ spot ∈ ⟨some lexeme, here⟩ :: tokens'.spots, _) ∧
      List.Pairwise _ (⟨some lexeme, here⟩ :: tokens'.spots)
    refine ⟨List.forall_mem_cons.2 ⟨reached, fun spot hs => ?_⟩, List.pairwise_cons.2
      ⟨later, behind⟩⟩
    rcases reached with he | hb
    · exact .inr (he ▸ later spot hs)
    · exact .inr (before_trans hb (later spot hs))
  | case2 | case3 | case5 => cases h

/-- The tokens of a text, and its end, come one behind the other. -/
theorem spots_increase {source : String} {tokens : Tokens} (h : scan source = .ok tokens) :
    tokens.spots.Pairwise fun spot later => spot.place.Before later.place :=
  (spots_from h).2

/-- No two spots are at one place. -/
theorem spot_eq_of_place {source : String} {tokens : Tokens} (h : scan source = .ok tokens)
    {spot other : Spot} (hs : spot ∈ tokens.spots) (ho : other ∈ tokens.spots)
    (same : other.place = spot.place) : other = spot := by
  have places : (tokens.spots.map (·.place)).Nodup := by
    refine List.pairwise_map.2 ((spots_increase h).imp fun {spot later} hb he => ?_)
    exact before_irrefl later.place (he ▸ hb)
  exact List.inj_on_of_nodup_map places ho hs same

/-- A source that can be scanned is refused for its tokens. -/
theorem exists_refusal {source : String} {tokens : Tokens} {e : SourceError}
    (ht : scan source = .ok tokens) (h : Script.read source = .error e) :
    ∃ b, Build.program (.ofTokens tokens) = .error e b ∧ e.PointsAt tokens := by
  have agree := program_agrees tokens
  rw [Script.read, ht] at h
  dsimp only [bind, Except.bind, EStateM.run] at h
  cases hr : Read.program (.ofTokens tokens) <;> rw [hr] at h agree
  case ok => cases h
  cases hb : Build.program (.ofTokens tokens) <;> rw [hb] at agree
  case ok => exact agree.elim
  obtain ⟨rfl, points, -⟩ := agree
  obtain rfl := Except.error.inj h
  exact ⟨_, rfl, points⟩

/-! ## Refusals -/

/-- A source whose tokens are no program is refused by the builder and the reader in the same way:
as a token that does not fit or as a construct outside the subset, never for its depth or for its
characters. The error points at a token or at the end of the input, no other token stands there,
and what it says was found is what stands there. -/
theorem read_refuses_token {source : String} {tokens : Tokens} {e : SourceError}
    (ht : scan source = .ok tokens) (h : Script.read source = .error e) :
    (∃ b, Build.program (.ofTokens tokens) = .error e b) ∧
    ∃ spot ∈ tokens.spots, e.place = spot.place ∧
      (∀ other ∈ tokens.spots, other.place = e.place → other = spot) ∧
      ((∃ expected, e = .unexpected expected spot.found spot.place ∧
          e.message = "expected " ++ expected.describe ++ ", found " ++
            describeAhead spot.found ++ " at " ++ SourceError.showPlace spot.place) ∨
        ∃ what, e = .unsupported what spot.place) := by
  obtain ⟨b, hb, points⟩ := exists_refusal ht h
  refine ⟨⟨b, hb⟩, ?_⟩
  cases e with
  | unexpected expected found place =>
    exact ⟨⟨found, place⟩, points, rfl, fun _ ho same => spot_eq_of_place ht points ho same,
      .inl ⟨expected, rfl, rfl⟩⟩
  | unsupported what place =>
    obtain ⟨found, hs⟩ := points
    exact ⟨⟨found, place⟩, hs, rfl, fun _ ho same => spot_eq_of_place ht hs ho same,
      .inr ⟨what, rfl⟩⟩
  | _ => exact points.elim

/-- The second operand of a sum is missing in the second line. -/
theorem read_refuses_token_sum : ∃ tokens e, scan "if (a)\n b + ;" = .ok tokens ∧
    Script.read "if (a)\n b + ;" = .error e ∧
    e.message = "expected expression, found ';' at 2:6" ∧
    (∃ b, Build.program (.ofTokens tokens) = .error e b) ∧
    ∃ spot ∈ tokens.spots, e.place = spot.place ∧
      (∀ other ∈ tokens.spots, other.place = e.place → other = spot) ∧
      ((∃ expected, e = .unexpected expected spot.found spot.place ∧
          e.message = "expected " ++ expected.describe ++ ", found " ++
            describeAhead spot.found ++ " at " ++ SourceError.showPlace spot.place) ∨
        ∃ what, e = .unsupported what spot.place) := by
  have scanned : scan "if (a)\n b + ;" = .ok ⟨[⟨.word "if", false, ⟨1, 1⟩⟩,
      ⟨.punct "(", false, ⟨1, 4⟩⟩, ⟨.word "a", false, ⟨1, 5⟩⟩, ⟨.punct ")", false, ⟨1, 6⟩⟩,
      ⟨.word "b", true, ⟨2, 2⟩⟩, ⟨.punct "+", false, ⟨2, 4⟩⟩, ⟨.punct ";", false, ⟨2, 6⟩⟩],
      ⟨2, 7⟩⟩ := by decide +kernel
  have refused : Script.read "if (a)\n b + ;" =
      .error (.unexpected .expression (some (.punct ";")) ⟨2, 6⟩) := by decide +kernel
  exact ⟨_, _, scanned, refused, by decide +kernel, read_refuses_token scanned refused⟩

end Graft
