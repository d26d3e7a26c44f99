import EpistemicPlanning.Proofs.Update.Stepwise
import EpistemicPlanning.Proofs.Update.Totality

/-!
# A crowd

An arena whose worlds leave a single word to be given out. In one of the worlds a coin is tossed.
It comes down as heads or tails, and the worlds of both have to share the last word, so that no
state can be made of them (`Crowd.run_applyInSteps`).
-/
namespace EpistemicPlanning.Crowd

def guest : Agent := ⟨"guest"⟩

def predicates : PredicateTable where
  atoms := [⟨"heads", []⟩]
  nodup := by decide

def heads : Predicate := ⟨⟨0⟩, ⟨"heads", []⟩⟩

def relation : Accessibility .world := Accessibility.discrete [guest] [⟨0⟩]

def initial : State :=
  Fallible.get (State.ofParts [⟨0⟩] (SortedSet.singleton ⟨0⟩) relation) (by decide)

theorem initial_eq : State.ofParts [⟨0⟩] (SortedSet.singleton ⟨0⟩) relation = .ok initial :=
  Fallible.eq_ok_get _ _

def toss : Action :=
  Fallible.get (Action.ofSteps "toss" guest
    [.event ⟨"heads", .fixed ⟨.top, .ofList [(heads, true)]⟩⟩,
      .event ⟨"tails", .fixed ⟨.top, .ofList [(heads, false)]⟩⟩, .designateAll]) (by decide)

/-- A coin is tossed in the first world of an arena. -/
def tossIn (arena : Arena) : PlanningTask := ⟨predicates, arena, initial, [toss], .atom heads⟩

theorem accepted_tossIn {arena : Arena} (h : 0 < arena.worlds.size) : (tossIn arena).Accepted where
  wellFormed := State.wellFormed_of_ofParts (.discrete _ _) initial_eq
  parts := by
    have hin : arena.contains ⟨0⟩ = true := Arena.contains_iff.2 h
    have hstray : initial.possible.find? (fun w => !arena.contains w) = none := by
      change List.find? _ [(⟨0⟩ : WorldId)] = none
      rw [List.find?_singleton, hin]
      rfl
    change PlanningTask.ofParts predicates arena initial [toss] (.atom heads) = _
    unfold PlanningTask.ofParts
    rw [hstray]
    rfl

theorem closed_tossIn (arena : Arena) : (tossIn arena).Closed where
  declared action hact := by
    obtain rfl := List.mem_singleton.1 hact
    exact ⟨_, _, _, Fallible.eq_ok_get _ _⟩
  goal a ha := absurd ha SortedSet.not_mem_empty
  precondition action hact event hev v a ha := by
    obtain rfl := List.mem_singleton.1 hact
    rcases List.mem_cons.1 hev with rfl | hev
    · exact absurd ha SortedSet.not_mem_empty
    · obtain rfl := List.mem_singleton.1 hev
      exact absurd ha SortedSet.not_mem_empty

/-! ### The toss -/

/-- The two sides of the coin. -/
def sides (arena : Arena) : List Candidate :=
  [⟨⟨0⟩, ⟨0⟩, (arena.world ⟨0⟩).valuation.apply (.ofList [(heads, true)]), true⟩,
    ⟨⟨0⟩, ⟨1⟩, (arena.world ⟨0⟩).valuation.apply (.ofList [(heads, false)]), true⟩]

theorem run_candidates (arena : Arena) (m : Memo (tossIn arena).outcome) :
    (Update.candidates arena initial toss ⟨0⟩ (Update.pairs initial toss)).run.run m =
      (.ok (sides arena), m) := rfl

theorem run_isApplicable (arena : Arena) (m : Memo (tossIn arena).outcome) :
    (Updating.isApplicable arena initial ⟨0⟩).run.run m = (.ok true, m) := rfl

theorem numbered_tossIn (arena : Arena) : (tossIn arena).numbered = [(toss, ⟨0⟩)] := rfl

theorem perspective_initial : initial.perspective guest = .ok initial := by decide

theorem named_sides (arena : Arena) : (Update.named arena (sides arena)).map Prod.fst =
    [⟨min arena.worlds.size (UInt32.size - 1)⟩,
      ⟨min (arena.worlds.size + 1) (UInt32.size - 1)⟩] := rfl

/-- When a single word is left, the toss fails once its worlds have been made. -/
theorem run_applyInSteps_of_size {arena : Arena} (h : arena.worlds.size = UInt32.size - 1)
    (m : Memo (tossIn arena).outcome) :
    (Update.applyInSteps arena initial ⟨0⟩).run m =
      ((.error (.validation (.malformedState (.shape .duplicateNode))),
        Update.growInWords arena guest ⟨0⟩ (sides arena)), m) := by
  have hshared : ¬((Update.named arena (sides arena)).map Prod.fst).Nodup := by
    rw [named_sides, h]
    decide
  have hact : (tossIn arena).action? ⟨0⟩ = some toss := rfl
  have hany : (sides arena).any Candidate.designated = true := rfl
  unfold Update.applyInSteps
  rw [hact]
  dsimp only
  rw [Consult.run_bind, run_candidates]
  dsimp only
  rw [if_pos hany, Update.exec_map_build (Update.exec_build_shared hshared)]
  rfl

/-! ### The crowd -/

/-- All worlds but one that can have handles of their own. -/
@[irreducible] noncomputable def arena : Arena :=
  ⟨Array.replicate (UInt32.size - 1) (.initial (.ofTrue [])), #[]⟩

theorem size_worlds_arena : arena.worlds.size = UInt32.size - 1 := by
  unfold arena
  exact Array.size_replicate

theorem edges_arena : arena.edges = #[] := by
  unfold arena
  exact Eq.refl _

theorem world_arena (w : WorldId) :
    arena.world w = .initial (.ofTrue []) ∨ arena.world w = default := by
  unfold arena Arena.world
  dsimp only
  rw [Array.getElem?_replicate]
  split
  · exact Or.inl rfl
  · exact Or.inr rfl

noncomputable def task : PlanningTask := tossIn arena

theorem accepted : task.Accepted := by
  refine accepted_tossIn ?_
  rw [size_worlds_arena]
  decide

theorem fresh : task.arena.Fresh where
  edges := congrArg Array.size edges_arena
  incoming w := by
    change (arena.world w).incoming = none
    rcases world_arena w with h | h
    · rw [h]
      rfl
    · rw [h]
      rfl
  outgoing w := by
    change (arena.world w).outgoing = []
    rcases world_arena w with h | h
    · rw [h]
      rfl
    · rw [h]
      rfl

theorem closed : task.Closed := closed_tossIn arena

/-- The arena when the toss has failed. -/
noncomputable def overfull : Arena := Update.growInWords arena guest ⟨0⟩ (sides arena)

theorem size_overfull : overfull.worlds.size = UInt32.size + 1 := by
  unfold overfull
  rw [Update.size_worlds_growInWords, size_worlds_arena]
  rfl

theorem run_applyInSteps (m : Memo task.outcome) :
    (Update.applyInSteps arena initial ⟨0⟩).run m =
      ((.error (.validation (.malformedState (.shape .duplicateNode))), overfull), m) :=
  run_applyInSteps_of_size size_worlds_arena m

end EpistemicPlanning.Crowd
