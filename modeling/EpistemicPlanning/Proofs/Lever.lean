import EpistemicPlanning.Planning.Deepening
import EpistemicPlanning.Proofs.Task

/-!
# A lever

A task that the general statements are instantiated at. A lever has three positions. One agent pulls
it to the left and sees only the leftmost position, the other pulls it to the right and sees only
the rightmost one; in the end positions pulling further changes nothing. The lever starts in the
middle and is to be brought to the left.
-/
namespace EpistemicPlanning.Lever

def left : Agent := ⟨"left"⟩

def right : Agent := ⟨"right"⟩

def predicates : PredicateTable where
  atoms := [⟨"at", ["p0"]⟩, ⟨"at", ["p1"]⟩, ⟨"at", ["p2"]⟩]
  nodup := by decide

/-- The lever is in the given position. -/
def position (i : Nat) : Predicate := ⟨⟨i⟩, predicates.atoms.getD i default⟩

def world (i : Nat) : WorldId := ⟨i⟩

def arena : Arena :=
  ((Arena.empty.addWorld (.ofTrue [position 0])).addWorld (.ofTrue [position 1])).addWorld
    (.ofTrue [position 2])

/-- Neither agent sees the middle, and each takes it for the end it does not see. -/
def relation : Accessibility .world :=
  ((Accessibility.discrete [left, right] [world 0, world 1, world 2]).link left (world 1)
    (world 2)).link right (world 0) (world 1)

theorem relation_built : relation.Built :=
  .addLink (.addLink (.discrete _ _) (Accessibility.addLink_eq_ok (by decide)))
    (Accessibility.addLink_eq_ok (by decide))

def initial : State :=
  Fallible.get
    (State.ofParts [world 0, world 1, world 2] (SortedSet.singleton (world 1)) relation)
    (by decide)

theorem initial_eq :
    State.ofParts [world 0, world 1, world 2] (SortedSet.singleton (world 1)) relation =
      .ok initial := Fallible.eq_ok_get _ _

/-- The event of the lever going from one position to another. -/
def move (source target : Nat) : ActionStep :=
  .event ⟨"move", .fixed ⟨.atom (position source),
    .ofList [(position source, false), (position target, true)]⟩⟩

/-- The three events of an action, which an agent cannot tell apart. -/
def blur (a : Agent) : List ActionStep :=
  [.indistinguishable a ⟨0⟩ ⟨1⟩, .indistinguishable a ⟨0⟩ ⟨2⟩, .indistinguishable a ⟨1⟩ ⟨2⟩]

def pullLeftSteps : List ActionStep :=
  [move 0 0, move 1 0, move 2 1, .designateAll, .observer left, .observer right] ++ blur right

def pullRightSteps : List ActionStep :=
  [move 0 1, move 1 2, move 2 2, .designateAll, .observer left, .observer right] ++ blur left

def pullLeft : Action := Fallible.get (Action.ofSteps "pull_left" left pullLeftSteps) (by decide)

def pullRight : Action :=
  Fallible.get (Action.ofSteps "pull_right" right pullRightSteps) (by decide)

def task : PlanningTask := ⟨predicates, arena, initial, [pullLeft, pullRight], .atom (position 0)⟩

theorem accepted : task.Accepted where
  wellFormed := State.wellFormed_of_ofParts relation_built initial_eq
  parts := rfl

theorem fresh : task.arena.Fresh := by
  refine ⟨rfl, fun w => ?_, fun w => ?_⟩
  all_goals
    obtain ⟨i⟩ := w
    match i with
    | 0 => rfl
    | 1 => rfl
    | 2 => rfl
    | _ + 3 => rfl

def planner : Planner := ⟨{ maxDepth := 3, maxIterations := 8, maxNodes := 100 }, rfl⟩

/-- The plan for the lever. -/
def plan : SearchTree := Fallible.get (planner.plan task) (by decide +kernel)

theorem plan_eq : planner.plan task = .ok plan := Fallible.eq_ok_get _ _

end EpistemicPlanning.Lever
