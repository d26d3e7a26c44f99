import EpistemicPlanning.Update.Product

/-!
# Product update, step by step

`Update.apply` writes down the state after an action as a whole, over handles that never run out.
Made step by step (`Update.applyInSteps`), the state takes looking up what agents cannot tell apart,
adding the new worlds to the arena one by one under handles that are words, linking them one by one,
and having the parts checked in the end. Lookups, links and the check may fail, and those that come
after worlds have been added leave them behind.
-/
namespace EpistemicPlanning

variable {ε κ β : Type}

/-- The map with the result of a lookup at key `k`, unless it has a value there. -/
def SortedMap.ensure [Ord κ] [DecidableEq κ] [Std.TransOrd κ] [Std.LawfulEqOrd κ]
    (m : SortedMap κ β) (k : κ) (x : Except ε β) : Except ε (SortedMap κ β) :=
  if m.contains k then .ok m else x.map (m.insert k)

namespace Update

/-- A computation that writes to an arena, and may fail after it has written something. -/
abbrev Building (α : Type) := ExceptT PlanError (StateM Arena) α

namespace Building

variable {α : Type}

/-- What a computation ends with, and the arena after it. -/
def exec (x : Building α) (arena : Arena) : Except PlanError α × Arena := x.run.run arena

/-- A computation that does not write, with errors of its own. -/
def ofExcept (f : ε → PlanError) (x : Except ε α) : Building α := ExceptT.mk (pure (x.mapError f))

end Building

/-- What an agent cannot tell apart from the old worlds and the events of candidates. -/
structure Near where
  worlds : SortedMap WorldId (SortedSet WorldId)
  events : SortedMap EventId (SortedSet EventId)

namespace Near

/-- Looks up the world and the event of a candidate, unless they have been looked up before. -/
def look (state : State) (action : Action) (agent : Agent) (near : Near) (c : Candidate) :
    Except ModelError Near := do
  let worlds ← near.worlds.ensure c.parent (state.relation.accessible agent c.parent)
  let events ← near.events.ensure c.event (action.relation.accessible agent c.event)
  return ⟨worlds, events⟩

/-- Looks up the worlds and the events of all candidates. -/
def lookAll (state : State) (action : Action) (cs : List Candidate) (agent : Agent) :
    Except ModelError (Agent × Near) :=
  (cs.foldlM (look state action agent) ⟨∅, ∅⟩).map fun near => (agent, near)

/-- Whether neither the worlds nor the events of two candidates can be told apart. -/
def relates (near : Near) (c d : Candidate) : Bool :=
  (near.worlds.find? c.parent).any (fun ws => ws.contains d.parent) &&
    (near.events.find? c.event).any fun es => es.contains d.event

end Near

/-- Adds the world of a candidate. -/
def allocate (owner : Agent) (a : ActionId) (c : Candidate) : Building (WorldId × Candidate) := do
  let arena ← get
  set (arena.addChildInWords c.parent c.event a owner c.valuation)
  return (arena.nextWorld.word, c)

/-- Each element of a list with each later one. -/
def withLater {α : Type} : List α → List (α × α)
  | [] => []
  | x :: later => later.map (fun y => (x, y)) ++ withLater later

/-- Links two new worlds for an agent, if it cannot tell them apart. -/
def linkPair (agent : Agent) (near : Near) (r : Accessibility .world)
    (pq : (WorldId × Candidate) × (WorldId × Candidate)) :
    Except ModelError (Accessibility .world) :=
  if near.relates pq.1.2 pq.2.2 then r.addLink agent pq.1.1 pq.2.1 else .ok r

/-- Links the new worlds for all given agents. -/
def linkAll (worlds : List (WorldId × Candidate)) (nears : List (Agent × Near))
    (r : Accessibility .world) : Except ModelError (Accessibility .world) :=
  nears.foldlM (fun r an => (withLater worlds).foldlM (linkPair an.1 an.2) r) r

/-- The agents of both relations. -/
def shared (state : State) (action : Action) : List Agent :=
  state.agents.filter action.relation.hasAgent

/-- Adds the worlds of all candidates, and makes a state of them. -/
def build (state : State) (action : Action) (a : ActionId) (cs : List Candidate) :
    Building State := do
  let nears ← .ofExcept .model ((shared state action).mapM (Near.lookAll state action cs))
  let worlds ← cs.mapM (allocate action.owner a)
  let possible := worlds.map Prod.fst
  let designated := SortedSet.ofList ((worlds.filter fun p => p.2.designated).map Prod.fst)
  let relation ← .ofExcept .model (linkAll worlds nears (state.relation.copyEmpty possible))
  .ofExcept .validation (State.ofParts possible designated relation)

/-- The state after an action, built step by step, together with the arena that then holds its
worlds. -/
def applyInSteps {t : PlanningTask} (arena : Arena) (state : State) (a : ActionId) :
    Consult t.outcome (Except PlanError (Option State) × Arena) :=
  match t.action? a with
  | none => return (.error (.model (.actionNotFound a)), arena)
  | some action => do
    match ← (candidates arena state action a (pairs state action)).run with
    | .error e => return (.error (.model e), arena)
    | .ok cs =>
      if cs.any Candidate.designated then return (some <$> build state action a cs).exec arena
      else return (.ok none, arena)

end Update

end EpistemicPlanning
