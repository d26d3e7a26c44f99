import EpistemicPlanning.Update.Firing

/-!
# Product update

When an action happens in a state, each world continues once for every event that fires there. The
new world has the valuation of the old one except for the effects of the event. It is designated
when both the old world and the event are, and an agent cannot tell two new worlds apart when it
can tell apart neither the old worlds nor the events. An action that leaves no designated world
does not apply.
-/
namespace EpistemicPlanning

/-- A world that a product update is to make. -/
structure Candidate where
  parent : WorldId
  event : EventId
  valuation : Valuation
  designated : Bool
  deriving DecidableEq

namespace Update

/-- The pairs of a world of a state and an event of an action, world by world. -/
def pairs (state : State) (action : Action) : List (WorldId × EventId) :=
  state.possible.flatMap fun w => action.eventIds.map fun e => (w, e)

/-- The candidates among some pairs: those whose event fires. -/
def candidates {t : PlanningTask} (arena : Arena) (state : State) (action : Action) (a : ActionId) :
    List (WorldId × EventId) → Updating t (List Candidate)
  | [] => return []
  | (w, e) :: rest => do
    let fired ← Updating.fire arena state w a e
    let others ← candidates arena state action a rest
    match fired with
    | none => return others
    | some outcome =>
      let valuation := (arena.world w).valuation.apply outcome.effects
      return ⟨w, e, valuation, state.isDesignated w && action.isDesignated e⟩ :: others

/-- The candidates with the handles they get in an arena. -/
def placed (arena : Arena) (cs : List Candidate) : List (WorldId × Candidate) :=
  (cs.zipIdx arena.worlds.size).map fun (c, i) => (⟨i⟩, c)

/-- The arena with the worlds that the candidates stand for. -/
def grow (arena : Arena) (owner : Agent) (a : ActionId) (cs : List Candidate) : Arena :=
  cs.foldl (fun arena c => arena.addChild c.parent c.event a owner c.valuation) arena

/-- The links of an agent between new worlds: each with itself, and with the later ones whose old
world and event are of the same classes. -/
def linksAmong (worlds : List (SortedSet WorldId)) (events : List (SortedSet EventId)) :
    List (WorldId × Candidate) → List (Link .world)
  | [] => []
  | (w, c) :: rest =>
    let nearWorlds := classOf worlds c.parent
    let nearEvents := classOf events c.event
    let linked := rest.filter fun (_, d) =>
      nearWorlds.contains d.parent && nearEvents.contains d.event
    .loop w :: linked.map (fun (v, _) => .of w v) ++ linksAmong worlds events rest

/-- The links of an agent between new worlds. An agent who is not in the relation of the action
tells all of them apart. -/
def linksOf (state : State) (action : Action) (worlds : List (WorldId × Candidate))
    (agent : Agent) : SortedSet (Link .world) :=
  if action.relation.hasAgent agent then
    SortedSet.ofList
      (linksAmong (state.relation.classesOf agent .full) (action.relation.classesOf agent .full)
        worlds)
  else SortedSet.ofList (worlds.map fun (w, _) => .loop w)

/-- The state that the candidates make up in an arena. -/
def next (arena : Arena) (state : State) (action : Action) (cs : List Candidate) : State :=
  let worlds := placed arena cs
  let possible := worlds.map Prod.fst
  { possible
    designated := SortedSet.ofList ((worlds.filter fun (_, c) => c.designated).map Prod.fst)
    relation :=
      { nodes := SortedSet.ofList possible
        links := state.relation.links.mapValues fun agent _ => linksOf state action worlds agent
        cuts := ∅ } }

/-- The state after an action, together with the arena that then holds its worlds. There is none,
and the arena stays as it is, when no candidate is designated. -/
def apply {t : PlanningTask} (arena : Arena) (state : State) (a : ActionId) :
    Consult t.outcome (Except ModelError (Option State) × Arena) :=
  match t.action? a with
  | none => return (.error (.actionNotFound a), arena)
  | some action => do
    match ← (candidates arena state action a (pairs state action)).run with
    | .error e => return (.error e, arena)
    | .ok cs =>
      if cs.any Candidate.designated then
        return (.ok (some (next arena state action cs)), grow arena action.owner a cs)
      else return (.ok none, arena)

end Update

end EpistemicPlanning
