import EpistemicPlanning.Proofs.Planning.Induction
import EpistemicPlanning.Proofs.SearchTree.Uncosted

/-!
# Computing costs anew

Computing costs changes costs only, and the costs that are computed do not depend on those that were
there before (`SearchTree.withCosts_congr`).
-/
namespace EpistemicPlanning

open SearchTree Induction

variable {t : PlanningTask} {g g' T : SearchTree}
variable {arena : Arena} {m n : NodeId} {w : WorldId} {leaf : Bool} {s : Standing}
variable {ss : List Standing} {l : List (NodeId × List Standing)} {limit : Nat}

/-! ### Computing costs changes costs only -/

theorem map_modify_self {α β : Type} {f : α → β} {change : α → α} (h : ∀ x, f (change x) = f x)
    (xs : Array α) (i : Nat) : (xs.modify i change).map f = xs.map f := by
  rw [map_modify id h]
  refine Array.ext_getElem? fun j => ?_
  rw [Array.getElem?_modify]
  split <;> simp

namespace Arena

theorem resetCosts_modifyWorld {f : World → World}
    (h : ∀ x, { f x with cost := .undefined } = { x with cost := .undefined }) :
    (arena.modifyWorld w f).resetCosts = arena.resetCosts := by
  unfold resetCosts modifyWorld
  congr 1
  exact map_modify_self h _ _

theorem resetCosts_modifyEdge {e : EdgeId} {f : ProvenanceEdge → ProvenanceEdge}
    (h : ∀ x, { f x with cost := .undefined } = { x with cost := .undefined }) :
    (arena.modifyEdge e f).resetCosts = arena.resetCosts := by
  unfold resetCosts modifyEdge
  congr 1
  exact map_modify_self h _ _

theorem resetCosts_resetCosts : arena.resetCosts.resetCosts = arena.resetCosts := by
  simp [resetCosts, Function.comp_def]

end Arena

namespace Induction

theorem resetCosts_writeCosts {edges : List (EdgeId × Cost)} :
    (writeCosts arena edges).resetCosts = arena.resetCosts := by
  induction edges generalizing arena with
  | nil => rfl
  | cons p edges ih => exact (@ih _).trans (Arena.resetCosts_modifyEdge fun _ => rfl)

theorem resetCosts_settleWorld : (settleWorld leaf arena w s).resetCosts = arena.resetCosts := by
  rw [settleWorld_eq]
  refine (Arena.resetCosts_modifyWorld ?_).trans resetCosts_writeCosts
  intro _
  rfl

theorem resetCosts_settleWorlds {l : List (WorldId × Standing)} :
    (settleWorlds leaf arena l).resetCosts = arena.resetCosts := by
  induction l generalizing arena with
  | nil => rfl
  | cons p l ih => rw [settleWorlds_cons, ih, resetCosts_settleWorld]

end Induction

namespace SearchTree

theorem uncosted_settleNode : (settleNode leaf g n ss).uncosted = g.uncosted := by
  have harena : (settleNode leaf g n ss).arena.resetCosts = g.arena.resetCosts :=
    resetCosts_settleWorlds
  have hnodes : (settleNode leaf g n ss).nodes.map Node.uncosted =
      g.nodes.map Node.uncosted := by
    unfold settleNode
    dsimp only
    refine map_modify_self ?_ _ _
    intro _
    rfl
  unfold uncosted
  rw [harena, hnodes]
  rfl

theorem uncosted_settleNodes : (settleNodes limit g l).uncosted = g.uncosted := by
  induction l generalizing g with
  | nil => rfl
  | cons p l ih => exact (@ih _).trans uncosted_settleNode

/-! ### Which costs are written does not depend on those before -/

theorem withCost_of_uncosted {x y : Node} (h : x.uncosted = y.uncosted) (cost : Cost) :
    ({ x with cost } : Node) = { y with cost } :=
  congrArg (fun z : Node => { z with cost }) h

/-- Two trees that may differ in the costs of nodes only, and not in those of the nodes in `S`. -/
structure SameOn (S : NodeId → Prop) (g g' : SearchTree) : Prop where
  arena : g.arena = g'.arena
  uncosted : g.uncosted = g'.uncosted
  node : ∀ n, S n → g.node n = g'.node n

theorem node_of_size_le (h : g.size ≤ n.index) : g.node n = default := by
  have h' : g.nodes.size ≤ n.index := h
  simp [node, node?, h']

theorem designatedCost_eq_of_state {g g' : SearchTree} (hsize : g.size = g'.size)
    (hstate : (g.node n).state = (g'.node n).state) (harena : g.arena = g'.arena)
    (hn : n.index < g.size) : g.designatedCost n = g'.designatedCost n := by
  rw [designatedCost_eq hn, designatedCost_eq (hsize ▸ hn), hstate, harena]

theorem SameOn.settleNode {S : NodeId → Prop} (hsame : SameOn S g g') :
    SameOn (fun m => S m ∨ m = n) (Induction.settleNode leaf g n ss)
      (Induction.settleNode leaf g' n ss) := by
  have hstate := state_of_uncosted hsame.uncosted n
  have hsize := (sameShape_of_uncosted hsame.uncosted).size
  have harena : (Induction.settleNode leaf g n ss).arena =
      (Induction.settleNode leaf g' n ss).arena := by
    rw [arena_settleNode, arena_settleNode, hsame.arena, hstate]
  refine ⟨harena, ?_, fun m hm => ?_⟩
  · rw [uncosted_settleNode, uncosted_settleNode]
    exact hsame.uncosted
  by_cases hne : m = n
  · subst hne
    have huncosted : (g.node m).uncosted = (g'.node m).uncosted := by
      rw [← node_uncosted, hsame.uncosted, node_uncosted]
    by_cases hin : m.index < g.size
    · have hcost : ({ g with arena := (Induction.settleNode leaf g m ss).arena } :
            SearchTree).designatedCost m =
          ({ g' with arena := (Induction.settleNode leaf g' m ss).arena } :
            SearchTree).designatedCost m := designatedCost_eq_of_state hsize hstate harena hin
      rw [node_settleNode_self hin, node_settleNode_self (hsize ▸ hin), hcost]
      exact withCost_of_uncosted huncosted _
    · have hout : g.size ≤ m.index := Nat.le_of_not_lt hin
      have hshape : (Induction.settleNode leaf g m ss).SameShape g := sameShape_settleNode
      have hshape' : (Induction.settleNode leaf g' m ss).SameShape g' := sameShape_settleNode
      rw [node_of_size_le (hshape.size.symm ▸ hout),
        node_of_size_le (hshape'.size.symm ▸ hsize ▸ hout)]
  · rw [node_settleNode_of_ne hne, node_settleNode_of_ne hne]
    exact hsame.node m (hm.resolve_right hne)

theorem SameOn.settleNodes {S : NodeId → Prop} (hsame : SameOn S g g') :
    SameOn (fun m => S m ∨ m ∈ l.map Prod.fst) (settleNodes limit g l)
      (settleNodes limit g' l) := by
  induction l generalizing g g' S with
  | nil =>
    refine ⟨hsame.arena, hsame.uncosted, fun n hn => hsame.node n ?_⟩
    rcases hn with hn | hn
    · exact hn
    · cases hn
  | cons p l ih =>
    have hdepth : (g.node p.1).depth = (g'.node p.1).depth :=
      (sameShape_of_uncosted hsame.uncosted).depth
    have hstep : SameOn (fun m => S m ∨ m = p.1)
        (Induction.settleNode (decide ((g.node p.1).depth = limit)) g p.1 p.2)
        (Induction.settleNode (decide ((g'.node p.1).depth = limit)) g' p.1 p.2) := by
      rw [hdepth]
      exact hsame.settleNode
    have hrest := ih hstep
    refine ⟨hrest.arena, hrest.uncosted, fun n hn => hrest.node n ?_⟩
    rw [List.map_cons, List.mem_cons, ← or_assoc] at hn
    exact hn

/-- Trees with the same nodes and the same arena are equal. -/
theorem eq_of_node (hsize : g.size = g'.size) (hnode : ∀ n, n.index < g.size → g.node n = g'.node n)
    (harena : g.arena = g'.arena) (hfingerprint : g.fingerprint = g'.fingerprint)
    (hstats : g.stats = g'.stats) : g = g' := by
  have hnodes : g.nodes = g'.nodes := by
    refine Array.ext_getElem? fun i => ?_
    by_cases hi : i < g.size
    · have hget := node?_eq_some (g := g) (n := ⟨i⟩) hi
      have hget' := node?_eq_some (g := g') (n := ⟨i⟩) (hsize ▸ hi)
      rw [hnode ⟨i⟩ hi, ← hget'] at hget
      exact hget
    · have hle : g.nodes.size ≤ i := Nat.le_of_not_lt hi
      have hle' : g'.nodes.size ≤ i := by
        have hsize' : g'.nodes.size = g.size := hsize.symm
        omega
      simp [hle, hle']
  cases g
  cases g'
  cases hnodes
  cases harena
  cases hfingerprint
  cases hstats
  rfl

/-- Trees that agree on all nodes are equal. -/
theorem SameOn.eq (hsame : SameOn (fun n => n.index < g.size) g g') : g = g' := by
  have hfingerprint : g.uncosted.fingerprint = g'.uncosted.fingerprint := by rw [hsame.uncosted]
  have hstats : g.uncosted.stats = g'.uncosted.stats := by rw [hsame.uncosted]
  exact eq_of_node (sameShape_of_uncosted hsame.uncosted).size hsame.node hsame.arena hfingerprint
    hstats

/-- Once all nodes have been settled, nothing is left of the costs before. -/
theorem settleNodes_congr (huncosted : g.uncosted = g'.uncosted)
    (hl : ∀ n, n.index < g.size → n ∈ l.map Prod.fst) :
    settleNodes limit { g with arena := g.arena.resetCosts } l =
      settleNodes limit { g' with arena := g'.arena.resetCosts } l := by
  have hreset : g.arena.resetCosts = g'.arena.resetCosts := congrArg SearchTree.arena huncosted
  have hstart : SameOn (fun _ => False) { g with arena := g.arena.resetCosts }
      { g' with arena := g'.arena.resetCosts } := by
    refine ⟨hreset, ?_, fun _ hn => hn.elim⟩
    unfold uncosted at huncosted ⊢
    rw [Arena.resetCosts_resetCosts, Arena.resetCosts_resetCosts]
    exact huncosted
  have hend : SameOn _ (settleNodes limit { g with arena := g.arena.resetCosts } l)
      (settleNodes limit { g' with arena := g'.arena.resetCosts } l) :=
    hstart.settleNodes
  have hsize : (settleNodes limit { g with arena := g.arena.resetCosts } l).size =
      g.size := sameShape_settleNodes.size
  refine SameOn.eq ⟨hend.arena, hend.uncosted, fun n hn => hend.node n (Or.inr (hl n ?_))⟩
  rw [← hsize]
  exact hn

end SearchTree

/-! ### Which standings are told -/

/-- Two nodes have the same worlds, and agree on what is told of them. -/
structure SameStandings (arena arena' : Arena) (n n' : Node) : Prop where
  possible : n.state.possible = n'.state.possible
  agree : AgreeOn (fun _ => True) arena n.state arena' n'.state

namespace Inquiring

section

variable (t)

/-- The standing of a world of a state. -/
def standing (arena : Arena) (state : State) (w : WorldId) : Inquiring Standing := do
  if ← ofExcept (t.goal.evaluate arena state w) then return .goal
  if ← hasApplicableEvent t arena state w then return .active
  return .stuck

/-- The standings of the worlds of some nodes, in order. -/
def standings (arena : Arena) (nodes : List Node) : Inquiring (List (List Standing)) :=
  nodes.mapM fun n => n.state.possible.mapM fun w => standing t arena n.state w

end

theorem consult_standing {state : State} :
    consult t (standing t arena state w) = Updating.standing arena state w := by
  unfold standing Updating.standing
  rw [consult_bind]
  refine congrArg _ (funext fun b => ?_)
  cases b with
  | true => rfl
  | false =>
    simp only [Bool.false_eq_true, if_false]
    rw [consult_bind, consult_hasApplicableEvent]
    refine congrArg _ (funext fun b => ?_)
    cases b <;> rfl

theorem consult_standings (nodes : List Node) :
    consult t (standings t arena nodes) = Updating.standings arena nodes := by
  unfold standings Updating.standings
  simp only [consult_mapM, consult_standing]

theorem standing_congr {t' : PlanningTask} {P : WorldId → Prop} {arena' : Arena}
    {state state' : State} (ht : t.Alike t') (h : AgreeOn P arena state arena' state') (hw : P w) :
    standing t arena state w = standing t' arena' state' w := by
  unfold standing
  rw [ht.goal, Formula.evaluate_congr h t'.goal hw, h.hasApplicableEvent ht hw]

theorem standings_congr {t' : PlanningTask} {arena' : Arena} (ht : t.Alike t')
    {nodes nodes' : List Node} (hnodes : List.Forall₂ (SameStandings arena arena') nodes nodes') :
    standings t arena nodes = standings t' arena' nodes' := by
  unfold standings
  induction hnodes with
  | nil => rw [List.mapM_nil, List.mapM_nil]
  | cons hn _ ih =>
    rw [List.mapM_cons, List.mapM_cons, ih, hn.possible]
    simp only [standing_congr ht hn.agree trivial]

end Inquiring

namespace SearchTree

/-! ### The tree with its costs -/

theorem uncosted_withCosts (hT : g.withCosts t limit = .ok T) : T.uncosted = g.uncosted := by
  obtain ⟨sss, _, rfl⟩ := Fallible.map_eq_ok hT
  rw [uncosted_settleNodes]
  unfold uncosted
  rw [Arena.resetCosts_resetCosts]

theorem value_standings_congr (huncosted : g.uncosted = g'.uncosted) (ids : List NodeId) :
    (Updating.standings (t := t) g.arena (ids.map g.node)).value =
      (Updating.standings (t := t) g'.arena (ids.map g'.node)).value := by
  have hshape := sameShape_of_uncosted huncosted
  have hnodes : List.Forall₂ (SameStandings g.arena g'.arena) (ids.map g.node)
      (ids.map g'.node) := by
    rw [List.forall₂_map_left_iff, List.forall₂_map_right_iff, List.forall₂_same]
    intro n _
    have hstate := state_of_uncosted huncosted n
    exact ⟨by rw [hstate], .of_valuation (by rw [hstate]) fun _ => hshape.arena.valuation⟩
  rw [← Inquiring.consult_standings, Inquiring.standings_congr (.refl t) hnodes,
    Inquiring.consult_standings]

/-- Which costs are computed does not depend on those before. -/
theorem withCosts_congr (huncosted : g.uncosted = g'.uncosted) :
    g.withCosts t limit = g'.withCosts t limit := by
  have hshape := sameShape_of_uncosted huncosted
  have hids : g.nodeIds = g'.nodeIds := by
    unfold nodeIds
    rw [hshape.size]
  unfold withCosts
  rw [hids, value_standings_congr huncosted]
  cases hsss : (Updating.standings (t := t) g'.arena (g'.nodeIds.reverse.map g'.node)).value with
  | error e => rfl
  | ok sss =>
    refine congrArg Except.ok (settleNodes_congr huncosted fun n hn => ?_)
    rw [map_fst_standings hsss, List.mem_reverse, mem_nodeIds, ← hshape.size]
    exact hn

end SearchTree

end EpistemicPlanning
