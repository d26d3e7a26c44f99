import EpistemicPlanning.Proofs.Planning.Coupled
import EpistemicPlanning.Proofs.Planning.Sizes

/-!
# The frontier as a queue

The tree of a run can also be grown node by node. The nodes that have not been expanded wait in a
queue: the first of them is taken off and expanded as long as it is above the bound, and each new
child is put at the end (`QueuedRun.Step`). What expanding a node does to the rest of the run does
not depend on the queue (`Planning.exec_expandAndQueue_ok`), and when all nodes at the bound are in
the queue, the leaves are known by their depth (`Planning.exec_settleAt`).
-/
namespace EpistemicPlanning

open SearchTree

variable {t : PlanningTask} {α : Type} {c : PlannerConfig} {r r' r₁ : Run} {g : SearchTree}
variable {n : NodeId} {ns rest : List NodeId} {action : Action} {a : ActionId} {s : Nat}

namespace Run

/-- The run with another frontier. -/
def withFrontier (r : Run) (ns : List NodeId) : Run := { r with frontier := ns }

/-- The nodes of the frontier that are at the bound. -/
def leaves (r : Run) : SortedSet NodeId :=
  .ofList (r.frontier.filter fun n => r.isLeaf (r.tree.node n))

theorem mem_leaves : n ∈ r.leaves ↔ n ∈ r.frontier ∧ (r.tree.node n).depth = r.limit := by
  unfold leaves isLeaf
  rw [SortedSet.mem_ofList, List.mem_filter, decide_eq_true_eq]

end Run

namespace Planning

/-- Tries an action at a node, and puts the child, if there is one, at the end of the queue. -/
def tryAndQueue (c : PlannerConfig) (n : NodeId) (action : Action) (a : ActionId) :
    Planning t Unit := do
  let before ← get
  tryAction c n action a
  modify fun run => run.withFrontier (run.frontier ++ idsFrom before.tree.size run.tree.size)

/-- Puts all children of a node at the end of the queue. -/
def expandAndQueue (c : PlannerConfig) (n : NodeId) : Planning t Unit :=
  t.numbered.forM fun (action, a) => tryAndQueue c n action a

/-- Computes all costs anew, with the given leaves. -/
def settleAt (leaves : SortedSet NodeId) : Planning t Unit := do
  let run ← get
  let tree := run.tree
  let ids := tree.nodeIds.reverse
  let standings ← ofUpdating (Updating.standings tree.arena (ids.map tree.node))
  let tree := (ids.zip standings).foldl
    (fun tree (n, s) => Induction.settleNode (leaves.contains n) tree n s)
    { tree with arena := tree.arena.resetCosts }
  set { run with tree }

end Planning

open Planning

/-- A run whose frontier is a queue, and the nodes that it has expanded, in order. -/
structure QueuedRun where
  run : Run
  expanded : List NodeId

namespace QueuedRun

/-- The run that has begun its first round. -/
def initial (t : PlanningTask) (c : PlannerConfig) : QueuedRun :=
  ⟨{ Run.initial t c with iterations := 1 }, []⟩

/-- What a run with a queue does next, when nothing fails and there are rounds left. -/
inductive Step (t : PlanningTask) (c : PlannerConfig) : QueuedRun → QueuedRun → Prop
  /-- The first node of the queue is above the bound: it is taken off and expanded. -/
  | take {r r' : Run} {expanded : List NodeId} {n : NodeId} {rest : List NodeId}
      (hfrontier : r.frontier = n :: rest) (habove : (r.tree.node n).depth < r.limit)
      (hexec : exec (expandAndQueue (t := t) c n) (r.withFrontier rest) = (.ok ⟨⟩, r')) :
      Step t c ⟨r, expanded⟩ ⟨r', expanded ++ [n]⟩
  /-- The tree has been built, but costs of the root are provisional: the bound is raised, and
  another round begins. -/
  | deepen {r r' : Run} {expanded : List NodeId} (hdone : r.mayGrow = false)
      (hsettle : exec (settleAt (t := t) r.leaves) r = (.ok ⟨⟩, r'))
      (hopen : r'.rootSettled = false) (hfrontier : r'.frontier ≠ [])
      (hlimit : r'.limit < c.maxDepth) :
      Step t c ⟨r, expanded⟩
        ⟨{ r' with limit := r'.limit + 1, iterations := r'.iterations + 1 }, expanded⟩

/-- A run between two steps. -/
def Reached (t : PlanningTask) (c : PlannerConfig) (q : QueuedRun) : Prop :=
  Relation.ReflTransGen (Step t c) (initial t c) q

/-- A run that has just built its tree: the queue is empty, or its first node is at the bound. -/
structure Built (t : PlanningTask) (c : PlannerConfig) (q : QueuedRun) : Prop where
  reached : q.Reached t c
  done : q.run.mayGrow = false

end QueuedRun

/-! ### The queue does not matter to an expansion -/

/-- The second run is the first one with a queue, which holds the nodes from the `s`-th on at its
end. -/
def Run.Queues (rest : List NodeId) (s : Nat) (r r' : Run) : Prop :=
  s ≤ r.tree.size ∧ r' = r.withFrontier (rest ++ idsFrom s r.tree.size)

theorem Run.queues_self (r : Run) (rest : List NodeId) :
    r.Queues rest r.tree.size (r.withFrontier rest) := by
  refine ⟨Nat.le_refl _, ?_⟩
  rw [idsFrom_self, List.append_nil]

/-- The second run is the first one with another frontier. -/
def Run.Aside (ns : List NodeId) (r r' : Run) : Prop := r' = r.withFrontier ns

theorem Run.aside_self : r.Aside ns (r.withFrontier ns) := rfl

namespace Planning

open Run

theorem coupled_get_right {R : Run → Run → Prop} {x : Planning t α} {f : Run → Planning t α}
    (h : Coupled R r r' x (f r')) : Coupled R r r' x (get >>= f) := h

theorem Coupled.modify_right {R S : Run → Run → Prop} {x y : Planning t PUnit} {f : Run → Run}
    (hx : Coupled R r r' x y)
    (hS : ∀ a r₁ r₁', exec x r = (.ok a, r₁) → R r₁ r₁' → S r₁ (f r₁')) :
    Coupled S r r' x (y >>= fun _ => modify f) := by
  rw [← bind_pure x]
  exact hx.bind fun a r₁ r₁' hexec hR _ _ hm => ⟨rfl, hm, fun _ _ => hS a r₁ r₁' hexec hR⟩

theorem coupled_ofUpdating {R : Run → Run → Prop} (hR : R r r') (x : Updating t α) :
    Coupled R r r' (ofUpdating x) (ofUpdating x) := by
  rintro ⟨entries, sound, distinct⟩ ⟨_, _, _⟩ rfl
  exact ⟨rfl, rfl, fun _ _ => hR⟩

theorem coupled_update_aside (h : r.Aside ns r') (state : State) :
    Coupled (Aside ns) r r' (update (t := t) state a) (update (t := t) state a) := by
  obtain rfl := h
  rintro ⟨entries, sound, distinct⟩ ⟨_, _, _⟩ rfl
  exact ⟨rfl, rfl, fun _ _ => rfl⟩

theorem coupled_watchGoal_aside (h : r.Aside ns r') (next : State) (depth : Nat) :
    Coupled (Aside ns) r r' (watchGoal (t := t) next depth) (watchGoal (t := t) next depth) := by
  obtain rfl := h
  unfold watchGoal
  refine coupled_get ?_
  change Coupled _ _ _ _ (if r.goalDepth.isNone then _ else _)
  split
  · refine (coupled_ofExcept aside_self _).bind fun ws r₁ r₁' _ h₁ => ?_
    cases ws with
    | nil => exact coupled_pure h₁ _
    | cons w ws => exact coupled_set aside_self
  · exact coupled_pure aside_self _

theorem coupled_tryAction_aside (h : r.Aside ns r') :
    Coupled (Aside ns) r r' (tryAction (t := t) c n action a)
      (tryAction (t := t) c n action a) := by
  obtain rfl := h
  unfold tryAction tryActionBy adopt
  refine coupled_get ?_
  change Coupled _ _ _ _ (ofExcept ((r.tree.node n).state.perspective action.owner) >>= _)
  refine (coupled_ofExcept aside_self _).bind fun seen r₁ r₁' _ h₁ => ?_
  refine (coupled_ofUpdating h₁ _).bind fun applicable r₂ r₂' _ h₂ => ?_
  cases applicable with
  | false => exact coupled_pure h₂ _
  | true =>
    simp only [if_true]
    change Coupled _ _ _ _ (if c.maxNodes ≤ r.tree.size then _ else _)
    split
    · exact coupled_throw_bind _
    · refine (coupled_update_aside h₂ seen).bind fun next? r₃ r₃' _ h₃ => ?_
      cases next? with
      | none => exact coupled_pure h₃ _
      | some next =>
        refine (coupled_watchGoal_aside h₃ next _).bind fun _ r₄ r₄' _ h₄ => ?_
        refine coupled_modify ?_
        rw [show r₄' = r₄.withFrontier ns from h₄]
        exact aside_self

/-- A child that an attempt adds comes last in the queue. -/
theorem coupled_tryAndQueue (h : r.Queues rest s r') :
    Coupled (Queues rest s) r r' (tryAction (t := t) c n action a)
      (tryAndQueue (t := t) c n action a) := by
  obtain ⟨hle, rfl⟩ := h
  unfold tryAndQueue
  refine coupled_get_right ?_
  refine (coupled_tryAction_aside aside_self).modify_right fun _ r₁ r₁' hexec h₁ => ?_
  have hgrows := grows_tryAction.size_le hexec
  obtain rfl := h₁
  refine ⟨Nat.le_trans hle hgrows, ?_⟩
  change r₁.withFrontier (rest ++ idsFrom s r.tree.size ++ idsFrom r.tree.size r₁.tree.size) = _
  rw [List.append_assoc, idsFrom_append hle hgrows]

theorem coupled_expandAndQueue (h : r.Queues rest s r') :
    Coupled (Queues rest s) r r' (expand (t := t) c n) (expandAndQueue (t := t) c n) :=
  coupled_forM (fun _ _ _ h => coupled_tryAndQueue h) h

/-- Expanding a node does the same to the run, whatever waits in the queue. -/
theorem exec_expandAndQueue_ok :
    exec (expandAndQueue (t := t) c n) (r.withFrontier rest) = (.ok ⟨⟩, r') ↔
      ∃ r₁, exec (expand (t := t) c n) r = (.ok ⟨⟩, r₁) ∧
        r' = r₁.withFrontier (rest ++ idsFrom r.tree.size r₁.tree.size) := by
  have hcoupled := coupled_expandAndQueue (t := t) (c := c) (n := n) (queues_self r rest) ∅ ∅ rfl
  rw [exec_eq_trace _ ∅, exec_eq_trace _ ∅]
  have hrun := hcoupled.run ⟨⟩
  have hresult := hcoupled.result
  generalize trace (expand (t := t) c n) r ∅ = p at *
  generalize trace (expandAndQueue (t := t) c n) (r.withFrontier rest) ∅ = p' at *
  constructor
  · intro h
    rw [h] at hresult hrun
    exact ⟨p.1.2, Prod.ext hresult rfl, (hrun hresult).2⟩
  · rintro ⟨r₁, h, rfl⟩
    rw [h] at hresult hrun
    exact Prod.ext hresult.symm (hrun rfl).2

/-! ### The leaves -/

/-- Which nodes are settled as leaves depends on the leaves among them only. -/
theorem foldl_settleNode (limit : Nat) {leaf : NodeId → Bool} {l : List (NodeId × List Standing)}
    (hleaf : ∀ p ∈ l, leaf p.1 = decide ((g.node p.1).depth = limit)) :
    l.foldl (fun tree (n, ss) => Induction.settleNode (leaf n) tree n ss) g =
      settleNodes limit g l := by
  unfold settleNodes
  induction l generalizing g with
  | nil => rw [List.foldl_nil, List.foldl_nil]
  | cons p l ih =>
    obtain ⟨n, ss⟩ := p
    rw [List.foldl_cons, List.foldl_cons]
    dsimp only
    rw [hleaf _ List.mem_cons_self]
    refine ih fun q hq => ?_
    rw [sameShape_settleNode.depth]
    exact hleaf q (List.mem_cons_of_mem _ hq)

/-- When the nodes at the bound are all in the queue, it does not matter how leaves are told. -/
theorem exec_settleAt
    (h : ∀ n, n.index < r.tree.size → (r.tree.node n).depth = r.limit → n ∈ r.frontier) :
    exec (settleAt (t := t) r.leaves) r = exec (settle (t := t)) r := by
  have hleaf : ∀ n, n.index < r.tree.size →
      r.leaves.contains n = decide ((r.tree.node n).depth = r.limit) := by
    intro n hn
    rw [Bool.eq_iff_iff, SortedSet.contains_iff, Run.mem_leaves, decide_eq_true_eq]
    exact ⟨fun hmem => hmem.2, fun hdepth => ⟨h n hn hdepth, hdepth⟩⟩
  unfold settleAt settle
  rw [exec_bind, exec_bind, exec_get]
  dsimp only
  rw [exec_bind, exec_bind]
  split
  · next sss r₁ hasked =>
    obtain ⟨_, rfl⟩ := exec_ofUpdating_ok hasked
    rw [exec_set, exec_set, foldl_settleNode r₁.limit]
    · rfl
    · intro p hp
      have hn := mem_nodeIds.1 (List.mem_reverse.1 (List.of_mem_zip hp).1)
      exact hleaf p.1 hn
  · rfl

end Planning

end EpistemicPlanning
