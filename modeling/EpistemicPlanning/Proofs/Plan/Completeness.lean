import EpistemicPlanning.Proofs.Lever
import EpistemicPlanning.Proofs.Planning.Deepening
import EpistemicPlanning.Proofs.SearchTree.Children

/-!
# The tree of a plan is complete

However many rounds have built it, the tree of a plan has all children down to the cutoff depth, and
their states are the product updates (`Planner.plan_tree_is_complete`).
-/
namespace EpistemicPlanning

variable {t : PlanningTask} {g h : SearchTree} {n c : NodeId} {a : ActionId} {d k : Nat}

namespace SearchTree

/-- An action is applicable in the state of a node, seen from the perspective of its owner, and the
product update of what the owner sees has a result. -/
def Allows (t : PlanningTask) (g : SearchTree) (n : NodeId) (a : ActionId) : Prop :=
  ∃ action shifted next arena', t.action? a = some action ∧
    (g.node n).state.perspective action.owner = .ok shifted ∧
    (Updating.isApplicable (t := t) g.arena shifted a).value = .ok true ∧
    (Update.apply (t := t) g.arena shifted a).value = (.ok (some next), arena')

/-- Apart from cuts, the state of `c` is the product update of the state of `n` by an action, which
was made in an earlier stage of the arena. -/
def UpdatedBy (t : PlanningTask) (g : SearchTree) (n : NodeId) (a : ActionId) (c : NodeId) : Prop :=
  ∃ action shifted before after, t.action? a = some action ∧
    (g.node n).state.perspective action.owner = .ok shifted ∧
    (∀ w ∈ (g.node n).state.possible, w.index < before.worlds.size) ∧
    (Update.apply (t := t) before shifted a).value = (.ok (some (g.node c).state.uncut), after) ∧
    after.Extends before ∧ g.arena.Extends after

/-- All children down to depth `d` are there, and only they. -/
structure CompleteTo (t : PlanningTask) (d : Nat) (g : SearchTree) : Prop where
  depth : ∀ n, n.index < g.size → (g.node n).depth ≤ d
  leaf : ∀ n, n.index < g.size → (g.node n).depth = d → (g.node n).children = []
  /-- An inner node has exactly one child by each action that it allows. -/
  child : ∀ n, n.index < g.size → (g.node n).depth < d → ∀ a, g.Allows t n a →
    ∃ c, g.childrenBy n a = [c] ∧ g.child? n a = some c ∧ g.UpdatedBy t n a c
  childless : ∀ n, n.index < g.size → (g.node n).depth < d → ∀ a, ¬g.Allows t n a →
    g.childrenBy n a = []
  /-- Children are in the order of actions. -/
  ordered : ∀ n, n.index < g.size → (g.node n).children.Pairwise g.ActionBefore
  breadthFirst : g.BreadthFirst
  maxDepth : (∀ n, n.index < g.size → (g.node n).depth ≤ g.maxDepth) ∧
    ∃ n, n.index < g.size ∧ (g.node n).depth = g.maxDepth

theorem allows_iff : g.Allows t n a ↔ ∃ action, t.action? a = some action ∧
    Update.occurs t g.arena (g.node n).state action a = .ok true := by
  unfold Allows
  constructor
  · intro ⟨action, shifted, next, arena', hact, hshift, happ, happly⟩
    have hperform := Update.perform_eq_some.2 ⟨shifted, hshift, happ, happly⟩
    exact ⟨action, hact, Update.occurs_eq_true.2 ⟨next, arena', hperform⟩⟩
  · intro ⟨action, hact, hoccurs⟩
    obtain ⟨next, arena', hperform⟩ := Update.occurs_eq_true.1 hoccurs
    obtain ⟨shifted, hshift, happ, happly⟩ := Update.perform_eq_some.1 hperform
    exact ⟨action, shifted, next, arena', hact, hshift, happ, happly⟩

theorem Stems.updatedBy (hstems : g.Stems t n c) (ha : (g.node c).action = some a) :
    g.UpdatedBy t n a c := by
  obtain ⟨action, b, before, after, hact, hb, hin, hperform, hstep, hext⟩ := hstems
  rw [ha] at hb
  cases hb
  obtain ⟨shifted, hshift, _, happly⟩ := Update.perform_eq_some.1 hperform
  exact ⟨action, shifted, before, after, hact, hshift, hin, happly, hstep, hext⟩

namespace CutAt

variable (hacc : t.Accepted) (hcut : CutAt t d k h) (hs : h.SameShape g)

include hacc hcut hs

/-- The nodes above the cut have been expanded, whatever marks they have got since. -/
theorem expandedBy_of_depth_lt (hn : n.index < g.size) (hlt : (g.node n).depth < d) :
    g.ExpandedBy t n t.numbered := by
  refine ((hcut.unfolding.unfolded hacc).of_sameShape hs).expanded n hn ?_
  by_contra hle
  have hdeep := hcut.deepest n (Nat.le_of_not_lt hle) (hs.size ▸ hn)
  rw [hs.depth] at hdeep
  omega

/-- The nodes at the cut have not been expanded. -/
theorem children_of_depth_eq (hn : n.index < g.size) (heq : (g.node n).depth = d) :
    (g.node n).children = [] := by
  have hinv := (hcut.unfolding.unfolded hacc).of_sameShape hs
  have hle : k ≤ n.index := by
    by_contra hlt
    have habove := hcut.above n (Nat.lt_of_not_le hlt)
    rw [hs.depth] at habove
    omega
  rcases Nat.eq_or_lt_of_le hle with hk | hlt
  · -- no action has been tried at the first of them
    obtain rfl : n = ⟨k⟩ := Handle.index_injective hk.symm
    exact List.map_eq_nil_iff.1 (hinv.current hn).actions
  · exact hinv.later n hn hlt

theorem completeTo : g.CompleteTo t d := by
  have hinv := (hcut.unfolding.unfolded hacc).of_sameShape hs
  have hdepth : ∀ n, n.index < g.size → (g.node n).depth ≤ d := by
    intro n hn
    rw [← hs.depth]
    exact hcut.depth_le (hs.size ▸ hn)
  have hall : t.numbered <+: t.numbered := List.prefix_rfl
  refine ⟨hdepth, fun n hn heq => children_of_depth_eq hacc hcut hs hn heq,
    fun n hn hlt a hallow => ?_, fun n hn hlt a hnot => ?_, fun n hn => ?_,
    hinv.breadthFirst, hinv.breadthFirst.maxDepth_eq hinv.sound.nonempty⟩
  · have hexp := expandedBy_of_depth_lt hacc hcut hs hn hlt
    obtain ⟨action, hact, hoccurs⟩ := allows_iff.1 hallow
    obtain ⟨c, hc, ha⟩ := hexp.exists_child_iff.2
      ⟨action, PlanningTask.mem_numbered.2 hact, hoccurs⟩
    exact ⟨c, hexp.childrenBy_eq hall hc ha, hexp.child?_eq_some hall hn hc ha,
      (hexp.child c hc).updatedBy ha⟩
  · have hexp := expandedBy_of_depth_lt hacc hcut hs hn hlt
    refine hexp.childrenBy_eq_nil fun action hp hoccurs => hnot ?_
    exact allows_iff.2 ⟨action, PlanningTask.mem_numbered.1 hp, hoccurs⟩
  · rcases Nat.lt_or_eq_of_le (hdepth n hn) with hlt | heq
    · exact (expandedBy_of_depth_lt hacc hcut hs hn hlt).pairwise hall
    · rw [children_of_depth_eq hacc hcut hs hn heq]
      exact List.Pairwise.nil

end CutAt

end SearchTree

/-- The tree of a plan for an accepted task is complete down to the cutoff depth. -/
theorem Planner.plan_tree_is_complete {p : Planner} (hacc : t.Accepted) (h : p.plan t = .ok g) :
    g.CompleteTo t g.stats.cutoffDepth := by
  obtain ⟨r, hmade⟩ := plan_of_run h
  obtain ⟨r₀, hstart, hround⟩ := hmade.round
  obtain ⟨f, hlevel⟩ := (hstart.after hacc hround).level
  obtain ⟨k, hcut⟩ := PlanningTask.cutAt_of_unfoldTo hacc hlevel.unfolds
  rw [hmade.cutoffDepth]
  exact hcut.completeTo hacc (hlevel.sameShape.symm.trans hmade.sameCosts.toSameShape.symm)

/-- The root of the plan for the lever has a child by each of the two actions. -/
theorem Lever.plan_complete : Lever.plan.CompleteTo Lever.task Lever.plan.stats.cutoffDepth ∧
    (Lever.plan.node SearchTree.root).children.length = 2 :=
  ⟨Planner.plan_tree_is_complete Lever.accepted Lever.plan_eq, by decide +kernel⟩

end EpistemicPlanning
