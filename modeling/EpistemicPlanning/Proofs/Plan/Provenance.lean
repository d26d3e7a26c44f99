import EpistemicPlanning.Proofs.Lever
import EpistemicPlanning.Proofs.Planning.Deepening
import EpistemicPlanning.Proofs.Planning.Reachable
import EpistemicPlanning.Proofs.SearchTree.Alignment

/-!
# Provenance agrees with the tree

In all states of a run, the provenance edges between worlds and the steps between nodes of the tree
agree (`Planner.run_provenance_agrees`), and so they do in a plan (`Planner.plan_provenance`).
-/
namespace EpistemicPlanning

variable {t : PlanningTask} {g h : SearchTree} {n : NodeId} {w : WorldId} {e : EdgeId} {k : Nat}
variable {l : List (Action × ActionId)}

namespace SearchTree

/-- An edge tells how a world of a node was made: of which world of the parent of the node, and by
which event of the action of the node. -/
structure Records (t : PlanningTask) (g : SearchTree) (e : EdgeId) (n : NodeId) (w : WorldId) :
    Prop where
  incoming : (g.arena.world w).incoming = some e
  inArena : e.index < g.arena.edges.size
  child : (g.arena.edge e).child = w
  parent : ∃ p, (g.node n).parent = some p ∧
    (g.arena.edge e).parent ∈ (g.node p).state.possible
  action : (g.node n).action = some (g.arena.edge e).action
  event : ∃ action, t.action? (g.arena.edge e).action = some action ∧
    (g.arena.edge e).event ∈ action.eventIds ∧ (g.arena.edge e).agent = action.owner

/-- The edges between worlds agree with the steps between nodes. -/
structure ProvenanceAgrees (t : PlanningTask) (g : SearchTree) : Prop where
  /-- A world that is not an initial one belongs to exactly one node, which is not the root. -/
  node : ∀ w, t.arena.worlds.size ≤ w.index → w.index < g.arena.worlds.size →
    ∃! n, (n.index < g.size ∧ n ≠ root) ∧ w ∈ (g.node n).state.possible
  incoming : ∀ n, n.index < g.size → n ≠ root → ∀ w ∈ (g.node n).state.possible,
    ∃ e, g.Records t e n w
  /-- A step from a world of a node leads to a world of the child by the same action. -/
  outgoing : ∀ n, n.index < g.size → ∀ w ∈ (g.node n).state.possible,
    ∀ e ∈ (g.arena.world w).outgoing, ∃ c, g.child? n (g.arena.edge e).action = some c ∧
      (g.arena.edge e).child ∈ (g.node c).state.possible
  /-- A world lists exactly the edges that start from it. -/
  listed : ∀ w e, e ∈ (g.arena.world w).outgoing ↔
    e.index < g.arena.edges.size ∧ (g.arena.edge e).parent = w
  nodup : ∀ w, (g.arena.world w).outgoing.Nodup
  edges : g.arena.edges.size = g.arena.worlds.size - t.arena.worlds.size

theorem Joins.ne_root (hb : g.BreadthFirst) {m : NodeId} (hjoin : g.Joins t e n m) :
    m ≠ root := by
  intro hroot
  have hparent := hjoin.parent
  rw [hroot, hb.rootParent] at hparent
  cases hparent

theorem Joins.records (hwf : g.WellFormed t) {m : NodeId} (hin : e.index < g.arena.edges.size)
    (hjoin : g.Joins t e n m) (hchild : (g.arena.edge e).child = w) : g.Records t e m w := by
  obtain ⟨action, hact, howner⟩ := hjoin.owner
  refine ⟨(hwf.consistent.incoming w e).2 ⟨hin, hchild⟩, hin, hchild,
    ⟨n, hjoin.parent, hjoin.source⟩, hjoin.action, action, hact, ?_, howner⟩
  obtain ⟨event, hevent⟩ := PlanningTask.mem_eventHandles.1 hjoin.fires.mem_eventHandles
  unfold PlanningTask.event? at hevent
  rw [hact, Option.bind_some] at hevent
  exact PlanningTask.mem_eventIds.2 (List.getElem?_eq_some_iff.1 hevent).1

/-- An edge from a world of a node leads to a world of the child that its action leads to. -/
theorem Unfolded.child?_of_outgoing (hinv : g.Unfolded t k l) (hwf : g.WellFormed t)
    (hn : n.index < g.size) (hw : w ∈ (g.node n).state.possible)
    (he : e ∈ (g.arena.world w).outgoing) :
    ∃ c, g.child? n (g.arena.edge e).action = some c ∧
      (g.arena.edge e).child ∈ (g.node c).state.possible := by
  obtain ⟨c, hc, _, hjoin⟩ := hwf.joins_of_outgoing hn hw he
  obtain ⟨p, hp, _, _, hmem⟩ := hinv.breadthFirst.parent c hc (hjoin.ne_root hinv.breadthFirst)
  rw [hjoin.parent] at hp
  cases hp
  obtain ⟨tried, htried, hexp⟩ := hinv.exists_expandedBy hn hmem
  exact ⟨c, hexp.child?_eq_some htried hn hmem hjoin.action, hjoin.target⟩

theorem Unfolded.provenanceAgrees (hinv : g.Unfolded t k l) (hwf : g.WellFormed t)
    (hal : g.Aligned t) : g.ProvenanceAgrees t := by
  have hsize := hal.size
  refine ⟨fun w hlow hin => ?_, fun n hn hne w hw => ?_,
    fun n hn w hw e he => hinv.child?_of_outgoing hwf hn hw he, hwf.consistent.outgoing,
    hwf.consistent.nodup, by omega⟩
  · obtain ⟨e, he, hchild⟩ := hal.exists_edge hlow hin
    obtain ⟨n, m, _, hm, hjoin⟩ := hwf.edge e he
    have htarget := hjoin.target
    rw [hchild] at htarget
    refine ⟨m, ⟨⟨hm, hjoin.ne_root hinv.breadthFirst⟩, htarget⟩, fun m' hm' => ?_⟩
    exact hwf.apart m' m hm'.1.1 hm w hm'.2 htarget
  · obtain ⟨e, he, hchild⟩ := hal.exists_edge (hal.beyond n hn hne w hw) (hwf.inArena n hn w hw)
    obtain ⟨p, m, _, hm, hjoin⟩ := hwf.edge e he
    have htarget := hjoin.target
    rw [hchild] at htarget
    obtain rfl := hwf.apart m n hm hn w htarget hw
    exact ⟨e, hjoin.records hwf he hchild⟩

/-- A tree that a task unfolds into keeps its provenance whatever marks it gets. -/
theorem Unfolding.provenanceAgrees (hacc : t.Accepted) (hfresh : t.arena.Fresh)
    (hunfold : Unfolding t k l h) (hs : h.SameShape g) : g.ProvenanceAgrees t :=
  ((hunfold.unfolded hacc).of_sameShape hs).provenanceAgrees
    ((hunfold.wellFormed hacc hfresh).of_sameShape hs) ((hunfold.aligned hfresh).of_sameShape hs)

end SearchTree

/-- In every state of a run of the planner between two expansions of nodes, provenance agrees with
the tree. -/
theorem Planner.run_provenance_agrees {p : Planner} {r : Run} (hacc : t.Accepted)
    (hfresh : t.arena.Fresh) (hr : r.Reachable t p.config) : r.tree.ProvenanceAgrees t := by
  obtain ⟨k, h, hunfold, hs⟩ := hr.unfolding hacc
  exact hunfold.provenanceAgrees hacc hfresh hs

namespace Lever

open Planning

/-- The run for the lever that has begun its first round. -/
def begun : Run := { Run.initial task planner.config with iterations := 1 }

/-- The run for the lever when the root has been expanded. -/
def rooted : Run :=
  (exec ([SearchTree.root].forM (expand (t := task) planner.config)) begun).2

theorem rooted_reachable : rooted.Reachable task planner.config := by
  refine .expanding (.begun .initial) (by decide) (List.append_nil _).symm ?_
  exact exec_eq_of_ok (by decide +kernel)

/-- When the root has been expanded, both of its children have worlds. -/
theorem rooted_provenance : rooted.tree.ProvenanceAgrees task ∧ rooted.tree.size = 3 ∧
    3 < rooted.tree.arena.worlds.size :=
  ⟨Planner.run_provenance_agrees accepted fresh rooted_reachable, by decide +kernel,
    by decide +kernel⟩

end Lever

/-- In a plan, provenance agrees with the tree. -/
theorem Planner.plan_provenance {p : Planner} (hacc : t.Accepted) (hfresh : t.arena.Fresh)
    (h : p.plan t = .ok g) : g.ProvenanceAgrees t := by
  obtain ⟨r, hmade⟩ := plan_of_run h
  obtain ⟨r₀, hstart, hround⟩ := hmade.round
  obtain ⟨k, f, hunfold, hs⟩ := (Run.Reachable.settled hstart hround).unfolding hacc
  exact hunfold.provenanceAgrees hacc hfresh (hs.trans hmade.sameCosts.toSameShape.symm)

end EpistemicPlanning
