import EpistemicPlanning.Proofs.SearchTree.Levels

/-!
# Trees without their costs

Costs do not matter to the growth of a tree: two trees that are equal apart from their costs stay so
when the same nodes are expanded (`SearchTree.expandAll_congr`).
-/
namespace EpistemicPlanning

/-- A node without its cost. -/
def Node.uncosted (n : Node) : Node := { n with cost := .undefined }

namespace SearchTree

variable {t : PlanningTask} {g g' h : SearchTree} {m n : NodeId} {arena : Arena} {next : State}
variable {a : ActionId} {p : Action × ActionId} {l : List (Action × ActionId)} {ns : List NodeId}

/-- A tree with every cost undefined, apart from the costs that agents see. -/
def uncosted (g : SearchTree) : SearchTree :=
  { g with nodes := g.nodes.map Node.uncosted, arena := g.arena.resetCosts }

@[simp] theorem size_uncosted : g.uncosted.size = g.size := by
  simp [uncosted, size]

@[simp] theorem node_uncosted : g.uncosted.node n = (g.node n).uncosted := by
  unfold node node? uncosted
  rw [Array.getElem?_map]
  cases g.nodes[n.index]? <;> rfl

theorem sameShape_uncosted (g : SearchTree) : g.uncosted.SameShape g where
  size := size_uncosted
  node n := by rw [node_uncosted]; rfl
  arena := Arena.sameShape_resetCosts

theorem sameShape_of_uncosted (heq : g.uncosted = h.uncosted) : g.SameShape h :=
  (sameShape_uncosted g).symm.trans (heq ▸ sameShape_uncosted h)

theorem state_of_uncosted (heq : g.uncosted = h.uncosted) (n : NodeId) :
    (g.node n).state = (h.node n).state := by
  have hnode : (g.node n).uncosted = (h.node n).uncosted := by
    rw [← node_uncosted, heq, node_uncosted]
  have hstate : (g.node n).uncosted.state = (h.node n).uncosted.state := by rw [hnode]
  exact hstate

theorem uncosted_grown :
    (g.grown arena n a next).uncosted = g.uncosted.grown arena.resetCosts n a next := by
  have hnodes : (g.uncosted.grown arena.resetCosts n a next).nodes =
      (g.grown arena n a next).nodes.map Node.uncosted :=
    nodes_addChild_map (g := { g with arena }) (fun _ => rfl) (fun _ _ => rfl) fun _ => rfl
  unfold uncosted
  rw [← hnodes]
  rfl

theorem sprout_uncosted (hact : t.action? p.2 = some p.1) :
    g.uncosted.sprout t n p = (g.sprout t n p).map uncosted := by
  have hstate : (g.uncosted.node n).state = (g.node n).state := by
    rw [node_uncosted]
    rfl
  unfold sprout
  rw [hstate]
  change (Update.perform t g.arena.resetCosts _ _ _).map _ = _
  rw [Update.perform_resetCosts hact]
  cases Update.perform t g.arena (g.node n).state p.1 p.2 with
  | error e => rfl
  | ok result =>
    obtain ⟨next?, arena⟩ := result
    cases next? with
    | none => rfl
    | some next => exact congrArg Except.ok uncosted_grown.symm

theorem sproutAll_uncosted (hl : ∀ p ∈ l, t.action? p.2 = some p.1) :
    l.foldlM (sprout t n) g.uncosted = (l.foldlM (sprout t n) g).map uncosted := by
  induction l generalizing g with
  | nil => rfl
  | cons p l ih =>
    rw [List.foldlM_cons, List.foldlM_cons, sprout_uncosted (hl p List.mem_cons_self)]
    cases g.sprout t n p with
    | error e => rfl
    | ok g₁ => exact ih fun q hq => hl q (List.mem_cons_of_mem _ hq)

theorem expanded_uncosted : g.uncosted.expanded t n = (g.expanded t n).map uncosted :=
  sproutAll_uncosted fun _ hp => PlanningTask.mem_numbered.1 hp

/-- The tree after some nodes have been expanded. -/
def expandAll (t : PlanningTask) (g : SearchTree) (ns : List NodeId) :
    Except ModelError SearchTree :=
  ns.foldlM (fun g n => g.expanded t n) g

theorem extends_of_expandAll (hs : g.Sound t) (hns : ∀ n ∈ ns, n.index < g.size)
    (hexp : g.expandAll t ns = .ok g') : g'.Extends g := by
  refine (Fallible.foldlM_inv (fun f => f.Sound t ∧ f.Extends g) ⟨hs, .refl g⟩
    (fun n hn f f' hf hstep => ?_) hexp).2
  have hin := Nat.lt_of_lt_of_le (hns n hn) hf.2.size
  exact ⟨hf.1.expanded hin hstep, (extends_of_expanded hf.1 hin hstep).1.trans hf.2⟩

theorem size_le_of_expandAll (h : g.expandAll t ns = .ok g') : g.size ≤ g'.size :=
  Fallible.foldlM_inv (fun f : SearchTree => g.size ≤ f.size) (Nat.le_refl _)
    (fun _ _ _ _ hle hexp => Nat.le_trans hle (size_le_of_sproutAll hexp)) h

theorem expandAll_uncosted : g.uncosted.expandAll t ns = (g.expandAll t ns).map uncosted := by
  unfold expandAll
  induction ns generalizing g with
  | nil => rfl
  | cons n ns ih =>
    rw [List.foldlM_cons, List.foldlM_cons, expanded_uncosted]
    cases g.expanded t n with
    | error e => rfl
    | ok g₁ => exact ih

/-- Trees that differ in costs only grow in the same way. -/
theorem expandAll_congr (heq : g.uncosted = h.uncosted) (hexp : g.expandAll t ns = .ok g') :
    ∃ h', h.expandAll t ns = .ok h' ∧ g'.uncosted = h'.uncosted := by
  have hmap : (h.expandAll t ns).map uncosted = .ok g'.uncosted := by
    rw [← expandAll_uncosted, ← heq, expandAll_uncosted, hexp]
    rfl
  obtain ⟨h', hh, hsame⟩ := Fallible.map_eq_ok hmap
  exact ⟨h', hh, hsame.symm⟩

end SearchTree

end EpistemicPlanning
