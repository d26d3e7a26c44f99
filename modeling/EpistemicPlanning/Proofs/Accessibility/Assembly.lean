import EpistemicPlanning.Proofs.Accessibility.Edits
import EpistemicPlanning.Proofs.Accessibility.Gains
import EpistemicPlanning.Proofs.Ordered

/-!
# Assembled relations

A relation that has only been added to stores for each of its agents the links that were mentioned
for the agent, the link from each node to itself, and nothing else: whether agents, nodes and links
come early or late, how often, and which way round a link is given makes no difference
(`Assembly.Alike.eq_of_result`).
-/
namespace EpistemicPlanning

variable {kind : HandleKind}

/-- An operation that adds to a relation. -/
inductive Addition (kind : HandleKind) where
  | agent (a : Agent)
  | node (n : Handle kind)
  | link (a : Agent) (m n : Handle kind)
  deriving DecidableEq

namespace Addition

/-- The operation as an edit. -/
def edit : Addition kind → Edit kind
  | .agent a => .addAgent a
  | .node n => .addNode n
  | .link a m n => .addLink a m n

/-- The agents that an addition mentions by themselves. -/
def agents : Addition kind → List Agent
  | .agent a => [a]
  | _ => []

/-- The nodes that an addition mentions, by themselves or as ends of a link. -/
def nodes : Addition kind → List (Handle kind)
  | .agent _ => []
  | .node n => [n]
  | .link _ m n => [m, n]

/-- The link that an addition mentions, and its agent. -/
def links : Addition kind → List (Agent × Link kind)
  | .link a m n => [(a, .of m n)]
  | _ => []

end Addition

/-- How a relation is assembled: the agents and nodes that it is made with, and what is added. -/
structure Assembly (kind : HandleKind) where
  agents : List Agent
  nodes : List (Handle kind)
  additions : List (Addition kind)

namespace Assembly

variable {A B : Assembly kind} {r r' : Accessibility kind} {x : Addition kind}

/-- The assembled relation, or how the first addition that fails does so. -/
def result (A : Assembly kind) : Except ModelError (Accessibility kind) :=
  A.additions.foldlM (fun r x => r.edit x.edit) (.discrete A.agents A.nodes)

/-- The agents that are mentioned. -/
def allAgents (A : Assembly kind) : List Agent := A.agents ++ A.additions.flatMap Addition.agents

/-- The nodes that are mentioned. -/
def allNodes (A : Assembly kind) : List (Handle kind) :=
  A.nodes ++ A.additions.flatMap Addition.nodes

/-- The links that are mentioned, either way round. -/
def allLinks (A : Assembly kind) : List (Agent × Link kind) := A.additions.flatMap Addition.links

/-- Two ways to assemble a relation mention the same agents, nodes and links. -/
structure Alike (A B : Assembly kind) : Prop where
  agents : ∀ a, a ∈ A.allAgents ↔ a ∈ B.allAgents
  nodes : ∀ n, n ∈ A.allNodes ↔ n ∈ B.allNodes
  links : ∀ l, l ∈ A.allLinks ↔ l ∈ B.allLinks

/-- One addition more. -/
def snoc (A : Assembly kind) (x : Addition kind) : Assembly kind :=
  { A with additions := A.additions ++ [x] }

theorem mem_allAgents_snoc {a : Agent} :
    a ∈ (A.snoc x).allAgents ↔ a ∈ A.allAgents ∨ a ∈ x.agents := by
  simp [allAgents, snoc, or_assoc]

theorem mem_allNodes_snoc {n : Handle kind} :
    n ∈ (A.snoc x).allNodes ↔ n ∈ A.allNodes ∨ n ∈ x.nodes := by
  simp [allNodes, snoc, or_assoc]

theorem mem_allLinks_snoc {l : Agent × Link kind} :
    l ∈ (A.snoc x).allLinks ↔ l ∈ A.allLinks ∨ l ∈ x.links := by
  simp [allLinks, snoc]

theorem result_snoc : (A.snoc x).result = A.result >>= fun r => r.edit x.edit := by
  simp [result, snoc]

/-! ### What is stored -/

/-- The relation holds what the assembly mentions: its agents and nodes, for each agent the links
that are mentioned and those from nodes to themselves, and no cuts. -/
structure Holds (A : Assembly kind) (r : Accessibility kind) : Prop where
  agents : ∀ a, r.hasAgent a = true ↔ a ∈ A.allAgents
  nodes : ∀ n, n ∈ r.nodes ↔ n ∈ A.allNodes
  adjacent : ∀ a m n, r.Adjacent a m n ↔
    (a ∈ A.allAgents ∧ m = n ∧ m ∈ A.allNodes) ∨ (a, Link.of m n) ∈ A.allLinks
  cuts : r.cuts = ∅

theorem holds_discrete {agents : List Agent} {nodes : List (Handle kind)} :
    Holds ⟨agents, nodes, []⟩ (.discrete agents nodes) where
  agents a := by simp [Accessibility.hasAgent_discrete, allAgents]
  nodes n := by simp [Accessibility.mem_nodes_discrete, allNodes]
  adjacent a m n := by simp [Accessibility.adjacent_discrete, allAgents, allNodes, allLinks]
  cuts := Accessibility.cuts_foldl_addAgent

theorem Holds.addAgent (h : Holds A r) (b : Agent) : Holds (A.snoc (.agent b)) (r.addAgent b) where
  agents a := by
    rw [Accessibility.hasAgent_addAgent, h.agents, mem_allAgents_snoc, or_comm]
    simp [Addition.agents]
  nodes n := by
    rw [mem_allNodes_snoc]
    exact (h.nodes n).trans (or_iff_left List.not_mem_nil).symm
  adjacent a m n := by
    rw [Accessibility.adjacent_addAgent, h.adjacent, h.nodes, mem_allAgents_snoc,
      mem_allNodes_snoc, mem_allLinks_snoc]
    simp only [Addition.agents, Addition.nodes, Addition.links, List.mem_singleton,
      List.not_mem_nil, or_false]
    tauto
  cuts := h.cuts

theorem Holds.addNode (h : Holds A r) (x : Handle kind) :
    Holds (A.snoc (.node x)) (r.addNode x) where
  agents a := by
    rw [Accessibility.hasAgent_addNode, h.agents, mem_allAgents_snoc]
    simp [Addition.agents]
  nodes n := by
    rw [Accessibility.mem_nodes_addNode, h.nodes, mem_allNodes_snoc, or_comm]
    simp [Addition.nodes]
  adjacent a m n := by
    rw [Accessibility.adjacent_addNode, h.adjacent, h.agents, mem_allAgents_snoc,
      mem_allNodes_snoc, mem_allLinks_snoc]
    simp only [Addition.agents, Addition.nodes, Addition.links, List.mem_singleton,
      List.not_mem_nil, or_false]
    grind
  cuts := h.cuts

theorem Holds.link (h : Holds A r) {b : Agent} (hb : r.hasAgent b = true) (x y : Handle kind) :
    Holds (A.snoc (.link b x y)) (r.link b x y) where
  agents a := by
    rw [Accessibility.hasAgent_link, h.agents, mem_allAgents_snoc]
    simp [Addition.agents]
  nodes n := by
    rw [Accessibility.mem_nodes_link, h.nodes, mem_allNodes_snoc]
    simp only [Addition.nodes, List.mem_cons, List.not_mem_nil, or_false]
    tauto
  adjacent a m n := by
    rw [Accessibility.adjacent_link, Accessibility.adjacent_addNode,
      Accessibility.adjacent_addNode, Accessibility.hasAgent_addNode, h.adjacent, h.agents,
      mem_allAgents_snoc, mem_allNodes_snoc, mem_allLinks_snoc]
    simp only [Addition.agents, Addition.nodes, Addition.links, List.mem_cons, List.not_mem_nil,
      or_false, Prod.mk.injEq, hb, true_and]
    grind
  cuts := h.cuts

theorem Holds.add (h : Holds A r) (hadd : r.edit x.edit = .ok r') : Holds (A.snoc x) r' := by
  cases x with
  | agent b =>
    cases hadd
    exact h.addAgent b
  | node n =>
    cases hadd
    exact h.addNode n
  | link b m n =>
    obtain ⟨ls, hls, rfl⟩ := Fallible.map_eq_ok hadd
    refine h.link ?_ m n
    by_contra hb
    rw [Accessibility.linksOf_eq_error (Bool.eq_false_iff.2 hb)] at hls
    cases hls

/-- An assembled relation holds what has been mentioned. -/
theorem holds_of_result (h : A.result = .ok r) : Holds A r := by
  obtain ⟨agents, nodes, additions⟩ := A
  -- on the additions, of which the last is the last to be carried out
  induction additions using List.reverseRecOn generalizing r with
  | nil =>
    cases h
    exact holds_discrete
  | append_singleton additions x ih =>
    have hlast : (snoc ⟨agents, nodes, additions⟩ x).result = .ok r := h
    rw [result_snoc] at hlast
    obtain ⟨r₀, hr₀, hadd⟩ := Fallible.bind_eq_ok hlast
    exact (ih hr₀).add hadd

end Assembly

/-- What has been mentioned determines the assembled relation. -/
theorem Assembly.Alike.eq_of_result {A B : Assembly kind} {r r' : Accessibility kind} (h : A.Alike B)
    (hA : A.result = .ok r) (hB : B.result = .ok r') : r = r' := by
  have hr := Assembly.holds_of_result hA
  have hr' := Assembly.holds_of_result hB
  refine Accessibility.eq_of_adjacent (SortedSet.ext fun n => ?_) ?_ (fun a => ?_) fun a m n => ?_
  · rw [hr.nodes, hr'.nodes, h.nodes]
  · rw [hr.cuts, hr'.cuts]
  · rw [Bool.eq_iff_iff, hr.agents, hr'.agents, h.agents]
  · rw [hr.adjacent, hr'.adjacent, h.agents, h.nodes, h.links]

end EpistemicPlanning
