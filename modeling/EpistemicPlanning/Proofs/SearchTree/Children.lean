import EpistemicPlanning.Proofs.SearchTree.Expansion

/-!
# Children by action

The children of an expanded node are by different actions, in the order of actions, so the child
that an action leads to is found by the action (`SearchTree.ExpandedBy.child?_eq_some`).
-/
namespace EpistemicPlanning

variable {t : PlanningTask} {g : SearchTree} {n c c' : NodeId} {a : ActionId}
variable {l : List (Action × ActionId)}

/-- A property that holds of some member of a list, but of no two, singles out one of them. -/
theorem filter_eq_singleton {α : Type} {R : α → α → Prop} {q : α → Bool} {l : List α}
    (hl : l.Pairwise R) (hq : ∀ x y, q x = true → q y = true → ¬R x y) {x : α} (hx : x ∈ l)
    (hqx : q x = true) : l.filter q = [x] := by
  have hmem : x ∈ l.filter q := List.mem_filter.2 ⟨hx, hqx⟩
  have hpair := hl.filter q
  cases hfilter : l.filter q with
  | nil =>
    rw [hfilter] at hmem
    cases hmem
  | cons y ys =>
    cases ys with
    | nil =>
      rw [hfilter] at hmem
      rw [List.mem_singleton.1 hmem]
    | cons z zs =>
      have hy : y ∈ l.filter q := by
        rw [hfilter]
        exact List.mem_cons_self
      have hz : z ∈ l.filter q := by
        rw [hfilter]
        exact List.mem_cons_of_mem _ List.mem_cons_self
      rw [hfilter] at hpair
      have hrel := (List.pairwise_cons.1 hpair).1 z List.mem_cons_self
      exact absurd hrel (hq y z (List.mem_filter.1 hy).2 (List.mem_filter.1 hz).2)

theorem PlanningTask.pairwise_numbered (t : PlanningTask) :
    t.numbered.Pairwise fun p q => p.2.index < q.2.index := by
  have hids : t.numbered.map Prod.snd = t.actionIds := by
    unfold numbered
    refine List.map_snd_zip ?_
    simp [actionIds]
  have hsorted : t.actionIds.Pairwise fun a b => a.index < b.index := by
    unfold actionIds
    rw [List.pairwise_map]
    exact List.pairwise_lt_range
  rw [← hids, List.pairwise_map] at hsorted
  exact hsorted

namespace SearchTree

/-- A node was reached by an earlier action than another. -/
def ActionBefore (g : SearchTree) (c c' : NodeId) : Prop :=
  ∃ a a', (g.node c).action = some a ∧ (g.node c').action = some a' ∧ a.index < a'.index

/-- The children of a node by an action. -/
def childrenBy (g : SearchTree) (n : NodeId) (a : ActionId) : List NodeId :=
  (g.node n).children.filter fun c => (g.node c).action = some a

theorem not_actionBefore (hc : (g.node c).action = some a) (hc' : (g.node c').action = some a) :
    ¬g.ActionBefore c c' := by
  rintro ⟨b, b', hb, hb', hlt⟩
  rw [hc] at hb
  rw [hc'] at hb'
  cases hb
  cases hb'
  exact Nat.lt_irrefl _ hlt

namespace ExpandedBy

theorem pairwise (h : g.ExpandedBy t n l) (hl : l <+: t.numbered) :
    (g.node n).children.Pairwise g.ActionBefore := by
  have hsorted : (l.filter fun p =>
      Update.occurs t g.arena (g.node n).state p.1 p.2 = .ok true).Pairwise
        fun p q => p.2.index < q.2.index :=
    (t.pairwise_numbered.sublist hl.sublist).filter _
  have hactions : ((g.node n).children.map fun c => (g.node c).action).Pairwise
      fun x y => ∃ a a', x = some a ∧ y = some a' ∧ a.index < a'.index := by
    rw [h.actions, List.pairwise_map]
    refine hsorted.imp fun {p q} hlt => ?_
    exact ⟨p.2, q.2, rfl, rfl, hlt⟩
  rw [List.pairwise_map] at hactions
  exact hactions

/-- There is a child for each of the actions of which something comes. -/
theorem exists_child_iff (h : g.ExpandedBy t n l) :
    (∃ c ∈ (g.node n).children, (g.node c).action = some a) ↔
      ∃ action, (action, a) ∈ l ∧ Update.occurs t g.arena (g.node n).state action a = .ok true := by
  have hmem : (∃ c ∈ (g.node n).children, (g.node c).action = some a) ↔
      some a ∈ (g.node n).children.map fun c => (g.node c).action := List.mem_map.symm
  rw [hmem, h.actions, List.mem_map]
  constructor
  · intro ⟨p, hp, heq⟩
    obtain ⟨hp, hoccurs⟩ := List.mem_filter.1 hp
    cases heq
    exact ⟨p.1, hp, of_decide_eq_true hoccurs⟩
  · intro ⟨action, hp, hoccurs⟩
    exact ⟨(action, a), List.mem_filter.2 ⟨hp, decide_eq_true hoccurs⟩, rfl⟩

theorem childrenBy_eq (h : g.ExpandedBy t n l) (hl : l <+: t.numbered)
    (hc : c ∈ (g.node n).children) (ha : (g.node c).action = some a) :
    g.childrenBy n a = [c] := by
  refine filter_eq_singleton (h.pairwise hl) (fun x y hx hy => ?_) hc (decide_eq_true ha)
  exact not_actionBefore (of_decide_eq_true hx) (of_decide_eq_true hy)

theorem childrenBy_eq_nil (h : g.ExpandedBy t n l)
    (hnone : ∀ action, (action, a) ∈ l →
      Update.occurs t g.arena (g.node n).state action a ≠ .ok true) :
    g.childrenBy n a = [] := by
  rw [childrenBy, List.filter_eq_nil_iff]
  intro c hc ha
  obtain ⟨action, hp, hoccurs⟩ := h.exists_child_iff.1 ⟨c, hc, of_decide_eq_true ha⟩
  exact hnone action hp hoccurs

theorem child?_eq_some (h : g.ExpandedBy t n l) (hl : l <+: t.numbered) (hn : n.index < g.size)
    (hc : c ∈ (g.node n).children) (ha : (g.node c).action = some a) :
    g.child? n a = some c := by
  have hby := h.childrenBy_eq hl hc ha
  have hhead : ((g.node n).children.filter fun c => (g.node c).action = some a).head? =
      some c := by
    unfold childrenBy at hby
    rw [hby]
    rfl
  unfold child?
  rw [node?_eq_some hn, Option.bind_some, ← List.head?_filter]
  exact hhead

end ExpandedBy

/-- A node has children only where actions have been tried. -/
theorem Unfolded.exists_expandedBy {k : Nat} (h : g.Unfolded t k l) (hn : n.index < g.size)
    (hc : c ∈ (g.node n).children) : ∃ tried, tried <+: t.numbered ∧ g.ExpandedBy t n tried := by
  rcases Nat.lt_trichotomy n.index k with hlt | heq | hgt
  · exact ⟨t.numbered, List.prefix_rfl, h.expanded n hn hlt⟩
  · obtain rfl : n = ⟨k⟩ := Handle.index_injective heq
    exact ⟨l, h.tried, h.current hn⟩
  · rw [h.later n hn hgt] at hc
    cases hc

end SearchTree

end EpistemicPlanning
