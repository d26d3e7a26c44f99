import EpistemicPlanning.Proofs.SearchTree.Children

/-!
# Worlds and edges come in pairs

While a task with nothing but initial worlds unfolds, every new world comes with the edge that it
was made by, so that edges are numbered like the worlds that they lead to (`SearchTree.Aligned`).
-/
namespace EpistemicPlanning.SearchTree

variable {t : PlanningTask} {g g' : SearchTree} {n : NodeId} {k : Nat} {w : WorldId}
variable {arena' : Arena} {next : State} {action : Action} {a : ActionId}
variable {l : List (Action × ActionId)}

/-- Edges lead to the worlds after the initial ones, in order, and those are the worlds of nodes
other than the root. -/
structure Aligned (t : PlanningTask) (g : SearchTree) : Prop where
  size : g.arena.edges.size + t.arena.worlds.size = g.arena.worlds.size
  child : ∀ e, e.index < g.arena.edges.size →
    (g.arena.edge e).child = ⟨t.arena.worlds.size + e.index⟩
  beyond : ∀ n, n.index < g.size → n ≠ root → ∀ w ∈ (g.node n).state.possible,
    t.arena.worlds.size ≤ w.index

theorem aligned_ofTask (hfresh : t.arena.Fresh) : (ofTask t).Aligned t := by
  refine ⟨?_, fun e he => ?_, fun n hn hne => ?_⟩
  · change t.arena.edges.size + t.arena.worlds.size = t.arena.worlds.size
    rw [hfresh.edges, Nat.zero_add]
  · have hin : e.index < t.arena.edges.size := he
    rw [hfresh.edges] at hin
    exact absurd hin (Nat.not_lt_zero _)
  · exact absurd (node_ofTask hn).2 hne

theorem Aligned.of_sameShape (h : g.Aligned t) (s : g.SameShape g') : g'.Aligned t := by
  refine ⟨?_, fun e he => ?_, fun n hn hne w hw => ?_⟩
  · rw [← s.arena.edges, ← s.arena.worlds]
    exact h.size
  · rw [← s.arena.child]
    exact h.child e (s.arena.edges ▸ he)
  · exact h.beyond n (s.size.symm ▸ hn) hne w (s.possible ▸ hw)

theorem Aligned.grown (h : g.Aligned t) (hn : n.index < g.size) (hact : t.action? a = some action)
    (hperform : Update.perform t g.arena (g.node n).state action a = .ok (some next, arena')) :
    (g.grown arena' n a next).Aligned t := by
  obtain ⟨shifted, _, _, hupdate⟩ := Update.perform_eq_some.1 hperform
  obtain ⟨cs, _, _, rfl, rfl⟩ := Update.value_apply_eq_some hact hupdate
  have hsize := h.size
  refine ⟨?_, fun e he => ?_, fun m hm hne w hw => ?_⟩
  · rw [arena_grown, Update.size_edges_grow, Update.size_worlds_grow]
    omega
  · rw [arena_grown, Update.size_edges_grow] at he
    rw [arena_grown]
    by_cases hold : e.index < g.arena.edges.size
    · rw [Update.edge_grow_old hold]
      exact h.child e hold
    · obtain ⟨i, hi⟩ := Nat.exists_eq_add_of_le (Nat.le_of_not_lt hold)
      have hlt : i < cs.length := by omega
      have hedge : (Update.grow g.arena action.owner a cs).edge ⟨g.arena.edges.size + i⟩ = _ :=
        Update.edge_grow_new (List.getElem?_eq_getElem hlt)
      obtain rfl : e = ⟨g.arena.edges.size + i⟩ := Handle.index_injective hi
      rw [hedge]
      refine Handle.index_injective ?_
      change g.arena.worlds.size + i = t.arena.worlds.size + (g.arena.edges.size + i)
      omega
  · rcases node_grown_cases hn hm with ⟨hm, ds, hds⟩ | ⟨_, hnew⟩
    · rw [hds] at hw
      exact h.beyond m hm hne w hw
    · rw [hnew] at hw
      have hlater := (lt_of_mem_possible_next action.owner a hw).1
      omega

theorem Unfolding.aligned (hfresh : t.arena.Fresh) (h : Unfolding t k l g) : g.Aligned t := by
  induction h with
  | root => exact aligned_ofTask hfresh
  | sprout _ hk hp hsprout ih =>
    rcases sprout_cases hsprout with ⟨_, _, rfl⟩ | ⟨next, arena, hperform, rfl⟩
    · exact ih
    · exact ih.grown hk (action?_of_tried hp) hperform
  | next _ _ ih => exact ih

theorem Aligned.exists_edge (h : g.Aligned t) (hlow : t.arena.worlds.size ≤ w.index)
    (hin : w.index < g.arena.worlds.size) :
    ∃ e, e.index < g.arena.edges.size ∧ (g.arena.edge e).child = w := by
  obtain ⟨i, hi⟩ := Nat.exists_eq_add_of_le hlow
  have hsize := h.size
  have hlt : i < g.arena.edges.size := by omega
  exact ⟨⟨i⟩, hlt, (h.child ⟨i⟩ hlt).trans (Handle.index_injective hi.symm)⟩

end EpistemicPlanning.SearchTree
