import EpistemicPlanning.Proofs.SearchTree.Unfolding

/-!
# Breadth-first unfolding

In an unfolding tree, depths do not decrease from one node to the next, and children come after
their parent (`SearchTree.BreadthFirst`). An expanded node has one child for each action of which
something comes, in the order of actions, and the state of a child is what comes of its action
(`SearchTree.ExpandedBy`).
-/
namespace EpistemicPlanning.SearchTree

variable {t : PlanningTask} {g g' : SearchTree} {m n c : NodeId} {k : Nat} {arena' : Arena}
variable {next : State} {action : Action} {a : ActionId} {p : Action × ActionId}
variable {l : List (Action × ActionId)}

/-! ### Order -/

/-- Nodes are numbered level by level, and parents and children know each other. -/
structure BreadthFirst (g : SearchTree) : Prop where
  rootParent : (g.node root).parent = none
  rootDepth : (g.node root).depth = 0
  parent : ∀ n, n.index < g.size → n ≠ root → ∃ p, (g.node n).parent = some p ∧
    p.index < n.index ∧ (g.node n).depth = (g.node p).depth + 1 ∧ n ∈ (g.node p).children
  child : ∀ n, n.index < g.size → ∀ c ∈ (g.node n).children,
    c.index < g.size ∧ (g.node c).parent = some n
  depth : ∀ m n, m.index ≤ n.index → n.index < g.size → (g.node m).depth ≤ (g.node n).depth

theorem breadthFirst_ofTask : (ofTask t).BreadthFirst := by
  refine ⟨rfl, rfl, fun n hn hne => ?_, fun n hn c hc => ?_, fun m n hle hn => ?_⟩
  · exact absurd (node_ofTask hn).2 hne
  · rw [(node_ofTask hn).1] at hc
    cases hc
  · have hm := Nat.lt_of_le_of_lt hle hn
    exact Nat.le_of_eq (by rw [(node_ofTask hm).1, (node_ofTask hn).1])

theorem BreadthFirst.of_sameShape (h : g.BreadthFirst) (s : g.SameShape g') : g'.BreadthFirst := by
  refine ⟨s.parent ▸ h.rootParent, s.depth ▸ h.rootDepth, fun n hn hne => ?_, fun n hn c hc => ?_,
    fun m n hle hn => ?_⟩
  · obtain ⟨p, hp, hlt, hdepth, hmem⟩ := h.parent n (s.size.symm ▸ hn) hne
    refine ⟨p, s.parent ▸ hp, hlt, ?_, s.children ▸ hmem⟩
    rw [← s.depth, ← s.depth]
    exact hdepth
  · obtain ⟨hlt, hp⟩ := h.child n (s.size.symm ▸ hn) c (s.children ▸ hc)
    exact ⟨s.size ▸ hlt, s.parent ▸ hp⟩
  · rw [← s.depth, ← s.depth]
    exact h.depth m n hle (s.size.symm ▸ hn)

theorem mem_children_grown (hm : m.index < g.size)
    (h : c ∈ ((g.grown arena' n a next).node m).children) :
    c ∈ (g.node m).children ∨ m = n ∧ c = ⟨g.size⟩ := by
  by_cases hne : m = n
  · subst hne
    rw [node_grown_self arena' next a hm] at h
    rcases List.mem_append.1 h with h | h
    · exact Or.inl h
    · exact Or.inr ⟨rfl, List.mem_singleton.1 h⟩
  · rw [node_grown_of_ne arena' next a hm hne] at h
    exact Or.inl h

theorem mem_children_grown_of_mem (hm : m.index < g.size) (h : c ∈ (g.node m).children) :
    c ∈ ((g.grown arena' n a next).node m).children := by
  by_cases hne : m = n
  · subst hne
    rw [node_grown_self arena' next a hm]
    exact List.mem_append_left _ h
  · rw [node_grown_of_ne arena' next a hm hne]
    exact h

/-- A child of a node keeps the order if no node is deeper than the child. -/
theorem BreadthFirst.grown (h : g.BreadthFirst) (hn : n.index < g.size)
    (hdeepest : ∀ m, m.index < g.size → (g.node m).depth ≤ (g.node n).depth + 1) :
    (g.grown arena' n a next).BreadthFirst := by
  have hroot : root.index < g.size := Nat.lt_of_le_of_lt (Nat.zero_le _) hn
  have hdepth : ∀ m : NodeId, m.index < g.size →
      ((g.grown arena' n a next).node m).depth = (g.node m).depth :=
    fun m hm => depth_grown_old n arena' next a hm
  have hparent : ∀ m : NodeId, m.index < g.size →
      ((g.grown arena' n a next).node m).parent = (g.node m).parent :=
    fun m hm => node_grown_field n arena' next a Node.parent (fun _ _ => rfl) hm
  -- a node is one of those before, with its parent and its depth, or it is the new one
  refine ⟨?_, ?_, fun m hm hne => ?_, fun m hm c hc => ?_, fun m q hle hq => ?_⟩
  · rw [hparent root hroot]
    exact h.rootParent
  · rw [hdepth root hroot]
    exact h.rootDepth
  · rcases node_grown_cases hn hm with ⟨hm, _⟩ | ⟨hm, hnew⟩
    · obtain ⟨p, hp, hlt, hdeeper, hmem⟩ := h.parent m hm hne
      have hpin := Nat.lt_trans hlt hm
      rw [hparent m hm, hdepth m hm]
      exact ⟨p, hp, hlt, by rw [hdepth p hpin, hdeeper], mem_children_grown_of_mem hpin hmem⟩
    · obtain rfl : m = ⟨g.size⟩ := Handle.index_injective hm
      rw [hnew]
      refine ⟨n, rfl, hn, by rw [hdepth n hn], ?_⟩
      rw [node_grown_self arena' next a hn]
      exact List.mem_append_right _ List.mem_cons_self
  · rw [size_grown]
    rcases node_grown_cases hn hm with ⟨hm, _⟩ | ⟨_, hnew⟩
    · rcases mem_children_grown hm hc with hc | ⟨rfl, rfl⟩
      · obtain ⟨hlt, hp⟩ := h.child m hm c hc
        exact ⟨Nat.lt_succ_of_lt hlt, (hparent c hlt).trans hp⟩
      · have hnew := node_grown_new arena' next a hn (rfl : (⟨g.size⟩ : NodeId).index = g.size)
        exact ⟨Nat.lt_succ_self _, congrArg Node.parent hnew⟩
    · rw [hnew] at hc
      cases hc
  · rcases node_grown_cases hn hq with ⟨hq, _⟩ | ⟨hq, hnew⟩
    · have hm := Nat.lt_of_le_of_lt hle hq
      rw [hdepth m hm, hdepth q hq]
      exact h.depth m q hle hq
    · by_cases hm : m.index < g.size
      · rw [hnew, hdepth m hm]
        exact hdeepest m hm
      · obtain rfl : m = q := Handle.index_injective (by omega)
        exact Nat.le_refl _

theorem BreadthFirst.maxDepth_eq (h : g.BreadthFirst) (hpos : 0 < g.size) :
    (∀ n, n.index < g.size → (g.node n).depth ≤ g.maxDepth) ∧
      ∃ n, n.index < g.size ∧ (g.node n).depth = g.maxDepth := by
  have hlast : g.size - 1 < g.size := by omega
  have hmax : g.maxDepth = (g.node ⟨g.size - 1⟩).depth := by
    have hget : g.nodes.back? = some (g.node ⟨g.size - 1⟩) := by
      have hlast' : g.nodes.size - 1 < g.nodes.size := hlast
      simp [Array.back?, node, node?, size, hlast']
    rw [maxDepth, hget]
    rfl
  rw [hmax]
  refine ⟨fun n hn => h.depth n _ ?_ hlast, _, hlast, rfl⟩
  change n.index ≤ g.size - 1
  omega

/-! ### Children -/

/-- The state of a child is what comes of its action in the state of its parent, at an earlier stage
of the arena that has the worlds of the parent. -/
def Stems (t : PlanningTask) (g : SearchTree) (n c : NodeId) : Prop :=
  ∃ action a before after, t.action? a = some action ∧ (g.node c).action = some a ∧
    (∀ w ∈ (g.node n).state.possible, w.index < before.worlds.size) ∧
    Update.perform t before (g.node n).state action a = .ok (some (g.node c).state.uncut, after) ∧
    after.Extends before ∧ g.arena.Extends after

/-- Some actions have been tried at a node, in order. -/
structure ExpandedBy (t : PlanningTask) (g : SearchTree) (n : NodeId)
    (l : List (Action × ActionId)) : Prop where
  decided : ∀ p ∈ l, ∃ b, Update.occurs t g.arena (g.node n).state p.1 p.2 = .ok b
  /-- The children are by the actions of which something comes. -/
  actions : (g.node n).children.map (fun c => (g.node c).action) =
    (l.filter fun p => Update.occurs t g.arena (g.node n).state p.1 p.2 = .ok true).map
      fun p => some p.2
  child : ∀ c ∈ (g.node n).children, g.Stems t n c

theorem ExpandedBy.of_sameShape (h : g.ExpandedBy t n l) (s : g.SameShape g')
    (hwf : (g.node n).state.WellFormed) (hl : ∀ p ∈ l, t.action? p.2 = some p.1) :
    g'.ExpandedBy t n l := by
  have hoccurs : ∀ p ∈ l, Update.occurs t g'.arena (g'.node n).state p.1 p.2 =
      Update.occurs t g.arena (g.node n).state p.1 p.2 := fun p hp =>
    (Update.occurs_congr (hl p hp) hwf s.possible s.designated s.links
      fun _ _ => s.arena.valuation).symm
  refine ⟨fun p hp => ?_, ?_, fun c hc => ?_⟩
  · rw [hoccurs p hp]
    exact h.decided p hp
  · have hactions := h.actions
    simp only [s.children, s.action] at hactions
    rw [hactions]
    congr 1
    refine List.filter_congr fun p hp => ?_
    rw [hoccurs p hp]
  · rw [← s.children] at hc
    obtain ⟨action, a, before, after, hact, haction, hin, hperform, hstep, hext⟩ := h.child c hc
    refine ⟨action, a, before, after, hact, s.action ▸ haction, s.possible ▸ hin, ?_, hstep, ?_⟩
    · have huncut : (g'.node c).state.uncut = (g.node c).state.uncut :=
        congrArg Node.state (s.node c).symm
      rw [huncut, ← hperform]
      exact (Update.perform_congr_state hact s.possible s.designated s.links).symm
    · exact (Arena.Extends.of_sameShape s.symm.arena).trans hext

/-- Nothing comes of an action in addition to those tried. -/
theorem ExpandedBy.declined (h : g.ExpandedBy t n l)
    (hoccurs : Update.occurs t g.arena (g.node n).state p.1 p.2 = .ok false) :
    g.ExpandedBy t n (l ++ [p]) := by
  refine ⟨fun q hq => ?_, ?_, h.child⟩
  · rcases List.mem_append.1 hq with hq | hq
    · exact h.decided q hq
    · obtain rfl := List.mem_singleton.1 hq
      exact ⟨false, hoccurs⟩
  · have hnone : [p].filter (fun p =>
        Update.occurs t g.arena (g.node n).state p.1 p.2 = .ok true) = [] := by
      simp [hoccurs]
    rw [List.filter_append, hnone, List.append_nil]
    exact h.actions

section

variable (hs : g.Sound t) (hb : g.BreadthFirst) (hn : n.index < g.size)
  (hact : t.action? a = some action)
  (hperform : Update.perform t g.arena (g.node n).state action a = .ok (some next, arena'))

include hs hn hact hperform

theorem occurs_grown {action' : Action} {a' : ActionId} (hm : m.index < g.size)
    (hact' : t.action? a' = some action') :
    Update.occurs t arena' ((g.grown arena' n a next).node m).state action' a' =
      Update.occurs t g.arena (g.node m).state action' a' := by
  rw [state_grown_old n arena' next a hm]
  refine Update.occurs_congr hact' (hs.state m hm) rfl rfl rfl fun w hw => ?_
  exact (hs.extends hn hact hperform).valuation w (hs.inArena m hm w hw)

theorem Stems.grown (h : g.Stems t m c) (hm : m.index < g.size) (hc : c.index < g.size) :
    (g.grown arena' n a next).Stems t m c := by
  obtain ⟨action', a', before, after, hact', haction, hin, hperform', hstep, hext⟩ := h
  refine ⟨action', a', before, after, hact', ?_, ?_, ?_, hstep, ?_⟩
  · rw [node_grown_field n arena' next a Node.action (fun _ _ => rfl) hc]
    exact haction
  · rw [state_grown_old n arena' next a hm]
    exact hin
  · rw [state_grown_old n arena' next a hm, state_grown_old n arena' next a hc]
    exact hperform'
  · exact (hs.extends hn hact hperform).trans hext

include hb

theorem ExpandedBy.grown_other (h : g.ExpandedBy t m l) (hm : m.index < g.size) (hne : m ≠ n)
    (hl : ∀ p ∈ l, t.action? p.2 = some p.1) : (g.grown arena' n a next).ExpandedBy t m l := by
  have hchildren : ((g.grown arena' n a next).node m).children = (g.node m).children := by
    rw [node_grown_of_ne arena' next a hm hne]
  refine ⟨fun p hp => ?_, ?_, fun c hc => ?_⟩
  · rw [arena_grown, occurs_grown hs hn hact hperform hm (hl p hp)]
    exact h.decided p hp
  · rw [hchildren, arena_grown]
    calc (g.node m).children.map (fun c => ((g.grown arena' n a next).node c).action)
      _ = (g.node m).children.map (fun c => (g.node c).action) := by
        refine List.map_congr_left fun c hc => ?_
        exact node_grown_field n arena' next a Node.action (fun _ _ => rfl) (hb.child m hm c hc).1
      _ = _ := h.actions
      _ = _ := by
        congr 1
        refine List.filter_congr fun p hp => ?_
        rw [occurs_grown hs hn hact hperform hm (hl p hp)]
  · rw [hchildren] at hc
    exact (h.child c hc).grown hs hn hact hperform hm (hb.child m hm c hc).1

theorem ExpandedBy.grown_self (h : g.ExpandedBy t n l) (hl : ∀ p ∈ l, t.action? p.2 = some p.1)
    (hcuts : next.uncut = next) :
    (g.grown arena' n a next).ExpandedBy t n (l ++ [(action, a)]) := by
  have hchildren : ((g.grown arena' n a next).node n).children =
      (g.node n).children ++ [⟨g.size⟩] := by
    rw [node_grown_self arena' next a hn]
  have hoccurs : Update.occurs t arena' ((g.grown arena' n a next).node n).state action a =
      .ok true := by
    rw [occurs_grown hs hn hact hperform hn hact]
    exact Update.occurs_eq_true.2 ⟨next, arena', hperform⟩
  have hnew := node_grown_new arena' next a hn (rfl : (⟨g.size⟩ : NodeId).index = g.size)
  refine ⟨fun p hp => ?_, ?_, fun c hc => ?_⟩
  · rcases List.mem_append.1 hp with hp | hp
    · rw [arena_grown, occurs_grown hs hn hact hperform hn (hl p hp)]
      exact h.decided p hp
    · obtain rfl := List.mem_singleton.1 hp
      exact ⟨true, hoccurs⟩
  · -- the children before come from the actions before, and the new child from the last action
    have hold : (g.node n).children.map (fun c => ((g.grown arena' n a next).node c).action) =
        (g.node n).children.map fun c => (g.node c).action := by
      refine List.map_congr_left fun c hc => ?_
      exact node_grown_field n arena' next a Node.action (fun _ _ => rfl) (hb.child n hn c hc).1
    have hfilter : l.filter (fun p => Update.occurs t arena'
          ((g.grown arena' n a next).node n).state p.1 p.2 = .ok true) =
        l.filter fun p => Update.occurs t g.arena (g.node n).state p.1 p.2 = .ok true := by
      refine List.filter_congr fun p hp => ?_
      rw [occurs_grown hs hn hact hperform hn (hl p hp)]
    rw [hchildren, List.map_append, hold, h.actions, List.filter_append, List.map_append,
      arena_grown, hfilter]
    simp [hoccurs, hnew]
  · rw [hchildren] at hc
    rcases List.mem_append.1 hc with hc | hc
    · exact (h.child c hc).grown hs hn hact hperform hn (hb.child n hn c hc).1
    · obtain rfl := List.mem_singleton.1 hc
      refine ⟨action, a, g.arena, arena', hact, by rw [hnew], ?_, ?_,
        hs.extends hn hact hperform, .refl _⟩
      · rw [state_grown_old n arena' next a hn]
        exact hs.inArena n hn
      · rw [hnew, state_grown_old n arena' next a hn, hcuts]
        exact hperform

end

/-! ### The invariant of an unfolding -/

/-- What holds of a tree whose first `k` nodes have been expanded, when the actions in `l` have been
tried at the next. -/
structure Unfolded (t : PlanningTask) (k : Nat) (l : List (Action × ActionId)) (g : SearchTree) :
    Prop where
  sound : g.Sound t
  breadthFirst : g.BreadthFirst
  /-- The levels below the one that is being expanded are no deeper than its children. -/
  deepest : k < g.size → ∀ m, m.index < g.size → (g.node m).depth ≤ (g.node ⟨k⟩).depth + 1
  expanded : ∀ n, n.index < g.size → n.index < k → g.ExpandedBy t n t.numbered
  current : k < g.size → g.ExpandedBy t ⟨k⟩ l
  later : ∀ n, n.index < g.size → k < n.index → (g.node n).children = []
  tried : l <+: t.numbered

theorem action?_of_mem_tried (hl : l <+: t.numbered) : ∀ p ∈ l, t.action? p.2 = some p.1 :=
  fun _ hp => PlanningTask.mem_numbered.1 (hl.subset hp)

theorem Unfolded.of_sameShape (h : g.Unfolded t k l) (s : g.SameShape g') : g'.Unfolded t k l := by
  have hsize : ∀ {n : NodeId}, n.index < g'.size → n.index < g.size := fun hn => s.size.symm ▸ hn
  have hnumbered : ∀ p ∈ t.numbered, t.action? p.2 = some p.1 := fun _ hp =>
    PlanningTask.mem_numbered.1 hp
  refine ⟨h.sound.of_sameShape s, h.breadthFirst.of_sameShape s, fun hk m hm => ?_,
    fun n hn hlt => ?_, fun hk => ?_, fun n hn hlt => ?_, h.tried⟩
  · rw [← s.depth, ← s.depth]
    exact h.deepest (s.size.symm ▸ hk) m (hsize hm)
  · exact (h.expanded n (hsize hn) hlt).of_sameShape s (h.sound.state n (hsize hn)) hnumbered
  · have hk' : k < g.size := s.size.symm ▸ hk
    exact (h.current hk').of_sameShape s (h.sound.state ⟨k⟩ hk') (action?_of_mem_tried h.tried)
  · rw [← s.children]
    exact h.later n (hsize hn) hlt

theorem unfolded_ofTask (h : t.Accepted) : (ofTask t).Unfolded t 0 [] where
  sound := sound_ofTask h
  breadthFirst := breadthFirst_ofTask
  deepest _ m hm := by
    rw [(node_ofTask hm).1]
    exact Nat.zero_le _
  expanded _ _ hlt := absurd hlt (Nat.not_lt_zero _)
  current _ := ⟨fun _ hp => absurd hp List.not_mem_nil, rfl, fun _ hc => absurd hc List.not_mem_nil⟩
  later n hn hlt := by
    rw [(node_ofTask hn).1]
  tried := List.nil_prefix

theorem Unfolded.sprout (h : g.Unfolded t k l) (hk : k < g.size) (hp : l ++ [p] <+: t.numbered)
    (hsprout : g.sprout t ⟨k⟩ p = .ok g') : g'.Unfolded t k (l ++ [p]) := by
  have hact : t.action? p.2 = some p.1 := action?_of_tried hp
  have hl := action?_of_mem_tried h.tried
  have hall : ∀ p ∈ t.numbered, t.action? p.2 = some p.1 := fun _ hp =>
    PlanningTask.mem_numbered.1 hp
  -- where the action does not occur, the tree stays as it is
  rcases sprout_cases hsprout with ⟨arena, hperform, rfl⟩ | ⟨next, arena, hperform, rfl⟩
  · have hoccurs : Update.occurs t g'.arena (g'.node ⟨k⟩).state p.1 p.2 = .ok false := by
      unfold Update.occurs
      rw [hperform]
      rfl
    exact { h with current := fun hk => (h.current hk).declined hoccurs, tried := hp }
  · have hdeepest := h.deepest hk
    have hcuts : next.uncut = next := by
      obtain ⟨_, _, _, hupdate⟩ := Update.perform_eq_some.1 hperform
      obtain ⟨cs, _, _, rfl, _⟩ := Update.value_apply_eq_some hact hupdate
      rfl
    have hdepth : ∀ m : NodeId, m.index < g.size →
        ((g.grown arena ⟨k⟩ p.2 next).node m).depth = (g.node m).depth :=
      fun m hm => depth_grown_old ⟨k⟩ arena next p.2 hm
    refine ⟨h.sound.grown hk hact hperform, h.breadthFirst.grown hk hdeepest, fun _ m hm => ?_,
      fun m hm hlt => ?_, fun _ => ?_, fun m hm hlt => ?_, hp⟩
    · rw [hdepth ⟨k⟩ hk]
      rcases node_grown_cases hk hm with ⟨hm, _⟩ | ⟨_, hnew⟩
      · rw [hdepth m hm]
        exact hdeepest m hm
      · exact Nat.le_of_eq (congrArg Node.depth hnew)
    · have hm' := Nat.lt_trans hlt hk
      have hne : m ≠ ⟨k⟩ := by
        rintro rfl
        exact Nat.lt_irrefl _ hlt
      exact (h.expanded m hm' hlt).grown_other h.sound h.breadthFirst hk hact hperform hm' hne hall
    · exact (h.current hk).grown_self h.sound h.breadthFirst hk hact hperform hl hcuts
    · rcases node_grown_cases hk hm with ⟨hm, _⟩ | ⟨_, hnew⟩
      · have hne : m ≠ ⟨k⟩ := by
          rintro rfl
          exact Nat.lt_irrefl _ hlt
        rw [node_grown_of_ne arena next p.2 hm hne]
        exact h.later m hm hlt
      · rw [hnew]

theorem Unfolded.advance (h : g.Unfolded t k t.numbered) (hk : k < g.size) :
    g.Unfolded t (k + 1) [] where
  sound := h.sound
  breadthFirst := h.breadthFirst
  deepest hk' m hm := by
    have hle := h.breadthFirst.depth ⟨k⟩ ⟨k + 1⟩ (Nat.le_succ k) hk'
    exact Nat.le_trans (h.deepest hk m hm) (Nat.succ_le_succ hle)
  expanded n hn hlt := by
    rcases Nat.lt_succ_iff_lt_or_eq.1 hlt with hlt | heq
    · exact h.expanded n hn hlt
    · obtain rfl : n = ⟨k⟩ := Handle.index_injective heq
      exact h.current hk
  current hk' := by
    have hnil := h.later ⟨k + 1⟩ hk' (Nat.lt_succ_self k)
    refine ⟨fun _ hp => absurd hp List.not_mem_nil, ?_, fun c hc => ?_⟩
    · rw [hnil]
      rfl
    · rw [hnil] at hc
      cases hc
  later n hn hlt := h.later n hn (Nat.lt_of_succ_lt hlt)
  tried := List.nil_prefix

theorem Unfolded.sproutAll {rest : List (Action × ActionId)} (h : g.Unfolded t k l)
    (hk : k < g.size) (hl : l ++ rest = t.numbered)
    (hsprout : rest.foldlM (SearchTree.sprout t ⟨k⟩) g = .ok g') :
    g'.Unfolded t k t.numbered := by
  induction rest generalizing l g with
  | nil =>
    cases hsprout
    rw [List.append_nil] at hl
    exact hl ▸ h
  | cons p rest ih =>
    rw [List.foldlM_cons] at hsprout
    obtain ⟨g₁, hfirst, hrest⟩ := Fallible.bind_eq_ok hsprout
    have hsplit : l ++ [p] ++ rest = t.numbered := by rw [← hl, List.append_assoc]; rfl
    have hk₁ : k < g₁.size := Nat.lt_of_lt_of_le hk (size_le_of_sprout hfirst)
    exact ih (h.sprout hk ⟨rest, hsplit⟩ hfirst) hk₁ hsplit hrest

/-- Whatever marks the tree has got, the next node can be expanded. -/
theorem Unfolded.expanded_next (h : g.Unfolded t k []) (hk : k < g.size)
    (hexp : SearchTree.expanded t g ⟨k⟩ = .ok g') : g'.Unfolded t (k + 1) [] :=
  (h.sproutAll hk (List.nil_append _) hexp).advance
    (Nat.lt_of_lt_of_le hk (size_le_of_sproutAll hexp))

theorem Unfolding.unfolded (hacc : t.Accepted) (h : Unfolding t k l g) : g.Unfolded t k l := by
  induction h with
  | root => exact unfolded_ofTask hacc
  | sprout _ hk hp hsprout ih => exact ih.sprout hk hp hsprout
  | next _ hk ih => exact ih.advance hk

end EpistemicPlanning.SearchTree
