import EpistemicPlanning.Proofs.SearchTree.Shape
import EpistemicPlanning.Proofs.Task
import EpistemicPlanning.Proofs.Update.Product

/-!
# Provenance in a search tree

In a well-formed search tree each world belongs to one node, and each provenance edge leads from a
world of a node to a world of one of its children, where the recorded event fires in the former
(`SearchTree.Joins`). The tree of a task is well formed, and it stays so when a product update adds
a child (`WellFormed.grown`) and when marks are changed (`WellFormed.of_sameShape`).
-/
namespace EpistemicPlanning.SearchTree

variable {t : PlanningTask} {g g' : SearchTree} {m n : NodeId} {w v : WorldId} {e : EdgeId}

/-- A provenance edge leads from a world of `n`, at which its event fires, to a world of the child
`m` of `n`. -/
structure Joins (t : PlanningTask) (g : SearchTree) (e : EdgeId) (n m : NodeId) : Prop where
  parent : (g.node m).parent = some n
  action : (g.node m).action = some (g.arena.edge e).action
  source : (g.arena.edge e).parent ∈ (g.node n).state.possible
  target : (g.arena.edge e).child ∈ (g.node m).state.possible
  fires : t.Fires g.arena (g.node n).state (g.arena.edge e).parent (g.arena.edge e).action
    (g.arena.edge e).event
  owner : ∃ action, t.action? (g.arena.edge e).action = some action ∧
    (g.arena.edge e).agent = action.owner

/-- The invariant of a growing tree. -/
structure WellFormed (t : PlanningTask) (g : SearchTree) : Prop where
  nonempty : 0 < g.size
  state : ∀ n, n.index < g.size → (g.node n).state.WellFormed
  inArena : ∀ n, n.index < g.size → ∀ w ∈ (g.node n).state.possible,
    w.index < g.arena.worlds.size
  /-- A world belongs to one node. -/
  apart : ∀ m n, m.index < g.size → n.index < g.size → ∀ w, w ∈ (g.node m).state.possible →
    w ∈ (g.node n).state.possible → m = n
  /-- Every node but the root has a designated world. -/
  designated : ∀ n, n.index < g.size → n ≠ root → ∃ w, w ∈ (g.node n).state.designated
  /-- Children come after their parent, one level deeper. -/
  parent : ∀ n p, n.index < g.size → (g.node n).parent = some p →
    p.index < n.index ∧ (g.node n).depth = (g.node p).depth + 1
  edge : ∀ e, e.index < g.arena.edges.size →
    ∃ n m, n.index < g.size ∧ m.index < g.size ∧ g.Joins t e n m
  consistent : g.arena.Consistent

/-- A step from a world of a node leads to a world of one of its children. -/
theorem WellFormed.joins_of_outgoing (h : g.WellFormed t) (hn : n.index < g.size)
    (hw : w ∈ (g.node n).state.possible) (he : e ∈ (g.arena.world w).outgoing) :
    ∃ m, m.index < g.size ∧ n.index < m.index ∧ g.Joins t e n m := by
  obtain ⟨hin, hparent⟩ := (h.consistent.outgoing w e).1 he
  obtain ⟨p, m, hp, hm, hjoin⟩ := h.edge e hin
  have hsource := hjoin.source
  rw [hparent] at hsource
  obtain rfl := h.apart p n hp hn w hsource hw
  exact ⟨m, hm, (h.parent m p hm hjoin.parent).1, hjoin⟩

/-- Later nodes have no step into earlier ones, nor into themselves. -/
theorem WellFormed.child_not_mem (h : g.WellFormed t) (hm : m.index < g.size)
    (hn : n.index < g.size) (hle : n.index ≤ m.index) (hw : w ∈ (g.node m).state.possible)
    (he : e ∈ (g.arena.world w).outgoing) :
    (g.arena.edge e).child ∉ (g.node n).state.possible := by
  obtain ⟨p, hp, hlt, hjoin⟩ := h.joins_of_outgoing hm hw he
  intro hchild
  obtain rfl := h.apart p n hp hn _ hjoin.target hchild
  exact absurd hle (Nat.not_le_of_lt hlt)

/-! ### The tree of a task -/

theorem node_ofTask (hn : n.index < (ofTask t).size) :
    (ofTask t).node n = ⟨t.initial, none, 0, none, [], .undefined⟩ ∧ n = root := by
  obtain ⟨i⟩ := n
  have hi : i = 0 := by
    simp only [ofTask, size, List.size_toArray, List.length_cons, List.length_nil] at hn
    omega
  subst hi
  exact ⟨rfl, rfl⟩

theorem wellFormed_ofTask (h : t.Accepted) (hfresh : t.arena.Fresh) : (ofTask t).WellFormed t := by
  refine ⟨Nat.one_pos, fun n hn => ?_, fun n hn w hw => ?_, fun m n hm hn w _ _ => ?_,
    fun n hn hne => ?_, fun n p hn hp => ?_, fun e he => ?_, hfresh.consistent⟩
  · rw [(node_ofTask hn).1]
    exact h.wellFormed
  · rw [(node_ofTask hn).1] at hw
    exact Arena.contains_iff.1 (h.inArena w hw)
  · rw [(node_ofTask hm).2, (node_ofTask hn).2]
  · exact absurd (node_ofTask hn).2 hne
  · rw [(node_ofTask hn).1] at hp
    cases hp
  · have hin : e.index < t.arena.edges.size := he
    rw [hfresh.edges] at hin
    exact absurd hin (Nat.not_lt_zero _)

/-! ### Changing marks -/

theorem fires_of_sameShape (s : g.SameShape g') (hs : (g.node n).state.WellFormed)
    (hw : w ∈ (g.node n).state.possible) {a : ActionId} {ev : EventId} :
    t.Fires g.arena (g.node n).state w a ev ↔ t.Fires g'.arena (g'.node n).state w a ev :=
  PlanningTask.fires_congr hs s.links (fun _ _ => s.arena.valuation) hw

theorem wellFormed_state_of_sameShape (s : g.SameShape g') (hs : (g.node n).state.WellFormed) :
    (g'.node n).state.WellFormed := by
  have hadj : ∀ a x y, (g'.node n).state.relation.Adjacent a x y ↔
      (g.node n).state.relation.Adjacent a x y := by
    intro a x y
    unfold Accessibility.Adjacent
    rw [s.links]
  refine ⟨s.possible ▸ hs.nodup, fun w hw => ?_, ?_, fun a x y h => ?_, fun a ha w hw => ?_⟩
  · rw [← s.possible]
    exact hs.designated_possible w (s.designated ▸ hw)
  · rw [← s.possible, ← s.nodes]
    exact hs.nodes_iff
  · rw [← s.nodes]
    exact hs.endsKnown a x y ((hadj a x y).1 h)
  · rw [← s.possible] at hw
    unfold Accessibility.hasAgent at ha
    rw [← s.links] at ha
    exact (hadj a w w).2 (hs.loops a ha w hw)

theorem Joins.of_sameShape (s : g.SameShape g') (hs : (g.node n).state.WellFormed)
    (h : g.Joins t e n m) : g'.Joins t e n m where
  parent := s.parent ▸ h.parent
  action := by
    rw [← s.action, ← s.arena.action]
    exact h.action
  source := by
    rw [← s.possible, ← s.arena.parent]
    exact h.source
  target := by
    rw [← s.possible, ← s.arena.child]
    exact h.target
  fires := by
    rw [← s.arena.parent, ← s.arena.action, ← s.arena.event, ← fires_of_sameShape s hs h.source]
    exact h.fires
  owner := by
    rw [← s.arena.action, ← s.arena.agent]
    exact h.owner

theorem WellFormed.of_sameShape (h : g.WellFormed t) (s : g.SameShape g') : g'.WellFormed t := by
  have hsize : ∀ {n : NodeId}, n.index < g'.size → n.index < g.size := fun hn => s.size.symm ▸ hn
  refine ⟨s.size ▸ h.nonempty, fun n hn => ?_, fun n hn w hw => ?_, fun m n hm hn w hwm hwn => ?_,
    fun n hn hne => ?_, fun n p hn hp => ?_, fun e he => ?_, h.consistent.of_sameShape s.arena⟩
  · exact wellFormed_state_of_sameShape s (h.state n (hsize hn))
  · rw [← s.arena.worlds]
    exact h.inArena n (hsize hn) w (s.possible ▸ hw)
  · exact h.apart m n (hsize hm) (hsize hn) w (s.possible ▸ hwm) (s.possible ▸ hwn)
  · obtain ⟨w, hw⟩ := h.designated n (hsize hn) hne
    exact ⟨w, s.designated ▸ hw⟩
  · rw [← s.depth, ← s.depth]
    exact h.parent n p (hsize hn) (s.parent ▸ hp)
  · obtain ⟨n, m, hn, hm, hj⟩ := h.edge e (s.arena.edges ▸ he)
    exact ⟨n, m, s.size ▸ hn, s.size ▸ hm, hj.of_sameShape s (h.state n hn)⟩

/-- A world is in no node of the tree. -/
def Outside (g : SearchTree) (w : WorldId) : Prop :=
  ∀ n, n.index < g.size → w ∉ (g.node n).state.possible

variable (g w) in
theorem possible_or_outside :
    (∃ n, n.index < g.size ∧ w ∈ (g.node n).state.possible) ∨ g.Outside w := by
  by_cases h : ∃ n, n.index < g.size ∧ w ∈ (g.node n).state.possible
  · exact Or.inl h
  · exact Or.inr fun n hn hw => h ⟨n, hn, hw⟩

theorem Outside.of_sameShape (h : g.Outside w) (s : g'.SameShape g) : g'.Outside w := by
  intro n hn
  rw [s.possible]
  exact h n (s.size ▸ hn)

/-! ### Adding a child -/

/-- The tree with a child added to a node, whose worlds are in another arena. -/
def grown (g : SearchTree) (arena : Arena) (n : NodeId) (a : ActionId) (next : State) :
    SearchTree :=
  ({ g with arena } : SearchTree).addChild n a next

section

variable {arena' : Arena} {shifted next : State} {action : Action} {a : ActionId}
variable {cs : List Candidate}

/-- A change of all nodes commutes with adding a child if it leaves depths and children alone. -/
theorem nodes_addChild_map {f : Node → Node} {next' : State} (hdepth : ∀ x, (f x).depth = x.depth)
    (hchildren : ∀ x cs, f { x with children := cs } = { f x with children := cs })
    (hnew : ∀ d, f ⟨next, some n, d, some a, [], .undefined⟩ =
      ⟨next', some n, d, some a, [], .undefined⟩) :
    (({ g with nodes := g.nodes.map f, arena := arena' } : SearchTree).addChild n a next').nodes =
      (g.addChild n a next).nodes.map f := by
  have hdepth' : (({ g with nodes := g.nodes.map f, arena := arena' } : SearchTree).node n).depth =
      (g.node n).depth := by
    unfold node node?
    rw [Array.getElem?_map]
    cases g.nodes[n.index]? with
    | none => rfl
    | some x => exact hdepth x
  have hkept : ∀ x, (f x).children = x.children := by
    intro x
    have h := congrArg Node.children (hchildren x x.children)
    exact h
  unfold addChild size
  dsimp only
  rw [hdepth', Array.size_map,
    map_modify fun x : Node => { x with children := x.children ++ [⟨g.nodes.size⟩] }]
  · rw [Array.map_push, hnew]
  · intro x
    rw [hchildren, hkept]

@[simp] theorem size_addChild : (g.addChild n a next).size = g.size + 1 := by
  simp [addChild, size]

@[simp] theorem size_grown : (g.grown arena' n a next).size = g.size + 1 :=
  size_addChild

@[simp] theorem arena_grown : (g.grown arena' n a next).arena = arena' := rfl

variable (arena' next a) in
theorem node_grown_new (hn : n.index < g.size) (hm : m.index = g.size) :
    (g.grown arena' n a next).node m =
      ⟨next, some n, (g.node n).depth + 1, some a, [], .undefined⟩ := by
  have hne : n.index ≠ m.index := by omega
  have hm' : m.index = g.nodes.size := hm
  unfold grown addChild node node?
  rw [Array.getElem?_modify, if_neg hne, hm', Array.getElem?_push_size]
  rfl

variable (arena' next a) in
/-- The child is listed last among the children of its parent. -/
theorem node_grown_self (hn : n.index < g.size) :
    (g.grown arena' n a next).node n =
      { g.node n with children := (g.node n).children ++ [⟨g.size⟩] } := by
  have hn' : n.index < g.nodes.size := hn
  unfold grown addChild node node?
  rw [Array.getElem?_modify, if_pos rfl, Array.getElem?_push_lt hn',
    Array.getElem?_eq_getElem hn']
  rfl

variable (arena' next a) in
theorem node_grown_of_ne (hm : m.index < g.size) (hne : m ≠ n) :
    (g.grown arena' n a next).node m = g.node m := by
  have hm' : m.index < g.nodes.size := hm
  have hne' : n.index ≠ m.index := fun h => hne (Handle.index_injective h.symm)
  unfold grown addChild node node?
  rw [Array.getElem?_modify, if_neg hne', Array.getElem?_push_lt hm',
    Array.getElem?_eq_getElem hm']

variable (n arena' next a) in
theorem node_grown_old (hm : m.index < g.size) :
    ∃ children, (g.grown arena' n a next).node m = { g.node m with children } := by
  by_cases hne : m = n
  · subst hne
    exact ⟨_, node_grown_self arena' next a hm⟩
  · exact ⟨_, node_grown_of_ne arena' next a hm hne⟩

theorem node_grown_cases (hn : n.index < g.size)
    (hm : m.index < (g.grown arena' n a next).size) :
    (m.index < g.size ∧
        ∃ children, (g.grown arena' n a next).node m = { g.node m with children }) ∨
      (m.index = g.size ∧ (g.grown arena' n a next).node m =
        ⟨next, some n, (g.node n).depth + 1, some a, [], .undefined⟩) := by
  rw [size_grown] at hm
  rcases Nat.lt_succ_iff_lt_or_eq.1 hm with h | h
  · exact Or.inl ⟨h, node_grown_old n arena' next a h⟩
  · exact Or.inr ⟨h, node_grown_new arena' next a hn h⟩

theorem lt_of_mem_possible_next {arena : Arena} (owner : Agent) (a : ActionId)
    (hw : w ∈ (Update.next arena shifted action cs).possible) :
    arena.worlds.size ≤ w.index ∧ w.index < (Update.grow arena owner a cs).worlds.size := by
  obtain ⟨p, hp, rfl⟩ := Update.mem_possible_next.1 hw
  obtain ⟨i, hi, hpi⟩ := Update.mem_placed.1 hp
  rw [hpi, Update.size_worlds_grow]
  exact ⟨Nat.le_add_right _ _, Nat.add_lt_add_left (List.getElem?_eq_some_iff.1 hi).1 _⟩

theorem exists_designated_next {arena : Arena} (hany : cs.any Candidate.designated = true) :
    ∃ w, w ∈ (Update.next arena shifted action cs).designated := by
  obtain ⟨c, hc, hdes⟩ := List.any_eq_true.1 hany
  obtain ⟨i, hi⟩ := List.mem_iff_getElem?.1 hc
  have hplaced : (⟨arena.worlds.size + i⟩, c) ∈ Update.placed arena cs :=
    Update.mem_placed.2 ⟨i, hi, rfl⟩
  exact ⟨_, Update.mem_designated_next.2 ⟨_, hplaced, hdes, rfl⟩⟩

theorem Joins.grown {p : NodeId} (hp : p.index < g.size) (hm : m.index < g.size)
    (hs : (g.node p).state.WellFormed) (hedge : arena'.edge e = g.arena.edge e)
    (hval : ∀ w ∈ (g.node p).state.possible,
      (g.arena.world w).valuation = (arena'.world w).valuation)
    (h : g.Joins t e p m) : (g.grown arena' n a next).Joins t e p m := by
  obtain ⟨cs, hcs⟩ := node_grown_old n arena' next a hp
  obtain ⟨ds, hds⟩ := node_grown_old n arena' next a hm
  refine ⟨?_, ?_, ?_, ?_, ?_, ?_⟩
  · rw [hds]
    exact h.parent
  · rw [hds, arena_grown, hedge]
    exact h.action
  · rw [hcs, arena_grown, hedge]
    exact h.source
  · rw [hds, arena_grown, hedge]
    exact h.target
  · rw [hcs, arena_grown, hedge]
    exact (PlanningTask.fires_congr hs rfl hval h.source).1 h.fires
  · rw [arena_grown, hedge]
    exact h.owner

theorem joins_new (hn : n.index < g.size) (hm : m.index = g.size)
    (hs : (g.node n).state.WellFormed) (hact : t.action? a = some action)
    (hshift : (g.node n).state.perspective action.owner = .ok shifted)
    (hval : ∀ w ∈ (g.node n).state.possible,
      (g.arena.world w).valuation = (arena'.world w).valuation)
    (hcs : (Update.candidates (t := t) g.arena shifted action a
      (Update.pairs shifted action)).value = .ok cs)
    {i : Nat} {c : Candidate} (hc : cs[i]? = some c)
    (hedge : arena'.edge e =
      ⟨⟨g.arena.worlds.size + i⟩, c.parent, c.event, a, action.owner, .undefined, false⟩) :
    (g.grown arena' n a (Update.next g.arena shifted action cs)).Joins t e n m := by
  obtain ⟨hpossible, hrelation, _⟩ := PointedModel.perspective_eq_ok hshift
  have hmem : c.pair ∈ Update.firing t g.arena shifted action a := by
    rw [Update.firing, ← Update.map_pair_candidates hcs]
    exact List.mem_map_of_mem (List.mem_of_getElem? hc)
  obtain ⟨hparent, _, hfires⟩ := Update.mem_firing.1 hmem
  rw [hpossible] at hparent
  obtain ⟨ds, hds⟩ := node_grown_old n arena' (Update.next g.arena shifted action cs) a hn
  have hnew := node_grown_new arena' (Update.next g.arena shifted action cs) a hn hm
  refine ⟨?_, ?_, ?_, ?_, ?_, ?_⟩
  · rw [hnew]
  · rw [hnew, arena_grown, hedge]
  · rw [hds, arena_grown, hedge]
    exact hparent
  · rw [hnew, arena_grown, hedge]
    have hplaced : (⟨g.arena.worlds.size + i⟩, c) ∈ Update.placed g.arena cs :=
      Update.mem_placed.2 ⟨i, hc, rfl⟩
    exact Update.mem_possible_next.2 ⟨_, hplaced, rfl⟩
  · rw [hds, arena_grown, hedge]
    -- the event has fired for the owner, who holds the same worlds possible
    have hwf := hs.perspective hshift
    rw [← hpossible] at hparent hval
    exact (PlanningTask.fires_congr hwf (congrArg _ hrelation) hval hparent).1 hfires
  · rw [arena_grown, hedge]
    exact ⟨action, hact, rfl⟩

theorem WellFormed.apart_grown (h : g.WellFormed t) (hn : n.index < g.size)
    (hfresh : ∀ m, m.index < g.size → ∀ w ∈ (g.node m).state.possible, w ∉ next.possible)
    {p : NodeId} (hm : m.index < (g.grown arena' n a next).size)
    (hp : p.index < (g.grown arena' n a next).size)
    (hwm : w ∈ ((g.grown arena' n a next).node m).state.possible)
    (hwp : w ∈ ((g.grown arena' n a next).node p).state.possible) : m = p := by
  rcases node_grown_cases hn hm with ⟨hm, ds, hds⟩ | ⟨hm, hnew⟩ <;>
    rcases node_grown_cases hn hp with ⟨hp, ds', hds'⟩ | ⟨hp, hnew'⟩
  · rw [hds] at hwm
    rw [hds'] at hwp
    exact h.apart m p hm hp w hwm hwp
  · rw [hds] at hwm
    rw [hnew'] at hwp
    exact absurd hwp (hfresh m hm w hwm)
  · rw [hnew] at hwm
    rw [hds'] at hwp
    exact absurd hwm (hfresh p hp w hwp)
  · exact Handle.index_injective (hm.trans hp.symm)

theorem WellFormed.parent_grown (h : g.WellFormed t) (hn : n.index < g.size) {p : NodeId}
    (hm : m.index < (g.grown arena' n a next).size)
    (hp : ((g.grown arena' n a next).node m).parent = some p) :
    p.index < m.index ∧ ((g.grown arena' n a next).node m).depth =
      ((g.grown arena' n a next).node p).depth + 1 := by
  rcases node_grown_cases hn hm with ⟨hm, ds, hds⟩ | ⟨hm, hnew⟩
  · rw [hds] at hp
    have hlt := h.parent m p hm hp
    obtain ⟨ds', hds'⟩ := node_grown_old n arena' next a (Nat.lt_trans hlt.1 hm)
    rw [hds, hds']
    exact hlt
  · rw [hnew] at hp
    obtain rfl := Option.some.inj hp
    obtain ⟨ds, hds⟩ := node_grown_old n arena' next a hn
    rw [hnew, hds, hm]
    exact ⟨hn, rfl⟩

theorem state_grown {arena : Arena} (h : ∀ m, m.index < g.size → (g.node m).state.WellFormed)
    (hn : n.index < g.size) :
    ∀ m, m.index < (g.grown arena' n a (Update.next arena shifted action cs)).size →
      ((g.grown arena' n a (Update.next arena shifted action cs)).node m).state.WellFormed := by
  intro m hm
  rcases node_grown_cases hn hm with ⟨hm, ds, hds⟩ | ⟨_, hnew⟩
  · rw [hds]
    exact h m hm
  · rw [hnew]
    exact Update.wellFormed_next

theorem inArena_grown {owner : Agent}
    (h : ∀ m, m.index < g.size → ∀ w ∈ (g.node m).state.possible, w.index < g.arena.worlds.size)
    (hn : n.index < g.size) :
    ∀ m, m.index < (g.grown (Update.grow g.arena owner a cs) n a
        (Update.next g.arena shifted action cs)).size →
      ∀ w ∈ ((g.grown (Update.grow g.arena owner a cs) n a
          (Update.next g.arena shifted action cs)).node m).state.possible,
        w.index < (Update.grow g.arena owner a cs).worlds.size := by
  intro m hm w hw
  rcases node_grown_cases hn hm with ⟨hm, ds, hds⟩ | ⟨_, hnew⟩
  · rw [hds] at hw
    rw [Update.size_worlds_grow]
    exact Nat.lt_add_right _ (h m hm w hw)
  · rw [hnew] at hw
    exact (lt_of_mem_possible_next owner a hw).2

/-- A product update in the perspective of the owner of an action adds a well-formed child. -/
theorem WellFormed.grown (h : g.WellFormed t) (hn : n.index < g.size)
    (hact : t.action? a = some action)
    (hshift : (g.node n).state.perspective action.owner = .ok shifted)
    (hupdate : (Update.apply (t := t) g.arena shifted a).value = (.ok (some next), arena')) :
    (g.grown arena' n a next).WellFormed t := by
  obtain ⟨hpossible, _, _⟩ := PointedModel.perspective_eq_ok hshift
  obtain ⟨cs, hcs, hany, rfl, rfl⟩ := Update.value_apply_eq_some hact hupdate
  have hparent : ∀ c ∈ cs, c.parent.index < g.arena.worlds.size := by
    refine Update.parent_in_arena hcs fun w hw => Arena.contains_iff.2 ?_
    exact h.inArena n hn w (hpossible ▸ hw)
  have hval : ∀ m, m.index < g.size → ∀ w ∈ (g.node m).state.possible,
      (g.arena.world w).valuation =
        ((Update.grow g.arena action.owner a cs).world w).valuation := by
    intro m hm w hw
    rw [Update.world_grow_old hparent (h.inArena m hm w hw)]
  have hfresh : ∀ m, m.index < g.size → ∀ w ∈ (g.node m).state.possible,
      w ∉ (Update.next g.arena shifted action cs).possible := by
    intro m hm w hw hnew
    have hbeyond := lt_of_mem_possible_next action.owner a hnew
    exact absurd (h.inArena m hm w hw) (Nat.not_lt_of_le hbeyond.1)
  refine ⟨?_, state_grown h.state hn, inArena_grown h.inArena hn,
    fun m p hm hp w hwm hwp => h.apart_grown hn hfresh hm hp hwm hwp, fun m hm hne => ?_,
    fun m p hm hp => h.parent_grown hn hm hp, fun e he => ?_, ?_⟩
  · rw [size_grown]
    exact Nat.succ_pos _
  · rcases node_grown_cases hn hm with ⟨hm, ds, hds⟩ | ⟨_, hnew⟩
    · rw [hds]
      exact h.designated m hm hne
    · rw [hnew]
      exact exists_designated_next hany
  -- an edge is an earlier one, or it leads to one of the new worlds
  · rcases Update.edge_grow_cases he with ⟨he, hedge⟩ | ⟨i, c, hc, hedge⟩
    · obtain ⟨p, m, hp, hm, hjoin⟩ := h.edge e he
      refine ⟨p, m, ?_, ?_, hjoin.grown hp hm (h.state p hp) hedge (hval p hp)⟩
      · exact Nat.lt_of_lt_of_eq (Nat.lt_succ_of_lt hp) size_grown.symm
      · exact Nat.lt_of_lt_of_eq (Nat.lt_succ_of_lt hm) size_grown.symm
    · refine ⟨n, ⟨g.size⟩, ?_, ?_,
        joins_new hn rfl (h.state n hn) hact hshift (hval n hn) hcs hc hedge⟩
      · exact Nat.lt_of_lt_of_eq (Nat.lt_succ_of_lt hn) size_grown.symm
      · exact Nat.lt_of_lt_of_eq (Nat.lt_succ_self _) size_grown.symm
  · exact Update.consistent_grow h.consistent hparent

end

end EpistemicPlanning.SearchTree
