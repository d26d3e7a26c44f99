import EpistemicPlanning.Proofs.SearchTree.Provenance
import EpistemicPlanning.Proofs.Update.Extension
import EpistemicPlanning.Proofs.Update.Locality

/-!
# Unfolding a task into a tree

A task unfolds into a tree when the nodes are expanded in order, and all actions are tried at each
of them in order (`SearchTree.Unfolding`). On the way the tree stays sound: the worlds of its states
are in the arena, and all its states have the agents of the task (`SearchTree.Sound`).
-/
namespace EpistemicPlanning

/-- A model with no link cut. -/
def PointedModel.uncut {kind : HandleKind} (m : PointedModel kind) : PointedModel kind :=
  { m with relation := m.relation.clearCuts }

namespace SearchTree

variable {t : PlanningTask} {g g' : SearchTree} {m n : NodeId} {k : Nat} {arena' : Arena}
variable {next : State} {action : Action} {a : ActionId} {p : Action × ActionId}
variable {l : List (Action × ActionId)}

/-- The tree after an action has been tried at a node: what comes of the action becomes a child. -/
def sprout (t : PlanningTask) (n : NodeId) (g : SearchTree) (p : Action × ActionId) :
    Except ModelError SearchTree :=
  (Update.perform t g.arena (g.node n).state p.1 p.2).map fun result =>
    match result.1 with
    | none => g
    | some next => g.grown result.2 n p.2 next

/-- The tree after all actions have been tried at a node. -/
def expanded (t : PlanningTask) (g : SearchTree) (n : NodeId) : Except ModelError SearchTree :=
  t.numbered.foldlM (sprout t n) g

/-- The first `k` nodes have been expanded, and the actions in `l` have been tried at the next. -/
inductive Unfolding (t : PlanningTask) : Nat → List (Action × ActionId) → SearchTree → Prop
  | root : Unfolding t 0 [] (ofTask t)
  | sprout {k : Nat} {l : List (Action × ActionId)} {p : Action × ActionId} {g g' : SearchTree}
      (h : Unfolding t k l g) (hk : k < g.size) (hp : l ++ [p] <+: t.numbered)
      (hsprout : g.sprout t ⟨k⟩ p = .ok g') : Unfolding t k (l ++ [p]) g'
  | next {k : Nat} {g : SearchTree} (h : Unfolding t k t.numbered g) (hk : k < g.size) :
      Unfolding t (k + 1) [] g

/-- Trying an action changes nothing when nothing comes of it, and adds a child otherwise. -/
theorem sprout_cases (h : g.sprout t n p = .ok g') :
    (∃ arena, Update.perform t g.arena (g.node n).state p.1 p.2 = .ok (none, arena) ∧ g' = g) ∨
      ∃ next arena, Update.perform t g.arena (g.node n).state p.1 p.2 = .ok (some next, arena) ∧
        g' = g.grown arena n p.2 next := by
  obtain ⟨⟨next?, arena⟩, hperform, h⟩ := Fallible.map_eq_ok h
  cases next? with
  | none => exact Or.inl ⟨arena, hperform, h.symm⟩
  | some next => exact Or.inr ⟨next, arena, hperform, h.symm⟩

theorem size_le_of_sprout (h : g.sprout t n p = .ok g') : g.size ≤ g'.size := by
  rcases sprout_cases h with ⟨_, _, rfl⟩ | ⟨next, arena, _, rfl⟩
  · exact Nat.le_refl _
  · rw [size_grown]
    exact Nat.le_succ _

theorem size_le_of_sproutAll (h : l.foldlM (sprout t n) g = .ok g') : g.size ≤ g'.size :=
  Fallible.foldlM_inv (fun f : SearchTree => g.size ≤ f.size) (Nat.le_refl _)
    (fun _ _ _ _ hle hsprout => Nat.le_trans hle (size_le_of_sprout hsprout)) h

theorem Unfolding.sproutAll (h : Unfolding t k l g) (hk : k < g.size)
    {rest : List (Action × ActionId)} (hl : l ++ rest = t.numbered)
    (hsprout : rest.foldlM (SearchTree.sprout t ⟨k⟩) g = .ok g') :
    Unfolding t k t.numbered g' ∧ g.size ≤ g'.size := by
  induction rest generalizing l g with
  | nil =>
    cases hsprout
    rw [List.append_nil] at hl
    exact ⟨hl ▸ h, Nat.le_refl _⟩
  | cons p rest ih =>
    rw [List.foldlM_cons] at hsprout
    obtain ⟨g₁, hfirst, hrest⟩ := Fallible.bind_eq_ok hsprout
    have hsplit : l ++ [p] ++ rest = t.numbered := by rw [← hl, List.append_assoc]; rfl
    have htried : l ++ [p] <+: t.numbered := ⟨rest, hsplit⟩
    have hgrow := size_le_of_sprout hfirst
    have hk' : k < g₁.size := Nat.lt_of_lt_of_le hk hgrow
    obtain ⟨hdone, hsize⟩ := ih (.sprout h hk htried hfirst) hk' hsplit hrest
    exact ⟨hdone, Nat.le_trans hgrow hsize⟩

theorem Unfolding.expanded (h : Unfolding t k [] g) (hk : k < g.size)
    (hexp : g.expanded t ⟨k⟩ = .ok g') : Unfolding t (k + 1) [] g' := by
  obtain ⟨hdone, hsize⟩ := h.sproutAll hk (List.nil_append _) hexp
  exact .next hdone (Nat.lt_of_lt_of_le hk hsize)

/-! ### What a new child leaves alone -/

variable (n arena' next a) in
/-- Apart from the list of children, earlier nodes stay as they are. -/
theorem node_grown_field {α : Type} (f : Node → α)
    (hf : ∀ (x : Node) (children : List NodeId), f { x with children } = f x)
    (hm : m.index < g.size) : f ((g.grown arena' n a next).node m) = f (g.node m) := by
  obtain ⟨children, h⟩ := node_grown_old n arena' next a hm
  rw [h, hf]

variable (n arena' next a) in
theorem state_grown_old (hm : m.index < g.size) :
    ((g.grown arena' n a next).node m).state = (g.node m).state :=
  node_grown_field n arena' next a Node.state (fun _ _ => rfl) hm

variable (n arena' next a) in
theorem depth_grown_old (hm : m.index < g.size) :
    ((g.grown arena' n a next).node m).depth = (g.node m).depth :=
  node_grown_field n arena' next a Node.depth (fun _ _ => rfl) hm

/-! ### Soundness -/

/-- The states of a tree are well formed and have the agents of the task, and their worlds are in
the arena. -/
structure Sound (t : PlanningTask) (g : SearchTree) : Prop where
  nonempty : 0 < g.size
  state : ∀ n, n.index < g.size → (g.node n).state.WellFormed
  inArena : ∀ n, n.index < g.size → ∀ w ∈ (g.node n).state.possible,
    w.index < g.arena.worlds.size
  agents : ∀ n, n.index < g.size → (g.node n).state.agents = t.initial.agents

theorem sound_ofTask (h : t.Accepted) : (ofTask t).Sound t := by
  refine ⟨Nat.one_pos, fun n hn => ?_, fun n hn w hw => ?_, fun n hn => ?_⟩
  · rw [(node_ofTask hn).1]
    exact h.wellFormed
  · rw [(node_ofTask hn).1] at hw
    exact Arena.contains_iff.1 (h.inArena w hw)
  · rw [(node_ofTask hn).1]

theorem Sound.of_sameShape (h : g.Sound t) (s : g.SameShape g') : g'.Sound t := by
  have hsize : ∀ {n : NodeId}, n.index < g'.size → n.index < g.size := fun hn => s.size.symm ▸ hn
  refine ⟨s.size ▸ h.nonempty, fun n hn => ?_, fun n hn w hw => ?_, fun n hn => ?_⟩
  · exact wellFormed_state_of_sameShape s (h.state n (hsize hn))
  · rw [← s.arena.worlds]
    exact h.inArena n (hsize hn) w (s.possible ▸ hw)
  · have hagents := h.agents n (hsize hn)
    unfold PointedModel.agents Accessibility.agents at *
    rw [← s.links]
    exact hagents

theorem Sound.extends (h : g.Sound t) (hn : n.index < g.size) (hact : t.action? a = some action)
    (hperform : Update.perform t g.arena (g.node n).state action a = .ok (some next, arena')) :
    arena'.Extends g.arena := by
  obtain ⟨shifted, hshift, _, hupdate⟩ := Update.perform_eq_some.1 hperform
  obtain ⟨hpossible, _, _⟩ := PointedModel.perspective_eq_ok hshift
  refine Update.extends_of_apply hact (fun w hw => ?_) hupdate
  rw [hpossible] at hw
  exact h.inArena n hn w hw

theorem Sound.grown (h : g.Sound t) (hn : n.index < g.size) (hact : t.action? a = some action)
    (hperform : Update.perform t g.arena (g.node n).state action a = .ok (some next, arena')) :
    (g.grown arena' n a next).Sound t := by
  obtain ⟨shifted, hshift, _, hupdate⟩ := Update.perform_eq_some.1 hperform
  obtain ⟨cs, _, _, rfl, rfl⟩ := Update.value_apply_eq_some hact hupdate
  refine ⟨?_, state_grown h.state hn, inArena_grown h.inArena hn, fun m hm => ?_⟩
  · rw [size_grown]
    exact Nat.succ_pos _
  · rcases node_grown_cases hn hm with ⟨hm, ds, hds⟩ | ⟨_, hnew⟩
    · rw [hds]
      exact h.agents m hm
    · rw [hnew, Update.agents_next, PointedModel.agents_of_perspective hshift]
      exact h.agents n hn

theorem Sound.sprout (h : g.Sound t) (hn : n.index < g.size) (hact : t.action? p.2 = some p.1)
    (hsprout : g.sprout t n p = .ok g') : g'.Sound t := by
  rcases sprout_cases hsprout with ⟨_, _, rfl⟩ | ⟨next, arena, hperform, rfl⟩
  · exact h
  · exact h.grown hn hact hperform

theorem action?_of_tried (hp : l ++ [p] <+: t.numbered) : t.action? p.2 = some p.1 := by
  have hmem : p ∈ l ++ [p] := List.mem_append_right _ List.mem_cons_self
  exact PlanningTask.mem_numbered.1 (hp.subset hmem)

theorem Unfolding.sound (hacc : t.Accepted) (h : Unfolding t k l g) : g.Sound t := by
  induction h with
  | root => exact sound_ofTask hacc
  | sprout _ hk hp hsprout ih => exact ih.sprout hk (action?_of_tried hp) hsprout
  | next _ _ ih => exact ih

theorem WellFormed.sprout (h : g.WellFormed t) (hn : n.index < g.size)
    (hact : t.action? p.2 = some p.1) (hsprout : g.sprout t n p = .ok g') : g'.WellFormed t := by
  rcases sprout_cases hsprout with ⟨_, _, rfl⟩ | ⟨next, arena, hperform, rfl⟩
  · exact h
  · obtain ⟨_, hshift, _, hupdate⟩ := Update.perform_eq_some.1 hperform
    exact h.grown hn hact hshift hupdate

/-- With nothing but initial worlds to start from, the tree is well formed throughout. -/
theorem Unfolding.wellFormed (hacc : t.Accepted) (hfresh : t.arena.Fresh)
    (h : Unfolding t k l g) : g.WellFormed t := by
  induction h with
  | root => exact wellFormed_ofTask hacc hfresh
  | sprout _ hk hp hsprout ih => exact ih.sprout hk (action?_of_tried hp) hsprout
  | next _ _ ih => exact ih

end SearchTree

end EpistemicPlanning
