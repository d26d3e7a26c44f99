import Mathlib.Data.List.Nodup
import EpistemicPlanning.Arena

/-!
# Reading an arena that has been written to

What the worlds and edges of an arena are after one of them has been changed, after a child has been
added, and after the marks of a search have been taken off.
-/
namespace EpistemicPlanning

theorem Handle.index_injective {kind : HandleKind} {m n : Handle kind} (h : m.index = n.index) :
    m = n := by
  cases m
  cases n
  exact congrArg Handle.mk h

theorem Handle.word_eq {kind : HandleKind} {h : Handle kind} (hlt : h.index < UInt32.size) :
    h.word = h :=
  Handle.index_injective (Nat.min_eq_left (Nat.le_pred_of_lt hlt))

/-- A change of one entry commutes with a change of all. -/
theorem map_modify {α β : Type} {f : α → β} {c : α → α} (d : β → β)
    (h : ∀ x, f (c x) = d (f x)) (xs : Array α) (i : Nat) :
    (xs.modify i c).map f = (xs.map f).modify i d := by
  refine Array.ext_getElem? fun j => ?_
  simp only [Array.getElem?_map, Array.getElem?_modify]
  split <;> cases xs[j]? <;> simp [h]

namespace Arena

variable {arena : Arena} {w v : WorldId} {e e' : EdgeId}

theorem contains_iff : arena.contains w = true ↔ w.index < arena.worlds.size := by
  simp [contains]

/-! ### Changing one world or edge -/

@[simp] theorem size_worlds_modifyWorld (f : World → World) :
    (arena.modifyWorld w f).worlds.size = arena.worlds.size := by
  simp [modifyWorld]

@[simp] theorem size_edges_modifyEdge (f : ProvenanceEdge → ProvenanceEdge) :
    (arena.modifyEdge e f).edges.size = arena.edges.size := by
  simp [modifyEdge]

theorem world_modifyWorld_self (h : w.index < arena.worlds.size) (f : World → World) :
    (arena.modifyWorld w f).world w = f (arena.world w) := by
  unfold world modifyWorld
  rw [Array.getElem?_modify, if_pos rfl, Array.getElem?_eq_getElem h]
  rfl

theorem world_modifyWorld_of_ne (h : v ≠ w) (f : World → World) :
    (arena.modifyWorld w f).world v = arena.world v := by
  have hne : w.index ≠ v.index := fun heq => h (Handle.index_injective heq.symm)
  simp [modifyWorld, world, Array.getElem?_modify, hne]

@[simp] theorem edge_modifyWorld (f : World → World) :
    (arena.modifyWorld w f).edge e = arena.edge e := rfl

theorem edge_modifyEdge_self (h : e.index < arena.edges.size)
    (f : ProvenanceEdge → ProvenanceEdge) : (arena.modifyEdge e f).edge e = f (arena.edge e) := by
  unfold edge modifyEdge
  rw [Array.getElem?_modify, if_pos rfl, Array.getElem?_eq_getElem h]
  rfl

theorem edge_modifyEdge_of_ne (h : e' ≠ e) (f : ProvenanceEdge → ProvenanceEdge) :
    (arena.modifyEdge e f).edge e' = arena.edge e' := by
  have hne : e.index ≠ e'.index := fun heq => h (Handle.index_injective heq.symm)
  simp [modifyEdge, edge, Array.getElem?_modify, hne]

/-- A change of one world that keeps a part of it keeps this part of every world. -/
theorem world_modifyWorld_field {α : Type} (g : World → α) {f : World → World}
    (h : ∀ x, g (f x) = g x) : g ((arena.modifyWorld w f).world v) = g (arena.world v) := by
  by_cases hv : v = w
  · subst hv
    by_cases hin : v.index < arena.worlds.size
    · rw [world_modifyWorld_self hin, h]
    · have hout : arena.worlds.size ≤ v.index := Nat.le_of_not_lt hin
      simp [modifyWorld, world, hout]
  · rw [world_modifyWorld_of_ne hv]

theorem edge_modifyEdge_field {α : Type} (g : ProvenanceEdge → α)
    {f : ProvenanceEdge → ProvenanceEdge} (h : ∀ x, g (f x) = g x) :
    g ((arena.modifyEdge e f).edge e') = g (arena.edge e') := by
  by_cases he : e' = e
  · subst he
    by_cases hin : e'.index < arena.edges.size
    · rw [edge_modifyEdge_self hin, h]
    · have hout : arena.edges.size ≤ e'.index := Nat.le_of_not_lt hin
      simp [modifyEdge, edge, hout]
  · rw [edge_modifyEdge_of_ne he]

/-! ### Adding a child -/

section

variable {parent : WorldId} {event : EventId} {action : ActionId} {agent : Agent}
variable {valuation : Valuation}

@[simp] theorem size_worlds_addChild :
    (arena.addChild parent event action agent valuation).worlds.size = arena.worlds.size + 1 := by
  simp [addChild]

@[simp] theorem size_edges_addChild :
    (arena.addChild parent event action agent valuation).edges.size = arena.edges.size + 1 := by
  simp [addChild]

@[simp] theorem size_worlds_addChildInWords :
    (arena.addChildInWords parent event action agent valuation).worlds.size =
      arena.worlds.size + 1 := by
  simp [addChildInWords, addWorld]

@[simp] theorem size_edges_addChildInWords :
    (arena.addChildInWords parent event action agent valuation).edges.size =
      arena.edges.size + 1 := by
  simp [addChildInWords]

/-- As long as there are words left, it does not matter that handles are words. -/
theorem addChildInWords_eq (hworlds : arena.worlds.size < UInt32.size)
    (hedges : arena.edges.size < UInt32.size) :
    arena.addChildInWords parent event action agent valuation =
      arena.addChild parent event action agent valuation := by
  have hchild : arena.nextWorld.word = arena.nextWorld := Handle.word_eq hworlds
  have hedge : arena.nextEdge.word = arena.nextEdge := Handle.word_eq hedges
  have hmade : ((arena.addWorld valuation).modifyWorld arena.nextWorld fun w =>
      { w with incoming := some arena.nextEdge }).worlds =
        arena.worlds.push { World.initial valuation with incoming := some arena.nextEdge } := by
    refine Array.ext_getElem? fun j => ?_
    simp only [modifyWorld, addWorld, nextWorld, Array.getElem?_modify, Array.getElem?_push]
    grind
  unfold addChildInWords addChild
  rw [hchild, hedge]
  simp only [modifyWorld] at hmade ⊢
  rw [hmade]

/-- A change of all worlds and edges commutes with adding a child, if it changes neither what is
added nor how worlds are told what was made of them. -/
theorem addChild_map {f : World → World} {g : ProvenanceEdge → ProvenanceEdge}
    (hf : ∀ x es, f { x with outgoing := es } = { f x with outgoing := es })
    (hworld : ∀ e, f { World.initial valuation with incoming := some e } =
      { World.initial valuation with incoming := some e })
    (hedge : g ⟨arena.nextWorld, parent, event, action, agent, .undefined, false⟩ =
      ⟨arena.nextWorld, parent, event, action, agent, .undefined, false⟩) :
    (⟨arena.worlds.map f, arena.edges.map g⟩ : Arena).addChild parent event action agent valuation =
      ⟨(arena.addChild parent event action agent valuation).worlds.map f,
        (arena.addChild parent event action agent valuation).edges.map g⟩ := by
  have hout : ∀ x, (f x).outgoing = x.outgoing := by
    intro x
    have h := congrArg World.outgoing (hf x x.outgoing)
    exact h
  unfold addChild nextWorld nextEdge at *
  simp only [Array.size_map, Array.map_push, Arena.mk.injEq]
  refine ⟨?_, congrArg _ hedge.symm⟩
  rw [map_modify fun w : World => { w with outgoing := w.outgoing ++ [⟨arena.edges.size⟩] }]
  · rw [Array.map_push, hworld]
  · intro x
    rw [hf, hout]

theorem world_addChild_new (hp : parent.index < arena.worlds.size) :
    (arena.addChild parent event action agent valuation).world arena.nextWorld =
      { World.initial valuation with incoming := some arena.nextEdge } := by
  have hne : parent.index ≠ arena.worlds.size := by omega
  unfold world addChild nextWorld
  rw [Array.getElem?_modify, if_neg hne, Array.getElem?_push_size]
  rfl

theorem world_addChild_parent (hp : parent.index < arena.worlds.size) :
    (arena.addChild parent event action agent valuation).world parent =
      { arena.world parent with
        outgoing := (arena.world parent).outgoing ++ [arena.nextEdge] } := by
  simp [addChild, world, Array.getElem?_modify, Array.getElem?_push_lt, hp]

theorem world_addChild_other (hw : w.index < arena.worlds.size) (hne : w ≠ parent) :
    (arena.addChild parent event action agent valuation).world w = arena.world w := by
  have hne' : parent.index ≠ w.index := fun heq => hne (Handle.index_injective heq.symm)
  simp [addChild, world, Array.getElem?_modify, Array.getElem?_push_lt, hw, hne']

theorem edge_addChild_new :
    (arena.addChild parent event action agent valuation).edge arena.nextEdge =
      ⟨arena.nextWorld, parent, event, action, agent, .undefined, false⟩ := by
  simp [addChild, edge, nextEdge]

theorem edge_addChild_old (he : e.index < arena.edges.size) :
    (arena.addChild parent event action agent valuation).edge e = arena.edge e := by
  simp [addChild, edge, Array.getElem?_push_lt, he]

end

/-! ### Taking marks off -/

@[simp] theorem size_worlds_resetCosts : arena.resetCosts.worlds.size = arena.worlds.size := by
  simp [resetCosts]

@[simp] theorem size_edges_resetCosts : arena.resetCosts.edges.size = arena.edges.size := by
  simp [resetCosts]

@[simp] theorem size_worlds_resetPruning :
    arena.resetPruning.worlds.size = arena.worlds.size := by
  simp [resetPruning]

@[simp] theorem size_edges_resetPruning : arena.resetPruning.edges.size = arena.edges.size := by
  simp [resetPruning]

theorem world_map {f : World → World} (hf : f default = default) :
    ({ arena with worlds := arena.worlds.map f } : Arena).world w = f (arena.world w) := by
  unfold world
  rw [Array.getElem?_map]
  cases arena.worlds[w.index]? with
  | none => exact hf.symm
  | some x => rfl

theorem edge_map {f : ProvenanceEdge → ProvenanceEdge} (hf : f default = default) :
    ({ arena with edges := arena.edges.map f } : Arena).edge e = f (arena.edge e) := by
  unfold edge
  rw [Array.getElem?_map]
  cases arena.edges[e.index]? with
  | none => exact hf.symm
  | some x => rfl

@[simp] theorem world_resetCosts :
    arena.resetCosts.world w = { arena.world w with cost := .undefined } :=
  world_map (f := fun w => { w with cost := .undefined }) rfl

@[simp] theorem edge_resetCosts :
    arena.resetCosts.edge e = { arena.edge e with cost := .undefined } :=
  edge_map (f := fun e => { e with cost := .undefined }) rfl

@[simp] theorem world_resetPruning :
    arena.resetPruning.world w = { arena.world w with pruned := false, agentCosts := ∅ } :=
  world_map (f := fun w => { w with pruned := false, agentCosts := ∅ }) rfl

@[simp] theorem edge_resetPruning :
    arena.resetPruning.edge e = { arena.edge e with pruned := false } :=
  edge_map (f := fun e => { e with pruned := false }) rfl

/-! ### Provenance -/

/-- Edges lead from earlier to later worlds, and worlds know exactly their own edges. -/
structure Consistent (arena : Arena) : Prop where
  ends : ∀ e, e.index < arena.edges.size →
    (arena.edge e).parent.index < (arena.edge e).child.index ∧
      (arena.edge e).child.index < arena.worlds.size
  outgoing : ∀ w e, e ∈ (arena.world w).outgoing ↔
    e.index < arena.edges.size ∧ (arena.edge e).parent = w
  nodup : ∀ w, (arena.world w).outgoing.Nodup
  incoming : ∀ w e, (arena.world w).incoming = some e ↔
    e.index < arena.edges.size ∧ (arena.edge e).child = w

theorem world_of_size_le (h : arena.worlds.size ≤ w.index) : arena.world w = default := by
  simp [world, h]

section

variable {parent : WorldId} {event : EventId} {action : ActionId} {agent : Agent}
variable {valuation : Valuation}

theorem edge_lt_addChild (he : e.index <
    (arena.addChild parent event action agent valuation).edges.size) :
    e.index < arena.edges.size ∨ e = arena.nextEdge := by
  rw [size_edges_addChild] at he
  rcases Nat.lt_succ_iff_lt_or_eq.1 he with h | h
  · exact Or.inl h
  · exact Or.inr (Handle.index_injective h)

variable (event action agent valuation) in
/-- A world of the arena with a child is the child, its parent, or neither. -/
theorem world_addChild_cases (hp : parent.index < arena.worlds.size) (w : WorldId) :
    (w = arena.nextWorld ∧ (arena.addChild parent event action agent valuation).world w =
        { World.initial valuation with incoming := some arena.nextEdge }) ∨
      (w = parent ∧ (arena.addChild parent event action agent valuation).world w =
        { arena.world w with outgoing := (arena.world w).outgoing ++ [arena.nextEdge] }) ∨
      (w ≠ arena.nextWorld ∧ w ≠ parent ∧
        (arena.addChild parent event action agent valuation).world w = arena.world w) := by
  by_cases hnew : w = arena.nextWorld
  · subst hnew
    exact Or.inl ⟨rfl, world_addChild_new hp⟩
  by_cases hpar : w = parent
  · subst hpar
    exact Or.inr (Or.inl ⟨rfl, world_addChild_parent hp⟩)
  · refine Or.inr (Or.inr ⟨hnew, hpar, ?_⟩)
    by_cases hin : w.index < arena.worlds.size
    · exact world_addChild_other hin hpar
    · have hne : w.index ≠ arena.worlds.size := fun h => hnew (Handle.index_injective h)
      rw [world_of_size_le (Nat.le_of_not_lt hin), world_of_size_le]
      rw [size_worlds_addChild]
      omega

theorem ne_nextWorld (h : w.index < arena.worlds.size) : w ≠ arena.nextWorld := by
  rintro rfl
  exact Nat.lt_irrefl _ h

theorem ne_nextEdge (h : e.index < arena.edges.size) : e ≠ arena.nextEdge := by
  rintro rfl
  exact Nat.lt_irrefl _ h

variable (event action agent valuation) in
/-- The edges that have a world at one of their ends are the earlier ones, and the one to the
child. -/
theorem edge_addChild_iff (field : ProvenanceEdge → WorldId) (w : WorldId) (e : EdgeId) :
    (e.index < (arena.addChild parent event action agent valuation).edges.size ∧
      field ((arena.addChild parent event action agent valuation).edge e) = w) ↔
    (e.index < arena.edges.size ∧ field (arena.edge e) = w) ∨ (e = arena.nextEdge ∧
      field ⟨arena.nextWorld, parent, event, action, agent, .undefined, false⟩ = w) := by
  constructor
  · rintro ⟨he, hw⟩
    rcases edge_lt_addChild he with he | rfl
    · rw [edge_addChild_old he] at hw
      exact Or.inl ⟨he, hw⟩
    · rw [edge_addChild_new] at hw
      exact Or.inr ⟨rfl, hw⟩
  · rintro (⟨he, hw⟩ | ⟨rfl, hw⟩)
    · rw [edge_addChild_old he, size_edges_addChild]
      exact ⟨Nat.lt_succ_of_lt he, hw⟩
    · rw [edge_addChild_new, size_edges_addChild]
      exact ⟨Nat.lt_succ_self _, hw⟩

theorem Consistent.outgoing_addChild (h : arena.Consistent)
    (hp : parent.index < arena.worlds.size) (w : WorldId) (e : EdgeId) :
    e ∈ ((arena.addChild parent event action agent valuation).world w).outgoing ↔
      e.index < (arena.addChild parent event action agent valuation).edges.size ∧
        ((arena.addChild parent event action agent valuation).edge e).parent = w := by
  rw [edge_addChild_iff event action agent valuation ProvenanceEdge.parent]
  have hold := h.outgoing w e
  rcases world_addChild_cases event action agent valuation hp w with
    ⟨rfl, hw⟩ | ⟨rfl, hw⟩ | ⟨_, hne, hw⟩
  · rw [hw]
    constructor
    · intro hmem
      cases hmem
    · rintro (⟨he, hpar⟩ | ⟨_, hpar⟩)
      · have hends := h.ends e he
        exact absurd hpar (ne_nextWorld (Nat.lt_trans hends.1 hends.2))
      · exact absurd hpar (ne_nextWorld hp)
  · rw [hw]
    simp only [List.mem_append, List.mem_singleton, and_true]
    rw [hold]
  · rw [hw, hold]
    simp [Ne.symm hne]

theorem Consistent.incoming_addChild (h : arena.Consistent)
    (hp : parent.index < arena.worlds.size) (w : WorldId) (e : EdgeId) :
    ((arena.addChild parent event action agent valuation).world w).incoming = some e ↔
      e.index < (arena.addChild parent event action agent valuation).edges.size ∧
        ((arena.addChild parent event action agent valuation).edge e).child = w := by
  rw [edge_addChild_iff event action agent valuation ProvenanceEdge.child]
  have hold := h.incoming w e
  rcases world_addChild_cases event action agent valuation hp w with
    ⟨rfl, hw⟩ | ⟨rfl, hw⟩ | ⟨hne, _, hw⟩
  · rw [hw]
    constructor
    · intro hsome
      exact Or.inr ⟨(Option.some.inj hsome).symm, rfl⟩
    · rintro (⟨he, hchild⟩ | ⟨rfl, _⟩)
      · exact absurd hchild (ne_nextWorld (h.ends e he).2)
      · rfl
  · rw [hw, hold]
    simp [Ne.symm (ne_nextWorld hp)]
  · rw [hw, hold]
    simp [Ne.symm hne]

theorem Consistent.addChild (h : arena.Consistent) (hp : parent.index < arena.worlds.size) :
    (arena.addChild parent event action agent valuation).Consistent := by
  refine ⟨fun e he => ?_, h.outgoing_addChild hp, fun w => ?_, h.incoming_addChild hp⟩
  · rw [size_worlds_addChild]
    rcases edge_lt_addChild he with he | rfl
    · rw [edge_addChild_old he]
      exact ⟨(h.ends e he).1, Nat.lt_succ_of_lt (h.ends e he).2⟩
    · rw [edge_addChild_new]
      exact ⟨hp, Nat.lt_succ_self _⟩
  · rcases world_addChild_cases event action agent valuation hp w with
      ⟨_, hw⟩ | ⟨_, hw⟩ | ⟨_, _, hw⟩
    · rw [hw]
      exact List.nodup_nil
    · rw [hw]
      refine List.Nodup.append (h.nodup w) (List.nodup_singleton _) fun e he he' => ?_
      rw [List.mem_singleton] at he'
      exact ne_nextEdge ((h.outgoing w e).1 he).1 he'
    · rw [hw]
      exact h.nodup w

end

end Arena

end EpistemicPlanning
