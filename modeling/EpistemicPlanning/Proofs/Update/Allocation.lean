import EpistemicPlanning.Proofs.Arena
import EpistemicPlanning.Update.Product

/-!
# The worlds that a product update makes

`Update.grow` adds one world and one edge for each candidate, under the next free handles. Earlier
worlds only gain outgoing edges, and earlier edges stay as they are (`Arena.Appended`).
-/
namespace EpistemicPlanning

/-- `later` is `earlier` with worlds and edges appended. -/
structure Arena.Appended (later earlier : Arena) : Prop where
  worlds : earlier.worlds.size ≤ later.worlds.size
  edges : earlier.edges.size ≤ later.edges.size
  /-- An earlier world keeps all that it has, and may gain edges to new worlds, after those to
  earlier ones. -/
  world : ∀ w, w.index < earlier.worlds.size → ∃ es : List EdgeId,
    later.world w =
      { earlier.world w with outgoing := (earlier.world w).outgoing ++ es } ∧
    ∀ e ∈ es, earlier.edges.size ≤ e.index ∧ e.index < later.edges.size ∧
      (later.edge e).parent = w ∧ earlier.worlds.size ≤ (later.edge e).child.index ∧
      (later.edge e).child.index < later.worlds.size
  edge : ∀ e, e.index < earlier.edges.size → later.edge e = earlier.edge e

namespace Update

variable {arena : Arena} {owner : Agent} {a : ActionId} {cs : List Candidate} {w : WorldId}

/-- The edges to those candidates that continue `w`, when new edges are numbered from `start`. -/
def edgesFrom (start : Nat) (w : WorldId) (cs : List Candidate) : List EdgeId :=
  (cs.zipIdx start).filterMap fun (c, i) => if c.parent = w then some ⟨i⟩ else none

theorem edgesFrom_cons (start : Nat) (c : Candidate) :
    edgesFrom start w (c :: cs) =
      (if c.parent = w then [⟨start⟩] else []) ++ edgesFrom (start + 1) w cs := by
  unfold edgesFrom
  rw [List.zipIdx_cons, List.filterMap_cons]
  by_cases h : c.parent = w <;> simp [h]

theorem mem_edgesFrom {start : Nat} {e : EdgeId} :
    e ∈ edgesFrom start w cs ↔ ∃ i c, cs[i]? = some c ∧ c.parent = w ∧ e = ⟨start + i⟩ := by
  unfold edgesFrom
  simp only [List.mem_filterMap, Prod.exists]
  constructor
  · rintro ⟨c, j, hj, h⟩
    obtain ⟨hle, hget⟩ := List.mk_mem_zipIdx_iff_le_and_getElem?_sub.1 hj
    by_cases hc : c.parent = w
    · rw [if_pos hc, Option.some.injEq] at h
      refine ⟨j - start, c, hget, hc, ?_⟩
      rw [← h, Nat.add_sub_cancel' hle]
    · rw [if_neg hc] at h
      cases h
  · rintro ⟨i, c, hget, hc, rfl⟩
    refine ⟨c, start + i,
      List.mk_mem_zipIdx_iff_le_and_getElem?_sub.2 ⟨Nat.le_add_right _ _, ?_⟩, ?_⟩
    · rw [Nat.add_sub_cancel_left]
      exact hget
    · rw [if_pos hc]

theorem edgesFrom_eq_nil {start : Nat} (h : ∀ c ∈ cs, c.parent ≠ w) :
    edgesFrom start w cs = [] := by
  rw [List.eq_nil_iff_forall_not_mem]
  intro e he
  obtain ⟨i, c, hget, hc, _⟩ := mem_edgesFrom.1 he
  exact h c (List.mem_of_getElem? hget) hc

@[simp] theorem size_worlds_grow :
    (grow arena owner a cs).worlds.size = arena.worlds.size + cs.length := by
  induction cs generalizing arena with
  | nil => rfl
  | cons c cs ih =>
    change (grow (arena.addChild _ _ _ _ _) owner a cs).worlds.size = _
    rw [ih, Arena.size_worlds_addChild, List.length_cons]
    omega

@[simp] theorem size_edges_grow :
    (grow arena owner a cs).edges.size = arena.edges.size + cs.length := by
  induction cs generalizing arena with
  | nil => rfl
  | cons c cs ih =>
    change (grow (arena.addChild _ _ _ _ _) owner a cs).edges.size = _
    rw [ih, Arena.size_edges_addChild, List.length_cons]
    omega

/-- An earlier world keeps everything and gains the edges to what is made of it. -/
theorem world_grow_old (hp : ∀ c ∈ cs, c.parent.index < arena.worlds.size)
    (hw : w.index < arena.worlds.size) :
    (grow arena owner a cs).world w =
      { arena.world w with
        outgoing := (arena.world w).outgoing ++ edgesFrom arena.edges.size w cs } := by
  induction cs generalizing arena with
  | nil =>
    rw [edgesFrom_eq_nil (by simp), List.append_nil]
    rfl
  | cons c cs ih =>
    have hc := hp c List.mem_cons_self
    change (grow (arena.addChild _ _ _ _ _) owner a cs).world w = _
    rw [ih (by simp only [Arena.size_worlds_addChild]
               exact fun d hd => Nat.lt_succ_of_lt (hp d (List.mem_cons_of_mem _ hd)))
      (by rw [Arena.size_worlds_addChild]; omega), Arena.size_edges_addChild, edgesFrom_cons]
    by_cases heq : c.parent = w
    · subst heq
      rw [Arena.world_addChild_parent hc, if_pos rfl]
      simp [Arena.nextEdge]
    · rw [Arena.world_addChild_other hw (Ne.symm heq), if_neg heq, List.nil_append]

theorem edge_grow_old {e : EdgeId} (he : e.index < arena.edges.size) :
    (grow arena owner a cs).edge e = arena.edge e := by
  induction cs generalizing arena with
  | nil => rfl
  | cons c cs ih =>
    change (grow (arena.addChild _ _ _ _ _) owner a cs).edge e = _
    rw [ih (by rw [Arena.size_edges_addChild]; omega), Arena.edge_addChild_old he]

theorem world_grow_new (hp : ∀ c ∈ cs, c.parent.index < arena.worlds.size) {i : Nat}
    {c : Candidate} (hc : cs[i]? = some c) :
    (grow arena owner a cs).world ⟨arena.worlds.size + i⟩ =
      { World.initial c.valuation with incoming := some ⟨arena.edges.size + i⟩ } := by
  induction cs generalizing arena i with
  | nil => simp at hc
  | cons d cs ih =>
    have hd := hp d List.mem_cons_self
    have hp' : ∀ c ∈ cs, c.parent.index < arena.worlds.size := fun c hc =>
      hp c (List.mem_cons_of_mem _ hc)
    have hp'' : ∀ c ∈ cs, c.parent.index <
        (arena.addChild d.parent d.event a owner d.valuation).worlds.size := by
      intro c hc
      rw [Arena.size_worlds_addChild]
      exact Nat.lt_succ_of_lt (hp' c hc)
    change (grow (arena.addChild d.parent d.event a owner d.valuation) owner a cs).world _ = _
    cases i with
    | zero =>
      obtain rfl : d = c := by simpa using hc
      have hnone : ∀ c ∈ cs, c.parent ≠ arena.nextWorld := by
        intro c hc heq
        have := hp' c hc
        rw [heq, Arena.nextWorld] at this
        exact Nat.lt_irrefl _ this
      change (grow _ owner a cs).world arena.nextWorld = _
      rw [world_grow_old hp'' (by simp [Arena.nextWorld]), Arena.world_addChild_new hd,
        edgesFrom_eq_nil hnone]
      rfl
    | succ i =>
      have hget : cs[i]? = some c := by simpa using hc
      have h := ih hp'' hget
      rw [Arena.size_worlds_addChild, Arena.size_edges_addChild] at h
      have hshift : ∀ n : Nat, n + (i + 1) = n + 1 + i := by omega
      rw [hshift, hshift]
      exact h

theorem edge_grow_new {i : Nat} {c : Candidate} (hc : cs[i]? = some c) :
    (grow arena owner a cs).edge ⟨arena.edges.size + i⟩ =
      ⟨⟨arena.worlds.size + i⟩, c.parent, c.event, a, owner, .undefined, false⟩ := by
  induction cs generalizing arena i with
  | nil => simp at hc
  | cons d cs ih =>
    change (grow (arena.addChild d.parent d.event a owner d.valuation) owner a cs).edge _ = _
    cases i with
    | zero =>
      obtain rfl : d = c := by simpa using hc
      change (grow _ owner a cs).edge arena.nextEdge = _
      rw [edge_grow_old (by simp [Arena.nextEdge]), Arena.edge_addChild_new]
      rfl
    | succ i =>
      have hget : cs[i]? = some c := by simpa using hc
      have h := @ih (arena.addChild d.parent d.event a owner d.valuation) i hget
      rw [Arena.size_worlds_addChild, Arena.size_edges_addChild] at h
      have hshift : ∀ n : Nat, n + (i + 1) = n + 1 + i := by omega
      rw [hshift, hshift]
      exact h

/-- The edges after an update are the earlier ones and one for each candidate. -/
theorem edge_grow_cases {e : EdgeId} (he : e.index < (grow arena owner a cs).edges.size) :
    (e.index < arena.edges.size ∧ (grow arena owner a cs).edge e = arena.edge e) ∨
      ∃ i c, cs[i]? = some c ∧ (grow arena owner a cs).edge e =
        ⟨⟨arena.worlds.size + i⟩, c.parent, c.event, a, owner, .undefined, false⟩ := by
  rw [size_edges_grow] at he
  by_cases hold : e.index < arena.edges.size
  · exact Or.inl ⟨hold, edge_grow_old hold⟩
  · obtain ⟨i, hi⟩ := Nat.exists_eq_add_of_le (Nat.le_of_not_lt hold)
    have hlt : i < cs.length := by omega
    obtain rfl : e = ⟨arena.edges.size + i⟩ := Handle.index_injective hi
    exact Or.inr ⟨i, cs[i], List.getElem?_eq_getElem hlt,
      edge_grow_new (List.getElem?_eq_getElem hlt)⟩

/-- Adding the worlds of candidates only appends to the arena. -/
theorem appended_grow (owner : Agent) (hp : ∀ c ∈ cs, c.parent.index < arena.worlds.size) :
    (grow arena owner a cs).Appended arena where
  worlds := by
    rw [size_worlds_grow]
    exact Nat.le_add_right _ _
  edges := by
    rw [size_edges_grow]
    exact Nat.le_add_right _ _
  world w hw := by
    refine ⟨edgesFrom arena.edges.size w cs, world_grow_old hp hw, fun e he => ?_⟩
    obtain ⟨i, c, hc, hparent, rfl⟩ := mem_edgesFrom.1 he
    have hi : i < cs.length := (List.getElem?_eq_some_iff.1 hc).1
    rw [edge_grow_new hc, size_edges_grow, size_worlds_grow]
    exact ⟨Nat.le_add_right _ _, Nat.add_lt_add_left hi _, hparent, Nat.le_add_right _ _,
      Nat.add_lt_add_left hi _⟩
  edge _ he := edge_grow_old he

theorem consistent_grow (h : arena.Consistent) (hp : ∀ c ∈ cs, c.parent.index < arena.worlds.size) :
    (grow arena owner a cs).Consistent := by
  induction cs generalizing arena with
  | nil => exact h
  | cons c cs ih =>
    change (grow (arena.addChild _ _ _ _ _) owner a cs).Consistent
    refine ih (h.addChild (hp c List.mem_cons_self)) fun d hd => ?_
    rw [Arena.size_worlds_addChild]
    exact Nat.lt_succ_of_lt (hp d (List.mem_cons_of_mem _ hd))

end Update

end EpistemicPlanning
