import EpistemicPlanning.Proofs.Planning.QueueOrder

/-!
# Node by node and level by level

Growing the tree through the queue comes to the same as growing it level by level: the runs that
have just built their trees are those that `Planning.grow` ends with
(`QueuedRun.exists_built_iff`). In one direction a level is taken node by node. In the other, a run
has at any time expanded the first nodes of a level, whose other nodes come first in the queue
(`Run.PartWay`).
-/
namespace EpistemicPlanning

open SearchTree Planning

variable {t : PlanningTask} {c : PlannerConfig} {r r' r₀ : Run} {q : QueuedRun} {n : NodeId}
variable {ns rest log : List NodeId} {d levels : Nat}

namespace QueuedRun

/-! ### From levels to the queue -/

/-- The first nodes of the queue are expanded one after the other. -/
theorem steps_of_exec_expandAll (rest log : List NodeId) (hs : r.tree.Sound t)
    (hlimit : d < r.limit)
    (hns : ∀ n ∈ ns, n.index < r.tree.size ∧ (r.tree.node n).depth = d)
    (hexec : exec (ns.forM (expand (t := t) c)) r = (.ok ⟨⟩, r')) :
    Relation.ReflTransGen (Step t c) ⟨r.withFrontier (ns ++ rest), log⟩
      ⟨r'.withFrontier (rest ++ idsFrom r.tree.size r'.tree.size), log ++ ns⟩ := by
  -- on the nodes: the children of each wait behind all that is in the queue
  induction ns generalizing r rest log with
  | nil =>
    cases hexec
    rw [idsFrom_self, List.append_nil, List.append_nil]
    exact .refl
  | cons n ns ih =>
    obtain ⟨r₁, hfirst, hrest⟩ := exec_cons_ok hexec
    obtain ⟨hn, hd⟩ := hns n List.mem_cons_self
    obtain ⟨hexp, hexpanding⟩ := expanding_of_exec_expand (Run.expanding_self hs) hn hd hfirst
    obtain ⟨hext, _⟩ := extends_of_expanded hs hn hexp
    have hns₁ : ∀ m ∈ ns, m.index < r₁.tree.size ∧ (r₁.tree.node m).depth = d := by
      intro m hm
      obtain ⟨hm, hdm⟩ := hns m (List.mem_cons_of_mem _ hm)
      exact ⟨Nat.lt_of_lt_of_le hm hext.size, (hext.depth hm).trans hdm⟩
    have hle : r₁.tree.size ≤ r'.tree.size :=
      (grows_forM fun _ _ _ => grows_expand).size_le hrest
    have hstep : Step t c ⟨r.withFrontier (n :: ns ++ rest), log⟩
        ⟨r₁.withFrontier (ns ++ (rest ++ idsFrom r.tree.size r₁.tree.size)), log ++ [n]⟩ := by
      refine .take rfl (hd.symm ▸ hlimit : (r.tree.node n).depth < r.limit) ?_
      rw [← List.append_assoc]
      exact (exec_expandAndQueue_ok (r := r)).2 ⟨r₁, hfirst, rfl⟩
    have hlater := ih (rest ++ idsFrom r.tree.size r₁.tree.size) (log ++ [n])
      hexpanding.sound (hexpanding.noted.lt_limit hlimit) hns₁ hrest
    rw [List.append_assoc, idsFrom_append hext.size hle, ← List.append_cons] at hlater
    exact .head hstep hlater

theorem steps_of_exec_growLevel (log : List NodeId) (hacc : t.Accepted) (hr : r.Growing t c)
    (hgrow : r.mayGrow = true) (hexec : exec (growLevel (t := t) c) r = (.ok ⟨⟩, r')) :
    Relation.ReflTransGen (Step t c) ⟨r, log⟩ ⟨r', log ++ r.frontier⟩ := by
  obtain ⟨d, h, hlevel⟩ := hr.atLevel hacc
  have hd := ((hlevel.mayGrow_iff hacc).1 hgrow).2
  unfold growLevel growLevelBy at hexec
  obtain ⟨_, _, hget, hexec⟩ := exec_bind_ok hexec
  cases hget
  obtain ⟨_, r₁, hloop, hexec⟩ := exec_bind_ok hexec
  cases hexec
  have hsteps := steps_of_exec_expandAll [] log (hlevel.sound hacc) hd
    (fun _ hn => hlevel.mem_frontier hacc hn) hloop
  rw [List.append_nil] at hsteps
  exact hsteps

theorem steps_of_exec_growLevels (log : List NodeId) (hacc : t.Accepted) (hr : r.Growing t c)
    (hexec : exec (growLevels (t := t) c levels) r = (.ok ⟨⟩, r')) :
    ∃ log', Relation.ReflTransGen (Step t c) ⟨r, log⟩ ⟨r', log'⟩ := by
  induction levels generalizing r log with
  | zero =>
    cases hexec
    exact ⟨log, .refl⟩
  | succ levels ih =>
    rw [exec_growLevels_succ] at hexec
    split at hexec
    · next hgrow =>
      obtain ⟨_, r₁, hlevel, hrest⟩ := exec_bind_ok hexec
      have hfirst := steps_of_exec_growLevel log hacc hr hgrow hlevel
      obtain ⟨log', hlater⟩ := ih (log ++ r.frontier) (hr.level hgrow hlevel) hrest
      exact ⟨log', hfirst.trans hlater⟩
    · cases hexec
      exact ⟨log, .refl⟩

theorem mayGrow_of_exec_grow (hacc : t.Accepted) {h : SearchTree} (hr : r.AtLevel t d h)
    (hexec : exec (grow (t := t) c) r = (.ok ⟨⟩, r')) : r'.mayGrow = false := by
  obtain ⟨⟨_, hlevel⟩, _⟩ := atLevel_of_exec_grow hacc hr hexec
  rw [Bool.eq_false_iff]
  intro hgrow
  exact Nat.lt_irrefl _ ((hlevel.mayGrow_iff hacc).1 hgrow).2

/-- A run that ends growing has built its tree when it began the round with a queue. -/
theorem built_of_exec_grow (hacc : t.Accepted) (hr : r₀.AtRound t c)
    (hreached : Reached t c ⟨{ r₀ with iterations := r₀.iterations + 1 }, log⟩)
    (hexec : exec (grow (t := t) c) { r₀ with iterations := r₀.iterations + 1 } = (.ok ⟨⟩, r)) :
    ∃ log', Built t c ⟨r, log'⟩ := by
  obtain ⟨d, h, hlevel⟩ := hr.atLevel hacc
  have hbegun : ({ r₀ with iterations := r₀.iterations + 1 } : Run).AtLevel t d h :=
    hlevel.congr rfl rfl (Nat.le_refl _)
  obtain ⟨log', hsteps⟩ :=
    steps_of_exec_growLevels log hacc (.begun hr) (hexec : exec (growLevels c _) _ = _)
  exact ⟨log', hreached.trans hsteps, mayGrow_of_exec_grow hacc hbegun hexec⟩

/-- With a queue, the run goes through all runs that begin a round. -/
theorem exists_reached_of_atRound (hacc : t.Accepted) (hr : r.AtRound t c) :
    ∃ log, Reached t c ⟨{ r with iterations := r.iterations + 1 }, log⟩ := by
  induction hr with
  | initial => exact ⟨[], .refl⟩
  | @raised r r' hr hround hopen hfrontier hlimit ih =>
    obtain ⟨log, hreached⟩ := ih
    unfold Planning.round at hround
    obtain ⟨_, _, hbegun, hround⟩ := exec_bind_ok hround
    cases hbegun
    obtain ⟨_, r₁, hgrow, hsettle⟩ := exec_bind_ok hround
    obtain ⟨log', hbuilt⟩ := built_of_exec_grow hacc hr hreached hgrow
    have hsettle := (hbuilt.reached.exec_settleAt_leaves hacc).trans hsettle
    exact ⟨log', hbuilt.reached.tail (.deepen hbuilt.done hsettle hopen hfrontier hlimit)⟩

end QueuedRun

/-! ### From the queue to levels -/

namespace Run

/-- A run with a queue is part way through a level, which began as `r₀`: the nodes `ns` of the level
have been expanded, the nodes `rest` come first in the queue, and the new nodes after them. -/
structure PartWay (t : PlanningTask) (c : PlannerConfig) (r₀ : Run) (ns rest : List NodeId)
    (r' : Run) : Prop where
  growing : r₀.Growing t c
  mayGrow : ns ≠ [] → r₀.mayGrow = true
  split : r₀.frontier = ns ++ rest
  expanded : ∃ r, exec (ns.forM (expand (t := t) c)) r₀ = (.ok ⟨⟩, r) ∧
    r' = r.withFrontier (rest ++ idsFrom r₀.tree.size r.tree.size)

/-- A level that is about to begin. -/
theorem Growing.partWay (hr : r.Growing t c) : PartWay t c r [] r.frontier r := by
  refine ⟨hr, fun hne => absurd rfl hne, rfl, r, rfl, ?_⟩
  rw [idsFrom_self, List.append_nil]
  rfl

namespace PartWay

theorem eq_of_nil (h : PartWay t c r₀ [] rest r') : r' = r₀ := by
  obtain ⟨r, hexec, rfl⟩ := h.expanded
  cases hexec
  have hsplit : r₀.frontier = rest := h.split
  rw [idsFrom_self, List.append_nil, ← hsplit]
  rfl

/-- When no node of a level is left, the next level begins. -/
theorem growing_of_rest_nil (h : PartWay t c r₀ ns [] r') : r'.Growing t c := by
  by_cases hns : ns = []
  · subst hns
    exact h.eq_of_nil ▸ h.growing
  · obtain ⟨r, hexec, rfl⟩ := h.expanded
    have hsplit : r₀.frontier = ns := h.split.trans (List.append_nil _)
    refine .level h.growing (h.mayGrow hns) ?_
    unfold growLevel growLevelBy
    rw [exec_bind, exec_get]
    dsimp only
    rw [exec_bind, hsplit, hexec]
    rfl

/-- The next node of a level is taken off the queue. -/
theorem take {r'' : Run} {more : List NodeId} (h : PartWay t c r₀ ns (n :: rest) r')
    (hfrontier : r'.frontier = n :: more) (habove : (r'.tree.node n).depth < r'.limit)
    (hexec : exec (expandAndQueue (t := t) c n) (r'.withFrontier more) = (.ok ⟨⟩, r'')) :
    PartWay t c r₀ (ns ++ [n]) rest r'' := by
  have hgrow : r₀.mayGrow = true := by
    by_cases hns : ns = []
    · subst hns
      obtain rfl := h.eq_of_nil
      exact (Run.mayGrow_of_cons hfrontier).2 habove
    · exact h.mayGrow hns
  obtain ⟨r, hbefore, rfl⟩ := h.expanded
  obtain rfl : rest ++ idsFrom r₀.tree.size r.tree.size = more := (List.cons.inj hfrontier).2
  obtain ⟨r₁, hnode, rfl⟩ := (exec_expandAndQueue_ok (r := r)).1 hexec
  have hle : r₀.tree.size ≤ r.tree.size :=
    (grows_forM fun _ _ _ => grows_expand).size_le hbefore
  have hle₁ : r.tree.size ≤ r₁.tree.size := grows_expand.size_le hnode
  refine ⟨h.growing, fun _ => hgrow, h.split.trans (List.append_cons ns n rest), r₁,
    exec_forM_snoc hbefore hnode, ?_⟩
  rw [List.append_assoc, idsFrom_append hle hle₁]

/-- The rest of a level is above the bound when its beginning has been expanded. -/
theorem mayGrow_of_cons (hacc : t.Accepted) (h : PartWay t c r₀ ns (n :: rest) r')
    (hns : ns ≠ []) : r'.mayGrow = true := by
  obtain ⟨d, f, hlevel⟩ := h.growing.atLevel hacc
  have hd := ((hlevel.mayGrow_iff hacc).1 (h.mayGrow hns)).2
  have hs := hlevel.sound hacc
  have hmem : ∀ m ∈ ns ++ n :: rest, m.index < r₀.tree.size ∧ (r₀.tree.node m).depth = d :=
    fun m hm => hlevel.mem_frontier hacc (h.split ▸ hm)
  have hbefore : ∀ m ∈ ns, m.index < r₀.tree.size ∧ (r₀.tree.node m).depth = d :=
    fun m hm => hmem m (List.mem_append_left _ hm)
  obtain ⟨hn, hdepth⟩ := hmem n (List.mem_append_right _ List.mem_cons_self)
  obtain ⟨r, hexec, rfl⟩ := h.expanded
  obtain ⟨hexp, hexpanding⟩ := expanding_of_exec_expandAll (expanding_self hs) hbefore hexec
  have hext := extends_of_expandAll hs (fun m hm => (hbefore m hm).1) hexp
  refine (Run.mayGrow_of_cons rfl).2 ?_
  change (r.tree.node n).depth < r.limit
  rw [hext.depth hn, hdepth]
  exact hexpanding.noted.lt_limit hd

/-- A run that stops growing does so between two levels. -/
theorem growing_of_done (hacc : t.Accepted) (h : PartWay t c r₀ ns rest r')
    (hdone : r'.mayGrow = false) : r'.Growing t c := by
  cases rest with
  | nil => exact h.growing_of_rest_nil
  | cons n rest =>
    by_cases hns : ns = []
    · subst hns
      exact h.eq_of_nil ▸ h.growing
    · cases hdone.symm.trans (h.mayGrow_of_cons hacc hns)

end PartWay

/-- A run that has just grown its tree down to the bound, in one of its rounds. -/
def Grown (t : PlanningTask) (c : PlannerConfig) (r : Run) : Prop :=
  ∃ r₀ : Run, r₀.AtRound t c ∧
    exec (grow (t := t) c) { r₀ with iterations := r₀.iterations + 1 } = (.ok ⟨⟩, r)

/-- A run that stops growing has grown its tree down to the bound. -/
theorem Growing.grown_of_done (hacc : t.Accepted) (hr : r.Growing t c)
    (hdone : r.mayGrow = false) : r.Grown t c := by
  obtain ⟨r₀, _, _, levels, hr₀, _, _, _, hgrown⟩ := hr.exec_growLevels hacc
  refine ⟨r₀, hr₀, hgrown.trans ?_⟩
  cases levels with
  | zero => rfl
  | succ levels =>
    rw [exec_growLevels_succ, hdone]
    rfl

end Run

namespace QueuedRun

theorem exists_partWay_of_take {r : Run} {more : List NodeId}
    (h : ∃ r₀ ns rest, Run.PartWay t c r₀ ns rest r) (hfrontier : r.frontier = n :: more)
    (habove : (r.tree.node n).depth < r.limit)
    (hexec : exec (expandAndQueue (t := t) c n) (r.withFrontier more) = (.ok ⟨⟩, r')) :
    ∃ r₀ ns rest, Run.PartWay t c r₀ ns rest r' := by
  obtain ⟨r₀, ns, rest, hpart⟩ := h
  cases rest with
  | nil =>
    have hnext := hpart.growing_of_rest_nil.partWay
    rw [hfrontier] at hnext
    exact ⟨_, _, _, hnext.take hfrontier habove hexec⟩
  | cons m rest =>
    obtain rfl : m = n := by
      obtain ⟨r₁, _, rfl⟩ := hpart.expanded
      exact (List.cons.inj hfrontier).1
    exact ⟨_, _, _, hpart.take hfrontier habove hexec⟩

/-- With a queue, a run is always part way through a level. -/
theorem Reached.exists_partWay (hacc : t.Accepted) (h : q.Reached t c) :
    ∃ r₀ ns rest, Run.PartWay t c r₀ ns rest q.run := by
  -- on the steps so far: a node that is taken belongs to the level, or begins the next one
  induction h with
  | refl => exact ⟨_, _, _, (Run.Growing.begun .initial).partWay⟩
  | tail hreached hstep ih =>
    cases hstep with
    | take hfrontier habove hexec => exact exists_partWay_of_take ih hfrontier habove hexec
    | @deepen r r' expanded hdone hsettle hopen hfrontier hlimit =>
      obtain ⟨r₀, ns, rest, hpart⟩ := ih
      obtain ⟨r₁, hr₁, hgrow⟩ := (hpart.growing_of_done hacc hdone).grown_of_done hacc hdone
      have hsettle := (Reached.exec_settleAt_leaves hacc hreached).symm.trans hsettle
      have hround : exec (round (t := t) c) r₁ = (.ok ⟨⟩, r') := by
        unfold Planning.round
        rw [exec_bind, exec_modify]
        dsimp only
        rw [exec_bind, hgrow]
        exact hsettle
      exact ⟨_, _, _, (Run.Growing.begun (.raised hr₁ hround hopen hfrontier hlimit)).partWay⟩

/-- The trees that are built through the queue are those that are grown level by level. -/
theorem exists_built_iff (hacc : t.Accepted) : (∃ log, Built t c ⟨r, log⟩) ↔ r.Grown t c := by
  constructor
  · intro ⟨log, hbuilt⟩
    obtain ⟨r₀, ns, rest, hpart⟩ := hbuilt.reached.exists_partWay hacc
    exact (hpart.growing_of_done hacc hbuilt.done).grown_of_done hacc hbuilt.done
  · intro ⟨r₀, hr₀, hexec⟩
    obtain ⟨log, hreached⟩ := exists_reached_of_atRound hacc hr₀
    exact built_of_exec_grow hacc hr₀ hreached hexec

end QueuedRun

end EpistemicPlanning
