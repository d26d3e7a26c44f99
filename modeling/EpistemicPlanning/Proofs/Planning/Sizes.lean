import EpistemicPlanning.Proofs.Planning.Marks
import EpistemicPlanning.Proofs.Planning.Visited

/-!
# The number of nodes and worlds

No step of a planning run takes a node or a world away (`Planning.Grows`), so at the end the tree is
at least as large as it has been at any point before (`Run.Visited.noLarger`).
No step takes the tree beyond the limit on nodes (`Planning.Confined`).
-/
namespace EpistemicPlanning

open SearchTree

variable {t : PlanningTask} {α β : Type} {c : PlannerConfig} {r r' r₀ r₁ : Run} {n : NodeId}
variable {ns rest : List NodeId} {action : Action} {a : ActionId} {seen next : State}
variable {arena : Arena} {depth levels rounds : Nat}

/-- The other tree has at least as many nodes and worlds. -/
structure SearchTree.NoLarger (g g' : SearchTree) : Prop where
  nodes : g.size ≤ g'.size
  worlds : g.arena.worlds.size ≤ g'.arena.worlds.size

namespace SearchTree.NoLarger

variable {g g' g'' : SearchTree}

protected theorem refl (g : SearchTree) : g.NoLarger g := ⟨Nat.le_refl _, Nat.le_refl _⟩

protected theorem trans (h : g.NoLarger g') (h' : g'.NoLarger g'') : g.NoLarger g'' :=
  ⟨Nat.le_trans h.nodes h'.nodes, Nat.le_trans h.worlds h'.worlds⟩

instance : Trans NoLarger NoLarger NoLarger := ⟨NoLarger.trans⟩

theorem of_sameShape (h : g.SameShape g') : g.NoLarger g' :=
  ⟨Nat.le_of_eq h.size, Nat.le_of_eq h.arena.worlds⟩

theorem addChild (g : SearchTree) (n : NodeId) (a : ActionId) (next : State) :
    g.NoLarger (g.addChild n a next) :=
  ⟨Nat.le_of_lt (Nat.lt_of_lt_of_eq (Nat.lt_succ_self _) (size_addChild ..).symm), Nat.le_refl _⟩

end SearchTree.NoLarger

namespace Planning

/-- A look at a new state leaves the tree alone, also when it fails. -/
theorem tree_watchGoal : (exec (watchGoal (t := t) next depth) r).2.tree = r.tree := by
  unfold watchGoal
  rw [exec_bind, exec_get]
  dsimp only
  split
  · rw [exec_bind, exec_ofExcept]
    cases next.worldsSatisfying r.tree.arena t.goal with
    | error m => rfl
    | ok ws =>
      cases ws with
      | nil => rfl
      | cons w ws => rfl
  · rfl

/-- Whether there is a new node, when there is a new state, depends on the look at this state. -/
theorem size_adopt_some
    (hupdate : (Update.apply (t := t) r.tree.arena seen a).value = (.ok (some next), arena)) :
    (exec (adopt (t := t) n seen a depth) r).2.tree.size =
      match (exec (watchGoal (t := t) next depth) (r.withArena arena)).1 with
      | .ok _ => r.tree.size + 1
      | .error _ => r.tree.size := by
  have htree := @tree_watchGoal t (r.withArena arena) next depth
  unfold adopt
  rw [exec_bind, exec_update, hupdate]
  change (exec (watchGoal next depth >>= _) (r.withArena arena)).2.tree.size = _
  rw [exec_bind]
  cases hwatch : exec (watchGoal (t := t) next depth) (r.withArena arena) with
  | mk watched r₁ =>
    rw [hwatch] at htree
    have hsize : r₁.tree.size = r.tree.size := congrArg (·.nodes.size) htree
    cases watched with
    | error e => exact hsize
    | ok _ =>
      change (r₁.tree.addChild n a next).size = _
      rw [size_addChild, hsize]

theorem size_adopt_le :
    (exec (adopt (t := t) n seen a depth) r).2.tree.size ≤ r.tree.size + 1 := by
  cases hupdate : (Update.apply (t := t) r.tree.arena seen a).value with
  | mk result arena =>
    rcases result with e | _ | next
    · unfold adopt
      rw [exec_bind, exec_update, hupdate]
      exact Nat.le_succ _
    · unfold adopt
      rw [exec_bind, exec_update, hupdate]
      exact Nat.le_succ _
    · rw [size_adopt_some hupdate]
      split
      · exact Nat.le_refl _
      · exact Nat.le_succ _

/-- The tree has no fewer nodes and worlds after a step. -/
def Grows (r : Run) (x : Planning t α) : Prop := r.tree.NoLarger (exec x r).2.tree

variable {x : Planning t α} {f : α → Planning t β}

theorem Grows.size_le {result : Except PlanError α} (hx : Grows r x)
    (hexec : exec x r = (result, r₁)) : r.tree.size ≤ r₁.tree.size := by
  have hsize := hx.nodes
  rwa [hexec] at hsize

theorem grows_of_tree_eq (h : (exec x r).2.tree = r.tree) : Grows r x := by
  unfold Grows
  rw [h]
  exact .refl _

theorem Grows.bind (hx : Grows r x) (hf : ∀ a r₁, exec x r = (.ok a, r₁) → Grows r₁ (f a)) :
    Grows r (x >>= f) := by
  unfold Grows at *
  rw [exec_bind]
  cases hexec : exec x r with
  | mk result r₁ =>
    rw [hexec] at hx
    cases result with
    | error e => exact hx
    | ok a => exact hx.trans (hf a r₁ hexec)

/-- What comes after a step does not make the tree smaller than the step has left it. -/
theorem noLarger_bind (hf : ∀ a r₁, Grows r₁ (f a)) :
    (exec x r).2.tree.NoLarger (exec (x >>= f) r).2.tree := by
  rw [exec_bind]
  cases exec x r with
  | mk result r₁ =>
    cases result with
    | error e => exact .refl _
    | ok a => exact hf a r₁

theorem grows_get {f : Run → Planning t β} (h : Grows r (f r)) : Grows r (get >>= f) :=
  Grows.bind (.refl _) fun a r₁ hget => by
    cases hget
    exact h

theorem grows_forM {f : α → Planning t PUnit} {l : List α} (hf : ∀ x ∈ l, ∀ r, Grows r (f x)) :
    Grows r (l.forM f) := by
  induction l generalizing r with
  | nil => exact .refl _
  | cons x l ih =>
    change Grows r (f x >>= fun _ => l.forM f)
    exact Grows.bind (hf x List.mem_cons_self r) fun _ r₁ _ =>
      ih fun y hy => hf y (List.mem_cons_of_mem _ hy)

/-! ### The steps of the planner -/

theorem grows_update : Grows r (update (t := t) seen a) :=
  ⟨Nat.le_refl _, Update.size_worlds_le_apply⟩

theorem grows_watchGoal : Grows r (watchGoal (t := t) next depth) := grows_of_tree_eq tree_watchGoal

theorem grows_adopt : Grows r (adopt (t := t) n seen a depth) := by
  unfold adopt
  refine Grows.bind grows_update fun next? r₁ _ => ?_
  cases next? with
  | none => exact .refl _
  | some next => exact Grows.bind grows_watchGoal fun _ _ _ => .addChild ..

theorem grows_tryAction : Grows r (tryAction (t := t) c n action a) := by
  unfold tryAction tryActionBy
  refine grows_get (Grows.bind (grows_of_tree_eq rfl) fun seen r₁ hseen => ?_)
  obtain ⟨_, rfl⟩ := exec_ofExcept_ok hseen
  refine Grows.bind (grows_of_tree_eq rfl) fun applicable r₂ happ => ?_
  obtain ⟨_, rfl⟩ := exec_ofUpdating_ok happ
  cases applicable with
  | false => exact .refl _
  | true =>
    simp only [if_true]
    split
    · exact .refl _
    · exact grows_adopt

theorem grows_expand : Grows r (expand (t := t) c n) :=
  grows_forM fun _ _ _ => grows_tryAction

theorem noLarger_growLevel :
    (exec (r.frontier.forM (expand (t := t) c)) r).2.tree.NoLarger
      (exec (growLevel (t := t) c) r).2.tree := by
  unfold growLevel growLevelBy
  rw [exec_bind, exec_get]
  exact noLarger_bind fun _ _ => .refl _

theorem grows_growLevel : Grows r (growLevel (t := t) c) :=
  grows_get (Grows.bind (grows_forM fun _ _ _ => grows_expand) fun _ _ _ => .refl _)

theorem exec_growLevels_succ : exec (growLevels (t := t) c (levels + 1)) r =
    if r.mayGrow = true then exec (growLevel (t := t) c >>= fun _ => growLevels c levels) r
    else (.ok ⟨⟩, r) := by
  rw [growLevels_succ, exec_bind, exec_get]
  dsimp only
  split
  · rfl
  · rfl

theorem grows_growLevels : Grows r (growLevels (t := t) c levels) := by
  induction levels generalizing r with
  | zero => exact .refl _
  | succ levels ih =>
    rw [growLevels_succ]
    refine grows_get ?_
    split
    · exact Grows.bind grows_growLevel fun _ _ _ => ih
    · exact .refl _

theorem sameShape_exec_settle : (exec (settle (t := t)) r).2.tree.SameShape r.tree := by
  cases hexec : exec (settle (t := t)) r with
  | mk result r₁ =>
    cases result with
    | ok _ =>
      obtain ⟨tree, hcosts, rfl⟩ := exec_settle_ok hexec
      exact sameShape_withCosts hcosts
    | error e =>
      unfold settle at hexec
      rw [exec_bind, exec_get] at hexec
      rcases exec_bind_error hexec with hfail | ⟨_, _, _, hdone⟩
      · cases (Prod.mk.inj hfail).2
        exact .refl _
      · cases hdone

theorem grows_settle : Grows r (settle (t := t)) := .of_sameShape sameShape_exec_settle.symm

theorem noLarger_grow_round :
    (exec (grow (t := t) c) { r with iterations := r.iterations + 1 }).2.tree.NoLarger
      (exec (round (t := t) c) r).2.tree := by
  change SearchTree.NoLarger _ (exec (grow c >>= fun _ => settle) _).2.tree
  exact noLarger_bind fun _ r₁ => grows_settle

theorem grows_round : Grows r (round (t := t) c) :=
  Grows.bind (grows_of_tree_eq rfl) fun _ _ hbegun => by
    cases hbegun
    exact Grows.bind (grows_get grows_growLevels) fun _ _ _ => grows_settle

theorem noLarger_round_deepen (h : ∀ r, Grows r (deepen (t := t) c rounds)) :
    (exec (round (t := t) c) r).2.tree.NoLarger
      (exec (deepen (t := t) c (rounds + 1)) r).2.tree := by
  rw [exec_deepen_succ]
  cases exec (round (t := t) c) r with
  | mk outcome r₁ =>
    cases outcome with
    | error e => exact .refl _
    | ok _ =>
      dsimp only
      split
      · exact .refl _
      · split
        · exact .refl _
        · split
          · exact .refl _
          · exact h { r₁ with limit := r₁.limit + 1 }

theorem grows_deepen : Grows r (deepen (t := t) c rounds) := by
  induction rounds generalizing r with
  | zero => exact .refl _
  | succ rounds ih => exact grows_round.trans (noLarger_round_deepen fun _ => ih)

theorem run_conclude : (exec (conclude (t := t)) r).2 = r := by
  unfold conclude
  rw [exec_bind, exec_get]
  dsimp only
  split
  · rfl
  · rw [exec_bind, exec_ofExcept]
    cases Rationality.prune r.tree with
    | error m => rfl
    | ok pruned => rfl

theorem grows_conclude : Grows r (conclude (t := t)) := grows_of_tree_eq (by rw [run_conclude])

theorem tree_eq : Planning.tree (t := t) c = deepen c c.maxIterations >>= fun _ => conclude := rfl

/-- Nothing happens to the run once deepening has ended. -/
theorem run_tree : (exec (Planning.tree (t := t) c) r).2 =
    (exec (deepen (t := t) c c.maxIterations) r).2 := by
  rw [tree_eq, exec_bind]
  cases exec (deepen (t := t) c c.maxIterations) r with
  | mk result r₁ =>
    cases result with
    | error e => rfl
    | ok _ => exact run_conclude

/-! ### The limit on nodes -/

/-- From a run, the step does not take the tree beyond the limit on nodes. -/
abbrev Confined (c : PlannerConfig) (r : Run) (x : Planning t α) : Prop :=
  Preserves (fun r => r.tree.size ≤ c.maxNodes) r x

theorem confined_of_size (h : (exec x r).2.tree.size = r.tree.size) : Confined c r x :=
  fun hr => Nat.le_trans (Nat.le_of_eq h) hr

theorem confined_get {f : Run → Planning t β} (h : Confined c r (f r)) :
    Confined c r (get >>= f) := h

theorem confined_set {f : PUnit → Planning t β} (htree : r.tree = r'.tree)
    (h : Confined c r' (f ⟨⟩)) : Confined c r (set r' >>= f) := by
  intro hr
  rw [htree] at hr
  exact h hr

theorem confined_throw (e : PlanError) : Confined c r (throw e : Planning t α) := id

theorem confined_throw_bind (e : PlanError) : Confined c r ((throw e : Planning t α) >>= f) := id

variable {adopt : NodeId → State → ActionId → Nat → Planning t Unit}
variable {expand : NodeId → Planning t Unit} {grow : Planning t Unit}

/-- Trying an action stays within the limit if at most one node is made of the new state. -/
theorem confined_tryActionBy (h : ∀ n seen a depth r,
    (exec (adopt n seen a depth) r).2.tree.size ≤ r.tree.size + 1) :
    Confined c r (tryActionBy adopt c n action a) := by
  unfold tryActionBy
  refine confined_get fun hr => ?_
  dsimp only
  rw [exec_bind, exec_ofExcept]
  cases (r.tree.node n).state.perspective action.owner with
  | error m => exact hr
  | ok seen =>
    change (exec (ofUpdating (Updating.isApplicable r.tree.arena seen a) >>= _) r).2.tree.size ≤ _
    rw [exec_bind, exec_ofUpdating]
    cases (Updating.isApplicable (t := t) r.tree.arena seen a).value with
    | error m => exact hr
    | ok applicable =>
      cases applicable with
      | false => exact hr
      | true =>
        change (exec (if c.maxNodes ≤ r.tree.size then _ else _) r).2.tree.size ≤ _
        split
        · exact hr
        · next hroom => exact Nat.le_trans (h _ _ _ _ _) (Nat.lt_of_not_le hroom)

theorem confined_growLevelBy (h : ∀ n r, Confined c r (expand n)) :
    Confined c r (growLevelBy expand) :=
  confined_get ((preserves_forM h).bind fun _ _ => confined_of_size rfl)

theorem confined_growLevelsBy (h : ∀ n r, Confined c r (expand n)) :
    Confined c r (growLevelsBy expand levels) := by
  induction levels generalizing r with
  | zero => exact id
  | succ levels ih =>
    unfold growLevelsBy
    refine confined_get ?_
    split
    · exact (confined_growLevelBy h).bind fun _ _ => ih
    · exact id

theorem confined_growBy (h : ∀ n r, Confined c r (expand n)) : Confined c r (growBy expand) :=
  confined_get (confined_growLevelsBy h)

theorem confined_deepenBy (h : ∀ r, Confined c r grow) :
    Confined c r (deepenBy c grow rounds) := by
  induction rounds generalizing r with
  | zero => exact Preserves.bind (confined_of_size rfl) fun _ _ => confined_get (confined_throw _)
  | succ rounds ih =>
    unfold deepenBy
    refine Preserves.bind (confined_of_size rfl) fun _ r₁ => (h r₁).bind fun _ r₂ => ?_
    refine (confined_of_size sameShape_exec_settle.size).bind fun _ r₃ => confined_get ?_
    dsimp only
    split
    · exact id
    · split
      · exact confined_throw_bind _
      · split
        · exact confined_throw_bind _
        · exact confined_set rfl ih

theorem confined_conclude : Confined c r (conclude (t := t)) :=
  confined_of_size (congrArg (fun r : Run => r.tree.size) run_conclude)

theorem confined_tree : Confined c r (Planning.tree (t := t) c) := by
  refine (confined_deepenBy fun r => confined_growBy fun n r => ?_).bind fun _ _ =>
    confined_conclude
  exact preserves_forM fun _ _ => confined_tryActionBy fun _ _ _ _ _ => size_adopt_le

/-- The pruned tree has the nodes that there are in the end. -/
theorem size_of_exec_conclude {g : SearchTree}
    (h : exec (conclude (t := t)) r = (.ok g, r')) : g.size = r'.tree.size := by
  have hrun := @run_conclude t r
  rw [h] at hrun
  cases hrun
  unfold conclude at h
  rw [exec_bind, exec_get] at h
  dsimp only at h
  split at h
  · cases h
  · obtain ⟨⟨pruned, count⟩, r₁, hprune, hdone⟩ := exec_bind_ok h
    cases hdone
    exact (Rationality.sameCosts_of_prune (exec_ofExcept_ok hprune).1).size

end Planning

/-! ### Visited runs -/

namespace Run

open Planning

/-- Deepening goes through all runs that are about to begin a round. -/
theorem AtRound.exec_deepen (hacc : t.Accepted) (hr : r.AtRound t c) :
    exec (deepen (t := t) c (r.iterations + rounds)) (.initial t c) =
      exec (deepen (t := t) c rounds) r := by
  -- each round that is over has taken one of those that deepening may do
  induction hr generalizing rounds with
  | initial => rw [show (Run.initial t c).iterations = 0 from rfl, Nat.zero_add]
  | @raised r r' hr hround hopen hfrontier hlimit ih =>
    obtain ⟨d, h, hlevel⟩ := hr.atLevel hacc
    obtain ⟨_, _, _, hcount⟩ := fullTree_of_exec_round hacc hlevel hround
    have hsum : r'.iterations + rounds = r.iterations + (rounds + 1) := by omega
    change exec (deepen (t := t) c (r'.iterations + rounds)) _ = _
    rw [hsum, ih, exec_deepen_succ, hround]
    have hempty : ¬(r'.frontier.isEmpty = true) := fun hnil => hfrontier (List.isEmpty_iff.1 hnil)
    simp only [hopen, Bool.false_eq_true, if_false, if_neg hempty, if_neg (Nat.not_le.2 hlimit)]

theorem AtRound.noLarger_round (hacc : t.Accepted) (hr : r.AtRound t c)
    (hlt : r.iterations < rounds) :
    (exec (round (t := t) c) r).2.tree.NoLarger
      (exec (deepen (t := t) c rounds) (.initial t c)).2.tree := by
  obtain ⟨left, rfl⟩ := Nat.exists_eq_add_of_lt hlt
  rw [Nat.add_assoc, hr.exec_deepen hacc]
  exact noLarger_round_deepen fun _ => grows_deepen

/-- Growing in a round goes through all runs that are about to expand a level. -/
theorem Growing.exec_growLevels (hacc : t.Accepted) (hr : r.Growing t c) :
    ∃ (r₀ : Run) (d : Nat) (h : SearchTree) (levels : Nat), r₀.AtRound t c ∧
      r.iterations = r₀.iterations + 1 ∧ r.AtLevel t d h ∧ r.limit ≤ d + levels ∧
        exec (grow (t := t) c) { r₀ with iterations := r₀.iterations + 1 } =
          exec (growLevels (t := t) c levels) r := by
  -- on the levels of the round so far: as long as the tree may grow, some are left
  induction hr with
  | @begun r₀ hr =>
    obtain ⟨d, h, hlevel⟩ := hr.atLevel hacc
    exact ⟨r₀, d, h, r₀.limit, hr, rfl, hlevel.congr rfl rfl (Nat.le_refl _),
      Nat.le_add_left _ _, rfl⟩
  | @level r r' _ hgrow hexec ih =>
    obtain ⟨r₀, d, h, levels, hr₀, hcount, hlevel, hfuel, hgrown⟩ := ih
    have hd := ((hlevel.mayGrow_iff hacc).1 hgrow).2
    obtain ⟨⟨h', hlevel'⟩, hnoted, _, hcount'⟩ := atLevel_of_exec_growLevel hacc hlevel hd hexec
    obtain ⟨levels, rfl⟩ : ∃ k, levels = k + 1 := ⟨levels - 1, by omega⟩
    refine ⟨r₀, d + 1, h', levels, hr₀, hcount'.trans hcount, hlevel', ?_, ?_⟩
    · have hlimit := hnoted.limit_le
      omega
    · rw [hgrown, exec_growLevels_succ, if_pos hgrow, exec_bind, hexec]

/-- Up to the end of the round, nothing is lost of what a level adds. -/
theorem Growing.noLarger_growLevel (hacc : t.Accepted) (hr : r.Growing t c)
    (hgrow : r.mayGrow = true) :
    ∃ r₀ : Run, r₀.AtRound t c ∧ r.iterations = r₀.iterations + 1 ∧
      (exec (growLevel (t := t) c) r).2.tree.NoLarger
        (exec (round (t := t) c) r₀).2.tree := by
  obtain ⟨r₀, d, h, levels, hr₀, hcount, hlevel, hfuel, hgrown⟩ := hr.exec_growLevels hacc
  have hd := ((hlevel.mayGrow_iff hacc).1 hgrow).2
  obtain ⟨levels, rfl⟩ : ∃ k, levels = k + 1 := ⟨levels - 1, by omega⟩
  refine ⟨r₀, hr₀, hcount, SearchTree.NoLarger.trans ?_ noLarger_grow_round⟩
  rw [hgrown, exec_growLevels_succ, if_pos hgrow]
  exact noLarger_bind fun _ _ => grows_growLevels

/-- At the end of deepening by enough rounds, the tree is at least as large as in any visited run. -/
theorem Visited.noLarger (hacc : t.Accepted) (hr : r.Visited t c) (hrounds : r.iterations ≤ rounds) :
    r.tree.NoLarger (exec (deepen (t := t) c rounds) (.initial t c)).2.tree := by
  -- from the innermost loop that the run is in outwards, the rest of each loop only adds to the tree
  cases hr with
  | reachable hr =>
    cases hr with
    | atRound hr =>
      obtain ⟨left, rfl⟩ := Nat.exists_eq_add_of_le hrounds
      rw [hr.exec_deepen hacc]
      exact grows_deepen
    | growing hr =>
      obtain ⟨r₀, d, h, levels, hr₀, hcount, _, _, hgrown⟩ := hr.exec_growLevels hacc
      have hround := @noLarger_grow_round t c r₀
      rw [hgrown] at hround
      calc r.tree
        SearchTree.NoLarger _ (exec (growLevels (t := t) c levels) r).2.tree := grows_growLevels
        SearchTree.NoLarger _ (exec (round (t := t) c) r₀).2.tree := hround
        SearchTree.NoLarger _ _ := hr₀.noLarger_round hacc (by omega)
    | @expanding r₀ _ ns rest h hgrow hsplit hexec =>
      obtain ⟨r₁, hr₁, hcount, hlevel⟩ := h.noLarger_growLevel hacc hgrow
      have hsame := (h.expanded_of_exec hacc hsplit hexec).2
      have hloop : r.tree.NoLarger (exec (r₀.frontier.forM (expand (t := t) c)) r₀).2.tree := by
        rw [hsplit, exec_forM_append hexec]
        exact grows_forM fun _ _ _ => grows_expand
      calc r.tree
        SearchTree.NoLarger _ (exec (r₀.frontier.forM (expand (t := t) c)) r₀).2.tree := hloop
        SearchTree.NoLarger _ (exec (growLevel (t := t) c) r₀).2.tree := noLarger_growLevel
        SearchTree.NoLarger _ (exec (round (t := t) c) r₁).2.tree := hlevel
        SearchTree.NoLarger _ _ := hr₁.noLarger_round hacc (by omega)
    | @settled r₀ _ h hround =>
      obtain ⟨d, f, hlevel⟩ := h.atLevel hacc
      obtain ⟨_, _, _, hcount⟩ := fullTree_of_exec_round hacc hlevel hround
      have hlt : r₀.iterations < rounds := by omega
      have hle := h.noLarger_round hacc hlt
      rwa [hround] at hle
  | @trying r₀ r₁ _ n ns rest before after h hgrow hsplit hexpanded hactions htried =>
    obtain ⟨r₂, hr₂, hcount, hlevel⟩ := h.noLarger_growLevel hacc hgrow
    have hsame := (h.expanded_of_exec hacc hsplit hexpanded).2
    obtain ⟨hn, hl, _, _⟩ := h.sprouted_of_exec hacc hgrow hsplit hexpanded hactions htried
    have hs := (Reachable.expanding h hgrow hsplit hexpanded).sound hacc
    have hsame' := (expanding_of_exec_tryAll (expanding_self hs) hn rfl hl htried).2.iterations
    have hnode : r.tree.NoLarger (exec (expand (t := t) c n) r₁).2.tree := by
      unfold expand
      rw [hactions, exec_forM_append htried]
      exact grows_forM fun _ _ _ => grows_tryAction
    have hloop : (exec (expand (t := t) c n) r₁).2.tree.NoLarger
        (exec (r₀.frontier.forM (expand (t := t) c)) r₀).2.tree := by
      rw [hsplit, exec_forM_append hexpanded]
      exact noLarger_bind fun _ _ => grows_forM fun _ _ _ => grows_expand
    calc r.tree
      SearchTree.NoLarger _ (exec (expand (t := t) c n) r₁).2.tree := hnode
      SearchTree.NoLarger _ (exec (r₀.frontier.forM (expand (t := t) c)) r₀).2.tree := hloop
      SearchTree.NoLarger _ (exec (growLevel (t := t) c) r₀).2.tree := noLarger_growLevel
      SearchTree.NoLarger _ (exec (round (t := t) c) r₂).2.tree := hlevel
      SearchTree.NoLarger _ _ := hr₂.noLarger_round hacc (by omega)

end Run

end EpistemicPlanning
