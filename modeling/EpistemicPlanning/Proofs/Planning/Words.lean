import EpistemicPlanning.Planning.Words
import EpistemicPlanning.Proofs.Planning.Limits
import EpistemicPlanning.Proofs.Planning.Sizes
import EpistemicPlanning.Proofs.Update.Stepwise

/-!
# Planning until words run out

As long as there is a word left for another world, planning with handles that are words goes as if
handles never ran out (`Planner.runInWords_eq`). Each edge comes with a world, and so does each node
but the root, so that edges and nodes do not run out of words before worlds do.
-/
namespace EpistemicPlanning

open SearchTree

variable {t : PlanningTask} {α β : Type} {c : PlannerConfig} {r r' : Run} {n : NodeId}
variable {action : Action} {a : ActionId} {seen next : State} {depth levels rounds : Nat}
variable {m : Memo t.outcome}

/-- There are no more edges than worlds, and no more nodes than worlds besides the root. -/
structure SearchTree.Balanced (g : SearchTree) : Prop where
  edges : g.arena.edges.size ≤ g.arena.worlds.size
  nodes : g.size ≤ g.arena.worlds.size + 1

theorem SearchTree.Balanced.of_sameShape {g g' : SearchTree} (h : g.Balanced)
    (hshape : g.SameShape g') : g'.Balanced where
  edges := hshape.arena.edges ▸ hshape.arena.worlds ▸ h.edges
  nodes := hshape.size ▸ hshape.arena.worlds ▸ h.nodes

/-- A word is left for another world. -/
def Run.Ample (r : Run) : Prop := r.tree.arena.worlds.size < UInt32.size

theorem Run.Ample.of_noLarger (h : r'.Ample) (hle : r.tree.NoLarger r'.tree) : r.Ample :=
  Nat.lt_of_le_of_lt hle.worlds h

namespace Planning

/-! ### Steps that match -/

theorem grows_trace {x : Planning t α} (h : Grows r x) (m : Memo t.outcome) :
    r.tree.NoLarger (trace x r m).1.2.tree := by
  rw [← exec_eq_trace x m]
  exact h

/-- From a run, two steps do the same if `P` holds and a word is left after one of them; and then `Q`
holds afterwards. In any case neither step takes worlds away. -/
structure Matches (r : Run) (P : Prop) (Q : α → Run → Prop) (x y : Planning t α) : Prop where
  grows : Grows r x
  grows' : Grows r y
  eq : ∀ m, P → (trace x r m).1.2.Ample ∨ (trace y r m).1.2.Ample → trace x r m = trace y r m
  keeps : ∀ m b r' m', P → trace y r m = ((.ok b, r'), m') → r'.Ample → Q b r'

/-- Two steps that match from and to runs with a balanced tree. -/
abbrev Agree (x y : Planning t α) : Prop :=
  ∀ r, Matches r r.tree.Balanced (fun _ r' => r'.tree.Balanced) x y

variable {P : Prop} {Q : α → Run → Prop} {S : β → Run → Prop} {x y : Planning t α}

theorem Matches.bind {f g : α → Planning t β} (hx : Matches r P Q x y)
    (hf : ∀ b r₁, Matches r₁ (Q b r₁) S (f b) (g b)) : Matches r P S (x >>= f) (y >>= g) where
  grows := Grows.bind hx.grows fun b r₁ _ => (hf b r₁).grows
  grows' := Grows.bind hx.grows' fun b r₁ _ => (hf b r₁).grows'
  eq m hP hample := by
    have hfirst : trace x r m = trace y r m := by
      refine hx.eq m hP (hample.imp (fun h => ?_) fun h => ?_)
      · have hle := noLarger_bind (x := x) (r := r) fun b r₁ => (hf b r₁).grows
        rw [exec_eq_trace _ m, exec_eq_trace _ m] at hle
        exact h.of_noLarger hle
      · have hle := noLarger_bind (x := y) (r := r) fun b r₁ => (hf b r₁).grows'
        rw [exec_eq_trace _ m, exec_eq_trace _ m] at hle
        exact h.of_noLarger hle
    rw [trace_bind, trace_bind, hfirst] at hample ⊢
    cases hy : trace y r m with
    | mk p m₁ =>
      obtain ⟨result, r₁⟩ := p
      rw [hy] at hample
      cases result with
      | error e => rfl
      | ok b =>
        have hr₁ : r₁.Ample := hample.elim
          (fun h => h.of_noLarger (grows_trace (hf b r₁).grows m₁))
          fun h => h.of_noLarger (grows_trace (hf b r₁).grows' m₁)
        exact (hf b r₁).eq m₁ (hx.keeps m b r₁ m₁ hP hy hr₁) hample
  keeps m b r' m' hP htrace hample := by
    obtain ⟨b', r₁, m₁, hy, hrest⟩ := trace_bind_ok htrace
    have hle := grows_trace (hf b' r₁).grows' m₁
    rw [hrest] at hle
    exact (hf b' r₁).keeps m₁ b r' m' (hx.keeps m b' r₁ m₁ hP hy (hample.of_noLarger hle)) hrest
      hample

theorem matches_self (hgrows : Grows r x) (hkeeps : ∀ b r', P → exec x r = (.ok b, r') → Q b r') :
    Matches r P Q x x where
  grows := hgrows
  grows' := hgrows
  eq _ _ _ := rfl
  keeps _ b r' _ hP htrace _ := hkeeps b r' hP (exec_of_trace htrace)

theorem matches_pure {b : α} (h : P → Q b r) :
    Matches r P Q (pure b : Planning t α) (pure b) :=
  matches_self (.refl _) fun _ _ hP hpure => by
    cases hpure
    exact h hP

theorem matches_throw (e : PlanError) : Matches r P Q (throw e : Planning t α) (throw e) :=
  matches_self (.refl _) fun _ _ _ hfail => nomatch hfail

theorem matches_throw_bind (e : PlanError) {f g : β → Planning t α} :
    Matches r P Q (throw e >>= f) (throw e >>= g) :=
  ⟨.refl _, .refl _, fun _ _ _ => rfl, fun _ _ _ _ _ hfail => nomatch hfail⟩

theorem matches_get {f g : Run → Planning t β} (h : Matches r P S (f r) (g r)) :
    Matches r P S (get >>= f) (get >>= g) :=
  ⟨grows_get h.grows, grows_get h.grows', h.eq, h.keeps⟩

theorem matches_set {s : Run} {f g : PUnit → Planning t β} (htree : r.tree = s.tree)
    (h : Matches s P S (f ⟨⟩) (g ⟨⟩)) : Matches r P S (set s >>= f) (set s >>= g) where
  grows := by
    unfold Grows
    rw [htree]
    exact h.grows
  grows' := by
    unfold Grows
    rw [htree]
    exact h.grows'
  eq := h.eq
  keeps := h.keeps

/-- A look at something leaves the run alone. -/
theorem matches_look {f g : α → Planning t β} (hlook : (exec x r).2 = r)
    (h : ∀ b, Matches r P S (f b) (g b)) : Matches r P S (x >>= f) (x >>= g) := by
  have hrun : ∀ {m result r₁ m₁}, trace x r m = ((result, r₁), m₁) → r₁ = r := by
    intro m result r₁ m₁ htrace
    rwa [exec_of_trace htrace] at hlook
  have htree : Grows r x := grows_of_tree_eq (congrArg Run.tree hlook)
  refine ⟨htree.bind fun b r₁ hexec => ?_, htree.bind fun b r₁ hexec => ?_, fun m hP hample => ?_,
    fun m b r' m' hP htrace hample => ?_⟩
  · rw [hexec] at hlook
    obtain rfl := hlook
    exact (h b).grows
  · rw [hexec] at hlook
    obtain rfl := hlook
    exact (h b).grows'
  · rw [trace_bind, trace_bind] at hample ⊢
    cases hx : trace x r m with
    | mk p m₁ =>
      obtain ⟨result, r₁⟩ := p
      obtain rfl := hrun hx
      rw [hx] at hample
      cases result with
      | error e => rfl
      | ok b => exact (h b).eq m₁ hP hample
  · obtain ⟨b', r₁, m₁, hx, hrest⟩ := trace_bind_ok htrace
    obtain rfl := hrun hx
    exact (h b').keeps m₁ b r' m' hP hrest hample

theorem agree_forM {ι : Type} {l : List ι} {f g : ι → Planning t PUnit}
    (h : ∀ i, Agree (f i) (g i)) : Agree (l.forM f) (l.forM g) := by
  induction l with
  | nil => exact fun _ => matches_pure id
  | cons i l ih => exact fun r => (h i r).bind fun _ => ih

/-! ### Adding a node -/

theorem trace_updateInSteps : trace (updateInSteps (t := t) seen a) r m =
    ((((Update.applyInSteps (t := t) r.tree.arena seen a).run m).1.1,
      r.withArena ((Update.applyInSteps (t := t) r.tree.arena seen a).run m).1.2),
      ((Update.applyInSteps (t := t) r.tree.arena seen a).run m).2) := rfl

/-- An update matches the one made step by step; if there is a new state, there are new worlds. -/
theorem matches_update : Matches (t := t) r r.tree.Balanced
    (fun next? r => r.tree.Balanced ∧
      (next?.isSome = true → r.tree.size ≤ r.tree.arena.worlds.size))
    (updateInSteps seen a) (update seen a) where
  grows := by
    refine ⟨Nat.le_refl _, ?_⟩
    rw [exec_eq_trace _ ∅, trace_updateInSteps]
    change _ ≤ ((Update.applyInSteps (t := t) r.tree.arena seen a).run ∅).1.2.worlds.size
    rw [Update.size_arena_applyInSteps.1]
    exact Update.size_worlds_le_apply
  grows' := grows_update
  eq m hr hample := by
    obtain ⟨k, hworlds, hedges, _⟩ := Update.exists_size_arena_apply r.tree.arena seen a m
    obtain ⟨hworlds', hedges'⟩ :=
      @Update.size_arena_applyInSteps r.tree.arena seen a t m
    rw [trace_updateInSteps, trace_update] at hample ⊢
    have hlt : r.tree.arena.worlds.size + k < UInt32.size := by
      rcases hample with h | h
      · exact hworlds ▸ hworlds' ▸ h
      · exact hworlds ▸ h
    have hedgesLe := hr.edges
    rw [Update.run_applyInSteps ⟨by omega, by omega⟩]
  keeps m next? r' m' hr htrace _ := by
    obtain ⟨k, hworlds, hedges, hpos⟩ := Update.exists_size_arena_apply r.tree.arena seen a m
    rw [trace_update] at htrace
    obtain ⟨hpair, _⟩ := Prod.mk.inj htrace
    obtain ⟨hresult, rfl⟩ := Prod.mk.inj hpair
    have hok := Fallible.mapError_eq_ok hresult
    have hedgesLe := hr.edges
    have hnodesLe := hr.nodes
    refine ⟨⟨?_, ?_⟩, fun hsome => ?_⟩
    · change ((Update.apply (t := t) r.tree.arena seen a).run m).1.2.edges.size ≤
        ((Update.apply (t := t) r.tree.arena seen a).run m).1.2.worlds.size
      omega
    · change r.tree.size ≤ ((Update.apply (t := t) r.tree.arena seen a).run m).1.2.worlds.size + 1
      omega
    · obtain ⟨next', rfl⟩ := Option.isSome_iff_exists.1 hsome
      have hk := hpos next' hok
      change r.tree.size ≤ ((Update.apply (t := t) r.tree.arena seen a).run m).1.2.worlds.size
      omega

theorem trace_addChildInWords : trace (addChildInWords (t := t) n a next) r m =
    if UInt32.size ≤ r.tree.size then
      ((.error (.planning (.tooManyNodeIds r.tree.size)), r), m)
    else ((.ok ⟨⟩, r.withChild n a next), m) := by
  unfold addChildInWords
  rw [trace_bind, trace_get]
  dsimp only
  split
  · rfl
  · rfl

/-- There is a handle for a new node as long as there are no more nodes than worlds. -/
theorem matches_addChild : Matches (t := t) r
    (r.tree.Balanced ∧ r.tree.size ≤ r.tree.arena.worlds.size) (fun _ r' => r'.tree.Balanced)
    (addChildInWords n a next)
    (modify fun run => { run with tree := run.tree.addChild n a next }) where
  grows := by
    unfold Grows
    rw [exec_eq_trace _ ∅, trace_addChildInWords]
    split
    · exact .refl _
    · exact .addChild ..
  grows' := .addChild ..
  eq m hr hample := by
    have hlt : r.tree.arena.worlds.size < UInt32.size := by
      rcases hample with h | h
      · rw [trace_addChildInWords] at h
        split at h
        · exact h
        · exact h
      · exact h
    rw [trace_addChildInWords, if_neg (Nat.not_le_of_lt (Nat.lt_of_le_of_lt hr.2 hlt))]
    rfl
  keeps m b r' m' hr htrace _ := by
    cases htrace
    refine ⟨hr.1.edges, ?_⟩
    change (r.tree.addChild n a next).size ≤ r.tree.arena.worlds.size + 1
    rw [size_addChild]
    exact Nat.succ_le_succ hr.2

theorem agree_adopt : Agree (t := t) (adoptInWords n seen a depth) (adopt n seen a depth) := by
  intro r
  unfold adoptInWords adopt
  refine matches_update.bind fun next? r₁ => ?_
  cases next? with
  | none => exact matches_pure fun hr => hr.1
  | some next =>
    refine Matches.bind (matches_self grows_watchGoal fun _ r' hr hwatch => ?_)
      fun _ _ => matches_addChild
    have htree := @tree_watchGoal t r₁ next depth
    rw [hwatch] at htree
    rw [htree]
    exact ⟨hr.1, hr.2 rfl⟩

/-! ### The loops -/

variable {adopt adopt' : NodeId → State → ActionId → Nat → Planning t Unit}
variable {expand expand' : NodeId → Planning t Unit} {grow grow' : Planning t Unit}

/-- The rest of trying an action, once its owner has looked at the node. -/
theorem trace_tryActionBy {applicable : Bool}
    (hseen : (r.tree.node n).state.perspective action.owner = .ok seen)
    (happ : ((Updating.isApplicable (t := t) r.tree.arena seen a).run.run m).1 = .ok applicable) :
    trace (tryActionBy adopt c n action a) r m =
      if applicable = true then
        if c.maxNodes ≤ r.tree.size then
          ((.error (.planning (.tooManyNodes c.maxNodes (r.tree.size + 1))), r),
            ((Updating.isApplicable (t := t) r.tree.arena seen a).run.run m).2)
        else trace (adopt n seen a ((r.tree.node n).depth + 1)) r
          ((Updating.isApplicable (t := t) r.tree.arena seen a).run.run m).2
      else ((.ok ⟨⟩, r), ((Updating.isApplicable (t := t) r.tree.arena seen a).run.run m).2) := by
  have hlook : trace (ofExcept (t := t) ((r.tree.node n).state.perspective action.owner)) r m =
      ((.ok seen, r), m) := by
    rw [trace_ofExcept, hseen]
    rfl
  have hask : trace (ofUpdating (Updating.isApplicable r.tree.arena seen a)) r m =
      ((.ok applicable, r),
        ((Updating.isApplicable (t := t) r.tree.arena seen a).run.run m).2) := by
    rw [trace_ofUpdating, happ]
    rfl
  unfold tryActionBy
  rw [trace_bind_of_ok trace_get]
  dsimp only
  rw [trace_bind_of_ok hlook, trace_bind_of_ok hask]
  cases applicable with
  | false => rfl
  | true =>
    simp only [if_true]
    by_cases hfull : c.maxNodes ≤ r.tree.size
    · rw [if_pos hfull, if_pos hfull]
      rfl
    · rw [if_neg hfull, if_neg hfull]

theorem agree_tryActionBy (h : ∀ n seen a depth, Agree (adopt n seen a depth)
    (adopt' n seen a depth)) :
    Agree (tryActionBy adopt c n action a) (tryActionBy adopt' c n action a) := by
  intro r
  unfold tryActionBy
  refine matches_get (matches_look rfl fun seen => matches_look rfl fun applicable => ?_)
  cases applicable with
  | false => exact matches_pure id
  | true =>
    simp only [if_true]
    split
    · exact matches_throw_bind _
    · exact h _ _ _ _ r

theorem agree_growLevelBy (h : ∀ n, Agree (expand n) (expand' n)) :
    Agree (growLevelBy expand) (growLevelBy expand') := by
  intro r
  unfold growLevelBy
  refine matches_get ((agree_forM h r).bind fun _ r₁ => ?_)
  refine matches_self (.refl _) fun _ r' hr hdone => ?_
  cases hdone
  exact hr

theorem agree_growLevelsBy (h : ∀ n, Agree (expand n) (expand' n)) :
    Agree (growLevelsBy expand levels) (growLevelsBy expand' levels) := by
  induction levels with
  | zero => exact fun _ => matches_pure id
  | succ levels ih =>
    intro r
    unfold growLevelsBy
    refine matches_get ?_
    split
    · exact (agree_growLevelBy h r).bind fun _ => ih
    · exact matches_pure id

theorem agree_growBy (h : ∀ n, Agree (expand n) (expand' n)) :
    Agree (growBy expand) (growBy expand') :=
  fun r => matches_get (agree_growLevelsBy h r)

theorem agree_settle : Agree (settle (t := t)) settle :=
  fun r => matches_self grows_settle fun _ r' hr hsettle => by
    have hshape := @sameShape_exec_settle t r
    rw [hsettle] at hshape
    exact hr.of_sameShape hshape.symm

/-- Another round is counted. -/
theorem agree_count : Agree (t := t)
    (modify fun run => { run with iterations := run.iterations + 1 })
    (modify fun run => { run with iterations := run.iterations + 1 }) :=
  fun r => matches_self (.refl _) fun _ r' hr hdone => by
    cases hdone
    exact hr

theorem agree_deepenBy (h : Agree grow grow') :
    Agree (deepenBy c grow rounds) (deepenBy c grow' rounds) := by
  induction rounds with
  | zero => exact fun r => (agree_count r).bind fun _ _ => matches_get (matches_throw _)
  | succ rounds ih =>
    intro r
    unfold deepenBy
    refine (agree_count r).bind fun _ r₁ => (h r₁).bind fun _ r₂ => ?_
    refine (agree_settle r₂).bind fun _ r₃ => matches_get ?_
    dsimp only
    split
    · exact matches_pure id
    · split
      · exact matches_throw_bind _
      · split
        · exact matches_throw_bind _
        · exact matches_set rfl (ih _)

/-- Planning agrees with handles that are words and with handles that never run out. -/
theorem agree_tree : Agree (t := t) (treeInWords c) (Planning.tree c) := by
  intro r
  unfold treeInWords Planning.tree deepen Planning.grow
  refine Matches.bind (agree_deepenBy (agree_growBy fun n => ?_) r) fun _ r₁ => ?_
  · exact agree_forM fun _ => agree_tryActionBy fun _ _ _ _ => agree_adopt
  · refine matches_self grows_conclude fun _ r' hr hdone => ?_
    have hrun := @run_conclude t r₁
    rw [hdone] at hrun
    cases hrun
    exact hr

/-! ### The limit on nodes -/

theorem size_addChildInWords_le :
    (exec (addChildInWords (t := t) n a next) r).2.tree.size ≤ r.tree.size + 1 := by
  rw [exec_eq_trace _ ∅, trace_addChildInWords]
  split
  · exact Nat.le_succ _
  · exact Nat.le_of_eq (size_addChild ..)

theorem size_adoptInWords_le :
    (exec (adoptInWords (t := t) n seen a depth) r).2.tree.size ≤ r.tree.size + 1 := by
  unfold adoptInWords
  rw [exec_bind]
  cases hupdate : exec (updateInSteps (t := t) seen a) r with
  | mk result r₁ =>
    have hsize : r₁.tree.size = r.tree.size :=
      (congrArg (fun p : Except PlanError (Option State) × Run => p.2.tree.size) hupdate).symm
    rw [← hsize]
    rcases result with e | _ | next
    · exact Nat.le_succ _
    · exact Nat.le_succ _
    · change (exec (watchGoal next depth >>= fun _ => addChildInWords n a next) r₁).2.tree.size ≤ _
      have htree := @tree_watchGoal t r₁ next depth
      rw [exec_bind]
      cases hwatch : exec (watchGoal (t := t) next depth) r₁ with
      | mk watched r₂ =>
        rw [hwatch] at htree
        rw [← htree]
        cases watched with
        | error e => exact Nat.le_succ _
        | ok _ => exact size_addChildInWords_le

theorem confined_treeInWords : Confined c r (treeInWords (t := t) c) := by
  refine (confined_deepenBy fun r => confined_growBy fun n r => ?_).bind fun _ _ =>
    confined_conclude
  exact preserves_forM fun _ _ => confined_tryActionBy fun _ _ _ _ _ => size_adoptInWords_le

/-! ### The first failure -/

variable {e : PlanError} {ns : List NodeId}

theorem exec_bind_of_error {f : α → Planning t β} (h : exec x r = (.error e, r')) :
    exec (x >>= f) r = (.error e, r') := by
  rw [exec_bind, h]

theorem exec_growLevelBy_of_error (hfrontier : r.frontier = n :: ns)
    (h : exec (expand n) r = (.error e, r')) : exec (growLevelBy expand) r = (.error e, r') := by
  unfold growLevelBy
  rw [exec_bind, exec_get]
  dsimp only
  rw [hfrontier]
  exact exec_bind_of_error (exec_bind_of_error h)

theorem exec_growBy_of_error (hmay : r.mayGrow = true) (hlimit : 0 < r.limit)
    (h : exec (growLevelBy expand) r = (.error e, r')) :
    exec (growBy expand) r = (.error e, r') := by
  obtain ⟨levels, hlevels⟩ := Nat.exists_eq_succ_of_ne_zero (Nat.pos_iff_ne_zero.1 hlimit)
  unfold growBy
  rw [exec_bind, exec_get]
  dsimp only
  rw [hlevels]
  unfold growLevelsBy
  rw [exec_bind, exec_get]
  dsimp only
  rw [if_pos hmay]
  exact exec_bind_of_error h

theorem exec_deepenBy_of_error (hrounds : 0 < rounds)
    (h : exec grow { r with iterations := r.iterations + 1 } = (.error e, r')) :
    exec (deepenBy c grow rounds) r = (.error e, r') := by
  obtain ⟨rounds, rfl⟩ := Nat.exists_eq_succ_of_ne_zero (Nat.pos_iff_ne_zero.1 hrounds)
  unfold deepenBy
  rw [exec_bind, exec_modify]
  exact exec_bind_of_error h

/-- When the root cannot be expanded, that is the end of planning. -/
theorem exec_treeInWords_of_error (hdepth : 0 < c.maxDepth) (hrounds : 0 < c.maxIterations)
    (h : exec (expandInWords (t := t) c root) { Run.initial t c with iterations := 1 } =
      (.error e, r)) : exec (treeInWords (t := t) c) (.initial t c) = (.error e, r) := by
  have hmay : ({ Run.initial t c with iterations := 1 } : Run).mayGrow = true :=
    decide_eq_true hdepth
  exact exec_bind_of_error (exec_deepenBy_of_error hrounds
    (exec_growBy_of_error hmay hdepth (exec_growLevelBy_of_error rfl h)))

end Planning

namespace Planner

open Planning

variable {p : Planner}

/-- The run when planning has ended, if handles never ran out. -/
def last (p : Planner) (t : PlanningTask) : Run :=
  (exec (Planning.tree (t := t) p.config) (.initial t p.config)).2

/-- The run when planning has ended. -/
def lastInWords (p : Planner) (t : PlanningTask) : Run :=
  (exec (treeInWords (t := t) p.config) (.initial t p.config)).2

theorem last_eq_deepen : p.last t =
    (exec (deepen (t := t) p.config p.config.maxIterations) (.initial t p.config)).2 := run_tree

theorem balanced_initial (hfresh : t.arena.Fresh) : (Run.initial t c).tree.Balanced where
  edges := by
    change t.arena.edges.size ≤ _
    rw [hfresh.edges]
    exact Nat.zero_le _
  nodes := Nat.succ_le_succ (Nat.zero_le _)

/-- If a word is left in the end, it has not mattered that handles are words. -/
theorem trace_treeInWords (hfresh : t.arena.Fresh)
    (h : (p.lastInWords t).Ample ∨ (p.last t).Ample) (m : Memo t.outcome) :
    trace (treeInWords p.config) (.initial t p.config) m =
      trace (Planning.tree p.config) (.initial t p.config) m := by
  unfold lastInWords last at h
  rw [exec_eq_trace _ m, exec_eq_trace _ m] at h
  exact (agree_tree _).eq m (balanced_initial hfresh) h

theorem runInWords_eq (hfresh : t.arena.Fresh)
    (h : (p.lastInWords t).Ample ∨ (p.last t).Ample) : p.runInWords t = p.run t := by
  have htrace := trace_treeInWords hfresh h ∅
  unfold trace at htrace
  unfold runInWords run outcomeOf
  rw [htrace]

theorem lastInWords_eq (hfresh : t.arena.Fresh)
    (h : (p.lastInWords t).Ample ∨ (p.last t).Ample) : p.lastInWords t = p.last t := by
  have htrace := trace_treeInWords hfresh h ∅
  unfold lastInWords last
  rw [exec_eq_trace _ ∅, exec_eq_trace _ ∅, htrace]

theorem planInWords_of_error {e : PlanError}
    (h : exec (treeInWords (t := t) p.config) (.initial t p.config) = (.error e, r)) :
    p.planInWords t = .error e := by
  change (exec (treeInWords (t := t) p.config) (.initial t p.config)).1.map _ = _
  rw [h]
  rfl

/-- There are never more nodes than the limit allows, even once words have run out. -/
theorem size_lastInWords_le : (p.lastInWords t).tree.size ≤ p.config.maxNodes :=
  confined_treeInWords p.bounds_pos.2.2

theorem size_planInWords_le {g : SearchTree} (h : p.planInWords t = .ok g) :
    g.size ≤ p.config.maxNodes := by
  obtain ⟨tree, hresult, rfl⟩ := Fallible.map_eq_ok h
  have hexec : exec (treeInWords (t := t) p.config) (.initial t p.config) =
      (.ok tree, p.lastInWords t) := Prod.ext hresult rfl
  obtain ⟨_, _, _, hconclude⟩ := exec_bind_ok hexec
  have hsize : tree.size = (p.lastInWords t).tree.size := size_of_exec_conclude hconclude
  exact Nat.le_trans (Nat.le_of_eq hsize) size_lastInWords_le

/-- If a word is left in the end, one is left at any point before. -/
theorem ample_of_visited (hacc : t.Accepted) (h : (p.last t).Ample) (hr : r.Visited t p.config)
    (hrounds : r.iterations ≤ p.config.maxIterations) : r.Ample := by
  rw [last_eq_deepen] at h
  exact h.of_noLarger (hr.noLarger hacc hrounds)

end Planner

end EpistemicPlanning
