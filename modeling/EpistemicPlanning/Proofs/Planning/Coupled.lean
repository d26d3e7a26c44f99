import EpistemicPlanning.Proofs.Planning.Anew
import EpistemicPlanning.Proofs.Planning.Limits

/-!
# Runs that start with other marks

Two tasks with the same actions and the same goal are planned for side by side, and the two trees
differ in marks when the runs begin. As long as they grow, the trees stay equal without their marks.
Once costs have been computed, costs are equal as well, and so are all marks in the end
(`Planning.coupled_tree`).
-/
namespace EpistemicPlanning

open SearchTree

variable {t t' : PlanningTask} {α β : Type} {c : PlannerConfig} {r r' : Run} {n : NodeId}
variable {levels rounds : Nat} {action : Action} {a : ActionId}

namespace Planning

/-! ### Coupled steps -/

variable {R S : Run → Run → Prop}

/-- Two steps have the same result, the memos after them remember the same, and the runs after them
are related if they succeed. -/
structure EndAlike (R : Run → Run → Prop) (p : (Except PlanError α × Run) × Memo t.outcome)
    (p' : (Except PlanError α × Run) × Memo t'.outcome) : Prop where
  result : p.1.1 = p'.1.1
  memo : p.2.entries = p'.2.entries
  run : ∀ a, p.1.1 = .ok a → R p.1.2 p'.1.2

/-- Through memos that remember the same, two steps end alike. -/
def Coupled (R : Run → Run → Prop) (r r' : Run) (x : Planning t α) (y : Planning t' α) : Prop :=
  ∀ m m', m.entries = m'.entries → EndAlike R (trace x r m) (trace y r' m')

theorem Coupled.bind {x : Planning t α} {y : Planning t' α} {f : α → Planning t β}
    {g : α → Planning t' β} (hx : Coupled R r r' x y)
    (hf : ∀ a r₁ r₁', exec x r = (.ok a, r₁) → R r₁ r₁' → Coupled S r₁ r₁' (f a) (g a)) :
    Coupled S r r' (x >>= f) (y >>= g) := by
  intro m m' hm
  have h := hx m m' hm
  rw [trace_bind, trace_bind]
  cases hfirst : trace x r m with
  | mk p m₁ =>
    cases hfirst' : trace y r' m' with
    | mk p' m₁' =>
      obtain ⟨result, r₁⟩ := p
      obtain ⟨result', r₁'⟩ := p'
      rw [hfirst, hfirst'] at h
      obtain rfl : result = result' := h.result
      cases result with
      | error e => exact ⟨rfl, h.memo, fun _ ha => nomatch ha⟩
      | ok a => exact hf a r₁ r₁' (exec_of_trace hfirst) (h.run a rfl) m₁ m₁' h.memo

theorem coupled_get {f : Run → Planning t β} {g : Run → Planning t' β}
    (h : Coupled S r r' (f r) (g r')) : Coupled S r r' (get >>= f) (get >>= g) := h

theorem coupled_pure (hR : R r r') (a : α) :
    Coupled R r r' (pure a : Planning t α) (pure a : Planning t' α) :=
  fun _ _ hm => ⟨rfl, hm, fun _ _ => hR⟩

theorem coupled_throw (e : PlanError) :
    Coupled R r r' (throw e : Planning t α) (throw e : Planning t' α) :=
  fun _ _ hm => ⟨rfl, hm, fun _ ha => nomatch ha⟩

theorem coupled_throw_bind (e : PlanError) {f : β → Planning t α} {g : β → Planning t' α} :
    Coupled R r r' (throw e >>= f) (throw e >>= g) :=
  fun _ _ hm => ⟨rfl, hm, fun _ ha => nomatch ha⟩

theorem coupled_set {s s' : Run} (hR : R s s') :
    Coupled R r r' (set s : Planning t PUnit) (set s' : Planning t' PUnit) :=
  fun _ _ hm => ⟨rfl, hm, fun _ _ => hR⟩

theorem coupled_modify {f g : Run → Run} (hR : R (f r) (g r')) :
    Coupled R r r' (modify f : Planning t PUnit) (modify g : Planning t' PUnit) :=
  fun _ _ hm => ⟨rfl, hm, fun _ _ => hR⟩

theorem coupled_ofExcept (hR : R r r') (x : Except ModelError α) :
    Coupled R r r' (ofExcept (t := t) x) (ofExcept (t := t') x) :=
  fun _ _ hm => ⟨rfl, hm, fun _ _ => hR⟩

theorem ofExcept_ok_bind (a : α) (f : α → Planning t β) : ofExcept (.ok a) >>= f = f a := rfl

theorem coupled_forM {ι : Type} {l : List ι} {f : ι → Planning t PUnit} {g : ι → Planning t' PUnit}
    (hstep : ∀ i r r', R r r' → Coupled R r r' (f i) (g i)) (hR : R r r') :
    Coupled R r r' (l.forM f) (l.forM g) := by
  induction l generalizing r r' with
  | nil => exact coupled_pure hR _
  | cons i l ih => exact (hstep i r r' hR).bind fun _ _ _ _ h => ih h

variable (ht : t.Alike t')

include ht

theorem coupled_consult (hR : R r r') (x : Inquiring α) :
    Coupled R r r' (ofUpdating (Inquiring.consult t x)) (ofUpdating (Inquiring.consult t' x)) := by
  intro m m' hm
  obtain ⟨hresult, hmemo⟩ := Inquiry.consult_congr ht.outcome hm x.run
  exact ⟨congrArg (Except.mapError PlanError.model) hresult, hmemo, fun _ _ => hR⟩

theorem coupled_update {state state' : State}
    (h : EqualUnmarked r.tree.arena state r'.tree.arena state')
    (hR : ∀ arena arena', arena.unmarked = arena'.unmarked →
      R (r.withArena arena) (r'.withArena arena')) :
    Coupled R r r' (update (t := t) state a) (update (t := t') state' a) := by
  intro m m' hm
  obtain ⟨hresult, harena, hmemo⟩ := Update.alike_run_apply (a := a) ht h hm
  rw [trace_update, trace_update]
  exact ⟨congrArg (Except.mapError PlanError.model) hresult, hmemo, fun _ _ => hR _ _ harena⟩

end Planning

/-! ### Growing -/

/-- Two runs are at the same place, and their trees are equal without some marks. -/
structure Run.EqualApart (erase : SearchTree → SearchTree) (r r' : Run) : Prop where
  tree : erase r.tree = erase r'.tree
  frontier : r.frontier = r'.frontier
  goalDepth : r.goalDepth = r'.goalDepth
  limit : r.limit = r'.limit
  iterations : r.iterations = r'.iterations

namespace Run.EqualApart

theorem unsolvable {erase : SearchTree → SearchTree} (h : EqualApart erase r r')
    (reason : Unsolvable) : r.unsolvable reason = r'.unsolvable reason := by
  unfold Run.unsolvable
  rw [h.limit]

theorem begun {erase : SearchTree → SearchTree} (h : EqualApart erase r r') :
    EqualApart erase { r with iterations := r.iterations + 1 }
      { r' with iterations := r'.iterations + 1 } :=
  ⟨h.tree, h.frontier, h.goalDepth, h.limit, congrArg (· + 1) h.iterations⟩

theorem bare (h : EqualApart unpruned r r') : EqualApart bare r r' :=
  ⟨bare_of_unpruned h.tree, h.frontier, h.goalDepth, h.limit, h.iterations⟩

variable (h : EqualApart SearchTree.bare r r')

include h

theorem mayGrow : r.mayGrow = r'.mayGrow := by
  unfold Run.mayGrow
  rw [h.frontier, h.limit]
  cases r'.frontier with
  | nil => rfl
  | cons n ns =>
    dsimp only
    rw [depth_of_bare h.tree]

theorem withArena {arena arena' : Arena} (harena : arena.unmarked = arena'.unmarked) :
    EqualApart SearchTree.bare (r.withArena arena) (r'.withArena arena') := by
  refine ⟨?_, h.frontier, h.goalDepth, h.limit, h.iterations⟩
  change { r.tree.bare with arena := arena.unmarked } =
    ({ r'.tree.bare with arena := arena'.unmarked } : SearchTree)
  rw [h.tree, harena]

theorem withChild (n : NodeId) (a : ActionId) (next : State) :
    EqualApart SearchTree.bare (r.withChild n a next) (r'.withChild n a next) := by
  refine ⟨?_, h.frontier, h.goalDepth, h.limit, h.iterations⟩
  change (r.tree.addChild n a next).bare = (r'.tree.addChild n a next).bare
  rw [bare_addChild, h.tree, bare_addChild]

theorem worldsSatisfying (s : State) (f : Formula) :
    s.worldsSatisfying r.tree.arena f = s.worldsSatisfying r'.tree.arena f := by
  have hsame : EqualUnmarked r.tree.arena s r'.tree.arena s :=
    ⟨congrArg SearchTree.arena h.tree, rfl⟩
  unfold PointedModel.worldsSatisfying
  congr 1
  funext w
  exact hsame.evaluate f

end Run.EqualApart

namespace Planning

open Run

variable (ht : t.Alike t')

include ht

theorem coupled_watchGoal (h : EqualApart bare r r') (next : State) (depth : Nat) :
    Coupled (EqualApart bare) r r' (watchGoal (t := t) next depth)
      (watchGoal (t := t') next depth) := by
  unfold watchGoal
  refine coupled_get ?_
  rw [h.goalDepth, ht.goal, h.worldsSatisfying]
  split
  · refine (coupled_ofExcept h _).bind fun ws r₁ r₁' _ h₁ => ?_
    cases ws with
    | nil => exact coupled_pure h₁ _
    | cons w ws =>
      refine coupled_set ⟨h.tree, h.frontier, rfl, ?_, h.iterations⟩
      exact congrArg (min · depth) h.limit
  · exact coupled_pure h _

theorem coupled_tryAction (h : EqualApart bare r r') :
    Coupled (EqualApart bare) r r' (tryAction (t := t) c n action a)
      (tryAction (t := t') c n action a) := by
  have hnode := equalUnmarked_of_bare h.tree n
  unfold tryAction tryActionBy adopt
  refine coupled_get ?_
  dsimp only
  cases hshift : (r.tree.node n).state.perspective action.owner with
  | error e =>
    rw [hnode.perspective_error hshift]
    refine (coupled_ofExcept h (.error e)).bind fun _ _ _ hfailed _ => ?_
    cases hfailed
  | ok shifted =>
    obtain ⟨shifted', hshift', heq⟩ := hnode.perspective hshift
    have happ := heq.agree.isApplicable (a := a) ht heq.designated fun _ _ => trivial
    rw [hshift', ofExcept_ok_bind, ofExcept_ok_bind, ← Inquiring.consult_isApplicable,
      ← Inquiring.consult_isApplicable, ← happ, size_of_bare h.tree, depth_of_bare h.tree]
    refine (coupled_consult ht h _).bind fun applicable r₁ r₁' _ h₁ => ?_
    cases applicable with
    | false => exact coupled_pure h₁ _
    | true =>
      simp only [if_true]
      split
      · exact coupled_throw_bind _
      · have heq₁ : EqualUnmarked r₁.tree.arena shifted r₁'.tree.arena shifted' :=
          ⟨congrArg SearchTree.arena h₁.tree, heq.state⟩
        refine (coupled_update ht heq₁ fun _ _ => h₁.withArena).bind fun next? r₂ r₂' _ h₂ => ?_
        cases next? with
        | none => exact coupled_pure h₂ _
        | some next =>
          refine (coupled_watchGoal ht h₂ next _).bind fun _ r₃ r₃' _ h₃ => ?_
          exact coupled_modify (h₃.withChild n a next)

theorem coupled_expand (h : EqualApart bare r r') (n : NodeId) :
    Coupled (EqualApart bare) r r' (expand (t := t) c n) (expand (t := t') c n) := by
  unfold expand
  rw [ht.numbered_eq]
  exact coupled_forM (fun _ _ _ h => coupled_tryAction ht h) h

theorem coupled_growLevel (h : EqualApart bare r r') :
    Coupled (EqualApart bare) r r' (growLevel (t := t) c) (growLevel (t := t') c) := by
  unfold growLevel growLevelBy
  refine coupled_get ?_
  rw [h.frontier]
  refine (coupled_forM (fun n _ _ h => coupled_expand ht h n) h).bind fun _ r₁ r₁' _ h₁ => ?_
  refine coupled_modify ⟨h₁.tree, ?_, h₁.goalDepth, h₁.limit, h₁.iterations⟩
  rw [size_of_bare h.tree, size_of_bare h₁.tree]

theorem coupled_growLevels (h : EqualApart bare r r') :
    Coupled (EqualApart bare) r r' (growLevels (t := t) c levels)
      (growLevels (t := t') c levels) := by
  induction levels generalizing r r' with
  | zero => exact coupled_pure h _
  | succ levels ih =>
    rw [growLevels_succ, growLevels_succ]
    refine coupled_get ?_
    rw [h.mayGrow]
    split
    · exact (coupled_growLevel ht h).bind fun _ _ _ _ h₁ => ih h₁
    · exact coupled_pure h _

theorem coupled_grow (h : EqualApart bare r r') :
    Coupled (EqualApart bare) r r' (grow (t := t) c) (grow (t := t') c) := by
  rw [grow_eq, grow_eq]
  refine coupled_get ?_
  rw [h.limit]
  exact coupled_growLevels ht h

/-! ### Computing costs -/

theorem coupled_settle (h : EqualApart bare r r') :
    Coupled (EqualApart unpruned) r r' (settle (t := t)) (settle (t := t')) := by
  have hstandings : Inquiring.standings t r.tree.arena (r.tree.nodeIds.reverse.map r.tree.node) =
      Inquiring.standings t' r'.tree.arena (r.tree.nodeIds.reverse.map r'.tree.node) := by
    refine Inquiring.standings_congr ht ?_
    rw [List.forall₂_map_left_iff, List.forall₂_map_right_iff, List.forall₂_same]
    intro n _
    have hnode := equalUnmarked_of_bare h.tree n
    exact ⟨hnode.possible, hnode.agree⟩
  unfold settle
  refine coupled_get ?_
  dsimp only
  rw [← nodeIds_of_bare h.tree, ← Inquiring.consult_standings, ← Inquiring.consult_standings,
    ← hstandings]
  refine (coupled_consult ht h _).bind fun sss r₁ r₁' hasked _ => ?_
  obtain ⟨hvalue, _⟩ := exec_ofUpdating_ok hasked
  rw [Inquiring.consult_standings] at hvalue
  have hall : ∀ n : NodeId, n.index < r.tree.size →
      n ∈ (r.tree.nodeIds.reverse.zip sss).map Prod.fst := by
    intro n hn
    rw [map_fst_standings hvalue, List.mem_reverse]
    exact mem_nodeIds.2 hn
  refine coupled_set ⟨?_, h.frontier, h.goalDepth, h.limit, h.iterations⟩
  change (settleNodes r.limit _ _).unpruned = (settleNodes r'.limit _ _).unpruned
  rw [h.limit]
  exact unpruned_settleAll h.tree hall

end Planning

namespace Run.EqualApart

variable (h : EqualApart unpruned r r')

include h

theorem rootCosts {worlds : State → List WorldId}
    (hworlds : worlds (r.tree.node root).state = worlds (r'.tree.node root).state) :
    r.rootCosts worlds = r'.rootCosts worlds := by
  unfold Run.rootCosts
  rw [hworlds]
  exact List.map_congr_left fun w _ => cost_of_unpruned h.tree w

theorem rootSettled : r.rootSettled = r'.rootSettled :=
  congrArg (List.all · Cost.isSettled)
    (h.rootCosts (equalUnmarked_of_bare h.bare.tree root).possible)

theorem rootHopeless : r.rootHopeless = r'.rootHopeless :=
  congrArg (List.all · (· = Cost.infinity))
    (h.rootCosts (congrArg SortedSet.toList (equalUnmarked_of_bare h.bare.tree root).designated))

end Run.EqualApart

/-! ### Deepening -/

namespace Planning

open Run

variable (ht : t.Alike t')

include ht

theorem coupled_round (h : EqualApart bare r r') :
    Coupled (EqualApart unpruned) r r' (round (t := t) c) (round (t := t') c) := by
  unfold round
  refine (coupled_modify h.begun).bind fun _ _ _ _ h₁ => ?_
  exact (coupled_grow ht h₁).bind fun _ _ _ _ h₂ => coupled_settle ht h₂

theorem coupled_deepen (h : EqualApart bare r r') :
    Coupled (EqualApart unpruned) r r' (deepen (t := t) c rounds) (deepen (t := t') c rounds) := by
  induction rounds generalizing r r' with
  | zero =>
    rw [deepen_zero, deepen_zero]
    refine (coupled_modify h.begun).bind fun _ r₁ r₁' _ h₁ => coupled_get ?_
    rw [h₁.unsolvable]
    exact coupled_throw _
  | succ rounds ih =>
    rw [deepen_succ, deepen_succ]
    refine (coupled_round ht h).bind fun _ r₁ r₁' _ h₁ => ?_
    unfold proceed
    refine coupled_get ?_
    rw [h₁.rootSettled, h₁.frontier, h₁.limit, h₁.unsolvable, h₁.unsolvable]
    cases r₁'.rootSettled with
    | true => exact coupled_pure h₁ _
    | false =>
      simp only [Bool.false_eq_true, if_false]
      split
      · exact coupled_throw_bind _
      · split
        · exact coupled_throw_bind _
        · have hraised : EqualApart bare
              { r₁ with frontier := r₁'.frontier, limit := r₁'.limit + 1 }
              { r₁' with limit := r₁'.limit + 1 } :=
            ⟨h₁.bare.tree, rfl, h₁.goalDepth, rfl, h₁.iterations⟩
          exact (coupled_set hraised).bind fun _ _ _ _ h₂ => ih h₂

/-- Whatever marks the trees had in the beginning, the pruned trees are equal. -/
theorem coupled_tree (h : EqualApart bare r r') :
    Coupled (EqualApart unpruned) r r' (Planning.tree (t := t) c)
      (Planning.tree (t := t') c) := by
  unfold Planning.tree conclude
  refine (coupled_deepen ht h).bind fun _ r₁ r₁' _ h₁ => coupled_get ?_
  rw [h₁.rootHopeless, h₁.unsolvable, Rationality.prune_congr h₁.tree, h₁.iterations,
    h₁.goalDepth, h₁.limit]
  split
  · exact coupled_throw_bind _
  · exact (coupled_ofExcept h₁ _).bind fun _ _ _ _ h₂ => coupled_pure h₂ _

end Planning

end EpistemicPlanning
