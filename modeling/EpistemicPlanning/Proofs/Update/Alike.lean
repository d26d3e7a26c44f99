import EpistemicPlanning.Proofs.SearchTree.Unfolding

/-!
# Marks do not matter to an update

Two states in their arenas are compared that are equal once marks and cuts are taken off
(`EqualUnmarked`). An update comes to the same state in both, and to arenas that are still equal
without their marks (`Update.alike_run_apply`).
-/
namespace EpistemicPlanning

variable {t t' : PlanningTask} {arena arena' : Arena} {state state' : State} {action : Action}
variable {a : ActionId} {w : WorldId}

/-! ### Without marks -/

/-- An arena without the marks of a search. -/
def Arena.unmarked (arena : Arena) : Arena :=
  ⟨arena.worlds.map World.unmarked, arena.edges.map ProvenanceEdge.unmarked⟩

namespace Arena

theorem size_worlds_unmarked : arena.unmarked.worlds.size = arena.worlds.size := Array.size_map

theorem world_unmarked : arena.unmarked.world w = (arena.world w).unmarked := world_map rfl

theorem valuation_of_unmarked (h : arena.unmarked = arena'.unmarked) :
    (arena.world w).valuation = (arena'.world w).valuation := by
  change (arena.world w).unmarked.valuation = (arena'.world w).unmarked.valuation
  rw [← world_unmarked, h, world_unmarked]

theorem size_worlds_of_unmarked (h : arena.unmarked = arena'.unmarked) :
    arena.worlds.size = arena'.worlds.size := by
  rw [← size_worlds_unmarked, h, size_worlds_unmarked]

theorem unmarked_addChild (parent : WorldId) (event : EventId) (owner : Agent) (v : Valuation) :
    arena.unmarked.addChild parent event a owner v =
      (arena.addChild parent event a owner v).unmarked :=
  addChild_map (fun _ _ => rfl) (fun _ => rfl) rfl

end Arena

theorem Update.unmarked_grow (owner : Agent) (cs : List Candidate) :
    grow arena.unmarked owner a cs = (grow arena owner a cs).unmarked := by
  induction cs generalizing arena with
  | nil => rfl
  | cons c cs ih =>
    change grow (arena.unmarked.addChild _ _ _ _ _) owner a cs = _
    rw [Arena.unmarked_addChild, ih]
    rfl

/-- Two states in their arenas are equal apart from marks and cuts. -/
structure EqualUnmarked (arena : Arena) (state : State) (arena' : Arena) (state' : State) :
    Prop where
  arena : arena.unmarked = arena'.unmarked
  state : state.uncut = state'.uncut

namespace EqualUnmarked

variable (h : EqualUnmarked arena state arena' state')

include h

theorem possible : state.possible = state'.possible := by
  change state.uncut.possible = state'.uncut.possible
  rw [h.state]

theorem designated : state.designated = state'.designated := by
  change state.uncut.designated = state'.uncut.designated
  rw [h.state]

theorem links : state.relation.links = state'.relation.links := by
  change state.uncut.relation.links = state'.uncut.relation.links
  rw [h.state]

theorem agree : AgreeOn (fun _ => True) arena state arena' state' :=
  .of_valuation h.links fun _ => Arena.valuation_of_unmarked h.arena

theorem evaluate (f : Formula) : f.evaluate arena state w = f.evaluate arena' state' w :=
  Formula.evaluate_congr h.agree f trivial

/-- So they are when an agent looks at them. -/
theorem perspective {ag : Agent} {shifted : State} (hshift : state.perspective ag = .ok shifted) :
    ∃ shifted', state'.perspective ag = .ok shifted' ∧
      EqualUnmarked arena shifted arena' shifted' := by
  refine ⟨{ state' with designated := shifted.designated }, ?_, h.arena, ?_⟩
  · rw [PointedModel.perspective_congr h.designated h.links, hshift]
    rfl
  · obtain ⟨hpossible, hrelation, _⟩ := PointedModel.perspective_eq_ok hshift
    have hclear : state.relation.clearCuts = state'.relation.clearCuts :=
      congrArg PointedModel.relation h.state
    unfold PointedModel.uncut
    rw [hpossible, hrelation, hclear, h.possible]

theorem perspective_error {ag : Agent} {err : ModelError}
    (hshift : state.perspective ag = .error err) : state'.perspective ag = .error err := by
  rw [PointedModel.perspective_congr h.designated h.links, hshift]
  rfl

end EqualUnmarked

/-! ### Updates -/

namespace Update

/-- What comes of an update with given candidates. -/
def concluded (arena : Arena) (state : State) (action : Action) (a : ActionId) :
    Except ModelError (List Candidate) → Except ModelError (Option State) × Arena
  | .error e => (.error e, arena)
  | .ok cs =>
    if cs.any Candidate.designated then
      (.ok (some (next arena state action cs)), grow arena action.owner a cs)
    else (.ok none, arena)

variable (action a) in
theorem concluded_congr (h : EqualUnmarked arena state arena' state')
    (result : Except ModelError (List Candidate)) :
    (concluded arena state action a result).1 = (concluded arena' state' action a result).1 ∧
      (concluded arena state action a result).2.unmarked =
        (concluded arena' state' action a result).2.unmarked := by
  cases result with
  | error e => exact ⟨rfl, h.arena⟩
  | ok cs =>
    have hnext : next arena state action cs = next arena' state' action cs :=
      next_congr action (Arena.size_worlds_of_unmarked h.arena) h.links cs
    have hgrow : (grow arena action.owner a cs).unmarked =
        (grow arena' action.owner a cs).unmarked := by
      rw [← unmarked_grow, h.arena, unmarked_grow]
    unfold concluded
    dsimp only
    cases cs.any Candidate.designated with
    | true => exact ⟨congrArg (fun s => Except.ok (some s)) hnext, hgrow⟩
    | false => exact ⟨rfl, h.arena⟩

end Update

theorem Inquiring.apply_eq (hact : t.action? a = some action) :
    apply t arena state a = (candidates t arena state action a (Update.pairs state action)).run >>=
      fun result => pure (Update.concluded arena state action a result) := by
  unfold apply
  rw [hact]
  dsimp only
  refine congrArg _ (funext fun result => ?_)
  cases result with
  | error e => rfl
  | ok cs =>
    unfold Update.concluded
    dsimp only
    split <;> rfl

/-- An update with the candidates asked for through a memo. -/
theorem Update.run_apply (hact : t.action? a = some action) (m : Memo t.outcome) :
    (apply (t := t) arena state a).run m =
      let x := ((Inquiring.candidates t arena state action a (pairs state action)).run.consult
        t.outcome).run m
      (concluded arena state action a x.1, x.2) := by
  rw [← Inquiring.consult_apply, Inquiring.apply_eq hact, Inquiry.consult_bind]
  rfl

/-- Through memos that remember the same, updates of states that are equal apart from marks come to
the same state. -/
theorem Update.alike_run_apply (ht : t.Alike t') (h : EqualUnmarked arena state arena' state')
    {m : Memo t.outcome} {m' : Memo t'.outcome} (hm : m.entries = m'.entries) :
    ((apply (t := t) arena state a).run m).1.1 = ((apply (t := t') arena' state' a).run m').1.1 ∧
      ((apply (t := t) arena state a).run m).1.2.unmarked =
        ((apply (t := t') arena' state' a).run m').1.2.unmarked ∧
      ((apply (t := t) arena state a).run m).2.entries =
        ((apply (t := t') arena' state' a).run m').2.entries := by
  cases hact : t.action? a with
  | none =>
    have hact' : t'.action? a = none := ht.action?_eq ▸ hact
    unfold apply
    rw [hact, hact']
    exact ⟨rfl, h.arena, hm⟩
  | some action =>
    have hact' : t'.action? a = some action := ht.action?_eq ▸ hact
    rw [run_apply hact, run_apply hact',
      ← h.agree.candidates_pairs ht h.possible h.designated fun _ _ => trivial]
    obtain ⟨hresult, hmemo⟩ := Inquiry.consult_congr ht.outcome hm
      (Inquiring.candidates t arena state action a (pairs state action)).run
    dsimp only
    rw [← hresult]
    obtain ⟨hstate, harena⟩ := concluded_congr action a h
      (((Inquiring.candidates t arena state action a (pairs state action)).run.consult
        t.outcome).run m).1
    exact ⟨hstate, harena, hmemo⟩

end EpistemicPlanning
