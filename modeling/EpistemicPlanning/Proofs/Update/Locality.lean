import EpistemicPlanning.Proofs.Update.Candidates
import EpistemicPlanning.Proofs.Update.Inquiring

/-!
# What an update depends on

Whether an action applies, and what becomes of a state, depends on the valuations of the worlds of
the state, on its links and on its designated worlds, and of the task on its actions, the outcomes
of their events and its goal. Neither the marks of a search nor worlds that are added later matter.
-/
namespace EpistemicPlanning

variable {t t' : PlanningTask} {arena arena' : Arena} {state state' : State} {action : Action}
variable {a : ActionId} {e : EventId} {w : WorldId} {P : WorldId → Prop}

/-! ### Tasks that are alike -/

/-- Two tasks have the same actions, whose events come to the same, and the same goal. -/
structure PlanningTask.Alike (t t' : PlanningTask) : Prop where
  actions : t.actions = t'.actions
  outcome : t.outcome = t'.outcome
  goal : t.goal = t'.goal

namespace PlanningTask.Alike

protected theorem refl (t : PlanningTask) : t.Alike t := ⟨rfl, rfl, rfl⟩

variable (ht : t.Alike t')

include ht

theorem action?_eq : t.action? a = t'.action? a := by
  unfold action?
  rw [ht.actions]

theorem event?_eq : t.event? a e = t'.event? a e := by
  unfold event?
  rw [ht.action?_eq]

theorem numbered_eq : t.numbered = t'.numbered := by
  unfold numbered actionIds
  rw [ht.actions]

theorem eventHandles_eq : t.eventHandles = t'.eventHandles := by
  unfold eventHandles
  rw [ht.numbered_eq]

end PlanningTask.Alike

/-! ### States that agree -/

/-- With the same links and valuations everywhere, states agree on all worlds. -/
theorem AgreeOn.of_valuation (hlinks : state.relation.links = state'.relation.links)
    (hval : ∀ w, (arena.world w).valuation = (arena'.world w).valuation) :
    AgreeOn (fun _ => True) arena state arena' state' where
  valuation w _ := hval w
  accessible a w _ := Accessibility.accessible_congr hlinks a w
  closed _ _ _ _ _ _ _ := trivial

namespace AgreeOn

variable (h : AgreeOn P arena state arena' state') (ht : t.Alike t')

include h

section

include ht

theorem resolve (hw : P w) :
    Inquiring.resolve t arena w a e = Inquiring.resolve t' arena' w a e := by
  unfold Inquiring.resolve
  rw [ht.event?_eq, h.valuation w hw]

theorem fire (hw : P w) :
    Inquiring.fire t arena state w a e = Inquiring.fire t' arena' state' w a e := by
  unfold Inquiring.fire
  rw [h.resolve ht hw]
  refine congrArg _ (funext fun outcome => ?_)
  rw [Formula.evaluate_congr h outcome.precondition hw]

theorem fires (hw : P w) :
    Inquiring.fires t arena state w a e = Inquiring.fires t' arena' state' w a e := by
  unfold Inquiring.fires
  rw [h.fire ht hw]

theorem hasApplicableEvent (hw : P w) :
    Inquiring.hasApplicableEvent t arena state w =
      Inquiring.hasApplicableEvent t' arena' state' w := by
  unfold Inquiring.hasApplicableEvent
  rw [ht.eventHandles_eq]
  simp only [h.fires ht hw]

theorem isApplicable (hdes : state.designated = state'.designated)
    (hP : ∀ w ∈ state.designated, P w) :
    Inquiring.isApplicable t arena state a = Inquiring.isApplicable t' arena' state' a := by
  unfold Inquiring.isApplicable
  rw [ht.action?_eq, ← hdes]
  cases t'.action? a with
  | none => rfl
  | some action =>
    refine Fallible.allM_congr fun w hw => ?_
    simp only [h.fires ht (hP w (SortedSet.mem_def.2 hw))]

theorem candidates (hdes : state.designated = state'.designated) {ps : List (WorldId × EventId)}
    (hps : ∀ p ∈ ps, P p.1) :
    Inquiring.candidates t arena state action a ps =
      Inquiring.candidates t' arena' state' action a ps := by
  induction ps with
  | nil => rfl
  | cons p rest ih =>
    obtain ⟨w, e⟩ := p
    have hw : P w := hps (w, e) List.mem_cons_self
    have hrest := ih fun p hp => hps p (List.mem_cons_of_mem _ hp)
    unfold Inquiring.candidates
    rw [h.fire ht hw, hrest, h.valuation w hw]
    unfold PointedModel.isDesignated
    rw [hdes]

/-- All candidates of an update are the same in states that agree on their worlds. -/
theorem candidates_pairs (hpossible : state.possible = state'.possible)
    (hdes : state.designated = state'.designated) (hP : ∀ w ∈ state.possible, P w) :
    Inquiring.candidates t arena state action a (Update.pairs state action) =
      Inquiring.candidates t' arena' state' action a (Update.pairs state' action) := by
  have hpairs : Update.pairs state action = Update.pairs state' action := by
    unfold Update.pairs
    rw [hpossible]
  rw [← hpairs]
  refine h.candidates ht hdes fun p hp => ?_
  obtain ⟨w, e⟩ := p
  exact hP w (Update.mem_pairs.1 hp).1

end

theorem value_isApplicable (hdes : state.designated = state'.designated)
    (hP : ∀ w ∈ state.designated, P w) :
    (Updating.isApplicable (t := t) arena state a).value =
      (Updating.isApplicable (t := t) arena' state' a).value := by
  rw [← Inquiring.consult_isApplicable, h.isApplicable (.refl t) hdes hP,
    Inquiring.consult_isApplicable]

variable (t action a) in
theorem value_candidates_pairs (hpossible : state.possible = state'.possible)
    (hdes : state.designated = state'.designated) (hP : ∀ w ∈ state.possible, P w) :
    (Update.candidates (t := t) arena state action a (Update.pairs state action)).value =
      (Update.candidates (t := t) arena' state' action a (Update.pairs state' action)).value := by
  rw [← Inquiring.consult_candidates, h.candidates_pairs (.refl t) hpossible hdes hP,
    Inquiring.consult_candidates]

end AgreeOn

/-! ### Perspectives -/

namespace PointedModel

variable {kind : HandleKind} {m m' v : PointedModel kind} {ag : Agent}

theorem spread_congr (h : m.relation.links = m'.relation.links) (ns : List (Handle kind)) :
    m.spread ag ns = m'.spread ag ns := by
  induction ns with
  | nil => rfl
  | cons n ns ih => rw [spread, spread, Accessibility.accessible_congr h, ih]

/-- What an agent sees of a model depends on links and designated nodes only. -/
theorem perspective_congr (hdes : m.designated = m'.designated)
    (hlinks : m.relation.links = m'.relation.links) :
    m'.perspective ag = (m.perspective ag).map fun v => { m' with designated := v.designated } := by
  unfold perspective
  rw [← hdes, ← spread_congr hlinks]
  cases m.spread ag m.designated.toList <;> rfl

end PointedModel

/-! ### The result of an update -/

namespace Update

theorem classesOf_full_congr {kind : HandleKind} {r r' : Accessibility kind}
    (h : r.links = r'.links) (ag : Agent) : r.classesOf ag .full = r'.classesOf ag .full := by
  unfold Accessibility.classesOf Accessibility.walked
  rw [h]

variable (action) in
/-- The updated state depends on the number of worlds in the arena and on the links. -/
theorem next_congr (hsize : arena.worlds.size = arena'.worlds.size)
    (hlinks : state.relation.links = state'.relation.links) (cs : List Candidate) :
    next arena state action cs = next arena' state' action cs := by
  have hplaced : placed arena cs = placed arena' cs := by
    unfold placed
    rw [hsize]
  have hlinksOf : linksOf state action (placed arena' cs) =
      linksOf state' action (placed arena' cs) := by
    funext ag
    unfold linksOf
    rw [classesOf_full_congr hlinks]
  simp only [next, hplaced, hlinksOf, hlinks]

/-- Cuts and other worlds do not matter to an update. -/
theorem value_apply_congr_state (hact : t.action? a = some action)
    (hpossible : state.possible = state'.possible) (hdes : state.designated = state'.designated)
    (hlinks : state.relation.links = state'.relation.links) :
    (apply (t := t) arena state a).value = (apply (t := t) arena state' a).value := by
  have hagree : AgreeOn (fun _ => True) arena state arena state' :=
    .of_valuation hlinks fun _ => rfl
  have hcandidates := hagree.value_candidates_pairs t action a hpossible hdes
    fun _ _ => trivial
  rw [value_apply hact, value_apply hact, hcandidates]
  simp only [next_congr action (rfl : arena.worlds.size = arena.worlds.size) hlinks]

/-! ### Costs -/

theorem resetCosts_addChild (parent : WorldId) (event : EventId) (ag : Agent) (v : Valuation) :
    arena.resetCosts.addChild parent event a ag v =
      (arena.addChild parent event a ag v).resetCosts :=
  Arena.addChild_map (fun _ _ => rfl) (fun _ => rfl) rfl

/-- Costs neither matter to the growth of an arena nor are they changed by it. -/
theorem resetCosts_grow (owner : Agent) (cs : List Candidate) :
    grow arena.resetCosts owner a cs = (grow arena owner a cs).resetCosts := by
  induction cs generalizing arena with
  | nil => rfl
  | cons c cs ih =>
    change grow (arena.resetCosts.addChild _ _ _ _ _) owner a cs = _
    rw [resetCosts_addChild, ih]
    rfl

theorem value_apply_resetCosts (hact : t.action? a = some action) :
    (apply (t := t) arena.resetCosts state a).value =
      ((apply (t := t) arena state a).value.1,
        (apply (t := t) arena state a).value.2.resetCosts) := by
  have hagree : AgreeOn (fun _ => True) arena.resetCosts state arena state :=
    .of_valuation rfl fun w => by rw [Arena.world_resetCosts]
  have hcandidates := hagree.value_candidates_pairs t action a rfl rfl fun _ _ => trivial
  have hnext : ∀ cs, next arena.resetCosts state action cs = next arena state action cs :=
    next_congr action Arena.size_worlds_resetCosts rfl
  rw [value_apply hact, value_apply hact, hcandidates]
  cases (candidates (t := t) arena state action a (pairs state action)).value with
  | error e => rfl
  | ok cs =>
    dsimp only
    rw [hnext, resetCosts_grow]
    split <;> rfl

/-! ### What comes of an action -/

/-- What comes of an action in the perspective of its owner: nothing, unless it is applicable; and
then its product update. -/
def performSeen (t : PlanningTask) (arena : Arena) (shifted : State) (a : ActionId) :
    Except ModelError (Option State × Arena) :=
  (Updating.isApplicable (t := t) arena shifted a).value >>= fun b =>
    if b then
      (apply (t := t) arena shifted a).value.1.map fun next? =>
        (next?, (apply (t := t) arena shifted a).value.2)
    else .ok (none, arena)

/-- What comes of an action in a state. -/
def perform (t : PlanningTask) (arena : Arena) (state : State) (action : Action) (a : ActionId) :
    Except ModelError (Option State × Arena) :=
  state.perspective action.owner >>= fun shifted => performSeen t arena shifted a

/-- Whether something comes of an action. -/
def occurs (t : PlanningTask) (arena : Arena) (state : State) (action : Action) (a : ActionId) :
    Except ModelError Bool :=
  (perform t arena state action a).map fun result => result.1.isSome

theorem performSeen_of_applicable
    (h : (Updating.isApplicable (t := t) arena state a).value = .ok true) :
    performSeen t arena state a =
      (apply (t := t) arena state a).value.1.map fun next? =>
        (next?, (apply (t := t) arena state a).value.2) := by
  unfold performSeen
  rw [h]
  rfl

theorem performSeen_of_not_applicable
    (h : (Updating.isApplicable (t := t) arena state a).value = .ok false) :
    performSeen t arena state a = .ok (none, arena) := by
  unfold performSeen
  rw [h]
  rfl

theorem perform_of_perspective {shifted : State}
    (h : state.perspective action.owner = .ok shifted) :
    perform t arena state action a = performSeen t arena shifted a := by
  unfold perform
  rw [h]
  rfl

theorem perform_eq_ok {next? : Option State}
    (h : perform t arena state action a = .ok (next?, arena')) :
    ∃ shifted, state.perspective action.owner = .ok shifted ∧
      ((Updating.isApplicable (t := t) arena shifted a).value = .ok false ∧ next? = none ∧
          arena' = arena ∨
        (Updating.isApplicable (t := t) arena shifted a).value = .ok true ∧
          (apply (t := t) arena shifted a).value = (.ok next?, arena')) := by
  obtain ⟨shifted, hshift, h⟩ := Fallible.bind_eq_ok h
  obtain ⟨b, happ, h⟩ := Fallible.bind_eq_ok h
  refine ⟨shifted, hshift, ?_⟩
  cases b with
  | false =>
    cases h
    exact Or.inl ⟨happ, rfl, rfl⟩
  | true =>
    obtain ⟨next?, hnext, h⟩ := Fallible.map_eq_ok h
    cases h
    exact Or.inr ⟨happ, Prod.ext hnext rfl⟩

theorem perform_eq_some {next : State} :
    perform t arena state action a = .ok (some next, arena') ↔
      ∃ shifted, state.perspective action.owner = .ok shifted ∧
        (Updating.isApplicable (t := t) arena shifted a).value = .ok true ∧
        (apply (t := t) arena shifted a).value = (.ok (some next), arena') := by
  constructor
  · intro h
    obtain ⟨shifted, hshift, ⟨_, hnone, _⟩ | ⟨happ, happly⟩⟩ := perform_eq_ok h
    · cases hnone
    · exact ⟨shifted, hshift, happ, happly⟩
  · rintro ⟨shifted, hshift, happ, happly⟩
    rw [perform_of_perspective hshift, performSeen_of_applicable happ, happly]
    rfl

theorem occurs_eq_true :
    occurs t arena state action a = .ok true ↔
      ∃ next arena', perform t arena state action a = .ok (some next, arena') := by
  unfold occurs
  constructor
  · intro h
    obtain ⟨⟨next?, arena'⟩, hperform, h⟩ := Fallible.map_eq_ok h
    obtain ⟨next, hnext⟩ := Option.isSome_iff_exists.1 h
    exact ⟨next, arena', by rw [hperform, ← hnext]⟩
  · rintro ⟨next, arena', h⟩
    rw [h]
    rfl

theorem perform_resetCosts (hact : t.action? a = some action) :
    perform t arena.resetCosts state action a =
      (perform t arena state action a).map fun result => (result.1, result.2.resetCosts) := by
  cases hshift : state.perspective action.owner with
  | error e =>
    unfold perform
    rw [hshift]
    rfl
  | ok shifted =>
    have hagree : AgreeOn (fun _ => True) arena.resetCosts shifted arena shifted :=
      .of_valuation rfl fun w => by rw [Arena.world_resetCosts]
    have happ := hagree.value_isApplicable (t := t) (a := a) rfl fun _ _ => trivial
    rw [perform_of_perspective hshift, perform_of_perspective hshift]
    unfold performSeen
    rw [happ, value_apply_resetCosts hact]
    cases (Updating.isApplicable (t := t) arena shifted a).value with
    | error e => rfl
    | ok b =>
      cases b with
      | false => rfl
      | true => cases hnext : (apply (t := t) arena shifted a).value.1 <;> rfl

theorem perform_congr_state (hact : t.action? a = some action)
    (hpossible : state.possible = state'.possible) (hdes : state.designated = state'.designated)
    (hlinks : state.relation.links = state'.relation.links) :
    perform t arena state action a = perform t arena state' action a := by
  cases hshift : state.perspective action.owner with
  | error e =>
    unfold perform
    rw [PointedModel.perspective_congr hdes hlinks, hshift]
    rfl
  | ok shifted =>
    obtain ⟨hpos, hrel, _⟩ := PointedModel.perspective_eq_ok hshift
    have hshift' : state'.perspective action.owner =
        .ok { state' with designated := shifted.designated } := by
      rw [PointedModel.perspective_congr hdes hlinks, hshift]
      rfl
    have hlinks' : shifted.relation.links = state'.relation.links := by rw [hrel, hlinks]
    have hagree : AgreeOn (fun _ => True) arena shifted arena
        { state' with designated := shifted.designated } := .of_valuation hlinks' fun _ => rfl
    have happ := hagree.value_isApplicable (t := t) (a := a) rfl fun _ _ => trivial
    have happly : (apply (t := t) arena shifted a).value =
        (apply (t := t) arena { state' with designated := shifted.designated } a).value :=
      value_apply_congr_state hact (hpos.trans hpossible) rfl hlinks'
    rw [perform_of_perspective hshift, perform_of_perspective hshift']
    unfold performSeen
    rw [happ, happly]

/-- Whether something comes of an action depends on the links and on the valuations of the worlds
of the state. -/
theorem occurs_congr (hact : t.action? a = some action) (hstate : state.WellFormed)
    (hpossible : state.possible = state'.possible) (hdes : state.designated = state'.designated)
    (hlinks : state.relation.links = state'.relation.links)
    (hval : ∀ w ∈ state.possible, (arena.world w).valuation = (arena'.world w).valuation) :
    occurs t arena state action a = occurs t arena' state' action a := by
  have hcuts : occurs t arena' state' action a = occurs t arena' state action a := by
    unfold occurs
    rw [perform_congr_state hact hpossible hdes hlinks]
  rw [hcuts]
  unfold occurs
  cases hshift : state.perspective action.owner with
  | error e =>
    unfold perform
    rw [hshift]
    rfl
  | ok shifted =>
    obtain ⟨hpos, _, _⟩ := PointedModel.perspective_eq_ok hshift
    have hwf := hstate.perspective hshift
    rw [← hpos] at hval
    have hagree := hwf.agreeOn rfl hval
    have happ := hagree.value_isApplicable (t := t) (a := a) rfl hwf.designated_possible
    have hcandidates := hagree.value_candidates_pairs t action a rfl rfl fun _ hw => hw
    rw [perform_of_perspective hshift, perform_of_perspective hshift]
    unfold performSeen
    rw [happ, value_apply hact, value_apply hact, hcandidates]
    cases (Updating.isApplicable (t := t) arena' shifted a).value with
    | error e => rfl
    | ok b =>
      cases b with
      | false => rfl
      | true =>
        cases (candidates (t := t) arena' shifted action a (pairs shifted action)).value with
        | error e => rfl
        | ok cs =>
          change Except.map _ (Except.map _ _) = Except.map _ (Except.map _ _)
          dsimp only
          split <;> rfl

end Update

end EpistemicPlanning
