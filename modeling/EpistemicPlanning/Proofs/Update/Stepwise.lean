import EpistemicPlanning.Proofs.Accessibility.Gains
import EpistemicPlanning.Proofs.Update.Indistinguishability
import EpistemicPlanning.Update.Steps

/-!
# Product update, step by step

Of the steps that make up the state after an action, lookups and links never fail, whatever the
candidates are (`Update.exists_exec_build`). The check of the parts does not fail either as long as
no two worlds share a handle. Then an update made step by step comes to the same as `Update.apply`,
which writes the state down as a whole (`Update.run_applyInSteps`).
-/
namespace EpistemicPlanning

open Relation

variable {ε κ β : Type}

namespace SortedMap

variable [Ord κ] [DecidableEq κ] {m : SortedMap κ β} {g : κ → β} {K : κ → Prop} {k : κ}

/-- The map has exactly the keys in `K`, with the values of `g`. -/
def Tabulates (m : SortedMap κ β) (g : κ → β) (K : κ → Prop) : Prop :=
  ∀ k b, m.find? k = some b ↔ K k ∧ b = g k

theorem tabulates_empty : (∅ : SortedMap κ β).Tabulates g fun _ => False := by
  intro k b
  simp

theorem Tabulates.find?_eq (h : m.Tabulates g K) (hk : K k) : m.find? k = some (g k) :=
  (h k (g k)).2 ⟨hk, rfl⟩

variable [Std.TransOrd κ] [Std.LawfulEqOrd κ]

theorem Tabulates.ensure (h : m.Tabulates g K) {x : Except ε β} (hx : x = .ok (g k)) :
    ∃ m', m.ensure k x = .ok m' ∧ m'.Tabulates g fun k' => k' = k ∨ K k' := by
  subst hx
  unfold SortedMap.ensure
  by_cases hk : K k
  · have hfind := h.find?_eq hk
    refine ⟨m, by simp [contains, hfind], fun k' b => ?_⟩
    have hor : k' = k ∨ K k' ↔ K k' := or_iff_right_of_imp fun heq => heq ▸ hk
    exact (h k' b).trans (and_congr_left fun _ => hor.symm)
  · have hnone : m.find? k = none := Option.eq_none_iff_forall_ne_some.2 fun b hb =>
      hk ((h k b).1 hb).1
    refine ⟨m.insert k (g k), by simp [contains, hnone, Except.map], fun k' b => ?_⟩
    rw [find?_insert]
    by_cases hk' : k' = k
    · subst hk'
      simp [eq_comm]
    · simp [hk', h k' b]

end SortedMap

/-- Every world and every edge of the arena has a word for itself. -/
structure Arena.Numbered (arena : Arena) : Prop where
  worlds : arena.worlds.size ≤ UInt32.size
  edges : arena.edges.size ≤ UInt32.size

namespace Update

/-! ### Steps -/

namespace Building

variable {α γ : Type}

theorem exec_bind {x : Building α} {f : α → Building γ} {arena arena' : Arena} {a : α}
    (h : x.exec arena = (.ok a, arena')) : (x >>= f).exec arena = (f a).exec arena' := by
  unfold exec at *
  rw [ExceptT.run_bind, StateT.run_bind, h]
  rfl

theorem exec_ofExcept {f : ε → PlanError} {x : Except ε α} {arena : Arena} {a : α}
    (h : x = .ok a) : (ofExcept f x).exec arena = (.ok a, arena) := by
  subst h
  rfl

end Building

/-! ### Looking up -/

variable {arena : Arena} {state : State} {action : Action} {cs : List Candidate}
variable {agent owner : Agent} {a : ActionId}

/-- For an agent of both relations, everything is found. -/
theorem Near.exists_foldlM (hs : state.relation.hasAgent agent = true)
    (ha : action.relation.hasAgent agent = true) {near : Near} {K : WorldId → Prop}
    {K' : EventId → Prop}
    (h : near.worlds.Tabulates (classOf (state.relation.classesOf agent .full)) K)
    (h' : near.events.Tabulates (classOf (action.relation.classesOf agent .full)) K') :
    ∃ near', cs.foldlM (look state action agent) near = .ok near' ∧
      near'.worlds.Tabulates (classOf (state.relation.classesOf agent .full))
        (fun w => (∃ c ∈ cs, w = c.parent) ∨ K w) ∧
      near'.events.Tabulates (classOf (action.relation.classesOf agent .full))
        fun e => (∃ c ∈ cs, e = c.event) ∨ K' e := by
  induction cs generalizing near K K' with
  | nil => exact ⟨near, rfl, by simpa using h, by simpa using h'⟩
  | cons c cs ih =>
    obtain ⟨worlds, hworlds, hw⟩ := h.ensure (Accessibility.reach_eq_ok (n := c.parent) hs .full)
    obtain ⟨events, hevents, he⟩ := h'.ensure (Accessibility.reach_eq_ok (n := c.event) ha .full)
    have hlook : look state action agent near c = .ok ⟨worlds, events⟩ := by
      unfold look Accessibility.accessible
      rw [hworlds]
      change (near.events.ensure c.event _ >>= _) = _
      rw [hevents]
      rfl
    obtain ⟨near', hrest, hw', he'⟩ := @ih ⟨worlds, events⟩ _ _ hw he
    refine ⟨near', ?_, ?_, ?_⟩
    · rw [List.foldlM_cons, hlook]
      exact hrest
    · simpa [or_assoc, or_left_comm] using hw'
    · simpa [or_assoc, or_left_comm] using he'

/-- The lookups for an agent of both relations tell which candidates it cannot tell apart. -/
theorem Near.lookAll_eq_ok (hs : state.relation.hasAgent agent = true)
    (ha : action.relation.hasAgent agent = true) :
    ∃ near, Near.lookAll state action cs agent = .ok (agent, near) ∧ ∀ c ∈ cs, ∀ d,
      near.relates c d = true ↔ ReflTransGen (state.relation.Adjacent agent) c.parent d.parent ∧
        ReflTransGen (action.relation.Adjacent agent) c.event d.event := by
  obtain ⟨near, hlook, hw, he⟩ := @exists_foldlM state action cs agent hs ha ⟨∅, ∅⟩ _ _
    SortedMap.tabulates_empty SortedMap.tabulates_empty
  refine ⟨near, by rw [lookAll, hlook]; rfl, fun c hc d => ?_⟩
  rw [relates, hw.find?_eq (Or.inl ⟨c, hc, rfl⟩), he.find?_eq (Or.inl ⟨c, hc, rfl⟩)]
  simp [Accessibility.mem_class_full]

/-- What has been looked up for some agents says what each of them cannot tell apart. -/
structure Looked (state : State) (action : Action) (cs : List Candidate) (agents : List Agent)
    (nears : List (Agent × Near)) : Prop where
  agents : nears.map Prod.fst = agents
  relates : ∀ an ∈ nears, ∀ c ∈ cs, ∀ d, an.2.relates c d = true ↔
    ReflTransGen (state.relation.Adjacent an.1) c.parent d.parent ∧
      ReflTransGen (action.relation.Adjacent an.1) c.event d.event

theorem exists_looked {agents : List Agent} (h : ∀ agent ∈ agents,
    state.relation.hasAgent agent = true ∧ action.relation.hasAgent agent = true) :
    ∃ nears, agents.mapM (Near.lookAll state action cs) = .ok nears ∧
      Looked state action cs agents nears := by
  induction agents with
  | nil => exact ⟨[], rfl, rfl, fun an han => nomatch han⟩
  | cons agent agents ih =>
    rw [List.forall_mem_cons] at h
    obtain ⟨near, hfirst, hnear⟩ := @Near.lookAll_eq_ok state action cs agent h.1.1 h.1.2
    obtain ⟨nears, hrest, hlooked⟩ := ih h.2
    refine ⟨(agent, near) :: nears, ?_, ?_, ?_⟩
    · rw [List.mapM_cons, hfirst]
      change (agents.mapM (Near.lookAll state action cs) >>= _) = _
      rw [hrest]
      rfl
    · rw [List.map_cons, hlooked.agents]
    · rw [List.forall_mem_cons]
      exact ⟨hnear, hlooked.relates⟩

/-! ### Adding worlds -/

/-- The candidates with the words that they get as handles. -/
def named (arena : Arena) (cs : List Candidate) : List (WorldId × Candidate) :=
  (placed arena cs).map fun p => (p.1.word, p.2)

/-- The arena with the worlds of the candidates, under handles that are words. -/
def growInWords (arena : Arena) (owner : Agent) (a : ActionId) (cs : List Candidate) : Arena :=
  cs.foldl (fun arena c => arena.addChildInWords c.parent c.event a owner c.valuation) arena

@[simp] theorem size_worlds_growInWords :
    (growInWords arena owner a cs).worlds.size = arena.worlds.size + cs.length := by
  induction cs generalizing arena with
  | nil => rfl
  | cons c cs ih =>
    change (growInWords (arena.addChildInWords _ _ _ _ _) owner a cs).worlds.size = _
    rw [ih, Arena.size_worlds_addChildInWords, List.length_cons]
    omega

@[simp] theorem size_edges_growInWords :
    (growInWords arena owner a cs).edges.size = arena.edges.size + cs.length := by
  induction cs generalizing arena with
  | nil => rfl
  | cons c cs ih =>
    change (growInWords (arena.addChildInWords _ _ _ _ _) owner a cs).edges.size = _
    rw [ih, Arena.size_edges_addChildInWords, List.length_cons]
    omega

theorem exec_mapM_allocate : (cs.mapM (allocate owner a) : Building _).exec arena =
    (.ok (named arena cs), growInWords arena owner a cs) := by
  induction cs generalizing arena with
  | nil => rfl
  | cons c cs ih =>
    have hfirst : (allocate owner a c).exec arena = (.ok (arena.nextWorld.word, c),
        arena.addChildInWords c.parent c.event a owner c.valuation) := rfl
    have hnamed : named arena (c :: cs) = (arena.nextWorld.word, c) ::
        named (arena.addChildInWords c.parent c.event a owner c.valuation) cs := by
      simp [named, placed, Arena.nextWorld]
    rw [List.mapM_cons, Building.exec_bind hfirst, Building.exec_bind ih, hnamed]
    rfl

theorem named_eq (h : arena.worlds.size + cs.length ≤ UInt32.size) :
    named arena cs = placed arena cs := by
  have hword : ∀ p ∈ placed arena cs, (p.1.word, p.2) = p := by
    intro p hp
    obtain ⟨i, hi, hindex⟩ := mem_placed.1 hp
    have hlt : i < cs.length := (List.getElem?_eq_some_iff.1 hi).1
    have hfits : p.1.index < UInt32.size := by
      rw [hindex]
      exact Nat.lt_of_lt_of_le (Nat.add_lt_add_left hlt _) h
    rw [Handle.word_eq hfits]
  exact (List.map_congr_left hword).trans (List.map_id _)

/-- As long as there are words for all worlds and edges, it does not matter that handles are
words. -/
theorem growInWords_eq (hworlds : arena.worlds.size + cs.length ≤ UInt32.size)
    (hedges : arena.edges.size + cs.length ≤ UInt32.size) :
    growInWords arena owner a cs = grow arena owner a cs := by
  induction cs generalizing arena with
  | nil => rfl
  | cons c cs ih =>
    rw [List.length_cons] at hworlds hedges
    change growInWords (arena.addChildInWords _ _ _ _ _) owner a cs =
      grow (arena.addChild _ _ _ _ _) owner a cs
    rw [Arena.addChildInWords_eq (by omega) (by omega)]
    refine ih ?_ ?_
    · rw [Arena.size_worlds_addChild]
      omega
    · rw [Arena.size_edges_addChild]
      omega

/-! ### Linking -/

theorem mem_of_mem_withLater {α : Type} {l : List α} {x y : α} (h : (x, y) ∈ withLater l) :
    x ∈ l ∧ y ∈ l := by
  induction l with
  | nil => cases h
  | cons z l ih =>
    rcases List.mem_append.1 h with h | h
    · obtain ⟨_, hy, heq⟩ := List.mem_map.1 h
      cases heq
      exact ⟨List.mem_cons_self, List.mem_cons_of_mem _ hy⟩
    · exact ⟨List.mem_cons_of_mem _ (ih h).1, List.mem_cons_of_mem _ (ih h).2⟩

/-- Two elements of a list are the same, or one comes later than the other. -/
theorem withLater_total {α : Type} {l : List α} {x y : α} (hx : x ∈ l) (hy : y ∈ l) :
    x = y ∨ (x, y) ∈ withLater l ∨ (y, x) ∈ withLater l := by
  have hhead : ∀ {z w : α} {l : List α}, w ∈ l → (z, w) ∈ withLater (z :: l) := fun hw =>
    List.mem_append_left _ (List.mem_map_of_mem hw)
  induction l with
  | nil => cases hx
  | cons z l ih =>
    rcases List.mem_cons.1 hx with rfl | hxl <;> rcases List.mem_cons.1 hy with rfl | hyl
    · exact Or.inl rfl
    · exact Or.inr (Or.inl (hhead hyl))
    · exact Or.inr (Or.inr (hhead hxl))
    · exact (ih hxl hyl).imp_right (Or.imp (List.mem_append_right _) (List.mem_append_right _))

/-- The links that the steps add: of each agent, between new worlds it cannot tell apart. -/
def Linking (worlds : List (WorldId × Candidate)) (nears : List (Agent × Near)) (agent : Agent)
    (l : Link .world) : Prop :=
  ∃ an ∈ nears, ∃ pq ∈ withLater worlds,
    agent = an.1 ∧ an.2.relates pq.1.2 pq.2.2 = true ∧ l = .of pq.1.1 pq.2.1

theorem gains_linkPair {r : Accessibility .world} {as : List Agent} {ns : List WorldId}
    {near : Near} {p q : WorldId × Candidate} (hr : r.Settled as ns) (ha : agent ∈ as)
    (hp : p.1 ∈ ns) (hq : q.1 ∈ ns) :
    ∃ r', linkPair agent near r (p, q) = .ok r' ∧ r.Gains r' fun b l =>
      b = agent ∧ near.relates p.2 q.2 = true ∧ l = .of p.1 q.1 := by
  unfold linkPair
  by_cases hrelates : near.relates p.2 q.2 = true
  · obtain ⟨r', hadd, hgains⟩ := hr.gains_addLink ha hp hq
    exact ⟨r', by rw [if_pos hrelates, hadd], hgains.congr fun _ _ => by simp [hrelates]⟩
  · exact ⟨r, if_neg hrelates, (Accessibility.Gains.refl r).congr fun _ _ => by simp [hrelates]⟩

theorem gains_linkAll {r : Accessibility .world} {as : List Agent}
    {worlds : List (WorldId × Candidate)} {nears : List (Agent × Near)}
    (hr : r.Settled as (worlds.map Prod.fst)) (hnears : ∀ an ∈ nears, an.1 ∈ as) :
    ∃ r', linkAll worlds nears r = .ok r' ∧ r.Gains r' (Linking worlds nears) := by
  refine hr.gains_foldlM fun an han r hr => ?_
  refine hr.gains_foldlM fun pq hpq r hr => ?_
  have hmem := mem_of_mem_withLater hpq
  exact gains_linkPair hr (hnears an han) (List.mem_map_of_mem hmem.1) (List.mem_map_of_mem hmem.2)

/-! ### The state made of the parts -/

variable {nears : List (Agent × Near)}

theorem mem_shared : agent ∈ shared state action ↔
    state.relation.hasAgent agent = true ∧ action.relation.hasAgent agent = true := by
  rw [shared, List.mem_filter]
  exact and_congr_left fun _ => Accessibility.mem_agents

theorem snd_mem_of_placed {p : WorldId × Candidate} (hp : p ∈ placed arena cs) : p.2 ∈ cs := by
  obtain ⟨i, hi, _⟩ := mem_placed.1 hp
  exact List.mem_of_getElem? hi

/-- What the steps link cannot be told apart. -/
theorem joined_of_linking {l : Link .world}
    (hlooked : Looked state action cs (shared state action) nears)
    (h : Linking (placed arena cs) nears agent l) :
    agent ∈ shared state action ∧ ∃ p ∈ placed arena cs, ∃ q ∈ placed arena cs, l = .of p.1 q.1 ∧
      ReflTransGen (state.relation.Adjacent agent) p.2.parent q.2.parent ∧
      ReflTransGen (action.relation.Adjacent agent) p.2.event q.2.event := by
  obtain ⟨an, han, ⟨p, q⟩, hpq, rfl, hrelates, rfl⟩ := h
  obtain ⟨hp, hq⟩ := mem_of_mem_withLater hpq
  exact ⟨hlooked.agents ▸ List.mem_map_of_mem han, p, hp, q, hq, rfl,
    (hlooked.relates an han p.2 (snd_mem_of_placed hp) q.2).1 hrelates⟩

/-- Two worlds that cannot be told apart are linked by the steps. -/
theorem linking_of_joined (hlooked : Looked state action cs (shared state action) nears)
    (hagent : agent ∈ shared state action) {p q : WorldId × Candidate}
    (hp : p ∈ placed arena cs) (hq : q ∈ placed arena cs) (hne : p ≠ q)
    (hpar : ReflTransGen (state.relation.Adjacent agent) p.2.parent q.2.parent)
    (hev : ReflTransGen (action.relation.Adjacent agent) p.2.event q.2.event) :
    Linking (placed arena cs) nears agent (.of p.1 q.1) := by
  rw [← hlooked.agents] at hagent
  obtain ⟨an, han, rfl⟩ := List.mem_map.1 hagent
  -- the pair is visited in the order of the list, and the link has no direction
  rcases (withLater_total hp hq).resolve_left hne with hpq | hqp
  · have hrelates := (hlooked.relates an han p.2 (snd_mem_of_placed hp) q.2).2 ⟨hpar, hev⟩
    exact ⟨an, han, (p, q), hpq, rfl, hrelates, rfl⟩
  · have hrelates := (hlooked.relates an han q.2 (snd_mem_of_placed hq) p.2).2
      ⟨Accessibility.joined_symm hpar, Accessibility.joined_symm hev⟩
    exact ⟨an, han, (q, p), hqp, rfl, hrelates, Link.of_comm _ _⟩

/-- The next state links each world to itself, and what the steps link. -/
theorem adjacent_next_iff_linking
    (hlooked : Looked state action cs (shared state action) nears) {x y : WorldId} :
    (next arena state action cs).relation.Adjacent agent x y ↔
      (state.relation.hasAgent agent = true ∧ x = y ∧ x ∈ (placed arena cs).map Prod.fst) ∨
        Linking (placed arena cs) nears agent (.of x y) := by
  constructor
  · intro h
    have hs := (adjacent_next.1 h).1
    cases ha : action.relation.hasAgent agent with
    | true =>
      obtain ⟨p, hp, q, hq, rfl, rfl, hpar, hev⟩ := (adjacent_next_shared hs ha).1 h
      by_cases hpq : p = q
      · exact Or.inl ⟨hs, congrArg Prod.fst hpq, List.mem_map_of_mem hp⟩
      · exact Or.inr (linking_of_joined hlooked (mem_shared.2 ⟨hs, ha⟩) hp hq hpq hpar hev)
    | false =>
      obtain ⟨rfl, p, hp, rfl⟩ := (adjacent_next_alone hs ha).1 h
      exact Or.inl ⟨hs, rfl, List.mem_map_of_mem hp⟩
  · rintro (⟨hs, rfl, hx⟩ | h)
    · exact wellFormed_next.loops agent (hasAgent_next.trans hs) x hx
    · obtain ⟨hagent, p, hp, q, hq, hl, hjoin⟩ := joined_of_linking hlooked h
      obtain ⟨hs, ha⟩ := mem_shared.1 hagent
      have hadjacent : (next arena state action cs).relation.Adjacent agent p.1 q.1 :=
        (adjacent_next_shared hs ha).2 ⟨p, hp, q, hq, rfl, rfl, hjoin⟩
      rcases Link.of_eq_of_iff.1 hl with ⟨rfl, rfl⟩ | ⟨rfl, rfl⟩
      · exact hadjacent
      · exact hadjacent.symm

/-- The linked relation is the one of the next state. -/
theorem eq_relation_next {r : Accessibility .world}
    (hlooked : Looked state action cs (shared state action) nears)
    (hgains : (state.relation.copyEmpty ((placed arena cs).map Prod.fst)).Gains r
      (Linking (placed arena cs) nears)) : r = (next arena state action cs).relation := by
  refine Accessibility.eq_of_adjacent ?_ ?_ (fun agent => ?_) fun agent x y => ?_
  · rw [hgains.nodes, Accessibility.copyEmpty, Accessibility.discrete,
      Accessibility.nodes_foldl_addAgent]
    rfl
  · rw [hgains.cuts, Accessibility.copyEmpty, Accessibility.discrete,
      Accessibility.cuts_foldl_addAgent]
    rfl
  · rw [hgains.hasAgent, hasAgent_next, Bool.eq_iff_iff, Accessibility.copyEmpty,
      Accessibility.hasAgent_discrete, Accessibility.mem_agents]
  · rw [hgains.adjacent, Accessibility.copyEmpty, Accessibility.adjacent_discrete,
      Accessibility.mem_agents, adjacent_next_iff_linking hlooked]

/-- Lookups and links do not fail, whatever the candidates are and however many words are left. What
the steps end with is for the check of the parts to say. -/
theorem exists_exec_build : ∃ nears r, Looked state action cs (shared state action) nears ∧
    (state.relation.copyEmpty ((named arena cs).map Prod.fst)).Gains r
      (Linking (named arena cs) nears) ∧
    (build state action a cs).exec arena =
      ((State.ofParts ((named arena cs).map Prod.fst)
          (SortedSet.ofList (((named arena cs).filter fun p => p.2.designated).map Prod.fst))
          r).mapError .validation,
        growInWords arena action.owner a cs) := by
  obtain ⟨nears, hnears, hlooked⟩ : ∃ nears,
      (shared state action).mapM (Near.lookAll state action cs) = .ok nears ∧
        Looked state action cs (shared state action) nears :=
    exists_looked fun agent hagent => mem_shared.1 hagent
  have hagents : ∀ an ∈ nears, an.1 ∈ state.relation.agents.toList := by
    intro an han
    have hshared : an.1 ∈ shared state action := hlooked.agents ▸ List.mem_map_of_mem han
    exact Accessibility.mem_agents.2 (mem_shared.1 hshared).1
  have hsettled : (state.relation.copyEmpty ((named arena cs).map Prod.fst)).Settled
      state.relation.agents.toList ((named arena cs).map Prod.fst) :=
    Accessibility.settled_discrete
  obtain ⟨r, hlink, hgains⟩ := gains_linkAll hsettled hagents
  refine ⟨nears, r, hlooked, hgains, ?_⟩
  unfold build
  rw [Building.exec_bind (Building.exec_ofExcept hnears), Building.exec_bind exec_mapM_allocate]
  dsimp only
  rw [Building.exec_bind (Building.exec_ofExcept hlink)]
  rfl

/-- As long as there are words for all worlds and edges, what is built is the next state. -/
theorem exec_build (hworlds : arena.worlds.size + cs.length ≤ UInt32.size)
    (hedges : arena.edges.size + cs.length ≤ UInt32.size) :
    (build state action a cs).exec arena =
      (.ok (next arena state action cs), grow arena action.owner a cs) := by
  obtain ⟨nears, r, hlooked, hgains, hbuild⟩ := @exists_exec_build arena state action cs a
  rw [named_eq hworlds] at hgains hbuild
  have hparts : State.ofParts ((placed arena cs).map Prod.fst)
      (SortedSet.ofList (((placed arena cs).filter fun p => p.2.designated).map Prod.fst)) r =
        .ok (next arena state action cs) := by
    rw [State.ofParts, eq_relation_next hlooked hgains]
    exact congrArg (Except.mapError _) wellFormed_next.ofParts_eq
  rw [hbuild, hparts, growInWords_eq hworlds hedges]
  rfl

/-- When two of the new worlds share a handle, the check of the parts fails, and the worlds stay
behind. -/
theorem exec_build_shared (h : ¬((named arena cs).map Prod.fst).Nodup) :
    (build state action a cs).exec arena =
      (.error (.validation (.malformedState (.shape .duplicateNode))),
        growInWords arena action.owner a cs) := by
  obtain ⟨nears, r, _, _, hbuild⟩ := @exists_exec_build arena state action cs a
  rw [hbuild, State.ofParts, PointedModel.ofParts, if_neg h]
  rfl

theorem exec_map_build {result : Except PlanError State} {arena' : Arena}
    (h : (build state action a cs).exec arena = (result, arena')) :
    (some <$> build state action a cs).exec arena = (result.map some, arena') := by
  rw [map_eq_pure_bind]
  cases result with
  | ok next' =>
    rw [Building.exec_bind h]
    rfl
  | error e =>
    unfold Building.exec at *
    rw [ExceptT.run_bind, StateT.run_bind, h]
    rfl

/-! ### Updates -/

variable {t : PlanningTask}

/-- An update has no result and leaves the arena alone, or it has made the worlds of candidates. Made
step by step it does the same, up to how the state of the candidates is built. -/
theorem run_apply_cases (arena : Arena) (state : State) (a : ActionId) (m : Memo t.outcome) :
    (∃ (result : Except ModelError (Option State)) (m' : Memo t.outcome),
      (∀ next', result ≠ .ok (some next')) ∧
        (apply arena state a).run m = ((result, arena), m') ∧
        (applyInSteps arena state a).run m = ((result.mapError .model, arena), m')) ∨
    ∃ (action : Action) (cs : List Candidate) (m' : Memo t.outcome),
      t.action? a = some action ∧ cs.any Candidate.designated = true ∧
        (apply arena state a).run m =
          ((.ok (some (next arena state action cs)), grow arena action.owner a cs), m') ∧
        (applyInSteps arena state a).run m = ((some <$> build state action a cs).exec arena, m') := by
  cases hact : t.action? a with
  | none =>
    refine Or.inl ⟨.error (.actionNotFound a), m, (fun _ h => nomatch h), ?_, ?_⟩
    · unfold apply
      rw [hact]
      rfl
    · unfold applyInSteps
      rw [hact]
      rfl
  | some action =>
    unfold apply applyInSteps
    rw [hact]
    dsimp only
    rw [Consult.run_bind, Consult.run_bind]
    generalize (candidates (t := t) arena state action a (pairs state action)).run.run m = asked
    obtain ⟨answer, m'⟩ := asked
    cases answer with
    | error e => exact Or.inl ⟨.error e, m', (fun _ h => nomatch h), rfl, rfl⟩
    | ok cs =>
      dsimp only
      by_cases hany : cs.any Candidate.designated = true
      · rw [if_pos hany, if_pos hany]
        exact Or.inr ⟨action, cs, m', rfl, hany, rfl, rfl⟩
      · rw [if_neg hany, if_neg hany]
        exact Or.inl ⟨.ok none, m', (fun _ h => nomatch h), rfl, rfl⟩

theorem exists_exec_map_build : ∃ result,
    (some <$> build state action a cs).exec arena =
      (result, growInWords arena action.owner a cs) := by
  obtain ⟨_, _, _, _, hbuild⟩ := @exists_exec_build arena state action cs a
  exact ⟨_, exec_map_build hbuild⟩

/-- However many words are left, an update adds as many worlds and edges as it would if handles
never ran out. -/
theorem size_arena_applyInSteps {m : Memo t.outcome} :
    ((applyInSteps arena state a).run m).1.2.worlds.size =
        ((apply arena state a).run m).1.2.worlds.size ∧
      ((applyInSteps arena state a).run m).1.2.edges.size =
        ((apply arena state a).run m).1.2.edges.size := by
  rcases run_apply_cases arena state a m with ⟨_, _, _, happly, hsteps⟩ |
    ⟨action, cs, _, _, _, happly, hsteps⟩
  · rw [happly, hsteps]
    exact ⟨rfl, rfl⟩
  · obtain ⟨_, hbuild⟩ := @exists_exec_map_build arena state action cs a
    rw [happly, hsteps, hbuild]
    simp

/-- An update adds as many edges as worlds, and at least one of each if it has a result. -/
theorem exists_size_arena_apply (arena : Arena) (state : State) (a : ActionId)
    (m : Memo t.outcome) :
    ∃ k, ((apply arena state a).run m).1.2.worlds.size = arena.worlds.size + k ∧
      ((apply arena state a).run m).1.2.edges.size = arena.edges.size + k ∧
      ∀ next', ((apply arena state a).run m).1.1 = .ok (some next') → 0 < k := by
  rcases run_apply_cases arena state a m with ⟨result, _, hno, happly, _⟩ |
    ⟨action, cs, _, _, hany, happly, _⟩
  · rw [happly]
    exact ⟨0, rfl, rfl, fun next' heq => absurd heq (hno next')⟩
  · rw [happly]
    refine ⟨cs.length, size_worlds_grow, size_edges_grow, fun _ _ => ?_⟩
    obtain ⟨c, hc, _⟩ := List.any_eq_true.1 hany
    exact List.length_pos_of_mem hc

/-- As long as every world and every edge has a word for itself, an update made step by step comes
to the same. -/
theorem run_applyInSteps {m : Memo t.outcome}
    (h : ((applyInSteps arena state a).run m).1.2.Numbered) :
    (applyInSteps arena state a).run m =
      ((((apply arena state a).run m).1.1.mapError .model, ((apply arena state a).run m).1.2),
        ((apply arena state a).run m).2) := by
  rcases run_apply_cases arena state a m with ⟨_, _, _, happly, hsteps⟩ |
    ⟨action, cs, _, _, _, happly, hsteps⟩
  · rw [happly, hsteps]
  · obtain ⟨_, hbuild⟩ := @exists_exec_map_build arena state action cs a
    rw [hsteps, hbuild] at h
    have hworlds := size_worlds_growInWords ▸ h.worlds
    have hedges := size_edges_growInWords ▸ h.edges
    rw [happly, hsteps, exec_map_build (exec_build hworlds hedges)]
    rfl

end Update

end EpistemicPlanning
