import EpistemicPlanning.Proofs.Planning.Room
import EpistemicPlanning.Proofs.Planning.Words

/-!
# The limit on nodes

The tree of a run never outgrows the tree of all actions at the greatest depth
(`Run.Visited.size_le_unfoldTo`), so that a limit on nodes that is high enough is never met. A lower
limit is met exactly when the run without it would have more nodes at some point; otherwise the limit
makes no difference (`Planner.node_limit_exact`). This holds as long as words for worlds do not run
out in the run without the limit: if they do, a limit may well matter that no tree ever exceeds
(`Crowd.limit_matters`). That a plan has no more nodes than the limit allows holds in any case.
-/
namespace EpistemicPlanning

open SearchTree

variable {t : PlanningTask} {c : PlannerConfig} {p q : Planner} {r r' r₀ : Run} {f g h : SearchTree}
variable {d D rounds : Nat}

/-! ### The greatest size -/

namespace Run

open Planning

theorem AtLevel.size_le (hacc : t.Accepted) (hr : r.AtLevel t d h) (hle : d ≤ D)
    (hg : t.unfoldTo D = .ok g) : r.tree.size ≤ g.size := by
  rw [hr.sameShape.size]
  exact (PlanningTask.extends_of_unfoldTo hacc hr.unfolds hle hg).1.size

theorem AtRound.limit_le (hr : r.AtRound t c) : r.limit ≤ c.maxDepth := by
  cases hr with
  | initial => exact Nat.le_refl _
  | raised _ _ _ _ hlimit => exact hlimit

theorem Growing.limit_le (hacc : t.Accepted) (hr : r.Growing t c) : r.limit ≤ c.maxDepth := by
  induction hr with
  | begun hr => exact hr.limit_le
  | level h hgrow hexec ih =>
    obtain ⟨d, f, hlevel⟩ := h.atLevel hacc
    have hd := ((hlevel.mayGrow_iff hacc).1 hgrow).2
    exact Nat.le_trans (atLevel_of_growLevel hacc hlevel hd hexec).2 ih

/-- The whole frontier of a run for a closed task can be expanded. -/
theorem Growing.exists_expandAll (hacc : t.Accepted) (hclosed : t.Closed) (hr : r.Growing t c)
    (hgrow : r.mayGrow = true) (hg : t.unfoldTo c.maxDepth = .ok g) :
    ∃ f, r.tree.expandAll t r.frontier = .ok f ∧ f.size ≤ g.size := by
  obtain ⟨d, h, hlevel⟩ := hr.atLevel hacc
  have hd := ((hlevel.mayGrow_iff hacc).1 hgrow).2
  obtain ⟨h', hh'⟩ := hclosed.succeeds_unfoldTo hacc (d + 1)
  have hexp : h.expandAll t (h.level d) = .ok h' := by
    rw [PlanningTask.unfoldTo, hlevel.unfolds] at hh'
    exact hh'
  obtain ⟨f, hf, hsame⟩ := expandAll_congr hlevel.tree.symm hexp
  rw [← hlevel.frontier] at hf
  refine ⟨f, hf, ?_⟩
  rw [← (sameShape_of_uncosted hsame).size]
  exact (PlanningTask.extends_of_unfoldTo hacc hh'
    (Nat.lt_of_lt_of_le hd (hr.limit_le hacc)) hg).1.size

/-- The tree of a run has at most the nodes of the tree of all actions. -/
theorem Visited.size_le_unfoldTo (hacc : t.Accepted) (hclosed : t.Closed) (hr : r.Visited t c)
    (hg : t.unfoldTo c.maxDepth = .ok g) : r.tree.size ≤ g.size := by
  cases hr with
  | reachable hr =>
    cases hr with
    | atRound hr =>
      obtain ⟨d, h, hlevel⟩ := hr.atLevel hacc
      exact hlevel.size_le hacc (Nat.le_trans hlevel.bound hr.limit_le) hg
    | growing hr =>
      obtain ⟨d, h, hlevel⟩ := hr.atLevel hacc
      exact hlevel.size_le hacc (Nat.le_trans hlevel.bound (hr.limit_le hacc)) hg
    | expanding h hgrow hsplit hexec =>
      obtain ⟨f, hall, hle⟩ := h.exists_expandAll hacc hclosed hgrow hg
      obtain ⟨hexp, _⟩ := h.expanded_of_exec hacc hsplit hexec
      rw [hsplit, expandAll, List.foldlM_append] at hall
      obtain ⟨f₁, hfirst, hrest⟩ := Fallible.bind_eq_ok hall
      obtain rfl := Except.ok.inj (hfirst.symm.trans hexp)
      exact Nat.le_trans (size_le_of_expandAll hrest) hle
    | settled h hround =>
      have hafter := h.after hacc hround
      obtain ⟨_, hlevel⟩ := hafter.level
      exact hlevel.size_le hacc hafter.bound hg
  | trying h hgrow hsplit hexpanded hactions htried =>
    obtain ⟨f, hall, hle⟩ := h.exists_expandAll hacc hclosed hgrow hg
    obtain ⟨hexp, _⟩ := h.expanded_of_exec hacc hsplit hexpanded
    obtain ⟨_, _, hsprout, _⟩ := h.sprouted_of_exec hacc hgrow hsplit hexpanded hactions htried
    rw [hsplit, expandAll, List.foldlM_append] at hall
    obtain ⟨f₁, hfirst, hrest⟩ := Fallible.bind_eq_ok hall
    obtain rfl := Except.ok.inj (hfirst.symm.trans hexp)
    rw [List.foldlM_cons, expanded, hactions, List.foldlM_append] at hrest
    obtain ⟨f₂, hnode, hlater⟩ := Fallible.bind_eq_ok hrest
    obtain ⟨f₃, hbefore, hafter⟩ := Fallible.bind_eq_ok hnode
    obtain rfl := Except.ok.inj (hbefore.symm.trans hsprout)
    calc _
      _ ≤ f₂.size := size_le_of_sproutAll hafter
      _ ≤ f.size := size_le_of_expandAll hlater
      _ ≤ g.size := hle

end Run

/-! ### The end of planning -/

namespace Run.Deepened

open Planning

variable {result : Except PlanError Unit}

/-- When there is no room for a node, the limit is that of the planner. -/
theorem limit_of_tooManyNodes {most count : Nat} (hacc : t.Accepted)
    (h : Deepened t c rounds r result r') (hr : r.AtRound t c)
    (hfull : result = .error (.planning (.tooManyNodes most count))) : most = c.maxNodes := by
  induction h with
  | exhausted => cases hfull
  | broken hround =>
    cases hfull
    obtain ⟨d, f, hlevel⟩ := hr.atLevel hacc
    cases broken_of_exec_round hacc hlevel hround with
    | growing _ _ _ hmishap =>
      cases hmishap
      rfl
  | settled _ _ => cases hfull
  | stranded _ _ _ => cases hfull
  | bounded _ _ _ => cases hfull
  | raised hround hopen hfrontier hlimit _ ih =>
    exact ih (.raised hr hround hopen hfrontier hlimit) hfull

/-- Unless there is no room for a node, deepening ends with a tree that has been visited. -/
theorem exists_visited (hacc : t.Accepted) (hclosed : t.Closed)
    (h : Deepened t c rounds r result r') (hr : r.AtRound t c)
    (hroom : ∀ most count, result ≠ .error (.planning (.tooManyNodes most count))) :
    ∃ r₁ : Run, r₁.Visited t c ∧ r₁.iterations ≤ r.iterations + rounds ∧ r₁.tree = r'.tree := by
  have hround : ∀ {r r' : Run} {rounds : Nat}, r.AtRound t c →
      exec (round (t := t) c) r = (.ok ⟨⟩, r') →
      ∃ r₁ : Run, r₁.Visited t c ∧ r₁.iterations ≤ r.iterations + (rounds + 1) ∧
        r₁.tree = r'.tree := by
    intro r r' rounds hr hround
    obtain ⟨d, f, hlevel⟩ := hr.atLevel hacc
    obtain ⟨_, _, _, hcount⟩ := fullTree_of_exec_round hacc hlevel hround
    exact ⟨r', .reachable (.settled hr hround), by omega, rfl⟩
  induction h with
  | exhausted => exact ⟨_, .reachable (.atRound hr), Nat.le_refl _, rfl⟩
  | broken hfail =>
    obtain ⟨d, f, hlevel⟩ := hr.atLevel hacc
    obtain ⟨most, count, rfl⟩ :=
      (broken_of_exec_round hacc hlevel hfail).crowded_of_closed hacc hclosed
    exact absurd rfl (hroom most count)
  | settled hok _ => exact hround hr hok
  | stranded hok _ _ => exact hround hr hok
  | bounded hok _ _ => exact hround hr hok
  | @raised rounds r r₁ r' result hok hopen hfrontier hlimit _ ih =>
    obtain ⟨d, f, hlevel⟩ := hr.atLevel hacc
    obtain ⟨_, _, _, hcount⟩ := fullTree_of_exec_round hacc hlevel hok
    obtain ⟨r₂, hvisited, hle, htree⟩ := ih (.raised hr hok hopen hfrontier hlimit) hroom
    have hle' : r₂.iterations ≤ r₁.iterations + rounds := hle
    exact ⟨r₂, hvisited, by omega, htree⟩

end Run.Deepened

namespace Planner

open Planning

/-- Two planners differ in their limit on nodes alone. -/
structure Resembles (p q : Planner) : Prop where
  depth : p.config.maxDepth = q.config.maxDepth
  iterations : p.config.maxIterations = q.config.maxIterations

theorem Resembles.eq (h : q.Resembles p) (hnodes : q.config.maxNodes = p.config.maxNodes) :
    q = p := by
  obtain ⟨⟨_, _, _⟩, _⟩ := p
  obtain ⟨⟨_, _, _⟩, _⟩ := q
  obtain ⟨hdepth, hiterations⟩ := h
  simp_all

/-- Planning does not fail for lack of room for a node: the limit on nodes might as well not be
there. -/
def Unhindered (p : Planner) (t : PlanningTask) : Prop :=
  ∀ most count, p.planInWords t ≠ .error (.planning (.tooManyNodes most count))

/-- Planning would not fail for lack of room for a node if handles never ran out. -/
def FindsRoom (p : Planner) (t : PlanningTask) : Prop :=
  ∀ most count, p.plan t ≠ .error (.planning (.tooManyNodes most count))

/-- At some point of planning, the tree has more nodes than a given number. -/
def Exceeds (p : Planner) (t : PlanningTask) (size : Nat) : Prop :=
  ∃ r : Run, r.Visited t p.config ∧ r.iterations ≤ p.config.maxIterations ∧ size < r.tree.size

/-- A planner that has room for one more node. -/
def roomier (p : Planner) : Planner where
  config := { p.config with maxNodes := p.config.maxNodes + 1 }
  positive := by
    have hpositive := p.positive
    unfold PlannerConfig.zeroBound? at *
    grind

theorem widens_roomier : p.config.Widens p.roomier.config := ⟨rfl, rfl, Nat.lt_succ_self _⟩

/-- Visited runs have no more nodes than the last one. -/
theorem lt_size_last_of_exceeds (hacc : t.Accepted) {size : Nat} (h : p.Exceeds t size) :
    size < (p.last t).tree.size := by
  obtain ⟨r, hvisited, hrounds, hlt⟩ := h
  rw [last_eq_deepen]
  exact Nat.lt_of_lt_of_le hlt (hvisited.noLarger hacc hrounds).nodes

theorem plan_of_deepen_error {e : PlanError}
    (h : exec (deepen (t := t) p.config p.config.maxIterations) (.initial t p.config) =
      (.error e, r)) : p.plan t = .error e := by
  change (exec (Planning.tree (t := t) p.config) (.initial t p.config)).1.map _ = _
  rw [tree_eq, exec_bind, h]
  rfl

/-- When the limit on nodes has not been met, the last tree has been visited. -/
theorem exceeds_of_lt_size_last (hacc : t.Accepted) (hclosed : t.Closed) (h : p.FindsRoom t)
    {size : Nat} (hlt : size < (p.last t).tree.size) : p.Exceeds t size := by
  rw [last_eq_deepen] at hlt
  cases hexec : exec (deepen (t := t) p.config p.config.maxIterations) (.initial t p.config) with
  | mk result r =>
    rw [hexec] at hlt
    have hroom : ∀ most count, result ≠ .error (.planning (.tooManyNodes most count)) := by
      rintro most count rfl
      exact h most count (plan_of_deepen_error hexec)
    obtain ⟨r₁, hvisited, hrounds, htree⟩ :=
      (Run.deepened_of_exec hexec).exists_visited hacc hclosed .initial hroom
    refine ⟨r₁, hvisited, ?_, htree ▸ hlt⟩
    exact Nat.le_trans hrounds (Nat.le_of_eq (Nat.zero_add _))

theorem size_last_le : (p.last t).tree.size ≤ p.config.maxNodes := confined_tree p.bounds_pos.2.2

/-! ### Two limits -/

/-- Planning ends for lack of room, with as many nodes as the limit allows. -/
structure Crowded (p : Planner) (t : PlanningTask) : Prop where
  plan : p.plan t = .error (.planning (.tooManyNodes p.config.maxNodes (p.config.maxNodes + 1)))
  visited : (p.last t).Visited t p.config
  size : (p.last t).tree.size = p.config.maxNodes

/-- Planning ends alike under both limits, with no more nodes than the limit of the first. -/
structure Alike (p q : Planner) (t : PlanningTask) : Prop where
  run : p.run t = q.run t
  last : p.last t = q.last t
  size : (p.last t).tree.size ≤ p.config.maxNodes

theorem last_of_trace {memo : Memo t.outcome} {result : Except PlanError SearchTree}
    (h : trace (Planning.tree (t := t) p.config) (.initial t p.config) ∅ = ((result, r), memo)) :
    p.last t = r :=
  congrArg Prod.snd (exec_of_trace h)

/-- The limit that a failure names is that of the planner. -/
theorem limit_of_plan {most count : Nat} (hacc : t.Accepted)
    (h : p.plan t = .error (.planning (.tooManyNodes most count))) :
    most = p.config.maxNodes := by
  have hended := ended t p
  rw [h] at hended
  cases hended with
  | failed hdeepened => exact hdeepened.limit_of_tooManyNodes hacc .initial rfl

variable (hacc : t.Accepted) (hfresh : t.arena.Fresh) (hclosed : t.Closed)
variable (hdes : ∃ w, w ∈ t.initial.designated)

include hacc hfresh hclosed hdes

/-- Under a higher limit on nodes, planning ends alike or has more nodes in the end. -/
theorem alike_or_crowded (hw : p.config.Widens q.config) :
    p.Alike q t ∨ p.Crowded t ∧ p.config.maxNodes < (q.last t).tree.size ∧
      (p.last t).tree.NoLarger (q.last t).tree := by
  have hcapped := capped_tree hacc hfresh hclosed hdes hw p.bounds_pos.2.2 ∅
  have hinitial : Run.initial t p.config = .initial t q.config := by
    unfold Run.initial
    rw [hw.depth]
  cases hp : trace (Planning.tree (t := t) p.config) (.initial t p.config) ∅ with
  | mk pair memo =>
    obtain ⟨result, r⟩ := pair
    cases hq : trace (Planning.tree (t := t) q.config) (.initial t q.config) ∅ with
    | mk pair' memo' =>
      obtain ⟨result', r'⟩ := pair'
      rw [hp, hinitial, hq] at hcapped
      cases hcapped with
      | alike hsize =>
        refine Or.inl ⟨(run_eq_report hp).trans (run_eq_report hq).symm,
          (last_of_trace hp).trans (last_of_trace hq).symm, ?_⟩
        rw [last_of_trace hp]
        exact hsize
      | full hvisited hsize hmore hless =>
        refine Or.inr ⟨⟨congrArg PlanOutcome.result (run_eq_report hp), ?_, ?_⟩, ?_, ?_⟩
        · rw [last_of_trace hp]
          exact hvisited
        · rw [last_of_trace hp]
          exact hsize
        · rw [last_of_trace hq]
          exact hmore
        · rw [last_of_trace hp, last_of_trace hq]
          exact hless

/-- A planner that fails for lack of room has filled its tree. -/
theorem crowded_of_not_findsRoom (h : ¬p.FindsRoom t) : p.Crowded t := by
  unfold FindsRoom at h
  push Not at h
  obtain ⟨most, count, hfail⟩ := h
  rcases alike_or_crowded hacc hfresh hclosed hdes p.widens_roomier with halike | ⟨hcrowded, _⟩
  · -- with room for one node more, it would fail at another limit
    have hfail' : p.roomier.plan t = .error (.planning (.tooManyNodes most count)) := by
      rw [← hfail]
      exact congrArg PlanOutcome.result halike.run.symm
    have hmost := limit_of_plan hacc hfail
    have hmost' : most = p.config.maxNodes + 1 := limit_of_plan hacc hfail'
    omega
  · exact hcrowded

/-! ### The limit -/

theorem crowded_of_exceeds (hq : q.Resembles p) (hexceeds : q.Exceeds t p.config.maxNodes) :
    p.Crowded t := by
  have hlt := lt_size_last_of_exceeds hacc hexceeds
  have hle := @size_last_le t q
  have hw : p.config.Widens q.config :=
    ⟨hq.depth, hq.iterations, Nat.lt_of_lt_of_le hlt hle⟩
  rcases alike_or_crowded hacc hfresh hclosed hdes hw with halike | ⟨hcrowded, _⟩
  · rw [← halike.last] at hlt
    exact absurd halike.size (Nat.not_le_of_lt hlt)
  · exact hcrowded

theorem run_of_not_exceeds (hq : q.Resembles p) (hroom : q.FindsRoom t)
    (hnot : ¬q.Exceeds t p.config.maxNodes) : p.run t = q.run t := by
  -- the planner with the lower limit is compared with the other
  rcases Nat.lt_trichotomy p.config.maxNodes q.config.maxNodes with hlt | heq | hgt
  · rcases alike_or_crowded hacc hfresh hclosed hdes ⟨hq.depth, hq.iterations, hlt⟩ with
      halike | ⟨_, hmore, _⟩
    · exact halike.run
    · exact absurd (exceeds_of_lt_size_last hacc hclosed hroom hmore) hnot
  · rw [hq.eq heq.symm]
  · rcases alike_or_crowded hacc hfresh hclosed hdes ⟨hq.depth.symm, hq.iterations.symm, hgt⟩ with
      halike | ⟨hcrowded, _⟩
    · exact halike.run.symm
    · exact absurd hcrowded.plan (hroom _ _)

/-- A run has a word left in the end if one without its limit on nodes has, or one that it does not
come up to. -/
theorem ample_of_resembles (hq : q.Resembles p)
    (hlimit : p.config.maxNodes < q.config.maxNodes ∨ q.FindsRoom t) (h : (q.last t).Ample) :
    (p.last t).Ample := by
  rcases Nat.lt_trichotomy p.config.maxNodes q.config.maxNodes with hlt | heq | hgt
  · rcases alike_or_crowded hacc hfresh hclosed hdes ⟨hq.depth, hq.iterations, hlt⟩ with
      halike | ⟨_, _, hless⟩
    · exact halike.last ▸ h
    · exact h.of_noLarger hless
  · exact hq.eq heq.symm ▸ h
  · have hroom := hlimit.resolve_left (Nat.not_lt_of_gt hgt)
    rcases alike_or_crowded hacc hfresh hclosed hdes ⟨hq.depth.symm, hq.iterations.symm, hgt⟩ with
      halike | ⟨hcrowded, _⟩
    · exact halike.last ▸ h
    · exact absurd hcrowded.plan (hroom _ _)

/-- What the limit on nodes does to planning, compared with a run that has a word left in the end. A
planner whose limit is not met stands for one that has none. -/
structure NodeLimitExact (t : PlanningTask) (p : Planner) : Prop where
  /-- A limit that is high enough is not met. -/
  unlimited : ∃ most, ∀ q : Planner, q.Resembles p → (q.lastInWords t).Ample →
    most ≤ q.config.maxNodes → q.Unhindered t
  /-- If there are more nodes at any point under a higher limit, or under none, planning fails at the
  first node that exceeds the limit. So many nodes have been made, and no worlds but theirs. -/
  exceeded : ∀ q : Planner, q.Resembles p → (q.lastInWords t).Ample →
    q.Exceeds t p.config.maxNodes →
      p.planInWords t =
          .error (.planning (.tooManyNodes p.config.maxNodes (p.config.maxNodes + 1))) ∧
        (p.lastInWords t).tree.size = p.config.maxNodes ∧
          ∀ w, w.index < (p.lastInWords t).tree.arena.worlds.size →
            w.index < t.arena.worlds.size ∨
              ∃ n, n.index < p.config.maxNodes ∧
                w ∈ ((p.lastInWords t).tree.node n).state.possible
  /-- Otherwise the limit makes no difference. -/
  kept : ∀ q : Planner, q.Resembles p → (q.lastInWords t).Ample → q.Unhindered t →
    ¬q.Exceeds t p.config.maxNodes → p.runInWords t = q.runInWords t
  size : ∀ g, p.planInWords t = .ok g → g.size ≤ p.config.maxNodes

theorem exists_findsRoom (p : Planner) :
    ∃ most, ∀ q : Planner, q.Resembles p → most ≤ q.config.maxNodes → q.FindsRoom t := by
  obtain ⟨g, hg⟩ := hclosed.succeeds_unfoldTo hacc p.config.maxDepth
  refine ⟨g.size + 1, fun q hq hmost => ?_⟩
  by_contra hhindered
  have hcrowded := crowded_of_not_findsRoom hacc hfresh hclosed hdes hhindered
  have hle := hcrowded.visited.size_le_unfoldTo hacc hclosed (hq.depth ▸ hg)
  rw [hcrowded.size] at hle
  omega

omit hacc hclosed hdes in
theorem unhindered_iff (hample : (q.lastInWords t).Ample) : q.Unhindered t ↔ q.FindsRoom t := by
  unfold Unhindered FindsRoom planInWords plan
  rw [runInWords_eq hfresh (Or.inl hample)]

/-- The limit on nodes is exact. -/
theorem node_limit_exact (p : Planner) : NodeLimitExact t p where
  unlimited := by
    obtain ⟨most, hmost⟩ := exists_findsRoom hacc hfresh hclosed hdes p
    exact ⟨most, fun q hq hample hle => (unhindered_iff hfresh hample).2 (hmost q hq hle)⟩
  exceeded q hq hample hexceeds := by
    have hlt : p.config.maxNodes < q.config.maxNodes :=
      Nat.lt_of_lt_of_le (lt_size_last_of_exceeds hacc hexceeds) size_last_le
    have hample' : (p.last t).Ample := ample_of_resembles hacc hfresh hclosed hdes hq (Or.inl hlt)
      (lastInWords_eq hfresh (Or.inl hample) ▸ hample)
    have hcrowded := crowded_of_exceeds hacc hfresh hclosed hdes hq hexceeds
    rw [lastInWords_eq hfresh (Or.inr hample')]
    refine ⟨?_, hcrowded.size, fun w hw => ?_⟩
    · rw [← hcrowded.plan]
      exact congrArg PlanOutcome.result (runInWords_eq hfresh (Or.inr hample'))
    · rw [← hcrowded.size]
      exact hcrowded.visited.owned hacc hfresh hw
  kept q hq hample hunhindered hnot := by
    have hroom := (unhindered_iff hfresh hample).1 hunhindered
    have hample' : (p.last t).Ample := ample_of_resembles hacc hfresh hclosed hdes hq
      (Or.inr hroom) (lastInWords_eq hfresh (Or.inl hample) ▸ hample)
    rw [runInWords_eq hfresh (Or.inl hample), runInWords_eq hfresh (Or.inr hample')]
    exact run_of_not_exceeds hacc hfresh hclosed hdes hq hroom hnot
  size _ h := size_planInWords_le h

end Planner

namespace Lever

theorem initial_designated : ∃ w, w ∈ task.initial.designated := ⟨world 1, by decide⟩

/-- A planner with no room for all nodes of the plan. -/
def cramped : Planner := ⟨{ planner.config with maxNodes := 3 }, rfl⟩

/-- A planner with just enough room. -/
def snug : Planner := ⟨{ planner.config with maxNodes := 7 }, rfl⟩

theorem findsRoom : planner.FindsRoom task := by
  intro most count hfail
  cases plan_eq.symm.trans hfail

theorem exceeds_three : planner.Exceeds task 3 :=
  Planner.exceeds_of_lt_size_last accepted closed findsRoom (by decide +kernel)

theorem not_exceeds_seven : ¬planner.Exceeds task 7 := fun h =>
  absurd (Planner.lt_size_last_of_exceeds accepted h) (by decide +kernel)

/-- The plan for the lever takes seven nodes: with a limit of three, planning fails at the fourth,
and with a limit of seven it ends as it does with a hundred. -/
theorem lever_limits :
    (planner.Unhindered task ∧ planner.Exceeds task 3 ∧ ¬planner.Exceeds task 7) ∧
      cramped.planInWords task = .error (.planning (.tooManyNodes 3 4)) ∧
        snug.runInWords task = planner.runInWords task := by
  have hunhindered : planner.Unhindered task := (Planner.unhindered_iff fresh ample).2 findsRoom
  exact ⟨⟨hunhindered, exceeds_three, not_exceeds_seven⟩,
    ((Planner.node_limit_exact accepted fresh closed initial_designated cramped).exceeded planner
      ⟨rfl, rfl⟩ ample exceeds_three).1,
    (Planner.node_limit_exact accepted fresh closed initial_designated snug).kept planner
      ⟨rfl, rfl⟩ ample hunhindered not_exceeds_seven⟩

end Lever

namespace Crowd

/-- A planner that has room for the root alone. -/
def single : Planner := ⟨{ maxNodes := 1 }, rfl⟩

/-- No tree of the crowd has a second node, and yet a limit of one node makes a difference: without
it, planning goes on to worlds that no state can be made of. -/
theorem limit_matters :
    (task.Accepted ∧ task.arena.Fresh ∧ task.Closed ∧ ∃ w, w ∈ task.initial.designated) ∧
      single.planInWords task = .error (.planning (.tooManyNodes 1 2)) ∧
        ∀ q : Planner, q.Resembles single → 1 < q.config.maxNodes →
          (q.lastInWords task).tree.size = 1 ∧
            q.planInWords task =
              .error (.validation (.malformedState (.shape .duplicateNode))) := by
  have hfull : single.config.maxNodes ≤ 1 := Nat.le_refl 1
  have hsingle := exec_treeInWords single
  rw [if_pos hfull] at hsingle
  refine ⟨⟨accepted, fresh, closed, ⟨0⟩, by decide⟩, Planner.planInWords_of_error hsingle,
    fun q _ hroom => ?_⟩
  obtain ⟨hplan, hlast⟩ := planInWords_of_room hroom
  rw [hlast]
  exact ⟨rfl, hplan⟩

end Crowd

end EpistemicPlanning
