import EpistemicPlanning.Proofs.Action
import EpistemicPlanning.Proofs.Task
import EpistemicPlanning.Proofs.Task.Reading
import EpistemicPlanning.Proofs.Text.Bytes
import EpistemicPlanning.Proofs.Update.Totality

/-!
# What a fingerprint tells

The bytes that a fingerprint is made of determine the outline of the task, provided that agents and
predicates are not called like the other things that are described
(`PlanningTask.eq_outline_of_encode`). Without this, tasks with different predicates can have the
same fingerprint (`Comma.same_bytes`).
-/
namespace EpistemicPlanning

open Outline

variable {t u : PlanningTask} {action : Action} {a : Agent}

/-- The names in a task can be told from the other texts of its description, and no text has a zero
byte of its own. -/
structure PlanningTask.Legible (t : PlanningTask) : Prop where
  terminated : ∀ x ∈ t.description, '\x00' ∉ x.toList
  predicates : ∀ w ∈ t.initial.possible, ∀ id ∈ (t.arena.world w).valuation.trueIds,
    (t.mention id).Legible
  agents : ∀ a ∈ t.agents, ¬Reserved a.name

theorem PointedModel.mem_agents_of_entries {kind : HandleKind} {m : PointedModel kind}
    {p : Agent × SortedSet (Link kind)} (hp : p ∈ m.relation.links.entries) : p.1 ∈ m.agents :=
  List.mem_map_of_mem hp

theorem Action.Declared.signature_legible (h : action.Declared)
    (hnames : ∀ a ∈ action.model.agents, ¬Reserved a.name) : action.signature.Legible := by
  have hlength : action.signature.events.length = action.events.length := by
    simp [signature, eventIds]
  refine ⟨fun hnil => ?_, fun hnil => ?_, fun p hp e => ?_, fun p hp => ?_⟩
  · rw [hnil] at hlength
    exact h.events_ne_nil (List.length_eq_zero_iff.1 hlength.symm)
  · obtain ⟨a, ha⟩ := h.exists_agent
    obtain ⟨ls, hls⟩ := Accessibility.hasAgent_iff.1 ha
    have hmem := SortedMap.find?_eq_some_iff.1 hls
    rw [show action.relation.links.entries = [] from hnil] at hmem
    cases hmem
  · obtain ⟨a, ls⟩ := p
    rw [hlength, h.wellFormed.loop_mem_iff hp, h.possible_eq]
    exact PlanningTask.mem_eventIds
  · exact hnames p.1 (PointedModel.mem_agents_of_entries hp)

namespace PlanningTask

theorem mention_legible (h : ∀ a ∈ t.predicates.atoms, a.Legible ∧ ¬Reserved a.text)
    (id : PredicateId) : (t.mention id).Legible := by
  unfold mention PredicateTable.ofId?
  cases hget : t.predicates.atoms[id.index]? with
  | none => exact .handle id
  | some a =>
    obtain ⟨ha, hname⟩ := h a (List.mem_of_getElem? hget)
    exact .atom ha hname

theorem mem_agents_of_initial (ha : a ∈ t.initial.agents) : a ∈ t.agents := by
  refine SortedSet.mem_union.2 (Or.inl (SortedSet.mem_ofList.2 ?_))
  exact List.mem_append_left _ ha

theorem mem_agents_of_action (hact : action ∈ t.actions) (ha : a ∈ action.model.agents) :
    a ∈ t.agents := by
  refine SortedSet.mem_union.2 (Or.inl (SortedSet.mem_ofList.2 ?_))
  exact List.mem_append_right _ (List.mem_flatMap.2 ⟨action, hact, ha⟩)

theorem Legible.outline (hacc : t.Accepted) (hdeclared : ∀ action ∈ t.actions, action.Declared)
    (h : t.Legible) : t.outline.Legible := by
  have hnil : t.outline.worlds = [] ↔ t.initial.possible = [] := List.map_eq_nil_iff
  refine ⟨fun p hp m hm => ?_, fun hworlds => ?_, fun hworlds p hp => ?_, fun p hp => ?_,
    fun s hs => ?_⟩
  · obtain ⟨w, hw, rfl⟩ := List.mem_map.1 hp
    obtain ⟨id, hid, rfl⟩ := List.mem_map.1 hm
    exact h.predicates w hw id hid
  · refine List.eq_nil_iff_forall_not_mem.2 fun w hw => ?_
    have hmem := hacc.wellFormed.designated_possible w hw
    rw [hnil.1 hworlds] at hmem
    cases hmem
  · obtain ⟨a, ls⟩ := p
    obtain ⟨w, hw⟩ := List.exists_mem_of_ne_nil _ (mt hnil.2 hworlds)
    exact List.ne_nil_of_mem ((hacc.wellFormed.loop_mem_iff hp).2 hw)
  · exact h.agents p.1 (mem_agents_of_initial (PointedModel.mem_agents_of_entries hp))
  · obtain ⟨action, hact, rfl⟩ := List.mem_map.1 hs
    exact (hdeclared action hact).signature_legible fun a ha =>
      h.agents a (mem_agents_of_action hact ha)

/-- Legible tasks are described by the same bytes only if they have the same outline. -/
theorem eq_outline_of_encode (hacc : t.Accepted) (hacc' : u.Accepted)
    (hdeclared : ∀ action ∈ t.actions, action.Declared)
    (hdeclared' : ∀ action ∈ u.actions, action.Declared) (ht : t.Legible) (hu : u.Legible)
    (h : encode t.description = encode u.description) : t.outline = u.outline := by
  have htexts := encode_injective ht.terminated hu.terminated h
  rw [description_eq_texts, description_eq_texts] at htexts
  exact texts_injective (ht.outline hacc hdeclared) (hu.outline hacc' hdeclared') htexts

end PlanningTask

namespace Lever

/-- The lever with a predicate that is nowhere true. -/
def spareTask : PlanningTask :=
  { task with predicates := predicates.add ⟨"at", ["p3"]⟩ }

theorem atoms_legible : ∀ a ∈ spareTask.predicates.atoms, a.Legible ∧ ¬Reserved a.text := by
  have hplain : ∀ a ∈ spareTask.predicates.atoms, '(' ∉ a.name.toList ∧
      (∀ s ∈ a.arguments, ¬[',', ' '] <:+: s.toList) ∧
        a.text.toList.head? ∉ [some 'w', some '#', some 'd'] ∧ '~' ∉ a.text.toList := by
    decide +kernel
  intro a ha
  obtain ⟨hname, harguments, hhead, htilde⟩ := hplain a ha
  exact ⟨⟨hname, harguments⟩, fun h => h.head_or_tilde.elim hhead htilde⟩

theorem agents_legible : ∀ a ∈ task.agents, ¬Reserved a.name := by
  have hplain : ∀ a ∈ task.agents, a.name.toList.head? ∉ [some 'w', some '#', some 'd'] ∧
      '~' ∉ a.name.toList := by decide +kernel
  intro a ha h
  exact h.head_or_tilde.elim (hplain a ha).1 (hplain a ha).2

theorem legible : task.Legible where
  terminated := by decide +kernel
  predicates _ _ id _ := PlanningTask.mention_legible
    (fun a ha => atoms_legible a (List.mem_append_left _ ha)) id
  agents := agents_legible

theorem spareTask_legible : spareTask.Legible where
  terminated := by decide +kernel
  predicates _ _ id _ := PlanningTask.mention_legible atoms_legible id
  agents := agents_legible

theorem spareTask_outline : PlanningTask.encode task.description =
    PlanningTask.encode spareTask.description ∧ task.outline = spareTask.outline := by
  have hdescription : task.description = spareTask.description := by decide +kernel
  have hbytes := congrArg PlanningTask.encode hdescription
  exact ⟨hbytes, PlanningTask.eq_outline_of_encode accepted ⟨accepted.wellFormed, rfl⟩
    closed.declared closed.declared legible spareTask_legible hbytes⟩

end Lever

namespace Comma

def world : WorldId := ⟨0⟩

def arena : Arena := Arena.empty.addWorld (.ofTrue [⟨⟨0⟩, ⟨"p", []⟩⟩])

def relation : Accessibility .world := Accessibility.discrete [⟨"a"⟩] [world]

def initial : State :=
  Fallible.get (State.ofParts [world] (SortedSet.singleton world) relation) (by decide)

theorem initial_eq :
    State.ofParts [world] (SortedSet.singleton world) relation = .ok initial :=
  Fallible.eq_ok_get _ _

/-- One world, in which a predicate of the given arguments is true. -/
def task (arguments : List String) : PlanningTask where
  predicates := ⟨[⟨"p", arguments⟩], List.nodup_singleton _⟩
  arena := arena
  initial := initial
  actions := []
  goal := .top

theorem accepted (arguments : List String) : (task arguments).Accepted where
  wellFormed := State.wellFormed_of_ofParts (.discrete _ _) initial_eq
  parts := rfl

theorem worlds_outline (arguments : List String) :
    (task arguments).outline.worlds = [(world, [.atom ⟨"p", arguments⟩])] := by
  have htrue : (arena.world world).valuation.trueIds = [⟨0⟩] := by decide +kernel
  change [(world, (arena.world world).valuation.trueIds.map _)] = _
  rw [htrue]
  rfl

/-- Two arguments are described like one that has a comma and a blank in it. -/
theorem same_bytes : ¬∀ t u : PlanningTask, t.Accepted → u.Accepted →
    (∀ action ∈ t.actions, action.Declared) → (∀ action ∈ u.actions, action.Declared) →
      PlanningTask.encode t.description = PlanningTask.encode u.description →
        t.outline = u.outline := by
  intro hall
  have hdescription : (task ["a", "b"]).description = (task ["a, b"]).description := by
    decide +kernel
  have houtline := hall _ _ (accepted _) (accepted _) (fun _ hact => absurd hact List.not_mem_nil)
    (fun _ hact => absurd hact List.not_mem_nil) (congrArg _ hdescription)
  have hworlds := congrArg Outline.worlds houtline
  rw [worlds_outline, worlds_outline] at hworlds
  exact absurd hworlds (by simp)

end Comma

end EpistemicPlanning
