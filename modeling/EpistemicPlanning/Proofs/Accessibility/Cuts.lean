import EpistemicPlanning.Proofs.Accessibility.Components

/-!
# Cutting off nodes

Once all links that touch a dead node are cut, chains of uncut links from a live node are the chains
of links through live nodes (`Accessibility.joined_cutTouching`).
-/
namespace EpistemicPlanning.Accessibility

open Relation

variable {kind : HandleKind} {r : Accessibility kind} {dead : SortedSet (Handle kind)}
variable {a : Agent} {l : Link kind} {m n : Handle kind}

/-- A stored link between two live nodes. -/
def LiveAdjacent (r : Accessibility kind) (dead : SortedSet (Handle kind)) (a : Agent)
    (m n : Handle kind) : Prop :=
  r.Adjacent a m n ∧ m ∉ dead ∧ n ∉ dead

theorem mem_touching {ls : SortedSet (Link kind)} :
    l ∈ touching dead ls ↔ l ∈ ls ∧ l.low ≠ l.high ∧ (l.low ∈ dead ∨ l.high ∈ dead) := by
  simp [touching, Link.isLoop]

theorem mem_cuts_step {cuts : SortedMap Agent (SortedSet (Link kind))} {b : Agent}
    {ls : SortedSet (Link kind)} :
    l ∈ ((if (touching dead ls).isEmpty then cuts
      else cuts.upsert b fun cs => touching dead ls ∪ cs.getD ∅).find? a).getD ∅ ↔
      l ∈ (cuts.find? a).getD ∅ ∨ (a = b ∧ l ∈ touching dead ls) := by
  split
  · next hempty =>
    have hnone : l ∉ touching dead ls := by
      intro hl
      have hnil : (touching dead ls).toList = [] := List.isEmpty_iff.1 hempty
      rw [SortedSet.mem_def, hnil] at hl
      cases hl
    simp [hnone]
  · rw [SortedMap.find?_upsert]
    by_cases hab : a = b
    · subst hab
      simp [or_comm]
    · simp [hab]

theorem mem_cuts_foldl {entries : List (Agent × SortedSet (Link kind))}
    {cuts : SortedMap Agent (SortedSet (Link kind))} :
    l ∈ ((entries.foldl
      (fun cuts (a, ls) =>
        let cut := touching dead ls
        if cut.isEmpty then cuts else cuts.upsert a fun cs => cut ∪ cs.getD ∅)
      cuts).find? a).getD ∅ ↔
      l ∈ (cuts.find? a).getD ∅ ∨ ∃ ls, (a, ls) ∈ entries ∧ l ∈ touching dead ls := by
  induction entries generalizing cuts with
  | nil => simp
  | cons e entries ih =>
    obtain ⟨b, ls⟩ := e
    rw [List.foldl_cons, ih, mem_cuts_step]
    simp only [List.mem_cons, Prod.mk.injEq]
    constructor
    · rintro ((h | ⟨rfl, h⟩) | ⟨ls', hmem, h⟩)
      · exact Or.inl h
      · exact Or.inr ⟨ls, Or.inl ⟨rfl, rfl⟩, h⟩
      · exact Or.inr ⟨ls', Or.inr hmem, h⟩
    · rintro (h | ⟨ls', ⟨rfl, rfl⟩ | hmem, h⟩)
      · exact Or.inl (Or.inl h)
      · exact Or.inl (Or.inr ⟨rfl, h⟩)
      · exact Or.inr ⟨ls', hmem, h⟩

/-- Once dead nodes are cut off from a relation without cuts, a link is uncut when it is a loop or
joins live nodes. -/
theorem uncutAdjacent_cutTouching :
    (r.clearCuts.cutTouching dead).UncutAdjacent a m n ↔
      r.Adjacent a m n ∧ (m = n ∨ m ∉ dead ∧ n ∉ dead) := by
  have hcut : Link.of m n ∈ (r.clearCuts.cutTouching dead).cutsOf a ↔
      ∃ ls, r.links.find? a = some ls ∧ Link.of m n ∈ touching dead ls := by
    rw [cutsOf, cutTouching, mem_cuts_foldl]
    simp [clearCuts, SortedMap.find?_eq_some_iff]
  have hends : (Link.of m n).low ≠ (Link.of m n).high ∧
      ((Link.of m n).low ∈ dead ∨ (Link.of m n).high ∈ dead) ↔ m ≠ n ∧ (m ∈ dead ∨ n ∈ dead) := by
    unfold Link.of
    split
    · rfl
    · simp [ne_comm, or_comm]
  have hadj : (r.clearCuts.cutTouching dead).Adjacent a m n ↔ r.Adjacent a m n := Iff.rfl
  unfold UncutAdjacent
  rw [hcut, hadj]
  constructor
  · rintro ⟨⟨ls, hls, hmem⟩, hno⟩
    refine ⟨⟨ls, hls, hmem⟩, ?_⟩
    by_contra hdead
    refine hno ⟨ls, hls, mem_touching.2 ⟨hmem, hends.2 ?_⟩⟩
    tauto
  · rintro ⟨hmn, hlive⟩
    refine ⟨hmn, ?_⟩
    rintro ⟨ls, _, htouch⟩
    have hdead := hends.1 (mem_touching.1 htouch).2
    tauto

/-- From a live node, uncut links lead through live nodes. -/
theorem joined_cutTouching (hm : m ∉ dead) :
    ReflTransGen ((r.clearCuts.cutTouching dead).UncutAdjacent a) m n ↔
      ReflTransGen (r.LiveAdjacent dead a) m n := by
  constructor
  · intro h
    -- a step that is not a loop ends at a live node again
    have hlive : n ∉ dead ∧ ReflTransGen (r.LiveAdjacent dead a) m n := by
      induction h with
      | refl => exact ⟨hm, ReflTransGen.refl⟩
      | tail _ hstep ih =>
        obtain ⟨hadj, rfl | ⟨hx, hy⟩⟩ := uncutAdjacent_cutTouching.1 hstep
        · exact ih
        · exact ⟨hy, ih.2.tail ⟨hadj, hx, hy⟩⟩
    exact hlive.2
  · refine ReflTransGen.mono (fun x y h => ?_) _ _
    exact uncutAdjacent_cutTouching.2 ⟨h.1, Or.inr h.2⟩

/-- Links between live nodes lead from a live node to live nodes. -/
theorem not_mem_of_joined_live (hm : m ∉ dead) (h : ReflTransGen (r.LiveAdjacent dead a) m n) :
    n ∉ dead := by
  induction h with
  | refl => exact hm
  | tail _ hstep _ => exact hstep.2.2

end EpistemicPlanning.Accessibility
