import EpistemicPlanning.Proofs.PointedModel

/-!
# Relations that gain links

A relation is determined by its nodes, its cuts, its agents and what each of them links
(`Accessibility.eq_of_adjacent`). Adding a link between two nodes that are there already, with their
links to themselves, adds this link and nothing else (`Accessibility.Settled.gains_addLink`), and
this goes on while any number of links are added (`Accessibility.Settled.gains_foldlM`).
-/
namespace EpistemicPlanning.Accessibility

variable {kind : HandleKind} {r r' r'' : Accessibility kind} {a b : Agent} {m n : Handle kind}
variable {as : List Agent} {ns : List (Handle kind)} {L L' : Agent → Link kind → Prop}

theorem eq_of_adjacent (hnodes : r.nodes = r'.nodes) (hcuts : r.cuts = r'.cuts)
    (hagents : ∀ a, r.hasAgent a = r'.hasAgent a)
    (hadjacent : ∀ a m n, r.Adjacent a m n ↔ r'.Adjacent a m n) : r = r' := by
  have hlinks : r.links = r'.links := by
    refine SortedMap.ext fun a => ?_
    cases hls : r.links.find? a with
    | none =>
      have hno := hagents a ▸ find?_eq_none_iff.1 hls
      exact (find?_eq_none_iff.2 hno).symm
    | some ls =>
      obtain ⟨ls', hls'⟩ := hasAgent_iff.1 (hagents a ▸ hasAgent_iff.2 ⟨ls, hls⟩)
      rw [hls']
      refine congrArg some (SortedSet.ext fun l => ?_)
      have h := hadjacent a l.low l.high
      simp only [← mem_links_iff_adjacent, hls, hls', Option.getD_some, Link.of_low_high] at h
      exact h
  cases r
  cases r'
  cases hnodes
  cases hcuts
  cases hlinks
  rfl

/-! ### One relation and another with more links -/

/-- `r'` is `r` with the links that `L` gives to each agent. -/
structure Gains (r r' : Accessibility kind) (L : Agent → Link kind → Prop) : Prop where
  nodes : r'.nodes = r.nodes
  cuts : r'.cuts = r.cuts
  hasAgent : ∀ a, r'.hasAgent a = r.hasAgent a
  adjacent : ∀ a m n, r'.Adjacent a m n ↔ r.Adjacent a m n ∨ L a (.of m n)

namespace Gains

protected theorem refl (r : Accessibility kind) : r.Gains r fun _ _ => False where
  nodes := rfl
  cuts := rfl
  hasAgent _ := rfl
  adjacent _ _ _ := (or_false _).symm.to_iff

protected theorem trans (h : r.Gains r' L) (h' : r'.Gains r'' L') :
    r.Gains r'' fun a l => L a l ∨ L' a l where
  nodes := h'.nodes.trans h.nodes
  cuts := h'.cuts.trans h.cuts
  hasAgent a := (h'.hasAgent a).trans (h.hasAgent a)
  adjacent a m n := by rw [h'.adjacent, h.adjacent, or_assoc]

theorem congr (h : r.Gains r' L) (hL : ∀ a l, L a l ↔ L' a l) : r.Gains r' L' where
  nodes := h.nodes
  cuts := h.cuts
  hasAgent := h.hasAgent
  adjacent a m n := by rw [h.adjacent, hL]

end Gains

/-! ### Adding links between known nodes -/

/-- The given agents and nodes are there, the nodes with their links to themselves. -/
structure Settled (r : Accessibility kind) (as : List Agent) (ns : List (Handle kind)) : Prop where
  agents : ∀ a ∈ as, r.hasAgent a = true
  nodes : ∀ n ∈ ns, n ∈ r.nodes
  loops : ∀ a, r.hasAgent a = true → ∀ n ∈ ns, r.Adjacent a n n

namespace Settled

theorem gains (hr : r.Settled as ns) (h : r.Gains r' L) : r'.Settled as ns where
  agents a ha := (h.hasAgent a).trans (hr.agents a ha)
  nodes n hn := h.nodes ▸ hr.nodes n hn
  loops a ha n hn := (h.adjacent a n n).2 (Or.inl (hr.loops a (h.hasAgent a ▸ ha) n hn))

theorem gains_addLink (hr : r.Settled as ns) (ha : a ∈ as) (hm : m ∈ ns) (hn : n ∈ ns) :
    ∃ r', r.addLink a m n = .ok r' ∧ r.Gains r' fun b l => b = a ∧ l = .of m n := by
  refine ⟨_, addLink_eq_ok (hr.agents a ha), ?_⟩
  have hself : ∀ x ∈ ns, r.addNode x = r := fun x hx =>
    addNode_eq_self (hr.nodes x hx) fun b hb => hr.loops b hb x hx
  have hlink : r.link a m n =
      { r with links := r.links.modify a fun ls => ls.insert (.of m n) } := by
    unfold link
    rw [hself m hm, hself n hn]
  refine ⟨by rw [hlink], by rw [hlink], fun b => hasAgent_link, fun b x y => ?_⟩
  rw [hlink, ← mem_links_iff_adjacent, ← mem_links_iff_adjacent]
  simp only [SortedMap.find?_modify]
  by_cases hb : b = a
  · subst hb
    obtain ⟨ls, hls⟩ := hasAgent_iff.1 (hr.agents b ha)
    simp [hls, or_comm]
  · simp [hb]

/-- Steps that each add links between known nodes succeed, and together they add all their links. -/
theorem gains_foldlM {ι : Type}
    {f : Accessibility kind → ι → Except ModelError (Accessibility kind)}
    {l : List ι} {L : ι → Agent → Link kind → Prop} (hr : r.Settled as ns)
    (hstep : ∀ i ∈ l, ∀ r, r.Settled as ns → ∃ r', f r i = .ok r' ∧ r.Gains r' (L i)) :
    ∃ r', l.foldlM f r = .ok r' ∧ r.Gains r' fun a k => ∃ i ∈ l, L i a k := by
  induction l generalizing r with
  | nil => exact ⟨r, rfl, (Gains.refl r).congr fun _ _ => by simp⟩
  | cons i l ih =>
    rw [List.forall_mem_cons] at hstep
    obtain ⟨r₁, hfirst, hgains⟩ := hstep.1 r hr
    obtain ⟨r', hrest, hgains'⟩ := ih (hr.gains hgains) hstep.2
    refine ⟨r', ?_, (hgains.trans hgains').congr fun a k => by simp⟩
    rw [List.foldlM_cons, hfirst]
    exact hrest

end Settled

/-! ### Relations that link nothing -/

/-- Where all agents tell all nodes apart, the nodes have their links to themselves. -/
theorem settled_discrete : (discrete as ns).Settled as ns where
  agents _ ha := hasAgent_discrete.2 ha
  nodes _ hn := mem_nodes_discrete.2 hn
  loops _ ha _ hn := adjacent_discrete.2 ⟨hasAgent_discrete.1 ha, rfl, hn⟩

end EpistemicPlanning.Accessibility
