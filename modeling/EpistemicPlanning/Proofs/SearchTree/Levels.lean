import EpistemicPlanning.Proofs.SearchTree.Expansion

/-!
# Levels

`PlanningTask.unfoldTo` is the tree of all applicable actions, cut at a given depth. It is made
level by level, and a deeper tree extends a shallower one: it has the same nodes down to the depth
of the latter (`PlanningTask.extends_of_unfoldTo`).
-/
namespace EpistemicPlanning

/-- A node without marks and children. -/
def Node.trunk (n : Node) : Node := { n.unmarked with children := [] }

namespace SearchTree

variable {t : PlanningTask} {g g' g₁ : SearchTree} {m n : NodeId} {d k s : Nat}
variable {p : Action × ActionId} {l : List (Action × ActionId)}

/-! ### Later stages of a tree -/

/-- `later` has the nodes of `earlier`, possibly with more children and other marks. -/
structure Extends (later earlier : SearchTree) : Prop where
  size : earlier.size ≤ later.size
  node : ∀ n, n.index < earlier.size → (later.node n).trunk = (earlier.node n).trunk
  arena : later.arena.Extends earlier.arena

namespace Extends

protected theorem trans (h : g'.Extends g₁) (h' : g₁.Extends g) : g'.Extends g where
  size := Nat.le_trans h'.size h.size
  node n hn := (h.node n (Nat.lt_of_lt_of_le hn h'.size)).trans (h'.node n hn)
  arena := h.arena.trans h'.arena

theorem of_sameShape (s : g'.SameShape g) : g'.Extends g where
  size := Nat.le_of_eq s.size.symm
  node n _ := by
    unfold Node.trunk
    rw [s.node n]
  arena := .of_sameShape s.arena

protected theorem refl (g : SearchTree) : g.Extends g := of_sameShape (.refl g)

variable (h : g'.Extends g) (hn : n.index < g.size)

include h hn

theorem depth : (g'.node n).depth = (g.node n).depth := by
  change (g'.node n).trunk.depth = (g.node n).trunk.depth
  rw [h.node n hn]

theorem possible : (g'.node n).state.possible = (g.node n).state.possible := by
  change (g'.node n).trunk.state.possible = (g.node n).trunk.state.possible
  rw [h.node n hn]

theorem designated : (g'.node n).state.designated = (g.node n).state.designated := by
  change (g'.node n).trunk.state.designated = (g.node n).trunk.state.designated
  rw [h.node n hn]

theorem links : (g'.node n).state.relation.links = (g.node n).state.relation.links := by
  change (g'.node n).trunk.state.relation.links = (g.node n).trunk.state.relation.links
  rw [h.node n hn]

end Extends

theorem Sound.extends_of_sprout (h : g.Sound t) (hn : n.index < g.size)
    (hact : t.action? p.2 = some p.1) (hsprout : g.sprout t n p = .ok g') : g'.Extends g := by
  rcases sprout_cases hsprout with ⟨_, _, rfl⟩ | ⟨next, arena, hperform, rfl⟩
  · exact .refl _
  · refine ⟨?_, fun m hm => ?_, h.extends hn hact hperform⟩
    · rw [size_grown]
      exact Nat.le_succ _
    · exact node_grown_field n arena next p.2 Node.trunk (fun _ _ => rfl) hm

/-! ### Filling a level -/

/-- The tree has been expanded up to node `k`, which is at depth `d` or the first one below; the
nodes down to depth `d` are the first `s`. -/
structure Filling (t : PlanningTask) (d s k : Nat) (g : SearchTree) : Prop where
  unfolding : Unfolding t k [] g
  le : k ≤ s
  le_size : s ≤ g.size
  upper : ∀ n, n.index < s → (g.node n).depth ≤ d
  present : ∀ n, k ≤ n.index → n.index < s → (g.node n).depth = d
  below : ∀ n, s ≤ n.index → n.index < g.size → (g.node n).depth = d + 1

theorem depth_of_sproutAll (hs : g.Sound t) (hn : n.index < g.size)
    (hl : ∀ p ∈ l, t.action? p.2 = some p.1) (hsprout : l.foldlM (sprout t n) g = .ok g') :
    g'.Extends g ∧ ∀ m, g.size ≤ m.index → m.index < g'.size →
      (g'.node m).depth = (g.node n).depth + 1 := by
  induction l generalizing g with
  | nil =>
    cases hsprout
    exact ⟨.refl _, fun m hle hlt => absurd hlt (Nat.not_lt_of_le hle)⟩
  | cons p l ih =>
    rw [List.foldlM_cons] at hsprout
    obtain ⟨g₁, hfirst, hrest⟩ := Fallible.bind_eq_ok hsprout
    have hact := hl p List.mem_cons_self
    have hstep := hs.extends_of_sprout hn hact hfirst
    have hn₁ : n.index < g₁.size := Nat.lt_of_lt_of_le hn hstep.size
    obtain ⟨hext, hnew⟩ := ih (hs.sprout hn hact hfirst) hn₁
      (fun q hq => hl q (List.mem_cons_of_mem _ hq)) hrest
    refine ⟨hext.trans hstep, fun m hle hlt => ?_⟩
    by_cases hm : m.index < g₁.size
    · -- the only node that the first action can have added
      rw [hext.depth hm]
      rcases sprout_cases hfirst with ⟨_, _, rfl⟩ | ⟨next, arena, _, rfl⟩
      · exact absurd hm (Nat.not_lt_of_le hle)
      · have hlast : m.index = g.size := by
          rw [size_grown] at hm
          omega
        rw [node_grown_new arena next p.2 hn hlast]
    · rw [hnew m (Nat.le_of_not_lt hm) hlt, hstep.depth hn]

theorem extends_of_expanded (hs : g.Sound t) (hn : n.index < g.size)
    (hexp : g.expanded t n = .ok g') :
    g'.Extends g ∧ ∀ m, g.size ≤ m.index → m.index < g'.size →
      (g'.node m).depth = (g.node n).depth + 1 :=
  depth_of_sproutAll hs hn (fun _ hp => PlanningTask.mem_numbered.1 hp) hexp

theorem Sound.expanded (hs : g.Sound t) (hn : n.index < g.size)
    (hexp : g.expanded t n = .ok g') : g'.Sound t := by
  refine (Fallible.foldlM_inv (fun f => f.Sound t ∧ n.index < f.size) ⟨hs, hn⟩
    (fun p hp f f' hf hsprout => ?_) hexp).1
  have hact := PlanningTask.mem_numbered.1 hp
  exact ⟨hf.1.sprout hf.2 hact hsprout, Nat.lt_of_lt_of_le hf.2 (size_le_of_sprout hsprout)⟩

theorem Filling.expanded (hacc : t.Accepted) (h : Filling t d s k g) (hk : k < s)
    (hexp : g.expanded t ⟨k⟩ = .ok g') : Filling t d s (k + 1) g' ∧ g'.Extends g := by
  have hin : k < g.size := Nat.lt_of_lt_of_le hk h.le_size
  obtain ⟨hext, hnew⟩ := extends_of_expanded (h.unfolding.sound hacc) hin hexp
  have hold : ∀ n, n.index < s → (g'.node n).depth = (g.node n).depth := fun n hn =>
    hext.depth (Nat.lt_of_lt_of_le hn h.le_size)
  refine ⟨⟨h.unfolding.expanded hin hexp, hk, Nat.le_trans h.le_size hext.size, fun n hn => ?_,
    fun n hle hn => ?_, fun n hle hn => ?_⟩, hext⟩
  · rw [hold n hn]
    exact h.upper n hn
  · rw [hold n hn]
    exact h.present n (Nat.le_of_succ_le hle) hn
  · by_cases hn' : n.index < g.size
    · rw [hext.depth hn']
      exact h.below n hle hn'
    · rw [hnew n (Nat.le_of_not_lt hn') hn, h.present ⟨k⟩ (Nat.le_refl k) hk]

/-- The handles from one number to another. -/
def idsFrom (k s : Nat) : List NodeId := (List.range' k (s - k)).map Handle.mk

theorem idsFrom_cons (h : k < s) : idsFrom k s = ⟨k⟩ :: idsFrom (k + 1) s := by
  unfold idsFrom
  have hlen : s - k = (s - (k + 1)) + 1 := by omega
  rw [hlen, List.range'_succ, List.map_cons]

theorem idsFrom_self (k : Nat) : idsFrom k k = [] := by
  unfold idsFrom
  rw [Nat.sub_self]
  rfl

theorem length_idsFrom (k s : Nat) : (idsFrom k s).length = s - k := by
  unfold idsFrom
  rw [List.length_map, List.length_range']

theorem idsFrom_append {j : Nat} (hkj : k ≤ j) (hjs : j ≤ s) :
    idsFrom k j ++ idsFrom j s = idsFrom k s := by
  have hsum : s - k = (j - k) + (s - j) := by omega
  have hsplit := @List.range'_append_1 k (j - k) (s - j)
  rw [Nat.add_sub_cancel' hkj, ← hsum] at hsplit
  unfold idsFrom
  rw [← List.map_append, hsplit]

theorem idsFrom_eq_cons {ns : List NodeId} (h : idsFrom k s = n :: ns) :
    k < s ∧ n = ⟨k⟩ ∧ ns = idsFrom (k + 1) s := by
  have hlt : k < s := by
    by_contra hle
    have hlength := length_idsFrom k s
    rw [h, List.length_cons] at hlength
    omega
  rw [idsFrom_cons hlt] at h
  obtain ⟨hhead, htail⟩ := List.cons.inj h
  exact ⟨hlt, hhead.symm, htail.symm⟩

theorem pairwise_idsFrom (k s : Nat) : (idsFrom k s).Pairwise fun m n => m.index < n.index := by
  unfold idsFrom
  rw [List.pairwise_map]
  exact List.pairwise_lt_range' 1

theorem nodup_idsFrom (k s : Nat) : (idsFrom k s).Nodup :=
  (pairwise_idsFrom k s).imp fun {m n} hlt (heq : m = n) => Nat.lt_irrefl _ (heq ▸ hlt)

/-- The nodes at the front of such a list are those up to another number. -/
theorem eq_idsFrom_of_append {ns rest : List NodeId} (hks : k ≤ s)
    (h : idsFrom k s = ns ++ rest) : ∃ j, k ≤ j ∧ j ≤ s ∧ ns = idsFrom k j := by
  have hlength := length_idsFrom k s
  rw [h, List.length_append] at hlength
  have hkj : k ≤ k + ns.length := Nat.le_add_right _ _
  have hjs : k + ns.length ≤ s := by omega
  refine ⟨k + ns.length, hkj, hjs, ?_⟩
  rw [← idsFrom_append hkj hjs] at h
  refine (List.append_inj_left h ?_).symm
  rw [length_idsFrom, Nat.add_sub_cancel_left]

theorem Filling.foldlM {j : Nat} (hacc : t.Accepted) (h : Filling t d s k g) (hkj : k ≤ j)
    (hjs : j ≤ s) (hfold : (idsFrom k j).foldlM (fun g n => g.expanded t n) g = .ok g') :
    Filling t d s j g' ∧ g'.Extends g := by
  induction hi : j - k generalizing k g with
  | zero =>
    obtain rfl : k = j := by omega
    rw [idsFrom_self] at hfold
    cases hfold
    exact ⟨h, .refl _⟩
  | succ i ih =>
    have hk : k < j := by omega
    rw [idsFrom_cons hk, List.foldlM_cons] at hfold
    obtain ⟨g₁, hfirst, hrest⟩ := Fallible.bind_eq_ok hfold
    obtain ⟨hstep, hext⟩ := h.expanded hacc (Nat.lt_of_lt_of_le hk hjs) hfirst
    obtain ⟨hdone, hext'⟩ := ih hstep hk hrest (by omega)
    exact ⟨hdone, hext'.trans hext⟩

theorem Filling.fill (hacc : t.Accepted) (h : Filling t d s k g)
    (hfold : (idsFrom k s).foldlM (fun g n => g.expanded t n) g = .ok g') :
    Filling t d s s g' ∧ g'.Extends g := h.foldlM hacc h.le (Nat.le_refl s) hfold

/-! ### Trees cut at a depth -/

/-- The nodes at a depth, in order. -/
def level (g : SearchTree) (d : Nat) : List NodeId :=
  g.nodeIds.filter fun n => (g.node n).depth = d

/-- The tree is unfolded down to depth `d`, and the nodes at this depth are those from `k` on. -/
structure CutAt (t : PlanningTask) (d k : Nat) (g : SearchTree) : Prop where
  unfolding : Unfolding t k [] g
  le : k ≤ g.size
  above : ∀ n, n.index < k → (g.node n).depth < d
  deepest : ∀ n, k ≤ n.index → n.index < g.size → (g.node n).depth = d

theorem cutAt_ofTask : CutAt t 0 0 (ofTask t) where
  unfolding := .root
  le := Nat.zero_le _
  above _ hn := absurd hn (Nat.not_lt_zero _)
  deepest _ _ hn := by rw [(node_ofTask hn).1]

theorem CutAt.filling (h : CutAt t d k g) : Filling t d g.size k g where
  unfolding := h.unfolding
  le := h.le
  le_size := Nat.le_refl _
  upper n hn := by
    by_cases hk : n.index < k
    · exact Nat.le_of_lt (h.above n hk)
    · exact Nat.le_of_eq (h.deepest n (Nat.le_of_not_lt hk) hn)
  present := h.deepest
  below _ hle hlt := absurd hlt (Nat.not_lt_of_le hle)

theorem Filling.cutAt (h : Filling t d s s g) : CutAt t (d + 1) s g where
  unfolding := h.unfolding
  le := h.le_size
  above n hn := Nat.lt_succ_of_le (h.upper n hn)
  deepest := h.below

theorem CutAt.depth_le (h : CutAt t d k g) (hn : n.index < g.size) : (g.node n).depth ≤ d :=
  h.filling.upper n hn

theorem nodeIds_eq (h : k ≤ g.size) :
    g.nodeIds = (List.range k).map Handle.mk ++ idsFrom k g.size := by
  have hzero : ∀ s, idsFrom 0 s = (List.range s).map Handle.mk := fun s => by
    unfold idsFrom
    rw [Nat.sub_zero, List.range_eq_range']
  rw [← hzero, idsFrom_append (Nat.zero_le k) h, hzero]
  rfl

theorem mem_idsFrom : n ∈ idsFrom k s ↔ k ≤ n.index ∧ n.index < s := by
  unfold idsFrom
  constructor
  · intro h
    obtain ⟨i, hi, rfl⟩ := List.mem_map.1 h
    rw [List.mem_range'_1] at hi
    have hlt : i < s := by omega
    exact ⟨hi.1, hlt⟩
  · intro h
    refine List.mem_map.2 ⟨n.index, ?_, rfl⟩
    rw [List.mem_range'_1]
    omega

theorem CutAt.level_eq (h : CutAt t d k g) : g.level d = idsFrom k g.size := by
  have habove : ((List.range k).map Handle.mk).filter (fun n => (g.node n).depth = d) = [] := by
    rw [List.filter_eq_nil_iff]
    intro n hn
    obtain ⟨i, hi, rfl⟩ := List.mem_map.1 hn
    have hlt := h.above ⟨i⟩ (List.mem_range.1 hi)
    simp only [decide_eq_true_eq]
    omega
  have hdeepest : (idsFrom k g.size).filter (fun n => (g.node n).depth = d) =
      idsFrom k g.size := by
    rw [List.filter_eq_self]
    intro n hn
    obtain ⟨hle, hlt⟩ := mem_idsFrom.1 hn
    simp [h.deepest n hle hlt]
  unfold level
  rw [nodeIds_eq h.le, List.filter_append, habove, hdeepest, List.nil_append]

end SearchTree

namespace PlanningTask

open SearchTree

variable {t : PlanningTask} {g g' : SearchTree} {d d' k k' : Nat}

/-- The tree of all applicable actions, cut at a depth. -/
def unfoldTo (t : PlanningTask) : Nat → Except ModelError SearchTree
  | 0 => .ok (ofTask t)
  | d + 1 => do
    let g ← t.unfoldTo d
    (g.level d).foldlM (fun g n => g.expanded t n) g

theorem cutAt_of_unfoldTo (hacc : t.Accepted) (h : t.unfoldTo d = .ok g) : ∃ k, CutAt t d k g := by
  induction d generalizing g with
  | zero =>
    cases h
    exact ⟨0, cutAt_ofTask⟩
  | succ d ih =>
    obtain ⟨g₀, hupper, h⟩ := Fallible.bind_eq_ok h
    obtain ⟨k, hcut⟩ := ih hupper
    rw [hcut.level_eq] at h
    exact ⟨g₀.size, (hcut.filling.fill hacc h).1.cutAt⟩

/-- A deeper tree has the nodes of a shallower one, and all its other nodes lie below. -/
theorem extends_of_unfoldTo (hacc : t.Accepted) (h : t.unfoldTo d = .ok g) (hle : d ≤ d')
    (h' : t.unfoldTo d' = .ok g') :
    g'.Extends g ∧ ∀ n, n.index < g'.size → (g'.node n).depth ≤ d → n.index < g.size := by
  induction hle generalizing g' with
  | refl =>
    rw [h] at h'
    cases h'
    exact ⟨.refl g, fun n hn _ => hn⟩
  | @step j hle ih =>
    obtain ⟨g₀, hupper, h'⟩ := Fallible.bind_eq_ok h'
    obtain ⟨hext, hold⟩ := ih hupper
    obtain ⟨k, hcut⟩ := cutAt_of_unfoldTo hacc hupper
    rw [hcut.level_eq] at h'
    obtain ⟨hfilled, hstep⟩ := hcut.filling.fill hacc h'
    refine ⟨hstep.trans hext, fun n hn hdepth => ?_⟩
    by_cases hn' : n.index < g₀.size
    · rw [hstep.depth hn'] at hdepth
      exact hold n hn' hdepth
    · have hbelow := hfilled.below n (Nat.le_of_not_lt hn') hn
      have hlt : d ≤ j := hle
      omega

/-- The root has the initial state, apart from cuts. -/
theorem root_of_unfoldTo (hacc : t.Accepted) (h : t.unfoldTo d = .ok g) (s : g'.SameShape g) :
    root.index < g'.size ∧ (g'.node root).state.possible = t.initial.possible ∧
      (g'.node root).state.designated = t.initial.designated := by
  obtain ⟨hext, _⟩ := extends_of_unfoldTo hacc (rfl : t.unfoldTo 0 = .ok (ofTask t))
    (Nat.zero_le d) h
  have hroot : root.index < (ofTask t).size := Nat.one_pos
  refine ⟨s.size ▸ Nat.lt_of_lt_of_le hroot hext.size, ?_, ?_⟩
  · rw [s.possible, hext.possible hroot]
    rfl
  · rw [s.designated, hext.designated hroot]
    rfl

end PlanningTask

end EpistemicPlanning
