import EpistemicPlanning.Proofs.SearchTree.Shape
import EpistemicPlanning.Proofs.Update.Product

/-!
# Later stages of an arena

An arena extends another when it was reached from it by product updates and changes of marks: what
was there is still there, and worlds have only gained steps.
-/
namespace EpistemicPlanning

variable {a b c : Arena} {w : WorldId} {e : EdgeId}

namespace Arena

/-- `later` has everything that `earlier` has, apart from marks. -/
structure Extends (later earlier : Arena) : Prop where
  worlds : earlier.worlds.size ≤ later.worlds.size
  edges : earlier.edges.size ≤ later.edges.size
  valuation : ∀ w, w.index < earlier.worlds.size →
    (later.world w).valuation = (earlier.world w).valuation
  incoming : ∀ w, w.index < earlier.worlds.size →
    (later.world w).incoming = (earlier.world w).incoming
  outgoing : ∀ w, w.index < earlier.worlds.size →
    (earlier.world w).outgoing <+: (later.world w).outgoing
  edge : ∀ e, e.index < earlier.edges.size → (later.edge e).unmarked = (earlier.edge e).unmarked

namespace Extends

protected theorem trans (h : c.Extends b) (h' : b.Extends a) : c.Extends a where
  worlds := Nat.le_trans h'.worlds h.worlds
  edges := Nat.le_trans h'.edges h.edges
  valuation w hw := (h.valuation w (Nat.lt_of_lt_of_le hw h'.worlds)).trans (h'.valuation w hw)
  incoming w hw := (h.incoming w (Nat.lt_of_lt_of_le hw h'.worlds)).trans (h'.incoming w hw)
  outgoing w hw := (h'.outgoing w hw).trans (h.outgoing w (Nat.lt_of_lt_of_le hw h'.worlds))
  edge e he := (h.edge e (Nat.lt_of_lt_of_le he h'.edges)).trans (h'.edge e he)

theorem of_sameShape (s : b.SameShape a) : b.Extends a where
  worlds := Nat.le_of_eq s.worlds.symm
  edges := Nat.le_of_eq s.edges.symm
  valuation _ _ := s.valuation
  incoming _ _ := s.incoming
  outgoing _ _ := s.outgoing ▸ List.prefix_rfl
  edge e _ := s.edge e

protected theorem refl (a : Arena) : a.Extends a := of_sameShape (.refl a)

theorem child (h : b.Extends a) (he : e.index < a.edges.size) :
    (b.edge e).child = (a.edge e).child := by
  change (b.edge e).unmarked.child = (a.edge e).unmarked.child
  rw [h.edge e he]

theorem parent (h : b.Extends a) (he : e.index < a.edges.size) :
    (b.edge e).parent = (a.edge e).parent := by
  change (b.edge e).unmarked.parent = (a.edge e).unmarked.parent
  rw [h.edge e he]

theorem event (h : b.Extends a) (he : e.index < a.edges.size) :
    (b.edge e).event = (a.edge e).event := by
  change (b.edge e).unmarked.event = (a.edge e).unmarked.event
  rw [h.edge e he]

end Extends

theorem Appended.extends (h : b.Appended a) : b.Extends a where
  worlds := h.worlds
  edges := h.edges
  valuation w hw := by
    obtain ⟨es, hworld, _⟩ := h.world w hw
    rw [hworld]
  incoming w hw := by
    obtain ⟨es, hworld, _⟩ := h.world w hw
    rw [hworld]
  outgoing w hw := by
    obtain ⟨es, hworld, _⟩ := h.world w hw
    rw [hworld]
    exact List.prefix_append _ _
  edge e he := by rw [h.edge e he]

end Arena

namespace Update

variable {t : PlanningTask} {arena arena' : Arena} {state next' : State} {action : Action}
variable {act : ActionId}

theorem extends_of_apply (hact : t.action? act = some action)
    (hin : ∀ w ∈ state.possible, w.index < arena.worlds.size)
    (h : (apply (t := t) arena state act).value = (.ok (some next'), arena')) :
    arena'.Extends arena :=
  (appended_of_value hact (fun w hw => Arena.contains_iff.2 (hin w hw)) h).extends

end Update

end EpistemicPlanning
