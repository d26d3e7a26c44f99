import Mathlib.Data.Finset.Card
import EpistemicPlanning.Proofs.Accessibility.Components

/-!
# Searching along links

The nodes that links join to a node can also be found by walking along the links: nodes that have
been seen wait in a queue until their neighbours are looked at. The search ends, as each node is
seen once, and it sees the nodes that chains of links lead to (`Search.mem_run`). So for a relation
it finds the same as merging classes does (`Accessibility.search_eq_reach`).
-/
namespace EpistemicPlanning

open Relation

variable {kind : HandleKind}

/-! ### Neighbours -/

/-- The neighbours of each node that has some. -/
abbrev Neighbours (kind : HandleKind) := SortedMap (Handle kind) (List (Handle kind))

namespace Neighbours

variable {near : Neighbours kind} {links : List (Link kind)} {l : Link kind}
variable {m n x y : Handle kind}

/-- The neighbours with `y` as one more neighbour of `x`. -/
def add (near : Neighbours kind) (x y : Handle kind) : Neighbours kind :=
  near.upsert x fun ys => ys.getD [] ++ [y]

/-- The neighbours with the ends of a link next to each other. -/
def addLink (near : Neighbours kind) (l : Link kind) : Neighbours kind :=
  (near.add l.low l.high).add l.high l.low

/-- The neighbours in a list of links. -/
def ofLinks (links : List (Link kind)) : Neighbours kind := links.foldl addLink ∅

/-- The nodes next to a node. -/
def nextTo (near : Neighbours kind) (n : Handle kind) : List (Handle kind) :=
  (near.find? n).getD []

theorem mem_nextTo_add : n ∈ (near.add x y).nextTo m ↔ n ∈ near.nextTo m ∨ (m = x ∧ n = y) := by
  unfold nextTo add
  rw [SortedMap.find?_upsert]
  by_cases hmx : m = x
  · subst hmx
    simp
  · simp [hmx]

theorem mem_nextTo_addLink :
    n ∈ (near.addLink l).nextTo m ↔ n ∈ near.nextTo m ∨ Link.of m n = l := by
  rw [addLink, mem_nextTo_add, mem_nextTo_add, or_assoc, Link.of_eq_iff]
  refine or_congr_right (or_congr ?_ ?_)
  · exact and_congr eq_comm eq_comm
  · rw [and_comm, eq_comm (a := n), eq_comm (a := m)]

theorem mem_nextTo_foldl : n ∈ (links.foldl addLink near).nextTo m ↔
    n ∈ near.nextTo m ∨ Linked links m n := by
  induction links generalizing near with
  | nil => simp [Linked]
  | cons l links ih =>
    rw [List.foldl_cons, ih, mem_nextTo_addLink, or_assoc]
    exact or_congr_right List.mem_cons.symm

theorem mem_nextTo_ofLinks : n ∈ (ofLinks links).nextTo m ↔ Linked links m n :=
  mem_nextTo_foldl.trans (or_iff_right List.not_mem_nil)

/-- All nodes that are next to some node. -/
def everyone (near : Neighbours kind) : Finset (Handle kind) :=
  (near.entries.flatMap Prod.snd).toFinset

theorem mem_everyone (h : y ∈ near.nextTo x) : y ∈ near.everyone := by
  unfold nextTo at h
  cases hys : near.find? x with
  | none =>
    rw [hys] at h
    cases h
  | some ys =>
    rw [hys] at h
    exact List.mem_toFinset.2
      (List.mem_flatMap.2 ⟨(x, ys), SortedMap.find?_eq_some_iff.1 hys, h⟩)

end Neighbours

/-! ### The search -/

/-- The nodes that have been seen, and those of them whose neighbours are still to be looked at. -/
structure Search (kind : HandleKind) where
  seen : SortedSet (Handle kind)
  queue : List (Handle kind)

namespace Search

variable {near : Neighbours kind} {s s' s'' : Search kind} {ns rest : List (Handle kind)}
variable {start m n x y : Handle kind}

/-- A node that has not been seen before is put at the end of the queue. -/
def see (s : Search kind) (n : Handle kind) : Search kind :=
  if s.seen.contains n then s else ⟨s.seen.insert n, s.queue ++ [n]⟩

/-- How many nodes are still to be taken from the queue: those in it, and those yet to be seen. -/
def remaining (near : Neighbours kind) (s : Search kind) : Nat :=
  s.queue.length + (near.everyone \ s.seen.toList.toFinset).card

theorem remaining_see (h : n ∈ near.everyone) : (s.see n).remaining near = s.remaining near := by
  unfold see
  split
  · rfl
  · next hnew =>
    have hunseen : n ∈ near.everyone \ s.seen.toList.toFinset := by
      rw [Finset.mem_sdiff, List.mem_toFinset]
      exact ⟨h, fun hn => hnew (SortedSet.contains_iff.2 hn)⟩
    have hinsert : (s.seen.insert n).toList.toFinset = insert n s.seen.toList.toFinset := by
      ext x
      rw [List.mem_toFinset, Finset.mem_insert, List.mem_toFinset]
      exact SortedSet.mem_insert
    have hpos := Finset.card_pos.2 ⟨n, hunseen⟩
    unfold remaining
    rw [hinsert, Finset.sdiff_insert, Finset.card_erase_of_mem hunseen, List.length_append,
      List.length_singleton]
    omega

theorem remaining_foldl_see (h : ∀ x ∈ ns, x ∈ near.everyone) :
    (ns.foldl see s).remaining near = s.remaining near := by
  induction ns generalizing s with
  | nil => rfl
  | cons x ns ih =>
    rw [List.forall_mem_cons] at h
    rw [List.foldl_cons, ih h.2, remaining_see h.1]

/-- Looks at the neighbours of a node. -/
def visit (near : Neighbours kind) (s : Search kind) (n : Handle kind) : Search kind :=
  (near.nextTo n).foldl see s

theorem remaining_visit : (s.visit near n).remaining near = s.remaining near :=
  remaining_foldl_see fun _ hx => Neighbours.mem_everyone hx

/-- The nodes that have been seen once none waits any more. -/
def run (near : Neighbours kind) : Search kind → SortedSet (Handle kind)
  | ⟨seen, []⟩ => seen
  | ⟨seen, n :: rest⟩ => run near (visit near ⟨seen, rest⟩ n)
termination_by s => s.remaining near
decreasing_by
  rw [remaining_visit]
  simp [remaining]

/-! ### What is seen -/

/-- `s'` has seen what `s` has seen, and what is new to it waits in its queue. -/
structure Extends (s s' : Search kind) : Prop where
  seen : ∀ x ∈ s.seen, x ∈ s'.seen
  queue : ∀ x ∈ s.queue, x ∈ s'.queue
  queued : ∀ x ∈ s'.queue, x ∈ s.queue ∨ x ∈ s'.seen
  new : ∀ x ∈ s'.seen, x ∈ s.seen ∨ x ∈ s'.queue

protected theorem Extends.refl (s : Search kind) : s.Extends s where
  seen _ hx := hx
  queue _ hx := hx
  queued _ hx := Or.inl hx
  new _ hx := Or.inl hx

protected theorem Extends.trans (h : s.Extends s') (h' : s'.Extends s'') : s.Extends s'' where
  seen x hx := h'.seen x (h.seen x hx)
  queue x hx := h'.queue x (h.queue x hx)
  queued x hx := (h'.queued x hx).elim (fun hx => (h.queued x hx).imp_right (h'.seen x)) Or.inr
  new x hx := (h'.new x hx).elim (fun hx => (h.new x hx).imp_right (h'.queue x)) Or.inr

theorem extends_see : s.Extends (s.see n) := by
  unfold see
  split
  · exact .refl s
  · exact {
      seen := fun x hx => SortedSet.mem_insert.2 (Or.inr hx)
      queue := fun x hx => List.mem_append_left _ hx
      queued := fun x hx => (List.mem_append.1 hx).imp_right fun hx =>
        SortedSet.mem_insert.2 (Or.inl (List.mem_singleton.1 hx))
      new := fun x hx => (SortedSet.mem_insert.1 hx).symm.imp_right fun heq =>
        List.mem_append_right _ (List.mem_singleton.2 heq) }

theorem mem_seen_see : x ∈ (s.see n).seen ↔ x = n ∨ x ∈ s.seen := by
  unfold see
  split
  · next h =>
    rw [SortedSet.contains_iff] at h
    exact ⟨Or.inr, fun hx => hx.elim (fun heq => heq ▸ h) id⟩
  · exact SortedSet.mem_insert

theorem extends_foldl_see : s.Extends (ns.foldl see s) := by
  induction ns generalizing s with
  | nil => exact .refl s
  | cons n ns ih => exact extends_see.trans ih

theorem mem_seen_foldl_see : x ∈ (ns.foldl see s).seen ↔ x ∈ s.seen ∨ x ∈ ns := by
  induction ns generalizing s with
  | nil => simp
  | cons n ns ih =>
    rw [List.foldl_cons, ih, mem_seen_see, List.mem_cons, or_left_comm]
    exact or_assoc

/-- All that has been seen is joined to the start, and only the nodes in the queue may have
neighbours that have not been seen. -/
structure Underway (near : Neighbours kind) (start : Handle kind) (s : Search kind) : Prop where
  start_mem : start ∈ s.seen
  queued : ∀ x ∈ s.queue, x ∈ s.seen
  joined : ∀ x ∈ s.seen, ReflTransGen (fun m n => n ∈ near.nextTo m) start x
  closed : ∀ x ∈ s.seen, x ∉ s.queue → ∀ y ∈ near.nextTo x, y ∈ s.seen

theorem Underway.visit {seen : SortedSet (Handle kind)}
    (h : Underway near start ⟨seen, n :: rest⟩) :
    Underway near start (Search.visit near ⟨seen, rest⟩ n) := by
  have hext : Extends ⟨seen, rest⟩ (Search.visit near ⟨seen, rest⟩ n) := extends_foldl_see
  have hseen : ∀ x, x ∈ (Search.visit near ⟨seen, rest⟩ n).seen ↔
      x ∈ seen ∨ x ∈ near.nextTo n := fun x => mem_seen_foldl_see
  refine ⟨hext.seen _ h.start_mem, fun x hx => ?_, fun x hx => ?_, fun x hx hwait y hy => ?_⟩
  · rcases hext.queued x hx with hx | hx
    · exact hext.seen x (h.queued x (List.mem_cons_of_mem _ hx))
    · exact hx
  · rcases (hseen x).1 hx with hx | hx
    · exact h.joined x hx
    · exact (h.joined n (h.queued n List.mem_cons_self)).tail hx
  · -- what does not wait now has been seen before
    have hold : x ∈ seen := (hext.new x hx).resolve_right hwait
    by_cases hxn : x = n
    · exact (hseen y).2 (Or.inr (hxn ▸ hy))
    · have hnot : x ∉ n :: rest := by
        rw [List.mem_cons, not_or]
        exact ⟨hxn, fun hx => hwait (hext.queue x hx)⟩
      exact (hseen y).2 (Or.inl (h.closed x hold hnot y hy))

/-- A search underway ends with the nodes that the start is joined to. -/
theorem Underway.mem_run (h : s.Underway near start) :
    x ∈ run near s ↔ ReflTransGen (fun m n => n ∈ near.nextTo m) start x := by
  fun_induction run near s with
  | case1 seen =>
    constructor
    · exact h.joined x
    · intro hjoin
      induction hjoin with
      | refl => exact h.start_mem
      | tail _ hstep ih => exact h.closed _ ih List.not_mem_nil _ hstep
  | case2 seen n rest ih => exact ih h.visit

/-- The search that begins at a node. -/
def begin (n : Handle kind) : Search kind := ⟨.singleton n, [n]⟩

theorem underway_begin : (begin n).Underway near n where
  start_mem := SortedSet.mem_singleton.2 rfl
  queued _ hx := SortedSet.mem_singleton.2 (List.mem_singleton.1 hx)
  joined x hx := by
    rw [SortedSet.mem_singleton.1 hx]
  closed x hx hwait := absurd (List.mem_singleton.2 (SortedSet.mem_singleton.1 hx)) hwait

/-- A search finds the class of the node that it begins at. -/
theorem run_begin (links : List (Link kind)) (n : Handle kind) :
    run (.ofLinks links) (begin n) = joinedTo links n := by
  refine SortedSet.ext fun x => ?_
  have hlinked : (fun m n => n ∈ (Neighbours.ofLinks links).nextTo m) = Linked links := by
    funext m n
    exact propext Neighbours.mem_nextTo_ofLinks
  rw [underway_begin.mem_run, hlinked, mem_joinedTo]

end Search

/-! ### Relations -/

namespace Accessibility

variable {r : Accessibility kind} {a : Agent} {m n : Handle kind}

/-- The nodes that a search along walked links of an agent finds from `n`. -/
def search (r : Accessibility kind) (a : Agent) (n : Handle kind) (t : Traversal) :
    Except ModelError (SortedSet (Handle kind)) :=
  (r.linksOf a).map fun ls => Search.run (.ofLinks (r.walked a t ls)) (.begin n)

/-- Whether an agent cannot tell two nodes apart. A node is not searched for from itself. -/
def searchRelated (r : Accessibility kind) (a : Agent) (m n : Handle kind) :
    Except ModelError Bool :=
  if m = n then (r.linksOf a).map fun _ => true
  else (r.search a m .full).map fun ns => ns.contains n

/-- Searching comes to the same as merging classes. -/
theorem search_eq_reach (r : Accessibility kind) (a : Agent) (n : Handle kind) (t : Traversal) :
    r.search a n t = r.reach a n t := by
  unfold search reach
  simp only [Search.run_begin]

theorem searchRelated_eq (r : Accessibility kind) (a : Agent) (m n : Handle kind) :
    r.searchRelated a m n = r.isRelated a m n := by
  unfold searchRelated isRelated
  rw [search_eq_reach]
  split
  · next heq =>
    subst heq
    cases hagent : r.hasAgent a with
    | false =>
      rw [accessible, reach_eq_error hagent, linksOf_eq_error hagent]
      rfl
    | true =>
      rw [accessible, reach_eq_ok hagent, linksOf_eq_ok hagent]
      exact congrArg Except.ok (SortedSet.contains_iff.2 self_mem_classOf).symm
  · rfl

end Accessibility

end EpistemicPlanning
