import EpistemicPlanning.Proofs.Ordered
import EpistemicPlanning.Proofs.Task.Outline

/-!
# Outlines can be read off their texts

The texts of an outline are neither tagged nor counted. They are read from the end: the links tell
where an action is and how many events it has. An outline is determined by its texts if no agent
and no true predicate is called like a handle or a link (`Outline.texts_injective`).
-/
namespace EpistemicPlanning

variable {kind : HandleKind} {w : WorldId} {x : String} {r r' : List String}

/-! ### Forms of texts -/

/-- The text is that of a link. -/
def IsLink (kind : HandleKind) (x : String) : Prop := ∃ l : Link kind, l.text = x

/-- The texts that stand for anything but a name. -/
inductive Reserved : String → Prop
  | world (w : WorldId) : Reserved w.text
  | predicate (id : PredicateId) : Reserved id.text
  | designated (w : WorldId) : Reserved (Outline.designatedText w)
  | link {kind : HandleKind} (l : Link kind) : Reserved l.text

theorem Reserved.of_eq {y : String} (h : x = y) (hy : Reserved y) : Reserved x := h ▸ hy

theorem IsLink.reserved (h : IsLink kind x) : Reserved x := by
  obtain ⟨l, rfl⟩ := h
  exact .link l

theorem IsLink.tilde_mem (h : IsLink kind x) : '~' ∈ x.toList := by
  obtain ⟨l, rfl⟩ := h
  exact Link.tilde_mem_text

theorem Handle.head_text {h : Handle kind} {c : Char} (hmark : kind.mark.toList.head? = some c) :
    h.text.toList.head? = some c := by
  rw [toList_text, List.head?_append, hmark, Option.some_or]

theorem Handle.head_world : w.text.toList.head? = some 'w' := head_text rfl

theorem IsLink.head {c : Char} (h : IsLink kind x) (hmark : kind.mark.toList.head? = some c) :
    x.toList.head? = some c := by
  obtain ⟨l, rfl⟩ := h
  rw [Link.toList_text, List.head?_append, Handle.head_text hmark, Option.some_or]

theorem IsLink.not_event (h : IsLink .world x) : ¬IsLink .event x := by
  intro h'
  have hhead : some 'w' = some 'e' := (h.head rfl).symm.trans (h'.head rfl)
  exact absurd hhead (by decide)

namespace Outline

theorem head_designatedText : (designatedText w).toList.head? = some 'd' := by
  rw [designatedText, String.toList_append, List.head?_append]
  rfl

theorem world_ne_designatedText {v : WorldId} : v.text ≠ designatedText w := by
  intro heq
  have hhead : some 'w' = some 'd' := by
    rw [← Handle.head_world (w := v), heq, head_designatedText]
  exact absurd hhead (by decide)

theorem designatedText_injective {w w' : WorldId} (h : designatedText w = designatedText w') :
    w = w' :=
  Handle.text_injective ((String.append_right_inj _).1 h)

theorem not_isLink_designatedText : ¬IsLink kind (designatedText w) := by
  intro h
  have htilde := h.tilde_mem
  rw [designatedText, String.toList_append, List.mem_append] at htilde
  exact htilde.elim (by decide) Handle.tilde_not_mem_text

end Outline

/-- Reserved texts begin with a mark of their own or have a tilde. -/
theorem Reserved.head_or_tilde (h : Reserved x) :
    x.toList.head? ∈ [some 'w', some '#', some 'd'] ∨ '~' ∈ x.toList := by
  cases h with
  | world w =>
    rw [Handle.head_world]
    exact Or.inl (by decide)
  | predicate id =>
    rw [Handle.head_text (rfl : HandleKind.predicate.mark.toList.head? = some '#')]
    exact Or.inl (by decide)
  | designated w =>
    rw [Outline.head_designatedText]
    exact Or.inl (by decide)
  | link l => exact Or.inr Link.tilde_mem_text

namespace Mention

/-- The atom of a predicate can be read, and it is not called like anything else. -/
inductive Legible : Mention → Prop
  | atom {a : GroundAtom} (ha : a.Legible) (hname : ¬Reserved a.text) : Legible (.atom a)
  | handle (id : PredicateId) : Legible (.handle id)

namespace Legible

variable {m m' : Mention}

/-- A legible predicate is not called like something else. -/
theorem text_ne (hm : m.Legible) (hx : Reserved x) (hhead : x.toList.head? ≠ some '#') :
    m.text ≠ x := by
  rintro rfl
  cases hm with
  | atom _ hname => exact hname hx
  | handle id => exact hhead (Handle.head_text rfl)

theorem text_ne_world (hm : m.Legible) : m.text ≠ w.text := by
  refine hm.text_ne (.world w) ?_
  rw [Handle.head_world]
  decide

theorem text_ne_designated (hm : m.Legible) : m.text ≠ Outline.designatedText w := by
  refine hm.text_ne (.designated w) ?_
  rw [Outline.head_designatedText]
  decide

theorem not_isLink (hm : m.Legible) : ¬IsLink kind m.text := by
  intro h
  cases hm with
  | atom _ hname => exact hname h.reserved
  | handle id => exact Handle.tilde_not_mem_text h.tilde_mem

theorem eq_of_text (hm : m.Legible) (hm' : m'.Legible) (h : m.text = m'.text) : m = m' := by
  cases hm with
  | @atom a ha hname =>
    cases hm' with
    | atom hb _ => rw [GroundAtom.text_injective ha hb h]
    | handle id => exact absurd (Reserved.of_eq h (.predicate id)) hname
  | handle id =>
    cases hm' with
    | @atom b _ hname => exact absurd (Reserved.of_eq h.symm (.predicate id)) hname
    | handle id' => rw [Handle.text_injective h]

end Legible

end Mention

/-! ### Relations -/

section Relations

variable {links links' : SortedMap Agent (SortedSet (Link kind))}

theorem linkParagraphs_injective (h : linkParagraphs links = linkParagraphs links') :
    links = links' := by
  refine SortedMap.eq_of_entries (Text.eq_of_map_eq (fun p _ q _ heq => ?_) h)
  obtain ⟨hname, hls⟩ := Paragraph.mk.inj heq
  have hlist := List.map_injective_iff.2 (fun _ _ => Link.text_injective) hls
  exact Prod.ext (congrArg Agent.mk hname) (SortedSet.eq_of_toList hlist)

theorem tellsLines_linkParagraphs (h : ∀ p ∈ links.entries, ¬Reserved p.1.name) :
    Paragraph.TellsLines (IsLink kind) (linkParagraphs links) := by
  intro q hq
  obtain ⟨⟨a, ls⟩, hp, rfl⟩ := List.mem_map.1 hq
  refine ⟨fun hlink => h _ hp hlink.reserved, fun x hx => ?_⟩
  obtain ⟨l, _, rfl⟩ := List.mem_map.1 hx
  exact ⟨l, rfl⟩

theorem below_ne_nil_linkParagraphs (h : ∀ p ∈ links.entries, p.2.toList ≠ []) :
    ∀ q ∈ linkParagraphs links, q.below ≠ [] := by
  intro q hq
  obtain ⟨⟨a, ls⟩, hp, rfl⟩ := List.mem_map.1 hq
  exact fun hnil => h _ hp (List.map_eq_nil_iff.1 hnil)

end Relations

/-! ### Actions -/

namespace Signature

/-- What makes a signature legible: there are events, each agent tells each of them from others but
not from itself, and no agent is called like something else. -/
structure Legible (s : Signature) : Prop where
  events : s.events ≠ []
  agents : s.links.entries ≠ []
  loops : ∀ p ∈ s.links.entries, ∀ e : EventId, Link.loop e ∈ p.2 ↔ e.index < s.events.length
  names : ∀ p ∈ s.links.entries, ¬Reserved p.1.name

variable {s s' : Signature} {es es' : List (String × Bool)} {l l' : List Signature}

theorem not_isLink_mark {designated : Bool} : ¬IsLink kind (mark designated) := by
  intro h
  have htilde := h.tilde_mem
  cases designated <;> exact absurd htilde (by decide)

theorem mark_injective : ∀ {b b' : Bool}, mark b = mark b' → b = b' := by decide

theorem events_injective (h : es.flatMap eventTexts = es'.flatMap eventTexts) : es = es' := by
  induction es generalizing es' with
  | nil =>
    cases es' with
    | nil => rfl
    | cons e' es' => cases h
  | cons e es ih =>
    cases es' with
    | nil => cases h
    | cons e' es' =>
      obtain ⟨hname, hrest⟩ := List.cons.inj h
      obtain ⟨hmark, hrest⟩ := List.cons.inj hrest
      rw [ih hrest, Prod.ext hname (mark_injective hmark)]

theorem length_flatMap_eventTexts : (es.flatMap eventTexts).length = 2 * es.length := by
  induction es with
  | nil => rfl
  | cons e es ih =>
    rw [List.flatMap_cons, List.length_append, ih, List.length_cons]
    change 2 + _ = _
    omega

/-- The number of events can be told from the links. -/
theorem Legible.length_eq (hs : s.Legible) (hs' : s'.Legible) (h : s.links = s'.links) :
    s.events.length = s'.events.length := by
  obtain ⟨p, hp⟩ := List.exists_mem_of_ne_nil _ hs.agents
  have hiff : ∀ n, n < s.events.length ↔ n < s'.events.length := fun n =>
    (hs.loops p hp ⟨n⟩).symm.trans (hs'.loops p (h ▸ hp) ⟨n⟩)
  have hle := hiff s.events.length
  have hle' := hiff s'.events.length
  omega

theorem Legible.below_ne_nil (hs : s.Legible) : ∀ p ∈ s.links.entries, p.2.toList ≠ [] := by
  intro p hp
  have hloop := (hs.loops p hp ⟨0⟩).2 (List.length_pos_of_ne_nil hs.events)
  exact List.ne_nil_of_mem hloop

/-- The texts before the links end with the mark of an event. -/
theorem Legible.not_isLink_of_heading (hs : s.Legible) :
    ∀ x ∈ (r ++ s.heading).getLast?, ¬IsLink kind x := by
  obtain ⟨es, e, hes⟩ := s.events.eq_nil_or_concat'.resolve_left hs.events
  have hlast : (r ++ s.heading).getLast? = some (mark e.2) := by
    simp [heading, hes, eventTexts, List.getLast?_cons]
  intro x hx
  rw [hlast] at hx
  cases hx
  exact not_isLink_mark

theorem Legible.eq_of_texts (hs : s.Legible) (hs' : s'.Legible)
    (h : r ++ s.texts = r' ++ s'.texts) : r = r' ∧ s = s' := by
  unfold texts at h
  rw [← List.append_assoc, ← List.append_assoc] at h
  obtain ⟨hbefore, hlinks⟩ := Paragraph.lines_injective_at_end
    (tellsLines_linkParagraphs hs.names) (tellsLines_linkParagraphs hs'.names)
    (below_ne_nil_linkParagraphs hs.below_ne_nil) (below_ne_nil_linkParagraphs hs'.below_ne_nil)
    hs.not_isLink_of_heading hs'.not_isLink_of_heading h
  have hlinks := linkParagraphs_injective hlinks
  -- as many events, so what is before the links begins at the same place
  have hlength : s.heading.length = s'.heading.length := by
    rw [heading, heading, List.length_append, List.length_append, length_flatMap_eventTexts,
      length_flatMap_eventTexts, hs.length_eq hs' hlinks]
    rfl
  obtain ⟨rfl, hheading⟩ := List.append_inj' hbefore hlength
  obtain ⟨hname, hrest⟩ := List.cons.inj hheading
  obtain ⟨howner, hevents⟩ := List.cons.inj hrest
  exact ⟨rfl, Signature.ext hname (congrArg Agent.mk howner) (events_injective hevents) hlinks⟩

theorem Legible.isLink_of_last (hs : s.Legible) :
    ∃ x ∈ (r ++ s.texts).getLast?, IsLink .event x := by
  rw [texts, ← List.append_assoc]
  exact Paragraph.line_of_last_paragraph (tellsLines_linkParagraphs hs.names)
    (below_ne_nil_linkParagraphs hs.below_ne_nil) fun hnil => hs.agents (List.map_eq_nil_iff.1 hnil)

/-- Whatever stands before the actions, as long as it does not end with a link of events. -/
theorem actions_injective (hl : ∀ s ∈ l, s.Legible) (hl' : ∀ s ∈ l', s.Legible)
    (hr : ∀ x ∈ r.getLast?, ¬IsLink .event x) (hr' : ∀ x ∈ r'.getLast?, ¬IsLink .event x)
    (h : r ++ l.flatMap texts = r' ++ l'.flatMap texts) : r = r' ∧ l = l' :=
  Text.flatMap_injective_at_end (fun _ hs _ => hs.isLink_of_last)
    (fun _ _ hs hs' _ _ h => hs.eq_of_texts hs' h) hl hl' hr hr' h

end Signature

/-! ### Tasks -/

namespace Outline

/-- What makes an outline legible: no true predicate and no agent is called like something else,
each agent has links when there are worlds, and the signatures of the actions are legible. -/
structure Legible (o : Outline) : Prop where
  mentions : ∀ p ∈ o.worlds, ∀ m ∈ p.2, m.Legible
  designated : o.worlds = [] → o.designated.toList = []
  linked : o.worlds ≠ [] → ∀ p ∈ o.links.entries, p.2.toList ≠ []
  names : ∀ p ∈ o.links.entries, ¬Reserved p.1.name
  actions : ∀ s ∈ o.actions, s.Legible

variable {o o' : Outline}

namespace Legible

theorem cases_worlds (ho : o.Legible) (hx : x ∈ Paragraph.lines o.worldParagraphs) :
    (∃ w : WorldId, x = w.text) ∨ ∃ m : Mention, m.Legible ∧ x = m.text := by
  obtain ⟨q, hq, hx⟩ := List.mem_flatMap.1 hx
  obtain ⟨⟨w, ms⟩, hp, rfl⟩ := List.mem_map.1 hq
  rcases List.mem_cons.1 hx with rfl | hx
  · exact Or.inl ⟨w, rfl⟩
  · obtain ⟨m, hm, rfl⟩ := List.mem_map.1 hx
    exact Or.inr ⟨m, ho.mentions _ hp m hm, rfl⟩

theorem not_isLink_of_heading (ho : o.Legible) (hx : x ∈ o.heading) : ¬IsLink kind x := by
  rcases List.mem_append.1 hx with hx | hx
  · rcases ho.cases_worlds hx with ⟨w, rfl⟩ | ⟨m, hm, rfl⟩
    · exact fun h => Handle.tilde_not_mem_text h.tilde_mem
    · exact hm.not_isLink
  · obtain ⟨w, _, rfl⟩ := List.mem_map.1 hx
    exact not_isLink_designatedText

/-- Links of events begin with the actions only. -/
theorem not_isLink_of_stateTexts (ho : o.Legible)
    (hx : x ∈ o.stateTexts) : ¬IsLink .event x := by
  rcases List.mem_append.1 hx with hx | hx
  · exact ho.not_isLink_of_heading hx
  · obtain ⟨q, hq, hx⟩ := List.mem_flatMap.1 hx
    have htells := tellsLines_linkParagraphs ho.names q hq
    obtain ⟨⟨a, ls⟩, hp, rfl⟩ := List.mem_map.1 hq
    rcases List.mem_cons.1 hx with rfl | hx
    · exact fun h => ho.names _ hp h.reserved
    · exact (htells.2 x hx).not_event

theorem worldParagraphs_injective (ho : o.Legible) (ho' : o'.Legible)
    (h : o.worldParagraphs = o'.worldParagraphs) : o.worlds = o'.worlds := by
  refine Text.eq_of_map_eq (fun p hp q hq heq => ?_) h
  obtain ⟨hworld, hmentions⟩ := Paragraph.mk.inj heq
  exact Prod.ext (Handle.text_injective hworld) (Text.eq_of_map_eq (fun m hm m' hm' =>
    (ho.mentions p hp m hm).eq_of_text (ho'.mentions q hq m' hm')) hmentions)

theorem tellsLines_worldParagraphs (ho : o.Legible) :
    Paragraph.TellsLines (fun x => ∀ w : WorldId, x ≠ w.text) o.worldParagraphs := by
  intro q hq
  obtain ⟨⟨w, ms⟩, hp, rfl⟩ := List.mem_map.1 hq
  refine ⟨fun h => h w rfl, fun x hx => ?_⟩
  obtain ⟨m, hm, rfl⟩ := List.mem_map.1 hx
  exact fun _ => (ho.mentions _ hp m hm).text_ne_world

theorem eq_of_heading (ho : o.Legible) (ho' : o'.Legible) (h : o.heading = o'.heading) :
    o.worlds = o'.worlds ∧ o.designated = o'.designated := by
  have hworlds : ∀ {o : Outline}, o.Legible → ∀ x ∈ Paragraph.lines o.worldParagraphs,
      ∀ w, x ≠ designatedText w := by
    intro o ho x hx w
    rcases ho.cases_worlds hx with ⟨v, rfl⟩ | ⟨m, hm, rfl⟩
    · exact world_ne_designatedText
    · exact hm.text_ne_designated
  have hdes : ∀ {o : Outline}, ∀ x ∈ (o.designated.toList.map designatedText).head?,
      ¬∀ w, x ≠ designatedText w := by
    intro o x hx hne
    obtain ⟨w, _, rfl⟩ := List.mem_map.1 (List.mem_of_mem_head? hx)
    exact hne w rfl
  obtain ⟨hlines, hdesignated⟩ := Text.eq_of_begins (hworlds ho) (hworlds ho') hdes hdes h
  have hparagraphs := Paragraph.lines_injective ho.tellsLines_worldParagraphs
    ho'.tellsLines_worldParagraphs hlines
  have hlist := List.map_injective_iff.2 (fun _ _ => designatedText_injective) hdesignated
  exact ⟨ho.worldParagraphs_injective ho' hparagraphs, SortedSet.eq_of_toList hlist⟩

theorem heading_eq_nil (ho : o.Legible) (hnil : o.worlds = []) : o.heading = [] := by
  rw [heading, worldParagraphs, hnil, ho.designated hnil]
  rfl

/-- There are worlds in both outlines or in neither. -/
theorem worlds_eq_nil (ho : o.Legible) (hnil : o.worlds = [])
    (h : o.stateTexts = o'.stateTexts) : o'.worlds = [] := by
  rw [stateTexts, stateTexts, ho.heading_eq_nil hnil, List.nil_append] at h
  by_contra hne
  obtain ⟨⟨w, ms⟩, rest, hworlds⟩ := List.exists_cons_of_ne_nil hne
  have hhead : (Paragraph.lines (linkParagraphs o.links)).head? = some w.text := by
    rw [h, heading, worldParagraphs, hworlds]
    rfl
  -- the first agent would be called like a world
  cases hlinks : o.links.entries with
  | nil =>
    rw [linkParagraphs, hlinks] at hhead
    cases hhead
  | cons p ps =>
    rw [linkParagraphs, hlinks] at hhead
    have hname : p.1.name = w.text := Option.some.inj hhead
    exact ho.names p (hlinks ▸ List.mem_cons_self) (.of_eq hname (.world w))

theorem eq_of_stateTexts (ho : o.Legible) (ho' : o'.Legible) (h : o.stateTexts = o'.stateTexts) :
    o.worlds = o'.worlds ∧ o.designated = o'.designated ∧ o.links = o'.links := by
  have htells := tellsLines_linkParagraphs ho.names
  have htells' := tellsLines_linkParagraphs ho'.names
  have hheading : o.heading = o'.heading ∧ linkParagraphs o.links = linkParagraphs o'.links := by
    by_cases hnil : o.worlds = []
    · have hnil' := ho.worlds_eq_nil hnil h
      rw [stateTexts, stateTexts, ho.heading_eq_nil hnil, ho'.heading_eq_nil hnil'] at h
      rw [ho.heading_eq_nil hnil, ho'.heading_eq_nil hnil']
      exact ⟨rfl, Paragraph.lines_injective htells htells' h⟩
    · have hne : o'.worlds ≠ [] := fun hnil' => hnil (ho'.worlds_eq_nil hnil' h.symm)
      exact Paragraph.lines_injective_at_end htells htells'
        (below_ne_nil_linkParagraphs (ho.linked hnil))
        (below_ne_nil_linkParagraphs (ho'.linked hne))
        (fun x hx => ho.not_isLink_of_heading (List.mem_of_getLast? hx))
        (fun x hx => ho'.not_isLink_of_heading (List.mem_of_getLast? hx)) h
  obtain ⟨hworlds, hdesignated⟩ := ho.eq_of_heading ho' hheading.1
  exact ⟨hworlds, hdesignated, linkParagraphs_injective hheading.2⟩

end Legible

theorem texts_injective (ho : o.Legible) (ho' : o'.Legible) (h : o.texts = o'.texts) :
    o = o' := by
  unfold texts at h
  obtain ⟨hrest, hgoal⟩ := List.append_inj' h rfl
  obtain ⟨hbefore, hactions⟩ := Signature.actions_injective ho.actions ho'.actions
    (fun x hx => ho.not_isLink_of_stateTexts (List.mem_of_getLast? hx))
    (fun x hx => ho'.not_isLink_of_stateTexts (List.mem_of_getLast? hx)) hrest
  obtain ⟨hworlds, hdesignated, hlinks⟩ := ho.eq_of_stateTexts ho' hbefore
  exact Outline.ext hworlds hdesignated hlinks hactions (List.singleton_inj.1 hgoal)

end Outline

end EpistemicPlanning
