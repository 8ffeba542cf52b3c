/-
  The bounds of relations and the content of elements.

  The relations of an entity give bounds for the child elements, and mark those
  that are alternatives.  What a sequence of child elements holds that the
  content model of the element admits is between these bounds up to three
  exceptions: an element below `oneOrMore` is required, whatever the repetition
  stands in; so is an alternative; and all alternatives of a choice are marked
  as such, also those that stand in one sequence.

  * `occurrences_bounded`: this is so in every document;
  * `order_not_bounded`: without the exceptions it is not.
-/
import Bindery.Proofs.Document.Folding
import Bindery.Proofs.Document.Licensed
import Bindery.Proofs.Resolution.Coverage
import Bindery.Proofs.Occurrence.Reading

namespace Bindery.Schema

open ElementPattern

/-! ## Relations -/

/-- Whether an element is among the alternatives with this mark. -/
def isAlternative (relations : List Relation) (mark t : String) : Bool :=
  relations.any fun r => r.target == t && r.choice == some mark

theorem isAlternative_iff {relations : List Relation} {mark t : String} :
    isAlternative relations mark t = true ↔
      ∃ r ∈ relations, r.target = t ∧ r.choice = some mark := by
  simp [isAlternative, List.any_eq_true]

namespace Marks

variable {k k' : Nat} {m : ContentModel String} {content : List (String × Pattern)}
  {r : Relation} {s : List String}

theorem count_le (h : Marks k {} m content k') (hr : r ∈ elementRelations content)
    (hs : s ∈ m.language) {n : Nat} (hmax : r.occurs.max = .count n) :
    s.count r.target ≤ n := by
  have hbounded : r.occurs.max ≠ .unbounded := by
    rw [hmax]
    exact MaxOccurs.noConfusion
  obtain ⟨q, hfilter, heq⟩ := (summary_of_mem hr).once hbounded
  have hq : q.repeats = false ∧ n = 1 := by
    rw [hmax, Pattern.max_occurs] at heq
    split at heq
    · cases heq
    · rename_i hrepeats
      exact ⟨by simpa using hrepeats, MaxOccurs.count.inj heq⟩
  have honce : ∀ c ∈ content, (c.1 == r.target) = true → c.2.repeats = false := by
    intro c hc htarget
    have hmem : c ∈ content.filter (·.1 == r.target) := List.mem_filter.2 ⟨hc, htarget⟩
    rw [hfilter] at hmem
    rw [List.mem_singleton.1 hmem]
    exact hq.1
  have hcount : content.countP (fun c => c.1 == r.target) = 1 := by
    rw [List.countP_eq_length_filter, hfilter]
    rfl
  have hmost := h.mostAs_le (P := (· == r.target)) honce .sequence
  rw [hcount] at hmost
  have hle := (ContentModel.atMost_mostAs (· == r.target) m .sequence s hs).trans hmost
  rw [hq.2]
  exact_mod_cast hle

/-- **A lower bound is 1**, or 0 if the element stands somewhere in `optional` or
    `zeroOrMore` and not in `oneOrMore`. -/
theorem min_eq_zero_iff (h : Marks k {} m content k') (hr : r ∈ elementRelations content) :
    r.occurs.min ≤ 1 ∧ (r.occurs.min = 0 ↔ ∃ ws, m.Holds r.target ws ∧ .oneOrMore ∉ ws ∧
      (.optional ∈ ws ∨ .zeroOrMore ∈ ws)) := by
  obtain ⟨q, hq, hmin⟩ := (summary_of_mem hr).attained
  obtain ⟨ws, hholds, hunder⟩ := h.exists_holds hq
  rw [← hmin]
  refine ⟨hunder.min_eq_zero_iff.1, fun hzero => ⟨ws, hholds, hunder.min_eq_zero_iff.2.1 hzero⟩, ?_⟩
  rintro ⟨ws', hholds', hws⟩
  obtain ⟨q', hq', hunder'⟩ := h.exists_of_holds hholds'
  have hle := (summary_of_mem hr).min_le q' hq'
  rw [← hmin, hunder'.min_eq_zero_iff.2.2 hws] at hle
  exact Nat.le_zero.1 hle

/-- **Lower bounds are met** by an element outside of choices, and of repetitions
    that are optional. -/
theorem min_le_count (h : Marks k {} m content k') (hr : r ∈ elementRelations content)
    {ws : List Wrapper} (hholds : m.Holds r.target ws) (hchoice : .choice ∉ ws)
    (hrepeated : ¬ (.oneOrMore ∈ ws ∧ (.optional ∈ ws ∨ .zeroOrMore ∈ ws)))
    (hs : s ∈ m.language) : r.occurs.min ≤ s.count r.target := by
  obtain ⟨hone, hzero⟩ := h.min_eq_zero_iff hr
  by_cases hrequired : .optional ∈ ws ∨ .zeroOrMore ∈ ws
  · -- the element is not required at all
    rw [hzero.2 ⟨ws, hholds, fun hone => hrepeated ⟨hone, hrequired⟩, hrequired⟩]
    exact Nat.zero_le _
  · have hws : ∀ w ∈ ws, w = .oneOrMore ∨ w = .group := by
      intro w hw
      cases w with
      | optional => exact absurd (.inl hw) hrequired
      | zeroOrMore => exact absurd (.inr hw) hrequired
      | choice => exact absurd hw hchoice
      | oneOrMore => exact .inl rfl
      | group => exact .inr rfl
    have hleast := ContentModel.le_least_iff.1
      (hholds.one_le_least hws (P := (· == r.target)) (beq_self_eq_true _)) s hs
    exact hone.trans (by exact_mod_cast hleast)

/-- **Alternatives exclude each other if the alternatives of each choice do**,
    unless one of them is a list. -/
theorem alternatives_iff (h : Marks k {} m content k') (hm : m.Proper)
    (hplus : ∀ t ∈ m.labels, '+' ∉ t.toList) {mark : String}
    (hlist : ∀ r ∈ elementRelations content, r.choice = some mark → r.isList = false) :
    (∀ s ∈ m.language, s.countP (isAlternative (elementRelations content) mark) ≤ 1) ↔
      ∀ alternatives ∈ m.choices,
        alternatives.mostAs (isAlternative (elementRelations content) mark) .alternatives ≤ 1 := by
  constructor
  · intro hall alternatives halternatives
    obtain ⟨hproper, hne⟩ := hm.of_mem_choices halternatives
    refine (ContentModel.mostAs_le_iff hproper (n := 1) (fun _ => hne)).2 fun s hs => ?_
    obtain ⟨t, ht, hpart⟩ := ContentModel.exists_outside hm halternatives hs
    exact hpart.sublist.countP_le.trans (hall t ht)
  · intro hchoices s hs
    rw [← h.labels] at hplus
    obtain ⟨group, hgroup⟩ := exists_alternation hplus hlist
    have hmarked : ∀ q ∈ content, isAlternative (elementRelations content) mark q.1 = true →
        q.2.choice = true ∧ q.2.group = group ∧ q.2.repeats = false := by
      intro q hq halternative
      obtain ⟨r, hr, htarget, hmark⟩ := isAlternative_iff.1 halternative
      exact hgroup r hr hmark q.2 (by rw [htarget]; exact hq)
    have hmost : m.most (isAlternative (elementRelations content) mark) ≤ 1 := by
      cases group with
      | none =>
        -- what is an alternative has a group
        have hnone : ∀ q ∈ content,
            ¬ isAlternative (elementRelations content) mark q.1 = true := by
          intro q hq halternative
          obtain ⟨hchoice, hnone, -⟩ := hmarked q hq halternative
          have hsome := h.alternates (fun hchoice => by cases hchoice) q hq hchoice
          rw [hnone] at hsome
          cases hsome
        rw [ContentModel.most, h.mostAs_eq_zero hnone]
        exact zero_le
      | some n =>
        exact h.most_le_one rfl (fun q hq hP => (hmarked q hq hP).2.2)
          (fun q hq hP => (hmarked q hq hP).2.1) hchoices
    exact (ContentModel.mostAs_le_iff hm (fun heq => by cases heq)).1 hmost s hs

end Marks

/-! ## Documents -/

/-- **Whether an entity of the document is that of the element pattern `e`**, and
    `children` are the identifiers of the entities of its child elements. -/
def Grammar.Describes (g : Grammar) (entity : Element) (e : ElementPattern)
    (children : List String) : Prop :=
  ∃ table path x id, Resolves g.definitions table path e x ∧
    g.resolve.1.finished.built.identifier? x = some id ∧
    g.resolve.1.build.1.elements.get? id = some entity ∧
    x.elements.map (fun c => (g.resolve.1.finished.built.identifier? c).getD c.name) = children

section
variable {ds table : Definitions} {path : List String} {e x : ElementPattern}

theorem Expands.pattern {owner : String} {grown out : ElementPattern} {rs : List Reference}
    (h : Expands ds table path owner grown rs out) : out.pattern = grown.pattern := by
  induction h with
  | nil => rfl
  | keep _ _ ih => exact ih
  | guard _ _ ih => exact ih
  | inline _ _ ih => rw [ih, foldl_inlineBody]

theorem Resolves.pattern (h : Resolves ds table path e x) : x.pattern = e.pattern := by
  obtain ⟨hx, -, -⟩ := h
  exact hx.pattern

theorem Resolves.of_references_nil (h : Resolves ds table path e x) (he : e.references = []) :
    x.references = [] ∧ x.elements.map (·.pattern) = e.elements.map (·.pattern) := by
  obtain ⟨hx, -, hc⟩ := h
  rw [he] at hx
  cases hx
  refine ⟨rfl, ?_⟩
  rw [List.append_nil]
  have hpatterns : ∀ {as bs : List ElementPattern}, List.Forall₂ (Resolves ds table path) as bs →
      bs.map (·.pattern) = as.map (·.pattern) := by
    intro as bs h
    induction h with
    | nil => rfl
    | cons hr _ ih => rw [List.map_cons, List.map_cons, hr.pattern, ih]
  exact hpatterns hc

theorem resolves_self (e : ElementPattern)
    (h : ∀ x ∈ e.walk, x.references = [] ∧ x.attributes = []) : Resolves ds table path e e := by
  induction e using childInduction with
  | step e ih =>
    obtain ⟨hreferences, hattributes⟩ := h e (mem_walk_self e)
    have hchildren : List.Forall₂ (Resolves ds table path) e.elements e.elements :=
      List.forall₂_same.2 fun c hc =>
        ih c hc fun x hx => h x (walk_eq.2 (.inr (mem_walkList.2 ⟨c, hc, hx⟩)))
    have hexpands : Expands ds table path e.name { e with elements := [], references := [] }
        e.references { e with elements := [], references := [] } := by
      rw [hreferences]
      exact .nil
    have hvalued : List.Forall₂ (Valued ds table path) e.attributes [] := by
      rw [hattributes]
      exact .nil
    have hresolves := Resolves.intro hexpands hvalued hchildren
    rw [List.append_nil, ← hattributes] at hresolves
    dsimp only at hresolves
    rw [← hreferences] at hresolves
    cases e
    exact hresolves

end

theorem Grammar.describes_self {g : Grammar} {e : ElementPattern} {id : String} {entity : Element}
    {children : List String} (h : ∀ x ∈ e.walk, x.references = [] ∧ x.attributes = [])
    (hid : g.resolve.1.finished.built.identifier? e = some id)
    (hget : g.resolve.1.build.1.elements.get? id = some entity)
    (hchildren : e.elements.map
      (fun c => (g.resolve.1.finished.built.identifier? c).getD c.name) = children) :
    g.Describes entity e children :=
  ⟨{}, [], e, id, resolves_self e h, hid, hget, hchildren⟩

theorem identifier_avoids {g : Grammar} {mark : Char} (hmark : mark ≠ '#' ∧ mark.isDigit = false)
    (h : ∀ e ∈ patterns g, mark ∉ e.name.toList) {c : ElementPattern} (hc : c ∈ patterns g) :
    mark ∉ ((g.finished.built.identifier? c).getD c.name).toList := by
  cases hid : g.finished.built.identifier? c with
  | none => exact h c hc
  | some id =>
    obtain ⟨q, hm⟩ := Built.mem_of_identifier? hid
    obtain ⟨k, -, rfl⟩ := (underway_finished g).numbered.exists_number hm
    exact not_mem_numberedName hmark (h c hc) k

/-- **The relations of an entity are those of the child elements of its
    pattern**, if that has no references, and no identifier contains `+`. -/
theorem Grammar.Describes.relations {g : Grammar}
    (hsharp : ∀ e ∈ patterns g, '#' ∉ e.name.toList)
    (hplus : ∀ e ∈ patterns g, '+' ∉ e.name.toList) {entity : Element} {e : ElementPattern}
    {children : List String} (h : g.Describes entity e children) (he : e.references = []) :
    entity.elementRelations = elementRelations (children.zip (e.elements.map (·.pattern))) ∧
      ∀ t ∈ children, '+' ∉ t.toList := by
  obtain ⟨table, path, x, id, hresolves, hid, hget, rfl⟩ := h
  obtain ⟨hreferences, hpatterns⟩ := hresolves.of_references_nil he
  obtain ⟨q, hm⟩ := Built.mem_of_identifier? hid
  constructor
  · rw [(entity_of_mem (resolve_avoids hsharp) hm).2] at hget
    cases hget
    rw [Built.entity, contentElements]
    simp only [hreferences, List.flatMap_nil, List.append_nil, List.map_map]
    rw [← hpatterns, List.zip_map']
    rfl
  · intro t ht
    obtain ⟨c, hc, rfl⟩ := List.mem_map.1 ht
    have hx := (underway_finished g.resolve.1).sites _ _ hm
    exact identifier_avoids (by decide) (resolve_avoids hplus) (mem_patterns_child hx hc)

namespace RelaxNg

open Markup (Node)

def ReadFrom (n : Node) (e : ElementPattern) : Prop :=
  ∃ p target r out r', (readPattern p target n).run r = (.ok out, r') ∧
    out.elements = target.elements ++ [e]

theorem ReadFrom.marks {head : Markup.Head} {children : List Node} {e : ElementPattern}
    (h : ReadFrom (.element head children) e) (hhead : Construct.ofHead head = .element)
    {α : Type} {m : ContentModel α} (hm : Models children m) :
    e.references = [] ∧ ∃ k content k', Marks k {} m content k' ∧
      content = m.labels.zip (e.elements.map (·.pattern)) := by
  obtain ⟨p, target, r, out, r', hrun, hadded⟩ := h
  rw [readPattern] at hrun
  simp only [hhead] at hrun
  obtain ⟨name, r₀, -, hrun⟩ := ReadM.exists_of_run_bind hrun
  obtain ⟨found, r₁, hcontent, hrun⟩ := ReadM.exists_of_run_bind hrun
  cases hrun
  obtain rfl := List.singleton_inj.1 (List.append_cancel_left hadded)
  obtain ⟨es, content, helements, hreferences, hpatterns, hmarks⟩ := marks_of_read hm hcontent
  refine ⟨hreferences, _, content, _, hmarks, ?_⟩
  rw [helements, List.nil_append]
  exact List.zip_of_prod hmarks.labels hpatterns.symm

/-- **What the bounds of relations say of the content of an element.**  In a
    grammar whose elements have names without `#` and `+`, let an element be read
    from a node whose children spell a content model, and let the model be
    labelled with the identifiers of the child elements.  Then the relations of
    the element lead to them, and

    * no admitted sequence holds more of them than the upper bound;
    * the lower bound is 1, or 0 if the child stands somewhere in `optional` or
      `zeroOrMore` and not in `oneOrMore`;
    * none holds fewer than the lower bound, exactly if the lower bound is not
      above what the model requires, and certainly if the child stands in the
      model outside of choices, and of `oneOrMore` together with `optional` or
      `zeroOrMore`;
    * none holds two of the alternatives with the same mark, if no relation with
      the mark is a list, exactly if no outermost choice of the model admits
      two. -/
theorem occurrences_bounded {g : Grammar} (hsharp : ∀ e ∈ patterns g, '#' ∉ e.name.toList)
    (hplus : ∀ e ∈ patterns g, '+' ∉ e.name.toList) {head : Markup.Head} {children : List Node}
    (hhead : Construct.ofHead head = .element) {e : ElementPattern}
    (hread : ReadFrom (.element head children) e) {m : ContentModel String}
    (hm : Models children m) {entity : Element} (hentity : g.Describes entity e m.labels) :
    entity.elementRelations.map (·.target) = distinct m.labels ∧
    (∀ r ∈ entity.elementRelations, ∀ s ∈ m.language, ∀ n, r.occurs.max = .count n →
      s.count r.target ≤ n) ∧
    (∀ r ∈ entity.elementRelations, r.occurs.min ≤ 1 ∧
      (r.occurs.min = 0 ↔ ∃ ws, m.Holds r.target ws ∧ .oneOrMore ∉ ws ∧
        (.optional ∈ ws ∨ .zeroOrMore ∈ ws)) ∧
      ((∀ s ∈ m.language, r.occurs.min ≤ s.count r.target) ↔
        r.occurs.min ≤ m.least (· == r.target)) ∧
      ∀ ws, m.Holds r.target ws → .choice ∉ ws →
        ¬ (.oneOrMore ∈ ws ∧ (.optional ∈ ws ∨ .zeroOrMore ∈ ws)) →
        ∀ s ∈ m.language, r.occurs.min ≤ s.count r.target) ∧
    ∀ mark, (∀ r ∈ entity.elementRelations, r.choice = some mark → r.isList = false) →
      ((∀ s ∈ m.language, s.countP (isAlternative entity.elementRelations mark) ≤ 1) ↔
        ∀ alternatives ∈ m.choices,
          alternatives.mostAs (isAlternative entity.elementRelations mark) .alternatives ≤ 1) := by
  obtain ⟨hreferences, k, content, k', hmarks, hcontent⟩ := hread.marks hhead hm
  obtain ⟨hrelations, havoid⟩ := hentity.relations hsharp hplus hreferences
  rw [hrelations, ← hcontent]
  refine ⟨?_, fun r hr s hs n hmax => hmarks.count_le hr hs hmax, fun r hr =>
    ⟨(hmarks.min_eq_zero_iff hr).1, (hmarks.min_eq_zero_iff hr).2, ?_, ?_⟩, ?_⟩
  · rw [elementRelations_targets, hmarks.labels]
  · rw [ContentModel.le_least_iff]
    exact forall₂_congr fun s _ => Nat.cast_le.symm
  · exact fun ws hholds hchoice hrepeated s hs =>
      hmarks.min_le_count hr hholds hchoice hrepeated hs
  · exact fun mark hlist => hmarks.alternatives_iff hm.proper havoid hlist

def textNode (name : String) : Node := namedNode "element" name [plainNode "text" []]

def invitationNode : Node :=
  namedNode "element" "invitation"
    [plainNode "oneOrMore" [plainNode "group" [textNode "guest"]],
      plainNode "optional" [textNode "note"],
      plainNode "zeroOrMore" [textNode "gift"],
      plainNode "choice"
        [textNode "street", plainNode "choice" [textNode "box", plainNode "empty" []]]]

def invitationModel : ContentModel String :=
  .wrapped .oneOrMore (.wrapped .group (.element "guest" .nil) .nil) <|
  .wrapped .optional (.element "note" .nil) <|
  .wrapped .zeroOrMore (.element "gift" .nil) <|
  .wrapped .choice (.element "street" (.wrapped .choice (.element "box" (.empty .nil)) .nil)) .nil

theorem models_invitation : Models invitationNode.children invitationModel := by
  have haddress : Models
      [textNode "street", plainNode "choice" [textNode "box", plainNode "empty" []]]
      (.element "street" (.wrapped .choice (.element "box" (.empty .nil)) .nil)) :=
    .element rfl (.wrapped rfl nofun (.element rfl (.empty rfl .nil)) .nil)
  exact .wrapped rfl nofun (.wrapped rfl nofun (.element rfl .nil) .nil) <|
    .wrapped rfl nofun (.element rfl .nil) <| .wrapped rfl nofun (.element rfl .nil) <|
    .wrapped rfl nofun haddress .nil

def invitationPattern : ElementPattern where
  name := "invitation"
  isEmpty := true
  elements := [
    { name := "guest", hasText := true, pattern := { oneOrMore := true } },
    { name := "note", hasText := true, pattern := { optional := true } },
    { name := "gift", hasText := true, pattern := { zeroOrMore := true } },
    { name := "street", hasText := true, pattern := { choice := true, group := some 1 } },
    { name := "box", hasText := true, pattern := { choice := true, group := some 1 } }]

def orderNode : Node :=
  namedNode "element" "order"
    [plainNode "optional" [plainNode "oneOrMore" [textNode "item"]],
      plainNode "choice" [textNode "note", plainNode "empty" []],
      plainNode "choice"
        [plainNode "group" [textNode "street", textNode "city"], textNode "box"]]

def orderPattern : ElementPattern where
  name := "order"
  isEmpty := true
  elements := [
    { name := "item", hasText := true, pattern := { optional := true, oneOrMore := true } },
    { name := "note", hasText := true, pattern := { choice := true, group := some 1 } },
    { name := "street", hasText := true, pattern := { choice := true, group := some 2 } },
    { name := "city", hasText := true, pattern := { choice := true, group := some 2 } },
    { name := "box", hasText := true, pattern := { choice := true, group := some 2 } }]

theorem readPattern_invitation_order :
    (readPattern {} {} invitationNode).run {} =
      (.ok { elements := [invitationPattern] }, { choices := 2 }) ∧
    (readPattern {} {} orderNode).run {} =
      (.ok { elements := [orderPattern] }, { choices := 2 }) := by
  constructor
  · cbv
  · cbv

def invitationGrammar : Grammar := { start := { elements := [invitationPattern] } }

def invitationEntity : Element where
  identifier := "invitation"
  name := "invitation"
  elementRelations := [
    { target := "guest", occurs := ⟨1, .unbounded⟩ },
    { target := "note", occurs := ⟨0, .count 1⟩ },
    { target := "gift", occurs := ⟨0, .unbounded⟩ },
    { target := "street", choice := some "street+box" },
    { target := "box", choice := some "street+box" }]

theorem invitation_finished :
    invitationGrammar.resolve.1.finished.built =
        (invitationPattern :: invitationPattern.elements).map (fun e => (e, e.name)) ∧
      invitationGrammar.resolve.1.build.1.elements.get? "invitation" = some invitationEntity := by
  cbv

theorem readFrom_invitation : ReadFrom invitationNode invitationPattern :=
  ⟨_, _, _, _, _, readPattern_invitation_order.1, rfl⟩

theorem describes_invitation :
    invitationGrammar.Describes invitationEntity invitationPattern invitationModel.labels := by
  have hplain : ∀ x ∈ invitationPattern.walk, x.references = [] ∧ x.attributes = [] := by
    decide
  obtain ⟨hbuilt, hentity⟩ := invitation_finished
  refine Grammar.describes_self hplain ?_ hentity ?_
  · rw [hbuilt]
    decide
  · rw [hbuilt]
    decide

theorem invitation_bounded :
    ReadFrom invitationNode invitationPattern ∧ Models invitationNode.children invitationModel ∧
    invitationGrammar.Describes invitationEntity invitationPattern invitationModel.labels ∧
    ∀ s ∈ invitationModel.language, 1 ≤ s.count "guest" ∧ s.count "note" ≤ 1 ∧
      s.countP (isAlternative invitationEntity.elementRelations "street+box") ≤ 1 := by
  have hnames : ∀ e ∈ patterns invitationGrammar,
      '#' ∉ e.name.toList ∧ '+' ∉ e.name.toList := by decide
  obtain ⟨-, hmost, hleast, halternatives⟩ := occurrences_bounded (fun e he => (hnames e he).1)
    (fun e he => (hnames e he).2) rfl readFrom_invitation models_invitation describes_invitation
  refine ⟨readFrom_invitation, models_invitation, describes_invitation, fun s hs => ⟨?_, ?_, ?_⟩⟩
  · exact (hleast _ (.head _)).2.2.2 [.oneOrMore, .group] (.inside (.inside .here)) (by decide)
      (by decide) s hs
  · exact hmost _ (.tail _ (.head _)) s hs 1 rfl
  · refine (halternatives "street+box" (by decide)).2 ?_ s hs
    intro alternatives hchoice
    obtain rfl := List.mem_singleton.1 hchoice
    have hmembers : ∀ t ∈ ["street", "box"],
        isAlternative invitationEntity.elementRelations "street+box" t = true := by decide
    simp [ContentModel.mostAs, Arrangement.most, Wrapper.most, Wrapper.arrangement,
      hmembers]

def orderModel : ContentModel String :=
  .wrapped .optional (.wrapped .oneOrMore (.element "item" .nil) .nil) <|
  .wrapped .choice (.element "note" (.empty .nil)) <|
  .wrapped .choice
    (.wrapped .group (.element "street" (.element "city" .nil)) (.element "box" .nil)) .nil

theorem models_order : Models orderNode.children orderModel := by
  have haddress : Models
      [plainNode "group" [textNode "street", textNode "city"], textNode "box"]
      (.wrapped .group (.element "street" (.element "city" .nil)) (.element "box" .nil)) :=
    .wrapped rfl nofun (.element rfl (.element rfl .nil)) (.element rfl .nil)
  exact .wrapped rfl nofun (.wrapped rfl nofun (.element rfl .nil) .nil) <|
    .wrapped rfl nofun (.element rfl (.empty rfl .nil)) <| .wrapped rfl nofun haddress .nil

def orderGrammar : Grammar := { start := { elements := [orderPattern] } }

def orderEntity : Element where
  identifier := "order"
  name := "order"
  elementRelations := [
    { target := "item", occurs := ⟨1, .unbounded⟩ },
    { target := "note", occurs := ⟨1, .count 1⟩ },
    { target := "street", choice := some "street+city+box" },
    { target := "city", choice := some "street+city+box" },
    { target := "box", choice := some "street+city+box" }]

theorem order_finished :
    orderGrammar.resolve.1.finished.built =
        (orderPattern :: orderPattern.elements).map (fun e => (e, e.name)) ∧
      orderGrammar.resolve.1.build.1.elements.get? "order" = some orderEntity := by
  cbv

theorem readFrom_order : ReadFrom orderNode orderPattern :=
  ⟨_, _, _, _, _, readPattern_invitation_order.2, rfl⟩

theorem describes_order :
    orderGrammar.Describes orderEntity orderPattern orderModel.labels := by
  have hplain : ∀ x ∈ orderPattern.walk, x.references = [] ∧ x.attributes = [] := by
    decide
  obtain ⟨hbuilt, hentity⟩ := order_finished
  refine Grammar.describes_self hplain ?_ hentity ?_
  · rw [hbuilt]
    decide
  · rw [hbuilt]
    decide

/-- **The bounds do not hold as they are**: an address is an order without items
    and without a note, both of which are required, and it consists of two
    alternatives. -/
theorem order_not_bounded :
    ReadFrom orderNode orderPattern ∧ Models orderNode.children orderModel ∧
    orderGrammar.Describes orderEntity orderPattern orderModel.labels ∧
    ["street", "city"] ∈ orderModel.language ∧
    (∀ t ∈ ["item", "note"], ∃ r ∈ orderEntity.elementRelations, r.target = t ∧
      r.choice = none ∧ ["street", "city"].count t < r.occurs.min) ∧
    (∀ r ∈ orderEntity.elementRelations, r.choice = some "street+city+box" →
      r.isList = false) ∧
    1 < ["street", "city"].countP
      (isAlternative orderEntity.elementRelations "street+city+box") := by
  refine ⟨readFrom_order, models_order, describes_order, ?_, by decide, by decide, by decide⟩
  have haddress : ["street", "city"] ∈ ContentModel.languageAs (.wrapped .group
      (.element "street" (.element "city" .nil)) (.element "box" .nil)) .alternatives :=
    .inl ⟨["street"], rfl, ["city"], ⟨["city"], rfl, [], rfl, rfl⟩, rfl⟩
  exact ⟨[], .inl rfl, ["street", "city"],
    ⟨[], .inr (.inl rfl), ["street", "city"], ⟨["street", "city"], haddress, [], rfl, rfl⟩, rfl⟩,
    rfl⟩

end RelaxNg

end Bindery.Schema
