/-
  Attributes that may be absent.

  A member for an attribute that may be absent holds nothing unless the attribute
  is there, and nothing is written for it then.

  * `read_without`: an element that is read is read without such an attribute,
    too, and the members for it hold nothing;
  * `not_mem_attributesOf`: then it is not written;
  * `mayBeAbsent`: an attribute stands under `optional` or `choice` and under no
    repetition;
  * `attributes_stay_absent`: the members for these are the ones that may be absent,
    in the classes of a grammar;
  * `photo_tag_appears`: a repetition makes the attribute be there.
-/
import Bindery.Proofs.Binding.Shares
import Bindery.Proofs.Instance.Acceptance
import Bindery.Proofs.Instance.Seen
import Bindery.Proofs.Path.Offered

namespace Bindery.Instance

open Binding Markup

/-! ## Leaving out an attribute -/

def without (tag : String) (head : Head) : Head :=
  { head with attributes := head.attributes.filter (·.name != tag) }

section
variable {cs : Classes} {name tag : String} {type : ValueType} {c : Binding.Class}
  {slots : List Slot} {head : Head} {children : List Node} {s : Slot} {i : Nat}

theorem deliveries_without_sublist :
    (deliveries cs slots (.element (without tag head) children)).Sublist
      (deliveries cs slots (.element head children)) :=
  ((List.filter_sublist.filterMap _).append (.refl _)).append (.refl _)

theorem deliveries_without (hs : slots[i]? = some s) (hplace : s.place = .attr tag type)
    {d : Delivery} (hd : d ∈ deliveries cs slots (.element (without tag head) children)) :
    d.index ≠ i := by
  intro hindex
  rw [deliveries, List.mem_append, List.mem_append] at hd
  rcases hd with (hd | hd) | hd
  · obtain ⟨a, ha, hd⟩ := List.mem_filterMap.1 hd
    have hname : a.name ≠ tag := by simpa using (List.mem_filter.1 ha).2
    have htag := tag_of_attributeDelivery hs hd hindex
    rw [Slot.attributeTags, hplace] at htag
    exact hname (List.mem_singleton.1 htag)
  · have htext := isSome_of_textDelivery hs (Option.mem_toList.1 hd) hindex
    rw [textType?, hplace] at htext
    cases htext
  · obtain ⟨n, -, hd⟩ := List.mem_filterMap.1 hd
    have htakes := takes_of_childDelivery hs hd hindex
    simp [takes, Slot.children, hplace] at htakes

theorem read_without (hget : cs.get? c.name = some c) (tag : String) {v : Datum}
    (hread : readObject cs c.name (.element head children) = .ok v) :
    ∃ fields, readObject cs c.name (.element (without tag head) children) =
        .ok (.object c.name fields) ∧
      ∀ (i : Nat) s type, c.slots[i]? = some s → s.place = .attr tag type →
        s.cardinality = .optional → fields[i]? = some .absent := by
  obtain ⟨hname, hall, -⟩ := (readObject_eq_ok_iff hget rfl).1 hread
  refine ⟨_, (readObject_eq_ok_iff hget rfl).2 ⟨hname, fun d hd => ?_, rfl⟩, ?_⟩
  · exact hall d (deliveries_without_sublist.subset hd)
  · intro i s type hs hplace hoptional
    have hnone : (deliveries cs c.slots (.element (without tag head) children)).filter
        (·.index == i) = [] :=
      List.filter_eq_nil_iff.2 fun d hd => by simpa using deliveries_without hs hplace hd
    rw [delivered, List.getElem?_mapIdx, List.getElem?_map, hs, hnone]
    simp [initialField, hoptional]

theorem exists_of_mem_attributesOf {x : String × String} :
    ∀ {slots : List Slot} {fields : List Datum}, x ∈ attributesOf slots fields →
      ∃ (i : Nat) (s : Slot) (d : Datum) (type : ValueType), slots[i]? = some s ∧
        fields[i]? = some d ∧ s.place = .attr x.1 type ∧ held s d ≠ []
  | [], _, h => by
    rw [attributesOf] at h
    · cases h
    · simp
  | _ :: _, [], h => by
    rw [attributesOf] at h
    · cases h
    · simp
  | s :: slots, d :: fields, h => by
    rw [attributesOf] at h
    rcases List.mem_append.1 h with h | h
    · split at h
      · rename_i tag type hplace
        obtain ⟨v, hv, rfl⟩ := List.mem_map.1 h
        exact ⟨0, s, d, type, rfl, rfl, hplace, List.ne_nil_of_mem hv⟩
      · cases h
    · obtain ⟨i, t, e, type, hslot, hfield, hrest⟩ := exists_of_mem_attributesOf h
      exact ⟨i + 1, t, e, type, hslot, hfield, hrest⟩

theorem not_mem_attributesOf {fields : List Datum}
    (h : ∀ (i : Nat) s type, slots[i]? = some s → s.place = .attr tag type →
      s.cardinality = .optional ∧ fields[i]? = some .absent) :
    tag ∉ (attributesOf slots fields).map (·.1) := by
  intro hmem
  obtain ⟨x, hx, rfl⟩ := List.mem_map.1 hmem
  obtain ⟨i, s, d, type, hslot, hfield, hplace, hheld⟩ := exists_of_mem_attributesOf hx
  obtain ⟨hoptional, habsent⟩ := h i s type hslot hplace
  obtain rfl : d = .absent := Option.some.inj (hfield.symm.trans habsent)
  refine hheld ?_
  unfold held
  rw [hoptional]

end

/-! ## Members that may be absent -/

/-- Whether an element that is read as the class is read without the attribute,
    too, and written without it. -/
def StaysAbsent (cs : Classes) (c : Binding.Class) (tag : String) : Prop :=
  ∀ head children v, readObject cs c.name (.element head children) = .ok v →
    ∃ v' attributes contents,
      readObject cs c.name (.element (without tag head) children) = .ok v' ∧
      contentOf cs v' = [.element c.tag attributes contents] ∧ tag ∉ attributes.map (·.1)

theorem eq_of_attr {c : Binding.Class} (hshaped : c.Shaped) {s t : Slot} {tag : String}
    {type type' : ValueType} (hs : s ∈ c.attributes) (hplace : s.place = .attr tag type)
    (ht : t ∈ c.slots) (hplace' : t.place = .attr tag type') : t = s := by
  have htag : tag ∈ t.attributeTags := by simp [Slot.attributeTags, hplace']
  simp only [Class.slots, List.mem_append] at ht
  rcases ht with (ht | ht) | ht
  · exact eq_of_attributeTag hshaped.attributeTags ht hs htag
      (by simp [Slot.attributeTags, hplace])
  · rw [attributeTags_of_isText (hshaped.text t ht)] at htag
    cases htag
  · rw [attributeTags_of_isElement (hshaped.elements t ht)] at htag
    cases htag

theorem staysAbsent_of_optional {cs : Classes} {c : Binding.Class} {tag : String}
    {type : ValueType} {s : Slot} (hget : cs.get? c.name = some c) (hshaped : c.Shaped)
    (hs : s ∈ c.attributes) (hplace : s.place = .attr tag type)
    (hoptional : s.cardinality = .optional) : StaysAbsent cs c tag := by
  intro head children v hread
  obtain ⟨fields, hread', habsent⟩ := read_without hget tag hread
  have hslot : s ∈ c.slots := by simp [Class.slots, hs]
  have hlist : c.isListShaped = false := by
    rw [Class.isListShaped, Bool.and_eq_false_iff]
    refine .inr (List.all_eq_false.2 ⟨s, hslot, ?_⟩)
    simp [hplace]
  refine ⟨_, attributesOf c.slots fields, fieldsContent cs c.slots fields, hread', ?_, ?_⟩
  · simp [contentOf, hget, elementOf, hlist]
  · refine not_mem_attributesOf fun i t type' ht hplace' => ?_
    obtain rfl := eq_of_attr hshaped hs hplace (List.mem_of_getElem? ht) hplace'
    exact ⟨hoptional, habsent i t type' ht hplace' hoptional⟩

end Bindery.Instance

namespace Bindery.Schema.RelaxNg

open Binding Instance
open Markup (Node)

theorem isOptional_occurs (p : Pattern) :
    p.occurs.isOptional = (p.optional && !p.zeroOrMore && !p.oneOrMore) := by
  obtain ⟨optional, zeroOrMore, oneOrMore, choice, group⟩ := p
  cases optional <;> cases zeroOrMore <;> cases oneOrMore <;> rfl

/-- **Whether an attribute under these constructs may be absent**: if one of them is
    `optional` or a choice and none is a repetition. -/
def mayBeAbsent (root : Node) (ws : List Address) : Bool :=
  ws.any (fun w => stands root .optional w || stands root .choice w) &&
    ws.all (fun w => !stands root .zeroOrMore w && !stands root .oneOrMore w)

theorem isOptional_attributeUnder (root : Node) (ws : List Address) :
    (attributeUnder root ws).occurs.isOptional = mayBeAbsent root ws := by
  rw [isOptional_occurs, Bool.eq_iff_iff]
  simp [attributeUnder, mayBeAbsent, and_or_left, exists_or, forall_and, and_assoc]

/-- Whether a slot, and the member that is written for it, is for an attribute
    under these constructs. -/
structure MemberFor (root : Node) (classes : List Binding.Class) (c : Binding.Class)
    (tag : String) (ws : List Address) (s : Slot) : Prop where
  /-- The type of the member says whether the attribute may be absent. -/
  type : ∃ type, s.place = .attr tag type ∧
    s.memberText = if mayBeAbsent root ws then s!"Option<{type.text}>" else type.text
  written : ∀ runtime rt, (s.member, s.memberText) ∈
    (Code.classOf runtime rt c).members.map fun m => (m.name, m.type)
  absent : mayBeAbsent root ws = true → StaysAbsent classes c tag

/-- Whether the members of a class for attributes are for those of a content. -/
structure MembersFor (root : Node) (classes : List Binding.Class) (c : Binding.Class)
    (found : List Address) : Prop where
  /-- There are members for what is offered only. -/
  offered : ∀ s ∈ c.attributes, ∃ tag ws, Offered root tag found ws ∧
    MemberFor root classes c tag ws s
  /-- Every attribute that is the first of its name has its member. -/
  first : ∀ tag b, First root tag found b →
    ∃ s ∈ c.attributes, MemberFor root classes c tag (enclosing root b) s

section
variable {root : Node} {site : Binding.Site} {classes : List Binding.Class} {c : Binding.Class}
  {path : List String} {held : List Holding} {id : String} {e : Element} {found : List Address}

theorem Offering.names_nodup (h : Offering root site.document id e found)
    (htargets : (e.attributeRelations.map (·.target)).Nodup) :
    (e.attributeRelations.map site.document.attributeName).Nodup := by
  refine List.Nodup.of_map (id ++ "@" ++ ·) ?_
  have heq : (e.attributeRelations.map site.document.attributeName).map (id ++ "@" ++ ·) =
      e.attributeRelations.map (·.target) := by
    rw [List.map_map]
    refine List.map_congr_left fun r hr => ?_
    obtain ⟨x, -, hget, htarget, -⟩ := h.offered r hr
    rw [Function.comp_apply, Document.attributeName, hget, htarget]
    rfl
  rwa [heq]

theorem memberFor_of_slot (hget : Classes.get? classes c.name = some c) (hshaped : c.Shaped)
    {s : Slot} (hs : s ∈ c.attributes) {taken : List String} {r : Relation} {x : Attribute}
    {hs' : List Holding} (hfor : AttributeSlotFor taken r x s hs') {ws : List Address}
    (hoccurs : r.occurs = (attributeUnder root ws).occurs) :
    MemberFor root classes c x.name ws s := by
  have hoptional : r.isOptional = mayBeAbsent root ws := by
    rw [Relation.isOptional, hoccurs, isOptional_attributeUnder]
  obtain ⟨type, hplace, -, htext⟩ := hfor.memberText
  refine ⟨⟨type, hplace, hoptional ▸ htext⟩, fun _ _ => ?_, fun habsent => ?_⟩
  · rw [Code.classOf, List.map_map]
    exact List.mem_map.2 ⟨s, by simp [Class.slots, hs], rfl⟩
  · exact staysAbsent_of_optional hget hshaped hs hplace
      (hfor.optional.2 (hoptional.trans habsent))

/-- The attribute that a slot is for, with the constructs that it is offered
    under. -/
theorem Offering.exists_offered (h : Offering root site.document id e found)
    (hget : Classes.get? classes c.name = some c) (hshaped : c.Shaped) {r : Relation}
    (hr : r ∈ e.attributeRelations) {s : Slot} (hs : s ∈ c.attributes)
    (hslot : ∃ x taken hs, site.document.attributes.get? r.target = some x ∧
      AttributeSlotFor taken r x s hs) :
    ∃ tag ws, r.target = id ++ "@" ++ tag ∧ Offered root tag found ws ∧
      r.occurs = (attributeUnder root ws).occurs ∧
      ∀ ws', r.occurs = (attributeUnder root ws').occurs → MemberFor root classes c tag ws' s := by
  obtain ⟨x, _, _, hx, hfor⟩ := hslot
  obtain ⟨x', ws, hx', htarget, hoffered, hoccurs⟩ := h.offered r hr
  obtain rfl : x = x' := Option.some.inj (hx.symm.trans hx')
  exact ⟨x.name, ws, htarget, hoffered, hoccurs, fun _ => memberFor_of_slot hget hshaped hs hfor⟩

/-- **The class of an entity has a member for each of its attributes**, and the
    constructs on the way to the attribute decide about it. -/
theorem Offering.membersFor (h : Offering root site.document id e found)
    (htargets : (e.attributeRelations.map (·.target)).Nodup) (hclass : ClassFor site path e c held)
    (hget : Classes.get? classes c.name = some c) :
    MembersFor root classes c found ∧ ∀ tag, ∀ r ∈ e.attributeRelations,
      r.target = id ++ "@" ++ tag → ∃ s ∈ c.attributes, ∃ ws, Offered root tag found ws ∧
        MemberFor root classes c tag ws s := by
  have hshaped := hclass.shaped (h.names_nodup htargets)
  obtain ⟨_, _, _, _, _, -, -, hattributes, -⟩ := hclass.slots
  have hslots := hattributes.forall₂ fun r hr => by
    obtain ⟨x, -, hx, -⟩ := h.offered r hr
    rw [hx]
    rfl
  refine ⟨⟨fun s hs => ?_, fun tag b hb => ?_⟩, fun tag r hr htarget => ?_⟩
  · obtain ⟨r, hr, hslot⟩ := forall₂_mem_right hslots hs
    obtain ⟨tag, ws, -, hoffered, hoccurs, hmember⟩ := h.exists_offered hget hshaped hr hs hslot
    exact ⟨tag, ws, hoffered, hmember ws hoccurs⟩
  · obtain ⟨r, hr, htarget, hoccurs⟩ := h.first tag b hb
    obtain ⟨s, hs, hslot⟩ := forall₂_mem_left hslots hr
    obtain ⟨tag', -, htarget', -, -, hmember⟩ := h.exists_offered hget hshaped hr hs hslot
    obtain rfl := (String.append_right_inj _).1 (htarget'.symm.trans htarget)
    exact ⟨s, hs, hmember _ hoccurs⟩
  · obtain ⟨s, hs, hslot⟩ := forall₂_mem_left hslots hr
    obtain ⟨tag', ws, htarget', hoffered, hoccurs, hmember⟩ :=
      h.exists_offered hget hshaped hr hs hslot
    obtain rfl := (String.append_right_inj _).1 (htarget'.symm.trans htarget)
    exact ⟨s, hs, ws, hoffered, hmember ws hoccurs⟩

end

/-- **Absent attributes stay absent.**  In the classes of a grammar whose names of
    elements contain neither `#` nor `@`, the members for attributes are for those
    that one element with the tag of the class offers, and every attribute of this
    element that is the first of its name has its member.  The type of the member
    says that the attribute may be absent exactly if it stands under `optional` or
    `choice` and under no repetition, where the constructs around references count,
    and elements are read without such an attribute and written without it.  Where
    recursion is guarded, this holds for the classes of all that the start reaches,
    and the attributes that are offered over references have members, too. -/
theorem attributes_stay_absent {dialect : Option Dialect} {root : Node} {g : Grammar}
    (hdialect : (dialect <|> Dialect.ofRoot? root) = some .relaxNg)
    (hread : (readGrammar dialect root).1 = .ok g)
    (hsharp : ∀ e ∈ patterns g, '#' ∉ e.name.toList)
    (hat : ∀ e ∈ patterns g, '@' ∉ e.name.toList) {site : Binding.Site}
    (hsite : site.document = g.resolve.1.build.1) {classes : List Binding.Class}
    (hplan : (plan site).1 = .ok classes) :
    (∀ c ∈ classes, ∃ a, stands root .element a = true ∧ Named root a c.tag ∧
      MembersFor root classes c (content root a)) ∧
    (g.Guarded → ∃ number, GrammarTraced root number g ∧ ∀ e, g.Reaches e →
      ∃ a id entity, stands root .element a = true ∧ Named root a e.name ∧
        Traced root number (content root a) e ∧
        site.document.elements.get? id = some entity ∧ entity.name = e.name ∧
        ∀ c ∈ classes, c.element = id → c.tag = e.name ∧
          MembersFor root classes c (content root a) ∧
          ∀ tag ws, Offered root tag (content root a) ws → ∃ s ∈ c.attributes, ∃ ws',
            Offered root tag (content root a) ws' ∧ MemberFor root classes c tag ws' s) := by
  have hclosed := (closing_finished g.resolve.1).closed
  have htargets : ∀ {id e}, site.document.elements.get? id = some e →
      (e.attributeRelations.map (·.target)).Nodup := by
    intro id e he
    rw [hsite] at he
    exact (hclosed.elements (id, e) (Table.mem_entries_of_get? he)).attributeTargets
  have hd : site.document.Keyed := by
    rw [hsite]
    exact Document.keyed_of_entries fun entry hm => (hclosed.elements entry hm).identifier
  obtain ⟨number, hg, -⟩ := exists_grammarTraced hdialect hread
  refine ⟨fun c hc => ?_, fun hguarded => ⟨number, hg, fun e he => ?_⟩⟩
  · obtain ⟨id, e, path, held, hentity, hclass⟩ := plan_faithful hd hplan hc
    obtain ⟨a, helement, hname, hoffering⟩ := entity_offering hg hsharp hat (hsite ▸ hentity)
    rw [← hsite] at hoffering
    exact ⟨a, helement, hclass.tag ▸ hname,
      (hoffering.membersFor (htargets hentity) hclass (plan_found hd hplan hc)).1⟩
  · obtain ⟨a, id, entity, helement, hname, htraced, hentity, hsame, hoffering, hall⟩ :=
      reached_offering hg hsharp hat hread hguarded he
    rw [← hsite] at hoffering hentity
    refine ⟨a, id, entity, helement, hname, htraced, hentity, hsame, fun c hc hid => ?_⟩
    obtain ⟨id', e', path, held, hentity', hclass⟩ := plan_faithful hd hplan hc
    obtain rfl : id' = id := (hd _ _ hentity').symm.trans (hclass.element.symm.trans hid)
    obtain rfl : e' = entity := Option.some.inj (hentity'.symm.trans hentity)
    obtain ⟨hmembers, hmember⟩ :=
      hoffering.membersFor (htargets hentity) hclass (plan_found hd hplan hc)
    refine ⟨hclass.tag.trans hsame, hmembers, fun tag ws hoffered => ?_⟩
    obtain ⟨r, hr, htarget⟩ := hall tag ws hoffered
    exact hmember tag r hr htarget

/-- Photos: a title or a caption, through a reference that is optional, and tags
    and keywords that are repeated. -/
def photoRoot : Node :=
  plainNode "grammar"
    [plainNode "start" [namedNode "element" "photo"
      [plainNode "optional" [namedNode "ref" "heading" []],
      plainNode "optional" [plainNode "oneOrMore" [namedNode "attribute" "tag" []]],
      plainNode "zeroOrMore" [namedNode "attribute" "keyword" []]]],
    namedNode "define" "heading"
      [plainNode "choice" [namedNode "attribute" "title" [], namedNode "attribute" "caption" []]]]

def photoPattern : ElementPattern where
  name := "photo"
  attributes := [{ name := "tag", pattern := { optional := true, oneOrMore := true } },
    { name := "keyword", pattern := { zeroOrMore := true } }]
  references := [{ name := "heading", pattern := { optional := true } }]

def photoGrammar : Grammar where
  start := { elements := [photoPattern] }
  definitions := ⟨[("heading", [{
    name := "heading"
    attributes := [{ name := "title", pattern := { optional := true } },
      { name := "caption", pattern := { optional := true } }] }])]⟩

def photoDocument : Document :=
  { roots := ["photo"]
    elements := ⟨[("photo", {
      identifier := "photo", name := "photo"
      attributeRelations := [
        { target := "photo@tag", occurs := { min := 1, max := .unbounded } },
        { target := "photo@keyword", occurs := { min := 0, max := .unbounded } },
        { target := "photo@title", occurs := { min := 0, max := .count 1 } },
        { target := "photo@caption", occurs := { min := 0, max := .count 1 } }] })]⟩
    attributes := ⟨[
      ("photo@tag", { identifier := "photo@tag", name := "tag" }),
      ("photo@keyword", { identifier := "photo@keyword", name := "keyword" }),
      ("photo@title", { identifier := "photo@title", name := "title" }),
      ("photo@caption", { identifier := "photo@caption", name := "caption" })]⟩ }

theorem build_photo : (readGrammar none photoRoot).1 = .ok photoGrammar ∧
    photoGrammar.resolve.1.build.1 = photoDocument := ⟨by rfl, by cbv⟩

def photoClass : Binding.Class where
  name := "Photo"
  element := "photo"
  tag := "photo"
  root := true
  attributes := [⟨"tag", "tag", .one, .attr "tag" (.scalar .string)⟩,
    ⟨"keyword", "keyword", .one, .attr "keyword" (.scalar .string)⟩,
    ⟨"title", "title", .optional, .attr "title" (.scalar .string)⟩,
    ⟨"caption", "caption", .optional, .attr "caption" (.scalar .string)⟩]

theorem plan_photo : (plan { document := photoDocument }).1 = .ok [photoClass] := by
  decide +kernel

theorem photo_stays_absent :
    (readGrammar none photoRoot).1 = .ok photoGrammar ∧
    (∀ e ∈ patterns photoGrammar, '#' ∉ e.name.toList) ∧
    (∀ e ∈ patterns photoGrammar, '@' ∉ e.name.toList) ∧
    photoDocument = photoGrammar.resolve.1.build.1 ∧
    (plan { document := photoDocument }).1 = .ok [photoClass] ∧
    photoGrammar.Guarded ∧ photoGrammar.Reaches photoPattern ∧
    ∃ a, stands photoRoot .element a = true ∧ Named photoRoot a "photo" ∧
      MembersFor photoRoot [photoClass] photoClass (content photoRoot a) ∧
      ∀ tag ws, Offered photoRoot tag (content photoRoot a) ws → ∃ s ∈ photoClass.attributes,
        ∃ ws', Offered photoRoot tag (content photoRoot a) ws' ∧
          MemberFor photoRoot [photoClass] photoClass tag ws' s := by
  have hnames : (∀ e ∈ patterns photoGrammar, '#' ∉ e.name.toList) ∧
      ∀ e ∈ patterns photoGrammar, '@' ∉ e.name.toList := by decide
  have hdocument : photoDocument = photoGrammar.resolve.1.build.1 := build_photo.2.symm
  have hguarded : photoGrammar.Guarded :=
    Grammar.guarded_of_rank (fun _ => 0) (by decide) (by decide) (by decide)
  have hreaches : photoGrammar.Reaches photoPattern := .start List.mem_cons_self
  refine ⟨build_photo.1, hnames.1, hnames.2, hdocument, plan_photo, hguarded, hreaches, ?_⟩
  obtain ⟨-, hall⟩ := @attributes_stay_absent none _ _ rfl build_photo.1 hnames.1 hnames.2
    { document := photoDocument } hdocument _ plan_photo
  obtain ⟨number, -, hall⟩ := hall hguarded
  obtain ⟨a, id, entity, helement, hname, -, hentity, -, hall⟩ := hall photoPattern hreaches
  have hid : "photo" = id := by
    have hkey := Table.mem_keys_of_get? hentity
    simpa [photoDocument, Table.keys, eq_comm] using hkey
  exact ⟨a, helement, hname, (hall photoClass List.mem_cons_self hid).2⟩

/-- **A repetition makes an attribute be there**: the tag of a photo stands under
    `optional` and the keyword under `zeroOrMore`, but their members hold texts, and
    a photo without them is written with ones that are empty. -/
theorem photo_tag_appears :
    (readGrammar none photoRoot).1 = .ok photoGrammar ∧
    photoDocument = photoGrammar.resolve.1.build.1 ∧
    (plan { document := photoDocument }).1 = .ok [photoClass] ∧
    (∃ ws, Offered photoRoot "tag" (content photoRoot [0, 0]) ws ∧
      ∃ w ∈ ws, stands photoRoot .optional w = true) ∧
    (∃ ws, Offered photoRoot "keyword" (content photoRoot [0, 0]) ws ∧
      ∃ w ∈ ws, stands photoRoot .zeroOrMore w = true) ∧
    (∀ tag ∈ ["tag", "keyword"], ∃ s ∈ photoClass.attributes,
      s.place = .attr tag (.scalar .string) ∧ s.memberText = "String") ∧
    ∃ v, readObject [photoClass] "Photo" (.element { name := "photo" } []) = .ok v ∧
      contentOf [photoClass] v = [.element "photo" [("tag", ""), ("keyword", "")] []] := by
  refine ⟨build_photo.1, build_photo.2.symm, plan_photo, ?_, ?_, ?_, ?_⟩
  · exact ⟨_, .own (a := [0, 0, 1, 0, 0]) (by decide) (by decide) ⟨_, rfl, rfl⟩, [1, 0, 0],
      by decide, by decide⟩
  · exact ⟨_, .own (a := [0, 2, 0, 0]) (by decide) (by decide) ⟨_, rfl, rfl⟩, [2, 0, 0],
      by decide, by decide⟩
  · exact List.forall_mem_cons.2 ⟨⟨_, .head _, rfl, rfl⟩,
      List.forall_mem_singleton.2 ⟨_, .tail _ (.head _), rfl, rfl⟩⟩
  · exact ⟨.object "Photo" [.scalar (.text ""), .scalar (.text ""), .absent, .absent],
      by rfl, by rfl⟩

end Bindery.Schema.RelaxNg
