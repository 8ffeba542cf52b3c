/-
  Recognising the values that a document lists.

  A document lists the values that may stand at a spot of an element: in an
  attribute, as the text, or in a child.  Reading takes a literal to the first
  slot that is for its spot, collapses its white space, and looks for a variant
  with the text that comes out.

  * `Declares`, `Lists`: what a document says of a spot, and that it lists values
    there and says nothing else;
  * `ClassFor.findSlot_spot`: then the slot for the spot holds an enumeration of them;
  * `values_recognised`: the values that schemas list;
  * `dark_red_invalid`: values that are not recognised.
-/
import Bindery.Proofs.Binding.Enumerations
import Bindery.Proofs.Binding.Shares
import Bindery.Proofs.Instance.Acceptance
import Bindery.Proofs.Instance.Seen

namespace Bindery

namespace Schema

/-! ## Spots -/

/-- Where a literal may stand in an element: in an attribute, as the text, or in a
    child. -/
inductive Spot where
  | attr (name : String)
  | text
  | child (tag : String)

/-- What the document says of the literals at a spot: the values that it lists,
    if it does.  Children that become objects may have the tag of a literal. -/
inductive Declares (d : Document) (e : Element) : Spot → Option Facet → Prop
  | attr {r : Relation} {a : Attribute} : r ∈ e.attributeRelations →
      d.attributes.get? r.target = some a → Declares d e (.attr a.name) (Facet.proper a.facet)
  | text : e.text = true → Declares d e .text (Facet.proper e.facet)
  | child {r : Relation} {target : Element} : r ∈ e.elementRelations →
      d.elements.get? r.target = some target → target.isTextOnly = true →
      Declares d e (.child target.name) (Facet.proper target.facet)
  | object {r : Relation} {target : Element} : r ∈ e.elementRelations →
      d.elements.get? r.target = some target → target.isTextOnly = false →
      Declares d e (.child target.name) none

/-- **Whether the document lists values at a spot**, and says nothing else of it. -/
def Lists (d : Document) (e : Element) (spot : Spot) (f : Facet) : Prop :=
  Declares d e spot (some f) ∧ ∀ declared, Declares d e spot declared → declared = some f

theorem Declares.distinct {d : Document} (hd : d.Proper) {id : String} {e : Element}
    (he : d.elements.get? id = some e) {spot : Spot} {declared : Option Facet}
    (h : Declares d e spot declared) : Facet.Distinct declared := by
  cases h with
  | attr _ ha => exact Facet.Distinct.proper (hd.attributeFacet _ _ ha)
  | text => exact Facet.Distinct.proper (hd.elementFacet _ _ he)
  | child _ ht => exact Facet.Distinct.proper (hd.elementFacet _ _ ht)
  | object => nofun

theorem lists_of_declares {d : Document} {g : Grammar} (hbuilt : d = g.build.1)
    (hat : ∀ id ∈ d.elements.keys, '@' ∉ id.toList) {id : String} {e : Element}
    (he : d.elements.get? id = some e) {spot : Spot} (hspot : ∀ tag, spot ≠ .child tag)
    {f : Facet} (h : Declares d e spot (some f)) : Lists d e spot f := by
  subst hbuilt
  have hattr : ∀ {name declared}, Declares g.build.1 e (.attr name) declared →
      (g.build.1.attributes.get? (id ++ "@" ++ name)).map (fun a => Facet.proper a.facet) =
        some declared := by
    intro name declared h
    cases h with
    | attr hr ha => rw [← attributeTarget_eq hat he hr ha, ha]; rfl
  have htext : ∀ {declared}, Declares g.build.1 e .text declared →
      declared = Facet.proper e.facet := by
    intro declared h
    cases h with
    | text => rfl
  refine ⟨h, fun declared h' => ?_⟩
  cases spot with
  | attr name => exact Option.some.inj ((hattr h').symm.trans (hattr h))
  | text => exact (htext h').trans (htext h).symm
  | child tag => exact absurd rfl (hspot tag)

end Schema

namespace Binding

open Schema
open Instance (attributeType? childType? textType? findSlot findSlot_eq_none findSlot_eq_some)

/-- The type of the literals at a spot in a slot, and the alternative they are, if
    they are one. -/
def spotType? : Spot → Slot → Option (ValueType × Option String)
  | .attr name, s => (attributeType? name s).map (·, none)
  | .text, s => (textType? s).map (·, none)
  | .child tag, s => childType? tag s

/-- Whether the type is for what is declared: an enumeration of the values that
    are listed. -/
def Suits (declared : Option Facet) (type : ValueType) : Prop :=
  ∀ f ∈ declared, ∃ en, type = .enumeration en ∧ en.values = f.values ∧
    en.combinable = f.combinable

section
variable {d : Document} {path : List String} {hs : List Holding} {type : ValueType}

theorem ScalarTyped.suits {label : String} {dataType : Option DataType} {facet : Option Facet}
    (h : ScalarTyped label dataType facet type hs) : Suits (Facet.proper facet) type := by
  intro f hf
  cases h with
  | scalar hnone =>
    rw [hnone] at hf
    cases hf
  | enumeration hproper =>
    obtain rfl := Option.some.inj (hproper.symm.trans hf)
    exact ⟨_, rfl, rfl, rfl⟩

theorem Serves.takes_child {share : List Numbered} {s : Slot} (h : Serves d share s) {x : Numbered}
    (hx : x ∈ share) {target : Element} (ht : d.elements.get? x.1.target = some target) :
    (childType? target.name s).isSome = true := by
  cases h with
  | child _ ht' hplace =>
    obtain rfl := List.mem_singleton.1 hx
    obtain rfl := Option.some.inj (ht'.symm.trans ht)
    simp [childType?, hplace]
  | choice _ hplace has =>
    obtain ⟨a, ha, target', _, ht', htag, -⟩ := forall₂_mem_left has hx
    obtain rfl := Option.some.inj (ht'.symm.trans ht)
    simpa [childType?, hplace] using ⟨a, ha, htag⟩

end

section
variable {site : Site} {path : List String} {e : Element} {c : Class} {hs : List Holding}
  {spot : Spot}

theorem ClassFor.declares (h : ClassFor site path e c hs) (hplaces : HasPlaces site.document e c)
    {s : Slot} (hs : s ∈ c.slots) {type : ValueType} {alternative : Option String}
    (htype : spotType? spot s = some (type, alternative)) :
    ∃ declared, Declares site.document e spot declared ∧ Suits declared type := by
  simp only [Class.slots, List.mem_append] at hs
  rcases hs with (hs | hs) | hs
  · obtain ⟨r, hr, a, type', _, ha, hplace, htyped, -⟩ := forall₂_mem_right hplaces.attributes hs
    cases spot with
    | attr name =>
      by_cases hname : a.name = name
      · obtain ⟨rfl, -⟩ : type' = type ∧ _ := by
          simpa [spotType?, attributeType?, hplace, hname] using htype
        exact ⟨_, hname ▸ .attr hr ha, htyped.suits⟩
      · simp [spotType?, attributeType?, hplace, hname] at htype
    | text => simp [spotType?, textType?, hplace] at htype
    | child tag => simp [spotType?, childType?, hplace] at htype
  · obtain ⟨type', _, hplace, htyped, -⟩ := hplaces.text s (Option.mem_toList.1 hs)
    cases spot with
    | attr name => simp [spotType?, attributeType?, hplace] at htype
    | text =>
      obtain ⟨rfl, -⟩ : type' = type ∧ _ := by simpa [spotType?, textType?, hplace] using htype
      have hyes : e.text = true := by
        rw [← hplaces.hasText, Option.mem_toList.1 hs]
        rfl
      exact ⟨_, .text hyes, htyped.suits⟩
    | child tag => simp [spotType?, childType?, hplace] at htype
  · obtain ⟨helement, hchildren⟩ := h.leads hs
    cases spot with
    | attr name =>
      rcases isElement_place helement with ⟨_, _, hplace⟩ | ⟨_, _, _, hplace, -⟩ <;>
        simp [spotType?, attributeType?, hplace] at htype
    | text =>
      rcases isElement_place helement with ⟨_, _, hplace⟩ | ⟨_, _, _, hplace, -⟩ <;>
        simp [spotType?, textType?, hplace] at htype
    | child tag =>
      obtain ⟨r, hr, target, _, _, _, ht, rfl, htyped⟩ := hchildren _ (Instance.childType?_mem htype)
      cases htyped with
      | text htext hscalar => exact ⟨_, .child hr ht htext, hscalar.suits⟩
      | object htext => exact ⟨_, .object hr ht htext, fun _ hf => by cases hf⟩

theorem HasPlaces.exists_slot {d : Document} (h : HasPlaces d e c) {declared : Option Facet}
    (hspot : Declares d e spot declared) : ∃ s ∈ c.slots, (spotType? spot s).isSome = true := by
  have hchild : ∀ {r : Relation} {target : Element}, r ∈ e.elementRelations →
      d.elements.get? r.target = some target →
      ∃ s ∈ c.slots, (spotType? (.child target.name) s).isSome = true := by
    intro r target hr ht
    obtain ⟨shares, hshares, hserves⟩ := h.elements
    obtain ⟨k, hk⟩ := List.mem_iff_getElem?.1 hr
    have hx : (r, k) ∈ shares.flatten := hshares.perm.mem_iff.2 (List.mem_zipIdx_iff_getElem?.2 hk)
    obtain ⟨share, hshare, hx⟩ := List.mem_flatten.1 hx
    obtain ⟨s, hs, hserve⟩ := forall₂_mem_left hserves hshare
    exact ⟨s, by simp [Class.slots, hs], hserve.takes_child hx ht⟩
  cases hspot with
  | @attr r a hr ha =>
    obtain ⟨s, hs, a', type, _, ha', hplace, -⟩ := forall₂_mem_left h.attributes hr
    obtain rfl := Option.some.inj (ha'.symm.trans ha)
    exact ⟨s, by simp [Class.slots, hs], by simp [spotType?, attributeType?, hplace]⟩
  | text hyes =>
    obtain ⟨s, hs⟩ := Option.isSome_iff_exists.1 (h.hasText.trans hyes)
    obtain ⟨type, _, hplace, -⟩ := h.text s hs
    exact ⟨s, by simp [Class.slots, hs], by simp [spotType?, textType?, hplace]⟩
  | child hr ht => exact hchild hr ht
  | object hr ht => exact hchild hr ht

theorem ClassFor.findSlot_spot (h : ClassFor site path e c hs)
    (hplaces : HasPlaces site.document e c) {f : Facet} (hlists : Lists site.document e spot f) :
    ∃ i s en alternative,
      findSlot (spotType? spot) c.slots = some (i, s, .enumeration en, alternative) ∧
      en.values = f.values ∧ en.combinable = f.combinable := by
  cases hfind : findSlot (spotType? spot) c.slots with
  | none =>
    obtain ⟨s, hs, hsome⟩ := hplaces.exists_slot hlists.1
    rw [findSlot_eq_none.1 hfind s hs] at hsome
    cases hsome
  | some found =>
    obtain ⟨i, s, type, alternative⟩ := found
    obtain ⟨hslot, htype⟩ := findSlot_eq_some hfind
    obtain ⟨declared, hdeclared, hsuits⟩ := h.declares hplaces (List.mem_of_getElem? hslot) htype
    obtain ⟨en, rfl, hen⟩ := hsuits f (hlists.2 _ hdeclared)
    exact ⟨i, s, en, alternative, rfl, hen⟩

end

end Binding

namespace Instance

open Binding Markup Text
open Schema (Spot Facet Lists Declares)

/-! ## Reading a literal -/

/-- **Whether a literal is added to an element** at a spot, such that the slot for
    the spot keeps it: an attribute that is not replaced by a later one, the text
    of an element that has none, or a child, which is the last one that goes to
    the slot unless the slot holds a list. -/
inductive Adds (s : Slot) : Spot → String → Node → Node → Prop
  | attr {head : Head} {children : List Node} {before after : List Attribute} {a : Attribute} :
      (∀ b ∈ after, b.name ≠ a.name) →
      Adds s (.attr a.name) a.value (.element { head with attributes := before ++ after } children)
        (.element { head with attributes := before ++ a :: after } children)
  | text {head : Head} {before after : List Node} {v : String} :
      (Node.element head (before ++ after)).textContent = "" →
      Adds s .text v (.element head (before ++ after)) (.element head (before ++ .text v :: after))
  | child {head : Head} {before after : List Node} {k : Node} : k.isElement = true →
      s.cardinality = .list ∨ (∀ l ∈ after, takes s l = false) →
      Adds s (.child k.name) k.textContent (.element head (before ++ after))
        (.element head (before ++ k :: after))

section
variable {cs : Classes} {slots : List Slot} {spot : Spot} {i : Nat} {s : Slot} {type : ValueType}
  {alternative : Option String} {n rest : Node} {v : String}

theorem findSlot_map {α β : Type} {f : Slot → Option α} {g : α → β} : ∀ {slots : List Slot},
    findSlot (fun s => (f s).map g) slots = (findSlot f slots).map fun (i, s, a) => (i, s, g a)
  | [] => rfl
  | s :: slots => by
    rw [findSlot, findSlot]
    cases f s with
    | some a => rfl
    | none =>
      simp only [Option.map_none, findSlot_map, Option.map_map]
      rfl

theorem findSlot_plain {f : Slot → Option ValueType}
    (h : findSlot (fun s => (f s).map (·, none)) slots = some (i, s, type, alternative)) :
    findSlot f slots = some (i, s, type) ∧ alternative = none := by
  obtain ⟨⟨j, t, found⟩, hfound, heq⟩ := Option.map_eq_some_iff.1 (findSlot_map.symm.trans h)
  cases heq
  exact ⟨hfound, rfl⟩

theorem place_of_attributeType? {name : String} (h : attributeType? name s = some type) :
    s.place = .attr name type := by
  unfold attributeType? at h
  split at h
  · rename_i tag type' hplace
    split at h
    · rename_i htag
      rw [hplace, htag, Option.some.inj h]
    · cases h
  · cases h

theorem place_of_textType? (h : textType? s = some type) : s.place = .text type := by
  unfold textType? at h
  split at h
  · rename_i type' hplace
    rw [hplace, Option.some.inj h]
  · cases h

theorem joinTexts_eq_append (acc : String) (ns : List Node) :
    joinTexts acc ns = acc ++ joinTexts "" ns := by
  induction ns generalizing acc with
  | nil => exact String.append_empty.symm
  | cons k ns ih =>
    cases k with
    | text t =>
      calc joinTexts (acc ++ t) ns
        _ = acc ++ t ++ joinTexts "" ns := ih _
        _ = acc ++ ("" ++ t ++ joinTexts "" ns) := by rw [String.empty_append, String.append_assoc]
        _ = acc ++ joinTexts ("" ++ t) ns := by rw [ih ("" ++ t)]
    | element | comment | instruction => exact ih acc

theorem textContent_of_single {head : Head} {before after : List Node}
    (h : (Node.element head (before ++ after)).textContent = "") (v : String) :
    (Node.element head (before ++ .text v :: after)).textContent = v := by
  rw [textContent_eq, joinTexts_append, joinTexts_eq_append, String.append_eq_empty_iff] at h
  rw [textContent_eq, joinTexts_append, h.1]
  calc joinTexts ("" ++ v) after
    _ = "" ++ v ++ joinTexts "" after := joinTexts_eq_append _ _
    _ = v := by rw [h.2, String.append_empty, String.empty_append]

/-- **A literal that is added is delivered to the slot for its spot**, and the slot
    keeps it. -/
theorem Adds.deliveries (cs : Classes) (h : Adds s spot v rest n)
    (hfind : findSlot (spotType? spot) slots = some (i, s, type, alternative))
    (hliteral : type.isLiteral = true) :
    ∃ ds ds', deliveries cs slots n =
        ds ++ ⟨i, s, (readValue type v).map (asAlternative alternative)⟩ :: ds' ∧
      (∀ d ∈ ds ++ ds', d ∈ deliveries cs slots rest) ∧
      (s.cardinality = .list ∨ ∀ d ∈ ds', d.index ≠ i) := by
  have hs := (findSlot_eq_some hfind).1
  have hplain : ∀ literal, (readValue type literal).map (asAlternative none) =
      readValue type literal := by
    intro literal
    cases readValue type literal <;> rfl
  cases h with
  | @attr head children before after a hafter =>
    obtain ⟨hfound, rfl⟩ := findSlot_plain hfind
    have hplace := place_of_attributeType? (findSlot_eq_some hfound).2
    have ha : attributeDelivery slots a = some ⟨i, s, readValue type a.value⟩ := by
      rw [attributeDelivery, hfound]
      rfl
    refine ⟨before.filterMap (attributeDelivery slots), after.filterMap (attributeDelivery slots) ++
      (textDelivery slots (Node.element head children).textContent).toList ++
        children.filterMap (childDelivery cs slots), ?_, fun d hd => ?_, .inr fun d hd hindex => ?_⟩
    · rw [hplain, Instance.deliveries, Node.attributes, List.filterMap_append,
        List.filterMap_cons_some ha, List.append_assoc, List.append_assoc, List.append_assoc]
      rfl
    · rw [Instance.deliveries, Node.attributes, List.filterMap_append, List.append_assoc,
        List.append_assoc]
      rwa [List.append_assoc] at hd
    · rcases List.mem_append.1 hd with hd | hd
      · rcases List.mem_append.1 hd with hd | hd
        · obtain ⟨b, hb, hd⟩ := List.mem_filterMap.1 hd
          have htag := tag_of_attributeDelivery hs hd hindex
          rw [Slot.attributeTags, hplace] at htag
          exact hafter b hb (List.mem_singleton.1 htag)
        · have htext := isSome_of_textDelivery hs (Option.mem_toList.1 hd) hindex
          rw [textType?, hplace] at htext
          cases htext
      · obtain ⟨k, -, hd⟩ := List.mem_filterMap.1 hd
        have htakes := takes_of_childDelivery hs hd hindex
        simp [takes, Slot.children, hplace] at htakes
  | @text head before after v hempty =>
    obtain ⟨hfound, rfl⟩ := findSlot_plain hfind
    have hplace := place_of_textType? (findSlot_eq_some hfound).2
    have hchildren : (before ++ .text v :: after).filterMap (childDelivery cs slots) =
        (before ++ after).filterMap (childDelivery cs slots) := by
      rw [List.filterMap_append, List.filterMap_append]
      rfl
    refine ⟨head.attributes.filterMap (attributeDelivery slots),
      (before ++ after).filterMap (childDelivery cs slots), ?_, fun d hd => ?_,
      .inr fun d hd hindex => ?_⟩
    · rw [hplain, Instance.deliveries, textContent_of_single hempty, textDelivery, hfound,
        Node.children, hchildren, List.append_assoc]
      rfl
    · rw [Instance.deliveries, List.append_assoc]
      exact (List.mem_append.1 hd).elim (List.mem_append_left _)
        fun hd => List.mem_append_right _ (List.mem_append_right _ hd)
    · obtain ⟨k, -, hd⟩ := List.mem_filterMap.1 hd
      have htakes := takes_of_childDelivery hs hd hindex
      simp [takes, Slot.children, hplace] at htakes
  | @child head before after k hk hafter =>
    have hchild : childDelivery cs slots k =
        some ⟨i, s, (readValue type k.textContent).map (asAlternative alternative)⟩ := by
      have hfound : findSlot (childType? k.name) slots = some (i, s, type, alternative) := hfind
      rw [childDelivery, if_pos hk, hfound, ← readChild_literal hliteral]
      rfl
    refine ⟨head.attributes.filterMap (attributeDelivery slots) ++
      (textDelivery slots (Node.element head (before ++ after)).textContent).toList ++
        before.filterMap (childDelivery cs slots), after.filterMap (childDelivery cs slots),
      ?_, fun d hd => ?_, hafter.imp_right fun hafter d hd hindex => ?_⟩
    · have htext : (Node.element head (before ++ k :: after)).textContent =
          (Node.element head (before ++ after)).textContent := by
        have hne : ∀ t, k ≠ .text t := by
          rintro t rfl
          cases hk
        rw [textContent_eq, textContent_eq, joinTexts_append, joinTexts_append,
          joinTexts_cons_of_ne hne]
      rw [Instance.deliveries, htext, Node.children, List.filterMap_append,
        List.filterMap_cons_some hchild, ← List.append_assoc]
      rfl
    · rw [Instance.deliveries, Node.children, List.filterMap_append, ← List.append_assoc]
      exact hd
    · obtain ⟨l, hl, hd⟩ := List.mem_filterMap.1 hd
      have htakes := takes_of_childDelivery hs hd hindex
      rw [hafter l hl] at htakes
      cases htakes

theorem mem_held_foldl (hlist : s.cardinality = .list) {value : Datum} :
    ∀ {ds : List Delivery}, (∀ d ∈ ds, d.slot = s) → ∀ {old : Datum}, value ∈ held s old →
      value ∈ held s (ds.foldl (fun old d => d.onto old) old)
  | [], _, _, h => h
  | d :: ds, hds, old, h => by
    refine mem_held_foldl hlist (fun e he => hds e (List.mem_cons_of_mem _ he)) ?_
    change value ∈ held s (d.onto old)
    unfold Delivery.onto
    rw [hds d List.mem_cons_self]
    cases d.value.toOption with
    | none => exact h
    | some new =>
      unfold held at h
      rw [hlist] at h
      cases old with
      | list entries => simpa [held, assigned, hlist] using .inl h
      | _ => cases h

theorem mem_held_assigned (old value : Datum) : value ∈ held s (assigned s old value) := by
  unfold held assigned
  cases s.cardinality with
  | one => exact List.mem_singleton_self _
  | optional => exact List.mem_singleton_self _
  | list => cases old <;> simp

theorem mem_held_delivered {c : Binding.Class} (hs : c.slots[i]? = some s) {ds ds' : List Delivery}
    {value : Datum} (h : deliveries cs c.slots n = ds ++ ⟨i, s, .ok value⟩ :: ds')
    (hkept : s.cardinality = .list ∨ ∀ d ∈ ds', d.index ≠ i) :
    ∃ field, (delivered cs c n)[i]? = some field ∧ value ∈ held s field := by
  have hslot : ∀ d ∈ ds'.filter (·.index == i), d.slot = s := by
    intro d hd
    obtain ⟨hd, hindex⟩ := List.mem_filter.1 hd
    have hmem : d ∈ deliveries cs c.slots n := by simp [h, hd]
    have hget := slot_of_mem_deliveries hmem
    rw [beq_iff_eq.1 hindex, hs] at hget
    exact (Option.some.inj hget).symm
  rw [delivered, List.getElem?_mapIdx, List.getElem?_map, hs]
  refine ⟨_, rfl, ?_⟩
  simp only [h, List.filter_append, List.filter_cons, beq_self_eq_true, if_true, List.foldl_append,
    List.foldl_cons]
  rcases hkept with hlist | hlast
  · exact mem_held_foldl hlist hslot (mem_held_assigned _ _)
  · have hnone : ds'.filter (·.index == i) = [] :=
      List.filter_eq_nil_iff.2 fun d hd => by simpa using hlast d hd
    rw [hnone]
    exact mem_held_assigned _ _

/-- **What is read from a value that is added to an element**: the variant of its
    collapsed form. -/
theorem Adds.read {c : Binding.Class} (h : Adds s spot v rest n) (hget : cs.get? c.name = some c)
    {en : Enumeration}
    (hfind : findSlot (spotType? spot) c.slots = some (i, s, .enumeration en, alternative))
    (hen : en.combinable = false) {x : Datum} (hread : readObject cs c.name rest = .ok x) :
    ∃ fields field, readObject cs c.name n = .ok (.object c.name fields) ∧ fields[i]? = some field ∧
      asAlternative alternative (.variant (variantOf en (Whitespace.collapse.normalize v))) ∈
        held s field := by
  obtain ⟨hrest, hn, hsame⟩ : rest.isElement = true ∧ n.isElement = true ∧ n.name = rest.name := by
    cases h <;> exact ⟨rfl, rfl, rfl⟩
  obtain ⟨hname, hall, -⟩ := (readObject_eq_ok_iff hget hrest).1 hread
  obtain ⟨ds, ds', hdeliveries, hold, hkept⟩ := h.deliveries cs hfind rfl
  have hvalue : readValue (.enumeration en) v =
      .ok (.variant (variantOf en (Whitespace.collapse.normalize v))) := by
    rw [readValue, hen]
    rfl
  rw [hvalue] at hdeliveries
  obtain ⟨field, hfield, hmem⟩ := mem_held_delivered (findSlot_eq_some hfind).1 hdeliveries hkept
  refine ⟨_, field, (readObject_eq_ok_iff hget hn).2 ⟨hsame.trans hname, fun d hd => ?_, rfl⟩,
    hfield, hmem⟩
  rw [hdeliveries] at hd
  rcases List.mem_append.1 hd with hd | hd
  · exact hall d (hold d (List.mem_append_left _ hd))
  · rcases List.mem_cons.1 hd with rfl | hd
    · rfl
    · exact hall d (hold d (List.mem_append_right _ hd))

end

/-! ## Values that are recognised -/

theorem variantOf_collapse {en : Enumeration} (hv : en.values.Nodup) {name v : String}
    (h : (name, v) ∈ en.variants) :
    variantOf en (Whitespace.collapse.normalize v) = name ↔ Whitespace.collapse.normalize v = v := by
  have hlookup := lookup_of_mem_variants h
  constructor
  · intro hname
    have htext := textOf_variantOf en (Whitespace.collapse.normalize v)
    rw [hname, textOf_eq hlookup] at htext
    by_cases hmem : Whitespace.collapse.normalize v ∈ en.values
    · rw [if_pos hmem] at htext
      exact htext.symm
    · -- only the empty text has no text of its own, and it is collapsed
      rw [if_neg hmem] at htext
      rw [htext]
      rfl
  · intro hcollapsed
    rw [hcollapsed]
    exact variantOf_eq hv hlookup

/-- **What is read for a value** that is added to an element at a spot: wherever the
    element is read as the class, so is it with the value, and the field of the slot
    holds the datum. -/
def ReadsAs (cs : Classes) (c : Binding.Class) (spot : Spot) (i : Nat) (s : Slot) (v : String)
    (d : Datum) : Prop :=
  ∀ rest n x, Adds s spot v rest n → readObject cs c.name rest = .ok x →
    ∃ fields field, readObject cs c.name n = .ok (.object c.name fields) ∧
      fields[i]? = some field ∧ d ∈ held s field

/-- **Values that schemas list are recognised if they are collapsed**, and no
    others.  In the classes of a generated file, let the document list values that
    are not combined at a spot of the element of the class, and say nothing else
    of this spot; for attributes and the text it never does, if the identifiers of
    elements do not contain `@`.  Then a slot of the class holds an enumeration of
    the values, and what is read there when one of them is added to an element is
    the variant declared for it, which is not the invalid one, if and only if the
    value is its own collapsed form. -/
theorem values_recognised {dialect : Option Schema.Dialect} {allowDtd : Bool} {text : String}
    {d : Schema.Document} {o : Code.Options} {file : Code.File}
    (hread : (Schema.readDocument dialect allowDtd text).1 = .ok d)
    (hgenerate : (Code.generate d o).1 = .ok file) :
    ∃ rt classes, file = Code.fileOf o rt d classes ∧ (plan (o.site d)).1 = .ok classes ∧
      ∀ c ∈ classes, ∃ e, d.elements.get? c.element = some e ∧
        ((∀ id ∈ d.elements.keys, '@' ∉ id.toList) → ∀ spot f, (∀ tag, spot ≠ .child tag) →
          Declares d e spot (some f) → Lists d e spot f) ∧
        ∀ spot f, Lists d e spot f → f.combinable = false → ∃ i s en alternative,
          findSlot (spotType? spot) c.slots = some (i, s, .enumeration en, alternative) ∧
          en.values = f.values ∧ ∀ v ∈ f.values, ∃ name found, (name, v) ∈ en.variants ∧
            name ≠ Code.invalidVariant ∧
            ReadsAs classes c spot i s v (asAlternative alternative (.variant found)) ∧
            (found = name ↔ Whitespace.collapse.normalize v = v) := by
  have hproper := Schema.readDocument_proper hread
  obtain ⟨root, g, -, hbuilt⟩ := Schema.exists_grammar hread
  obtain ⟨rt, classes, -, hplan, rfl⟩ := exists_plan hgenerate
  refine ⟨rt, classes, rfl, hplan, fun c hc => ?_⟩
  have hkeyed : (o.site d).document.Keyed := hproper.keyed
  have hvalid : (o.site d).document.validate = .ok () := hbuilt ▸ Schema.validate_build _
  have hmade := plan_faithful hkeyed hplan hc
  obtain ⟨e, he, hplaces⟩ := exists_hasPlaces hkeyed hvalid hmade
  obtain ⟨id, e', path, holdings, he', hfor⟩ := hmade
  obtain rfl : e' = e := by
    rw [hfor.element, hkeyed _ _ he', he'] at he
    exact Option.some.inj he
  refine ⟨e', he, fun hat spot f hspot hdeclares => ?_, fun spot f hlists hcombinable => ?_⟩
  · exact Schema.lists_of_declares hbuilt hat he hspot hdeclares
  · obtain ⟨i, s, en, alternative, hfind, hvalues, hen⟩ := hfor.findSlot_spot hplaces hlists
    have hnodup : en.values.Nodup := hvalues ▸ hlists.1.distinct hproper he f rfl
    refine ⟨i, s, en, alternative, hfind, hvalues, fun v hv => ?_⟩
    rw [← hvalues, ← Enumeration.variants_texts] at hv
    obtain ⟨⟨name, _⟩, hvariant, rfl⟩ := List.mem_map.1 hv
    refine ⟨name, _, hvariant, ?_, ?_, variantOf_collapse hnodup hvariant⟩
    · rintro rfl
      exact Code.invalidVariant_not_mem en.values (List.mem_map.2 ⟨_, hvariant, rfl⟩)
    · intro rest n x hadds hrest
      exact hadds.read (plan_found hkeyed hplan hc) hfind (hen.trans hcombinable) hrest

def quillGrammar : String := r#"<element name="quill">
  <attribute name="ink">
    <choice><value>dark  red</value><value>blue</value></choice>
  </attribute>
  <element name="tip"><choice><value>fine</value><value>broad</value></choice></element>
  <element name="tip"><value>round</value></element>
</element>
"#

def quillInks : Facet := { values := ["dark  red", "blue"] }

def quillRead : Schema.Grammar :=
  { start := { elements := [
      { name := "quill", attributes := [{ name := "ink", facet := some quillInks }]
        elements := [
          { name := "tip", hasText := true, facet := some { values := ["fine", "broad"] } },
          { name := "tip", hasText := true, facet := some { values := ["round"] } }] }] } }

def quillElement : Schema.Element :=
  { identifier := "quill", name := "quill"
    elementRelations := [{ target := "tip" }, { target := "tip#2" }]
    attributeRelations := [{ target := "quill@ink" }] }

def quillTip : Schema.Element :=
  { identifier := "tip#2", name := "tip", text := true, facet := some { values := ["round"] } }

def quillDocument : Schema.Document :=
  { roots := ["quill"]
    elements := ⟨[("quill", quillElement),
      ("tip", { identifier := "tip", name := "tip", text := true
                facet := some { values := ["fine", "broad"] } }),
      ("tip#2", quillTip)]⟩
    attributes := ⟨[("quill@ink", {
      identifier := "quill@ink", name := "ink", facet := some quillInks })]⟩ }

def quillInk : Slot :=
  ⟨"ink", "ink", .one, .attr "ink" (.enumeration ⟨"QuillInk", "ink", quillInks.values, false⟩)⟩

def quillClass : Binding.Class :=
  { name := "Quill", element := "quill", tag := "quill", root := true
    attributes := [quillInk]
    elements := [
      ⟨"tip", "tip", .one, .child "tip" (.enumeration ⟨"QuillTip", "tip", ["fine", "broad"], false⟩)⟩,
      ⟨"tip2", "tip", .one, .child "tip" (.enumeration ⟨"QuillTip2", "tip2", ["round"], false⟩)⟩] }

theorem build_quill : quillRead.resolve.1.build.1 = quillDocument := by
  cbv

set_option maxRecDepth 10000 in
theorem read_quill : (Schema.readDocument none false quillGrammar).1 = .ok quillDocument := by
  have hgrammar : Schema.grammarOf quillGrammar = some quillRead := by
    unfold Schema.grammarOf Schema.readRoot Markup.read quillGrammar
    rw [Schema.toList_eq_of_ofList rfl]
    decide +kernel
  exact Schema.readDocument_eq hgrammar build_quill rfl

theorem plan_quill : (plan (({} : Code.Options).site quillDocument)).1 = .ok [quillClass] := by
  decide +kernel

theorem generate_quill : ∃ file, (Code.generate quillDocument {}).1 = .ok file := by
  have hname : (Code.generate quillDocument {}).1.toOption.map (·.name) = some "quill" := by
    decide +kernel
  obtain ⟨file, hgenerate, -⟩ := exists_file hname fun _ _ _ => trivial
  exact ⟨file, hgenerate⟩

theorem lists_quill : Lists quillDocument quillElement (.attr "ink") quillInks := by
  have hdeclares : Declares quillDocument quillElement (.attr "ink") (some quillInks) :=
    .attr (a := { identifier := "quill@ink", name := "ink", facet := some quillInks })
      List.mem_cons_self rfl
  have he : quillDocument.elements.get? "quill" = some quillElement := rfl
  exact Schema.lists_of_declares build_quill.symm (by decide) he (by simp) hdeclares

theorem variants_quill :
    Code.variants quillInks.values = [("DarkRed", "dark  red"), ("Blue", "blue")] := by
  decide +kernel

def quillWith (ink : String) (children : List Node) : Node :=
  .element { name := "quill", attributes := [{ name := "ink", value := ink }] } children

theorem blue_recognised :
    (Schema.readDocument none false quillGrammar).1 = .ok quillDocument ∧
    (∃ file, (Code.generate quillDocument {}).1 = .ok file) ∧
    (plan (({} : Code.Options).site quillDocument)).1 = .ok [quillClass] ∧
    Lists quillDocument quillElement (.attr "ink") quillInks ∧
    ReadsAs [quillClass] quillClass (.attr "ink") 0 quillInk "blue" (.variant "Blue") ∧
    ∃ fields field, readObject [quillClass] "Quill" (quillWith "blue" []) =
        .ok (.object "Quill" fields) ∧
      fields[0]? = some field ∧ .variant "Blue" ∈ held quillInk field := by
  obtain ⟨file, hgenerate⟩ := generate_quill
  obtain ⟨_, classes, -, hplan, hclasses⟩ := values_recognised read_quill hgenerate
  obtain rfl : classes = [quillClass] := Except.ok.inj (hplan.symm.trans plan_quill)
  obtain ⟨e, he, -, hvalues⟩ := hclasses quillClass List.mem_cons_self
  obtain rfl : quillElement = e := Option.some.inj he
  obtain ⟨i, s, en, alternative, hfind, hsame, hfound⟩ := hvalues _ _ lists_quill rfl
  obtain ⟨name, found, hvariant, -, hreads, hiff⟩ := hfound "blue" (by decide)
  obtain rfl : found = name := hiff.2 (by decide)
  rw [Enumeration.variants, hsame, variants_quill] at hvariant
  obtain rfl : found = "Blue" := by simpa using hvariant
  cases hfind
  have hadds : Adds quillInk (.attr "ink") "blue" (.element { name := "quill" } [])
      (quillWith "blue" []) :=
    @Adds.attr _ { name := "quill" } [] [] [] { name := "ink", value := "blue" } nofun
  exact ⟨read_quill, ⟨file, hgenerate⟩, plan_quill, lists_quill, hreads, hreads _ _ _ hadds rfl⟩

/-- **Values that are not recognised**: a name with two blanks, which is read with
    one, and a tip that is not in the first list of tips. -/
theorem dark_red_invalid :
    (Schema.readDocument none false quillGrammar).1 = .ok quillDocument ∧
    (∃ file, (Code.generate quillDocument {}).1 = .ok file) ∧
    (plan (({} : Code.Options).site quillDocument)).1 = .ok [quillClass] ∧
    Lists quillDocument quillElement (.attr "ink") quillInks ∧
    Code.variants quillInks.values = [("DarkRed", "dark  red"), ("Blue", "blue")] ∧
    readObject [quillClass] "Quill" (quillWith "dark  red" []) =
      .ok (.object "Quill" [.variant "Invalid", .variant "Invalid", .variant "Invalid"]) ∧
    Declares quillDocument quillElement (.child "tip") (some { values := ["round"] }) ∧
    readObject [quillClass] "Quill" (quillWith "blue" [.element { name := "tip" } [.text "fine"],
        .element { name := "tip" } [.text "round"]]) =
      .ok (.object "Quill" [.variant "Blue", .variant "Invalid", .variant "Invalid"]) := by
  have htip : quillDocument.elements.get? "tip#2" = some quillTip := rfl
  have hrelation : { target := "tip#2" } ∈ quillElement.elementRelations := by decide
  exact ⟨read_quill, generate_quill, plan_quill, lists_quill, variants_quill, by rfl,
    Declares.child hrelation htip rfl, by rfl⟩

end Instance

end Bindery
