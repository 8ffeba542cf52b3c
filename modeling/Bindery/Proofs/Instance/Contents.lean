/-
  What is written for the fields of an object.

  The slots of a class come in three segments.  Attributes are written in the
  tag and not as content, a text is written as one text at most, and child
  elements are written as elements.
-/
import Bindery.Proofs.Binding.Coherent
import Bindery.Proofs.Instance.Fits
import Bindery.Proofs.Markup.Tree

namespace Bindery.Instance

open Binding Markup

def literalType? : Place → Option ValueType
  | .attr _ type | .text type | .child _ type => some type
  | .choice .. => none

theorem mem_types {p q : Place} (hq : q ∈ placesOf p) {type : ValueType}
    (h : literalType? q = some type) : type ∈ p.types := by
  rcases List.mem_cons.1 hq with rfl | hq
  · cases q with
    | choice => cases h
    | _ => cases h; exact List.mem_cons_self
  · cases p with
    | choice union group alternatives =>
      obtain ⟨a, ha, rfl⟩ := List.mem_map.1 hq
      exact List.mem_map.2 ⟨a, ha, Option.some.inj h⟩
    | _ => cases hq

section
variable {cs : Classes} {leaf : Place → Datum → Prop}

theorem Fits.literal {p : Place} {type : ValueType} (hp : literalType? p = some type)
    (hl : type.isLiteral = true) {d : Datum} (h : Fits cs leaf p .one d) :
    leaf p d ∧ placeContent cs p .one d = plainContent p d := by
  cases d with
  | scalar s => exact ⟨h, by rw [placeContent]⟩
  | variant name => exact ⟨h, by rw [placeContent]⟩
  | list ds => exact ⟨h, by rw [placeContent]⟩
  | absent => cases h
  | present d => cases h
  | alternative name d =>
    rw [Fits] at h
    cases p with
    | choice => cases hp
    | _ => exact h.elim
  | object name fields =>
    rw [Fits] at h
    obtain ⟨⟨tag, boxed, rfl⟩, -⟩ := h
    cases hp
    cases hl

theorem Fits.none_or_one {p : Place} {k : Cardinality} (hk : k ≠ .list) {d : Datum}
    (h : Fits cs leaf p k d) :
    (k = .optional ∧ d = .absent) ∨
      ∃ v, Fits cs leaf p .one v ∧ (k = .one ∧ d = v ∨ k = .optional ∧ d = .present v) := by
  cases k with
  | list => exact absurd rfl hk
  | one => exact .inr ⟨d, h, .inl ⟨rfl, rfl⟩⟩
  | optional =>
    cases d with
    | absent => exact .inl ⟨rfl, rfl⟩
    | present v => exact .inr ⟨v, h, .inr ⟨rfl, rfl⟩⟩
    | _ => cases h

/-! ## Segments -/

theorem fieldsContent_append : ∀ {ss ts : List Slot} {ds es : List Datum}, ss.length = ds.length →
    fieldsContent cs (ss ++ ts) (ds ++ es) = fieldsContent cs ss ds ++ fieldsContent cs ts es
  | [], _, [], _, _ => by simp [fieldsContent]
  | _ :: _, _, _ :: _, _, h => by
    simp [fieldsContent, fieldsContent_append (by simpa using h)]

theorem attributesOf_append : ∀ {ss ts : List Slot} {ds es : List Datum}, ss.length = ds.length →
    attributesOf (ss ++ ts) (ds ++ es) = attributesOf ss ds ++ attributesOf ts es
  | [], _, [], _, _ => by simp [attributesOf]
  | _ :: _, _, _ :: _, _, h => by
    simp [attributesOf, attributesOf_append (by simpa using h)]

theorem attributesOf_eq_nil : ∀ {ss : List Slot} {ds : List Datum},
    (∀ s ∈ ss, s.attributeTags = []) → attributesOf ss ds = []
  | [], _, _ => by simp [attributesOf]
  | _ :: _, [], _ => by simp [attributesOf]
  | s :: ss, d :: ds, h => by
    have hs := h s List.mem_cons_self
    rw [attributesOf, attributesOf_eq_nil fun t ht => h t (List.mem_cons_of_mem _ ht)]
    cases hp : s.place with
    | attr tag type => simp [Slot.attributeTags, hp] at hs
    | _ => rfl

theorem fieldsContent_attributes : ∀ {ss : List Slot} {ds : List Datum},
    (∀ s ∈ ss, s.isAttribute = true) → FitsFields cs leaf ss ds → fieldsContent cs ss ds = []
  | [], _, _, _ => by simp [fieldsContent]
  | s :: ss, d :: ds, hss, h => by
    obtain ⟨tag, type, hp, hl, hk⟩ := isAttribute_place (hss s List.mem_cons_self)
    have hone : ∀ v, Fits cs leaf s.place .one v → placeContent cs s.place .one v = [] := by
      intro v hv
      rw [hp] at hv ⊢
      rw [(hv.literal rfl hl).2, plainContent]
    have hplace : placeContent cs s.place s.cardinality d = [] := by
      rcases h.1.none_or_one hk with ⟨hc, rfl⟩ | ⟨v, hv, ⟨hc, rfl⟩ | ⟨hc, rfl⟩⟩ <;> rw [hc]
      · simp [placeContent]
      · exact hone _ hv
      · rw [placeContent]
        exact hone v hv
    rw [fieldsContent, hplace,
      fieldsContent_attributes (fun t ht => hss t (List.mem_cons_of_mem _ ht)) h.2]
    rfl

theorem fieldsContent_text {text : Option Slot} (htext : ∀ s ∈ text.toList, s.isText = true)
    {ds : List Datum} (h : FitsFields cs leaf text.toList ds) :
    ∃ s, fieldsContent cs text.toList ds = textContents s := by
  cases text with
  | none => exact ⟨"", by simp [fieldsContent, textContents]⟩
  | some s =>
    obtain ⟨type, hp, hl, hk⟩ := isText_place (htext s (by simp))
    obtain _ | ⟨d, ds⟩ := ds
    · cases h
    have hd := h.1
    rw [hk, hp] at hd
    have hcontent := (hd.literal rfl hl).2
    obtain rfl : ds = [] := by simpa [FitsFields] using h.2.length_eq.symm
    exact ⟨writeValue type d, by simp [fieldsContent, hk, hp, hcontent, plainContent]⟩

theorem textContents_isElement (s : String) : ∀ c ∈ textContents s, c.isElement = false := by
  intro c hc
  rw [textContents] at hc
  split at hc
  · cases hc
  · rw [List.mem_singleton.1 hc]
    rfl

theorem plainContent_elements {p : Place} (hp : ∀ type, p ≠ .text type) (d : Datum) :
    ∀ c ∈ plainContent p d, c.isElement = true := by
  cases p with
  | text type => exact absurd rfl (hp type)
  | child tag type => simp [plainContent, literalElement, Content.isElement]
  | _ => simp [plainContent]

mutual

theorem placeContent_elements {p : Place} (hp : ∀ type, p ≠ .text type) :
    ∀ (k : Cardinality) (d : Datum), ∀ c ∈ placeContent cs p k d, c.isElement = true
  | .optional, .present d => by
    rw [placeContent]
    exact placeContent_elements hp .one d
  | .list, .list ds => by
    rw [placeContent]
    exact itemsContent_elements hp ds
  | .one, .alternative name d => by
    rw [placeContent]
    cases ha : alternativePlace? p name with
    | none => simp
    | some place =>
      obtain ⟨_, _, _, a, -, -, rfl⟩ := alternativePlace?_eq ha
      exact placeContent_elements (by simp) .one d
  | .one, .object name fields => by
    rw [placeContent]
    cases cs.get? name with
    | none => simp
    | some c =>
      simp only [elementOf]
      split
      · simp
      · simp [Content.isElement]
  | .one, .scalar s => by
    rw [placeContent]
    exact plainContent_elements hp _
  | .one, .variant name => by
    rw [placeContent]
    exact plainContent_elements hp _
  | .one, .list ds => by
    rw [placeContent]
    exact plainContent_elements hp _
  | .one, .absent | .one, .present _ | .optional, .absent | .optional, .scalar _
  | .optional, .variant _ | .optional, .list _ | .optional, .alternative .. | .optional, .object ..
  | .list, .absent | .list, .present _ | .list, .scalar _ | .list, .variant _
  | .list, .alternative .. | .list, .object .. => by simp [placeContent]

theorem itemsContent_elements {p : Place} (hp : ∀ type, p ≠ .text type) :
    ∀ ds : List Datum, ∀ c ∈ itemsContent cs p ds, c.isElement = true
  | [] => by simp [itemsContent]
  | d :: ds => by
    rw [itemsContent]
    intro c hc
    rcases List.mem_append.1 hc with hc | hc
    · exact placeContent_elements hp .one d c hc
    · exact itemsContent_elements hp ds c hc

end

theorem fieldsContent_elements : ∀ {ss : List Slot} {ds : List Datum},
    (∀ s ∈ ss, s.isElement = true) → ∀ c ∈ fieldsContent cs ss ds, c.isElement = true
  | [], _, _ => by simp [fieldsContent]
  | _ :: _, [], _ => by simp [fieldsContent]
  | s :: ss, d :: ds, hss => by
    have hp : ∀ type, s.place ≠ .text type := by
      intro type heq
      rcases isElement_place (hss s List.mem_cons_self) with ⟨_, _, hp⟩ | ⟨_, _, _, hp, -⟩ <;>
        rw [hp] at heq <;> cases heq
    rw [fieldsContent]
    intro c hc
    rcases List.mem_append.1 hc with hc | hc
    · exact placeContent_elements hp _ d c hc
    · exact fieldsContent_elements (fun t ht => hss t (List.mem_cons_of_mem _ ht)) c hc

/-! ## Attributes -/

theorem Fits.held {s : Slot} (hk : s.cardinality ≠ .list) {d : Datum}
    (h : Fits cs leaf s.place s.cardinality d) :
    held s d = [] ∨ ∃ v, held s d = [v] ∧ Fits cs leaf s.place .one v := by
  rcases h.none_or_one hk with ⟨hc, rfl⟩ | ⟨v, hv, ⟨hc, rfl⟩ | ⟨hc, rfl⟩⟩
  · exact .inl (by simp [Instance.held, hc])
  · exact .inr ⟨d, by simp [Instance.held, hc], hv⟩
  · exact .inr ⟨v, by simp [Instance.held, hc], hv⟩

theorem mem_attributesOf : ∀ {ss : List Slot} {ds : List Datum},
    (∀ s ∈ ss, s.isAttribute = true) → FitsFields cs leaf ss ds → ∀ a ∈ attributesOf ss ds,
      ∃ s ∈ ss, ∃ type d, s.place = .attr a.1 type ∧ a.2 = writeValue type d ∧ leaf s.place d
  | [], _, _, _, a, ha => by simp [attributesOf] at ha
  | s :: ss, d :: ds, hss, h, a, ha => by
    rw [attributesOf] at ha
    rcases List.mem_append.1 ha with ha | ha
    · obtain ⟨tag, type, hp, hl, hk⟩ := isAttribute_place (hss s List.mem_cons_self)
      rw [hp] at ha
      rcases h.1.held hk with hheld | ⟨v, hheld, hfit⟩ <;> rw [hheld] at ha
      · cases ha
      · obtain rfl := List.mem_singleton.1 ha
        rw [hp] at hfit
        exact ⟨s, List.mem_cons_self, type, v, hp, rfl, hp ▸ (hfit.literal rfl hl).1⟩
    · obtain ⟨t, ht, hrest⟩ :=
        mem_attributesOf (fun t ht => hss t (List.mem_cons_of_mem _ ht)) h.2 a ha
      exact ⟨t, List.mem_cons_of_mem _ ht, hrest⟩

theorem attributesOf_tags : ∀ {ss : List Slot} {ds : List Datum},
    (∀ s ∈ ss, s.isAttribute = true) → FitsFields cs leaf ss ds →
      ((attributesOf ss ds).map (·.1)).Sublist (ss.flatMap (·.attributeTags))
  | [], _, _, _ => by simp [attributesOf]
  | s :: ss, d :: ds, hss, h => by
    obtain ⟨tag, type, hp, -, hk⟩ := isAttribute_place (hss s List.mem_cons_self)
    rw [attributesOf, List.map_append, List.flatMap_cons]
    refine .append ?_ (attributesOf_tags (fun t ht => hss t (List.mem_cons_of_mem _ ht)) h.2)
    rcases h.1.held hk with hheld | ⟨v, hheld, -⟩ <;> simp [hp, hheld, Slot.attributeTags]

/-! ## Objects -/

section
variable {c : Binding.Class} (hc : c.Shaped) {fa ft fe : List Datum}
  (hfa : FitsFields cs leaf c.attributes fa) (hft : FitsFields cs leaf c.text.toList ft)

include hc hfa hft

theorem attributesOf_object :
    attributesOf c.slots (fa ++ ft ++ fe) = attributesOf c.attributes fa := by
  have hlen : (c.attributes ++ c.text.toList).length = (fa ++ ft).length := by
    rw [List.length_append, List.length_append, hfa.length_eq, hft.length_eq]
  rw [Class.slots, attributesOf_append hlen, attributesOf_append hfa.length_eq,
    attributesOf_eq_nil fun s hs => attributeTags_of_isText (hc.text s hs),
    attributesOf_eq_nil fun s hs => attributeTags_of_isElement (hc.elements s hs),
    List.append_nil, List.append_nil]

theorem fieldsContent_object :
    fieldsContent cs c.slots (fa ++ ft ++ fe) =
      fieldsContent cs c.text.toList ft ++ fieldsContent cs c.elements fe := by
  have hlen : (c.attributes ++ c.text.toList).length = (fa ++ ft).length := by
    rw [List.length_append, List.length_append, hfa.length_eq, hft.length_eq]
  rw [Class.slots, fieldsContent_append hlen, fieldsContent_append hfa.length_eq,
    fieldsContent_attributes hc.attributes hfa, List.nil_append]

end

end

end Bindery.Instance
