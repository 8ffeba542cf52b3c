/-
  Values that are read from their text.

  Where the tags are names and the literals have given characters (`Legible`),
  what is written for a value is spelled with them.  If they are characters that
  reading does not change, it is read as a tree that shows it.  What remains
  is that no value is left out where its absence means something else; classes may
  rule that out altogether (`Classes.AlwaysShown`).

  * `FitsFields.fieldsShown`: nothing is hidden in values of such classes;
  * `parse_write`: a value is read from the text that it is written as.
-/
import Bindery.Proofs.Instance.RoundTrip
import Bindery.Proofs.Markup.Assembling

namespace Bindery.Instance

open Binding Markup

/-- Whether the tags of a place are names that declare no namespace. -/
def isSpellable : Place → Bool
  | .attr tag _ => isLocalName tag && tag != "xmlns"
  | .text _ => true
  | .child tag _ => isLocalName tag
  | .choice _ _ alternatives => alternatives.all fun a => isLocalName a.tag

/-- The tags of the classes and of their slots are names. -/
def Classes.Spellable (cs : Classes) : Prop :=
  ∀ c ∈ cs, isLocalName c.tag = true ∧ ∀ s ∈ c.slots, isSpellable s.place = true

instance (cs : Classes) : Decidable cs.Spellable :=
  inferInstanceAs (Decidable (∀ c ∈ cs, isLocalName c.tag = true ∧
    ∀ s ∈ c.slots, isSpellable s.place = true))

/-- Whether the literal of the value in the place has the characters `value`, in
    an attribute, or `text`, elsewhere. -/
def Legible (value text : Char → Bool) : Place → Datum → Prop
  | .attr _ type, d => (writeValue type d).toList.all value = true
  | .text type, d | .child _ type, d => (writeValue type d).toList.all text = true
  | .choice .., _ => False

theorem textContents_received (x : String) :
    receivedAll (textContents x) = textContents (textReceived x) := by
  unfold textContents
  by_cases hx : x = ""
  · subst hx
    rfl
  · have hne : ¬ textReceived x = "" := fun h => hx (textReceived_eq_empty.1 h)
    simp [hx, hne, receivedAll, Content.received]

/-! ## Spelled content -/

section
variable {value text : Char → Bool}

theorem spelledAll_elements : ∀ {xs : List Content}, (∀ x ∈ xs, x.isElement = true) →
    (∀ x ∈ xs, x.Spelled value text) → SpelledAll value text xs
  | [], _, _ => trivial
  | x :: _, he, hl =>
    ⟨hl x List.mem_cons_self, .inl (he x List.mem_cons_self),
      spelledAll_elements (fun y hy => he y (List.mem_cons_of_mem _ hy))
        fun y hy => hl y (List.mem_cons_of_mem _ hy)⟩

theorem spelledAll_text {s : String} {xs : List Content} (he : ∀ x ∈ xs, x.isElement = true)
    (hl : ∀ x ∈ textContents s ++ xs, x.Spelled value text) :
    SpelledAll value text (textContents s ++ xs) := by
  have hxs := spelledAll_elements he fun x hx => hl x (List.mem_append_right _ hx)
  unfold textContents at hl ⊢
  by_cases hs : s.isEmpty = true
  · simpa [hs] using hxs
  · rw [if_neg hs] at hl ⊢
    exact ⟨hl _ List.mem_cons_self, .inr fun x hx => he x (List.mem_of_mem_head? hx), hxs⟩

theorem textContents_spelled {s : String} (h : s.toList.all text = true) :
    ∀ x ∈ textContents s, x.Spelled value text := by
  intro x hx
  rw [textContents] at hx
  split at hx
  · cases hx
  · rename_i hne
    rw [List.mem_singleton.1 hx]
    exact ⟨by simpa using hne, h⟩

theorem plainContent_spelled {p : Place} (hp : isSpellable p = true) {d : Datum}
    (h : Legible value text p d) : ∀ x ∈ plainContent p d, x.Spelled value text := by
  cases p with
  | text type => exact textContents_spelled h
  | child tag type =>
    intro x hx
    rw [List.mem_singleton.1 hx]
    have htext : SpelledAll value text (textContents (writeValue type d) ++ []) :=
      spelledAll_text (by simp) (by simpa using textContents_spelled h)
    exact ⟨hp, by simp, by simp, by simpa using htext⟩
  | _ => simp [plainContent]

end

section
variable {cs : Classes} {value text : Char → Bool}

theorem element_spelled {c : Binding.Class} (hc : c.Shaped) (htag : isLocalName c.tag = true)
    (hslots : ∀ s ∈ c.slots, isSpellable s.place = true) {fields : List Datum}
    (h : FitsFields cs (Legible value text) c.slots fields)
    (hl : ∀ x ∈ fieldsContent cs c.slots fields, x.Spelled value text) :
    (Content.element c.tag (attributesOf c.slots fields)
      (fieldsContent cs c.slots fields)).Spelled value text := by
  obtain ⟨fat, fe, rfl, hfat, -⟩ := h.append_left
  obtain ⟨fa, ft, rfl, hfa, hft⟩ := hfat.append_left
  rw [fieldsContent_object hc hfa hft] at hl ⊢
  rw [attributesOf_object hc hfa hft]
  obtain ⟨string, htext⟩ := fieldsContent_text hc.text hft
  rw [htext] at hl ⊢
  refine ⟨htag, fun a ha => ?_, (attributesOf_tags hc.attributes hfa).nodup hc.attributeTags,
    spelledAll_text (fieldsContent_elements hc.elements) hl⟩
  obtain ⟨s, hs, type, d, hp, hvalue, hlegible⟩ := mem_attributesOf hc.attributes hfa a ha
  have hspell := hslots s (by simp [Class.slots, hs])
  rw [hp] at hspell hlegible
  simp only [isSpellable, Bool.and_eq_true, bne_iff_ne] at hspell
  exact ⟨hspell.1, hspell.2, hvalue ▸ hlegible⟩

theorem pervades_spelled (hcs : ∀ c ∈ cs, c.Shaped) (hspell : cs.Spellable) :
    Pervades cs (Legible value text) (isSpellable · = true) fun _ x => x.Spelled value text where
  slots c hc := (hspell c hc).2
  plain hp h := plainContent_spelled hp h
  alternative ha hp := by
    obtain ⟨_, _, alternatives, a, rfl, hfind, rfl⟩ := alternativePlace?_eq ha
    exact ⟨List.all_eq_true.1 hp a (List.mem_of_find?_eq_some hfind), fun _ hx => hx⟩
  object hget hfit hfields := by
    have hc := (Classes.mem_of_get? hget).1
    obtain ⟨htag, hslots⟩ := hspell _ hc
    exact element_spelled (hcs _ hc) htag hslots hfit fun x hx => (hfields x hx).choose_spec.2

theorem FitsFields.spelled (hcs : ∀ c ∈ cs, c.Shaped) (hspell : cs.Spellable) {ss : List Slot}
    {ds : List Datum} (hss : ∀ s ∈ ss, isSpellable s.place = true)
    (h : FitsFields cs (Legible value text) ss ds) :
    ∀ x ∈ fieldsContent cs ss ds, x.Spelled value text :=
  fun x hx => ((pervades_spelled hcs hspell).fields hss h x hx).choose_spec.2

/-! ## Values that are always written -/

/-- Whether something is written for every value of the type. -/
def isShown (cs : Classes) (type : ValueType) : Bool :=
  match type.class? with
  | some name => (cs.get? name).all (!·.isListShaped)
  | none => true

/-- Whether every value is written that stands in a list, is optional or is an
    alternative. -/
def Classes.AlwaysShown (cs : Classes) : Prop :=
  ∀ c ∈ cs, ∀ s ∈ c.slots, s.cardinality ≠ .one → ∀ type ∈ s.place.types, isShown cs type = true

instance : Decidable cs.AlwaysShown :=
  inferInstanceAs (Decidable (∀ c ∈ cs, ∀ s ∈ c.slots, s.cardinality ≠ .one →
    ∀ type ∈ s.place.types, isShown cs type = true))

theorem Fits.isHidden_eq_false {leaf : Place → Datum → Prop} {p : Place}
    (hp : ∀ type ∈ p.types, isShown cs type = true) {d : Datum} (h : Fits cs leaf p .one d) :
    isHidden cs d = false := by
  cases d with
  | object name fields =>
    rw [Fits] at h
    obtain ⟨⟨tag, boxed, rfl⟩, -⟩ := h
    have hshown := hp (.object name boxed) (by simp [Place.types])
    cases hget : cs.get? name with
    | none => simp [isHidden, hget]
    | some c =>
      have hc : c.isListShaped = false := by simpa [isShown, ValueType.class?, hget] using hshown
      simp [isHidden, hget, hc]
  | _ => rfl

theorem Returns.entriesShown {p : Place} {ds : List Datum} (h : Returns p (.list ds)) :
    EntriesShown cs ds := by
  obtain ⟨type, -, -, hread⟩ := h
  have hvariants : ∀ (e : Enumeration) (ws : List String),
      EntriesShown cs (ws.map fun w => .variant (variantOf e w)) := by
    intro e ws
    induction ws with
    | nil => trivial
    | cons w ws ih => exact ⟨rfl, trivial, ih⟩
  cases type with
  | scalar t =>
    rw [readValue] at hread
    cases hs : Scalar.read t ((whitespace t).normalize (writeValue (.scalar t) (.list ds))) <;>
      rw [hs] at hread <;> cases hread
  | enumeration e =>
    rw [readValue] at hread
    split at hread
    · rw [← Datum.list.inj (Except.ok.inj hread)]
      exact hvariants e _
    · cases hread
  | object name boxed => cases hread

/-- Whether no value of the place is hidden where it must not be: it stands
    alone and is no alternative, or is always written. -/
def Exposes (cs : Classes) (p : Place) (k : Cardinality) : Prop :=
  (k = .one ∧ ∀ union group alternatives, p ≠ .choice union group alternatives) ∨
    ∀ type ∈ p.types, isShown cs type = true

theorem Classes.Coherent.exposes (hcs : cs.Coherent) (hshown : cs.AlwaysShown) {c : Binding.Class}
    (hc : c ∈ cs) : ∀ s ∈ c.slots, Exposes cs s.place s.cardinality := by
  intro s hs
  by_cases hk : s.cardinality = .one
  · refine .inl ⟨hk, ?_⟩
    rintro union group alternatives hp
    have hcoherent := hcs.each c hc
    simp only [Class.slots, List.mem_append] at hs
    rcases hs with (hs | hs) | hs
    · obtain ⟨_, _, hp', -⟩ := isAttribute_place (hcoherent.attributes s hs)
      rw [hp] at hp'
      cases hp'
    · obtain ⟨_, hp', -⟩ := isText_place (hcoherent.text s hs)
      rw [hp] at hp'
      cases hp'
    · rcases isElement_place (hcoherent.elements s hs) with ⟨_, _, hp'⟩ | ⟨_, _, _, -, hk'⟩
      · rw [hp] at hp'
        cases hp'
      · exact hk' hk
  · exact .inr (hshown c hc s hs hk)

mutual

theorem Fits.shownWithin (hcs : cs.Coherent) (hshown : cs.AlwaysShown) {p : Place} :
    ∀ {k : Cardinality} {d : Datum}, Exposes cs p k → Fits cs Returns p k d → ShownWithin cs d
  | .optional, .absent, _, _ => trivial
  | .optional, .present d, hp, h => by
    have hp := hp.resolve_left nofun
    have h : Fits cs Returns p .one d := h
    exact ⟨h.isHidden_eq_false hp, Fits.shownWithin hcs hshown (.inr hp) h⟩
  | .list, .list ds, hp, h => FitsAll.entriesShown hcs hshown (hp.resolve_left nofun) h
  | .one, .alternative name d, hp, h => by
    rw [Fits] at h
    cases ha : alternativePlace? p name with
    | none => rw [ha] at h; exact h.elim
    | some place =>
      rw [ha] at h
      obtain ⟨_, _, alternatives, a, rfl, hfind, rfl⟩ := alternativePlace?_eq ha
      have hp := hp.resolve_left fun hp => hp.2 _ _ _ rfl
      have hplace : ∀ type ∈ (Place.child a.tag a.type).types, isShown cs type = true := by
        intro type htype
        rw [List.mem_singleton.1 htype]
        exact hp a.type (List.mem_map_of_mem (List.mem_of_find?_eq_some hfind))
      exact ⟨h.isHidden_eq_false hplace, Fits.shownWithin hcs hshown (.inr hplace) h⟩
  | .one, .object name fields, _, h => by
    rw [Fits] at h
    cases hget : cs.get? name with
    | none => rw [hget] at h; exact h.2.elim
    | some c =>
      rw [hget] at h
      exact FitsFields.fieldsShown hcs hshown
        (hcs.exposes hshown (Classes.mem_of_get? hget).1) h.2
  | .one, .scalar _, _, _ => trivial
  | .one, .variant _, _, _ => trivial
  | .one, .list _, _, h => Returns.entriesShown h

theorem FitsAll.entriesShown (hcs : cs.Coherent) (hshown : cs.AlwaysShown) {p : Place}
    (hp : ∀ type ∈ p.types, isShown cs type = true) : ∀ {ds : List Datum},
      FitsAll cs Returns p ds → EntriesShown cs ds
  | [], _ => trivial
  | _ :: _, h => ⟨h.1.isHidden_eq_false hp, Fits.shownWithin hcs hshown (.inr hp) h.1,
      FitsAll.entriesShown hcs hshown hp h.2⟩

theorem FitsFields.fieldsShown (hcs : cs.Coherent) (hshown : cs.AlwaysShown) :
    ∀ {ss : List Slot} {ds : List Datum}, (∀ s ∈ ss, Exposes cs s.place s.cardinality) →
      FitsFields cs Returns ss ds → FieldsShown cs ds
  | [], [], _, _ => trivial
  | s :: _, _ :: _, hss, h =>
    ⟨Fits.shownWithin hcs hshown (hss s List.mem_cons_self) h.1,
      FitsFields.fieldsShown hcs hshown (fun t ht => hss t (List.mem_cons_of_mem _ ht)) h.2⟩

end

theorem parse_write (hcs : cs.Coherent) (hspell : cs.Spellable) (hshown : cs.AlwaysShown)
    {c : Binding.Class} (hc : c ∈ cs) (hroot : c.isListShaped = false) {v : Datum}
    (hv : v.IsOf cs (fun p d => Returns p d ∧ Legible isValueChar isTextChar p d) c) :
    parse cs c.name (write cs v) = .ok v := by
  obtain ⟨fields, rfl, hfit⟩ := hv
  have hreturns : FitsFields cs Returns c.slots fields :=
    hfit.mono (fun _ _ _ _ _ _ _ h => h.1) (fun _ _ _ _ _ h => h.1)
  have hlegible : FitsFields cs (Legible isValueChar isTextChar) c.slots fields :=
    hfit.mono (fun _ _ _ _ _ _ _ h => h.2) (fun _ _ _ _ _ h => h.2)
  have hget := hcs.found c hc
  have hwithin : ShownWithin cs (.object c.name fields) :=
    hreturns.fieldsShown hcs hshown (hcs.exposes hshown hc)
  obtain ⟨tree, htree, hread⟩ := contentOf_written hcs hc ⟨fields, rfl, hreturns⟩
    (by simp [isHidden, hget, hroot]) hwithin
  obtain ⟨htag, hslots⟩ := hspell c hc
  obtain rfl : tree = .element c.tag (attributesOf c.slots fields)
      (fieldsContent cs c.slots fields) := by
    simpa [contentOf, hget, elementOf, hroot] using htree.symm
  have hlegal := element_spelled (hcs.shaped c hc) htag hslots hlegible
    (hlegible.spelled hcs.shaped hspell hslots)
  obtain ⟨n, hn, hmarkup⟩ := read_written false hlegal rfl
  have hwritten : write cs (.object c.name fields) = (Content.element c.tag
      (attributesOf c.slots fields) (fieldsContent cs c.slots fields)).written := by
    simp [write, htree, writtenAll]
  simp only [parse, hwritten, hmarkup, Except.mapError, bind, Except.bind, hread n hn]

end

end Bindery.Instance
