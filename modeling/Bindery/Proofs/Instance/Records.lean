/-
  Records are read back as far as markup keeps them.

  A value of the class of a record is a string for every slot.  Writing it and
  reading it again always gives a value of the class, whose strings are what
  markup makes of them: in attributes tabulators and line ends become spaces,
  elsewhere carriage returns become line feeds.

  * `fieldsContent_received`, `attributesOf_received`: what is read for a
    value is what is written for the strings that come back;
  * `parse_record`: which value is read;
  * `records_parse_write`: which values are read as they were.
-/
import Bindery.Proofs.Binding.Records
import Bindery.Proofs.Instance.Legible

namespace Bindery.Instance

open Binding Markup Schema
open Code (className)

/-! ## Strings -/

def receivedIn (p : Place) (s : String) : String :=
  match p with
  | .attr .. => valueReceived s
  | _ => textReceived s

/-- Whether a string is read in the place as it was: in an attribute it has no
    tabulators and no line ends, and elsewhere a reference guards every carriage
    return. -/
def KeptIn (p : Place) (s : String) : Prop :=
  match p with
  | .attr .. => ∀ ch ∈ s.toList, ch ≠ '\t' ∧ ch ≠ '\n' ∧ ch ≠ '\r'
  | _ => ReturnsGuarded false s.toList

theorem receivedIn_eq_self_iff (p : Place) (s : String) : receivedIn p s = s ↔ KeptIn p s := by
  have hvalue : valueReceived s = s ↔ ∀ ch ∈ s.toList, ch ≠ '\t' ∧ ch ≠ '\n' ∧ ch ≠ '\r' := by
    rw [valueReceived, ofList_eq_iff, receivedValue_eq_self_iff]
  have htext : textReceived s = s ↔ ReturnsGuarded false s.toList := by
    rw [textReceived, ofList_eq_iff, receivedText_eq_self_iff]
  cases p with
  | attr => exact hvalue
  | _ => exact htext

def receivedStrings : List Slot → List String → List String
  | s :: ss, x :: xs => receivedIn s.place x :: receivedStrings ss xs
  | _, _ => []

theorem length_receivedStrings : ∀ {ss : List Slot} {xs : List String}, xs.length = ss.length →
    (receivedStrings ss xs).length = ss.length
  | [], [], _ => rfl
  | _ :: _, _ :: _, h => by simp [receivedStrings, length_receivedStrings (by simpa using h)]

theorem receivedStrings_eq_self_iff : ∀ {ss : List Slot} {xs : List String},
    xs.length = ss.length →
      (receivedStrings ss xs = xs ↔ ∀ x ∈ ss.zip xs, KeptIn x.1.place x.2)
  | [], [], _ => by simp [receivedStrings]
  | s :: ss, x :: xs, h => by
    have ih := receivedStrings_eq_self_iff (by simpa using h)
    simp [receivedStrings, receivedIn_eq_self_iff, ih]

def texts (xs : List String) : List Datum := xs.map fun x => .scalar (.text x)

def recordOf (c : Binding.Class) (xs : List String) : Datum := .object c.name (texts xs)

theorem recordOf_inj {c : Binding.Class} {xs ys : List String} :
    recordOf c xs = recordOf c ys ↔ xs = ys := by
  have htexts : texts xs = texts ys ↔ xs = ys := by
    refine List.map_inj_right fun x y h => ?_
    cases h
    rfl
  simp [recordOf, htexts]

/-! ## Slots for strings -/

def IsStringSlot (s : Slot) : Prop :=
  s.cardinality = .one ∧ literalType? s.place = some (.scalar .string)

theorem isStringSlot_of_recordClass {d : Document} {e : Element} {c : Binding.Class}
    (h : RecordClass d e c) : ∀ s ∈ c.slots, IsStringSlot s := by
  intro s hs
  simp only [Class.slots, List.mem_append] at hs
  rcases hs with (hs | hs) | hs
  · obtain ⟨hone, tag, hp⟩ := h.attribute hs
    exact ⟨hone, by simp [hp, literalType?]⟩
  · obtain ⟨hone, hp⟩ := h.textSlot hs
    exact ⟨hone, by simp [hp, literalType?]⟩
  · obtain ⟨hone, tag, hp⟩ := h.child hs
    exact ⟨hone, by simp [hp, literalType?]⟩

section
variable {cs : Classes}

theorem fitsFields_texts {leaf : Place → Datum → Prop} :
    ∀ {ss : List Slot} {xs : List String}, (∀ s ∈ ss, IsStringSlot s) → xs.length = ss.length →
      (∀ s ∈ ss, ∀ x ∈ xs, leaf s.place (.scalar (.text x))) → FitsFields cs leaf ss (texts xs)
  | [], [], _, _, _ => trivial
  | s :: ss, x :: xs, hss, hlen, h => by
    have hone := (hss s List.mem_cons_self).1
    refine ⟨?_, fitsFields_texts (fun t ht => hss t (List.mem_cons_of_mem _ ht))
      (by simpa using hlen)
      fun t ht y hy => h t (List.mem_cons_of_mem _ ht) y (List.mem_cons_of_mem _ hy)⟩
    rw [hone]
    exact h s List.mem_cons_self x List.mem_cons_self

theorem returns_text {s : Slot} (hs : IsStringSlot s) (x : String) :
    Returns s.place (.scalar (.text x)) :=
  ⟨.scalar .string, hs.2, rfl, rfl⟩

theorem legible_text {s : Slot} (hs : IsStringSlot s) {x : String}
    (hx : x.toList.all isXmlChar = true) :
    Legible isXmlChar isXmlChar s.place (.scalar (.text x)) := by
  cases hp : s.place with
  | choice => rw [IsStringSlot, hp] at hs; cases hs.2
  | _ => rw [IsStringSlot, hp] at hs; cases hs.2; exact hx

theorem fieldsShown_texts : ∀ xs : List String, FieldsShown cs (texts xs)
  | [] => trivial
  | _ :: xs => ⟨trivial, fieldsShown_texts xs⟩

theorem isListShaped_of_strings {c : Binding.Class} (h : ∀ s ∈ c.slots, IsStringSlot s) :
    c.isListShaped = false := by
  unfold Class.isListShaped
  cases hslots : c.slots with
  | nil => rfl
  | cons s ss =>
    have hone := (h s (by simp [hslots])).1
    simp [hone]

/-! ## What comes back -/

theorem placeContent_received {s : Slot} (hs : IsStringSlot s) (x : String) :
    receivedAll (placeContent cs s.place s.cardinality (.scalar (.text x))) =
      placeContent cs s.place s.cardinality (.scalar (.text (receivedIn s.place x))) := by
  obtain ⟨hone, hp⟩ := hs
  rw [hone, placeContent, placeContent]
  cases hplace : s.place with
  | choice => rw [hplace] at hp; cases hp
  | attr tag type => rfl
  | text type =>
    rw [hplace] at hp
    cases hp
    exact textContents_received x
  | child tag type =>
    rw [hplace] at hp
    cases hp
    have htext := textContents_received x
    simp [plainContent, literalElement, receivedAll, Content.received, receivedIn, writeValue,
      Scalar.write, htext]

theorem fieldsContent_received : ∀ {ss : List Slot} {xs : List String},
    (∀ s ∈ ss, IsStringSlot s) → receivedAll (fieldsContent cs ss (texts xs)) =
      fieldsContent cs ss (texts (receivedStrings ss xs))
  | [], _, _ => by simp [fieldsContent, receivedAll]
  | _ :: _, [], _ => by simp [fieldsContent, receivedAll, texts, receivedStrings]
  | s :: ss, x :: xs, hss => by
    rw [receivedStrings, texts, texts, List.map_cons, List.map_cons, fieldsContent, fieldsContent,
      receivedAll_append, placeContent_received (hss s List.mem_cons_self)]
    exact congrArg _ (fieldsContent_received fun t ht => hss t (List.mem_cons_of_mem _ ht))

theorem attributesOf_received : ∀ {ss : List Slot} {xs : List String},
    (∀ s ∈ ss, IsStringSlot s) →
      (attributesOf ss (texts xs)).map (fun a => (a.1, valueReceived a.2)) =
        attributesOf ss (texts (receivedStrings ss xs))
  | [], _, _ => by simp [attributesOf]
  | _ :: _, [], _ => by simp [attributesOf, texts, receivedStrings]
  | s :: ss, x :: xs, hss => by
    obtain ⟨hone, hp⟩ := hss s List.mem_cons_self
    rw [receivedStrings, texts, texts, List.map_cons, List.map_cons, attributesOf, attributesOf,
      List.map_append]
    refine congrArg₂ _ ?_ (attributesOf_received fun t ht => hss t (List.mem_cons_of_mem _ ht))
    cases hplace : s.place with
    | attr tag type =>
      rw [hplace] at hp
      cases hp
      simp [held, hone, writeValue, Scalar.write, receivedIn]
    | _ => rfl

end

/-! ## Round trips -/

section
variable {cs : Classes} (hcs : cs.Coherent) (hspell : cs.Spellable) {c : Binding.Class} (hc : c ∈ cs)
  (hstrings : ∀ s ∈ c.slots, IsStringSlot s) {xs : List String} (hlength : xs.length = c.slots.length)

include hcs hc hstrings

theorem contentOf_record (xs : List String) : contentOf cs (recordOf c xs) =
    [.element c.tag (attributesOf c.slots (texts xs)) (fieldsContent cs c.slots (texts xs))] := by
  simp [recordOf, contentOf, hcs.found c hc, elementOf, isListShaped_of_strings hstrings]

include hspell hlength

theorem parse_record (hchars : ∀ x ∈ xs, x.toList.all isXmlChar = true) :
    parse cs c.name (write cs (recordOf c xs)) =
      .ok (recordOf c (receivedStrings c.slots xs)) := by
  have hget := hcs.found c hc
  obtain ⟨htag, hslots⟩ := hspell c hc
  -- the value that comes back is read from every tree that shows it
  have hreturns : FitsFields cs Returns c.slots (texts (receivedStrings c.slots xs)) :=
    fitsFields_texts hstrings (length_receivedStrings hlength)
      fun s hs x _ => returns_text (hstrings s hs) x
  obtain ⟨tree, htree, hread⟩ := contentOf_written hcs hc ⟨_, rfl, hreturns⟩
    (by simp [isHidden, hget, isListShaped_of_strings hstrings]) (fieldsShown_texts _)
  obtain rfl := List.singleton_inj.1 ((contentOf_record hcs hc hstrings _).symm.trans htree)
  -- what is written is read as such a tree
  have hlegible : FitsFields cs (Legible isXmlChar isXmlChar) c.slots (texts xs) :=
    fitsFields_texts hstrings hlength fun s hs x hx => legible_text (hstrings s hs) (hchars x hx)
  have hreadable := element_spelled (hcs.shaped c hc) htag hslots hlegible
    (hlegible.spelled hcs.shaped hspell hslots)
  obtain ⟨n, hn, hmarkup⟩ := read_received false hreadable rfl
  rw [Content.received, attributesOf_received hstrings, fieldsContent_received hstrings] at hn
  have hwritten : write cs (recordOf c xs) = (Content.element c.tag
      (attributesOf c.slots (texts xs)) (fieldsContent cs c.slots (texts xs))).written := by
    simp [write, contentOf_record hcs hc hstrings, writtenAll]
  simp only [parse, hwritten, hmarkup, Except.mapError, bind, Except.bind]
  exact hread n hn

end

/-- Whether the names of the roots, of their attributes and of their children
    have no prefix and declare no namespace. -/
def SpelledRoots (d : Document) : Prop :=
  ∀ root ∈ d.roots, ∀ e, d.elements.get? root = some e →
    isLocalName e.name = true ∧ ∀ p ∈ recordPlaces d e, isSpellable p = true

theorem plan_records_coherent {site : Site} (hrecords : site.document.OfRecords)
    (hnames : SpelledRoots site.document) {classes : List Binding.Class}
    (hplan : (plan site).1 = .ok classes) :
    Classes.Coherent classes ∧ Classes.Spellable classes := by
  obtain ⟨-, hclasses⟩ := plan_records hrecords hplan
  refine ⟨⟨fun c hc => (hclasses c hc).1, fun c hc => ?_, fun c hc e he => ?_⟩, fun c hc => ?_⟩
  · obtain ⟨-, root, hroot, e, he, hrecord⟩ := hclasses c hc
    obtain ⟨e', he', h⟩ := hrecords root hroot
    obtain rfl : e = e' := Option.some.inj (he.symm.trans he')
    exact hrecord.coherent h classes
  · obtain ⟨-, root, -, e, -, hrecord⟩ := hclasses c hc
    rw [hrecord.enumerations] at he
    cases he
  · obtain ⟨-, root, hroot, e, he, hrecord⟩ := hclasses c hc
    obtain ⟨htag, hplaces⟩ := hnames root hroot e he
    refine ⟨hrecord.tag ▸ htag, fun s hs => hplaces s.place ?_⟩
    rw [← hrecord.places]
    exact List.mem_map_of_mem hs

/-- **Which records are read as they were.**  In a document whose roots are
    records, every root has its class, and every class is the one of a root, with
    one member for every attribute, for the text and for every child.  Whatever
    characters of markup its members hold, a value is read from the text that it
    is written as, with its strings as markup hands them on.  They are the same
    exactly if there is no tabulator and no line end in the attributes, and a
    reference guards every carriage return elsewhere. -/
theorem records_parse_write {site : Site} (hrecords : site.document.OfRecords)
    (hnames : SpelledRoots site.document) {classes : List Binding.Class}
    (hplan : (plan site).1 = .ok classes) :
    (∀ root ∈ site.document.roots, ∀ e, site.document.elements.get? root = some e →
      ∃ c ∈ classes, c.name = className e.name) ∧
    ∀ c ∈ classes,
      (∃ root ∈ site.document.roots, ∃ e, site.document.elements.get? root = some e ∧
        c.tag = e.name ∧ c.slots.map (·.place) = recordPlaces site.document e) ∧
      ∀ xs : List String, xs.length = c.slots.length →
        (∀ x ∈ xs, x.toList.all isXmlChar = true) →
        parse classes c.name (write classes (recordOf c xs)) =
          .ok (recordOf c (receivedStrings c.slots xs)) ∧
        (parse classes c.name (write classes (recordOf c xs)) = .ok (recordOf c xs) ↔
          ∀ x ∈ c.slots.zip xs, KeptIn x.1.place x.2) := by
  obtain ⟨hmade, hclasses⟩ := plan_records hrecords hplan
  obtain ⟨hcs, hspell⟩ := plan_records_coherent hrecords hnames hplan
  refine ⟨hmade, fun c hc => ?_⟩
  obtain ⟨-, root, hroot, e, he, hrecord⟩ := hclasses c hc
  refine ⟨⟨root, hroot, e, he, hrecord.tag, hrecord.places⟩, fun xs hlength hchars => ?_⟩
  have hread := parse_record hcs hspell hc (isStringSlot_of_recordClass hrecord) hlength hchars
  refine ⟨hread, ?_⟩
  rw [hread, Except.ok.injEq, recordOf_inj, receivedStrings_eq_self_iff hlength]

def cardDocument : Document :=
  { roots := ["card"]
    elements := ⟨[
      ("card", {
        identifier := "card", name := "card", text := true
        elementRelations := [{ target := "note" }]
        attributeRelations := [{ target := "card@number" }] }),
      ("note", { identifier := "note", name := "note", text := true, dataType := some .string })]⟩
    attributes := ⟨[("card@number", { identifier := "card@number", name := "number" })]⟩ }

def cardClass : Binding.Class :=
  { name := "Card", element := "card", tag := "card", root := true
    attributes := [⟨"number", "number", .one, .attr "number" (.scalar .string)⟩]
    text := some ⟨"value", "value", .one, .text (.scalar .string)⟩
    elements := [⟨"note", "note", .one, .child "note" (.scalar .string)⟩] }

theorem cardDocument_ofRecords : cardDocument.OfRecords := by
  intro root hroot
  obtain rfl := List.mem_singleton.1 hroot
  refine ⟨_, rfl, ?_, fun _ => rfl, ?_, by decide, by decide⟩
  · intro r hr
    obtain rfl := List.mem_singleton.1 hr
    exact ⟨rfl, _, rfl, rfl⟩
  · intro r hr
    obtain rfl := List.mem_singleton.1 hr
    exact ⟨rfl, rfl, _, rfl, rfl, rfl⟩

theorem cardDocument_spelledRoots : SpelledRoots cardDocument := by
  intro root hroot e he
  obtain rfl := List.mem_singleton.1 hroot
  obtain rfl := Option.some.inj he
  decide

theorem plan_cardDocument : (plan { document := cardDocument }).1 = .ok [cardClass] := by
  decide +kernel

theorem card_parse_write :
    cardDocument.OfRecords ∧ SpelledRoots cardDocument ∧
      (plan { document := cardDocument }).1 = .ok [cardClass] ∧
      parse [cardClass] "Card" (write [cardClass]
        (recordOf cardClass ["a < \"b\"", "]]>\ttwo\nlines\r<", ""])) =
          .ok (recordOf cardClass ["a < \"b\"", "]]>\ttwo\nlines\r<", ""]) := by
  refine ⟨cardDocument_ofRecords, cardDocument_spelledRoots, plan_cardDocument, ?_⟩
  have hcard := (records_parse_write cardDocument_ofRecords cardDocument_spelledRoots
    plan_cardDocument).2 cardClass List.mem_cons_self
  refine ((hcard.2 ["a < \"b\"", "]]>\ttwo\nlines\r<", ""] rfl (by decide)).2).2 ?_
  exact (receivedStrings_eq_self_iff rfl).1 (by decide)

theorem card_not_kept :
    cardDocument.OfRecords ∧ (plan { document := cardDocument }).1 = .ok [cardClass] ∧
      (∀ x ∈ ["a\tb", "", "c\rd"], x.toList.all isXmlChar = true) ∧
      parse [cardClass] "Card" (write [cardClass] (recordOf cardClass ["a\tb", "", "c\rd"])) =
        .ok (recordOf cardClass ["a b", "", "c\nd"]) ∧
      parse [cardClass] "Card" (write [cardClass] (recordOf cardClass ["a\tb", "", "c\rd"])) ≠
        .ok (recordOf cardClass ["a\tb", "", "c\rd"]) := by
  have hchars : ∀ x ∈ ["a\tb", "", "c\rd"], x.toList.all isXmlChar = true := by decide
  obtain ⟨hcs, hspell⟩ := plan_records_coherent cardDocument_ofRecords cardDocument_spelledRoots
    plan_cardDocument
  obtain ⟨-, -, -, e, -, hrecord⟩ := (plan_records cardDocument_ofRecords plan_cardDocument).2
    cardClass List.mem_cons_self
  have hread := parse_record hcs hspell List.mem_cons_self (isStringSlot_of_recordClass hrecord)
    rfl hchars
  have hreceived : receivedStrings cardClass.slots ["a\tb", "", "c\rd"] = ["a b", "", "c\nd"] := by
    decide
  rw [hreceived] at hread
  refine ⟨cardDocument_ofRecords, plan_cardDocument, hchars, hread, fun hsame => ?_⟩
  have hstrings := recordOf_inj.1 (Except.ok.inj (hread.symm.trans hsame))
  exact absurd hstrings (by decide)

end Bindery.Instance
