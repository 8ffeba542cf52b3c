/-
  Enumerations of generated files.

  Two functions take a text to the variant of an enumeration and back, each by
  a `match` with one arm for every variant.  They are inverse to each other: a
  document that is read lists no value twice, and variants are renamed until
  their names differ from each other and from that of the invalid one.

  * `ClassFor.listed`: the enumerations of a class list values of the document;
  * `enumerations_bijective`: the enumerations of a generated file.
-/
import Mathlib
import Bindery.Proofs.Binding.Kinds
import Bindery.Proofs.Document.Proper
import Bindery.Proofs.Instance.Literal

namespace Bindery

/-! ## The names of variants -/

namespace Code

/-- What follows the name in a candidate for a variant. -/
def variantMark (base : String) (n : Nat) : List Char :=
  if n = 0 then []
  else if n = 1 && base == invalidVariant then "Value".toList
  else Nat.toDigits 10 n

theorem toList_variantCandidate (base : String) (n : Nat) :
    (variantCandidate base n).toList = base.toList ++ variantMark base n := by
  rw [variantCandidate, variantMark]
  split
  · rw [List.append_nil]
  · split
    · rw [String.toList_append]
    · simp [Nat.toList_repr, ToString.toString]

theorem toDigits_ne_value (n : Nat) : Nat.toDigits 10 n ≠ "Value".toList := by
  intro h
  have hv : 'V' ∈ Nat.toDigits 10 n := h ▸ (by decide)
  have hdigit : 'V'.isDigit = true := Nat.isDigit_of_mem_toDigits (by decide) (by decide) hv
  revert hdigit
  decide

/-- The number of a candidate, from what follows the name in it. -/
def markNumber (mark : List Char) : Nat :=
  if mark = "Value".toList then 1 else Number.digitsValue mark

theorem markNumber_variantMark (base : String) (n : Nat) :
    markNumber (variantMark base n) = n := by
  rw [variantMark]
  split_ifs with hzero hone
  · rw [hzero]
    rfl
  · obtain ⟨rfl, -⟩ : n = 1 ∧ base = invalidVariant := by simpa using hone
    rfl
  · rw [markNumber, if_neg (toDigits_ne_value n), Number.digitsValue_toDigits]

theorem variantCandidate_injective (base : String) :
    Function.Injective (variantCandidate base) := by
  intro m n h
  have hl : base.toList ++ variantMark base m = base.toList ++ variantMark base n := by
    rw [← toList_variantCandidate, h, toList_variantCandidate]
  have hmark := congrArg markNumber (List.append_cancel_left hl)
  rwa [markNumber_variantMark, markNumber_variantMark] at hmark

theorem not_mem_variantsFrom {name : String} : ∀ (values taken : List String), name ∈ taken →
    name ∉ (variantsFrom taken values).map (·.1)
  | [], _, _ => List.not_mem_nil
  | value :: values, taken, h => by
    rw [variantsFrom, List.map_cons, List.mem_cons, not_or]
    refine ⟨?_, not_mem_variantsFrom values _ (List.mem_append_left _ h)⟩
    rintro rfl
    exact firstFree_not_mem (variantCandidate_injective _) taken h

theorem nodup_variantsFrom : ∀ (values taken : List String),
    ((variantsFrom taken values).map (·.1)).Nodup
  | [], _ => List.nodup_nil
  | value :: values, taken => by
    rw [variantsFrom, List.map_cons, List.nodup_cons]
    exact ⟨not_mem_variantsFrom values _ (List.mem_append_right _ List.mem_cons_self),
      nodup_variantsFrom values _⟩

theorem variants_nodup (values : List String) : ((variants values).map (·.1)).Nodup :=
  nodup_variantsFrom values _

theorem invalidVariant_not_mem (values : List String) :
    invalidVariant ∉ (variants values).map (·.1) :=
  not_mem_variantsFrom values _ List.mem_cons_self

end Code

/-! ## Variants and their texts -/

namespace Instance

open Binding

variable {e : Enumeration}

theorem lookup_of_mem_variants {name text : String} (h : (name, text) ∈ e.variants) :
    e.variants.lookup name = some text :=
  Table.get?_of_mem_entries (t := ⟨e.variants⟩) (Code.variants_nodup e.values) h

/-- **A variant is read from its text**, where no value is listed twice. -/
theorem variantOf_textOf (hv : e.values.Nodup) {name : String}
    (h : name ∈ e.variants.map (·.1)) : variantOf e (textOf e name) = name := by
  obtain ⟨⟨_, text⟩, hmem, rfl⟩ := List.mem_map.1 h
  have hl := lookup_of_mem_variants hmem
  rw [textOf_eq hl, variantOf_eq hv hl]

theorem lookup_invalidVariant (e : Enumeration) :
    e.variants.lookup Code.invalidVariant = none := by
  refine List.lookup_eq_none_iff.2 fun x hx => ?_
  have hne : x.1 ≠ Code.invalidVariant := fun heq =>
    Code.invalidVariant_not_mem e.values (heq ▸ List.mem_map_of_mem hx)
  simpa using hne.symm

theorem variantOf_mem (e : Enumeration) (text : String) :
    variantOf e text ∈ e.variants.map (·.1) ∨ variantOf e text = Code.invalidVariant := by
  rw [variantOf]
  cases hf : e.variants.find? (·.2 == text) with
  | none => exact .inr rfl
  | some found => exact .inl (List.mem_map_of_mem (List.mem_of_find?_eq_some hf))

/-- **A text that is listed is written for the variant it is read as**, and
    nothing for any other text. -/
theorem textOf_variantOf (e : Enumeration) (text : String) :
    textOf e (variantOf e text) = if text ∈ e.values then text else "" := by
  rw [variantOf]
  cases hf : e.variants.find? (·.2 == text) with
  | none =>
    have hmem : text ∉ e.values := by
      rw [← Enumeration.variants_texts e]
      intro hmem
      obtain ⟨x, hx, rfl⟩ := List.mem_map.1 hmem
      simpa using List.find?_eq_none.1 hf x hx
    rw [if_neg hmem]
    exact congrArg (·.getD "") (lookup_invalidVariant e)
  | some found =>
    obtain ⟨name, value⟩ := found
    obtain rfl : value = text := by simpa using List.find?_some hf
    have hvariant := List.mem_of_find?_eq_some hf
    have hmem : value ∈ e.values := by
      rw [← Enumeration.variants_texts e]
      exact List.mem_map.2 ⟨_, hvariant, rfl⟩
    rw [if_pos hmem]
    exact textOf_eq (lookup_of_mem_variants hvariant)

end Instance

/-! ## Conversions -/

namespace Code

open Binding Instance

/-- An arm of a `match`: what it takes, if not all that is left, and what it
    gives. -/
structure Arm where
  pattern : Option String
  result : String

namespace Arm

def run (arms : List Arm) (value : String) : Option String :=
  (arms.find? fun a => a.pattern.all (· == value)).map (·.result)

theorem run_append (arms arms' : List Arm) (value : String) :
    run (arms ++ arms') value = (run arms value).or (run arms' value) := by
  rw [run, List.find?_append, Option.map_or]
  rfl

def units (taken given : String → Units) (a : Arm) : Units :=
  a.pattern.elim ["_"] taken ++ "=>" :: given a.result ++ [","]

def body (taken given : String → Units) (arms : List Arm) : String :=
  Units.text (Code.units "match value" ++ [braces (arms.flatMap (units taken given))])

end Arm

def variantUnits (type name : String) : Units := [spell type, "::", spell name]

def readFunction (label type : String) (arms : List Arm) : Function :=
  { name := label ++ "_from_string", arguments := [("value", "&str")], returns := some type
    body := Arm.body (fun text => [literal text]) (variantUnits type) arms, isStatic := true }

def writeFunction (label type : String) (arms : List Arm) : Function :=
  { name := label ++ "_to_string", arguments := [("value", type)], returns := some "&'static str"
    body := Arm.body (variantUnits type) (fun text => [literal text]) arms, isStatic := true }

def readArms (e : Enumeration) : List Arm :=
  e.variants.map (fun x => ⟨some x.2, x.1⟩) ++ [⟨none, invalidVariant⟩]

def writeArms (e : Enumeration) : List Arm :=
  e.variants.map (fun x => ⟨some x.1, x.2⟩) ++ [⟨some invalidVariant, ""⟩]

theorem conversions_eq (e : Enumeration) : conversions e =
    [readFunction e.label e.name (readArms e), writeFunction e.label e.name (writeArms e)] := by
  simp only [readFunction, writeFunction, Arm.body, readArms, writeArms, List.flatMap_append,
    List.flatMap_map]
  simp only [conversions, List.flatMap_append, List.flatMap_map]
  rfl

theorem run_readArms (e : Enumeration) (text : String) :
    Arm.run (readArms e) text = some (variantOf e text) := by
  have harms : Arm.run (e.variants.map fun x => ⟨some x.2, x.1⟩) text =
      (e.variants.find? (·.2 == text)).map (·.1) := by
    rw [Arm.run, List.find?_map, Option.map_map]
    rfl
  rw [readArms, Arm.run_append, harms, variantOf]
  cases e.variants.find? (·.2 == text) with
  | none => rfl
  | some => rfl

theorem run_writeArms (e : Enumeration) {name : String}
    (h : name ∈ e.variants.map (·.1) ∨ name = invalidVariant) :
    Arm.run (writeArms e) name = some (textOf e name) := by
  have harms : ∀ variants : List (String × String),
      Arm.run (variants.map fun x => ⟨some x.1, x.2⟩) name = variants.lookup name := by
    intro variants
    induction variants with
    | nil => rfl
    | cons x rest ih =>
      rw [List.map_cons, List.lookup_cons, ← ih]
      by_cases hx : x.1 = name
      · simp [Arm.run, hx]
      · have hbeq : (name == x.1) = false := by simpa using Ne.symm hx
        simp [Arm.run, hx, hbeq]
  rw [writeArms, Arm.run_append, harms]
  rcases h with h | rfl
  · obtain ⟨⟨_, text⟩, hmem, rfl⟩ := List.mem_map.1 h
    have hl := lookup_of_mem_variants hmem
    rw [hl, textOf_eq hl]
    rfl
  · rw [textOf, lookup_invalidVariant]
    rfl

/-- Whether the conversions of the enumeration are inverse to each other, but
    for the invalid variant. -/
structure Enum.Bijective (en : Enum) (reads writes : List Arm) : Prop where
  nonempty : en.values ≠ []
  values : en.values.Nodup
  names : (en.variants.map (·.1)).Nodup
  valid : invalidVariant ∉ en.variants.map (·.1)
  read_write : ∀ name ∈ en.variants.map (·.1), (Arm.run writes name).bind (Arm.run reads) = some name
  write_read : ∀ text, (Arm.run reads text).bind (Arm.run writes) =
    some (if text ∈ en.values then text else "")

theorem bijective_enumOf {e : Enumeration} (hne : e.values ≠ []) (hv : e.values.Nodup) :
    (enumOf e).Bijective (readArms e) (writeArms e) where
  nonempty := hne
  values := hv
  names := variants_nodup e.values
  valid := invalidVariant_not_mem e.values
  read_write name h := by
    rw [run_writeArms e (.inl h), Option.bind_some, run_readArms, variantOf_textOf hv h]
  write_read text := by
    rw [run_readArms, Option.bind_some, run_writeArms e (variantOf_mem e text), textOf_variantOf]
    rfl

end Code

/-! ## The enumerations of a class -/

namespace Binding

open Schema

def Enumeration.Listed (e : Enumeration) : Prop := e.values ≠ [] ∧ e.values.Nodup

section
variable {d : Document} {path taken taken' : List String} {hs : List Holding} {label : String}
  {type : ValueType}

theorem ScalarTyped.listed {dataType : Option DataType} {facet : Option Facet}
    (h : ScalarTyped label dataType facet type hs) (hf : Facet.Distinct facet) :
    ∀ e ∈ type.enumeration?, e.Listed := by
  cases h with
  | scalar =>
    intro e he
    cases he
  | enumeration hproper =>
    rintro _ ⟨⟩
    obtain ⟨hmem, hne⟩ := Option.filter_eq_some_iff.1 hproper
    exact ⟨by simpa [Facet.isEmpty] using hne, hf _ hmem⟩

theorem Typed.listed {boxable : Bool} {target : Element}
    (h : Typed path label boxable target type hs) (hf : Facet.Distinct target.facet) :
    ∀ e ∈ type.enumeration?, e.Listed := by
  cases h with
  | text _ hscalar => exact hscalar.listed hf
  | object =>
    intro e he
    cases he

theorem Slot.listed_of_types {s : Slot}
    (h : ∀ type ∈ s.place.types, ∀ e ∈ type.enumeration?, e.Listed) :
    ∀ e ∈ s.place.enumerations, e.Listed := by
  intro e he
  obtain ⟨type, htype, he⟩ := List.mem_filterMap.1 he
  exact h type htype e he

theorem AttributeSlotsFor.listed (hd : d.Proper) {rs : List Relation} {slots : List Slot}
    (h : AttributeSlotsFor d taken rs slots taken' hs) :
    ∀ s ∈ slots, ∀ e ∈ s.place.enumerations, e.Listed := by
  intro s hs
  obtain ⟨_, -, _, _, _, ha, hslot⟩ := h.exists_relation hs
  obtain ⟨type, hplace, htyped⟩ := hslot.place
  refine Slot.listed_of_types fun type' htype => ?_
  rw [hplace] at htype
  rw [List.mem_singleton.1 htype]
  exact htyped.listed (hd.attributeFacet _ _ ha)

theorem TextSlotFor.listed {e : Element} (hf : Facet.Distinct e.facet) {text : Option Slot}
    (h : TextSlotFor taken e text hs) :
    ∀ s ∈ text.toList, ∀ en ∈ s.place.enumerations, en.Listed := by
  cases h with
  | none =>
    intro s hs
    cases hs
  | some _ _ htyped =>
    intro s hs
    rw [List.mem_singleton.1 hs]
    refine Slot.listed_of_types fun type' htype => ?_
    rw [List.mem_singleton.1 htype]
    exact htyped.listed hf

theorem types_of_isElement {s : Slot} (h : s.isElement = true) :
    s.place.types = s.children.map (·.2) := by
  rcases isElement_place h with ⟨_, _, hp⟩ | ⟨_, _, _, hp, -⟩ <;>
    simp [Place.types, Slot.children, hp]

end

theorem ClassFor.listed {site : Site} (hd : site.document.Proper) {path : List String} {id : String}
    {e : Element} {c : Class} {hs : List Holding} (h : ClassFor site path e c hs)
    (he : site.document.elements.get? id = some e) : ∀ en ∈ c.enumerations, en.Listed := by
  intro en hen
  obtain ⟨s, hs, hen⟩ := List.mem_flatMap.1 hen
  obtain ⟨_, _, _, _, _, -, -, hattributes, htext⟩ := h.slots
  rcases List.mem_append.1 hs with hs | hs
  · rcases List.mem_append.1 hs with hs | hs
    · obtain ⟨helement, hchildren⟩ := h.leads hs
      refine Slot.listed_of_types (fun type htype => ?_) en hen
      rw [types_of_isElement helement] at htype
      obtain ⟨x, hx, rfl⟩ := List.mem_map.1 htype
      obtain ⟨r, -, target, _, _, _, ht, -, htyped⟩ := hchildren x hx
      exact htyped.listed (hd.elementFacet _ _ ht)
    · exact hattributes.listed hd s hs en hen
  · exact htext.listed (hd.elementFacet _ _ he) s hs en hen

/-! ## Generated files -/

/-- **The enumerations of a generated file are bijective**, whatever schema it is
    generated for: the class of an enumeration has the two functions that
    convert it, and they are inverse to each other. -/
theorem enumerations_bijective {dialect : Option Dialect} {allowDtd : Bool} {text : String}
    {d : Document} {o : Code.Options} {file : Code.File}
    (hread : (readDocument dialect allowDtd text).1 = .ok d)
    (hgenerate : (Code.generate d o).1 = .ok file) :
    ∀ c ∈ file.classes, ∀ en ∈ c.enums, ∃ label reads writes,
      Code.readFunction label en.name reads ∈ c.functions ∧
      Code.writeFunction label en.name writes ∈ c.functions ∧ en.Bijective reads writes := by
  intro c hc en hen
  have hproper := readDocument_proper hread
  obtain ⟨rt, classes, -, hplan, rfl⟩ := exists_plan hgenerate
  obtain ⟨planned, hplanned, rfl⟩ := List.mem_map.1 hc
  obtain ⟨e, he, rfl⟩ := List.mem_map.1 hen
  have hkeyed : (o.site d).document.Keyed := hproper.keyed
  obtain ⟨id, element, path, hs, helement, hfor⟩ := plan_faithful hkeyed hplan hplanned
  obtain ⟨hne, hnodup⟩ := hfor.listed hproper helement e he
  have hfunctions : ∀ f ∈ Code.conversions e, f ∈ (Code.classOf o.runtime rt planned).functions := by
    intro f hf
    simp only [Code.classOf, List.mem_append]
    exact .inl (.inl (.inr (List.mem_flatMap.2 ⟨e, he, hf⟩)))
  rw [Code.conversions_eq] at hfunctions
  exact ⟨e.label, _, _, hfunctions _ List.mem_cons_self,
    hfunctions _ (List.mem_cons_of_mem _ List.mem_cons_self), Code.bijective_enumOf hne hnodup⟩

/-- Pens, the inks of which have names that fall together with each other and
    with the invalid variant. -/
def penGrammar : String := r#"<element name="pen">
  <attribute name="ink">
    <choice>
      <value>red</value>
      <value>Red</value>
      <value>red1</value>
      <value>invalid</value>
      <value>red</value>
    </choice>
  </attribute>
</element>
"#

def inkFacet : Facet := { values := ["red", "Red", "red1", "invalid"] }

def penRead : Grammar :=
  { start := { elements := [
      { name := "pen", attributes := [{ name := "ink", facet := some inkFacet }] }] } }

def penDocument : Document :=
  { roots := ["pen"]
    elements := ⟨[("pen", {
      identifier := "pen", name := "pen", attributeRelations := [{ target := "pen@ink" }] })]⟩
    attributes := ⟨[("pen@ink", {
      identifier := "pen@ink", name := "ink", facet := some inkFacet })]⟩ }

set_option maxRecDepth 10000 in
theorem read_pen : (readDocument none false penGrammar).1 = .ok penDocument := by
  have hgrammar : grammarOf penGrammar = some penRead := by
    unfold grammarOf readRoot Markup.read penGrammar
    rw [toList_eq_of_ofList rfl]
    decide +kernel
  have hbuild : penRead.resolve.1.build.1 = penDocument := by
    cbv
  exact readDocument_eq hgrammar hbuild rfl

set_option maxRecDepth 10000 in
theorem pen_bijective : (readDocument none false penGrammar).1 = .ok penDocument ∧
    ∃ file, (Code.generate penDocument {}).1 = .ok file ∧
      file.classes.map (fun c => c.enums.map (·.variants)) =
        [[[("Red", "red"), ("Red1", "Red"), ("Red11", "red1"), ("InvalidValue", "invalid")]]] ∧
      ∀ c ∈ file.classes, ∀ en ∈ c.enums, ∃ label reads writes,
        Code.readFunction label en.name reads ∈ c.functions ∧
        Code.writeFunction label en.name writes ∈ c.functions ∧ en.Bijective reads writes :=
  ⟨read_pen, exists_file (by decide +kernel) fun _ hok _ => enumerations_bijective read_pen hok⟩

end Binding

end Bindery
