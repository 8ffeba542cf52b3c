/-
  What is written is accepted.

  Reading a written value need not give the value back: markup changes line
  ends, types collapse white space, and a child element goes to the first slot
  with its tag.  But it does not fail, where the slots of a class that share a
  tag hold values of one kind (`Class.Unmixed`).  What reading may refuse is a
  literal of a number or a truth value, and these are received as they were
  written.

  Only a value that is hidden is not accepted: nothing is written for it, and
  nothing is no document.

  * `FitsFields.accepted`: the elements that are written for fields are accepted, by
    induction on the values;
  * `plan_written_accepted`: so is the text of a value, unless it is hidden.
-/
import Bindery.Proofs.Binding.Kinds
import Bindery.Proofs.Instance.Literal
import Bindery.Proofs.Number.Decimal

namespace Bindery.Instance

open Binding Markup Number Text
open Schema (DataType Document)

/-! ## Values of types -/

def Scalar.HasType : DataType → Scalar → Prop
  | .integer, .integer n => inRange 64 n = true
  | .int, .integer n => inRange 32 n = true
  | .decimal, .decimal _ | .boolean, .boolean _ | .string, .text _ | .normalizedString, .text _
  | .token, .text _ | .date, .text _ | .dateTime, .text _ => True
  | _, _ => False

/-- Whether the value is one of a type that is written as literals. -/
def Datum.HasType : ValueType → Datum → Prop
  | .scalar type, .scalar s => s.HasType type
  | .enumeration e, .variant _ => e.combinable = false
  | .enumeration e, .list ds => e.combinable = true ∧ ∀ d ∈ ds, ∃ name, d = .variant name
  | _, _ => False

def TypedIn (p : Place) (d : Datum) : Prop := ∃ type, literalType? p = some type ∧ d.HasType type

theorem TypedIn.hasType {p : Place} {type : ValueType} {d : Datum} (h : TypedIn p d)
    (hp : literalType? p = some type) : d.HasType type := by
  obtain ⟨t, ht, hd⟩ := h
  rw [hp] at ht
  cases ht
  exact hd

theorem Datum.HasType.isLiteral : ∀ {type : ValueType} {d : Datum}, d.HasType type →
    type.isLiteral = true
  | .scalar _, _, _ => rfl
  | .enumeration _, _, _ => rfl

/-! ## Literals -/

theorem isValueChar_of_isDigit {c : Char} (h : c.isDigit = true) : isValueChar c = true := by
  have hc := toNat_of_isDigit h
  have hne : ∀ d : Char, d.toNat < 48 → c ≠ d := by
    rintro _ hd rfl
    omega
  have hxml : isXmlChar c = true := by
    rw [isXmlChar, if_neg (by omega), Bool.and_eq_true, bne_iff_ne, bne_iff_ne]
    omega
  simp [isValueChar, isTextChar, hxml, hne]

theorem Scalar.HasType.isValueChar {type : DataType} (hstrict : type.isStrict = true) {s : Scalar}
    (h : s.HasType type) : s.write.toList.all isValueChar = true := by
  rw [List.all_eq_true]
  intro c hc
  have hsymbols : Binary64.symbols.all Markup.isValueChar = true := by decide
  rw [List.all_eq_true] at hsymbols
  cases s with
  | text s =>
    cases type with
    | integer | int | decimal | boolean => cases h
    | _ => cases hstrict
  | integer n =>
    rcases mem_writeInteger hc with rfl | hdigit
    · exact hsymbols _ (by decide)
    · exact isValueChar_of_isDigit hdigit
  | decimal x =>
    rcases Binary64.mem_write hc with hdigit | hsymbol
    · exact isValueChar_of_isDigit hdigit
    · exact hsymbols c hsymbol
  | boolean b =>
    have hwords : ∀ b, (Scalar.boolean b).write.toList.all Markup.isValueChar = true := by decide
    exact List.all_eq_true.1 (hwords b) c hc

theorem Scalar.HasType.exists_read {type : DataType} (hstrict : type.isStrict = true) {s : Scalar}
    (h : s.HasType type) :
    ∃ v, Scalar.read type ((whitespace type).normalize s.write) = .ok v := by
  cases s with
  | text s =>
    cases type with
    | integer | int | decimal | boolean => cases h
    | _ => cases hstrict
  | integer n =>
    refine ⟨.integer n, Scalar.read_write ?_⟩
    cases type with
    | integer | int => exact h
    | _ => cases h
  | boolean b =>
    refine ⟨.boolean b, Scalar.read_write ?_⟩
    cases type with
    | boolean => trivial
    | _ => cases h
  | decimal x =>
    obtain ⟨y, hy⟩ := Binary64.exists_read?_write x
    cases type with
    | decimal =>
      refine ⟨.decimal y, ?_⟩
      simp only [whitespace, Whitespace.normalize, Scalar.write, Scalar.read, hy]
      rfl
    | _ => cases h

theorem eq_scalar_of_demanded {type : ValueType} {t : DataType} (h : type.demanded = some t) :
    type = .scalar t ∧ t.isStrict = true := by
  cases type with
  | scalar type =>
    rw [ValueType.demanded, DataType.strict?] at h
    obtain ⟨heq, hstrict⟩ := Option.filter_eq_some_iff.1 h
    cases heq
    exact ⟨rfl, hstrict⟩
  | _ => cases h

theorem exists_readValue_of_demanded {type : ValueType} (h : type.demanded = none)
    (literal : String) : ∃ v, readValue type literal = .ok v := by
  cases type with
  | scalar type =>
    have hlenient : type.isStrict = false := by
      simpa [ValueType.demanded, DataType.strict?, Option.filter_eq_none_iff] using h
    cases type with
    | integer | int | decimal | boolean => cases hlenient
    | _ => exact ⟨_, rfl⟩
  | enumeration e =>
    rw [readValue]
    split <;> exact ⟨_, rfl⟩
  | object name boxed => exact ⟨_, rfl⟩

theorem Datum.HasType.exists_readValue {type : ValueType} {d : Datum} (h : d.HasType type) :
    (∃ v, readValue type (valueReceived (writeValue type d)) = .ok v) ∧
      ∃ v, readValue type (textReceived (writeValue type d)) = .ok v := by
  cases hdemanded : type.demanded with
  | none =>
    exact ⟨exists_readValue_of_demanded hdemanded _, exists_readValue_of_demanded hdemanded _⟩
  | some t =>
    obtain ⟨rfl, hstrict⟩ := eq_scalar_of_demanded hdemanded
    cases d with
    | scalar s =>
      have hs : s.HasType t := h
      have hchars := hs.isValueChar hstrict
      have htext : s.write.toList.all isTextChar = true :=
        all_of_all (fun _ => isTextChar_of_isValueChar) hchars
      obtain ⟨v, hv⟩ := hs.exists_read hstrict
      have hread : readValue (.scalar t) s.write = .ok (.scalar v) := by
        rw [readValue, hv]
        rfl
      rw [writeValue, valueReceived_of_legal hchars, textReceived_of_legal htext]
      exact ⟨⟨_, hread⟩, _, hread⟩
    | _ => cases h

/-! ## Passes that do not fail -/

theorem exists_readAttributes {slots : List Slot} : ∀ {as : List Attribute} (fields : List Datum),
    (∀ a ∈ as, ∀ s ∈ slots, ∀ type, attributeType? a.name s = some type →
      ∃ v, readValue type a.value = .ok v) →
      ∃ fields', readAttributes slots fields as = .ok fields'
  | [], fields, _ => ⟨fields, by rw [readAttributes]⟩
  | a :: as, fields, h => by
    have hrest := fun b hb => h b (List.mem_cons_of_mem _ hb)
    rw [readAttributes]
    cases hfind : findSlot (attributeType? a.name) slots with
    | none => exact exists_readAttributes fields hrest
    | some found =>
      obtain ⟨i, s, type⟩ := found
      obtain ⟨hslot, hs⟩ := findSlot_eq_some hfind
      obtain ⟨v, hv⟩ := h a List.mem_cons_self s (List.mem_of_getElem? hslot) type hs
      simp only [hv]
      exact exists_readAttributes (putField i s v fields) hrest

theorem exists_readText {slots : List Slot} (fields : List Datum) {text : String}
    (h : ∀ s ∈ slots, ∀ type, textType? s = some type → ∃ v, readValue type text = .ok v) :
    ∃ fields', readText slots fields text = .ok fields' := by
  rw [readText_eq]
  cases hfind : findSlot textType? slots with
  | none => exact ⟨fields, rfl⟩
  | some found =>
    obtain ⟨i, s, type⟩ := found
    obtain ⟨hslot, hs⟩ := findSlot_eq_some hfind
    obtain ⟨v, hv⟩ := h s (List.mem_of_getElem? hslot) type hs
    simp only [hv]
    exact ⟨_, rfl⟩

section
variable {cs : Classes}

def Reads (cs : Classes) (type : ValueType) (n : Node) : Prop := ∃ v, readChild cs type n = .ok v

theorem exists_readChildren {slots : List Slot} : ∀ {ns : List Node} (fields : List Datum),
    (∀ n ∈ ns, n.isElement = true → ∀ s ∈ slots, ∀ type alternative,
      childType? n.name s = some (type, alternative) → Reads cs type n) →
      ∃ fields', readChildren cs slots fields ns = .ok fields'
  | [], fields, _ => ⟨fields, by rw [readChildren]⟩
  | n :: ns, fields, h => by
    have hrest := fun m hm => h m (List.mem_cons_of_mem _ hm)
    by_cases hn : n.isElement = true
    · cases hfind : findSlot (childType? n.name) slots with
      | none =>
        rw [readChildren, if_pos hn, hfind]
        exact exists_readChildren fields hrest
      | some found =>
        obtain ⟨i, s, type, alternative⟩ := found
        obtain ⟨hslot, hs⟩ := findSlot_eq_some hfind
        obtain ⟨v, hv⟩ :=
          h n List.mem_cons_self hn s (List.mem_of_getElem? hslot) type alternative hs
        rw [readChildren_element hn hfind hv]
        exact exists_readChildren _ hrest
    · rw [readChildren_skip (by simpa using hn)]
      exact exists_readChildren fields hrest

theorem Reads.alike {a b : ValueType} {n : Node} (hab : a.Alike b) (h : Reads cs a n) :
    Reads cs b n := by
  obtain ⟨hclass, hdemanded⟩ := hab
  cases hb : b.demanded with
  | some t =>
    rw [hb] at hdemanded
    rw [(eq_scalar_of_demanded hb).1, ← (eq_scalar_of_demanded hdemanded).1]
    exact h
  | none =>
    cases b with
    | object name boxed =>
      cases a with
      | object name' boxed' =>
        cases hclass
        exact h
      | _ => cases hclass
    | _ => exact exists_readValue_of_demanded hb _

/-! ## Written objects -/

/-- The child elements that go to a place: their tags, and their types. -/
def childrenIn : Place → List (String × ValueType)
  | .child tag type => [(tag, type)]
  | .choice _ _ alternatives => alternatives.map fun a => (a.tag, a.type)
  | _ => []

theorem childrenIn_place (s : Slot) : childrenIn s.place = s.children := by
  unfold Slot.children childrenIn
  cases s.place <;> rfl

/-- Whether the element has the tag that a child in the place is written with, and
    is read as one, from every tree that it is received as. -/
def Accepted (cs : Classes) (p : Place) (x : Content) : Prop :=
  ∃ y ∈ childrenIn p, ∀ n, x.received.Shows n → n.name = writtenTag cs y ∧ Reads cs y.2 n

theorem childType?_mem {tag : String} {s : Slot} {type : ValueType} {alternative : Option String}
    (h : childType? tag s = some (type, alternative)) : (tag, type) ∈ s.children := by
  unfold childType? at h
  unfold Slot.children
  cases hp : s.place with
  | child tag' type' =>
    rw [hp] at h
    by_cases htag : tag' = tag
    · simp only [htag, if_true] at h
      cases h
      simp [htag]
    · simp [htag] at h
  | choice union group alternatives =>
    rw [hp] at h
    obtain ⟨a, ha, heq⟩ := Option.map_eq_some_iff.1 h
    cases heq
    have htag : a.tag = tag := by simpa using List.find?_some ha
    exact List.mem_map.2 ⟨a, List.mem_of_find?_eq_some ha, by rw [htag]⟩
  | attr _ _ => simp [hp] at h
  | text _ => simp [hp] at h

theorem writtenTag_literal {tag : String} {type : ValueType} (h : type.isLiteral = true) :
    writtenTag cs (tag, type) = tag := by
  cases type with
  | object => cases h
  | _ => rfl

theorem accepted_literal {tag : String} {type : ValueType} {d : Datum} (h : d.HasType type) :
    Accepted cs (.child tag type) (.element tag [] (textContents (writeValue type d))) := by
  refine ⟨(tag, type), List.mem_singleton.2 rfl, fun n hn => ?_⟩
  cases n with
  | element head children =>
    obtain ⟨hname, -, hchildren⟩ := hn
    rw [textContents_received] at hchildren
    refine ⟨hname.trans (writtenTag_literal h.isLiteral).symm, ?_⟩
    rw [Reads, readChild_literal h.isLiteral, textContent_eq, joinTexts_textContents hchildren]
    exact h.exists_readValue.2
  | text _ => exact hn.elim
  | comment _ => exact hn.elim
  | instruction => exact hn.elim

theorem eq_of_attributeTag {ss : List Slot} (h : (ss.flatMap (·.attributeTags)).Nodup) {s t : Slot}
    (hs : s ∈ ss) (ht : t ∈ ss) {tag : String} (hstag : tag ∈ s.attributeTags)
    (httag : tag ∈ t.attributeTags) : s = t := by
  by_contra hne
  have hsymm : Std.Symm (Function.onFun List.Disjoint fun s : Slot => s.attributeTags) :=
    ⟨fun _ _ hst _ ha hb => hst hb ha⟩
  have hdisjoint : List.Disjoint s.attributeTags t.attributeTags :=
    (List.nodup_flatMap.1 h).2.forall hs ht hne
  exact hdisjoint hstag httag

section
variable {c : Binding.Class} {fields : List Datum} (hfit : FitsFields cs TypedIn c.slots fields)

include hfit

theorem attributes_accepted (hc : c.Shaped) {as : List Attribute}
    (has : as.map (fun a => (a.name, a.value)) =
      (attributesOf c.slots fields).map fun a => (a.1, valueReceived a.2)) :
    ∀ a ∈ as, ∀ s ∈ c.slots, ∀ type, attributeType? a.name s = some type →
      ∃ v, readValue type a.value = .ok v := by
  obtain ⟨fat, fe, rfl, hfat, -⟩ := hfit.append_left
  obtain ⟨fa, ft, rfl, hfa, hft⟩ := hfat.append_left
  rw [attributesOf_object hc hfa hft] at has
  intro a ha s hs type htype
  have hmem : (a.name, a.value) ∈ as.map fun a => (a.name, a.value) := List.mem_map_of_mem ha
  rw [has] at hmem
  obtain ⟨b, hb, heq⟩ := List.mem_map.1 hmem
  obtain ⟨hname, hvalue⟩ := Prod.mk.inj heq
  obtain ⟨t, ht, type', d, hplace, hliteral, htyped⟩ := mem_attributesOf hc.attributes hfa b hb
  have hstag : a.name ∈ s.attributeTags := by
    by_contra hnone
    rw [attributeType?_none hnone] at htype
    cases htype
  have hs' : s ∈ c.attributes := by
    simp only [Class.slots, List.mem_append] at hs
    rcases hs with (hs | hs) | hs
    · exact hs
    · rw [attributeTags_of_isText (hc.text s hs)] at hstag
      cases hstag
    · rw [attributeTags_of_isElement (hc.elements s hs)] at hstag
      cases hstag
  obtain rfl : s = t := eq_of_attributeTag hc.attributeTags hs' ht hstag
    (by simp [Slot.attributeTags, hplace, hname])
  obtain rfl : type' = type := by simpa [attributeType?, hplace, hname] using htype
  rw [← hvalue, hliteral]
  rw [hplace] at htyped
  exact (htyped.hasType rfl).exists_readValue.1

theorem text_accepted (hc : c.Shaped) {ns : List Node}
    (hns : ShowsAll (receivedAll (fieldsContent cs c.slots fields)) ns) :
    ∀ s ∈ c.slots, ∀ type, textType? s = some type →
      ∃ v, readValue type (joinTexts "" ns) = .ok v := by
  obtain ⟨fat, fe, rfl, hfat, -⟩ := hfit.append_left
  obtain ⟨fa, ft, rfl, hfa, hft⟩ := hfat.append_left
  rw [fieldsContent_object hc hfa hft, receivedAll_append] at hns
  obtain ⟨nt, ne, rfl, hnt, hne⟩ := hns.append_left
  have helements : ∀ x ∈ receivedAll (fieldsContent cs c.elements fe), x.isElement = true := by
    rw [receivedAll_eq_map]
    intro x hx
    obtain ⟨y, hy, rfl⟩ := List.mem_map.1 hx
    rw [Content.isElement_received]
    exact fieldsContent_elements hc.elements y hy
  rw [joinTexts_append, joinTexts_elements helements hne]
  intro s hs type htype
  have hs' : s ∈ c.text.toList := by
    simp only [Class.slots, List.mem_append] at hs
    rcases hs with (hs | hs) | hs
    · obtain ⟨_, _, hp, -⟩ := isAttribute_place (hc.attributes s hs)
      simp [textType?, hp] at htype
    · exact hs
    · rcases isElement_place (hc.elements s hs) with ⟨_, _, hp⟩ | ⟨_, _, _, hp, -⟩ <;>
        simp [textType?, hp] at htype
  obtain ⟨type', hplace, hl, hone⟩ := isText_place (hc.text s hs')
  obtain rfl : type' = type := by simpa [textType?, hplace] using htype
  rw [Option.mem_toList.1 hs', Option.toList_some] at hft hnt
  obtain _ | ⟨d, ds⟩ := ft
  · cases hft
  have hd := hft.1
  rw [hone, hplace] at hd
  obtain ⟨htyped, hcontent⟩ := hd.literal rfl hl
  obtain rfl : ds = [] := by simpa [FitsFields] using hft.2.length_eq.symm
  have hw : joinTexts "" nt = textReceived (writeValue type' d) := by
    refine joinTexts_textContents ?_
    rw [← textContents_received]
    simpa [fieldsContent, hplace, hone, hcontent, plainContent] using hnt
  rw [hw]
  exact (htyped.hasType rfl).exists_readValue.2

/-- **A written object is accepted**, if the child elements in it are. -/
theorem exists_readObject (hc : c.Unmixed cs) {name : String} (hget : cs.get? name = some c)
    (hchildren : ∀ x ∈ fieldsContent cs c.slots fields,
      ∃ s ∈ c.slots, x.isElement = true → Accepted cs s.place x) {n : Node}
    (hn : (Content.element c.tag (attributesOf c.slots fields)
      (fieldsContent cs c.slots fields)).received.Shows n) :
    n.name = c.tag ∧ ∃ v, readObject cs name n = .ok v := by
  cases n with
  | element head children =>
    obtain ⟨htag, hattributes, hcontent⟩ := hn
    refine ⟨htag, ?_⟩
    have hexpect : expectElement (.element head children) c.tag = .ok () := by
      simp [expectElement, Node.isElement, Node.name, htag]
    obtain ⟨fields₁, h₁⟩ := exists_readAttributes
      (c.slots.map (initialField (initialObject cs [name])))
      (attributes_accepted hfit hc.toShaped hattributes)
    obtain ⟨fields₂, h₂⟩ := exists_readText fields₁ (text_accepted hfit hc.toShaped hcontent)
    have hmem : ∀ {s : Slot} {x : String × ValueType}, s ∈ c.slots → x ∈ s.children →
        s ∈ c.elements := by
      intro s x hs hx
      simp only [Class.slots, List.mem_append] at hs
      rcases hs with (hs | hs) | hs
      · rw [children_of_isAttribute (hc.attributes s hs)] at hx
        cases hx
      · rw [children_of_isText (hc.text s hs)] at hx
        cases hx
      · exact hs
    have haccepted : ∀ m ∈ children, m.isElement = true → ∀ s ∈ c.slots, ∀ type alternative,
        childType? m.name s = some (type, alternative) → Reads cs type m := by
      intro m hm helement s hs type alternative htype
      obtain ⟨y, hy, hshows⟩ := hcontent.exists_shows m hm
      rw [receivedAll_eq_map] at hy
      obtain ⟨x, hx, rfl⟩ := List.mem_map.1 hy
      have hxe : x.isElement = true := by
        rw [← x.isElement_received, ← hshows.isElement, helement]
      obtain ⟨t, ht, haccepted⟩ := hchildren x hx
      obtain ⟨y, hy, haccepts⟩ := haccepted hxe
      obtain ⟨hname, hreads⟩ := haccepts m hshows
      rw [childrenIn_place] at hy
      have hchild := childType?_mem htype
      exact hreads.alike (hc.alike t (hmem ht hy) s (hmem hs hchild) y hy _ hchild hname.symm)
    obtain ⟨fields₃, h₃⟩ := exists_readChildren fields₂ haccepted
    refine ⟨.object name fields₃, ?_⟩
    rw [readObject]
    simp only [hget, hexpect, textContent_eq, h₁, h₂, h₃, bind, Except.bind]
  | text _ => exact hn.elim
  | comment _ => exact hn.elim
  | instruction => exact hn.elim

end

/-! ## Written values -/

theorem plainContent_accepted {p : Place} {d : Datum} (h : TypedIn p d) :
    ∀ x ∈ plainContent p d, x.isElement = true → Accepted cs p x := by
  intro x hx helement
  cases p with
  | child tag type =>
    rw [List.mem_singleton.1 hx]
    exact accepted_literal (h.hasType rfl)
  | text type =>
    rw [textContents_isElement _ x hx] at helement
    cases helement
  | attr tag type => cases hx
  | choice union group alternatives => cases hx

theorem pervades_accepted (hcs : ∀ c ∈ cs, c.Unmixed cs) :
    Pervades cs TypedIn (fun _ => True) fun p x => x.isElement = true → Accepted cs p x where
  slots _ _ _ _ := trivial
  plain _ h := plainContent_accepted h
  alternative ha _ := by
    obtain ⟨union, group, alternatives, a, rfl, hfind, rfl⟩ := alternativePlace?_eq ha
    refine ⟨trivial, fun x hx helement => ?_⟩
    obtain ⟨y, hy, haccepts⟩ := hx helement
    -- the child of the alternative is one of the union
    cases List.mem_singleton.1 hy
    exact ⟨_, List.mem_map.2 ⟨a, List.mem_of_find?_eq_some hfind, rfl⟩, haccepts⟩
  object {tag name boxed c _} hget hfit hfields _ := by
    have hc := hcs c (Classes.mem_of_get? hget).1
    refine ⟨(tag, .object name boxed), List.mem_singleton.2 rfl, fun n hn => ?_⟩
    obtain ⟨htag, hread⟩ := exists_readObject hfit hc hget hfields hn
    have hwritten : writtenTag cs (tag, .object name boxed) = c.tag := by
      simp [writtenTag, ValueType.class?, hget]
    exact ⟨htag.trans hwritten.symm, hread⟩

/-- **The elements that are written for fields are accepted**, each in the place
    of a slot. -/
theorem FitsFields.accepted (hcs : ∀ c ∈ cs, c.Unmixed cs) {ss : List Slot} {ds : List Datum}
    (h : FitsFields cs TypedIn ss ds) : ∀ x ∈ fieldsContent cs ss ds,
      ∃ s ∈ ss, x.isElement = true → Accepted cs s.place x :=
  (pervades_accepted hcs).fields (fun _ _ => trivial) h

end

/-! ## Plans -/

/-- Whether the value is of the type of the literals in the place, and its
    literal is made of characters that may stand in a document. -/
def WritableIn (p : Place) (d : Datum) : Prop := TypedIn p d ∧ Legible isXmlChar isXmlChar p d

theorem parse_empty (cs : Classes) (name : String) : parse cs name "" = .error (.markup .noRoot) := by
  rw [parse, read_empty]
  rfl

theorem write_of_isHidden {cs : Classes} {v : Datum} (h : isHidden cs v = true) :
    write cs v = "" := by
  cases v with
  | object name fields =>
    cases hget : cs.get? name with
    | none => simp [isHidden, hget] at h
    | some c =>
      have hempty : (c.isListShaped && fields.all isEmptyList) = true := by
        simpa [isHidden, hget] using h
      simp [write, contentOf, hget, elementOf, hempty, writtenAll]
  | _ => cases h

/-- **What is written for a value is accepted, unless nothing is written.**  Let
    the names of a document be ones that stand for themselves in markup, let the
    attributes of an element have different names, and let tags tell the kinds of
    children.  Then the text of a value of a class of the plan, with any strings
    that may stand in a document, is a document whose root has the tag of the
    class, and a value of the class is read from it.  Only for a value that is
    hidden, since its class is list-shaped and its lists are empty, the text is
    empty, and reading finds no root. -/
theorem plan_written_accepted {site : Site} (hkeyed : site.document.Keyed)
    (hnames : site.document.LocalNames) (hapart : site.document.AttributesApart)
    (hkinds : site.document.KindsByTag) {classes : List Binding.Class}
    (hplan : (plan site).1 = .ok classes) {c : Binding.Class} (hc : c ∈ classes) {v : Datum}
    (hv : v.IsOf classes WritableIn c) :
    (isHidden classes v = false → ∃ root value,
      Markup.read false (write classes v) = .ok root ∧ root.isElement = true ∧
        root.name = c.tag ∧ parse classes c.name (write classes v) = .ok value) ∧
    (isHidden classes v = true → write classes v = "" ∧
      parse classes c.name (write classes v) = .error (.markup .noRoot)) := by
  obtain ⟨fields, rfl, hfit⟩ := hv
  have htyped : FitsFields classes TypedIn c.slots fields :=
    hfit.mono (fun _ _ _ _ _ _ _ h => h.1) (fun _ _ _ _ _ h => h.1)
  have hlegible : FitsFields classes (Legible isXmlChar isXmlChar) c.slots fields :=
    hfit.mono (fun _ _ _ _ _ _ _ h => h.2) (fun _ _ _ _ _ h => h.2)
  have hunmixed := plan_unmixed hkeyed hplan hapart hkinds
  have hspell := plan_spellable hkeyed hplan hnames
  have hget := plan_found hkeyed hplan hc
  constructor
  · intro hshown
    have hwritten : write classes (.object c.name fields) = (Content.element c.tag
        (attributesOf c.slots fields) (fieldsContent classes c.slots fields)).written := by
      have hfull : (c.isListShaped && fields.all isEmptyList) = false := by
        simpa [isHidden, hget] using hshown
      simp [write, contentOf, hget, elementOf, hfull, writtenAll]
    obtain ⟨htag, hslots⟩ := hspell c hc
    have hreadable := element_spelled (hunmixed c hc).toShaped htag hslots hlegible
      (hlegible.spelled (fun k hk => (hunmixed k hk).toShaped) hspell hslots)
    obtain ⟨root, hroot, hmarkup⟩ := read_received false hreadable rfl
    obtain ⟨hname, value, hvalue⟩ := exists_readObject htyped (hunmixed c hc) hget
      (htyped.accepted hunmixed) hroot
    refine ⟨root, value, by rw [hwritten, hmarkup], hroot.isElement, hname, ?_⟩
    simp only [parse, hwritten, hmarkup, Except.mapError, bind, Except.bind, hvalue]
  · intro hhidden
    rw [write_of_isHidden hhidden]
    exact ⟨rfl, parse_empty classes c.name⟩

def receiptDocument : Document :=
  let many : Schema.Occurs := { min := 0, max := .unbounded }
  { roots := ["receipt"]
    elements := ⟨[
      ("receipt", {
        identifier := "receipt", name := "receipt"
        elementRelations := [{ target := "item" }, { target := "item#2", occurs := many },
          { target := "lines" }]
        attributeRelations := [{ target := "receipt@total" }] }),
      ("item", { identifier := "item", name := "item", text := true }),
      ("item#2", {
        identifier := "item#2", name := "item", text := true, dataType := some .token }),
      ("lines", {
        identifier := "lines", name := "lines"
        elementRelations := [{ target := "line", occurs := many }] }),
      ("line", { identifier := "line", name := "line", text := true, dataType := some .int })]⟩
    attributes := ⟨[("receipt@total", {
      identifier := "receipt@total", name := "total", dataType := some .decimal })]⟩ }

def receiptClass : Binding.Class :=
  { name := "Receipt", element := "receipt", tag := "receipt", root := true
    attributes := [⟨"total", "total", .one, .attr "total" (.scalar .decimal)⟩]
    elements := [
      ⟨"item", "item", .one, .child "item" (.scalar .string)⟩,
      ⟨"item_list", "item", .list, .child "item" (.scalar .token)⟩,
      ⟨"lines", "lines", .one, .child "lines" (.object "Lines" false)⟩] }

def receiptClasses : List Binding.Class := [
  { name := "Lines", element := "lines", tag := "lines"
    elements := [⟨"line_list", "line", .list, .child "line" (.scalar .int)⟩] },
  receiptClass]

/-- A receipt over minus one half, whose items do not come back as they were:
    the second one goes to the slot of the first. -/
def receipt : Datum :=
  .object "Receipt" [
    .scalar (.decimal (.finite true 4503599627370496 (-53))),
    .scalar (.text "A\r\n<B>"),
    .list [.scalar (.text " C ")],
    .object "Lines" [.list [.scalar (.integer 7)]]]

theorem receipt_accepted :
    receiptDocument.Keyed ∧ receiptDocument.LocalNames ∧ receiptDocument.AttributesApart ∧
      receiptDocument.KindsByTag ∧
      (plan { document := receiptDocument }).1 = .ok receiptClasses ∧
      receipt.IsOf receiptClasses WritableIn receiptClass ∧
      isHidden receiptClasses receipt = false ∧
      ∃ root value, Markup.read false (write receiptClasses receipt) = .ok root ∧
        root.isElement = true ∧ root.name = "receipt" ∧
        parse receiptClasses "Receipt" (write receiptClasses receipt) = .ok value := by
  have hkeyed : receiptDocument.Keyed := Document.keyed_of_entries (by decide)
  have hnames : receiptDocument.LocalNames := Document.localNames_of_entries (by decide) (by decide)
  have hapart : receiptDocument.AttributesApart := Document.attributesApart_of_entries (by decide)
  have hkinds : receiptDocument.KindsByTag := Document.kindsByTag_of_entries (by decide)
  have hplan : (plan { document := receiptDocument }).1 = .ok receiptClasses := by decide +kernel
  have hshown : isHidden receiptClasses receipt = false := by decide
  have hvalue : receipt.IsOf receiptClasses WritableIn receiptClass := by
    have htotal : Legible isXmlChar isXmlChar (.attr "total" (.scalar .decimal))
        (.scalar (.decimal (.finite true 4503599627370496 (-53)))) := by
      unfold Legible
      decide +kernel
    refine ⟨_, rfl, ⟨⟨_, rfl, trivial⟩, htotal⟩, ⟨⟨_, rfl, trivial⟩, ?_⟩,
      ⟨⟨⟨_, rfl, trivial⟩, ?_⟩, trivial⟩, ⟨⟨_, _, rfl⟩, ⟨⟨⟨_, rfl, rfl⟩, ?_⟩, trivial⟩, trivial⟩,
      trivial⟩ <;> unfold Legible <;> decide
  exact ⟨hkeyed, hnames, hapart, hkinds, hplan, hvalue, hshown,
    (plan_written_accepted hkeyed hnames hapart hkinds hplan (by decide) hvalue).1 hshown⟩

def tracksDocument : Document :=
  { roots := ["tracks"]
    elements := ⟨[
      ("tracks", {
        identifier := "tracks", name := "tracks"
        elementRelations := [
          { target := "track", occurs := { min := 0, max := .unbounded } }] }),
      ("track", { identifier := "track", name := "track", text := true })]⟩ }

def tracksClass : Binding.Class :=
  { name := "Tracks", element := "tracks", tag := "tracks", root := true
    elements := [⟨"track_list", "track", .list, .child "track" (.scalar .string)⟩] }

theorem empty_tracks_refused :
    tracksDocument.Keyed ∧ tracksDocument.LocalNames ∧ tracksDocument.AttributesApart ∧
      tracksDocument.KindsByTag ∧
      (plan { document := tracksDocument }).1 = .ok [tracksClass] ∧ tracksClass.root = true ∧
      (Datum.object "Tracks" [.list []]).IsOf [tracksClass] WritableIn tracksClass ∧
      write [tracksClass] (.object "Tracks" [.list []]) = "" ∧
      parse [tracksClass] "Tracks" (write [tracksClass] (.object "Tracks" [.list []])) =
        .error (.markup .noRoot) := by
  have hwrite : write [tracksClass] (.object "Tracks" [.list []]) = "" :=
    write_of_isHidden (by decide)
  refine ⟨Document.keyed_of_entries (by decide),
    Document.localNames_of_entries (by decide) (by decide),
    Document.attributesApart_of_entries (by decide), Document.kindsByTag_of_entries (by decide),
    by decide +kernel, rfl, ⟨_, rfl, trivial, trivial⟩, hwrite, ?_⟩
  rw [hwrite]
  exact parse_empty _ _

def rowDocument : Document :=
  { roots := ["row"]
    elements := ⟨[
      ("row", {
        identifier := "row", name := "row"
        elementRelations := [{ target := "cell" }, { target := "cell#2" }] }),
      ("cell", { identifier := "cell", name := "cell", text := true, dataType := some .int }),
      ("cell#2", {
        identifier := "cell#2", name := "cell"
        attributeRelations := [{ target := "cell#2@unit" }] })]⟩
    attributes := ⟨[("cell#2@unit", { identifier := "cell#2@unit", name := "unit" })]⟩ }

def row : Datum :=
  .object "Row" [.scalar (.integer 1), .object "Cell" [.scalar (.text "m")]]

-- A cell with a unit is taken for a number, for which it has no digits.
example :
    (plan { document := rowDocument }).1.toOption.map (fun classes =>
      (write classes row, (parse classes "Row" (write classes row)).toOption.isSome)) =
    some ("<row><cell>1</cell><cell unit=\"m\"></cell></row>", false) := by decide +kernel

end Bindery.Instance
