/-
  The type names of a file.

  Classes, enumerations and unions share one scope.  The names of classes are
  reserved before the first is made, except for roots that are text-only; those
  of enumerations and unions are taken as they come up, and given back when
  their class is replaced.

  * `Distinct`: what holds while classes are made: the names of the classes
    that are made, and those held by the classes being made, are all different
    and taken;
  * `generate_typeNames_nodup`: the type names of a generated file are pairwise
    different, if no text-only root has a class name that begins with another,
    and, where a class replaces another of its name, no element leads to a
    different one of its class name;
  * `shelf_typeNames_repeated`: without either condition they are not.
-/
import Mathlib.Data.List.Perm.Basic
import Mathlib.Logic.Relation
import Bindery.Proofs.Binding.Making
import Bindery.Proofs.Code.Unique

namespace Bindery

namespace Schema

open Code (className)

/-- Whether the name is that of a class to come: the class of an element that
    is not text-only, or of a root. -/
def Document.ClassName (d : Document) (name : String) : Prop :=
  ∃ id e, d.elements.get? id = some e ∧ (e.isTextOnly = false ∨ id ∈ d.roots) ∧
    className e.name = name

/-- Whether the class name of a text-only root begins with no other class
    name. -/
def Document.TextRootsApart (d : Document) : Prop :=
  ∀ root ∈ d.roots, ∀ e, d.elements.get? root = some e → e.isTextOnly = true →
    ∀ name, d.ClassName name → name.toList <+: (className e.name).toList →
      name = className e.name

/-- Whether the element `a` has a relation to `b`, which is not text-only. -/
def Document.Leads (d : Document) (a b : String) : Prop :=
  ∃ e r target, d.elements.get? a = some e ∧ r ∈ e.elementRelations ∧ r.target = b ∧
    d.elements.get? b = some target ∧ target.isTextOnly = false

/-- Whether no element leads, step by step, to a different one of its class
    name. -/
def Document.NamesakesApart (d : Document) : Prop :=
  ∀ a b ea eb, Relation.TransGen d.Leads a b → d.elements.get? a = some ea →
    d.elements.get? b = some eb → className ea.name = className eb.name → a = b

theorem Document.Trail.leads {d : Document} {starts : List String} {id a : String}
    {path : List String} (h : d.Trail starts (id :: path)) (ha : a ∈ path) :
    Relation.TransGen d.Leads a id := by
  generalize hl : id :: path = l at h
  induction h generalizing id path with
  | root =>
    cases hl
    cases ha
  | @child own rest e target r _ he hr ht htext ih =>
    cases hl
    have hstep : d.Leads own r.target := ⟨e, r, target, he, hr, rfl, ht, htext⟩
    rcases List.mem_cons.1 ha with rfl | ha
    · exact .single hstep
    · exact (ih ha rfl).tail hstep

theorem Document.Trail.className {d : Document} {id : String} {path : List String} {e : Element}
    (h : d.Trail d.roots (id :: path)) (he : d.elements.get? id = some e) :
    d.ClassName (Code.className e.name) := by
  cases h with
  | root hroot => exact ⟨id, e, he, .inr hroot, rfl⟩
  | child _ _ _ ht htext =>
    rw [he] at ht
    cases ht
    exact ⟨_, e, he, .inl htext, rfl⟩

end Schema

namespace Code

/-- The type names of a class: its own, and those of its enumerations and
    unions. -/
def Class.typeNames (c : Class) : List String :=
  c.name :: (c.enums.map (·.name) ++ c.unions.map (·.name))

def File.typeNames (f : File) : List String := f.classes.flatMap (·.typeNames)

end Code

namespace Binding

open Schema
open Code (className unique)

/-! ## The names that go with a class -/

def Holding.typeName? : Holding → Option String
  | .typeName name => some name
  | .object _ _ _ => none

def heldNames (held : List Holding) : List String := held.filterMap (·.typeName?)

theorem heldNames_append (held held' : List Holding) :
    heldNames (held ++ held') = heldNames held ++ heldNames held' :=
  List.filterMap_append

theorem heldNames_object (held : List Holding) (id name : String) (direct : Bool) :
    heldNames (held ++ [.object id name direct]) = heldNames held := by
  simp [heldNames, Holding.typeName?]

theorem heldNames_typeName (held : List Holding) (name : String) :
    heldNames (held ++ [.typeName name]) = heldNames held ++ [name] := by
  simp [heldNames, Holding.typeName?]

def enumerationNames (slots : List Slot) : List String :=
  (slots.flatMap (·.place.enumerations)).map (·.name)

def Slot.union? (s : Slot) : Option String :=
  match s.place with
  | .choice union _ _ => some union
  | _ => none

section
variable {d : Document} {path : List String} {all rs : List Relation}
  {groups taken taken' : List String} {slots : List Slot} {s : Slot} {hs : List Holding}

theorem ScalarTyped.heldNames_eq {label : String} {dataType : Option DataType}
    {facet : Option Facet} {type : ValueType} (h : ScalarTyped label dataType facet type hs) :
    heldNames hs = type.enumeration?.toList.map (·.name) := by
  cases h <;> rfl

theorem Typed.heldNames_eq {label : String} {boxable : Bool} {target : Element} {type : ValueType}
    (h : Typed path label boxable target type hs) :
    heldNames hs = type.enumeration?.toList.map (·.name) := by
  cases h with
  | text _ hscalar => exact hscalar.heldNames_eq
  | object => rfl

theorem enumerationNames_single {type : ValueType} (hplace : s.place.types = [type]) :
    enumerationNames [s] = type.enumeration?.toList.map (·.name) := by
  rw [enumerationNames, List.flatMap_singleton, Place.enumerations, hplace]
  cases type <;> rfl

theorem enumerationNames_cons (s : Slot) (slots : List Slot) :
    enumerationNames (s :: slots) = enumerationNames [s] ++ enumerationNames slots := by
  simp [enumerationNames]

theorem AlternativesFor.heldNames_eq {made as : List Alternative}
    (h : AlternativesFor d path made rs as hs) :
    (as.filterMap (·.type.enumeration?)).map (·.name) =
      (made.filterMap (·.type.enumeration?)).map (·.name) ++ heldNames hs := by
  induction h with
  | nil => simp [heldNames]
  | dangling _ _ ih => exact ih
  | @cons made _ _ _ target type _ _ _ htyped _ ih =>
    rw [ih, heldNames_append, htyped.heldNames_eq, List.filterMap_append, List.map_append,
      List.append_assoc]
    cases type <;> rfl

theorem ChoiceSlotFor.heldNames_eq {group : String}
    (h : ChoiceSlotFor d path taken all group s hs) :
    ∃ union, s.union? = some union ∧ heldNames hs = union :: enumerationNames [s] := by
  obtain ⟨union, as, hs', hplace, rfl, has⟩ := h.place
  refine ⟨union, by rw [Slot.union?, hplace], ?_⟩
  have hnames := has.heldNames_eq
  rw [List.filterMap_nil, List.map_nil, List.nil_append] at hnames
  have htypes : s.place.enumerations = as.filterMap (·.type.enumeration?) := by
    rw [Place.enumerations, hplace, Place.types, List.filterMap_map]
    rfl
  rw [enumerationNames, List.flatMap_singleton, htypes, hnames]
  rfl

/-- The slots for child elements hold the names of their enumerations and
    unions. -/
theorem ElementSlotsFor.heldNames_perm
    (h : ElementSlotsFor d path all groups taken rs slots taken' hs) :
    (heldNames hs).Perm (enumerationNames slots ++ slots.filterMap (·.union?)) := by
  induction h with
  | nil => exact .refl _
  | dangling _ _ _ ih => exact ih
  | seen _ _ _ ih => exact ih
  | barren _ _ _ _ ih => exact ih
  | @child _ _ _ _ _ _ s slots hs hs' _ _ hslot _ ih =>
    obtain ⟨type, hplace, htyped⟩ := hslot.place
    have hunion : s.union? = none := by rw [Slot.union?, hplace]
    have hnames : enumerationNames [s] = heldNames hs :=
      (enumerationNames_single (by rw [hplace]; rfl)).trans htyped.heldNames_eq.symm
    rw [heldNames_append, enumerationNames_cons, hnames, List.filterMap_cons_none hunion,
      List.append_assoc]
    exact ih.append_left _
  | @choice _ _ _ _ _ _ s slots hs hs' _ _ hslot _ ih =>
    obtain ⟨union, hunion, hnames⟩ := hslot.heldNames_eq
    rw [heldNames_append, hnames, enumerationNames_cons s slots, List.filterMap_cons_some hunion,
      List.cons_append]
    refine ((ih.append_left (enumerationNames [s])).cons union).trans ?_
    rw [← List.append_assoc]
    exact List.perm_middle.symm

theorem AttributeSlotsFor.heldNames_eq {rs : List Relation}
    (h : AttributeSlotsFor d taken rs slots taken' hs) : heldNames hs = enumerationNames slots := by
  induction h with
  | nil => rfl
  | dangling _ _ ih => exact ih
  | cons _ hslot _ ih =>
    obtain ⟨type, hplace, htyped⟩ := hslot.place
    rw [heldNames_append, ih, enumerationNames_cons,
      enumerationNames_single (by rw [hplace]; rfl), htyped.heldNames_eq]

theorem TextSlotFor.heldNames_eq {e : Element} {text : Option Slot} (h : TextSlotFor taken e text hs) :
    heldNames hs = enumerationNames text.toList := by
  cases h with
  | none => rfl
  | some _ _ htyped => exact htyped.heldNames_eq.trans (enumerationNames_single rfl).symm

end

theorem unions_names (c : Class) : c.unions.map (·.1) = c.elements.filterMap (·.union?) := by
  rw [Class.unions, List.map_filterMap]
  refine List.filterMap_congr fun s _ => ?_
  rw [Slot.union?]
  cases s.place <;> rfl

theorem ClassFor.heldNames_perm {site : Site} {path : List String} {e : Element} {c : Class}
    {hs : List Holding} (h : ClassFor site path e c hs) : (heldNames hs).Perm c.typeNames := by
  obtain ⟨taken, taken', hs₁, hs₂, hs₃, rfl, helements, hattributes, htext⟩ := h.slots
  have hnames : c.enumerations.map (·.name) = enumerationNames c.elements ++
      (enumerationNames c.attributes ++ enumerationNames c.text.toList) := by
    simp [Class.enumerations, enumerationNames]
  rw [heldNames_append, heldNames_append, hattributes.heldNames_eq, htext.heldNames_eq,
    Class.typeNames, unions_names, hnames, List.append_assoc, List.append_assoc]
  refine (helements.heldNames_perm.append_right _).trans ?_
  rw [List.append_assoc]
  exact List.perm_append_comm.append_left _

/-! ## Planning with distinct names -/

def busyNames (d : Document) (path : List String) : List String :=
  path.filterMap fun id => (d.elements.get? id).map (className ·.name)

theorem mem_busyNames_of_mem {d : Document} {path : List String} {name : String} (id : String)
    (h : name ∈ busyNames d path) : name ∈ busyNames d (id :: path) :=
  (List.sublist_cons_self id path).filterMap _ |>.subset h

theorem busyNames_cons {d : Document} {id : String} {e : Element} (path : List String)
    (he : d.elements.get? id = some e) :
    busyNames d (id :: path) = className e.name :: busyNames d path := by
  rw [busyNames, List.filterMap_cons, he]
  rfl

/-- What holds of the type names while classes are made for the elements of
    `path`, which hold `held`.  A class that is about to be replaced keeps no
    names. -/
structure Distinct (d : Document) (path : List String) (held : List Holding) (p : Planning) :
    Prop where
  reserved : ∀ {id e}, d.elements.get? id = some e → e.isTextOnly = false →
    className e.name ∈ p.typeNames
  heldNodup : (heldNames held).Nodup
  heldTaken : ∀ n ∈ heldNames held, n ∈ p.typeNames ∧ ¬ d.ClassName n
  classNodup : ∀ {name c}, p.classes.get? name = some c → name ∉ busyNames d path →
    c.typeNames.Nodup
  classTaken : ∀ {name c}, p.classes.get? name = some c → name ∉ busyNames d path →
    ∀ n ∈ c.typeNames, n ∈ p.typeNames ∧ ¬ d.ClassName n ∧ n ∉ heldNames held
  apart : ∀ {name name' c c'}, p.classes.get? name = some c → p.classes.get? name' = some c' →
    name ∉ busyNames d path → name' ∉ busyNames d path → name ≠ name' →
    ∀ n ∈ c.typeNames, n ∉ c'.typeNames
  named : ∀ entry ∈ p.classes.entries, d.ClassName entry.1 ∧ entry.2.name = entry.1
  keys : p.classes.keys.Nodup

section
variable {d : Document} {path : List String} {held : List Holding} {p : Planning}

theorem Distinct.of_heldNames (h : Distinct d path held p) {held' : List Holding}
    (heq : heldNames held' = heldNames held) : Distinct d path held' p where
  reserved := h.reserved
  heldNodup := heq ▸ h.heldNodup
  heldTaken := heq ▸ h.heldTaken
  classNodup := h.classNodup
  classTaken := heq ▸ h.classTaken
  apart := h.apart
  named := h.named
  keys := h.keys

theorem Distinct.not_className (h : Distinct d path held p) (hroots : d.TextRootsApart)
    {e : Element} {id affix : String} (he : d.elements.get? id = some e)
    (hcls : d.ClassName (className e.name)) (haffix : e.isTextOnly = false ∨ affix ≠ "") {n : Nat}
    (hfree : Code.numbered (className e.name ++ affix) n ∉ p.typeNames) :
    ¬ d.ClassName (Code.numbered (className e.name ++ affix) n) := by
  rintro ⟨id', e', he', hbecomes, hname⟩
  cases htext : e'.isTextOnly with
  | false =>
    rw [← hname] at hfree
    exact hfree (h.reserved he' htext)
  | true =>
    have hroot : id' ∈ d.roots := hbecomes.resolve_left (by simp [htext])
    have hlist : (className e'.name).toList =
        (className e.name).toList ++ (affix.toList ++ numberMark [] n) := by
      rw [hname, Code.toList_numbered, String.toList_append, List.append_assoc]
    have heq := hroots id' hroot e' he' htext _ hcls ⟨_, hlist.symm⟩
    -- nothing is added to the name of the class, which then is reserved
    have hnil : affix.toList ++ numberMark [] n = [] := by
      rw [← heq] at hlist
      simpa using hlist
    obtain ⟨haffix', -⟩ := List.append_eq_nil_iff.1 hnil
    rcases haffix with htext' | haffix
    · have hreserved := h.reserved he htext'
      rw [heq, hname] at hreserved
      exact hfree hreserved
    · exact haffix (String.toList_eq_nil_iff.1 haffix')

theorem Distinct.take (h : Distinct d path held p) {name : String} (hfree : name ∉ p.typeNames)
    (hname : ¬ d.ClassName name) :
    Distinct d path (held ++ [.typeName name]) { p with typeNames := name :: p.typeNames } := by
  constructor
  case reserved => exact fun he htext => List.mem_cons_of_mem _ (h.reserved he htext)
  case heldNodup =>
    rw [heldNames_typeName]
    refine List.nodup_append.2 ⟨h.heldNodup, List.nodup_singleton _, ?_⟩
    rintro n hn _ hm rfl
    exact hfree (List.mem_singleton.1 hm ▸ (h.heldTaken n hn).1)
  case heldTaken =>
    intro n hn
    rw [heldNames_typeName, List.mem_append, List.mem_singleton] at hn
    rcases hn with hn | rfl
    · exact ⟨List.mem_cons_of_mem _ (h.heldTaken n hn).1, (h.heldTaken n hn).2⟩
    · exact ⟨List.mem_cons_self, hname⟩
  case classNodup => exact h.classNodup
  case classTaken =>
    intro key c hc hbusy n hn
    obtain ⟨htaken, hclass, hheld⟩ := h.classTaken hc hbusy n hn
    refine ⟨List.mem_cons_of_mem _ htaken, hclass, ?_⟩
    rw [heldNames_typeName, List.mem_append, List.mem_singleton]
    rintro (hn | rfl)
    · exact hheld hn
    · exact hfree htaken
  case apart => exact h.apart
  case named => exact h.named
  case keys => exact h.keys

theorem Distinct.begin (h : Distinct d path held p) (id : String) (owners : Table String) :
    Distinct d (id :: path) held { p with owners := owners } := by
  have hbusy : ∀ {name}, name ∉ busyNames d (id :: path) → name ∉ busyNames d path :=
    fun hname hmem => hname (mem_busyNames_of_mem id hmem)
  constructor
  case reserved => exact h.reserved
  case heldNodup => exact h.heldNodup
  case heldTaken => exact h.heldTaken
  case classNodup => exact fun hc hn => h.classNodup hc (hbusy hn)
  case classTaken => exact fun hc hn => h.classTaken hc (hbusy hn)
  case apart => exact fun hc hc' hn hn' => h.apart hc hc' (hbusy hn) (hbusy hn')
  case named => exact h.named
  case keys => exact h.keys

/-- The names of the class that is replaced are given back before the new one
    is begun. -/
theorem Distinct.replace (h : Distinct d path held p) {id name : String} {e : Element} {c : Class}
    (he : d.elements.get? id = some e) (hname : className e.name = name)
    (hc : p.classes.get? name = some c) (hbusy : name ∉ busyNames d path) :
    Distinct d (id :: path) held
      { p with typeNames := p.typeNames.filter (· ∉ c.typeNames) } := by
  have hkept : ∀ {n}, n ∈ p.typeNames → n ∉ c.typeNames →
      n ∈ p.typeNames.filter (· ∉ c.typeNames) :=
    fun hn hnot => List.mem_filter.2 ⟨hn, by simpa using hnot⟩
  have hbegun := h.begin id p.owners
  have hold : ∀ {key}, key ∉ busyNames d (id :: path) → key ≠ name ∧ key ∉ busyNames d path := by
    intro key hkey
    rwa [busyNames_cons path he, hname, List.mem_cons, not_or] at hkey
  constructor
  case reserved =>
    intro id' e' he' htext
    refine hkept (h.reserved he' htext) fun hmem => ?_
    exact (h.classTaken hc hbusy _ hmem).2.1 ⟨id', e', he', .inl htext, rfl⟩
  case heldNodup => exact h.heldNodup
  case heldTaken =>
    intro n hn
    obtain ⟨htaken, hclass⟩ := h.heldTaken n hn
    exact ⟨hkept htaken fun hmem => (h.classTaken hc hbusy n hmem).2.2 hn, hclass⟩
  case classNodup => exact hbegun.classNodup
  case classTaken =>
    intro key c' hc' hkey n hn
    obtain ⟨hne, hkey'⟩ := hold hkey
    obtain ⟨htaken, hclass, hheld⟩ := h.classTaken hc' hkey' n hn
    exact ⟨hkept htaken (h.apart hc' hc hkey' hbusy hne n hn), hclass, hheld⟩
  case apart => exact hbegun.apart
  case named => exact h.named
  case keys => exact h.keys

theorem Distinct.enter {site : Site} {id name : String} {e : Element} {c : Class}
    {hs : List Holding} (h : Distinct site.document (id :: path) (held ++ hs) p)
    (he : site.document.elements.get? id = some e) (hname : className e.name = name)
    (hclass : site.document.ClassName name) (hc : ClassFor site (id :: path) e c hs) :
    Distinct site.document path held { p with classes := p.classes.insert name c } := by
  have hperm := hc.heldNames_perm
  have hheld := h.heldNodup
  rw [heldNames_append, List.nodup_append] at hheld
  have hmem : ∀ {n}, n ∈ c.typeNames → n ∈ heldNames (held ++ hs) := fun hn => by
    rw [heldNames_append]
    exact List.mem_append_right _ (hperm.mem_iff.2 hn)
  -- the other classes that are not being made
  have hother : ∀ {key c'}, (p.classes.insert name c).get? key = some c' → key ≠ name →
      key ∉ busyNames site.document path →
      p.classes.get? key = some c' ∧ key ∉ busyNames site.document (id :: path) := by
    intro key c' hget hne hbusy
    rw [Table.get?_insert_of_ne _ _ hne] at hget
    rw [busyNames_cons path he, hname, List.mem_cons, not_or]
    exact ⟨hget, hne, hbusy⟩
  have hself : ∀ {c'}, (p.classes.insert name c).get? name = some c' → c' = c := by
    intro c' hget
    rw [Table.get?_insert_self] at hget
    exact (Option.some.inj hget).symm
  constructor
  case reserved => exact h.reserved
  case heldNodup => exact hheld.1
  case heldTaken =>
    intro n hn
    refine h.heldTaken n ?_
    rw [heldNames_append]
    exact List.mem_append_left _ hn
  case classNodup =>
    intro key c' hget hbusy
    by_cases hkey : key = name
    · subst hkey
      rw [hself hget]
      exact hperm.nodup_iff.1 hheld.2.1
    · obtain ⟨hget', hbusy'⟩ := hother hget hkey hbusy
      exact h.classNodup hget' hbusy'
  case classTaken =>
    intro key c' hget hbusy n hn
    by_cases hkey : key = name
    · subst hkey
      rw [hself hget] at hn
      obtain ⟨htaken, hclass'⟩ := h.heldTaken n (hmem hn)
      exact ⟨htaken, hclass', fun hn' => hheld.2.2 n hn' n (hperm.mem_iff.2 hn) rfl⟩
    · obtain ⟨hget', hbusy'⟩ := hother hget hkey hbusy
      obtain ⟨htaken, hclass', hn'⟩ := h.classTaken hget' hbusy' n hn
      rw [heldNames_append, List.mem_append, not_or] at hn'
      exact ⟨htaken, hclass', hn'.1⟩
  case apart =>
    intro key key' c₁ c₂ hget hget' hbusy hbusy' hne n hn hn'
    by_cases hkey : key = name
    · subst hkey
      rw [hself hget] at hn
      obtain ⟨hget₂, hbusy₂⟩ := hother hget' (Ne.symm hne) hbusy'
      exact (h.classTaken hget₂ hbusy₂ n hn').2.2 (hmem hn)
    · obtain ⟨hget₁, hbusy₁⟩ := hother hget hkey hbusy
      by_cases hkey' : key' = name
      · subst hkey'
        rw [hself hget'] at hn'
        exact (h.classTaken hget₁ hbusy₁ n hn).2.2 (hmem hn')
      · obtain ⟨hget₂, hbusy₂⟩ := hother hget' hkey' hbusy'
        exact h.apart hget₁ hget₂ hbusy₁ hbusy₂ hne n hn hn'
  case named =>
    intro entry hentry
    rcases Table.mem_entries_insert hentry with rfl | hentry
    · exact ⟨hclass, hc.name.trans hname⟩
    · exact h.named entry hentry
  case keys => exact Table.nodup_keys_insert h.keys

end

theorem ensures_takeTypeName_unique (base : String) (p : Planning) :
    Ensures (takeTypeName base) p fun name p' => name = unique p.typeNames base ∧
      p' = { p with typeNames := name :: p.typeNames } := by
  rintro _ _ ⟨⟩
  exact ⟨rfl, rfl⟩

theorem Distinct.withNotices {d : Document} {path : List String} {held : List Holding}
    {p : Planning} (h : Distinct d path held p) (notices : List Notice) :
    Distinct d path held { p with notices := notices } :=
  ⟨h.reserved, h.heldNodup, h.heldTaken, h.classNodup, h.classTaken, h.apart, h.named, h.keys⟩

theorem Distinct.drop {d : Document} {path : List String} {held : List Holding} {name : String}
    {p : Planning} (h : Distinct d path (held ++ [.typeName name]) p) : Distinct d path held p where
  reserved := h.reserved
  heldNodup := by
    have hnodup := h.heldNodup
    rw [heldNames_typeName] at hnodup
    exact (List.nodup_append.1 hnodup).1
  heldTaken n hn := h.heldTaken n (by simp [heldNames_typeName, hn])
  classNodup := h.classNodup
  classTaken hc hbusy n hn := by
    obtain ⟨htaken, hclass, hheld⟩ := h.classTaken hc hbusy n hn
    rw [heldNames_typeName, List.mem_append, not_or] at hheld
    exact ⟨htaken, hclass, hheld.1⟩
  apart := h.apart
  named := h.named
  keys := h.keys

theorem not_mem_busyNames {d : Document} (hsame : d.NamesakesApart) {id : String}
    {path : List String} {e : Element} (he : d.elements.get? id = some e) (hid : id ∉ path)
    (htrail : d.Trail d.roots (id :: path)) : className e.name ∉ busyNames d path := by
  intro hmem
  obtain ⟨a, ha, hname⟩ := List.mem_filterMap.1 hmem
  obtain ⟨ea, hea, hname⟩ := Option.map_eq_some_iff.1 hname
  have heq := hsame a id ea e (htrail.leads ha) hea he hname
  exact hid (heq ▸ ha)

theorem kept_distinct {site : Site} (hroots : site.document.TextRootsApart)
    (hsame : site.policy = .replace → site.document.NamesakesApart) :
    Kept site site.document.roots (Distinct site.document) fun _ _ _ => True where
  tell notices hp := hp.withNotices notices
  drop hp := hp.drop
  take he htrail haffix hp := by
    refine (ensures_takeTypeName_unique _ _).mono ?_
    rintro name _ ⟨hname, rfl⟩
    obtain ⟨n, hn, hfree, -⟩ := Code.exists_unique_eq _ _
    rw [hname, hn]
    exact hp.take hfree (hp.not_className hroots he (htrail.className he) haffix hfree)
  object boxable he hp _ := hp.of_heldNames (heldNames_object _ _ _ _)
  onPath _ _ _ := trivial
  claim he hid htrail hp hclaimed := by
    cases hclaimed with
    | free => exact ⟨fun _ => hp.begin _ _, fun h => by cases h⟩
    | own => exact ⟨fun h => (by cases h), fun _ => ⟨hp, trivial⟩⟩
    | keep notices => exact ⟨fun h => (by cases h), fun _ => ⟨hp.withNotices notices, trivial⟩⟩
    | replace notices => exact ⟨fun _ => (hp.withNotices notices).begin _ _, fun h => by cases h⟩
    | release notices hpolicy hc =>
      refine ⟨fun _ => ?_, fun h => by cases h⟩
      have hbusy := not_mem_busyNames (hsame hpolicy) he hid htrail
      have hreplaced := (hp.replace he rfl hc hbusy).withNotices notices
      exact ⟨hreplaced.reserved, hreplaced.heldNodup, hreplaced.heldTaken, hreplaced.classNodup,
        hreplaced.classTaken, hreplaced.apart, hreplaced.named, hreplaced.keys⟩
  enter he _ htrail hp hc := ⟨hp.enter he rfl (htrail.className he) hc, trivial⟩

theorem Distinct.start (d : Document) : Distinct d [] [] (Planning.start d) where
  reserved he htext := by
    refine List.mem_map.2 ⟨_, List.mem_filter.2 ⟨?_, by simp [htext]⟩, rfl⟩
    exact List.mem_map.2 ⟨_, Table.mem_entries_of_get? he, rfl⟩
  heldNodup := .nil
  heldTaken _ h := by cases h
  classNodup h := by cases h
  classTaken h := by cases h
  apart h := by cases h
  named _ h := by cases h
  keys := .nil

/-! ## Generated files -/

theorem typeNames_classOf (runtime : String) (rt : Code.Units) (c : Class) :
    (Code.classOf runtime rt c).typeNames = c.name :: c.typeNames := by
  rw [Code.Class.typeNames, Code.classOf, Class.typeNames, List.map_map, List.map_map]
  rfl

theorem Distinct.nodup {d : Document} {held : List Holding} {p : Planning}
    (h : Distinct d [] held p) :
    (p.classes.values.flatMap fun c => c.name :: c.typeNames).Nodup := by
  have hget : ∀ entry ∈ p.classes.entries, p.classes.get? entry.1 = some entry.2 :=
    fun entry hentry => Table.get?_of_mem_entries h.keys hentry
  have hbusy : ∀ name, name ∉ busyNames d [] := fun _ => List.not_mem_nil
  rw [Table.values, List.flatMap_map, List.nodup_flatMap]
  constructor
  · intro entry hentry
    refine List.nodup_cons.2 ⟨fun hmem => ?_, h.classNodup (hget entry hentry) (hbusy _)⟩
    obtain ⟨hclass, hname⟩ := h.named entry hentry
    exact (h.classTaken (hget entry hentry) (hbusy _) _ hmem).2.1 (hname ▸ hclass)
  · have hpairwise : p.classes.entries.Pairwise (fun a b => a.1 ≠ b.1) :=
      List.pairwise_map.1 h.keys
    refine hpairwise.imp_of_mem fun {a b} ha hb hne => ?_
    obtain ⟨hclassA, hnameA⟩ := h.named a ha
    obtain ⟨hclassB, hnameB⟩ := h.named b hb
    intro n hnA hnB
    rcases List.mem_cons.1 hnA with rfl | hnA <;> rcases List.mem_cons.1 hnB with hn | hnB
    · exact hne (hnameA.symm.trans (hn.trans hnameB))
    · exact (h.classTaken (hget b hb) (hbusy _) _ hnB).2.1 (hnameA ▸ hclassA)
    · exact (h.classTaken (hget a ha) (hbusy _) n hnA).2.1 (hn ▸ hnameB ▸ hclassB)
    · exact h.apart (hget a ha) (hget b hb) (hbusy _) (hbusy _) hne n hnA hnB

/-- **The type names of a generated file are pairwise different**, where no
    text-only root has a class name that begins with another one, and, if a
    class replaces another of its name, no element leads to a different one of
    its class name. -/
theorem generate_typeNames_nodup {d : Document} (hd : d.Keyed) {o : Code.Options}
    (hroots : d.TextRootsApart) (hsame : o.policy = .replace → d.NamesakesApart)
    {file : Code.File} (hok : (Code.generate d o).1 = .ok file) : file.typeNames.Nodup := by
  obtain ⟨rt, classes, -, hplan, rfl⟩ := exists_plan hok
  have hkept : Kept (o.site d) d.roots (Distinct d) fun _ _ _ => True := kept_distinct hroots hsame
  obtain ⟨p, rfl, hp⟩ := hkept.plan hd (Distinct.start d) hplan
  have hnames : (Code.fileOf o rt d p.classes.values).typeNames =
      p.classes.values.flatMap fun c => c.name :: c.typeNames := by
    rw [Code.File.typeNames, Code.fileOf, List.flatMap_map]
    exact List.flatMap_congr fun c _ => typeNames_classOf _ _ c
  rw [hnames]
  exact hp.nodup

/-- Libraries: two elements share the class name of books, the binding of a book
    is an element as well as an attribute, and a motto is a root by itself. -/
def libraryDocument : Document :=
  { roots := ["library", "motto"]
    elements := ⟨[
      ("library", {
        identifier := "library", name := "library"
        elementRelations := [{ target := "book" }, { target := "Book" },
          { target := "book-binding" }] }),
      ("book", {
        identifier := "book", name := "book"
        attributeRelations := [{ target := "book@binding" }] }),
      ("Book", {
        identifier := "Book", name := "Book"
        attributeRelations := [{ target := "book@binding" }] }),
      ("book-binding", {
        identifier := "book-binding", name := "book-binding"
        attributeRelations := [{ target := "book@binding" }] }),
      ("motto", { identifier := "motto", name := "motto", text := true })]⟩
    attributes := ⟨[
      ("book@binding", {
        identifier := "book@binding", name := "binding"
        facet := some { values := ["hardcover", "paperback"] } })]⟩ }

theorem libraryDocument_leads {a b : String} (h : libraryDocument.Leads a b) : a = "library" := by
  obtain ⟨e, r, target, he, hr, -⟩ := h
  have hentries : ∀ entry ∈ libraryDocument.elements.entries,
      entry.2.elementRelations ≠ [] → entry.1 = "library" := by decide
  exact hentries (a, e) (Table.mem_entries_of_get? he) (List.ne_nil_of_mem hr)

set_option maxRecDepth 10000 in
theorem library_typeNames_nodup : libraryDocument.Keyed ∧ libraryDocument.TextRootsApart ∧
    libraryDocument.NamesakesApart ∧
    ∃ file, (Code.generate libraryDocument {}).1 = .ok file ∧
      file.typeNames = ["Book", "BookBinding2", "BookBinding", "BookBindingBinding", "Library",
        "Motto"] ∧ file.typeNames.Nodup := by
  have hkeyed : libraryDocument.Keyed := Document.keyed_of_entries (by decide)
  have hnames : ∀ entry ∈ libraryDocument.elements.entries,
      ((className entry.2.name).toList <+: "Motto".toList → className entry.2.name = "Motto") ∧
      (className entry.2.name = "Library" → entry.1 = "library") := by
    decide +kernel
  have hroots : libraryDocument.TextRootsApart := by
    have hmotto : ∀ root ∈ libraryDocument.roots, ∀ e, libraryDocument.elements.get? root = some e →
        e.isTextOnly = true → className e.name = "Motto" := by decide +kernel
    rintro root hroot e he htext name ⟨id, e', he', -, rfl⟩
    rw [hmotto root hroot e he htext]
    exact (hnames (id, e') (Table.mem_entries_of_get? he')).1
  have hsame : libraryDocument.NamesakesApart := by
    intro a b ea eb hleads hea heb hname
    obtain ⟨x, hax, -⟩ := Relation.TransGen.head'_iff.1 hleads
    obtain rfl := libraryDocument_leads hax
    have hlibrary : className ea.name = "Library" := by
      have hget : ∀ e, libraryDocument.elements.get? "library" = some e →
          className e.name = "Library" := by decide +kernel
      exact hget ea hea
    exact ((hnames (b, eb) (Table.mem_entries_of_get? heb)).2 (hname ▸ hlibrary)).symm
  exact ⟨hkeyed, hroots, hsame, exists_file (by decide +kernel) fun _ hok _ =>
    generate_typeNames_nodup hkeyed hroots (fun _ => hsame) hok⟩

/-- Shelves: three elements share the class name of books, the last of which
    stands in the second, and the mode of a shelf is a root by itself. -/
def shelfDocument : Document :=
  { roots := ["shelf", "shelf-mode"]
    elements := ⟨[
      ("shelf", {
        identifier := "shelf", name := "shelf"
        elementRelations := [{ target := "book" }, { target := "Book" }]
        attributeRelations := [{ target := "shelf@mode" }] }),
      ("book", {
        identifier := "book", name := "book"
        attributeRelations := [{ target := "book@binding-kind" }] }),
      ("Book", {
        identifier := "Book", name := "Book"
        elementRelations := [{ target := "binding-kind" }, { target := "BOOK" }] }),
      ("binding-kind", {
        identifier := "binding-kind", name := "binding-kind", text := true
        facet := some { values := ["sewn", "glued"] } }),
      ("BOOK", {
        identifier := "BOOK", name := "BOOK", elementRelations := [{ target := "book-binding" }] }),
      ("book-binding", {
        identifier := "book-binding", name := "book-binding"
        attributeRelations := [{ target := "book-binding@kind" }] }),
      ("shelf-mode", { identifier := "shelf-mode", name := "shelf-mode", text := true })]⟩
    attributes := ⟨[
      ("shelf@mode", {
        identifier := "shelf@mode", name := "mode"
        facet := some { values := ["open", "closed"] } }),
      ("book@binding-kind", {
        identifier := "book@binding-kind", name := "binding-kind"
        facet := some { values := ["hard", "soft"] } }),
      ("book-binding@kind", {
        identifier := "book-binding@kind", name := "kind"
        facet := some { values := ["thread", "wire"] } })]⟩ }

set_option maxRecDepth 10000 in
/-- The names that the second book holds are given back once more when the third
    is found below it, and the name of a text-only root is not reserved. -/
theorem shelf_typeNames_repeated : shelfDocument.Keyed ∧ shelfDocument.validate = .ok () ∧
    ∃ file, (Code.generate shelfDocument {}).1 = .ok file ∧
      file.typeNames = ["Book", "BookBindingKind", "BookBinding", "BookBindingKind", "Shelf",
        "ShelfMode", "ShelfMode"] ∧ ¬ file.typeNames.Nodup := by
  refine ⟨Document.keyed_of_entries (by decide), by decide,
    exists_file (by decide +kernel) fun _ _ hfile => ?_⟩
  rw [hfile]
  decide

end Binding

end Bindery
