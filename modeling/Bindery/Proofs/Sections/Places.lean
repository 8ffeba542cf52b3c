/-
  Schemas without the places of their elements.

  Where an element stands in a text matters for messages only.
  `Node.unplaced` is a node without places, and `typeNames` are the names in it
  that may be names of simple types: those in the attributes `type`, `base` and
  `itemType` that are no types of XML Schema itself.

  * `simpleTypeWith_unplaced`: a simple type that is declared does not depend on
    places, if looking up the names in it does not;
  * `named_unplaced`: looking up a name gives the same in two tables that agree
    in the names in question (`Agreeing`).
-/
import Bindery.Schema.Xsd

namespace Bindery

namespace Markup.Node

mutual

def unplaced : Node → Node
  | .element head children => .element { head with pos := {} } (unplacedAll children)
  | .text content => .text content
  | .comment content => .comment content
  | .instruction => .instruction

def unplacedAll : List Node → List Node
  | [] => []
  | n :: ns => unplaced n :: unplacedAll ns

end

theorem unplacedAll_eq_map : ∀ ns : List Node, unplacedAll ns = ns.map unplaced
  | [] => rfl
  | n :: ns => by rw [unplacedAll, unplacedAll_eq_map ns, List.map_cons]

@[simp]
theorem name_unplaced (n : Node) : n.unplaced.name = n.name := by
  cases n <;> rfl

@[simp]
theorem isElement_unplaced (n : Node) : n.unplaced.isElement = n.isElement := by
  cases n <;> rfl

@[simp]
theorem children_unplaced (n : Node) : n.unplaced.children = n.children.map unplaced := by
  cases n with
  | element head children => exact unplacedAll_eq_map children
  | text | comment | instruction => rfl

@[simp]
theorem attribute?_unplaced (n : Node) (name : String) :
    n.unplaced.attribute? name = n.attribute? name := by
  cases n <;> rfl

@[simp]
theorem uri?_unplaced (n : Node) (label : Option String) :
    n.unplaced.uri? label = n.uri? label := by
  cases n <;> rfl

theorem child?_unplaced (n : Node) (name : String) :
    n.unplaced.child? name = (n.child? name).map unplaced := by
  rw [child?, child?, children_unplaced, List.find?_map]
  simp only [Function.comp_def, name_unplaced]

end Markup.Node

namespace Schema

open Markup (Node Head)

@[simp]
theorem isBuiltin_unplaced (n : Node) (name : String) :
    isBuiltin n.unplaced name = isBuiltin n name := by
  simp [isBuiltin]

@[simp]
theorem enumerationFacet_unplaced (n : Node) :
    enumerationFacet n.unplaced = enumerationFacet n := by
  simp [enumerationFacet, List.foldl_map]

/-! ## Names of simple types -/

/-- The names of types that an element uses itself, but for those of XML
    Schema. -/
def ownTypeNames (n : Node) : List String :=
  ["type", "base", "itemType"].filterMap fun key =>
    (n.attribute? key).bind fun name => if isBuiltin n name then none else some (localName name)

mutual

def typeNames : Node → List String
  | .element head children => ownTypeNames (.element head children) ++ typeNamesAll children
  | _ => []

def typeNamesAll : List Node → List String
  | [] => []
  | n :: ns => typeNames n ++ typeNamesAll ns

end

theorem mem_typeNamesAll {key : String} {ns : List Node} :
    key ∈ typeNamesAll ns ↔ ∃ n ∈ ns, key ∈ typeNames n := by
  induction ns with
  | nil => simp [typeNamesAll]
  | cons n ns ih => simp [typeNamesAll, ih]

theorem own_mem_typeNames {n : Node} {label name : String}
    (ha : label ∈ ["type", "base", "itemType"]) (hname : n.attribute? label = some name)
    (hb : isBuiltin n name = false) : localName name ∈ typeNames n := by
  have hown : localName name ∈ ownTypeNames n :=
    List.mem_filterMap.2 ⟨label, ha, by simp [hname, hb]⟩
  cases n with
  | element head children => exact List.mem_append_left _ hown
  | text | comment | instruction => cases hname

/-- Whether the names of types that a node uses are all among those used. -/
def InUse (used : String → Prop) (n : Node) : Prop :=
  ∀ key ∈ typeNames n, used key

def AllInUse (used : String → Prop) (ns : List Node) : Prop :=
  ∀ key ∈ typeNamesAll ns, used key

section
variable {used : String → Prop} {n : Node} {ns : List Node}

theorem AllInUse.head (h : AllInUse used (n :: ns)) : InUse used n :=
  fun key hk => h key (List.mem_append_left _ hk)

theorem AllInUse.tail (h : AllInUse used (n :: ns)) : AllInUse used ns :=
  fun key hk => h key (List.mem_append_right _ hk)

theorem InUse.children (h : InUse used n) : AllInUse used n.children := by
  cases n with
  | element head children => exact fun key hk => h key (List.mem_append_right _ hk)
  | text | comment | instruction => exact fun key hk => by cases hk

theorem InUse.child (h : InUse used n) {c : Node} {name : String} (hc : n.child? name = some c) :
    InUse used c :=
  fun key hk => h.children key (mem_typeNamesAll.2 ⟨c, List.mem_of_find?_eq_some hc, hk⟩)

end

/-! ## Simple types -/

/-- Whether looking up names that are used gives the same without places. -/
def Lookup.Agrees (used : String → Prop) (lookup lookup' : Lookup) : Prop :=
  ∀ c name, (isBuiltin c name = false → used (localName name)) →
    lookup' c.unplaced name = lookup c name

section
variable {used : String → Prop} {lookup lookup' : Lookup}
  (hl : Lookup.Agrees used lookup lookup')
include hl

-- in a mutual block only some of the theorems name `hl` themselves
set_option linter.unusedSectionVars false

theorem Lookup.Agrees.own {n : Node} (hn : InUse used n) {label name : String}
    (ha : label ∈ ["type", "base", "itemType"]) (hname : n.attribute? label = some name) :
    lookup' n.unplaced name = lookup n name :=
  hl n name fun hb => hn _ (own_mem_typeNames ha hname hb)

mutual

theorem simpleTypeWith_unplaced : ∀ n : Node, InUse used n →
    simpleTypeWith lookup' n.unplaced = simpleTypeWith lookup n
  | .element head children, hn => by
    rw [Node.unplaced, simpleTypeWith, simpleTypeWith]
    exact derivation_unplaced children hn.children
  | .text _, _ | .comment _, _ | .instruction, _ => rfl

theorem derivation_unplaced : ∀ ns : List Node, AllInUse used ns →
    derivation lookup' (Node.unplacedAll ns) = derivation lookup ns
  | [], _ => rfl
  | .element head children :: rest, hn => by
    have hinline := inlineType_unplaced children hn.head.children
    have hrest := derivation_unplaced rest hn.tail
    have hown : ∀ label ∈ ["type", "base", "itemType"], ∀ name,
        (Node.element head children).attribute? label = some name →
          lookup' (Node.element head children).unplaced name =
            lookup (Node.element head children) name :=
      fun label ha name hname => hl.own hn.head ha hname
    have hattribute := Node.attribute?_unplaced (.element head children)
    have hfacet := enumerationFacet_unplaced (.element head children)
    rw [Node.unplaced] at hown hattribute hfacet
    rw [Node.unplacedAll, Node.unplaced, derivation, derivation]
    simp only [hattribute, hfacet, hinline, hrest]
    split
    · cases hb : (Node.element head children).attribute? "base" with
      | none => rfl
      | some base => simp only [hown "base" (by decide) base hb]
    · cases hi : (Node.element head children).attribute? "itemType" with
      | none => rfl
      | some item => simp only [hown "itemType" (by decide) item hi]
    · rfl
    · rfl
  | .text _ :: rest, hn | .comment _ :: rest, hn | .instruction :: rest, hn => by
    exact derivation_unplaced rest hn

theorem inlineType_unplaced : ∀ ns : List Node, AllInUse used ns →
    inlineType lookup' (Node.unplacedAll ns) = inlineType lookup ns
  | [], _ => rfl
  | n :: ns, hn => by
    rw [Node.unplacedAll, inlineType, inlineType, Node.name_unplaced,
      simpleTypeWith_unplaced n hn.head, inlineType_unplaced ns hn.tail]

end

end

/-- Whether two tables of declarations agree in the names used, but for places,
    and the names that those declarations use are among these. -/
structure Agreeing (used : String → Prop) (nodes nodes' : Table Node) : Prop where
  get : ∀ key, used key → nodes'.get? key = (nodes.get? key).map Node.unplaced
  closed : ∀ key node, used key → nodes.get? key = some node → ∀ k ∈ typeNames node, used k

/-- **A name stands for the same simple type in tables that agree**, and finding
    it out tells and keeps the same. -/
theorem named_unplaced {used : String → Prop} {nodes nodes' : Table Node}
    (h : Agreeing used nodes nodes') (resolving : List String) :
    Lookup.Agrees used (named nodes resolving) (named nodes' resolving) := by
  -- on the declarations that are not being resolved
  induction hn : remaining nodes.keys resolving using Nat.strongRecOn generalizing resolving with
  | ind k ih =>
    subst hn
    intro c name hused
    rw [named, named, isBuiltin_unplaced]
    split
    · rfl
    · rename_i hb
      have hget := h.get _ (hused (by simpa using hb))
      refine bind_congr fun s => ?_
      split
      · rfl
      · split
        · rename_i hnone'
          rw [hget, Option.map_eq_none_iff] at hnone'
          split
          · rfl
          · rename_i node hnode
            rw [hnone'] at hnode
            cases hnode
        · rename_i node' hnode'
          rw [hget, Option.map_eq_some_iff] at hnode'
          obtain ⟨node, hnode, rfl⟩ := hnode'
          have hclosed := h.closed _ node (hused (by simpa using hb)) hnode
          split
          · rename_i hr
            split
            · rename_i hnone
              rw [hnode] at hnone
              cases hnone
            · rfl
          · rename_i hr
            split
            · rename_i hnone
              rw [hnode] at hnone
              cases hnone
            · rename_i found hfound
              rw [hnode] at hfound
              cases hfound
              have hlt := remaining_cons_lt (Table.mem_keys_of_get? hnode) hr
              rw [simpleTypeWith_unplaced (ih _ hlt _ rfl) node hclosed]

end Schema

end Bindery
