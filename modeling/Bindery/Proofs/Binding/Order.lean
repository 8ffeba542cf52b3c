/-
  Classes come after what they contain.

  Where two elements with one class name are an error, every class is made
  once, after all classes whose values it holds directly: the member that leads
  back to a class that is only being made is boxed or a list.

  * `Code.Class.Holds`: whether the types in the code of a class hold another by
    value, and `ClassFor.direct_of_holds`: only if its slots do;
  * `Orderly`: classes come after what they hold, as far as their names are of `Q`;
  * `InOrder`: what holds all the while, and `kept_inOrder`: that it does;
  * `generate_inOrder`: in a generated file classes stand after those they hold
    directly, and no chain of such classes goes on without end.
-/
import Mathlib.Order.WellFounded
import Mathlib.Order.RelClasses
import Bindery.Proofs.Binding.Making

namespace Bindery

namespace Code

/-- The types of the members of a class, and of the variants of its unions. -/
def Class.types (c : Class) : List String :=
  c.members.map (·.type) ++ c.unions.flatMap (·.variants.map (·.2))

/-- The types that are not classes: scalars, and those that the class brings along. -/
def Class.ownTypes (c : Class) : List String :=
  ["String", "i64", "i32", "f64", "bool"] ++ c.enums.map (·.name) ++ c.unions.map (·.name)

/-- Whether values of the class `name` stand in those of `c` themselves, neither in
    a box nor in a list: one of the types of `c` is that class or an option of it.  A
    name that `c` gives to a type of its own means that type in `c`. -/
def Class.Holds (c : Class) (name : String) : Prop :=
  name ∉ c.ownTypes ∧
    ∃ type ∈ c.types, type ∉ c.ownTypes ∧ (type = name ∨ type = s!"Option<{name}>")

/-- Whether `c` has a member for the relation `r` to an element of the class `name`,
    or a member for a union with a variant for it. -/
def Class.Refers (c : Class) (r : Schema.Relation) (name : String) : Prop :=
  match r.choice with
  | none => ∃ m ∈ c.members, if r.isList then m.type = s!"Vec<{name}>" else
      m.type ∈ [name, s!"Option<{name}>", s!"Option<Box<{name}>>"]
  | some _ => ∃ m ∈ c.members, ∃ u ∈ c.unions,
      m.type ∈ [s!"Option<{u.name}>", s!"Vec<{u.name}>"] ∧
      ∃ v ∈ u.variants, v.2 ∈ [name, s!"Box<{name}>"]

end Code

namespace Binding

open Schema
open Code (className memberName unique)

/-! ## Values that are held directly -/

/-- The class whose values stand in the type itself, without a box. -/
def ValueType.direct? : ValueType → Option String
  | .object name false => some name
  | _ => none

/-- The classes whose values stand in the slot, neither in a box nor in a list.
    A union holds the values of its alternatives. -/
def Slot.direct (s : Slot) : List String :=
  match s.place with
  | .attr _ type | .text type | .child _ type =>
    if s.cardinality = .list then [] else type.direct?.toList
  | .choice _ _ as => as.filterMap (·.type.direct?)

/-- The classes whose values stand in those of the class itself. -/
def Class.direct (c : Class) : List String := c.elements.flatMap (·.direct)

/-- Whether the slot holds the values of the relation `r`, which have the tag
    and are of the class `name`. -/
def Slot.Serves (s : Slot) (r : Relation) (tag name : String) (boxed : Bool) : Prop :=
  match r.choice with
  | none => s.place = .child tag (.object name boxed) ∧
      (s.cardinality = .list ↔ r.isList = true) ∧ (boxed = true → s.cardinality = .optional)
  | some group => s.cardinality ≠ .one ∧ ∃ union as, s.place = .choice union group as ∧
      ∃ a ∈ as, a.tag = tag ∧ a.type = .object name boxed

theorem mem_unions {c : Class} {union group : String} {as : List Alternative} :
    (union, group, as) ∈ c.unions ↔ ∃ s ∈ c.elements, s.place = .choice union group as := by
  refine List.mem_filterMap.trans ⟨?_, ?_⟩
  · rintro ⟨s, hs, h⟩
    cases hplace : s.place <;> simp only [hplace, reduceCtorEq, Option.some.injEq] at h
    cases h
    exact ⟨s, hs, hplace⟩
  · rintro ⟨s, hs, hplace⟩
    exact ⟨s, hs, by rw [hplace]⟩

theorem Slot.Serves.refers {s : Slot} {r : Relation} {tag name runtime : String} {boxed : Bool}
    {rt : Code.Units} {c : Class} (hs : s ∈ c.elements) (h : s.Serves r tag name boxed) :
    (Code.classOf runtime rt c).Refers r name := by
  have hmember : { name := s.member, type := s.memberText } ∈ (Code.classOf runtime rt c).members :=
    List.mem_map.2 ⟨s, List.mem_append_right _ hs, rfl⟩
  cases hc : r.choice with
  | none =>
    simp only [Slot.Serves, hc] at h
    simp only [Code.Class.Refers, hc]
    obtain ⟨hplace, hlist, hboxed⟩ := h
    refine ⟨_, hmember, ?_⟩
    rw [Slot.memberText, Slot.typeText, hplace]
    cases hcard : s.cardinality <;> cases boxed <;>
      simp_all [Place.typeText, ValueType.text, ← String.toList_inj, toString]
  | some group =>
    simp only [Slot.Serves, hc] at h
    simp only [Code.Class.Refers, hc]
    obtain ⟨hone, union, as, hplace, a, ha, -, htype⟩ := h
    have hunion := mem_unions.2 ⟨s, hs, hplace⟩
    refine ⟨_, hmember, _, List.mem_map.2 ⟨_, hunion, rfl⟩, ?_, _, List.mem_map.2 ⟨a, ha, rfl⟩, ?_⟩
    · rw [Slot.memberText, Slot.typeText, hplace]
      cases hcard : s.cardinality <;> simp_all [Place.typeText, Code.unionOf]
    · cases boxed <;> simp [htype, ValueType.text]

section
variable {d : Document} {path groups taken taken' : List String} {all rs : List Relation}
  {slots : List Slot} {hs : List Holding}

theorem ScalarTyped.direct?_eq_none {label : String} {dataType : Option DataType}
    {facet : Option Facet} {type : ValueType} (h : ScalarTyped label dataType facet type hs) :
    type.direct? = none := by
  cases h <;> rfl

theorem Typed.of_direct {label name : String} {target : Element} {type : ValueType}
    (h : Typed path label true target type hs) (hname : type.direct? = some name) :
    target.isTextOnly = false ∧ className target.name = name ∧ target.identifier ∉ path ∧
      ∃ id, Holding.object id name true ∈ hs := by
  cases h with
  | text _ hscalar =>
    rw [hscalar.direct?_eq_none] at hname
    cases hname
  | object htext hcls =>
    cases hc : path.contains target.identifier with
    | true =>
      rw [hc] at hname
      cases hname
    | false =>
      rw [hc] at hname
      cases hname
      exact ⟨htext, hcls, by simpa using hc, target.identifier, by simp⟩

theorem ChildSlotFor.holding_of_direct {r : Relation} {target : Element} {s : Slot} {name : String}
    (h : ChildSlotFor path taken r target s hs) (hname : name ∈ s.direct) :
    ∃ id, Holding.object id name true ∈ hs := by
  obtain ⟨type, hplace, htyped⟩ := h.place
  rw [Slot.direct, hplace] at hname
  dsimp only at hname
  split at hname
  · cases hname
  · rename_i hlist
    have hboxable : (!r.isList) = true := by simpa using mt h.list.2 hlist
    rw [hboxable] at htyped
    exact (htyped.of_direct (Option.mem_toList.1 hname)).2.2.2

theorem ChoiceSlotFor.holding_of_direct {group name : String} {s : Slot}
    (h : ChoiceSlotFor d path taken all group s hs) (hname : name ∈ s.direct) :
    ∃ id, Holding.object id name true ∈ hs := by
  obtain ⟨union, as, hs', hplace, rfl, has⟩ := h.place
  rw [Slot.direct, hplace] at hname
  obtain ⟨a, ha, haname⟩ := List.mem_filterMap.1 hname
  rcases has.exists_relation ha with hnil | ⟨_, -, _, _, _, -, -, -, htyped, hsub⟩
  · cases hnil
  · obtain ⟨-, -, -, id, hid⟩ := htyped.of_direct haname
    exact ⟨id, List.mem_cons_of_mem _ (hsub hid)⟩

theorem ElementSlotsFor.holding_of_direct
    (h : ElementSlotsFor d path all groups taken rs slots taken' hs) {s : Slot} (hs' : s ∈ slots)
    {name : String} (hname : name ∈ s.direct) : ∃ id, Holding.object id name true ∈ hs := by
  cases h.slotFor hs' with
  | child _ _ _ hslot hsub | choice hslot hsub =>
    obtain ⟨id, hid⟩ := hslot.holding_of_direct hname
    exact ⟨id, hsub hid⟩

/-! ## The slot of a relation -/

/-- Whether the slots and holdings account for a relation to an element that
    becomes a class. -/
def Accounts (d : Document) (slots : List Slot) (hs : List Holding) (r : Relation) : Prop :=
  ∀ target, d.elements.get? r.target = some target → target.isTextOnly = false →
    (∃ direct, Holding.object r.target (className target.name) direct ∈ hs) ∧
      ∃ s ∈ slots, ∃ boxed, s.Serves r target.name (className target.name) boxed

theorem Accounts.mono {slots slots' : List Slot} {hs hs' : List Holding} {r : Relation}
    (h : Accounts d slots hs r) (hslots : slots ⊆ slots') (hhs : hs ⊆ hs') :
    Accounts d slots' hs' r := by
  intro target ht htext
  obtain ⟨⟨direct, hd⟩, s, hs, boxed, hserves⟩ := h target ht htext
  exact ⟨⟨direct, hhs hd⟩, s, hslots hs, boxed, hserves⟩

theorem Typed.object_of_isTextOnly {label : String} {boxable : Bool} {target : Element}
    {type : ValueType} (h : Typed path label boxable target type hs)
    (htext : target.isTextOnly = false) :
    ∃ boxed direct, type = .object (className target.name) (boxable && boxed) ∧
      Holding.object target.identifier (className target.name) direct ∈ hs := by
  cases h with
  | text honly =>
    rw [htext] at honly
    cases honly
  | object _ hcls =>
    rw [hcls]
    exact ⟨_, _, rfl, List.mem_singleton_self _⟩

theorem ChildSlotFor.accounts (hd : d.Keyed) {r : Relation} {target : Element} {s : Slot}
    (hc : r.choice = none) (ht : d.elements.get? r.target = some target)
    (h : ChildSlotFor path taken r target s hs) : Accounts d [s] hs r := by
  intro target' ht' htext
  obtain rfl : target = target' := Option.some.inj (ht.symm.trans ht')
  obtain ⟨type, hplace, htyped⟩ := h.place
  obtain ⟨boxed, direct, rfl, hmem⟩ := htyped.object_of_isTextOnly htext
  rw [hd _ _ ht] at hmem
  refine ⟨⟨direct, hmem⟩, s, List.mem_singleton_self s, !r.isList && boxed, ?_⟩
  rw [Slot.Serves, hc]
  refine ⟨hplace, h.list, fun hboxed => ?_⟩
  rw [hboxed] at hplace
  cases hcard : s.cardinality with
  | one => exact absurd hplace (h.unboxed hcard _ _)
  | optional => rfl
  | list => simp [h.list.1 hcard] at hboxed

theorem AlternativesFor.mem_of_made {made as : List Alternative} {a : Alternative}
    (h : AlternativesFor d path made rs as hs) (ha : a ∈ made) : a ∈ as := by
  induction h with
  | nil => exact ha
  | dangling _ _ ih => exact ih ha
  | cons _ _ _ ih => exact ih (List.mem_append_left _ ha)

theorem AlternativesFor.exists_alternative (hd : d.Keyed) {made as : List Alternative}
    (h : AlternativesFor d path made rs as hs) {r : Relation} (hr : r ∈ rs) {target : Element}
    (ht : d.elements.get? r.target = some target) (htext : target.isTextOnly = false) :
    (∃ direct, Holding.object r.target (className target.name) direct ∈ hs) ∧
      ∃ a ∈ as, ∃ boxed, a.tag = target.name ∧
        a.type = .object (className target.name) boxed := by
  induction h with
  | nil => cases hr
  | dangling hnone _ ih =>
    rcases List.mem_cons.1 hr with rfl | hr
    · rw [ht] at hnone
      cases hnone
    · exact ih hr
  | cons ht' htyped hrest ih =>
    rcases List.mem_cons.1 hr with rfl | hr
    · obtain rfl := Option.some.inj (ht.symm.trans ht')
      obtain ⟨boxed, direct, rfl, hmem⟩ := htyped.object_of_isTextOnly htext
      rw [hd _ _ ht] at hmem
      exact ⟨⟨direct, List.mem_append_left _ hmem⟩, _,
        hrest.mem_of_made (List.mem_append_right _ (List.mem_singleton_self _)), _, rfl, rfl⟩
    · obtain ⟨⟨direct, hmem⟩, ha⟩ := ih hr
      exact ⟨⟨direct, List.mem_append_right _ hmem⟩, ha⟩

theorem ChoiceSlotFor.accounts (hd : d.Keyed) {group : String} {s : Slot}
    (h : ChoiceSlotFor d path taken all group s hs) {r : Relation} (hr : r ∈ all)
    (hc : r.choice = some group) : Accounts d [s] hs r := by
  intro target ht htext
  obtain ⟨union, as, hs', hplace, rfl, has⟩ := h.place
  have hr' : r ∈ choiceOf all group := List.mem_filter.2 ⟨hr, by simp [hc]⟩
  obtain ⟨⟨direct, hmem⟩, a, ha, boxed, htag, htype⟩ := has.exists_alternative hd hr' ht htext
  refine ⟨⟨direct, List.mem_cons_of_mem _ hmem⟩, s, List.mem_singleton_self s, boxed, ?_⟩
  rw [Slot.Serves, hc]
  exact ⟨h.many, union, as, hplace, a, ha, htag, htype⟩

theorem ElementSlotsFor.accounts (hd : d.Keyed)
    (h : ElementSlotsFor d path all groups taken rs slots taken' hs) (hrs : rs ⊆ all)
    {r : Relation} (hr : r ∈ rs) (hgroup : ∀ group, r.choice = some group → group ∉ groups) :
    Accounts d slots hs r := by
  induction h with
  | nil => cases hr
  | dangling _ hnone _ ih =>
    rcases List.mem_cons.1 hr with rfl | hr
    · intro target ht
      rw [ht] at hnone
      cases hnone
    · exact ih (List.subset_of_cons_subset hrs) hr hgroup
  | seen hc hmem _ ih =>
    rcases List.mem_cons.1 hr with rfl | hr
    · exact absurd hmem (hgroup _ hc)
    · exact ih (List.subset_of_cons_subset hrs) hr hgroup
  | child hc ht hslot _ ih =>
    rcases List.mem_cons.1 hr with rfl | hr
    · exact (hslot.accounts hd hc ht).mono (by simp) (List.subset_append_left _ _)
    · exact (ih (List.subset_of_cons_subset hrs) hr hgroup).mono (List.subset_cons_self _ _)
        (List.subset_append_right _ _)
  | @barren _ _ _ group q _ _ _ hc hmem has _ ih =>
    by_cases hcr : r.choice = some group
    · intro target ht htext
      have hr' : r ∈ choiceOf all group := List.mem_filter.2 ⟨hrs hr, by simp [hcr]⟩
      obtain ⟨-, a, ha, -⟩ := has.exists_alternative hd hr' ht htext
      cases ha
    · rcases List.mem_cons.1 hr with rfl | hr
      · exact absurd hc hcr
      · refine ih (List.subset_of_cons_subset hrs) hr fun g hg hmem' => ?_
        rcases List.mem_cons.1 hmem' with rfl | hmem'
        · exact hcr hg
        · exact hgroup g hg hmem'
  | @choice _ _ _ group q _ s _ _ _ hc hmem hslot _ ih =>
    by_cases hcr : r.choice = some group
    · exact (hslot.accounts hd (hrs hr) hcr).mono (by simp) (List.subset_append_left _ _)
    · rcases List.mem_cons.1 hr with rfl | hr
      · exact absurd hc hcr
      · refine (ih (List.subset_of_cons_subset hrs) hr fun g hg hmem' => ?_).mono
          (List.subset_cons_self _ _) (List.subset_append_right _ _)
        rcases List.mem_cons.1 hmem' with rfl | hmem'
        · exact hcr hg
        · exact hgroup g hg hmem'

end

/-! ## Planning in order -/

/-- What holds of the class names of `Q` while classes are made for the elements of
    `path`, which hold `held`: each belongs to one element, and its class comes after
    those that it holds directly. -/
structure Orderly (d : Document) (Q : String → Prop) (path : List String) (held : List Holding)
    (p : Planning) : Prop where
  owner : ∀ {name id}, p.owners.get? name = some id →
    ∃ e, d.elements.get? id = some e ∧ className e.name = name
  onPath : ∀ {id e}, id ∈ path → d.elements.get? id = some e → Q (className e.name) →
    p.owners.get? (className e.name) = some id ∧ className e.name ∉ p.classes.keys
  made : ∀ {name id}, p.owners.get? name = some id → Q name → id ∉ path → name ∈ p.classes.keys
  named : ∀ entry ∈ p.classes.entries, entry.2.name = entry.1
  owned : ∀ entry ∈ p.classes.entries, Q entry.1 → p.owners.get? entry.1 = some entry.2.element
  keys : p.classes.keys.Nodup
  before : ∀ entry ∈ p.classes.entries, Q entry.1 → ∀ name ∈ entry.2.direct, Q name →
    p.classes.keys.idxOf name < p.classes.keys.idxOf entry.1
  known : ∀ {id name}, Holding.object id name true ∈ held → Q name → name ∈ p.classes.keys

namespace Orderly
variable {d : Document} {Q : String → Prop} {path : List String} {held : List Holding}
  {p p' : Planning} {id name : String} {e : Element}

theorem start (d : Document) (Q : String → Prop) : Orderly d Q [] [] (Planning.start d) where
  owner h := by cases h
  onPath h := by cases h
  made h := by cases h
  named _ h := by cases h
  owned _ h := by cases h
  keys := .nil
  before _ h := by cases h
  known h := by cases h

theorem of_same (h : Orderly d Q path held p) (hs : SameClasses p p') :
    Orderly d Q path held p' := by
  cases p
  cases p'
  obtain ⟨rfl, rfl⟩ := hs
  exact { h with }

theorem weaken (h : Orderly d Q path held p) {held' : List Holding} (hsub : held' ⊆ held) :
    Orderly d Q path held' p :=
  { h with known := fun hmem => h.known (hsub hmem) }

theorem hold (h : Orderly d Q path held p) {x : Holding}
    (hx : ∀ {id name}, x = .object id name true → Q name → name ∈ p.classes.keys) :
    Orderly d Q path (held ++ [x]) p := by
  refine { h with known := fun hmem => ?_ }
  rcases List.mem_append.1 hmem with hmem | hmem
  · exact h.known hmem
  · exact hx (List.mem_singleton.1 hmem).symm

theorem object (h : Orderly d Q path held p) (boxable : Bool)
    (hdone : Q name → p.owners.get? name = some id ∨ name ∈ p.classes.keys) :
    Orderly d Q path (held ++ [.object id name (boxable && !path.contains id)]) p := by
  refine h.hold fun hx hq => ?_
  obtain ⟨rfl, rfl, hdirect⟩ := Holding.object.inj hx
  refine (hdone hq).elim (fun ho => h.made ho hq ?_) fun hkey => hkey
  simpa using (Bool.and_eq_true_iff.1 hdirect).2

/-- A class is begun by taking its name, from nobody if it is one of `Q`. -/
theorem begin (h : Orderly d Q path held p) (he : d.elements.get? id = some e)
    (hname : className e.name = name) (hfree : Q name → p.owners.get? name = none) :
    Orderly d Q (id :: path) held { p with owners := p.owners.insert name id } := by
  have hkeeps : ∀ {n owner}, Q n → p.owners.get? n = some owner →
      (p.owners.insert name id).get? n = some owner := by
    intro n owner hq ho
    rw [Table.get?_insert_of_ne]
    · exact ho
    · rintro rfl
      rw [hfree hq] at ho
      cases ho
  refine { h with owner := ?_, onPath := ?_, made := ?_, owned := ?_ } <;> dsimp only
  · intro n owner ho
    rcases Table.get?_insert_cases ho with ⟨rfl, rfl⟩ | ⟨-, ho⟩
    · exact ⟨e, he, hname⟩
    · exact h.owner ho
  · intro x e' hx he' hq
    rcases List.mem_cons.1 hx with rfl | hx
    · obtain rfl := Option.some.inj (he.symm.trans he')
      rw [hname] at hq ⊢
      refine ⟨Table.get?_insert_self _ _ _, fun hmem => ?_⟩
      obtain ⟨entry, hentry, hkey⟩ := List.mem_map.1 hmem
      have ho := h.owned entry hentry (hkey ▸ hq)
      rw [hkey, hfree hq] at ho
      cases ho
    · obtain ⟨ho, hkey⟩ := h.onPath hx he' hq
      exact ⟨hkeeps hq ho, hkey⟩
  · intro n owner ho hq hmem
    rw [List.mem_cons, not_or] at hmem
    rcases Table.get?_insert_cases ho with ⟨-, rfl⟩ | ⟨-, ho⟩
    · exact absurd rfl hmem.1
    · exact h.made ho hq hmem.2
  · exact fun entry hentry hq => hkeeps hq (h.owned entry hentry hq)

/-- A class that is entered comes last, if its name is one of `Q`. -/
theorem before_enter (h : Orderly d Q (id :: path) held p) (he : d.elements.get? id = some e)
    (hname : className e.name = name) {c : Class}
    (hdirect : ∀ n ∈ c.direct, Q n → n ∈ p.classes.keys) :
    ∀ entry ∈ (p.classes.insert name c).entries, Q entry.1 → ∀ n ∈ entry.2.direct, Q n →
      (p.classes.insert name c).keys.idxOf n < (p.classes.insert name c).keys.idxOf entry.1 := by
  intro entry hentry hq n hn hq'
  rw [Table.keys_insert]
  rcases Table.mem_entries_insert hentry with rfl | hentry
  · dsimp only at hq hn ⊢
    rw [← hname] at hq
    have hkey := (h.onPath List.mem_cons_self he hq).2
    rw [hname] at hkey
    have hmem := hdirect n hn hq'
    rw [if_neg hkey, List.idxOf_append_of_mem hmem, List.idxOf_append_of_notMem hkey]
    exact Nat.lt_of_lt_of_le (List.idxOf_lt_length_of_mem hmem) (Nat.le_add_right _ _)
  · have hlt := h.before entry hentry hq n hn hq'
    have hmem : entry.1 ∈ p.classes.keys := List.mem_map.2 ⟨entry, hentry, rfl⟩
    have hmem' : n ∈ p.classes.keys :=
      List.idxOf_lt_length_iff.1 (Nat.lt_trans hlt (List.idxOf_lt_length_of_mem hmem))
    split
    · exact hlt
    · rwa [List.idxOf_append_of_mem hmem, List.idxOf_append_of_mem hmem']

theorem enter {site : Site} (hd : site.document.Keyed) {c : Class} {hs : List Holding}
    (h : Orderly site.document Q (id :: path) (held ++ hs) p)
    (he : site.document.elements.get? id = some e) (hname : className e.name = name)
    (hid : id ∉ path) (hc : ClassFor site (id :: path) e c hs) :
    Orderly site.document Q path held { p with classes := p.classes.insert name c } where
  owner := h.owner
  onPath {x e'} hx he' hq := by
    obtain ⟨ho, hkey⟩ := h.onPath (List.mem_cons_of_mem _ hx) he' hq
    refine ⟨ho, ?_⟩
    rw [Table.mem_keys_insert, not_or]
    refine ⟨fun heq => hid ?_, hkey⟩
    have hsame : className e'.name = className e.name := heq.trans hname.symm
    have ho' := (h.onPath List.mem_cons_self he (hsame ▸ hq)).1
    rw [← hsame, ho] at ho'
    exact Option.some.inj ho' ▸ hx
  made {n owner} ho hq hmem := by
    rw [Table.mem_keys_insert]
    by_cases howner : owner = id
    · obtain ⟨e', he', hn⟩ := h.owner ho
      rw [howner, he] at he'
      obtain rfl := Option.some.inj he'
      exact .inl (hn.symm.trans hname)
    · exact .inr (h.made ho hq (by simp [howner, hmem]))
  named entry hentry := by
    rcases Table.mem_entries_insert hentry with hnew | hentry
    · rw [hnew, hc.name, hname]
    · exact h.named entry hentry
  owned entry hentry hq := by
    rcases Table.mem_entries_insert hentry with rfl | hentry
    · dsimp only at hq ⊢
      rw [← hname] at hq ⊢
      rw [(h.onPath List.mem_cons_self he hq).1, hc.element.trans (hd _ _ he)]
    · exact h.owned entry hentry hq
  keys := Table.nodup_keys_insert h.keys
  before := by
    refine h.before_enter he hname fun n hn hq => ?_
    obtain ⟨taken, taken', hs₁, hs₂, hs₃, rfl, helements, -, -⟩ := hc.slots
    obtain ⟨s, hslot, hn⟩ := List.mem_flatMap.1 hn
    obtain ⟨x, hmem⟩ := helements.holding_of_direct hslot hn
    exact h.known (by simpa using .inr (.inl hmem)) hq
  known hmem hq := Table.mem_keys_insert.2 (.inr (h.known (List.mem_append_left _ hmem) hq))

end Orderly

/-- Whether the class has a slot for every relation of its element to one that
    becomes a class, and the class of that element has its owner. -/
def Covered (d : Document) (p : Planning) (c : Class) : Prop :=
  ∀ e, d.elements.get? c.element = some e → ∀ r ∈ e.elementRelations, ∀ target,
    d.elements.get? r.target = some target → target.isTextOnly = false →
      p.owners.get? (className target.name) = some r.target ∧
      ∃ s ∈ c.elements, ∃ boxed, s.Serves r target.name (className target.name) boxed

/-- What holds besides where a second owner of a class name is an error. -/
structure InOrder (d : Document) (path : List String) (held : List Holding) (p : Planning) :
    Prop extends Orderly d (fun _ => True) path held p where
  covered : ∀ entry ∈ p.classes.entries, Covered d p entry.2
  owners : ∀ {id name direct}, Holding.object id name direct ∈ held →
    p.owners.get? name = some id

theorem InOrder.of_same {d : Document} {path : List String} {held : List Holding}
    {p p' : Planning} (h : InOrder d path held p) (hs : SameClasses p p') :
    InOrder d path held p' := by
  cases p
  cases p'
  obtain ⟨rfl, rfl⟩ := hs
  exact { h with }

theorem InOrder.enter {site : Site} (hd : site.document.Keyed) {path : List String} {id : String}
    {held hs : List Holding} {p : Planning} {e : Element} {c : Class}
    (h : InOrder site.document (id :: path) (held ++ hs) p)
    (he : site.document.elements.get? id = some e) (hid : id ∉ path)
    (hc : ClassFor site (id :: path) e c hs) : InOrder site.document path held
      { p with classes := p.classes.insert (className e.name) c } where
  toOrderly := h.toOrderly.enter hd he rfl hid hc
  covered entry hentry := by
    rcases Table.mem_entries_insert hentry with rfl | hentry
    · intro e' he' r hr target ht htext
      obtain rfl : e = e' := Option.some.inj (he.symm.trans ((hd _ _ he ▸ hc.element) ▸ he'))
      obtain ⟨taken, taken', hs₁, hs₂, hs₃, rfl, helements, -, -⟩ := hc.slots
      obtain ⟨⟨direct, hmem⟩, hserves⟩ :=
        helements.accounts hd (List.Subset.refl _) hr (fun _ _ => List.not_mem_nil) target ht htext
      exact ⟨h.owners (by simpa using .inr (.inl hmem)), hserves⟩
    · exact h.covered entry hentry
  owners hmem := h.owners (List.mem_append_left _ hmem)

/-- **Planning goes on in order**, where a second owner of a name is an error. -/
theorem kept_inOrder {site : Site} (hd : site.document.Keyed) (hpolicy : site.policy = .error)
    (starts : List String) : Kept site starts (InOrder site.document)
      fun id e p => p.owners.get? (className e.name) = some id where
  tell _ hp := hp.of_same ⟨rfl, rfl⟩
  drop hp := ⟨hp.weaken (List.subset_append_left _ _), hp.covered,
    fun hmem => hp.owners (List.mem_append_left _ hmem)⟩
  take _ _ _ hp := (ensures_takeTypeName _ _).mono fun _ _ hs => by
    have hp' := hp.of_same hs
    refine ⟨hp'.hold fun h => (by cases h), hp'.covered, fun hmem => ?_⟩
    rcases List.mem_append.1 hmem with hmem | hmem
    · exact hp'.owners hmem
    · cases List.mem_singleton.1 hmem
  object {_ _ e _ _} boxable he hp hdone := by
    generalize className e.name = cls at hdone ⊢
    refine ⟨hp.toOrderly.object boxable fun _ => .inl hdone, hp.covered, fun hmem => ?_⟩
    rcases List.mem_append.1 hmem with hmem | hmem
    · exact hp.owners hmem
    · obtain ⟨rfl, rfl, -⟩ := Holding.object.inj (List.mem_singleton.1 hmem)
      exact hdone
  onPath he hmem hp := (hp.onPath hmem he trivial).1
  claim he _ _ hp hclaimed := by
    cases hclaimed with
    | free hnone =>
      refine ⟨fun _ => ⟨hp.begin he rfl fun _ => hnone, ?_, fun hmem => ?_⟩, fun h => by cases h⟩
      · intro entry hentry e' he' r hr target ht htext
        obtain ⟨ho, hserves⟩ := hp.covered entry hentry e' he' r hr target ht htext
        exact ⟨Table.get?_insert_of_free hnone ho, hserves⟩
      · exact Table.get?_insert_of_free hnone (hp.owners hmem)
    | own howned => exact ⟨fun h => (by cases h), fun _ => ⟨hp, howned⟩⟩
    | keep _ h | replace _ h | release _ h =>
      rw [hpolicy] at h
      cases h
  enter he hid _ hp hc := ⟨hp.enter hd he hid hc, (hp.onPath List.mem_cons_self he trivial).1⟩

theorem InOrder.start (d : Document) : InOrder d [] [] (Planning.start d) :=
  ⟨Orderly.start d _, fun _ h => (by cases h), fun h => by cases h⟩

/-! ## The types of the code -/

section
variable {c : Class} (runtime : String) (rt : Code.Units) {s : Slot}

theorem enumeration_mem_ownTypes (hs : s ∈ c.slots) {en : Enumeration}
    (hen : .enumeration en ∈ s.place.types) : en.name ∈ (Code.classOf runtime rt c).ownTypes := by
  have hmem : en ∈ c.enumerations := by
    refine List.mem_flatMap.2 ⟨s, ?_, List.mem_filterMap.2 ⟨_, hen, rfl⟩⟩
    simpa [Class.slots, or_assoc, or_comm, or_left_comm] using hs
  refine List.mem_append_left _ (List.mem_append_right _ ?_)
  exact List.mem_map.2 ⟨_, List.mem_map.2 ⟨en, hmem, rfl⟩, rfl⟩

theorem union_mem_ownTypes (hs : s ∈ c.elements) {union group : String}
    {as : List Alternative} (hplace : s.place = .choice union group as) :
    union ∈ (Code.classOf runtime rt c).ownTypes := by
  have hmem := mem_unions.2 ⟨s, hs, hplace⟩
  exact List.mem_append_right _ (List.mem_map.2 ⟨_, List.mem_map.2 ⟨_, hmem, rfl⟩, rfl⟩)

/-- Whether a class of the type can be told from types that are written around
    others. -/
def ValueType.Plain (type : ValueType) : Prop :=
  ∀ cls boxed, type = .object cls boxed → '<' ∉ cls.toList

theorem ValueType.direct_of_text (hs : s ∈ c.slots) {type : ValueType}
    (htype : type ∈ s.place.types) (hplain : type.Plain) {name : String}
    (hname : '<' ∉ name.toList) (hown : name ∉ (Code.classOf runtime rt c).ownTypes) :
    (type.text = name → type.direct? = some name) ∧
      (type.text = s!"Option<{name}>" → type.text ∈ (Code.classOf runtime rt c).ownTypes) := by
  cases type with
  | scalar t =>
    have hmem : scalarText t ∈ (Code.classOf runtime rt c).ownTypes := by
      rw [Code.Class.ownTypes]
      cases t <;> simp [scalarText]
    exact ⟨fun h => absurd (h ▸ hmem) hown, fun _ => hmem⟩
  | enumeration en =>
    have hmem := enumeration_mem_ownTypes runtime rt hs htype
    rw [ValueType.text]
    split
    · refine ⟨?_, fun h => absurd h (by simp [← String.toList_inj, toString])⟩
      rintro rfl
      exact absurd hname (by simp [toString])
    · exact ⟨fun h => absurd (h ▸ hmem) hown, fun _ => hmem⟩
  | object cls boxed =>
    cases boxed with
    | true =>
      refine ⟨?_, fun h => absurd h (by simp [ValueType.text, ← String.toList_inj, toString])⟩
      rintro rfl
      exact absurd hname (by simp [ValueType.text, toString])
    | false =>
      refine ⟨fun h => congrArg some h, fun h => ?_⟩
      exact absurd (hplain cls false rfl) (by simp [show cls = _ from h, toString])

theorem Slot.typeText_of_memberText {own : List String} {name : String}
    (hname : '<' ∉ name.toList) (hslot : s.memberText ∉ own)
    (h : s.memberText = name ∨ s.memberText = s!"Option<{name}>") :
    s.typeText = name ∧ s.cardinality ≠ .list ∨
      s.typeText = s!"Option<{name}>" ∧ s.typeText ∉ own := by
  cases hcard : s.cardinality with
  | one =>
    simp only [Slot.memberText, hcard] at hslot h
    exact h.imp (fun h => ⟨h, by decide⟩) fun h => ⟨h, hslot⟩
  | optional | list =>
    simp only [Slot.memberText, hcard] at h
    rcases h with rfl | h
    · exact absurd hname (by simp [toString])
    · simp_all [← String.toList_inj, toString]

theorem Slot.place_cases (s : Slot) :
    (∃ type, s.place.types = [type] ∧ s.typeText = type.text ∧
      s.direct = if s.cardinality = .list then [] else type.direct?.toList) ∨
    ∃ union group as, s.place = .choice union group as := by
  rw [Slot.typeText, Slot.direct]
  cases s.place with
  | attr _ type | text type | child _ type => exact .inl ⟨type, rfl, rfl, rfl⟩
  | choice union group as => exact .inr ⟨union, group, as, rfl⟩

theorem Typed.plain {path : List String} {label : String} {boxable : Bool} {target : Element}
    {type : ValueType} {hs : List Holding} (h : Typed path label boxable target type hs) :
    type.Plain := by
  rintro cls boxed rfl
  cases h with
  | text _ hscalar => cases hscalar
  | object _ hcls => exact hcls ▸ Code.className_plain _

theorem ScalarTyped.plain {label : String} {dataType : Option DataType} {facet : Option Facet}
    {type : ValueType} {hs : List Holding} (h : ScalarTyped label dataType facet type hs) :
    type.Plain := by
  rintro cls boxed rfl
  cases h

end

section
variable {site : Site} {path : List String} {e : Element} {c : Class} {hs : List Holding}
  (h : ClassFor site path e c hs) {s : Slot}
include h

theorem ClassFor.plain (hs : s ∈ c.slots) : (∀ type ∈ s.place.types, type.Plain) ∧
    (s ∉ c.elements → s.direct = [] ∧ ∀ union group as, s.place ≠ .choice union group as) := by
  obtain ⟨_, _, _, _, _, -, helements, hattributes, htext⟩ := h.slots
  rcases List.mem_append.1 hs with hs | hs
  · rcases List.mem_append.1 hs with hs | hs
    · obtain ⟨_, -, _, _, _, -, hslot⟩ := hattributes.exists_relation hs
      obtain ⟨type, hplace, htyped⟩ := hslot.place
      rw [Slot.direct, hplace]
      exact ⟨List.forall_mem_singleton.2 htyped.plain,
        fun _ => ⟨by simp [htyped.direct?_eq_none], fun _ _ _ => Place.noConfusion⟩⟩
    · generalize c.text = text at htext hs
      cases htext with
      | none => cases hs
      | @some type _ _ _ _ htyped =>
        rw [List.mem_singleton.1 hs]
        exact ⟨List.forall_mem_singleton.2 htyped.plain,
          fun _ => ⟨by simp [Slot.direct, htyped.direct?_eq_none], fun _ _ _ => Place.noConfusion⟩⟩
  · refine ⟨?_, fun hno => absurd hs hno⟩
    cases helements.slotFor hs with
    | child _ _ _ hslot =>
      obtain ⟨type, hplace, htyped⟩ := hslot.place
      rw [hplace]
      exact List.forall_mem_singleton.2 htyped.plain
    | choice hslot =>
      obtain ⟨union, as, _, hplace, -, has⟩ := hslot.place
      rw [hplace]
      refine List.forall_mem_map.2 fun a ha => ?_
      rcases has.exists_relation ha with hnil | ⟨_, -, _, _, _, -, -, -, htyped, -⟩
      · cases hnil
      · exact htyped.plain

/-- **A class holds only what its slots hold directly.** -/
theorem ClassFor.direct_of_holds {runtime name : String} {rt : Code.Units}
    (hname : '<' ∉ name.toList) (hholds : (Code.classOf runtime rt c).Holds name) :
    name ∈ c.direct := by
  obtain ⟨hown, text, htext, hnot, heq⟩ := hholds
  have hdirect := fun {s} (hs : s ∈ c.slots) {type} (htype : type ∈ s.place.types) =>
    ValueType.direct_of_text runtime rt hs htype ((h.plain hs).1 type htype) hname hown
  rcases List.mem_append.1 htext with htext | htext
  · obtain ⟨_, hm, rfl⟩ := List.mem_map.1 htext
    obtain ⟨s, hs, rfl⟩ := List.mem_map.1 hm
    have htyped := Slot.typeText_of_memberText hname hnot heq
    rcases s.place_cases with ⟨type, htypes, htext, hslot⟩ | ⟨union, group, as, hplace⟩
    · rw [htext] at htyped
      obtain ⟨hname', hoption⟩ := hdirect hs (htypes ▸ List.mem_singleton_self type)
      rcases htyped with ⟨htyped, hlist⟩ | ⟨htyped, hno⟩
      · have hmem : name ∈ s.direct := by simp [hslot, hlist, hname' htyped]
        by_cases hs' : s ∈ c.elements
        · exact List.mem_flatMap.2 ⟨s, hs', hmem⟩
        · rw [((h.plain hs).2 hs').1] at hmem
          cases hmem
      · exact absurd (hoption htyped) hno
    · have hs' : s ∈ c.elements := by
        by_contra hs'
        exact ((h.plain hs).2 hs').2 _ _ _ hplace
      have hunion := union_mem_ownTypes runtime rt hs' hplace
      rw [Slot.typeText, hplace] at htyped
      rcases htyped with ⟨rfl, -⟩ | ⟨-, hno⟩
      · exact absurd hunion hown
      · exact absurd hunion hno
  · obtain ⟨_, hu, htext⟩ := List.mem_flatMap.1 htext
    obtain ⟨x, hx, rfl⟩ := List.mem_map.1 hu
    obtain ⟨s, hs, hplace⟩ := mem_unions.1 hx
    obtain ⟨_, hv, rfl⟩ := List.mem_map.1 htext
    obtain ⟨a, ha, rfl⟩ := List.mem_map.1 hv
    have htype : a.type ∈ s.place.types := hplace ▸ List.mem_map.2 ⟨a, ha, rfl⟩
    rcases heq with heq | heq
    · refine List.mem_flatMap.2 ⟨s, hs, ?_⟩
      rw [Slot.direct, hplace]
      exact List.mem_filterMap.2 ⟨a, ha, (hdirect (List.mem_append_right _ hs) htype).1 heq⟩
    · exact absurd ((hdirect (List.mem_append_right _ hs) htype).2 heq) hnot

end

/-! ## Generated files -/

/-- Whether values of `b` stand in those of `a` themselves. -/
def Contains (classes : List Code.Class) (b a : Code.Class) : Prop :=
  b ∈ classes ∧ a ∈ classes ∧ a.Holds b.name

theorem Orderly.idxOf_lt {d : Document} {Q : String → Prop} {path : List String}
    {held : List Holding} {p : Planning} (h : Orderly d Q path held p) {c : Class} {name : String}
    (hc : c ∈ p.classes.values) (hdirect : name ∈ c.direct) (hname : Q name) (hclass : Q c.name) :
    p.classes.keys.idxOf name < p.classes.keys.idxOf c.name := by
  obtain ⟨entry, hentry, rfl⟩ := List.mem_map.1 hc
  rw [h.named entry hentry] at hclass ⊢
  exact h.before entry hentry hclass _ hdirect hname

/-- What the code of planned classes contains is held directly by their slots. -/
theorem Contains.exists_direct {classes : List Class} {runtime : String} {rt : Code.Units}
    {b a : Code.Class} (h : Contains (classes.map (Code.classOf runtime rt)) b a) {site : Site}
    (hok : (plan site).1 = .ok classes) (hd : site.document.Keyed) :
    ∃ c ∈ classes, c.name = a.name ∧ b.name ∈ c.direct := by
  obtain ⟨hb, ha, hholds⟩ := h
  obtain ⟨b', hb', rfl⟩ := List.mem_map.1 hb
  obtain ⟨a', ha', rfl⟩ := List.mem_map.1 ha
  obtain ⟨_, _, _, _, -, hfor⟩ := plan_faithful hd hok ha'
  obtain ⟨_, _, _, _, -, hfor'⟩ := plan_faithful hd hok hb'
  have hname : '<' ∉ b'.name.toList := hfor'.name ▸ Code.className_plain _
  exact ⟨a', ha', rfl, hfor.direct_of_holds hname hholds⟩

/-- Whether the relations of the element of `c` to elements that become classes
    are accounted for: those classes are there, and a slot of `c` and its code `k`
    refer to each of them. -/
def RelationsServed (d : Document) (classes : List Class) (c : Class) (k : Code.Class) : Prop :=
  ∃ e, d.elements.get? c.element = some e ∧ c.name = className e.name ∧
    ∀ r ∈ e.elementRelations, ∀ target, d.elements.get? r.target = some target →
      (target.isTextOnly = false ∨ r.target ∈ d.roots →
        ∃ c' ∈ classes, c'.element = r.target ∧ c'.name = className target.name) ∧
      (target.isTextOnly = false → k.Refers r (className target.name) ∧
        ∃ s ∈ c.elements, ∃ boxed, s.Serves r target.name (className target.name) boxed)

section
variable {d : Document} {held : List Holding} {p : Planning}

theorem InOrder.exists_class (h : InOrder d [] held p) {name id : String}
    (ho : p.owners.get? name = some id) :
    ∃ c ∈ p.classes.values, c.element = id ∧ c.name = name := by
  obtain ⟨entry, hentry, hkey⟩ := List.mem_map.1 (h.made ho trivial List.not_mem_nil)
  have ho' := h.owned entry hentry trivial
  rw [hkey, ho] at ho'
  exact ⟨entry.2, List.mem_map.2 ⟨entry, hentry, rfl⟩, (Option.some.inj ho').symm,
    (h.named entry hentry).trans hkey⟩

theorem InOrder.exists_element {path : List String} (h : InOrder d path held p) {c : Class}
    (hc : c ∈ p.classes.values) :
    ∃ e, d.elements.get? c.element = some e ∧ c.name = className e.name := by
  obtain ⟨entry, hentry, rfl⟩ := List.mem_map.1 hc
  obtain ⟨e, he, hclass⟩ := h.owner (h.owned entry hentry trivial)
  exact ⟨e, he, (h.named entry hentry).trans hclass.symm⟩

theorem InOrder.relationsServed (h : InOrder d [] (Kept.rootHoldings d d.roots) p) {c : Class}
    (hc : c ∈ p.classes.values) (runtime : String) (rt : Code.Units) :
    RelationsServed d p.classes.values c (Code.classOf runtime rt c) := by
  obtain ⟨e, he, hclass⟩ := h.exists_element hc
  obtain ⟨entry, hentry, rfl⟩ := List.mem_map.1 hc
  refine ⟨e, he, hclass, fun r hr target ht => ⟨?_, fun htext => ?_⟩⟩
  · rintro (htext | hroot)
    · exact h.exists_class (h.covered entry hentry e he r hr target ht htext).1
    · have hmem : Holding.object r.target (className target.name) false ∈
          Kept.rootHoldings d d.roots := List.mem_filterMap.2 ⟨r.target, hroot, by simp [ht]⟩
      exact h.exists_class (h.owners hmem)
  · obtain ⟨s, hs, boxed, hserves⟩ := (h.covered entry hentry e he r hr target ht htext).2
    exact ⟨hserves.refers hs, s, hs, boxed, hserves⟩

end

theorem mem_before {before after : List Code.Class} {b c : Code.Class}
    (hnodup : ((before ++ c :: after).map (·.name)).Nodup) (hb : b ∈ before ++ c :: after)
    (hlt : ((before ++ c :: after).map (·.name)).idxOf b.name <
      ((before ++ c :: after).map (·.name)).idxOf c.name) : b ∈ before := by
  rcases List.mem_append.1 hb with hb | hb
  · exact hb
  · rw [List.map_append] at hnodup hlt
    have hlater : ∀ x ∈ c :: after, x.name ∉ before.map (·.name) := fun x hx hmem =>
      List.disjoint_of_nodup_append hnodup hmem (List.mem_map.2 ⟨x, hx, rfl⟩)
    rw [List.idxOf_append_of_notMem (hlater b hb),
      List.idxOf_append_of_notMem (hlater c List.mem_cons_self), List.map_cons,
      List.idxOf_cons_self] at hlt
    omega

/-- **Classes come after what they contain.**  Where a second owner of a class
    name is an error, the classes of a generated file are the code of those of the
    plan, in order: every relation of an element to one that becomes a class is
    served, every class that the type of a member or a variant holds, neither in a
    box nor in a list, stands strictly before the class of that type, and what is
    held so comes to an end after finitely many steps, without a cycle. -/
theorem generate_inOrder {d : Document} (hd : d.Keyed) {o : Code.Options}
    (hpolicy : o.policy = .error) {file : Code.File} (hok : (Code.generate d o).1 = .ok file) :
    ∃ rt classes, (plan (o.site d)).1 = .ok classes ∧ file = Code.fileOf o rt d classes ∧
      (file.classes.map (·.name)).Nodup ∧
      (∀ c ∈ classes, RelationsServed d classes c (Code.classOf o.runtime rt c)) ∧
      (∀ before c after, file.classes = before ++ c :: after →
        ∀ b ∈ file.classes, c.Holds b.name → b ∈ before) ∧
      WellFounded (Contains file.classes) ∧
      ∀ c, ¬ Relation.TransGen (Contains file.classes) c c := by
  obtain ⟨rt, classes, -, hplan, rfl⟩ := exists_plan hok
  have hkept : Kept (o.site d) d.roots (InOrder d)
      fun id e p => p.owners.get? (className e.name) = some id := kept_inOrder hd hpolicy _
  obtain ⟨p, rfl, hp⟩ := hkept.plan hd (InOrder.start d) hplan
  refine ⟨rt, p.classes.values, hplan, rfl, ?_⟩
  generalize hcode : (Code.fileOf o rt d p.classes.values).classes = code
  have hkeys : code.map (·.name) = p.classes.keys := by
    rw [← hcode, Code.fileOf, List.map_map]
    exact map_name_values hp.named
  have hlt : ∀ {b a}, Contains code b a →
      (code.map (·.name)).idxOf b.name < (code.map (·.name)).idxOf a.name := by
    intro b a h
    rw [← hcode] at h
    obtain ⟨c, hc, hname, hdirect⟩ := Contains.exists_direct h hplan hd
    rw [hkeys, ← hname]
    exact hp.idxOf_lt hc hdirect trivial trivial
  have hwf : WellFounded (Contains code) :=
    Subrelation.wf (r := InvImage (· < ·) fun c : Code.Class => (code.map (·.name)).idxOf c.name)
      hlt (InvImage.wf _ Nat.lt_wfRel.wf)
  have hnodup : (code.map (·.name)).Nodup := hkeys ▸ hp.keys
  refine ⟨hnodup, fun c hc => hp.relationsServed hc _ _, ?_, hwf, fun c hcycle => ?_⟩
  · rintro before c after rfl b hb hholds
    exact mem_before hnodup hb (hlt ⟨hb, List.mem_append_right _ List.mem_cons_self, hholds⟩)
  · exact hwf.transGen.irrefl.irrefl c hcycle

/-- Novels: a head, and chapters that hold notes and chapters in a choice and
    may lead back to a novel. -/
def novelDocument : Document :=
  { roots := ["novel"]
    elements := ⟨[
      ("novel", {
        identifier := "novel", name := "novel"
        elementRelations := [{ target := "head" },
          { target := "chapter", occurs := { max := .unbounded } }] }),
      ("head", {
        identifier := "head", name := "head", attributeRelations := [{ target := "head@title" }] }),
      ("chapter", {
        identifier := "chapter", name := "chapter"
        elementRelations := [{ target := "note", choice := some "note+chapter" },
          { target := "chapter", choice := some "note+chapter" },
          { target := "novel", occurs := { min := 0 } }] }),
      ("note", {
        identifier := "note", name := "note", text := true
        attributeRelations := [{ target := "note@by" }] })]⟩
    attributes := ⟨[
      ("head@title", { identifier := "head@title", name := "title" }),
      ("note@by", { identifier := "note@by", name := "by" })]⟩ }

set_option maxRecDepth 10000 in
theorem novel_inOrder : novelDocument.Keyed ∧
    ∃ file, (Code.generate novelDocument { policy := .error }).1 = .ok file ∧
      file.classes.map (fun c => (c.name, c.types)) =
        [("Head", ["String"]), ("Note", ["String", "String"]),
          ("Chapter", ["Option<ChapterChoice>", "Option<Box<Novel>>", "Note", "Box<Chapter>"]),
          ("Novel", ["Head", "Vec<Chapter>"])] ∧
      ∃ rt classes,
        (plan (Code.Options.site { policy := .error } novelDocument)).1 = .ok classes ∧
        file = Code.fileOf { policy := .error } rt novelDocument classes ∧
        (file.classes.map (·.name)).Nodup ∧
        (∀ c ∈ classes, RelationsServed novelDocument classes c (Code.classOf "sb_builtins" rt c)) ∧
        (∀ before c after, file.classes = before ++ c :: after →
          ∀ b ∈ file.classes, c.Holds b.name → b ∈ before) ∧
        WellFounded (Contains file.classes) ∧
        ∀ c, ¬ Relation.TransGen (Contains file.classes) c c := by
  have hkeyed : novelDocument.Keyed := Document.keyed_of_entries (by decide)
  exact ⟨hkeyed, exists_file (by decide +kernel) fun _ hok _ => generate_inOrder hkeyed rfl hok⟩

end Binding

end Bindery
