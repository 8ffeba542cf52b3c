/-
  What reading sees of an element.

  The values that are read from an element are deliveries, each to the field of
  one slot.  Fields do not mix, so what comes out depends on the deliveries to
  each field alone, and these on the attributes and child elements with the
  names of its slot.

  * `Delivery`, `deliveries`: the values read from an element, and where they
    go;
  * `readObject_eq_ok_iff`: what is read from an element is all that is
    delivered;
  * `SeesAlike`, `Overlooks`: elements that do not differ in what a class has
    slots for, and single changes to what it has none for;
  * `reading_sees_slots`: such elements are read as the same value, or refused.
-/
import Mathlib.Logic.Relation
import Bindery.Proofs.Instance.RoundTrip

namespace Bindery.Markup

/-! ## Nodes without namespaces -/

mutual

def Node.bare : Node → Node
  | .element head children =>
    .element { name := head.name
               attributes := head.attributes.map fun a => { name := a.name, value := a.value } }
      (bareAll children)
  | .text content => .text content
  | .comment content => .comment content
  | .instruction => .instruction

def bareAll : List Node → List Node
  | [] => []
  | n :: ns => n.bare :: bareAll ns

end

namespace Node

@[simp]
theorem isElement_bare (n : Node) : n.bare.isElement = n.isElement := by
  cases n <;> rfl

@[simp]
theorem name_bare (n : Node) : n.bare.name = n.name := by
  cases n <;> rfl

theorem joinTexts_bareAll (acc : String) : ∀ ns : List Node,
    joinTexts acc (bareAll ns) = joinTexts acc ns
  | [] => rfl
  | .text t :: ns => joinTexts_bareAll (acc ++ t) ns
  | .element _ _ :: ns | .comment _ :: ns | .instruction :: ns => joinTexts_bareAll acc ns

@[simp]
theorem textContent_bare (n : Node) : n.bare.textContent = n.textContent := by
  cases n with
  | element head children => exact joinTexts_bareAll "" children
  | text | comment | instruction => rfl

end Node

end Bindery.Markup

namespace Bindery.Instance

open Binding Markup

/-! ## Deliveries -/

/-- A value that is read, and the slot that it goes to. -/
structure Delivery where
  index : Nat
  slot : Slot
  value : Except ReadError Datum

/-- The fields after a delivery, which fails if the value could not be read. -/
def Delivery.put (fields : List Datum) (d : Delivery) : Except ReadError (List Datum) := do
  let value ← d.value
  .ok (putField d.index d.slot value fields)

def Delivery.onto (d : Delivery) (old : Datum) : Datum :=
  (d.value.toOption.map (assigned d.slot old)).getD old

def attributeDelivery (slots : List Slot) (a : Attribute) : Option Delivery :=
  (findSlot (attributeType? a.name) slots).map fun (i, s, type) => ⟨i, s, readValue type a.value⟩

def textDelivery (slots : List Slot) (text : String) : Option Delivery :=
  (findSlot textType? slots).map fun (i, s, type) => ⟨i, s, readValue type text⟩

def childDelivery (cs : Classes) (slots : List Slot) (n : Node) : Option Delivery :=
  if n.isElement then
    (findSlot (childType? n.name) slots).map fun (i, s, type, alternative) =>
      ⟨i, s, (readChild cs type n).map (asAlternative alternative)⟩
  else none

def deliveries (cs : Classes) (slots : List Slot) (n : Node) : List Delivery :=
  n.attributes.filterMap (attributeDelivery slots) ++ (textDelivery slots n.textContent).toList ++
    n.children.filterMap (childDelivery cs slots)

section
variable {cs : Classes} {slots : List Slot}

theorem readAttributes_eq (fields : List Datum) (as : List Attribute) :
    readAttributes slots fields as =
      (as.filterMap (attributeDelivery slots)).foldlM Delivery.put fields := by
  induction as generalizing fields with
  | nil => rfl
  | cons a as ih =>
    rw [readAttributes, List.filterMap_cons, attributeDelivery]
    cases findSlot (attributeType? a.name) slots with
    | none => exact ih fields
    | some found =>
      obtain ⟨i, s, type⟩ := found
      simp only [Option.map_some, List.foldlM_cons, Delivery.put]
      cases readValue type a.value with
      | error e => rfl
      | ok v => exact ih _

theorem readText_deliver (fields : List Datum) (text : String) :
    readText slots fields text = (textDelivery slots text).toList.foldlM Delivery.put fields := by
  rw [readText_eq, textDelivery]
  cases findSlot textType? slots with
  | none => rfl
  | some found =>
    obtain ⟨i, s, type⟩ := found
    simp only [Option.map_some, Option.toList_some, List.foldlM_cons, Delivery.put]
    cases readValue type text <;> rfl

theorem readChildren_eq (fields : List Datum) (ns : List Node) :
    readChildren cs slots fields ns =
      (ns.filterMap (childDelivery cs slots)).foldlM Delivery.put fields := by
  induction ns generalizing fields with
  | nil => rw [readChildren]; rfl
  | cons n ns ih =>
    rw [List.filterMap_cons, childDelivery]
    cases hn : n.isElement with
    | false =>
      rw [readChildren_skip hn]
      exact ih fields
    | true =>
      cases hfind : findSlot (childType? n.name) slots with
      | none =>
        rw [readChildren, if_pos hn, hfind]
        exact ih fields
      | some found =>
        obtain ⟨i, s, type, alternative⟩ := found
        rw [readChildren_cons hn hfind]
        simp only [if_true, Option.map_some, List.foldlM_cons, Delivery.put]
        cases readChild cs type n with
        | error e => rfl
        | ok v => exact ih _

theorem readObject_eq {name : String} {c : Binding.Class} (hget : cs.get? name = some c)
    {n : Node} (hn : n.isElement = true) :
    readObject cs name n = (do
      expectElement n c.tag
      let fields ← (deliveries cs c.slots n).foldlM Delivery.put
        (c.slots.map (initialField (initialObject cs [name])))
      .ok (.object name fields)) := by
  cases n with
  | text | comment | instruction => cases hn
  | element head children =>
    rw [readObject, hget]
    simp only [readAttributes_eq, readText_deliver, readChildren_eq, deliveries,
      List.foldlM_append, bind_assoc]
    rfl

end

/-! ## Fields -/

theorem Delivery.onto_of_ok {d : Delivery} {v : Datum} (h : d.value = .ok v) (old : Datum) :
    d.onto old = assigned d.slot old v := by
  rw [Delivery.onto, h]
  rfl

theorem toOption_foldlM_put (ds : List Delivery) (fields : List Datum) :
    (ds.foldlM Delivery.put fields).toOption =
      if ∀ d ∈ ds, d.value.toOption.isSome = true then
        some (fields.mapIdx fun i old => (ds.filter (·.index == i)).foldl (fun old d => d.onto old) old)
      else none := by
  induction ds generalizing fields with
  | nil =>
    rw [if_pos (List.forall_mem_nil _)]
    refine congrArg some (List.ext_getElem? fun i => ?_)
    simp
  | cons d ds ih =>
    rw [List.foldlM_cons, Delivery.put]
    cases hd : d.value with
    | error e =>
      rw [if_neg]
      · rfl
      · intro hall
        have hfirst := hall d List.mem_cons_self
        rw [hd] at hfirst
        cases hfirst
    | ok v =>
      refine (ih (putField d.index d.slot v fields)).trans ?_
      have hsome : (∀ d' ∈ d :: ds, d'.value.toOption.isSome = true) ↔
          ∀ d' ∈ ds, d'.value.toOption.isSome = true := by
        rw [List.forall_mem_cons, hd]
        exact and_iff_right rfl
      simp only [hsome]
      congr 2
      refine List.ext_getElem? fun i => ?_
      rw [putField, List.getElem?_mapIdx, List.getElem?_mapIdx, List.getElem?_modify,
        List.filter_cons]
      by_cases hi : d.index = i
      · simp only [hi, beq_self_eq_true, if_true, List.foldl_cons, Delivery.onto_of_ok hd,
          Option.map_eq_map, Option.map_map, Function.comp_def]
      · simp [hi]

/-- The fields of an object of the class, with all that is delivered from an
    element. -/
def delivered (cs : Classes) (c : Binding.Class) (n : Node) : List Datum :=
  (c.slots.map (initialField (initialObject cs [c.name]))).mapIdx fun i old =>
    ((deliveries cs c.slots n).filter (·.index == i)).foldl (fun old d => d.onto old) old

/-- **What is read from an element** is all that is delivered, if its tag is that
    of the class and every value can be read. -/
theorem readObject_eq_ok_iff {cs : Classes} {c : Binding.Class}
    (hget : cs.get? c.name = some c) {n : Node} (hn : n.isElement = true) {v : Datum} :
    readObject cs c.name n = .ok v ↔ n.name = c.tag ∧
      (∀ d ∈ deliveries cs c.slots n, d.value.toOption.isSome = true) ∧
      v = .object c.name (delivered cs c n) := by
  have hput := toOption_foldlM_put (deliveries cs c.slots n)
    (c.slots.map (initialField (initialObject cs [c.name])))
  rw [readObject_eq hget hn, expectElement, hn, Bool.true_and]
  by_cases hname : n.name = c.tag
  · simp only [hname, beq_self_eq_true, if_true, true_and]
    cases hfold : (deliveries cs c.slots n).foldlM Delivery.put
        (c.slots.map (initialField (initialObject cs [c.name]))) with
    | error e =>
      rw [hfold] at hput
      refine ⟨fun h => (by cases h), fun h => ?_⟩
      rw [if_pos h.1] at hput
      cases hput
    | ok fields =>
      rw [hfold] at hput
      split at hput
      · rename_i hall
        obtain rfl := Option.some.inj hput
        exact ⟨fun h => ⟨hall, (Except.ok.inj h).symm⟩, fun h => by rw [h.2]; rfl⟩
      · cases hput
  · simp only [beq_eq_false_iff_ne.2 hname, hname, false_and, iff_false]
    intro h
    cases h

theorem deliveries_congr {ds ds' : List Delivery}
    (h : ∀ i, ds.filter (·.index == i) = ds'.filter (·.index == i)) (fields : List Datum) :
    (ds.foldlM Delivery.put fields).toOption = (ds'.foldlM Delivery.put fields).toOption := by
  have hmem : ∀ d, d ∈ ds ↔ d ∈ ds' := by
    intro d
    have hd : d ∈ ds.filter (·.index == d.index) ↔ d ∈ ds'.filter (·.index == d.index) := by
      rw [h]
    simpa using hd
  rw [toOption_foldlM_put, toOption_foldlM_put]
  simp only [h, hmem]

/-! ## What a slot gets -/

theorem filter_filterMap_eq {α β γ : Type} {f : α → Option β} {p : β → Bool} {q : α → Bool}
    {k : α → γ} {g : γ → Option β} (hq : ∀ x y, f x = some y → p y = true → q x = true)
    (hg : ∀ x, q x = true → f x = g (k x)) (l : List α) :
    (l.filterMap f).filter p = (((l.filter q).map k).filterMap g).filter p := by
  induction l with
  | nil => rfl
  | cons x l ih =>
    rw [List.filterMap_cons, List.filter_cons]
    by_cases hx : q x = true
    · rw [if_pos hx, List.map_cons, List.filterMap_cons, ← hg x hx]
      cases f x with
      | none => exact ih
      | some y =>
        simp only [List.filter_cons]
        rw [ih]
    · rw [if_neg hx]
      cases hf : f x with
      | none => exact ih
      | some y =>
        simp only [List.filter_cons]
        rw [if_neg fun hp => hx (hq x y hf hp), ih]

section
variable {cs : Classes}

theorem readAttributes_bare {slots : List Slot} (fields : List Datum) (as : List Attribute) :
    readAttributes slots fields (as.map fun a => { name := a.name, value := a.value }) =
      readAttributes slots fields as := by
  rw [readAttributes_eq, readAttributes_eq, List.filterMap_map]
  rfl

mutual

theorem readObject_bare (name : String) : ∀ n : Node,
    readObject cs name n.bare = readObject cs name n
  | .element head children => by
    have hchildren := fun slots fields => readChildren_bare slots children fields
    have htext := (Node.element head children).textContent_bare
    rw [Node.bare] at htext ⊢
    rw [readObject, readObject]
    simp only [readAttributes_bare, hchildren, htext, expectElement, Node.isElement, Node.name]
    rfl
  | .text _ | .comment _ | .instruction => rfl

theorem readChildren_bare (slots : List Slot) : ∀ (ns : List Node) (fields : List Datum),
    readChildren cs slots fields (bareAll ns) = readChildren cs slots fields ns
  | [], fields => rfl
  | n :: ns, fields => by
    rw [bareAll, readChildren, readChildren]
    simp only [Node.isElement_bare, Node.name_bare, Node.textContent_bare, readObject_bare _ n,
      readChildren_bare slots ns]

end

theorem childDelivery_bare (slots : List Slot) (n : Node) :
    childDelivery cs slots n.bare = childDelivery cs slots n := by
  have hread : ∀ type, readChild cs type n.bare = readChild cs type n := by
    intro type
    cases type with
    | object name boxed => exact readObject_bare name n
    | scalar t => exact congrArg (readValue (.scalar t)) n.textContent_bare
    | enumeration e => exact congrArg (readValue (.enumeration e)) n.textContent_bare
  simp only [childDelivery, Node.isElement_bare, Node.name_bare, hread]

/-! ## Elements that are seen alike -/

/-- Whether a child goes to the slot: it is an element, and has its tag or one of
    its tags. -/
def takes (s : Slot) (n : Node) : Bool := n.isElement && (s.children.map (·.1)).contains n.name

/-- **Whether two elements do not differ in what a class has slots for**: their
    tags and texts, the values of the attributes of each slot, and the child
    elements of each slot, but for namespaces. -/
structure SeesAlike (c : Binding.Class) (n m : Node) : Prop where
  elements : n.isElement = true ∧ m.isElement = true
  name : n.name = m.name
  text : n.textContent = m.textContent
  attributes : ∀ s ∈ c.slots, ∀ tag ∈ s.attributeTags,
    (n.attributes.filter (·.name == tag)).map (·.value) =
      (m.attributes.filter (·.name == tag)).map (·.value)
  children : ∀ s ∈ c.slots,
    (n.children.filter (takes s)).map Node.bare = (m.children.filter (takes s)).map Node.bare

section
variable {slots : List Slot} {i : Nat} {s : Slot}

theorem attributeTags_cases (s : Slot) :
    s.attributeTags = [] ∨ ∃ tag, s.attributeTags = [tag] := by
  rw [Slot.attributeTags]
  cases s.place with
  | attr tag type => exact .inr ⟨tag, rfl⟩
  | text | child | choice => exact .inl rfl

theorem tag_of_attributeDelivery (h : slots[i]? = some s) {a : Attribute} {d : Delivery}
    (hd : attributeDelivery slots a = some d) (hindex : d.index = i) :
    a.name ∈ s.attributeTags := by
  obtain ⟨⟨j, t, type⟩, hfind, rfl⟩ := Option.map_eq_some_iff.1 hd
  obtain ⟨hslot, htype⟩ := findSlot_eq_some hfind
  obtain rfl : j = i := hindex
  obtain rfl : t = s := Option.some.inj (hslot.symm.trans h)
  by_contra hout
  rw [attributeType?_none hout] at htype
  cases htype

theorem isSome_of_textDelivery (h : slots[i]? = some s) {text : String} {d : Delivery}
    (hd : textDelivery slots text = some d) (hindex : d.index = i) :
    (textType? s).isSome = true := by
  obtain ⟨⟨j, t, type⟩, hfind, rfl⟩ := Option.map_eq_some_iff.1 hd
  obtain ⟨hslot, htype⟩ := findSlot_eq_some hfind
  obtain rfl : j = i := hindex
  obtain rfl : t = s := Option.some.inj (hslot.symm.trans h)
  rw [htype]
  rfl

theorem takes_of_childDelivery (h : slots[i]? = some s) {n : Node} {d : Delivery}
    (hd : childDelivery cs slots n = some d) (hindex : d.index = i) : takes s n = true := by
  rw [childDelivery] at hd
  split at hd
  · rename_i hn
    obtain ⟨⟨j, t, type, alternative⟩, hfind, rfl⟩ := Option.map_eq_some_iff.1 hd
    obtain ⟨hslot, htype⟩ := findSlot_eq_some hfind
    obtain rfl : j = i := hindex
    obtain rfl : t = s := Option.some.inj (hslot.symm.trans h)
    rw [takes, hn, Bool.true_and, List.contains_iff_mem]
    by_contra hout
    rw [childType?_none hout] at htype
    cases htype
  · cases hd

theorem attributes_at (h : slots[i]? = some s) {as bs : List Attribute}
    (hvalues : ∀ tag ∈ s.attributeTags,
      (as.filter (·.name == tag)).map (·.value) = (bs.filter (·.name == tag)).map (·.value)) :
    (as.filterMap (attributeDelivery slots)).filter (·.index == i) =
      (bs.filterMap (attributeDelivery slots)).filter (·.index == i) := by
  have hfound : ∀ a d, attributeDelivery slots a = some d → (d.index == i) = true →
      a.name ∈ s.attributeTags := fun _ _ hd hindex =>
    tag_of_attributeDelivery h hd (beq_iff_eq.1 hindex)
  rcases attributeTags_cases s with hnone | ⟨tag, htag⟩
  · have hempty : ∀ as : List Attribute,
        (as.filterMap (attributeDelivery slots)).filter (·.index == i) = [] := by
      intro as
      refine List.filter_eq_nil_iff.2 fun d hd hindex => ?_
      obtain ⟨a, -, ha⟩ := List.mem_filterMap.1 hd
      exact List.not_mem_nil (hnone ▸ hfound a d ha hindex)
    rw [hempty, hempty]
  · have hname : ∀ a d, attributeDelivery slots a = some d → (d.index == i) = true →
        (a.name == tag) = true := fun a d hd hindex =>
      beq_iff_eq.2 (List.mem_singleton.1 (htag ▸ hfound a d hd hindex))
    obtain ⟨g, hg⟩ : ∃ g : String → Option Delivery,
        ∀ value, g value = attributeDelivery slots { name := tag, value } := ⟨_, fun _ => rfl⟩
    have hvalue : ∀ a : Attribute, (a.name == tag) = true →
        attributeDelivery slots a = g a.value := by
      intro a ha
      rw [hg, ← beq_iff_eq.1 ha]
      rfl
    have hslot := filter_filterMap_eq hname hvalue
    rw [hslot as, hslot bs, hvalues tag (htag ▸ List.mem_singleton_self tag)]

theorem children_at (h : slots[i]? = some s) {ns ms : List Node}
    (hchildren : (ns.filter (takes s)).map Node.bare = (ms.filter (takes s)).map Node.bare) :
    (ns.filterMap (childDelivery cs slots)).filter (·.index == i) =
      (ms.filterMap (childDelivery cs slots)).filter (·.index == i) := by
  have hfound : ∀ n d, childDelivery cs slots n = some d → (d.index == i) = true →
      takes s n = true := fun _ _ hd hindex => takes_of_childDelivery h hd (beq_iff_eq.1 hindex)
  have hbare : ∀ n, takes s n = true → childDelivery cs slots n = childDelivery cs slots n.bare :=
    fun n _ => (childDelivery_bare slots n).symm
  have hslot := filter_filterMap_eq hfound hbare
  rw [hslot ns, hslot ms, hchildren]

theorem slot_of_mem_deliveries {n : Node} {d : Delivery} (h : d ∈ deliveries cs slots n) :
    slots[d.index]? = some d.slot := by
  rw [deliveries, List.mem_append, List.mem_append] at h
  rcases h with (h | h) | h
  · obtain ⟨a, -, hd⟩ := List.mem_filterMap.1 h
    obtain ⟨found, hfind, rfl⟩ := Option.map_eq_some_iff.1 hd
    exact (findSlot_eq_some hfind).1
  · obtain ⟨found, hfind, rfl⟩ := Option.map_eq_some_iff.1 (Option.mem_toList.1 h)
    exact (findSlot_eq_some hfind).1
  · obtain ⟨k, -, hd⟩ := List.mem_filterMap.1 h
    rw [childDelivery] at hd
    split at hd
    · obtain ⟨found, hfind, rfl⟩ := Option.map_eq_some_iff.1 hd
      exact (findSlot_eq_some hfind).1
    · cases hd

theorem SeesAlike.deliveries_at {c : Binding.Class} {n m : Node} (h : SeesAlike c n m) (i : Nat) :
    (deliveries cs c.slots n).filter (·.index == i) =
      (deliveries cs c.slots m).filter (·.index == i) := by
  cases hi : c.slots[i]? with
  | none =>
    have hnone : ∀ n, (deliveries cs c.slots n).filter (·.index == i) = [] := by
      intro n
      refine List.filter_eq_nil_iff.2 fun d hd hindex => ?_
      rw [← beq_iff_eq.1 hindex, slot_of_mem_deliveries hd] at hi
      cases hi
    rw [hnone, hnone]
  | some s =>
    have hs := List.mem_of_getElem? hi
    rw [deliveries, deliveries, List.filter_append, List.filter_append, List.filter_append,
      List.filter_append, attributes_at hi (h.attributes s hs), h.text,
      children_at hi (h.children s hs)]

/-- **Elements that are seen alike** are read as the same value, or refused. -/
theorem SeesAlike.readObject {name : String} {c : Binding.Class} (hget : cs.get? name = some c)
    {n m : Node} (h : SeesAlike c n m) :
    (readObject cs name n).toOption = (readObject cs name m).toOption := by
  rw [readObject_eq hget h.elements.1, readObject_eq hget h.elements.2]
  have hexpect : expectElement n c.tag = expectElement m c.tag := by
    rw [expectElement, expectElement, h.name, h.elements.1, h.elements.2]
  have hdeliveries : ∀ i, (deliveries cs c.slots n).filter (·.index == i) =
      (deliveries cs c.slots m).filter (·.index == i) := h.deliveries_at
  have hfields := deliveries_congr hdeliveries
    (c.slots.map (initialField (initialObject cs [name])))
  have hobject : ∀ x : Except ReadError (List Datum),
      (x >>= fun fields => .ok (.object name fields)).toOption =
        x.toOption.map (Datum.object name) := by
    intro x
    cases x <;> rfl
  rw [hexpect]
  cases expectElement m c.tag with
  | error e => rfl
  | ok =>
    refine (hobject _).trans (Eq.trans ?_ (hobject _).symm)
    rw [hfields]

end

/-! ## Changes that are overlooked -/

/-- **The changes that a class does not see**: an attribute or a child that no
    slot is for, also within a text, and an exchange of neighbouring children
    that are not for the same slot. -/
inductive Overlooks (c : Binding.Class) : Node → Node → Prop
  | attributes {head : Head} {before after : List Attribute} {a : Attribute} {children : List Node}
      (ha : ∀ s ∈ c.slots, a.name ∉ s.attributeTags) :
      Overlooks c (.element { head with attributes := before ++ after } children)
        (.element { head with attributes := before ++ a :: after } children)
  | children {head : Head} {before after : List Node} {k : Node} (htext : ∀ t, k ≠ .text t)
      (hk : ∀ s ∈ c.slots, takes s k = false) :
      Overlooks c (.element head (before ++ after)) (.element head (before ++ k :: after))
  | within {head : Head} {before after : List Node} {t u : String} {k : Node}
      (htext : ∀ t, k ≠ .text t) (hk : ∀ s ∈ c.slots, takes s k = false) :
      Overlooks c (.element head (before ++ .text (t ++ u) :: after))
        (.element head (before ++ .text t :: k :: .text u :: after))
  | exchange {head : Head} {before after : List Node} {k l : Node} (htext : ∀ t, k ≠ .text t)
      (hkl : ∀ s ∈ c.slots, takes s k = false ∨ takes s l = false) :
      Overlooks c (.element head (before ++ k :: l :: after))
        (.element head (before ++ l :: k :: after))

theorem joinTexts_cons_of_ne {k : Node} (hk : ∀ t, k ≠ .text t) (acc : String) (ns : List Node) :
    joinTexts acc (k :: ns) = joinTexts acc ns := by
  cases k with
  | text t => exact absurd rfl (hk t)
  | element | comment | instruction => rfl

theorem Overlooks.seesAlike {c : Binding.Class} {n m : Node} (h : Overlooks c n m) :
    SeesAlike c n m := by
  cases h with
  | @attributes head before after a children ha =>
    refine ⟨⟨rfl, rfl⟩, rfl, rfl, fun s hs tag htag => ?_, fun s hs => rfl⟩
    have hname : ¬ (a.name == tag) = true := fun heq => ha s hs (beq_iff_eq.1 heq ▸ htag)
    simp only [Node.attributes, List.filter_append, List.filter_cons, if_neg hname]
  | @children head before after k htext hk =>
    refine ⟨⟨rfl, rfl⟩, rfl, ?_, fun s hs tag htag => rfl, fun s hs => ?_⟩
    · rw [textContent_eq, textContent_eq, joinTexts_append, joinTexts_append,
        joinTexts_cons_of_ne htext]
    · simp [Node.children, hk s hs]
  | @within head before after t u k htext hk =>
    refine ⟨⟨rfl, rfl⟩, rfl, ?_, fun s hs tag htag => rfl, fun s hs => ?_⟩
    · rw [textContent_eq, textContent_eq, joinTexts_append, joinTexts_append]
      generalize joinTexts "" before = acc
      calc joinTexts acc (.text (t ++ u) :: after)
        _ = joinTexts (acc ++ t ++ u) after := by rw [String.append_assoc]; rfl
        _ = joinTexts (acc ++ t) (k :: .text u :: after) := by rw [joinTexts_cons_of_ne htext]; rfl
    · have htexts : ∀ t, takes s (.text t) = false := fun t => rfl
      simp [Node.children, hk s hs, htexts]
  | @exchange head before after k l htext hkl =>
    refine ⟨⟨rfl, rfl⟩, rfl, ?_, fun s hs tag htag => rfl, fun s hs => ?_⟩
    · rw [textContent_eq, textContent_eq, joinTexts_append, joinTexts_append]
      generalize joinTexts "" before = acc
      calc joinTexts acc (k :: l :: after)
        _ = joinTexts (joinTexts acc [l]) after := joinTexts_cons_of_ne htext acc (l :: after)
        _ = joinTexts (joinTexts acc [l]) (k :: after) := (joinTexts_cons_of_ne htext _ _).symm
    · rcases hkl s hs with hk | hl
      · simp [Node.children, List.filter_cons, hk]
      · simp [Node.children, List.filter_cons, hl]

/-- **Reading sees only what belongs to the slots of the class.**  For any class,
    take two elements with the same name and the same text, such that for each
    slot the attributes or child elements that belong to it are the same, in
    their order.  Then either both are read as the same value or both are
    refused.  Hence unknown attributes, unknown child elements, comments and the
    order of children that belong to different slots, in any number and
    combination, change nothing. -/
theorem reading_sees_slots {name : String} {c : Binding.Class} (hget : cs.get? name = some c) :
    (∀ n m, SeesAlike c n m →
      (readObject cs name n).toOption = (readObject cs name m).toOption) ∧
    ∀ n m, Relation.EqvGen (Overlooks c) n m →
      (readObject cs name n).toOption = (readObject cs name m).toOption := by
  refine ⟨fun n m h => h.readObject hget, fun n m h => ?_⟩
  induction h with
  | rel n m h => exact h.seesAlike.readObject hget
  | refl n => rfl
  | symm n m _ ih => exact ih.symm
  | trans n m k _ _ ih ih' => exact ih.trans ih'

end

def dishClass : Binding.Class :=
  { name := "Dish", element := "dish", tag := "dish"
    attributes := [⟨"lang", "lang", .one, .attr "lang" (.scalar .string)⟩]
    text := some ⟨"content", "content", .one, .text (.scalar .string)⟩
    elements := [
      ⟨"name", "name", .one, .child "name" (.scalar .string)⟩,
      ⟨"drink_list", "drink", .list, .choice "Drink" "beer+wine" [
        ⟨"Beer", "beer", .scalar .int⟩, ⟨"Wine", "wine", .scalar .int⟩]⟩] }

def dish : Node :=
  .element { name := "dish", attributes := [{ name := "lang", value := "de" }] } [
    .text "served hot", .element { name := "name" } [.text "soup"],
    .element { name := "wine" } [.text "4"], .element { name := "beer" } [.text "3"]]

def dishOnMenu : Node :=
  .element { name := "dish", attributes := [{ name := "number", value := "7" },
      { name := "lang", value := "de" }] } [
    .text "served ", .element { name := "wine", pos := ⟨3, 9⟩ } [.text "4"],
    .element { name := "beer" } [.text "3"], .comment " or cold ", .text "hot",
    .element { name := "photo" } [.text "none"], .element { name := "name" } [.text "soup"]]

theorem dish_read_alike :
    Classes.get? [dishClass] "Dish" = some dishClass ∧ SeesAlike dishClass dish dishOnMenu ∧
      (readObject [dishClass] "Dish" dish).toOption =
        (readObject [dishClass] "Dish" dishOnMenu).toOption ∧
      (readObject [dishClass] "Dish" dishOnMenu).toOption.isSome = true := by
  have hget : Classes.get? [dishClass] "Dish" = some dishClass := by decide
  have halike : SeesAlike dishClass dish dishOnMenu :=
    { elements := ⟨rfl, rfl⟩
      name := rfl
      text := by decide
      attributes := by decide
      children := List.forall_mem_cons.2 ⟨rfl, List.forall_mem_cons.2 ⟨rfl,
        List.forall_mem_cons.2 ⟨rfl, List.forall_mem_cons.2 ⟨rfl, List.forall_mem_nil _⟩⟩⟩⟩ }
  exact ⟨hget, halike, (reading_sees_slots hget).1 dish dishOnMenu halike, by decide +kernel⟩

end Bindery.Instance
