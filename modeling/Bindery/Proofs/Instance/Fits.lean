/-
  Values of classes.

  `Fits` says of a value that it is one for a place of a class: objects have a
  field for every slot of their class, alternatives are ones of the union, and
  what is written as a literal satisfies `leaf`, which may depend on where the
  literal stands.

  Nothing is written for an object whose class is list-shaped and whose lists
  are all empty (`isHidden`).  `ShownWithin` says that no such object stands
  inside a value where its absence would be taken for something else: as an
  entry of a list, as an optional value or as an alternative.
-/
import Bindery.Instance.Write

namespace Bindery.Instance

open Binding

/-- Whether the objects of the class `name` stand in a place. -/
def holdsClass (p : Place) (name : String) : Prop :=
  ∃ tag boxed, p = .child tag (.object name boxed)

section
variable (cs : Classes) (leaf : Place → Datum → Prop)

mutual

def Fits (p : Place) : Cardinality → Datum → Prop
  | .optional, .absent => True
  | .optional, .present d => Fits p .one d
  | .list, .list ds => FitsAll p ds
  | .one, .alternative name d =>
    match alternativePlace? p name with
    | some place => Fits place .one d
    | none => False
  | .one, .object name fields =>
    holdsClass p name ∧
      match cs.get? name with
      | some c => FitsFields c.slots fields
      | none => False
  | .one, .scalar s => leaf p (.scalar s)
  | .one, .variant name => leaf p (.variant name)
  | .one, .list ds => leaf p (.list ds)
  | _, _ => False

def FitsAll (p : Place) : List Datum → Prop
  | [] => True
  | d :: ds => Fits p .one d ∧ FitsAll p ds

def FitsFields : List Slot → List Datum → Prop
  | [], [] => True
  | s :: ss, d :: ds => Fits s.place s.cardinality d ∧ FitsFields ss ds
  | _, _ => False

end

def Datum.IsOf (c : Binding.Class) (v : Datum) : Prop :=
  ∃ fields, v = .object c.name fields ∧ FitsFields cs leaf c.slots fields

/-- Whether nothing is written for the value: it is an object of a list-shaped
    class, and its lists are empty. -/
def isHidden : Datum → Bool
  | .object name fields => (cs.get? name).any fun c => c.isListShaped && fields.all isEmptyList
  | _ => false

mutual

/-- Whether no entry of a list, optional value or alternative inside the value
    is hidden. -/
def ShownWithin : Datum → Prop
  | .present d => isHidden cs d = false ∧ ShownWithin d
  | .alternative _ d => isHidden cs d = false ∧ ShownWithin d
  | .list ds => EntriesShown ds
  | .object _ fields => FieldsShown fields
  | _ => True

/-- Whether none of the entries is hidden, nor anything inside them. -/
def EntriesShown : List Datum → Prop
  | [] => True
  | d :: ds => isHidden cs d = false ∧ ShownWithin d ∧ EntriesShown ds

/-- Whether nothing inside the fields is hidden where it must not be. -/
def FieldsShown : List Datum → Prop
  | [] => True
  | d :: ds => ShownWithin d ∧ FieldsShown ds

end

end

/-! ## Places -/

def placesOf (p : Place) : List Place :=
  p :: match p with
    | .choice _ _ alternatives => alternatives.map fun a => .child a.tag a.type
    | _ => []

theorem self_mem_placesOf (p : Place) : p ∈ placesOf p := List.mem_cons_self

theorem alternativePlace?_eq {p place : Place} {name : String}
    (h : alternativePlace? p name = some place) :
    ∃ union group alternatives a, p = .choice union group alternatives ∧
      alternatives.find? (·.name == name) = some a ∧ place = .child a.tag a.type := by
  cases p with
  | choice union group alternatives =>
    obtain ⟨a, ha, rfl⟩ := Option.map_eq_some_iff.1 h
    exact ⟨union, group, alternatives, a, rfl, ha, rfl⟩
  | _ => cases h

theorem placesOf_alternative {p place : Place} {name : String}
    (h : alternativePlace? p name = some place) : ∀ q ∈ placesOf place, q ∈ placesOf p := by
  obtain ⟨union, group, alternatives, a, rfl, ha, rfl⟩ := alternativePlace?_eq h
  intro q hq
  obtain rfl : q = .child a.tag a.type := by simpa [placesOf] using hq
  exact List.mem_cons_of_mem _
    (List.mem_map_of_mem (f := fun a : Alternative => Place.child a.tag a.type)
      (List.mem_of_find?_eq_some ha))

section
variable {cs : Classes} {leaf leaf' : Place → Datum → Prop}

theorem FitsFields.length_eq : ∀ {ss : List Slot} {ds : List Datum},
    FitsFields cs leaf ss ds → ss.length = ds.length
  | [], [], _ => rfl
  | _ :: _, _ :: _, h => by simp [FitsFields.length_eq h.2]

theorem FitsFields.append_left :
    ∀ {ss ts : List Slot} {ds : List Datum}, FitsFields cs leaf (ss ++ ts) ds →
      ∃ ds₁ ds₂, ds = ds₁ ++ ds₂ ∧ FitsFields cs leaf ss ds₁ ∧ FitsFields cs leaf ts ds₂
  | [], _, ds, h => ⟨[], ds, rfl, trivial, h⟩
  | _ :: _, _, d :: _, h => by
    obtain ⟨ds₁, ds₂, rfl, h₁, h₂⟩ := FitsFields.append_left h.2
    exact ⟨d :: ds₁, ds₂, rfl, ⟨h.1, h₁⟩, h₂⟩

/-- What literals must be may be weakened, place by place. -/
def Weaker (leaf leaf' : Place → Datum → Prop) (p : Place) : Prop :=
  ∀ q ∈ placesOf p, ∀ d, leaf q d → leaf' q d

mutual

theorem Fits.mono (hcs : ∀ c ∈ cs, ∀ s ∈ c.slots, Weaker leaf leaf' s.place) {p : Place}
    (hp : Weaker leaf leaf' p) :
    ∀ {k : Cardinality} {d : Datum}, Fits cs leaf p k d → Fits cs leaf' p k d
  | .optional, .absent, _ => trivial
  | .optional, .present _, h => Fits.mono hcs hp (k := .one) h
  | .list, .list _, h => FitsAll.mono hcs hp h
  | .one, .alternative name d, h => by
    rw [Fits] at h ⊢
    cases ha : alternativePlace? p name with
    | none => rw [ha] at h; exact h
    | some place =>
      rw [ha] at h
      exact Fits.mono hcs (fun q hq => hp q (placesOf_alternative ha q hq)) h
  | .one, .object name fields, h => by
    rw [Fits] at h ⊢
    refine ⟨h.1, ?_⟩
    cases hc : cs.get? name with
    | none => rw [hc] at h; exact h.2
    | some c =>
      rw [hc] at h
      exact FitsFields.mono hcs (hcs c (List.mem_of_find?_eq_some hc)) h.2
  | .one, .scalar _, h => hp p (self_mem_placesOf p) _ h
  | .one, .variant _, h => hp p (self_mem_placesOf p) _ h
  | .one, .list _, h => hp p (self_mem_placesOf p) _ h

theorem FitsAll.mono (hcs : ∀ c ∈ cs, ∀ s ∈ c.slots, Weaker leaf leaf' s.place) {p : Place}
    (hp : Weaker leaf leaf' p) : ∀ {ds : List Datum}, FitsAll cs leaf p ds → FitsAll cs leaf' p ds
  | [], _ => trivial
  | _ :: _, h => ⟨Fits.mono hcs hp h.1, FitsAll.mono hcs hp h.2⟩

theorem FitsFields.mono (hcs : ∀ c ∈ cs, ∀ s ∈ c.slots, Weaker leaf leaf' s.place) :
    ∀ {ss : List Slot} {ds : List Datum}, (∀ s ∈ ss, Weaker leaf leaf' s.place) →
      FitsFields cs leaf ss ds → FitsFields cs leaf' ss ds
  | [], [], _, _ => trivial
  | s :: _, _ :: _, hss, h =>
    ⟨Fits.mono hcs (hss s List.mem_cons_self) h.1,
      FitsFields.mono hcs (fun t ht => hss t (List.mem_cons_of_mem _ ht)) h.2⟩

end

/-! ## What is written -/

/-- What it takes for `P` to hold of all that is written for values in good
    places. -/
structure Pervades (cs : Classes) (leaf : Place → Datum → Prop) (Good : Place → Prop)
    (P : Place → Markup.Content → Prop) : Prop where
  slots : ∀ c ∈ cs, ∀ s ∈ c.slots, Good s.place
  plain : ∀ {p d}, Good p → leaf p d → ∀ x ∈ plainContent p d, P p x
  alternative : ∀ {p name place}, alternativePlace? p name = some place → Good p →
    Good place ∧ ∀ x, P place x → P p x
  object : ∀ {tag name boxed c fields}, cs.get? name = some c →
    FitsFields cs leaf c.slots fields →
    (∀ x ∈ fieldsContent cs c.slots fields, ∃ s ∈ c.slots, P s.place x) →
    P (.child tag (.object name boxed))
      (.element c.tag (attributesOf c.slots fields) (fieldsContent cs c.slots fields))

variable {Good : Place → Prop} {P : Place → Markup.Content → Prop}

mutual

theorem Pervades.one (hP : Pervades cs leaf Good P) {p : Place} (hp : Good p) :
    ∀ {k : Cardinality} {d : Datum}, Fits cs leaf p k d → ∀ x ∈ placeContent cs p k d, P p x
  | .optional, .absent, _ => by simp [placeContent]
  | .optional, .present d, h => by
    rw [placeContent]
    exact hP.one hp (k := .one) h
  | .list, .list ds, h => by
    rw [placeContent]
    exact hP.all hp h
  | .one, .alternative name d, h => by
    rw [Fits] at h
    rw [placeContent]
    cases ha : alternativePlace? p name with
    | none => simp
    | some place =>
      rw [ha] at h
      obtain ⟨hplace, hup⟩ := hP.alternative ha hp
      exact fun x hx => hup x (hP.one hplace h x hx)
  | .one, .object name fields, h => by
    rw [Fits] at h
    rw [placeContent]
    cases hget : cs.get? name with
    | none => simp
    | some c =>
      rw [hget] at h
      obtain ⟨⟨tag, boxed, rfl⟩, hfit⟩ := h
      have hfields := hP.fields (hP.slots c (List.mem_of_find?_eq_some hget)) hfit
      intro x hx
      simp only [elementOf] at hx
      split at hx
      · cases hx
      · rw [List.mem_singleton.1 hx]
        exact hP.object hget hfit hfields
  | .one, .scalar _, h => by
    rw [placeContent]
    exact hP.plain hp h
  | .one, .variant _, h => by
    rw [placeContent]
    exact hP.plain hp h
  | .one, .list _, h => by
    rw [placeContent]
    exact hP.plain hp h

theorem Pervades.all (hP : Pervades cs leaf Good P) {p : Place} (hp : Good p) :
    ∀ {ds : List Datum}, FitsAll cs leaf p ds → ∀ x ∈ itemsContent cs p ds, P p x
  | [], _ => by simp [itemsContent]
  | d :: ds, h => by
    rw [itemsContent, List.forall_mem_append]
    exact ⟨hP.one hp h.1, hP.all hp h.2⟩

/-- **What pervades holds of fields**, each time in the place of a slot. -/
theorem Pervades.fields (hP : Pervades cs leaf Good P) : ∀ {ss : List Slot} {ds : List Datum},
    (∀ s ∈ ss, Good s.place) → FitsFields cs leaf ss ds →
      ∀ x ∈ fieldsContent cs ss ds, ∃ s ∈ ss, P s.place x
  | [], [], _, _ => by simp [fieldsContent]
  | s :: ss, d :: ds, hss, h => by
    obtain ⟨hs, hss⟩ := List.forall_mem_cons.1 hss
    rw [fieldsContent, List.forall_mem_append]
    refine ⟨fun x hx => ⟨s, List.mem_cons_self, hP.one hs h.1 x hx⟩, fun x hx => ?_⟩
    obtain ⟨t, ht, hx⟩ := hP.fields hss h.2 x hx
    exact ⟨t, List.mem_cons_of_mem _ ht, hx⟩

end

end

end Bindery.Instance
