/-
  Reading back what was written.

  A value is written as a tree slot by slot, and read in three passes:
  attributes, text, child elements.  Each pass fills its segment of the fields
  from the left: what stands before the slot at hand is read already, what
  stands after it is still as it was at first.

  * `readObject_written`: an object is read from any tree that shows it, by
    induction on its size;
  * `contentOf_written`: the same for what is written for a whole value.
-/
import Mathlib.Data.List.Nodup
import Bindery.Instance.Read
import Bindery.Proofs.Instance.Contents

namespace Bindery.Instance

open Binding Markup

def Returns (p : Place) (d : Datum) : Prop :=
  ∃ type, literalType? p = some type ∧ type.isLiteral = true ∧
    readValue type (writeValue type d) = .ok d

theorem Returns.read {p : Place} {type : ValueType} {d : Datum} (h : Returns p d)
    (hp : literalType? p = some type) : readValue type (writeValue type d) = .ok d := by
  obtain ⟨t, ht, -, hread⟩ := h
  rw [hp] at ht
  cases ht
  exact hread

/-! ## Slots and fields -/

theorem findSlot_append {α : Type} {f : Slot → Option α} {s : Slot} {a : α} (hs : f s = some a)
    (post : List Slot) : ∀ {pre : List Slot}, (∀ t ∈ pre, f t = none) →
      findSlot f (pre ++ s :: post) = some (pre.length, s, a)
  | [], _ => by simp [findSlot, hs]
  | t :: pre, h => by
    have ih := findSlot_append hs post fun u hu => h u (List.mem_cons_of_mem _ hu)
    simp [findSlot, h t List.mem_cons_self, ih]

theorem findSlot_eq_none {α : Type} {f : Slot → Option α} : ∀ {slots : List Slot},
    findSlot f slots = none ↔ ∀ t ∈ slots, f t = none
  | [] => by simp [findSlot]
  | t :: slots => by
    rw [findSlot, List.forall_mem_cons, ← findSlot_eq_none]
    cases f t <;> simp

theorem findSlot_eq_some {α : Type} {f : Slot → Option α} {i : Nat} {s : Slot} {a : α} :
    ∀ {slots : List Slot}, findSlot f slots = some (i, s, a) → slots[i]? = some s ∧ f s = some a := by
  intro slots
  induction slots generalizing i with
  | nil => simp [findSlot]
  | cons t slots ih =>
    intro h
    rw [findSlot] at h
    cases ht : f t with
    | some b =>
      rw [ht] at h
      cases h
      exact ⟨rfl, ht⟩
    | none =>
      rw [ht] at h
      obtain ⟨⟨j, s', a'⟩, hfind, heq⟩ := Option.map_eq_some_iff.1 h
      cases heq
      exact ih hfind

theorem putField_append (s : Slot) (v d : Datum) (post : List Datum) :
    ∀ {pre : List Datum} {n : Nat}, n = pre.length →
      putField n s v (pre ++ d :: post) = pre ++ assigned s d v :: post
  | [], _, rfl => by simp [putField]
  | e :: pre, _, rfl => by
    have ih := putField_append s v d post (rfl : pre.length = pre.length)
    simp only [putField] at ih ⊢
    simp [ih]

section
variable {cs : Classes}

/-! ## Attributes -/

theorem attributeType?_none {tag : String} {s : Slot} (h : tag ∉ s.attributeTags) :
    attributeType? tag s = none := by
  unfold attributeType?
  unfold Slot.attributeTags at h
  split
  · rename_i t type hp
    rw [hp] at h
    rw [if_neg]
    rintro rfl
    exact h List.mem_cons_self
  · rfl

theorem attribute_written {s : Slot} {tag : String} {type : ValueType}
    (hp : s.place = .attr tag type) (hl : type.isLiteral = true) (hk : s.cardinality ≠ .list)
    {d : Datum} (h : Fits cs Returns s.place s.cardinality d) (make : String → Datum) :
    (held s d = [] ∧ initialField make s = d) ∨
      ∃ v, held s d = [v] ∧ readValue type (writeValue type v) = .ok v ∧
        ∀ old, assigned s old v = d := by
  have hlit : literalType? s.place = some type := by rw [hp]; rfl
  rcases h.none_or_one hk with ⟨hc, rfl⟩ | ⟨v, hv, hd⟩
  · exact .inl ⟨by simp [held, hc], by simp [initialField, hc]⟩
  · have hread := (hv.literal hlit hl).1.read hlit
    rcases hd with ⟨hc, rfl⟩ | ⟨hc, rfl⟩
    · exact .inr ⟨d, by simp [held, hc], hread, fun old => by simp [assigned, hc]⟩
    · exact .inr ⟨v, by simp [held, hc], hread, fun old => by simp [assigned, hc]⟩

theorem readAttributes_written {slots post : List Slot} {make : String → Datum}
    {rest : List Datum} (ss : List Slot) {pre : List Slot} {done ds : List Datum}
    {as : List Attribute} (hslots : slots = pre ++ ss ++ post) (hlen : pre.length = done.length)
    (hss : ∀ s ∈ ss, s.isAttribute = true)
    (hnodup : ((pre ++ ss).flatMap (·.attributeTags)).Nodup) (hfit : FitsFields cs Returns ss ds)
    (has : as.map (fun a => (a.name, a.value)) = attributesOf ss ds) :
    readAttributes slots (done ++ ss.map (initialField make) ++ rest) as =
      .ok (done ++ ds ++ rest) := by
  induction ss generalizing pre done ds as with
  | nil =>
    cases ds with
    | nil =>
      cases List.map_eq_nil_iff.1 has
      simp [readAttributes]
    | cons => cases hfit
  | cons s ss ih =>
    obtain _ | ⟨d, ds⟩ := ds
    · cases hfit
    obtain ⟨hd, hds⟩ := hfit
    obtain ⟨tag, type, hp, hl, hk⟩ := isAttribute_place (hss s List.mem_cons_self)
    have htags : s.attributeTags = [tag] := by simp [Slot.attributeTags, hp]
    have hfind : findSlot (attributeType? tag) slots = some (pre.length, s, type) := by
      rw [hslots, List.append_assoc, List.cons_append]
      refine findSlot_append (by simp [attributeType?, hp]) _ fun t ht => ?_
      -- no slot before this one takes the attribute
      refine attributeType?_none fun hm => ?_
      rw [List.flatMap_append, List.flatMap_cons, htags] at hnodup
      exact (List.nodup_append.1 hnodup).2.2 tag (List.mem_flatMap.2 ⟨t, ht, hm⟩) tag
        (by simp) rfl
    have hrest : ∀ {as : List Attribute},
        as.map (fun a => (a.name, a.value)) = attributesOf ss ds →
        readAttributes slots (done ++ d :: (ss.map (initialField make) ++ rest)) as =
          .ok (done ++ d :: ds ++ rest) := by
      intro as has
      have hslots' : slots = pre ++ [s] ++ ss ++ post := by simp [hslots]
      have hlen' : (pre ++ [s]).length = (done ++ [d]).length := by simp [hlen]
      have h := ih hslots' hlen' (fun t ht => hss t (List.mem_cons_of_mem _ ht))
        (by simpa using hnodup) hds has
      simpa using h
    rw [attributesOf, hp] at has
    rw [List.map_cons, List.append_assoc, List.cons_append]
    rcases attribute_written hp hl hk hd make with ⟨hheld, hinit⟩ | ⟨v, hheld, hread, hassign⟩
    · rw [hheld] at has
      rw [hinit]
      exact hrest has
    · rw [hheld] at has
      obtain ⟨a, as, rfl, ha, has⟩ := List.map_eq_cons_iff.1 has
      obtain ⟨hname, hvalue⟩ := Prod.mk.inj ha
      rw [readAttributes, hname, hfind, hvalue]
      simp only [hread]
      change readAttributes slots (putField pre.length s v _) as = _
      rw [putField_append s v _ _ hlen, hassign]
      exact hrest has

/-! ## Text -/

theorem joinTexts_textContents {text : String} {ns : List Node}
    (h : ShowsAll (textContents text) ns) : joinTexts "" ns = text := by
  rw [textContents] at h
  split at h
  · rename_i hempty
    rw [h.nil_left]
    exact (by simpa using hempty : text = "").symm
  · obtain ⟨n, rfl, hn⟩ := h.singleton_left
    cases n with
    | text t =>
      obtain rfl : text = t := hn
      exact String.empty_append
    | element | comment | instruction => exact hn.elim

def textType? (s : Slot) : Option ValueType :=
  match s.place with
  | .text type => some type
  | _ => none

theorem readText_eq (slots : List Slot) (fields : List Datum) (text : String) :
    readText slots fields text =
      match findSlot textType? slots with
      | some (i, s, type) => do
        let value ← readValue type text
        .ok (putField i s value fields)
      | none => .ok fields := rfl

theorem readText_written {before after : List Slot} {text : Option Slot}
    (hbefore : ∀ s ∈ before, s.isAttribute = true) (hafter : ∀ s ∈ after, s.isElement = true)
    (htext : ∀ s ∈ text.toList, s.isText = true) {done ds : List Datum}
    (hlen : before.length = done.length) (hfit : FitsFields cs Returns text.toList ds)
    {ns : List Node} (hns : ShowsAll (fieldsContent cs text.toList ds) ns)
    (make : String → Datum) (rest : List Datum) :
    readText (before ++ text.toList ++ after)
        (done ++ text.toList.map (initialField make) ++ rest) (joinTexts "" ns) =
      .ok (done ++ ds ++ rest) := by
  have hattr : ∀ s ∈ before, textType? s = none := by
    intro s hs
    obtain ⟨tag, type, hp, -⟩ := isAttribute_place (hbefore s hs)
    rw [textType?, hp]
  have helem : ∀ s ∈ after, textType? s = none := by
    intro s hs
    rcases isElement_place (hafter s hs) with ⟨_, _, hp⟩ | ⟨_, _, _, hp, -⟩ <;> rw [textType?, hp]
  rw [readText_eq]
  cases text with
  | none =>
    obtain _ | ⟨d, ds⟩ := ds
    · rw [findSlot_eq_none.2]
      · simp
      · intro s hs
        rcases List.mem_append.1 hs with hs | hs
        · exact hattr s (by simpa using hs)
        · exact helem s hs
    · cases hfit
  | some s =>
    obtain ⟨type, hp, hl, hk⟩ := isText_place (htext s (by simp))
    obtain _ | ⟨d, ds⟩ := ds
    · cases hfit
    obtain ⟨hd, hds⟩ := hfit
    obtain rfl : ds = [] := by simpa [FitsFields] using hds.length_eq.symm
    rw [hk, hp] at hd
    obtain ⟨hreturns, hcontent⟩ := hd.literal rfl hl
    have hread := hreturns.read rfl
    have hw : joinTexts "" ns = writeValue type d := by
      refine joinTexts_textContents ?_
      simpa [fieldsContent, hp, hk, hcontent, plainContent] using hns
    have hs : textType? s = some type := by rw [textType?, hp]
    rw [Option.toList_some, List.append_assoc, List.singleton_append,
      findSlot_append hs after hattr, hw]
    simp only [hread, List.map_cons, List.map_nil, List.append_assoc, List.singleton_append]
    change Except.ok (putField before.length s d _) = _
    rw [putField_append s d _ _ hlen]
    simp [assigned, hk]

/-! ## One child element -/

def readChild (cs : Classes) (type : ValueType) (n : Node) : Except ReadError Datum :=
  match type with
  | .object name _ => readObject cs name n
  | type => readValue type n.textContent

theorem readChild_literal {type : ValueType} (hl : type.isLiteral = true) (n : Node) :
    readChild cs type n = readValue type n.textContent := by
  cases type with
  | object => cases hl
  | _ => rfl

section
variable {slots : List Slot} {fields : List Datum} {n : Node} {ns : List Node}
  {i : Nat} {s : Slot} {type : ValueType} {alternative : Option String}

theorem readChildren_cons (hn : n.isElement = true)
    (hfind : findSlot (childType? n.name) slots = some (i, s, type, alternative)) :
    readChildren cs slots fields (n :: ns) = readChild cs type n >>= fun v =>
      readChildren cs slots (putField i s (asAlternative alternative v) fields) ns := by
  rw [readChildren, if_pos hn, hfind]
  cases type <;> rfl

theorem readChildren_element {v : Datum} (hn : n.isElement = true)
    (hfind : findSlot (childType? n.name) slots = some (i, s, type, alternative))
    (hread : readChild cs type n = .ok v) :
    readChildren cs slots fields (n :: ns) =
      readChildren cs slots (putField i s (asAlternative alternative v) fields) ns := by
  rw [readChildren_cons hn hfind, hread]
  rfl

theorem readChildren_skip (hn : n.isElement = false) :
    readChildren cs slots fields (n :: ns) = readChildren cs slots fields ns := by
  rw [readChildren, if_neg (by simp [hn])]

end

/-- Whether the value, if it is an object, is read from every tree that shows
    its element. -/
def ReadsBack (cs : Classes) (d : Datum) : Prop :=
  ∀ ⦃name : String⦄ ⦃fields : List Datum⦄ ⦃c : Binding.Class⦄, d = .object name fields →
    cs.get? name = some c → FitsFields cs Returns c.slots fields → FieldsShown cs fields →
    ∀ n, (Content.element c.tag (attributesOf c.slots fields)
      (fieldsContent cs c.slots fields)).Shows n → readObject cs name n = .ok d

theorem child_written {tag : String} {type : ValueType} (hb : type.bears cs tag = true) {d : Datum}
    (hfit : Fits cs Returns (.child tag type) .one d) (hw : ShownWithin cs d)
    (hh : isHidden cs d = false) (ih : ReadsBack cs d) :
    ∃ el, placeContent cs (.child tag type) .one d = [el] ∧
      ∀ n, el.Shows n → n.isElement = true ∧ n.name = tag ∧ readChild cs type n = .ok d := by
  by_cases hl : type.isLiteral = true
  · obtain ⟨hreturns, hcontent⟩ := hfit.literal rfl hl
    have hread := hreturns.read rfl
    refine ⟨.element tag [] (textContents (writeValue type d)), hcontent, fun n hn => ?_⟩
    match n, hn with
    | .element head children, ⟨hname, _, hchildren⟩ =>
      refine ⟨rfl, hname, ?_⟩
      have htext : (Node.element head children).textContent = writeValue type d := by
        rw [textContent_eq, joinTexts_textContents hchildren]
      rw [readChild_literal hl, htext, hread]
  · obtain ⟨name, boxed, rfl⟩ : ∃ name boxed, type = .object name boxed := by
      cases type with
      | object name boxed => exact ⟨name, boxed, rfl⟩
      | _ => exact absurd rfl hl
    cases d with
    | object name' fields =>
      rw [Fits] at hfit
      obtain ⟨⟨_, _, heq⟩, hfields⟩ := hfit
      cases heq
      have hclass : (cs.get? name).any (·.tag == tag) = true := hb
      cases hc : cs.get? name with
      | none => rw [hc] at hfields; exact hfields.elim
      | some c =>
        rw [hc] at hfields hclass
        have htag : c.tag = tag := by simpa using hclass
        have hshown : (c.isListShaped && fields.all isEmptyList) = false := by
          simpa [isHidden, hc] using hh
        refine ⟨.element c.tag (attributesOf c.slots fields) (fieldsContent cs c.slots fields),
          by simp [placeContent, hc, elementOf, hshown], fun n hn => ?_⟩
        have hback : readObject cs name n = .ok (.object name fields) :=
          ih rfl hc hfields (by simpa [ShownWithin] using hw) n hn
        match n, hn with
        | .element head children, ⟨hname, _, _⟩ => exact ⟨rfl, hname.trans htag, hback⟩
    | scalar s => exact absurd hfit (by rintro ⟨_, ⟨⟩, hlit, _⟩; cases hlit)
    | variant v => exact absurd hfit (by rintro ⟨_, ⟨⟩, hlit, _⟩; cases hlit)
    | list ds => exact absurd hfit (by rintro ⟨_, ⟨⟩, hlit, _⟩; cases hlit)
    | alternative _ _ => rw [Fits] at hfit; exact hfit.elim
    | absent => cases hfit
    | present _ => cases hfit

theorem childType?_none {tag : String} {s : Slot} (h : tag ∉ s.children.map (·.1)) :
    childType? tag s = none := by
  unfold childType?
  unfold Slot.children at h
  split
  · rename_i t type hp
    rw [hp] at h
    rw [if_neg]
    rintro rfl
    exact h (by simp)
  · rename_i union group alternatives hp
    rw [hp] at h
    rw [List.find?_eq_none.2, Option.map_none]
    intro a ha heq
    exact h (List.mem_map.2 ⟨(a.tag, a.type), List.mem_map.2 ⟨a, ha, rfl⟩, by simpa using heq⟩)
  · rfl

theorem find?_tag {alternatives : List Alternative} (h : (alternatives.map (·.tag)).Nodup)
    {a : Alternative} (ha : a ∈ alternatives) : alternatives.find? (·.tag == a.tag) = some a := by
  cases hf : alternatives.find? (·.tag == a.tag) with
  | none => exact absurd (List.find?_eq_none.1 hf a ha) (by simp)
  | some b =>
    have htag : b.tag = a.tag := by simpa using List.find?_some hf
    rw [List.inj_on_of_nodup_map h (List.mem_of_find?_eq_some hf) ha htag]

theorem entry_written {s : Slot} (hs : s.isElement = true)
    (hb : ∀ x ∈ s.children, x.2.bears cs x.1 = true) (hnodup : (s.children.map (·.1)).Nodup)
    {d : Datum} (hfit : Fits cs Returns s.place .one d) (hw : ShownWithin cs d)
    (hh : isHidden cs d = false) (ih : ∀ d', sizeOf d' ≤ sizeOf d → ReadsBack cs d') :
    ∃ el, placeContent cs s.place .one d = [el] ∧ ∀ n, el.Shows n → n.isElement = true ∧
      ∃ type alternative v, childType? n.name s = some (type, alternative) ∧
        readChild cs type n = .ok v ∧ asAlternative alternative v = d := by
  rcases isElement_place hs with ⟨tag, type, hp⟩ | ⟨union, group, alternatives, hp, -⟩
  · have hbears : type.bears cs tag = true := hb (tag, type) (by simp [Slot.children, hp])
    rw [hp] at hfit ⊢
    obtain ⟨el, hcontent, hel⟩ := child_written hbears hfit hw hh (ih d (Nat.le_refl _))
    refine ⟨el, hcontent, fun n hn => ?_⟩
    obtain ⟨hn', hname, hread⟩ := hel n hn
    exact ⟨hn', type, none, d, by simp [childType?, hp, hname], hread, rfl⟩
  · -- the value is an alternative, written as a child element of its own
    rw [hp] at hfit ⊢
    cases d with
    | alternative name d =>
      rw [Fits] at hfit
      cases hplace : alternativePlace? (.choice union group alternatives) name with
      | none => rw [hplace] at hfit; exact hfit.elim
      | some place =>
        rw [hplace] at hfit
        obtain ⟨_, _, _, a, heq, hfound, rfl⟩ := alternativePlace?_eq hplace
        cases heq
        have ha := List.mem_of_find?_eq_some hfound
        have hname : a.name = name := by simpa using List.find?_some hfound
        have hbears : a.type.bears cs a.tag = true :=
          hb (a.tag, a.type) (by simp only [Slot.children, hp]; exact List.mem_map_of_mem ha)
        rw [ShownWithin] at hw
        obtain ⟨el, hcontent, hel⟩ := child_written hbears hfit hw.2 hw.1
          (ih d (by simp))
        refine ⟨el, by simp only [placeContent, hplace, hcontent], fun n hn => ?_⟩
        obtain ⟨hn', htag, hread⟩ := hel n hn
        have htags : (alternatives.map (·.tag)).Nodup := by
          simpa [Slot.children, hp, Function.comp_def] using hnodup
        refine ⟨hn', a.type, some a.name, d, ?_, hread, by rw [asAlternative, hname]⟩
        simp only [childType?, hp, htag, find?_tag htags ha, Option.map_some]
    | scalar s => exact absurd hfit (by rintro ⟨_, ⟨⟩, _⟩)
    | variant v => exact absurd hfit (by rintro ⟨_, ⟨⟩, _⟩)
    | list ds => exact absurd hfit (by rintro ⟨_, ⟨⟩, _⟩)
    | object _ _ => rw [Fits] at hfit; obtain ⟨⟨_, _, ⟨⟩⟩, _⟩ := hfit
    | absent => cases hfit
    | present _ => cases hfit

/-! ## Values that are not written -/

theorem eq_of_isEmptyList : ∀ {d : Datum}, isEmptyList d = true → d = .list []
  | .list [], _ => rfl

theorem initialFields_listShaped {c : Binding.Class} (h : c.isListShaped = true)
    (make : String → Datum) {fields : List Datum} (hlen : c.slots.length = fields.length)
    (hempty : fields.all isEmptyList = true) : c.slots.map (initialField make) = fields := by
  rw [Class.isListShaped, Bool.and_eq_true, List.all_eq_true] at h
  have hslots : ∀ s ∈ c.slots, initialField make s = .list [] := by
    intro s hs
    have hk := h.2 s hs
    rw [Bool.and_eq_true] at hk
    simp [initialField, (by simpa using hk.1 : s.cardinality = .list)]
  have hfields : ∀ d ∈ fields, d = .list [] := fun d hd =>
    eq_of_isEmptyList (List.all_eq_true.1 hempty d hd)
  rw [List.map_congr_left hslots, List.map_const', hlen]
  exact (List.eq_replicate_of_mem hfields).symm

theorem hidden_initial {s : Slot} (hk : s.cardinality = .one) {own : String}
    (hapart : ∀ x ∈ s.children, x.2.class? ≠ some own) {d : Datum}
    (hfit : Fits cs Returns s.place .one d) (hh : isHidden cs d = true) :
    placeContent cs s.place .one d = [] ∧ initialField (initialObject cs [own]) s = d := by
  cases d with
  | object name fields =>
    rw [Fits] at hfit
    obtain ⟨⟨tag, boxed, hp⟩, hfields⟩ := hfit
    cases hc : cs.get? name with
    | none => rw [hc] at hfields; exact hfields.elim
    | some c =>
      rw [hc] at hfields
      have hshape : c.isListShaped = true ∧ fields.all isEmptyList = true := by
        simpa [isHidden, hc] using hh
      have hne : name ∉ [own] := by
        have := hapart (tag, .object name boxed) (by simp [Slot.children, hp])
        simpa [ValueType.class?] using this
      have hinit := initialFields_listShaped hshape.1 (initialObject cs (name :: [own]))
        hfields.length_eq hshape.2
      refine ⟨by simp [placeContent, hc, elementOf, hshape], ?_⟩
      simp only [initialField, hk, hp, initialValue]
      rw [initialObject]
      split
      · rename_i hnone
        rw [hc] at hnone
        cases hnone
      · rename_i c' hsome
        rw [hc] at hsome
        cases hsome
        rw [dif_neg hne, hinit]
  | _ => cases hh

/-! ## Child elements -/

theorem readChildren_put {slots : List Slot} {pre : List Slot} {s : Slot}
    (hfind : ∀ tag x, childType? tag s = some x →
      findSlot (childType? tag) slots = some (pre.length, s, x))
    {n : Node} (hn : n.isElement = true) {type : ValueType} {alternative : Option String}
    {v : Datum}
    (hs : childType? n.name s = some (type, alternative)) (hread : readChild cs type n = .ok v)
    {done : List Datum} (hlen : pre.length = done.length) (old : Datum) (rest : List Datum)
    (ns : List Node) :
    readChildren cs slots (done ++ old :: rest) (n :: ns) =
      readChildren cs slots (done ++ assigned s old (asAlternative alternative v) :: rest) ns := by
  rw [readChildren_element hn (hfind _ _ hs) hread, putField_append s _ _ _ hlen]

section
variable {slots pre : List Slot} {s : Slot} (hs : s.isElement = true)
  (hb : ∀ x ∈ s.children, x.2.bears cs x.1 = true) (hnodup : (s.children.map (·.1)).Nodup)
  (hfind : ∀ tag x, childType? tag s = some x →
    findSlot (childType? tag) slots = some (pre.length, s, x))
  {done : List Datum} (hlen : pre.length = done.length)

include hs hb hnodup hfind hlen

theorem readChildren_entry {d : Datum} (hfit : Fits cs Returns s.place .one d)
    (hw : ShownWithin cs d) (hh : isHidden cs d = false)
    (ih : ∀ d', sizeOf d' ≤ sizeOf d → ReadsBack cs d') {ns : List Node}
    (hns : ShowsAll (placeContent cs s.place .one d) ns) (old : Datum) (rest : List Datum)
    (more : List Node) :
    readChildren cs slots (done ++ old :: rest) (ns ++ more) =
      readChildren cs slots (done ++ assigned s old d :: rest) more := by
  obtain ⟨el, hcontent, hel⟩ := entry_written hs hb hnodup hfit hw hh ih
  rw [hcontent] at hns
  obtain ⟨n, rfl, hn⟩ := hns.singleton_left
  obtain ⟨hn', type, alternative, v, htype, hread, rfl⟩ := hel n hn
  exact readChildren_put hfind hn' htype hread hlen old rest more

theorem readChildren_entries (hk : s.cardinality = .list) :
    ∀ {ds acc : List Datum}, FitsAll cs Returns s.place ds → EntriesShown cs ds →
      (∀ d', sizeOf d' ≤ sizeOf ds → ReadsBack cs d') →
      ∀ {ns : List Node}, ShowsAll (itemsContent cs s.place ds) ns →
        ∀ (rest : List Datum) (more : List Node),
          readChildren cs slots (done ++ .list acc :: rest) (ns ++ more) =
            readChildren cs slots (done ++ .list (acc ++ ds) :: rest) more
  | [], acc, _, _, _, ns, hns, rest, more => by
    rw [itemsContent] at hns
    rw [hns.nil_left, List.append_nil]
    rfl
  | d :: ds, acc, hfit, hw, ih, ns, hns, rest, more => by
    rw [itemsContent] at hns
    obtain ⟨ns₁, ns₂, rfl, h₁, h₂⟩ := hns.append_left
    rw [EntriesShown] at hw
    rw [List.append_assoc, readChildren_entry hs hb hnodup hfind hlen hfit.1 hw.2.1 hw.1
      (fun d' h => ih d' (by simp; omega)) h₁]
    have hassign : assigned s (.list acc) d = .list (acc ++ [d]) := by simp [assigned, hk]
    rw [hassign, readChildren_entries hk hfit.2 hw.2.2 (fun d' h => ih d' (by simp; omega)) h₂]
    simp

theorem readChildren_slot {own : String}
    (hapart : s.cardinality = .one → ∀ x ∈ s.children, x.2.class? ≠ some own) {d : Datum}
    (hfit : Fits cs Returns s.place s.cardinality d) (hw : ShownWithin cs d)
    (ih : ∀ d', sizeOf d' ≤ sizeOf d → ReadsBack cs d') {ns : List Node}
    (hns : ShowsAll (placeContent cs s.place s.cardinality d) ns) (rest : List Datum)
    (more : List Node) :
    readChildren cs slots (done ++ initialField (initialObject cs [own]) s :: rest) (ns ++ more) =
      readChildren cs slots (done ++ d :: rest) more := by
  cases hk : s.cardinality with
  | one =>
    rw [hk] at hfit hns
    cases hh : isHidden cs d with
    | true =>
      obtain ⟨hcontent, hinit⟩ := hidden_initial hk (hapart hk) hfit hh
      rw [hcontent] at hns
      rw [hns.nil_left, hinit, List.nil_append]
    | false =>
      rw [readChildren_entry hs hb hnodup hfind hlen hfit hw hh ih hns]
      simp [assigned, hk]
  | optional =>
    rw [hk] at hfit hns
    cases d with
    | absent =>
      have hnil : placeContent cs s.place .optional .absent = [] := by simp [placeContent]
      rw [hnil] at hns
      rw [hns.nil_left]
      simp [initialField, hk]
    | present d =>
      rw [ShownWithin] at hw
      rw [placeContent] at hns
      rw [readChildren_entry hs hb hnodup hfind hlen hfit hw.2 hw.1
        (fun d' h => ih d' (by simp; omega)) hns]
      simp [assigned, hk]
    | _ => cases hfit
  | list =>
    rw [hk] at hfit hns
    cases d with
    | list ds =>
      rw [ShownWithin] at hw
      rw [placeContent] at hns
      have hinit : initialField (initialObject cs [own]) s = .list [] := by
        simp [initialField, hk]
      rw [hinit, readChildren_entries hs hb hnodup hfind hlen hk hfit hw
        (fun d' h => ih d' (by simp; omega)) hns, List.nil_append]
    | _ => cases hfit

end

theorem findSlot_child {before pre post : List Slot} {s : Slot}
    (hbefore : ∀ t ∈ before, t.children = [])
    (hnodup : ((pre ++ s :: post).flatMap (·.children.map (·.1))).Nodup) (tag : String)
    (x : ValueType × Option String) (hx : childType? tag s = some x) :
    findSlot (childType? tag) (before ++ pre ++ s :: post) =
      some ((before ++ pre).length, s, x) := by
  have htag : tag ∈ s.children.map (·.1) := by
    by_contra hne
    rw [childType?_none hne] at hx
    cases hx
  refine findSlot_append hx post fun t ht => childType?_none fun hm => ?_
  rcases List.mem_append.1 ht with ht | ht
  · simp [hbefore t ht] at hm
  · rw [List.flatMap_append, List.flatMap_cons] at hnodup
    exact (List.nodup_append.1 hnodup).2.2 tag (List.mem_flatMap.2 ⟨t, ht, hm⟩) tag
      (List.mem_append_left _ htag) rfl

theorem readChildren_written {before : List Slot} (hbefore : ∀ t ∈ before, t.children = [])
    {own : String} (ss : List Slot) {pre : List Slot} (hss : ∀ s ∈ ss, s.isElement = true)
    (hb : ∀ s ∈ ss, ∀ x ∈ s.children, x.2.bears cs x.1 = true)
    (hapart : ∀ s ∈ ss, s.cardinality = .one → ∀ x ∈ s.children, x.2.class? ≠ some own)
    (hnodup : ((pre ++ ss).flatMap (·.children.map (·.1))).Nodup) {done ds : List Datum}
    (hlen : (before ++ pre).length = done.length) (hfit : FitsFields cs Returns ss ds)
    (hw : FieldsShown cs ds) (ih : ∀ d', sizeOf d' ≤ sizeOf ds → ReadsBack cs d')
    {ns : List Node} (hns : ShowsAll (fieldsContent cs ss ds) ns) :
    readChildren cs (before ++ pre ++ ss)
        (done ++ ss.map (initialField (initialObject cs [own]))) ns = .ok (done ++ ds) := by
  induction ss generalizing pre done ds ns with
  | nil =>
    obtain _ | ⟨d, ds⟩ := ds
    · rw [fieldsContent] at hns
      · rw [hns.nil_left, readChildren]
        simp
      · simp
    · cases hfit
  | cons s ss ihs =>
    obtain _ | ⟨d, ds⟩ := ds
    · cases hfit
    rw [fieldsContent] at hns
    rw [FieldsShown] at hw
    obtain ⟨ns₁, ns₂, rfl, h₁, h₂⟩ := hns.append_left
    have hs := List.mem_cons_self (a := s) (l := ss)
    have hnodup' : (s.children.map (·.1)).Nodup := by
      rw [List.flatMap_append, List.flatMap_cons] at hnodup
      exact (List.nodup_append.1 (List.nodup_append.1 hnodup).2.1).1
    rw [List.map_cons, readChildren_slot (hss s hs) (hb s hs) hnodup'
      (findSlot_child hbefore hnodup) hlen (hapart s hs) hfit.1 hw.1
      (fun d' h => ih d' (by simp; omega)) h₁]
    have hlen' : (before ++ (pre ++ [s])).length = (done ++ [d]).length := by
      simp at hlen ⊢
      omega
    have hrest := ihs (fun t ht => hss t (List.mem_cons_of_mem _ ht))
      (fun t ht => hb t (List.mem_cons_of_mem _ ht))
      (fun t ht => hapart t (List.mem_cons_of_mem _ ht)) (by simpa using hnodup) hlen' hfit.2 hw.2
      (fun d' h => ih d' (by simp; omega)) h₂
    simpa using hrest

/-! ## Segments of an object -/

theorem fieldsShown_append : ∀ {ds es : List Datum},
    FieldsShown cs (ds ++ es) ↔ FieldsShown cs ds ∧ FieldsShown cs es
  | [], _ => by simp [FieldsShown]
  | d :: ds, es => by simp [FieldsShown, fieldsShown_append, and_assoc]

theorem readChildren_texts {contents : List Content}
    (hcontents : ∀ c ∈ contents, c.isElement = false) {slots : List Slot} {fields : List Datum} :
    ∀ {ns : List Node}, ShowsAll contents ns → ∀ more,
      readChildren cs slots fields (ns ++ more) = readChildren cs slots fields more := by
  induction contents with
  | nil =>
    intro ns h more
    rw [h.nil_left, List.nil_append]
  | cons c contents ih =>
    intro ns h more
    match ns, h with
    | n :: ns, ⟨hn, hns⟩ =>
      have hskip : n.isElement = false := hn.isElement.trans (hcontents c List.mem_cons_self)
      rw [List.cons_append, readChildren_skip hskip]
      exact ih (fun d hd => hcontents d (List.mem_cons_of_mem _ hd)) hns more

/-! ## Objects -/

section
variable {c : Binding.Class} (hc : c.Coherent cs) {fa ft fe : List Datum}
  (hfa : FitsFields cs Returns c.attributes fa)

include hc hfa

theorem readAttributes_object {as : List Attribute} (make : String → Datum)
    (has : as.map (fun a => (a.name, a.value)) = attributesOf c.attributes fa) :
    readAttributes c.slots (c.slots.map (initialField make)) as =
      .ok (fa ++ c.text.toList.map (initialField make) ++ c.elements.map (initialField make)) := by
  let rest := c.text.toList.map (initialField make) ++ c.elements.map (initialField make)
  have hslots : c.slots = [] ++ c.attributes ++ (c.text.toList ++ c.elements) := by
    simp [Class.slots]
  have h : readAttributes c.slots ([] ++ c.attributes.map (initialField make) ++ rest) as =
      .ok ([] ++ fa ++ rest) :=
    readAttributes_written c.attributes hslots rfl hc.attributes hc.attributeTags hfa has
  simpa [Class.slots, rest] using h

theorem readChildren_object (hft : FitsFields cs Returns c.text.toList ft)
    (hfe : FitsFields cs Returns c.elements fe) (hw : FieldsShown cs fe)
    (ih : ∀ d, sizeOf d ≤ sizeOf fe → ReadsBack cs d) {nt ne : List Node}
    (hnt : ShowsAll (fieldsContent cs c.text.toList ft) nt)
    (hne : ShowsAll (fieldsContent cs c.elements fe) ne) :
    readChildren cs c.slots
        (fa ++ ft ++ c.elements.map (initialField (initialObject cs [c.name]))) (nt ++ ne) =
      .ok (fa ++ ft ++ fe) := by
  obtain ⟨text, htext⟩ := fieldsContent_text hc.text hft
  rw [htext] at hnt
  rw [readChildren_texts (textContents_isElement text) hnt]
  have hbefore : ∀ s ∈ c.attributes ++ c.text.toList, s.children = [] := by
    intro s hs
    rcases List.mem_append.1 hs with hs | hs
    · exact children_of_isAttribute (hc.attributes s hs)
    · exact children_of_isText (hc.text s hs)
  have hlen : (c.attributes ++ c.text.toList ++ []).length = (fa ++ ft).length := by
    simp [hfa.length_eq, hft.length_eq]
  have h := readChildren_written hbefore c.elements hc.elements hc.bears hc.apart
    (by simpa using hc.childTags) hlen hfe hw ih hne
  simpa [Class.slots] using h

end

theorem sizeOf_append_right (xs ys : List Datum) : sizeOf ys ≤ sizeOf (xs ++ ys) := by
  induction xs with
  | nil => simp
  | cons x xs ih =>
    simp only [List.cons_append, List.cons.sizeOf_spec]
    omega

/-- **An object is read from every tree that shows it**, for classes that fit
    together. -/
theorem readObject_written (hcs : cs.Coherent) (d : Datum) : ReadsBack cs d := by
  induction hsize : sizeOf d using Nat.strongRecOn generalizing d with
  | ind size ih =>
    intro name fields c hd hget hfit hw n hn
    subst hd hsize
    obtain ⟨hmem, rfl⟩ := Classes.mem_of_get? hget
    have hc := hcs.each c hmem
    obtain ⟨fat, fe, rfl, hfat, hfe⟩ := hfit.append_left
    obtain ⟨fa, ft, rfl, hfa, hft⟩ := hfat.append_left
    have hsmaller : ∀ d, sizeOf d ≤ sizeOf fe → ReadsBack cs d := by
      intro d hd
      have hle := sizeOf_append_right (fa ++ ft) fe
      exact ih (sizeOf d) (by simp only [Datum.object.sizeOf_spec]; omega) d rfl
    match n, hn with
    | .element head children, ⟨htag, hattrs, hchildren⟩ =>
      rw [attributesOf_object hc.shaped hfa hft] at hattrs
      rw [fieldsContent_object hc.shaped hfa hft] at hchildren
      obtain ⟨nt, ne, rfl, hnt, hne⟩ := hchildren.append_left
      have htext : (Node.element head (nt ++ ne)).textContent = joinTexts "" nt := by
        rw [textContent_eq, joinTexts_append,
          joinTexts_elements (fieldsContent_elements hc.elements) hne]
      have hexpect : expectElement (.element head (nt ++ ne)) c.tag = .ok () := by
        simp [expectElement, Node.isElement, Node.name, htag]
      have hpass₁ := readAttributes_object hc hfa (initialObject cs [c.name]) hattrs
      have hpass₂ := readText_written hc.attributes hc.elements hc.text hfa.length_eq hft hnt
        (initialObject cs [c.name]) (c.elements.map (initialField (initialObject cs [c.name])))
      have hpass₃ := readChildren_object hc hfa hft hfe (fieldsShown_append.1 hw).2 hsmaller hnt hne
      rw [← Class.slots] at hpass₂
      rw [readObject]
      simp only [hget, hexpect, htext, hpass₁, hpass₂, hpass₃, bind, Except.bind]

theorem contentOf_written (hcs : cs.Coherent) {c : Binding.Class} (hc : c ∈ cs) {v : Datum}
    (hv : v.IsOf cs Returns c) (hshown : isHidden cs v = false) (hwithin : ShownWithin cs v) :
    ∃ tree, contentOf cs v = [tree] ∧ ∀ n, tree.Shows n → readObject cs c.name n = .ok v := by
  obtain ⟨fields, rfl, hfit⟩ := hv
  have hget := hcs.found c hc
  have hwritten : (c.isListShaped && fields.all isEmptyList) = false := by
    simpa [isHidden, hget] using hshown
  refine ⟨.element c.tag (attributesOf c.slots fields) (fieldsContent cs c.slots fields),
    by simp [contentOf, hget, elementOf, hwritten], ?_⟩
  exact readObject_written hcs _ rfl hget hfit (by simpa [ShownWithin] using hwithin)

end

end Bindery.Instance
