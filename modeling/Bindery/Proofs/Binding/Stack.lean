/-
  Making classes with a stack.

  `createClass` is told which elements have their classes being made.  They can
  also be kept on a stack, which a call pushes its element onto before it builds
  the class and pops afterwards, whatever came of it.  Under a policy that
  replaces classes, an element is built every time it is reached, so that the
  classes that were made do not bound the calls, and nothing in a call becomes
  smaller.  `createOn` has the depth to which calls may be nested for an argument;
  no call that is nested deeper has a result.

  * `follows_createOn`: the elements on the stack differ, so that no call is nested
    deeper than there are elements off the stack;
  * `create_on_stack`: every call ends, whatever the document and the policy.
-/
import Bindery.Proofs.Binding.Steps

namespace Bindery.Binding

open Schema
open Code (className)

/-- The elements whose classes are being made, the latest one first. -/
structure Stack where
  now : List String := []
  /-- All that it has held, the latest content first. -/
  past : List (List String) := []

def Stack.become (s : Stack) (content : List String) : Stack :=
  { now := content, past := content :: s.past }

/-- What is done with a stack; `none` stands for what has no result. -/
abbrev StackM := StateT Stack Option

def inProgress : PlanT StackM (List String) := do
  return (← getThe Stack).now

def push (id : String) : PlanT StackM Unit :=
  modifyThe Stack fun s => s.become (id :: s.now)

def pop : PlanT StackM Unit :=
  modifyThe Stack fun s => s.become s.now.tail

/-- Does something with an element on the stack, and takes it off again whether
    that fails or not. -/
def within {α : Type} (id : String) (x : PlanT StackM α) : PlanT StackM α := do
  push id
  let result ← observing x
  pop
  MonadExcept.ofExcept result

def createOn (site : Site) : Nat → String → PlanT StackM (Option String)
  | 0, _ => monadLift (none : Option (Option String))
  | depth + 1, id => do
    match site.document.elements.get? id with
    | none =>
      tell (.noElement id)
      return none
    | some e =>
      let name := className e.name
      if id ∈ (← inProgress) then
        return some name
      else
        if ← claimName site.policy name id then
          tell (.creatingClass name id)
          modify fun p => { p with owners := p.owners.insert name id }
          let made ← within id (buildClass site inProgress (createOn site depth) e)
          modify fun p => { p with classes := p.classes.insert name made }
        return some name

def createRootsOn (site : Site) (depth : Nat) : PlanT StackM Unit :=
  site.document.roots.forM fun root => discard (createOn site depth root)

/-! ## With and without the stack -/

/-- Whether what is done with `path` on the stack comes to the same as what is done
    without the stack, which is as before in the end and never held an element
    twice. -/
def Follows {α : Type} (path : List String) (x : PlanT StackM α) (y : PlanM α) : Prop :=
  ∀ p past, ∃ held, (x.run.run p).run ⟨path, past⟩ = some (y.run.run p, ⟨path, held ++ past⟩) ∧
    ∀ content ∈ held, content.Nodup

section
variable {α β : Type} {path : List String}

theorem Follows.pure (a : α) : Follows path (Pure.pure a) (Pure.pure a) :=
  fun _ _ => ⟨[], rfl, by simp⟩

theorem Follows.bind {x : PlanT StackM α} {y : PlanM α} {f : α → PlanT StackM β} {g : α → PlanM β}
    (hx : Follows path x y) (hf : ∀ a, Follows path (f a) (g a)) :
    Follows path (x >>= f) (y >>= g) := by
  intro p past
  obtain ⟨held, hrun, hheld⟩ := hx p past
  have hxf : ((x >>= f).run.run p).run ⟨path, past⟩ =
      ((x.run.run p).run ⟨path, past⟩).bind fun r =>
        ((ExceptT.bindCont f r.1.1).run r.1.2).run r.2 := rfl
  have hyg : (y >>= g).run.run p = (ExceptT.bindCont g (y.run.run p).1).run (y.run.run p).2 := rfl
  rw [hxf, hyg, hrun, Option.bind_some]
  cases (y.run.run p).1 with
  | error fault => exact ⟨held, rfl, hheld⟩
  | ok a =>
    obtain ⟨held', hrun', hheld'⟩ := hf a (y.run.run p).2 (held ++ past)
    refine ⟨held' ++ held, ?_, ?_⟩
    · rw [List.append_assoc]
      exact hrun'
    · intro content hcontent
      exact (List.mem_append.1 hcontent).elim (hheld' content) (hheld content)

theorem Follows.throw (fault : GenerateError) :
    Follows (α := α) path (MonadExcept.throw fault) (MonadExcept.throw fault) :=
  fun _ _ => ⟨[], rfl, by simp⟩

theorem follows_get : Follows path (get : PlanT StackM Planning) get :=
  fun _ _ => ⟨[], rfl, by simp⟩

theorem follows_modify (f : Planning → Planning) :
    Follows path (modify f : PlanT StackM Unit) (modify f) :=
  fun _ _ => ⟨[], rfl, by simp⟩

theorem follows_inProgress {f : List String → PlanT StackM α} {y : PlanM α}
    (h : Follows path (f path) y) : Follows path (inProgress >>= f) y :=
  h

/-! ## Steps that make no class -/

theorem follows_tell (n : Notice) : Follows path (tell n) (tell n) :=
  follows_modify _

theorem follows_takeTypeName (base : String) :
    Follows path (takeTypeName base) (takeTypeName base) :=
  .bind follows_get fun _ => .bind (follows_modify _) fun _ => .pure _

theorem follows_requireLegal (names : List String) :
    Follows path (requireLegal names) (requireLegal names) := by
  rw [requireLegal, requireLegal]
  split
  · exact .throw _
  · exact .pure _

theorem follows_scalarType {cls label : String} {dataType : Option DataType}
    {facet : Option Facet} :
    Follows path (scalarType cls label dataType facet) (scalarType cls label dataType facet) := by
  rw [scalarType, scalarType]
  split
  · exact .pure _
  · exact .bind (follows_takeTypeName _) fun _ => .bind (follows_requireLegal _) fun _ => .pure _

theorem follows_attributeSlots {d : Document} {cls : String} :
    ∀ (rs : List Relation) (taken : List String),
      Follows path (attributeSlots d cls taken rs) (attributeSlots d cls taken rs)
  | [], _ => .pure _
  | r :: rs, taken => by
    rw [attributeSlots, attributeSlots]
    split
    · exact .bind (follows_tell _) fun _ => follows_attributeSlots rs taken
    · exact .bind follows_scalarType fun _ =>
        .bind (follows_attributeSlots rs _) fun _ => .pure _

theorem follows_textSlot {cls : String} {taken : List String} {e : Element} :
    Follows path (textSlot cls taken e) (textSlot cls taken e) := by
  rw [textSlot, textSlot]
  split
  · exact .bind follows_scalarType fun _ => .pure _
  · exact .pure _

theorem follows_claimName {policy : ConflictPolicy} {name id : String} :
    Follows path (claimName policy name id) (claimName policy name id) := by
  rw [claimName, claimName]
  refine .bind follows_get fun p => ?_
  split
  · exact .pure _
  · split
    · exact .pure _
    · cases policy with
      | replace =>
        exact .bind (follows_tell _) fun _ => .bind (follows_modify _) fun _ => .pure _
      | keep => exact .bind (follows_tell _) fun _ => .pure _
      | error => exact .throw _

/-! ## Slots -/

section
variable {create : String → PlanT StackM (Option String)} {create' : String → PlanM (Option String)}
  (hcreate : ∀ id, Follows path (create id) (create' id)) {d : Document} {cls : String}
include hcreate

theorem follows_childType {label : String} {boxable : Bool} {target : Element} :
    Follows path (childType inProgress create cls label boxable target)
      (childType (Pure.pure path) create' cls label boxable target) := by
  rw [childType, childType]
  split
  · exact .bind follows_scalarType fun _ => .pure _
  · refine .bind (hcreate _) fun found => ?_
    cases found with
    | none => exact .pure _
    | some name => exact follows_inProgress (.pure _)

theorem follows_childSlot {taken : List String} {r : Relation} :
    Follows path (childSlot d inProgress create cls taken r)
      (childSlot d (Pure.pure path) create' cls taken r) := by
  rw [childSlot, childSlot]
  split
  · exact .bind (follows_tell _) fun _ => .pure _
  · refine .bind (follows_childType hcreate) fun type => ?_
    cases type <;> exact .pure _

theorem follows_alternatives : ∀ (rs : List Relation) (made : List Alternative),
    Follows path (alternatives d inProgress create cls made rs)
      (alternatives d (Pure.pure path) create' cls made rs)
  | [], _ => .pure _
  | r :: rs, made => by
    rw [alternatives, alternatives]
    split
    · exact .bind (follows_tell _) fun _ => follows_alternatives rs made
    · refine .bind (follows_childType hcreate) fun type => ?_
      cases type <;> exact follows_alternatives rs _

theorem follows_choiceSlot {taken : List String} {group : String} {all : List Relation} :
    Follows path (choiceSlot d inProgress create cls taken group all)
      (choiceSlot d (Pure.pure path) create' cls taken group all) := by
  rw [choiceSlot, choiceSlot]
  refine .bind (follows_takeTypeName _) fun _ =>
    .bind (follows_alternatives hcreate _ _) fun made => ?_
  cases made <;> exact .pure _

theorem follows_elementSlots {all : List Relation} :
    ∀ (rs : List Relation) (groups taken : List String),
      Follows path (elementSlots d inProgress create cls all groups taken rs)
        (elementSlots d (Pure.pure path) create' cls all groups taken rs)
  | [], _, _ => .pure _
  | r :: rs, groups, taken => by
    rw [elementSlots, elementSlots]
    split
    · split
      · exact follows_elementSlots rs groups taken
      · exact .bind (follows_choiceSlot hcreate) fun _ =>
          .bind (follows_elementSlots rs _ _) fun _ => .pure _
    · exact .bind (follows_childSlot hcreate) fun _ =>
        .bind (follows_elementSlots rs _ _) fun _ => .pure _

theorem follows_buildClass {site : Site} {e : Element} :
    Follows path (buildClass site inProgress create e)
      (buildClass site (Pure.pure path) create' e) :=
  .bind (follows_elementSlots hcreate _ _ _) fun _ => .bind (follows_attributeSlots _ _) fun _ =>
    .bind follows_textSlot fun _ => .bind (follows_requireLegal _) fun _ => .pure _

end

/-! ## Classes -/

theorem run_observing (x : PlanT StackM α) (p : Planning) (s : Stack) :
    ((observing x).run.run p).run s =
      ((x.run.run p).run s).map fun r => ((.ok r.1.1, r.1.2), r.2) := by
  change Option.bind (Option.bind ((x.run.run p).run s) _) _ = _
  rcases (x.run.run p).run s with _ | ⟨⟨_ | _, _⟩, _⟩ <;> rfl

theorem Follows.within {id : String} (hid : id ∉ path) (hpath : path.Nodup)
    {x : PlanT StackM α} {y : PlanM α} (h : Follows (id :: path) x y) :
    Follows path (within id x) y := by
  intro p past
  obtain ⟨held, hrun, hheld⟩ := h p ((id :: path) :: past)
  refine ⟨path :: held ++ [id :: path], ?_, ?_⟩
  · change Option.bind (((observing x).run.run p).run ⟨id :: path, (id :: path) :: past⟩) _ = _
    rw [run_observing, hrun]
    rw [List.append_assoc]
    rcases y.run.run p with ⟨_ | _, _⟩ <;> rfl
  · intro content hcontent
    rw [List.cons_append, List.mem_cons, List.mem_append, List.mem_singleton] at hcontent
    rcases hcontent with rfl | hcontent | rfl
    · exact hpath
    · exact hheld content hcontent
    · exact hpath.cons hid

theorem follows_createOn (site : Site) (depth : Nat) (hpath : path.Nodup)
    (hdepth : remaining site.document.elements.keys path < depth) (id : String) :
    Follows path (createOn site depth id) (createClass site path id) := by
  -- on the depth: an element that is pushed was not on the stack, so fewer remain
  induction depth generalizing path id with
  | zero => exact absurd hdepth (Nat.not_lt_zero _)
  | succ depth ih =>
    rw [createOn]
    cases he : site.document.elements.get? id with
    | none =>
      rw [createClass_none he]
      exact .bind (follows_tell _) fun _ => .pure _
    | some e =>
      rw [createClass_some he]
      refine follows_inProgress ?_
      split
      · exact .pure _
      · rename_i hid
        have hbuild : Follows path
            (within id (buildClass site inProgress (createOn site depth) e))
            (buildClass site (Pure.pure (id :: path)) (createClass site (id :: path)) e) := by
          have hfewer := remaining_cons_lt (Table.mem_keys_of_get? he) hid
          refine .within hid hpath (follows_buildClass fun other => ?_)
          exact ih (hpath.cons hid) (by omega) other
        refine .bind follows_claimName fun claimed => ?_
        cases claimed with
        | false => exact .pure _
        | true =>
          exact .bind (follows_tell _) fun _ => .bind (follows_modify _) fun _ =>
            .bind hbuild fun _ => .bind (follows_modify _) fun _ => .pure _

theorem Follows.forM {x : α → PlanT StackM Unit} {y : α → PlanM Unit}
    (h : ∀ a, Follows path (x a) (y a)) : ∀ as : List α, Follows path (as.forM x) (as.forM y)
  | [] => .pure _
  | a :: as => .bind (h a) fun _ => Follows.forM h as

end

theorem remaining_le_length (names seen : List String) : remaining names seen ≤ names.length := by
  induction names with
  | nil => exact Nat.le_refl _
  | cons n names ih =>
    rw [remaining, List.length_cons]
    split <;> omega

/-- **Making classes ends for every document.**  Whatever the relations lead to, be
    it nothing, and whatever class names are contested under whatever policy, no
    call is nested deeper than there are elements: with depth for more than these,
    a call has the result and the state of `createClass`, and so do the calls for
    all roots.  The stack is as it was before, whether the call failed or not, and
    at no time has it held an element twice. -/
theorem create_on_stack (site : Site) {depth : Nat}
    (hdepth : site.document.elements.size < depth) (p : Planning) :
    (∀ (id : String) (stack : Stack), stack.now.Nodup → ∃ held,
      ((createOn site depth id).run.run p).run stack =
        some ((createClass site stack.now id).run.run p,
          { stack with past := held ++ stack.past }) ∧
      ∀ content ∈ held, content.Nodup) ∧
    ∃ held, ((createRootsOn site depth).run.run p).run {} =
        some ((createRoots site).run.run p, { past := held }) ∧
      ∀ content ∈ held, content.Nodup := by
  have hcreate : ∀ path : List String, path.Nodup → ∀ id,
      Follows path (createOn site depth id) (createClass site path id) := by
    intro path hpath id
    have hkeys : site.document.elements.keys.length = site.document.elements.size :=
      List.length_map _
    have hremaining := remaining_le_length site.document.elements.keys path
    exact follows_createOn site depth hpath (by omega) id
  refine ⟨fun id stack hnow => hcreate stack.now hnow id p stack.past, ?_⟩
  have hroots : Follows [] (createRootsOn site depth) (createRoots site) :=
    .forM (fun root => .bind (hcreate [] .nil root) fun _ => .pure _) _
  obtain ⟨held, hrun, hheld⟩ := hroots p []
  rw [List.append_nil] at hrun
  exact ⟨held, hrun, hheld⟩

/-- Parts and parts of another kind, which want one class name, in each other, in
    themselves and with a relation that leads nowhere. -/
def partDocument : Document :=
  { roots := ["part"]
    elements := ⟨[
      ("part", {
        identifier := "part", name := "part"
        elementRelations := [{ target := "Part" }, { target := "screw" }] }),
      ("Part", {
        identifier := "Part", name := "Part"
        elementRelations := [{ target := "part" }, { target := "Part" }] })]⟩ }

set_option maxRecDepth 10000 in
/-- The stack goes up to two parts and down again where one replaces the other, and
    where they may not share the name it is emptied after the failure. -/
theorem part_stack :
    (((createOn { document := partDocument } 3 "part").run.run {}).run {}).map (·.2.past) =
      some [[], ["part"], ["Part", "part"], ["part"]] ∧
    (((createOn { document := partDocument, policy := .error } 3 "part").run.run {}).run {}).map
      (fun r => (r.1.1.toOption.isSome, r.2.past)) = some (false, [[], ["part"]]) ∧
    partDocument.elements.size < 3 ∧ ["Part"].Nodup ∧
    (∃ held, ((createOn { document := partDocument } 3 "part").run.run {}).run ⟨["Part"], []⟩ =
        some ((createClass { document := partDocument } ["Part"] "part").run.run {},
          ⟨["Part"], held ++ []⟩) ∧
      ∀ content ∈ held, content.Nodup) ∧
    ∃ held, ((createRootsOn { document := partDocument } 3).run.run {}).run {} =
        some ((createRoots { document := partDocument }).run.run {}, { past := held }) ∧
      ∀ content ∈ held, content.Nodup := by
  have hsize : partDocument.elements.size < 3 := by decide
  obtain ⟨hcreate, hroots⟩ := create_on_stack { document := partDocument } hsize {}
  exact ⟨by decide +kernel, by decide +kernel, hsize, by decide, hcreate "part" _ (by decide),
    hroots⟩

end Bindery.Binding
