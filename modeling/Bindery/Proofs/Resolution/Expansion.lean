/-
  Resolving is expanding.

  `expand` says what a pattern tree means without a table of results: every
  reference gives way to the expanded bodies it names.  `expansion` is the
  expanded bodies of a name, computed anew for every use.  Where no definition
  depends on itself, the start that `Grammar.resolve` finds, which resolves
  every definition once and shares the result, is the expanded start.

  * `expansion_eq`: the expanded bodies of a name are its bodies, expanded;
  * `lookupIn_answers`: a name leads to its expanded bodies, whichever
    definitions were resolved before;
  * `resolve_start`: the resolved start is the expanded start.
-/
import Mathlib.Logic.Relation
import Bindery.Proofs.Resolution.Fresh

namespace Bindery.Schema

/-! ## What definitions depend on -/

namespace ElementPattern

/-- The names that an element uses, at any depth: those it refers to and those
    that describe the values of its attributes. -/
def uses (e : ElementPattern) : List String :=
  e.walk.flatMap fun x => x.references.map (·.name) ++ x.attributes.filterMap (·.valueReference)

theorem mem_uses {e : ElementPattern} {name : String} :
    name ∈ e.uses ↔ ∃ x ∈ e.walk, (∃ r ∈ x.references, r.name = name) ∨
      ∃ a ∈ x.attributes, a.valueReference = some name := by
  simp [uses]

theorem reference_mem_uses {e : ElementPattern} {r : Reference} (h : r ∈ e.references) :
    r.name ∈ e.uses :=
  mem_uses.2 ⟨e, mem_walk.2 (.inl rfl), .inl ⟨r, h, rfl⟩⟩

theorem value_mem_uses {e : ElementPattern} {a : AttributePattern} {name : String}
    (h : a ∈ e.attributes) (hv : a.valueReference = some name) : name ∈ e.uses :=
  mem_uses.2 ⟨e, mem_walk.2 (.inl rfl), .inr ⟨a, h, hv⟩⟩

theorem child_uses {c e : ElementPattern} (h : c ∈ e.elements) {name : String}
    (hn : name ∈ c.uses) : name ∈ e.uses := by
  obtain ⟨x, hx, hu⟩ := mem_uses.1 hn
  exact mem_uses.2 ⟨x, mem_walk.2 (.inr ⟨c, h, hx⟩), hu⟩

end ElementPattern

def Definitions.Depends (ds : Definitions) (a b : String) : Prop :=
  ∃ bodies, ds.get? a = some bodies ∧ ∃ body ∈ bodies, b ∈ body.uses

/-- No definition depends on itself, over any number of steps. -/
def Definitions.Acyclic (ds : Definitions) : Prop :=
  ∀ name, ¬ Relation.TransGen ds.Depends name name

/-- Every element of the grammar, in the start and in the definitions. -/
def Grammar.nodes (g : Grammar) : List ElementPattern :=
  g.start.walk ++ g.definitions.values.flatten.flatMap (·.walk)

/-- No element refers to the definition that has its own name. -/
def Grammar.NoSelfNamed (g : Grammar) : Prop :=
  ∀ e ∈ g.nodes, ∀ r ∈ e.references, r.name ≠ e.name

theorem Definitions.Depends.mem {ds : Definitions} {a b : String} (h : ds.Depends a b) :
    ∃ entry ∈ ds.entries, entry.1 = a ∧ ∃ body ∈ entry.2, b ∈ body.uses := by
  obtain ⟨bodies, hget, hb⟩ := h
  obtain ⟨before, after, heq, -⟩ := List.lookup_eq_some_iff.1 hget
  exact ⟨(a, bodies), heq ▸ by simp, rfl, hb⟩

/-- Definitions are acyclic if names can be ranked so that every body uses names
    of lower rank only. -/
theorem Definitions.acyclic_of_rank {ds : Definitions} (rank : String → Nat)
    (h : ∀ entry ∈ ds.entries, ∀ body ∈ entry.2, ∀ name ∈ body.uses, rank name < rank entry.1) :
    ds.Acyclic := by
  have hstep : ∀ a b, Relation.TransGen ds.Depends a b → rank b < rank a := by
    intro a b hab
    induction hab with
    | single hd =>
      obtain ⟨entry, he, rfl, body, hb, hm⟩ := hd.mem
      exact h entry he body hb _ hm
    | tail _ hd ih =>
      obtain ⟨entry, he, rfl, body, hb, hm⟩ := hd.mem
      exact Nat.lt_trans (h entry he body hb _ hm) ih
  exact fun name hcycle => Nat.lt_irrefl _ (hstep name name hcycle)

/-! ## Expanding -/

section
variable (find : String → Option (List ElementPattern))

/-- The bodies that take the place of a reference, each with the modifiers it
    stands under. -/
def bodiesFor (r : Reference) : List (Pattern × ElementPattern) :=
  ((find r.name).getD []).map fun body => (r.pattern, body)

/-- The attribute with the type that the definition of its value gives it,
    where it has none. -/
def fillType (a : AttributePattern) : AttributePattern :=
  let bodies := (a.valueReference.bind find).getD []
  { a with
    valueReference := none
    dataType := a.dataType <|> bodies.findSome? (·.dataType)
    facet := a.facet <|> bodies.findSome? fun body => Facet.proper body.facet }

/-- The references that stay for one reference: those that its bodies were left
    with, or the reference itself when its name is not defined. -/
def leftoverOf (r : Reference) : List Reference :=
  match find r.name with
  | none => [{ r with substituted := true }]
  | some bodies => bodies.flatMap fun body => body.references.map fun left =>
      { left with pattern := left.pattern.merge r.pattern, substituted := true }

mutual

/-- **The element with every reference expanded**, given the expanded bodies of
    every name.  The bodies of each reference follow the element's own content
    in order, under the modifiers of the reference. -/
def expand : ElementPattern → ElementPattern
  | ⟨name, hasText, isEmpty, elements, attributes, references, pattern, dataType, facet⟩ =>
    let bodies := references.flatMap (bodiesFor find)
    { name, isEmpty, pattern
      elements := expandAll elements ++ bodies.flatMap fun (p, body) =>
        body.elements.map fun c => { c with pattern := c.pattern.merge p }
      attributes := attributes.map (fillType find) ++ bodies.flatMap fun (p, body) =>
        body.attributes.map (·.mergePattern p)
      references := references.flatMap (leftoverOf find)
      hasText := hasText || bodies.any (·.2.hasText)
      dataType := dataType <|> bodies.findSome? (·.2.dataType)
      facet := facet <|> bodies.findSome? (·.2.facet) }

def expandAll : List ElementPattern → List ElementPattern
  | [] => []
  | e :: es => expand e :: expandAll es

end

theorem expandAll_eq_map : ∀ es : List ElementPattern, expandAll find es = es.map (expand find)
  | [] => rfl
  | e :: es => by rw [expandAll, expandAll_eq_map es, List.map_cons]

end

/-- The expanded bodies of `name`, below the definitions of `path`.  A name that
    leads back into `path` has none; without such names `path` does not matter
    (`expansionAlong_eq`), it only bounds the recursion. -/
def expansionAlong (ds : Definitions) (path : List String) (name : String) :
    Option (List ElementPattern) :=
  if _hp : name ∈ path then none
  else
    match _h : ds.get? name with
    | none => none
    | some bodies => some (bodies.map (expand fun n => expansionAlong ds (name :: path) n))
termination_by remaining ds.keys path
decreasing_by exact remaining_cons_lt (Table.mem_keys_of_get? _h) _hp

def expansion (ds : Definitions) (name : String) : Option (List ElementPattern) :=
  expansionAlong ds [] name

/-! ## The expanded bodies of a name -/

section
variable {find find' : String → Option (List ElementPattern)}

theorem mem_bodiesFor {r : Reference} {p : Pattern} {body : ElementPattern}
    (h : (p, body) ∈ bodiesFor find r) : ∃ bodies, find r.name = some bodies ∧ body ∈ bodies := by
  obtain ⟨b, hb, heq⟩ := List.mem_map.1 h
  obtain ⟨rfl, rfl⟩ := Prod.mk.inj heq
  cases hf : find r.name with
  | none => simp [hf] at hb
  | some bodies => exact ⟨bodies, rfl, by simpa [hf] using hb⟩

/-- No attribute of the bodies found has a definition of its value left. -/
def ValuesFilled (find : String → Option (List ElementPattern)) : Prop :=
  ∀ name bodies, find name = some bodies → ∀ body ∈ bodies,
    ∀ a ∈ body.attributes, a.valueReference = none

theorem ValuesFilled.appended (hf : ValuesFilled find) {rs : List Reference}
    {a : AttributePattern} (ha : a ∈ (rs.flatMap (bodiesFor find)).flatMap fun (p, body) =>
      body.attributes.map (·.mergePattern p)) : a.valueReference = none := by
  obtain ⟨⟨p, body⟩, hb, ha⟩ := List.mem_flatMap.1 ha
  obtain ⟨r, -, hb⟩ := List.mem_flatMap.1 hb
  obtain ⟨bodies, hbs, hm⟩ := mem_bodiesFor hb
  obtain ⟨o, ho, rfl⟩ := List.mem_map.1 ha
  exact hf _ bodies hbs body hm o ho

theorem expand_congr (e : ElementPattern) (h : ∀ name ∈ e.uses, find name = find' name) :
    expand find e = expand find' e := by
  induction e using ElementPattern.childInduction with
  | step e ih =>
    have hb : ∀ r ∈ e.references, bodiesFor find r = bodiesFor find' r := fun r hr => by
      simp only [bodiesFor, h _ (ElementPattern.reference_mem_uses hr)]
    have hl : ∀ r ∈ e.references, leftoverOf find r = leftoverOf find' r := fun r hr => by
      simp only [leftoverOf, h _ (ElementPattern.reference_mem_uses hr)]
    have ha : ∀ a ∈ e.attributes, fillType find a = fillType find' a := by
      intro a ha
      cases hv : a.valueReference with
      | none => simp only [fillType, hv, Option.bind_none]
      | some name =>
        simp only [fillType, hv, Option.bind_some, h _ (ElementPattern.value_mem_uses ha hv)]
    have hc : ∀ c ∈ e.elements, expand find c = expand find' c := fun c hc =>
      ih c hc fun name hn => h name (ElementPattern.child_uses hc hn)
    cases e
    rw [expand, expand, expandAll_eq_map, expandAll_eq_map, List.map_congr_left hc,
      List.map_congr_left ha, List.flatMap_congr hb, List.flatMap_congr hl]

end

section
variable {ds : Definitions}

/-- Whether every definition of the path depends on `name`. -/
def Definitions.LeadTo (ds : Definitions) (path : List String) (name : String) : Prop :=
  ∀ p ∈ path, Relation.TransGen ds.Depends p name

theorem Definitions.LeadTo.not_mem {path : List String} {name : String}
    (h : ds.LeadTo path name) (ha : ds.Acyclic) : name ∉ path :=
  fun hm => ha name (h name hm)

theorem Definitions.LeadTo.cons {path : List String} {name n : String}
    (h : ds.LeadTo path name) (hd : ds.Depends name n) : ds.LeadTo (name :: path) n := by
  intro p hp
  rcases List.mem_cons.1 hp with rfl | hp
  · exact .single hd
  · exact (h p hp).tail hd

theorem expansionAlong_of_not_mem {path : List String} {name : String} (h : name ∉ path) :
    expansionAlong ds path name =
      (ds.get? name).map (·.map (expand (expansionAlong ds (name :: path)))) := by
  rw [expansionAlong, dif_neg h]
  rcases hds : ds.get? name with _ | bodies <;> rfl

theorem expansionAlong_eq (ha : ds.Acyclic) {path path' : List String} {name : String}
    (h : ds.LeadTo path name) (h' : ds.LeadTo path' name) :
    expansionAlong ds path name = expansionAlong ds path' name := by
  induction hn : remaining ds.keys path using Nat.strongRecOn generalizing path path' name with
  | ind n ih =>
    subst hn
    rw [expansionAlong_of_not_mem (h.not_mem ha), expansionAlong_of_not_mem (h'.not_mem ha)]
    rcases hds : ds.get? name with _ | bodies
    · rfl
    · have hlt := remaining_cons_lt (Table.mem_keys_of_get? hds) (h.not_mem ha)
      refine congrArg some (List.map_congr_left fun body hb => expand_congr body fun m hm => ?_)
      have hd : ds.Depends name m := ⟨bodies, hds, body, hb, hm⟩
      exact ih _ hlt (h.cons hd) (h'.cons hd) rfl

theorem expansion_eq (ha : ds.Acyclic) (name : String) :
    expansion ds name = (ds.get? name).map (·.map (expand (expansion ds))) := by
  rw [expansion, expansionAlong_of_not_mem List.not_mem_nil]
  rcases hds : ds.get? name with _ | bodies
  · rfl
  · refine congrArg some (List.map_congr_left fun body hb => expand_congr body fun m hm => ?_)
    have hd : ds.Depends name m := ⟨bodies, hds, body, hb, hm⟩
    exact expansionAlong_eq ha (Definitions.LeadTo.cons (by nofun) hd) (by nofun)

theorem valuesFilled_expansionAlong (path : List String) :
    ValuesFilled (expansionAlong ds path) := by
  induction hn : remaining ds.keys path using Nat.strongRecOn generalizing path with
  | ind n ih =>
    subst hn
    intro name bodies h body hb a ha
    have hp : name ∉ path := by
      intro hp
      rw [expansionAlong, dif_pos hp] at h
      cases h
    rw [expansionAlong_of_not_mem hp, Option.map_eq_some_iff] at h
    obtain ⟨own, hds, rfl⟩ := h
    obtain ⟨b, -, rfl⟩ := List.mem_map.1 hb
    have hlt := remaining_cons_lt (Table.mem_keys_of_get? hds) hp
    cases b
    rw [expand] at ha
    rcases List.mem_append.1 ha with ha | ha
    · obtain ⟨o, -, rfl⟩ := List.mem_map.1 ha
      rfl
    · exact (ih _ hlt _ rfl).appended ha

theorem valuesFilled_expansion : ValuesFilled (expansion ds) :=
  valuesFilled_expansionAlong []

end

/-! ## Resolving as expanding -/

/-- What is appended to an element in the place of references, with the
    expanded bodies of every name given. -/
def appendBodies (find : String → Option (List ElementPattern)) (e : ElementPattern)
    (rs : List Reference) : ElementPattern :=
  let bodies := rs.flatMap (bodiesFor find)
  { e with
    elements := e.elements ++ bodies.flatMap fun (p, body) =>
      body.elements.map fun c => { c with pattern := c.pattern.merge p }
    attributes := e.attributes ++ bodies.flatMap fun (p, body) =>
      body.attributes.map (·.mergePattern p)
    references := e.references ++ rs.flatMap (leftoverOf find)
    hasText := e.hasText || bodies.any (·.2.hasText)
    dataType := e.dataType <|> bodies.findSome? (·.2.dataType)
    facet := e.facet <|> bodies.findSome? (·.2.facet) }

section
variable {find : String → Option (List ElementPattern)}

theorem appendBodies_nil (e : ElementPattern) : appendBodies find e [] = e := by
  cases e
  simp [appendBodies]

theorem foldl_inlineBody (p : Pattern) : ∀ (bodies : List ElementPattern) (e : ElementPattern),
    bodies.foldl (inlineBody p) e =
      { e with
        elements := e.elements ++ bodies.flatMap fun body =>
          body.elements.map fun c => { c with pattern := c.pattern.merge p }
        attributes := e.attributes ++ bodies.flatMap fun body =>
          body.attributes.map (·.mergePattern p)
        references := e.references ++ bodies.flatMap fun body => body.references.map fun r =>
          { r with pattern := r.pattern.merge p, substituted := true }
        hasText := e.hasText || bodies.any (·.hasText)
        dataType := e.dataType <|> bodies.findSome? (·.dataType)
        facet := e.facet <|> bodies.findSome? (·.facet) }
  | [], e => by
    cases e
    simp
  | b :: bs, e => by
    rw [List.foldl_cons, foldl_inlineBody p bs]
    simp only [inlineBody, List.flatMap_cons, List.any_cons, List.findSome?_cons,
      List.append_assoc, Bool.or_assoc]
    congr 1
    · cases e.dataType <;> cases b.dataType <;> rfl
    · cases e.facet <;> cases b.facet <;> rfl

/-- The first reference may be dealt with before the others. -/
theorem appendBodies_cons (e : ElementPattern) (r : Reference) (rs : List Reference) :
    appendBodies find e (r :: rs) =
      appendBodies find
        (match find r.name with
          | some bodies => bodies.foldl (inlineBody r.pattern) e
          | none => keepReference e { r with substituted := true }) rs := by
  cases hf : find r.name with
  | none => simp [appendBodies, bodiesFor, leftoverOf, hf, keepReference]
  | some bodies =>
    simp only [foldl_inlineBody]
    simp [appendBodies, bodiesFor, leftoverOf, hf, List.flatMap_map, List.findSome?_map,
      Function.comp_def, Bool.or_assoc, Option.or_assoc]

theorem fillType_of_none {a : AttributePattern} (h : a.valueReference = none) :
    fillType find a = a := by
  cases a
  cases h
  simp [fillType]

theorem expand_eq (hf : ValuesFilled find) (e : ElementPattern) :
    expand find e =
      let grown := appendBodies find { e with elements := [], references := [] } e.references
      { grown with
        elements := e.elements.map (expand find) ++ grown.elements
        attributes := grown.attributes.map (fillType find) } := by
  have happended : ∀ as : List AttributePattern, (∀ a ∈ as, a.valueReference = none) →
      as.map (fillType find) = as := fun as has =>
    (List.map_congr_left fun a ha => fillType_of_none (has a ha)).trans (List.map_id' as)
  cases e
  rw [expand, expandAll_eq_map]
  simp only [appendBodies, List.nil_append, List.map_append,
    happended _ fun _ => hf.appended]

end

def Expanded (ds done : Definitions) : Prop :=
  ∀ name bodies, done.get? name = some bodies → expansion ds name = some bodies

/-- Whether `name` leads to its expanded bodies, whichever definitions have
    been resolved. -/
def Answers (ds : Definitions) (lookup : String → ResolveM Target) (name : String) : Prop :=
  ∀ s : Resolving, Expanded ds s.done → Expanded ds (lookup name s).2.done ∧
    (lookup name s).1 = (expansion ds name).elim .missing .resolved

section
variable {ds : Definitions} {lookup : String → ResolveM Target}

theorem expandReferences_eq_appendBodies {owner : String} : ∀ {rs : List Reference},
    (∀ r ∈ rs, Answers ds lookup r.name) →
    (∀ r ∈ rs, r.name ≠ owner ∧ r.substituted = false) →
    ∀ (grown : ElementPattern) (s : Resolving), Expanded ds s.done →
      Expanded ds (expandReferences lookup owner grown rs s).2.done ∧
        (expandReferences lookup owner grown rs s).1 = appendBodies (expansion ds) grown rs
  | [], _, _, grown, _, hs => ⟨hs, (appendBodies_nil grown).symm⟩
  | r :: rs, hl, hr, grown, s, hs => by
    have hl' : ∀ q ∈ rs, Answers ds lookup q.name := fun q hq => hl q (List.mem_cons_of_mem _ hq)
    have hr' : ∀ q ∈ rs, q.name ≠ owner ∧ q.substituted = false :=
      fun q hq => hr q (List.mem_cons_of_mem _ hq)
    obtain ⟨hne, hsub⟩ := hr r List.mem_cons_self
    obtain ⟨hd, ht⟩ := hl r List.mem_cons_self s hs
    obtain ⟨grown', s', heq, hcase⟩ := expandReferences_cons lookup owner grown r rs s
    rw [heq, appendBodies_cons]
    rcases hcase with ⟨hk, -, -⟩ | ⟨-, -, hdone, htarget⟩
    · rw [hsub] at hk
      exact absurd hk (by simpa using hne)
    · -- the bodies a name leads to are those of its expansion
      have hgrown : grown' = match expansion ds r.name with
          | some bodies => bodies.foldl (inlineBody r.pattern) grown
          | none => keepReference grown { r with substituted := true } := by
        rw [ht] at htarget
        cases hx : expansion ds r.name with
        | none =>
          rw [hx] at htarget
          rcases htarget with ⟨bodies, hb, -⟩ | ⟨-, hg⟩
          · cases hb
          · exact hg
        | some bodies =>
          rw [hx] at htarget
          rcases htarget with ⟨bodies', hb, hg⟩ | ⟨hb | hb, -⟩
          · cases hb
            exact hg
          · cases hb
          · cases hb
      rw [← hgrown]
      exact expandReferences_eq_appendBodies hl' hr' grown' s' (hdone ▸ hd)

theorem foldl_inlineValue : ∀ (bodies : List ElementPattern) (a : AttributePattern),
    bodies.foldl inlineValue a =
      { a with
        dataType := a.dataType <|> bodies.findSome? (·.dataType)
        facet := a.facet <|> bodies.findSome? fun body => Facet.proper body.facet }
  | [], a => by simp
  | b :: bs, a => by
    rw [List.foldl_cons, foldl_inlineValue bs]
    simp only [inlineValue, List.findSome?_cons]
    congr 1
    · cases a.dataType <;> cases b.dataType <;> rfl
    · cases a.facet <;> cases Facet.proper b.facet <;> rfl

theorem resolveValue_eq_fillType {a : AttributePattern}
    (hl : ∀ name, a.valueReference = some name → Answers ds lookup name) (s : Resolving)
    (hs : Expanded ds s.done) : Expanded ds (resolveValue lookup a s).2.done ∧
      (resolveValue lookup a s).1 = fillType (expansion ds) a := by
  rcases resolveValue_cases lookup a s with ⟨hv, ha⟩ | ⟨name, hv, hdone, hcase⟩
  · rw [ha, fillType_of_none hv]
    exact ⟨hs, rfl⟩
  · obtain ⟨hd, ht⟩ := hl name hv s hs
    refine ⟨hdone ▸ hd, ?_⟩
    rw [ht] at hcase
    cases hx : expansion ds name with
    | none =>
      rw [hx] at hcase
      rcases hcase with ⟨bodies, hb, -⟩ | ⟨-, hr⟩
      · cases hb
      · rw [hr]
        simp [fillType, hv, hx]
    | some bodies =>
      rw [hx] at hcase
      rcases hcase with ⟨bodies', hb, hr⟩ | ⟨hb | hb, -⟩
      · cases hb
        rw [hr, foldl_inlineValue]
        simp [fillType, hv, hx]
      · cases hb
      · cases hb

/-- The element is as a grammar is read: nothing in it has been dealt with, and
    no reference has the name of the element that holds it. -/
def ElementPattern.Unexpanded (e : ElementPattern) : Prop :=
  ∀ x ∈ e.walk, ∀ r ∈ x.references, r.name ≠ x.name ∧ r.substituted = false

/-- **Resolving a tree is expanding it**, if the names it uses lead to their
    expanded bodies. -/
theorem substitute_eq_expand (e : ElementPattern) (he : e.Unexpanded)
    (hl : ∀ name ∈ e.uses, Answers ds lookup name) (s : Resolving) (hs : Expanded ds s.done) :
    Expanded ds (substitute lookup e s).2.done ∧
      (substitute lookup e s).1 = expand (expansion ds) e := by
  induction e using ElementPattern.childInduction generalizing s with
  | step e ih =>
    obtain ⟨h₁, hg⟩ := expandReferences_eq_appendBodies
      (fun r hr => hl _ (ElementPattern.reference_mem_uses hr))
      (he e (ElementPattern.mem_walk.2 (.inl rfl)))
      { e with elements := [], references := [] } s hs
    have hvalue : ∀ a ∈ (appendBodies (expansion ds) { e with elements := [], references := [] }
        e.references).attributes,
        ∀ name, a.valueReference = some name → Answers ds lookup name := by
      intro a ha name hv
      rcases List.mem_append.1 ha with ha | ha
      · exact hl name (ElementPattern.value_mem_uses ha hv)
      · rw [valuesFilled_expansion.appended ha] at hv
        cases hv
    rw [← hg] at hvalue
    obtain ⟨h₂, ha⟩ := mapM_each (Q := fun a b => b = fillType (expansion ds) a)
      (fun a ha t ht => resolveValue_eq_fillType (hvalue a ha) t ht) _ h₁
    obtain ⟨h₃, hc⟩ := substituteAll_each (Q := fun c b => b = expand (expansion ds) c)
      (fun c hc t ht => ih c hc
        (fun x hx => he x (ElementPattern.mem_walk.2 (.inr ⟨c, hc, hx⟩)))
        (fun name hn => hl name (ElementPattern.child_uses hc hn)) t ht) _ h₂
    rw [substitute_run, expand_eq valuesFilled_expansion]
    refine ⟨h₃, ?_⟩
    dsimp only
    rw [eq_map_of_forall₂ ha, eq_map_of_forall₂ hc, hg]

theorem lookupIn_answers (ha : ds.Acyclic)
    (hu : ∀ name bodies, ds.get? name = some bodies → ∀ body ∈ bodies, body.Unexpanded)
    (path : List String) (name : String) (hp : ds.LeadTo path name) :
    Answers ds (lookupIn ds path) name := by
  -- on the definitions that are not being resolved, of which there are fewer for every body
  induction hn : remaining ds.keys path using Nat.strongRecOn generalizing path name with
  | ind n ih =>
    subst hn
    intro s hs
    rcases lookupIn_cases ds path name s with
      ⟨bodies, hd, heq⟩ | ⟨-, hmem, -⟩ | ⟨-, -, hds, heq⟩ | ⟨-, hnp, bodies, hds, heq⟩
    · rw [heq, hs name bodies hd]
      exact ⟨hs, rfl⟩
    · exact absurd hmem (hp.not_mem ha)
    · rw [heq, expansion_eq ha, hds]
      exact ⟨hs, rfl⟩
    · have hlt := remaining_cons_lt (Table.mem_keys_of_get? hds) hnp
      obtain ⟨h₁, hall⟩ := substituteAll_each (Q := fun c b => b = expand (expansion ds) c)
        (fun b (hb : b ∈ bodies) t ht => substitute_eq_expand b (hu name bodies hds b hb)
          (fun m hm => ih _ hlt (name :: path) m (hp.cons ⟨bodies, hds, b, hb, hm⟩) rfl) t ht)
        s hs
      have hexp : expansion ds name = some (bodies.map (expand (expansion ds))) := by
        rw [expansion_eq ha, hds]
        rfl
      rw [heq, hexp]
      dsimp only
      rw [eq_map_of_forall₂ hall]
      refine ⟨?_, rfl⟩
      intro key found hf
      by_cases hk : key = name
      · subst hk
        rw [Table.get?_insert_self] at hf
        rw [hexp, hf]
      · rw [Table.get?_insert_of_ne _ _ hk] at hf
        exact h₁ key found hf

end

theorem resolve_start {g : Grammar} (hs : g.start.Fresh) (hd : g.definitions.Fresh)
    (hn : g.NoSelfNamed) (ha : g.definitions.Acyclic) :
    g.resolve.1.start = expand (expansion g.definitions) g.start := by
  have hstart : g.start.Unexpanded := fun x hx r hr =>
    ⟨hn x (List.mem_append_left _ hx) r hr, hs x hx r hr⟩
  have hbodies : ∀ name bodies, g.definitions.get? name = some bodies →
      ∀ body ∈ bodies, body.Unexpanded := by
    intro name bodies hget body hb x hx r hr
    have hm : body ∈ g.definitions.values.flatten :=
      List.mem_flatten.2 ⟨bodies, mem_values_of_get? hget, hb⟩
    exact ⟨hn x (List.mem_append_right _ (List.mem_flatMap.2 ⟨body, hm, hx⟩)) r hr,
      hd name bodies hget body hb x hx r hr⟩
  exact (substitute_eq_expand g.start hstart
    (fun name _ => lookupIn_answers ha hbodies [] name nofun) {} (fun _ _ h => by cases h)).2

/-- **Resolving is expanding.**  For a grammar that was read, whose definitions
    do not depend on themselves and in which no element refers to its own name,
    the resolved start is the start with every reference expanded, where the
    expanded bodies of a name are its bodies, expanded in the same way. -/
theorem readGrammar_resolve_start {dialect : Option Dialect} {root : Markup.Node} {g : Grammar}
    (hg : (readGrammar dialect root).1 = .ok g) (ha : g.definitions.Acyclic)
    (hn : g.NoSelfNamed) :
    g.resolve.1.start = expand (expansion g.definitions) g.start ∧
      ∀ name, expansion g.definitions name =
        (g.definitions.get? name).map (·.map (expand (expansion g.definitions))) := by
  obtain ⟨hs, hd⟩ := readGrammar_fresh hg
  exact ⟨resolve_start hs hd hn ha, expansion_eq ha⟩

/-- A grammar whose two elements share a definition with two bodies, one of
    which refers to a name that is not defined. -/
def sharedRoot : Markup.Node :=
  let node (tag name : String) (children : List Markup.Node) : Markup.Node :=
    .element { name := tag, attributes := [{ name := "name", value := name }] } children
  let plain (tag : String) (children : List Markup.Node) : Markup.Node :=
    .element { name := tag } children
  let int : Markup.Attribute := { name := "type", value := "int" }
  plain "grammar"
    [plain "start" [node "element" "pair" [node "element" "left" [node "ref" "body" []],
      plain "optional" [node "ref" "body" []]]],
    node "define" "body" [node "attribute" "key" [node "ref" "number" []],
      node "element" "entry" [plain "text" []]],
    node "define" "body" [plain "zeroOrMore" [node "ref" "nowhere" []]],
    node "define" "number" [.element { name := "data", attributes := [int] } []]]

def sharedGrammar : Grammar where
  start :=
    let left : ElementPattern := { name := "left", references := [{ name := "body" }] }
    let optionally : Pattern := { optional := true }
    let pair : ElementPattern :=
      { name := "pair", elements := [left]
        references := [{ name := "body", pattern := optionally }] }
    { elements := [pair] }
  definitions :=
    let entry : ElementPattern := { name := "entry", hasText := true }
    let key : AttributePattern := { name := "key", valueReference := some "number" }
    let nowhere : Reference := { name := "nowhere", pattern := { zeroOrMore := true } }
    ⟨[("body", [{ name := "body", elements := [entry], attributes := [key] },
        { name := "body", references := [nowhere] }]),
      ("number", [{ name := "number", hasText := true, dataType := some .int }])]⟩

theorem sharedGrammar_resolve_start :
    sharedGrammar.resolve.1.start =
      expand (expansion sharedGrammar.definitions) sharedGrammar.start := by
  have hg : (readGrammar none sharedRoot).1 = .ok sharedGrammar := by rfl
  have ha : sharedGrammar.definitions.Acyclic :=
    Definitions.acyclic_of_rank (fun name => if name = "body" then 1 else 0) (by decide)
  have hn : sharedGrammar.NoSelfNamed := by
    unfold Grammar.NoSelfNamed
    decide
  exact (readGrammar_resolve_start hg ha hn).1

end Bindery.Schema
