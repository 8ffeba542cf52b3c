/-
  What the readers of grammars keep.

  The readers build element patterns step by step: they begin with an element
  that has nothing in it, add elements, attributes and references, and set the
  type and the values of its text.  What these steps keep (`Kept`) holds of all
  that is read, at any depth of the start and of the definitions.

  `ReadM.Yields` is what a reader keeps of the definitions and says of its
  result; there is one rule for each way in which readers are put together, and
  one lemma for each reader.

  * `readGrammar_kept`: the start and the bodies of a grammar that is read.
-/
import Bindery.Schema.Dialect
import Bindery.Proofs.Resolution.Walk

namespace Bindery.Schema

/-! ## Steps -/

/-- **What the steps of readers keep**: a property `Tree` of element patterns,
    the name of which is given, and a property `Values` of what restricts
    texts. -/
structure Kept where
  Tree : String → ElementPattern → Prop
  Values : Option Facet → Prop
  free : Values none
  blank : Values (some {})
  push : ∀ {f : Facet} (value : String), Values (some f) → Values (some (f.push value))
  combinable : ∀ {f : Facet}, Values (some f) → Values (some { f with combinable := true })
  proper : ∀ {f : Option Facet}, Values f → Values (Facet.proper f)
  /-- An element with nothing in it yet. -/
  empty : ∀ (name : String) (pattern : Pattern), Tree name { name, pattern }
  values : ∀ {own : String} {e : ElementPattern}, Tree own e → Values e.facet
  /-- A change to the text and its type. -/
  retype : ∀ {own : String} {e e' : ElementPattern}, Tree own e → e'.name = e.name →
    e'.references = e.references → e'.elements = e.elements → e'.attributes = e.attributes →
    Values e'.facet → Tree own e'
  addElement : ∀ {own name : String} {e c : ElementPattern}, Tree own e → Tree name c →
    Tree own { e with elements := e.elements ++ [c] }
  addAttribute : ∀ {own : String} {e : ElementPattern} {a : AttributePattern}, Tree own e →
    Values a.facet → Tree own { e with attributes := e.attributes ++ [a] }
  addReference : ∀ {own : String} {e : ElementPattern} (name : String) (pattern : Pattern),
    Tree own e → Tree own { e with references := e.references ++ [{ name, pattern }] }

variable {K : Kept}

def Kept.Bodies (K : Kept) (ds : Definitions) : Prop :=
  ∀ name bodies, ds.get? name = some bodies → ∀ body ∈ bodies, K.Tree name body

theorem Kept.Bodies.add {ds : Definitions} (h : K.Bodies ds) {name : String}
    {body : ElementPattern} (hb : K.Tree name body) : K.Bodies (ds.add name body) := by
  intro key bodies hk b hm
  by_cases hn : key = name
  · subst hn
    rw [Definitions.add, Table.get?_insert_self] at hk
    cases hk
    rcases List.mem_append.1 hm with hm | hm
    · cases hd : ds.get? key with
      | none => simp [hd] at hm
      | some old => exact h key old hd b (by simpa [hd] using hm)
    · rw [List.mem_singleton.1 hm]
      exact hb
  · rw [Definitions.add, Table.get?_insert_of_ne _ _ hn] at hk
    exact h key bodies hk b hm

theorem Kept.mark {own : String} {e e' : ElementPattern} (h : K.Tree own e)
    (hname : e'.name = e.name) (hreferences : e'.references = e.references)
    (helements : e'.elements = e.elements) (hattributes : e'.attributes = e.attributes)
    (hfacet : e'.facet = e.facet) : K.Tree own e' := by
  refine K.retype h hname hreferences helements hattributes ?_
  rw [hfacet]
  exact K.values h

theorem Kept.pushValue {own : String} {e : ElementPattern} (h : K.Tree own e) (value : String) :
    K.Tree own (e.pushValue value) := by
  refine K.retype h rfl rfl rfl rfl (K.push value ?_)
  have hvalues := K.values h
  cases hf : e.facet with
  | none => exact K.blank
  | some f =>
    rw [hf] at hvalues
    exact hvalues

/-! ## Readers -/

/-- A reader that keeps what the definitions have, and whose result, if it gives
    one, has `Q`. -/
def ReadM.Yields (K : Kept) {α : Type} (x : ReadM α) (Q : α → Prop) : Prop :=
  ∀ r a r', K.Bodies r.definitions → x.run r = (.ok a, r') → K.Bodies r'.definitions ∧ Q a

namespace ReadM

variable {α β : Type} {P : α → Prop} {Q : β → Prop}

theorem Yields.pure {a : α} (h : P a) : Yields K (Pure.pure a) P := by
  intro r b r' hr hx
  cases hx
  exact ⟨hr, h⟩

theorem run_bind (x : ReadM α) (f : α → ReadM β) (r : Reading) :
    (x >>= f).run r = match x.run r with
      | (.ok a, r') => (f a).run r'
      | (.error e, r') => (.error e, r') := by
  have h : (x >>= f).run r = ExceptT.bindCont f (x.run r).1 (x.run r).2 := rfl
  rw [h]
  rcases x.run r with ⟨e | a, r'⟩ <;> rfl

theorem Yields.bind {x : ReadM α} {f : α → ReadM β} (hx : Yields K x P)
    (hf : ∀ a, P a → Yields K (f a) Q) : Yields K (x >>= f) Q := by
  intro r b r' hr hb
  rw [run_bind] at hb
  rcases he : x.run r with ⟨e | a, r₁⟩ <;> rw [he] at hb
  · cases hb
  · obtain ⟨hr₁, ha⟩ := hx r a r₁ hr he
    exact hf a ha r₁ b r' hr₁ hb

theorem Yields.throw (e : SchemaError) : Yields K (MonadExcept.throw e) P := by
  intro r a r' _ h
  cases h

theorem yields_tell (n : Notice) : Yields K (tell n) fun _ => True := by
  intro r a r' hr h
  cases h
  exact ⟨hr, trivial⟩

theorem yields_define {name : String} {body : ElementPattern} (hb : K.Tree name body) :
    Yields K (define name body) fun _ => True := by
  intro r a r' hr h
  cases h
  exact ⟨hr.add hb, trivial⟩

theorem yields_nextChoice : Yields K nextChoice fun _ => True := by
  intro r a r' hr h
  cases h
  exact ⟨hr, trivial⟩

theorem yields_ofExcept (x : Except SchemaError α) : Yields K (ofExcept x) fun _ => True := by
  cases x with
  | ok a => exact .pure trivial
  | error e => exact .throw e

theorem yields_dataType (name : String) : Yields K (dataType name) fun _ => True := by
  rw [dataType]
  split
  · exact .pure trivial
  · exact .bind (yields_tell _) fun _ _ => .pure trivial

end ReadM

/-! ## RelaxNG -/

namespace RelaxNg

open Markup (Node)

theorem yields_foldAttribute (name : String) (pattern : Pattern) {own : String}
    {content : ElementPattern} (hc : K.Tree own content) :
    ReadM.Yields K (foldAttribute name pattern content) fun a => K.Values a.facet := by
  have hvalues := K.proper (K.values hc)
  rw [foldAttribute]
  split
  · refine .bind (ReadM.yields_tell _) fun _ _ => ?_
    split
    · exact .bind (ReadM.yields_tell _) fun _ _ => .pure hvalues
    · exact .pure hvalues
  · split
    · exact .bind (ReadM.yields_tell _) fun _ _ => .pure hvalues
    · exact .pure hvalues

mutual

theorem yields_readPattern (pattern : Pattern) {own : String} {target : ElementPattern}
    (ht : K.Tree own target) :
    ∀ n : Node, ReadM.Yields K (readPattern pattern target n) (K.Tree own)
  | .element head children => by
    rw [readPattern]
    split
    · refine .bind (ReadM.yields_ofExcept _) fun name _ => ?_
      refine .bind (yields_readPatterns {} (K.empty name pattern) children) fun element he => ?_
      exact .pure (K.addElement ht he)
    · refine .bind (ReadM.yields_ofExcept _) fun name _ => ?_
      refine .bind (yields_readPatterns {} (K.empty name {}) children) fun content hc => ?_
      refine .bind (yields_foldAttribute _ _ hc) fun _ ha => ?_
      exact .pure (K.addAttribute ht ha)
    · refine .bind (ReadM.yields_ofExcept _) fun name _ => ?_
      exact .pure (K.addReference name pattern ht)
    · exact .pure (Kept.mark ht rfl rfl rfl rfl rfl)
    · exact .pure (Kept.mark ht rfl rfl rfl rfl rfl)
    · exact yields_readPatterns _ ht children
    · exact yields_readPatterns _ ht children
    · exact yields_readPatterns _ ht children
    · exact .bind ReadM.yields_nextChoice fun _ _ => yields_readPatterns _ ht children
    · exact yields_readPatterns _ ht children
    · exact yields_readPatterns _ ht children
    · have hm : K.Tree own { target with hasText := true } := Kept.mark ht rfl rfl rfl rfl rfl
      exact yields_readPatterns _ hm children
    · refine .bind (yields_readPatterns _ ht children) fun e he => ?_
      have hvalues := K.values he
      split
      · rename_i facet hfacet
        rw [hfacet] at hvalues
        exact .pure (K.retype he rfl rfl rfl rfl (K.combinable hvalues))
      · exact .pure (Kept.mark he rfl rfl rfl rfl rfl)
    · refine .bind (ReadM.yields_ofExcept _) fun _ _ => ?_
      refine .bind (ReadM.yields_dataType _) fun _ _ => ?_
      exact .pure (Kept.mark ht rfl rfl rfl rfl rfl)
    · have hm : K.Tree own { target with hasText := true } := Kept.mark ht rfl rfl rfl rfl rfl
      exact .pure (Kept.pushValue hm _)
    · exact .pure ht
    · exact .pure ht
    -- the other constructs are skipped with a notice
    all_goals exact .bind (ReadM.yields_tell _) fun _ _ => .pure ht
  | .text _ | .comment _ | .instruction => .pure ht

theorem yields_readPatterns (pattern : Pattern) {own : String} {target : ElementPattern}
    (ht : K.Tree own target) :
    ∀ ns : List Node, ReadM.Yields K (readPatterns pattern target ns) (K.Tree own)
  | [] => .pure ht
  | n :: ns => by
    rw [readPatterns]
    exact .bind (yields_readPattern pattern ht n) fun _ h => yields_readPatterns pattern h ns

end

theorem yields_readDefine (n : Node) : ReadM.Yields K (readDefine n) fun _ => True := by
  refine .bind (ReadM.yields_ofExcept _) fun name _ => ?_
  refine .bind (yields_readPatterns {} (K.empty name {}) _) fun body hb => ?_
  exact .bind (ReadM.yields_tell _) fun _ _ => ReadM.yields_define hb

mutual

theorem yields_readPart {start : Option ElementPattern} (hs : ∀ e ∈ start, K.Tree "" e) :
    ∀ n : Node, ReadM.Yields K (readPart start n) fun found => ∀ e ∈ found, K.Tree "" e
  | .element head children => by
    rw [readPart]
    split
    · have hget : K.Tree "" (start.getD {}) := by
        cases start with
        | none => exact K.empty "" {}
        | some e => exact hs e rfl
      refine .bind (yields_readPatterns {} hget children) fun e he => .pure ?_
      rintro _ ⟨⟩
      exact he
    · exact .bind (yields_readDefine _) fun _ _ => .pure hs
    · exact yields_readParts hs children
    · exact .pure hs
    all_goals exact .bind (ReadM.yields_tell _) fun _ _ => .pure hs
  | .text _ | .comment _ | .instruction => .pure hs

theorem yields_readParts {start : Option ElementPattern} (hs : ∀ e ∈ start, K.Tree "" e) :
    ∀ ns : List Node, ReadM.Yields K (readParts start ns) fun found => ∀ e ∈ found, K.Tree "" e
  | [] => .pure hs
  | n :: ns => by
    rw [readParts]
    exact .bind (yields_readPart hs n) fun _ h => yields_readParts h ns

end

theorem yields_read : ∀ n : Node, ReadM.Yields K (read n) (K.Tree "")
  | .element head children => by
    rw [read]
    split
    · refine .bind (yields_readParts (by nofun) children) fun start hs => ?_
      cases start with
      | none => exact .throw _
      | some start => exact .pure (hs start rfl)
    · exact yields_readPattern {} (K.empty "" {}) _
    · exact .throw _
  | .text _ | .comment _ | .instruction => .throw _

end RelaxNg

/-! ## XML Schema -/

def Kept.Types (K : Kept) (known : Table SimpleType) : Prop :=
  ∀ key type, known.get? key = some type → K.Values type.facet

/-- A step that keeps what the simple types have, and whose result has `Q`. -/
def SimpleM.Yields (K : Kept) {α : Type} (x : SimpleM α) (Q : α → Prop) : Prop :=
  ∀ s : SimpleTypes, K.Types s.known → K.Types (x s).2.known ∧ Q (x s).1

section
variable {α β : Type} {P : α → Prop} {Q : β → Prop}

theorem SimpleM.Yields.pure {a : α} (h : P a) : SimpleM.Yields K (Pure.pure a) P :=
  fun _ hs => ⟨hs, h⟩

theorem SimpleM.Yields.bind {x : SimpleM α} {f : α → SimpleM β} (hx : SimpleM.Yields K x P)
    (hf : ∀ a, P a → SimpleM.Yields K (f a) Q) : SimpleM.Yields K (x >>= f) Q := by
  intro s hs
  obtain ⟨ht, ha⟩ := hx s hs
  exact hf _ ha _ ht

theorem SimpleM.yields_tell (n : Notice) : SimpleM.Yields K (SimpleM.tell n) fun _ => True :=
  fun _ hs => ⟨hs, trivial⟩

theorem SimpleM.yields_dataType (name : String) :
    SimpleM.Yields K (SimpleM.dataType name) fun _ => True := by
  rw [SimpleM.dataType]
  split
  · exact .pure trivial
  · exact .bind (yields_tell _) fun _ _ => .pure trivial

theorem SimpleM.yields_get :
    SimpleM.Yields K (get : SimpleM SimpleTypes) fun s => K.Types s.known :=
  fun _ hs => ⟨hs, hs⟩

theorem SimpleM.yields_learn (key : String) {type : SimpleType} (h : K.Values type.facet) :
    SimpleM.Yields K (modify fun s => { s with known := s.known.insert key type })
      fun _ => True := by
  refine fun s hs => ⟨fun name found hget => ?_, trivial⟩
  rcases Table.get?_insert_cases hget with ⟨-, rfl⟩ | ⟨-, hget⟩
  · exact h
  · exact hs name found hget

end

open Markup (Node)

theorem Kept.values_enumeration (n : Node) : K.Values (enumerationFacet n) := by
  refine K.proper (List.foldlRecOn (motive := fun f => K.Values (some f)) _ _ K.blank ?_)
  intro f hf child _
  split
  · split
    · exact K.push _ hf
    · exact hf
  · exact hf

theorem Kept.values_or {f f' : Option Facet} (hf : K.Values f) (hf' : K.Values f') :
    K.Values (f <|> f') := by
  cases f with
  | none => exact hf'
  | some f => exact hf

/-- Whether the values of what is looked up have what is kept. -/
def Lookup.Yields (K : Kept) (lookup : Lookup) : Prop :=
  ∀ n name, SimpleM.Yields K (lookup n name) fun found => ∀ type ∈ found, K.Values type.facet

mutual

theorem yields_simpleTypeWith {lookup : Lookup} (hl : lookup.Yields K) : ∀ n : Node,
    SimpleM.Yields K (simpleTypeWith lookup n) fun type => K.Values type.facet
  | .element _ children => yields_derivation hl children
  | .text _ | .comment _ | .instruction => .pure K.free

theorem yields_derivation {lookup : Lookup} (hl : lookup.Yields K) : ∀ ns : List Node,
    SimpleM.Yields K (derivation lookup ns) fun type => K.Values type.facet
  | [] => .pure K.free
  | .text _ :: ns | .comment _ :: ns | .instruction :: ns => yields_derivation hl ns
  | .element head children :: ns => by
    have hlookup : ∀ name, SimpleM.Yields K
        ((fun found : Option SimpleType => found.getD {}) <$> lookup (.element head children) name)
        fun type => K.Values type.facet := by
      intro name
      rw [map_eq_pure_bind]
      refine .bind (hl _ name) fun found h => .pure ?_
      cases found with
      | none => exact K.free
      | some type => exact h type rfl
    rw [derivation]
    dsimp only
    split
    · have hrestricted : ∀ base : SimpleType, K.Values base.facet → SimpleM.Yields K
          (pure { base with facet := enumerationFacet (.element head children) <|> base.facet })
          fun type : SimpleType => K.Values type.facet :=
        fun base hb => .pure (Kept.values_or (Kept.values_enumeration _) hb)
      split
      · exact .bind (hlookup _) hrestricted
      · exact .bind (yields_inlineType hl children) hrestricted
    · have hlisted : ∀ item : SimpleType, K.Values item.facet → SimpleM.Yields K
          (pure { facet := item.facet.map ({ · with combinable := true }) })
          fun type : SimpleType => K.Values type.facet := by
        intro item hi
        refine .pure ?_
        cases hf : item.facet with
        | none => exact K.free
        | some f =>
          rw [hf] at hi
          exact K.combinable hi
      split
      · exact .bind (hlookup _) hlisted
      · exact .bind (yields_inlineType hl children) hlisted
    · exact .bind (SimpleM.yields_tell _) fun _ _ => .pure K.free
    · exact yields_derivation hl ns

theorem yields_inlineType {lookup : Lookup} (hl : lookup.Yields K) : ∀ ns : List Node,
    SimpleM.Yields K (inlineType lookup ns) fun type => K.Values type.facet
  | [] => .pure K.free
  | n :: ns => by
    rw [inlineType]
    split
    · exact yields_simpleTypeWith hl n
    · exact yields_inlineType hl ns

end

theorem yields_named (nodes : Table Node) (resolving : List String) :
    Lookup.Yields K (named nodes resolving) := by
  -- on the declarations that are not being resolved
  induction hn : remaining nodes.keys resolving using Nat.strongRecOn generalizing resolving with
  | ind k ih =>
    subst hn
    intro c name
    rw [named]
    split
    · split
      · exact .pure (by nofun)
      · refine .bind (SimpleM.yields_dataType _) fun type _ => .pure ?_
        rintro _ ⟨⟩
        exact K.free
    · refine .bind SimpleM.yields_get fun s hs => ?_
      split
      · rename_i type htype
        refine .pure ?_
        rintro _ ⟨⟩
        exact hs _ type htype
      · split
        · exact .pure (by nofun)
        · rename_i node hnode
          split
          · refine .bind (SimpleM.yields_tell _) fun _ _ => .pure ?_
            rintro _ ⟨⟩
            exact K.free
          · rename_i hr
            have hlookup := ih _ (remaining_cons_lt (Table.mem_keys_of_get? hnode) hr) _ rfl
            refine .bind (yields_simpleTypeWith hlookup node) fun type htype => ?_
            refine .bind (SimpleM.yields_learn _ htype) fun _ _ => .pure ?_
            rintro _ ⟨⟩
            exact htype

namespace Xsd

/-- A reader of a schema that keeps what definitions and simple types have, and
    whose result, if it gives one, has `Q`. -/
def Yields (K : Kept) {α : Type} (x : XsdM α) (Q : α → Prop) : Prop :=
  ∀ s : Simple, K.Types s.known →
    ReadM.Yields K (x.run s) fun found => K.Types found.2.known ∧ Q found.1

section
variable {α β : Type} {P : α → Prop} {Q : β → Prop}

theorem Yields.pure {a : α} (h : P a) : Yields K (Pure.pure a) P :=
  fun _ hs => ReadM.Yields.pure ⟨hs, h⟩

theorem Yields.bind {x : XsdM α} {f : α → XsdM β} (hx : Yields K x P)
    (hf : ∀ a, P a → Yields K (f a) Q) : Yields K (x >>= f) Q :=
  fun s hs => ReadM.Yields.bind (hx s hs) fun found h => hf found.1 h.2 found.2 h.1

theorem Yields.mono {P' : α → Prop} {x : XsdM α} (hx : Yields K x P) (h : ∀ a, P a → P' a) :
    Yields K x P' := by
  intro s hs r a r' hr hrun
  obtain ⟨hr', hs', ha⟩ := hx s hs r a r' hr hrun
  exact ⟨hr', hs', h a.1 ha⟩

theorem Yields.lift {x : ReadM α} (hx : ReadM.Yields K x P) : Yields K (liftM x) P :=
  fun _ hs => ReadM.Yields.bind hx fun _ h => ReadM.Yields.pure ⟨hs, h⟩

theorem yields_tell (n : Notice) : Yields K (tell n) fun _ => True :=
  .lift (ReadM.yields_tell n)

theorem yields_ofExcept (x : Except SchemaError α) : Yields K (ofExcept x) fun _ => True :=
  .lift (ReadM.yields_ofExcept x)

theorem yields_tellAll : ∀ ns : List Notice,
    Yields K (forIn ns PUnit.unit fun n _ => do tell n; return .yield PUnit.unit) fun _ => True
  | [] => .pure trivial
  | n :: ns => by
    rw [List.forIn_cons]
    refine .bind (P := fun step => step = .yield PUnit.unit) ?_ ?_
    · exact .bind (yields_tell n) fun _ _ => .pure rfl
    · rintro _ rfl
      exact yields_tellAll ns

theorem run_resolving (step : Table Node → SimpleM α) (s : Simple) :
    (resolving step).run s =
      (do
        forIn (step s.nodes { known := s.known }).2.notices PUnit.unit
          fun n _ => do tell n; return .yield PUnit.unit
        return (step s.nodes { known := s.known }).1 : XsdM α).run
          { s with known := (step s.nodes { known := s.known }).2.known } := by
  simp only [resolving, StateT.run_bind, StateT.run_get, pure_bind]
  rcases step s.nodes { known := s.known } with ⟨a, t⟩
  rfl

theorem yields_resolving {step : Table Node → SimpleM α}
    (h : ∀ nodes, SimpleM.Yields K (step nodes) P) : Yields K (resolving step) P := by
  intro s hs
  obtain ⟨hknown, ha⟩ := h s.nodes { known := s.known } hs
  rw [run_resolving]
  exact (Yields.bind (yields_tellAll _) fun _ _ => .pure ha) _ hknown

end

theorem yields_simpleNamed (n : Node) (name : String) :
    Yields K (simpleNamed n name) fun found => ∀ type ∈ found, K.Values type.facet :=
  yields_resolving fun nodes => yields_named nodes [] n name

theorem yields_simpleType (n : Node) :
    Yields K (simpleType n) fun type => K.Values type.facet :=
  yields_resolving fun nodes => yields_simpleTypeWith (yields_named nodes []) n

theorem tree_withText {own : String} {e : ElementPattern} (h : K.Tree own e) {type : SimpleType}
    (ht : K.Values type.facet) : K.Tree own (withText e type) :=
  K.retype h rfl rfl rfl rfl ht

theorem tree_markMixed {own : String} {target : ElementPattern} (h : K.Tree own target)
    (n : Node) : K.Tree own (markMixed n target) := by
  rw [Xsd.markMixed]
  split
  · exact Kept.mark h rfl rfl rfl rfl rfl
  · exact h

theorem yields_readAttribute (n : Node) :
    Yields K (readAttribute n) fun found => ∀ a ∈ found, K.Values a.facet := by
  -- an attribute has the values of its type
  have hreturn : ∀ (a : AttributePattern) (type : Option SimpleType),
      (∀ t ∈ type, K.Values t.facet) → a.facet = type.bind (·.facet) →
      Yields K (pure (some a)) fun found => ∀ a ∈ found, K.Values a.facet := by
    intro a type htype ha
    refine .pure ?_
    rintro _ ⟨⟩
    rw [ha]
    cases type with
    | none => exact K.free
    | some t => exact htype t rfl
  rw [readAttribute]
  split
  · exact .pure fun _ h => absurd h (Option.not_mem_none _)
  · refine .bind (yields_ofExcept _) fun name _ => ?_
    dsimp only
    split
    · exact .bind (yields_simpleNamed _ _) fun type htype => hreturn _ type htype rfl
    · have hchild : ∀ c : Node, Yields K (some <$> simpleType c)
          fun found => ∀ t ∈ found, K.Values t.facet := by
        intro c
        rw [map_eq_pure_bind]
        refine .bind (yields_simpleType c) fun type htype => .pure ?_
        rintro _ ⟨⟩
        exact htype
      exact .bind (hchild _) fun type htype => hreturn _ type htype rfl
    · rw [pure_bind]
      exact hreturn _ none (by nofun) rfl

/-- A reader that adds to an element, and keeps what this has. -/
def Adds (K : Kept) (read : ElementPattern → XsdM ElementPattern) : Prop :=
  ∀ own target, K.Tree own target → Yields K (read target) (K.Tree own)

theorem adds_readAttributes : ∀ ns : List Node, Adds K (readAttributes · ns)
  | [] => fun _ _ ht => .pure ht
  | n :: ns => by
    intro own target ht
    beta_reduce
    have hrest := adds_readAttributes ns own
    rw [readAttributes]
    split
    · refine .bind (yields_readAttribute n) fun found hfound => ?_
      cases found with
      | none => exact .bind (.pure ht) hrest
      | some a => exact .bind (.pure (K.addAttribute ht (hfound a rfl))) hrest
    · refine .bind (yields_ofExcept _) fun ref _ => ?_
      exact .bind (.pure (K.addReference _ _ ht)) hrest
    · exact .bind (yields_tell _) fun _ _ => .bind (.pure ht) hrest
    · exact .bind (.pure ht) hrest

theorem yields_readElement {complexType : ElementPattern → XsdM ElementPattern}
    (hc : Adds K complexType) (pattern : Pattern) (n : Node) :
    Yields K (readElement complexType pattern n) fun e => ∃ name, K.Tree name e := by
  rw [readElement]
  refine .bind (yields_ofExcept _) fun name _ => ?_
  have he : K.Tree name { name, pattern } := K.empty name pattern
  dsimp only
  split
  · refine .bind (yields_simpleNamed _ _) fun found hfound => ?_
    cases found with
    | none => exact .pure ⟨name, K.addReference _ _ he⟩
    | some simple => exact .pure ⟨name, tree_withText he (hfound simple rfl)⟩
  · split
    · exact (hc _ _ he).mono fun _ h => ⟨name, h⟩
    · split
      · exact .bind (yields_simpleType _) fun type htype => .pure ⟨name, tree_withText he htype⟩
      · exact .pure ⟨name, Kept.mark he rfl rfl rfl rfl rfl⟩

theorem adds_readSimpleDerivation (n : Node) : Adds K (readSimpleDerivation · n) := by
  intro own target ht
  beta_reduce
  have hrest : ∀ e : ElementPattern, K.Tree own e → Yields K
      (readAttributes { e with facet := enumerationFacet n <|> e.facet } n.children)
      (K.Tree own) := by
    intro e he
    have hvalues := Kept.values_or (Kept.values_enumeration n) (K.values he)
    exact adds_readAttributes _ _ _ (K.retype he rfl rfl rfl rfl hvalues)
  have hm : K.Tree own { target with hasText := true } := Kept.mark ht rfl rfl rfl rfl rfl
  rw [readSimpleDerivation]
  dsimp only
  split
  · refine .bind (yields_simpleNamed _ _) fun found hfound => ?_
    cases found with
    | none => exact .bind (.pure (K.addReference _ _ hm)) hrest
    | some simple => exact .bind (.pure (tree_withText hm (hfound simple rfl))) hrest
  · exact .bind (.pure hm) hrest

theorem adds_readSimpleContent : ∀ ns : List Node, Adds K (readSimpleContent · ns)
  | [] => fun _ _ ht => .pure ht
  | n :: ns => by
    intro own target ht
    beta_reduce
    have hrest := adds_readSimpleContent ns own
    rw [readSimpleContent]
    split
    · exact .bind (adds_readSimpleDerivation n _ _ ht) hrest
    · exact .bind (.pure ht) hrest

mutual

theorem adds_readParticle (pattern : Pattern) : ∀ n : Node, Adds K (readParticle pattern · n)
  | .element head children => by
    intro own target ht
    beta_reduce
    rw [readParticle]
    dsimp only
    split
    · refine .bind (yields_ofExcept _) fun p _ => ?_
      split
      · exact .pure (K.addReference _ _ ht)
      · exact .bind (yields_readElement (adds_readTypeChild children) _ _) fun e he =>
          .pure (K.addElement ht he.choose_spec)
    · exact .bind (yields_ofExcept _) fun p _ => adds_readParticles _ children _ _ ht
    · exact .bind (yields_ofExcept _) fun p _ => adds_readParticles _ children _ _ ht
    · refine .bind (.lift ReadM.yields_nextChoice) fun group _ => ?_
      exact .bind (yields_ofExcept _) fun p _ => adds_readParticles _ children _ _ ht
    · refine .bind (yields_ofExcept _) fun p _ => .bind (yields_ofExcept _) fun ref _ => ?_
      exact .pure (K.addReference _ _ ht)
    · exact .pure ht
    · exact .bind (yields_tell _) fun _ _ => .pure ht
    · exact .bind (yields_tell _) fun _ _ => .pure ht
  | .text _ | .comment _ | .instruction => fun _ _ ht => .pure ht

theorem adds_readParticles (pattern : Pattern) : ∀ ns : List Node,
    Adds K (readParticles pattern · ns)
  | [] => fun _ _ ht => .pure ht
  | n :: ns => by
    intro own target ht
    beta_reduce
    rw [readParticles]
    exact .bind (adds_readParticle pattern n _ _ ht) (adds_readParticles pattern ns own)

theorem adds_readTypeChild : ∀ ns : List Node, Adds K (readTypeChild · ns)
  | [] => fun _ _ ht => .pure ht
  | n :: ns => by
    intro own target ht
    beta_reduce
    rw [readTypeChild]
    split
    · exact adds_readType n _ _ ht
    · exact adds_readTypeChild ns _ _ ht

theorem adds_readType : ∀ n : Node, Adds K (readType · n)
  | .element head children => by
    intro own target ht
    beta_reduce
    rw [readType]
    exact .bind (adds_readTypeParts children _ _ (tree_markMixed ht _))
      (adds_readAttributes children own)
  | .text _ | .comment _ | .instruction => fun _ _ ht => .pure ht

theorem adds_readTypeParts : ∀ ns : List Node, Adds K (readTypeParts · ns)
  | [] => fun _ _ ht => .pure ht
  | n :: ns => by
    intro own target ht
    beta_reduce
    have hrest := adds_readTypeParts ns own
    rw [readTypeParts]
    split
    · exact .bind (adds_readParticle {} n _ _ ht) hrest
    · exact .bind (adds_readParticle {} n _ _ ht) hrest
    · exact .bind (adds_readParticle {} n _ _ ht) hrest
    · exact .bind (adds_readParticle {} n _ _ ht) hrest
    · exact .bind (adds_readSimpleContent _ _ _ ht) hrest
    · exact .bind (adds_readComplexContent n _ _ ht) hrest
    · exact .bind (.pure ht) hrest
    · exact .bind (.pure ht) hrest
    · exact .bind (.pure ht) hrest
    · exact .bind (.pure ht) hrest
    · dsimp only
      split
      · exact .bind (yields_tell _) fun _ _ => .bind (.pure ht) hrest
      · exact .bind (.pure ht) hrest

theorem adds_readComplexContent : ∀ n : Node, Adds K (readComplexContent · n)
  | .element head children => by
    intro own target ht
    beta_reduce
    rw [readComplexContent]
    exact adds_readDerivations children _ _ (tree_markMixed ht _)
  | .text _ | .comment _ | .instruction => fun _ _ ht => .pure ht

theorem adds_readDerivations : ∀ ns : List Node, Adds K (readDerivations · ns)
  | [] => fun _ _ ht => .pure ht
  | n :: ns => by
    intro own target ht
    beta_reduce
    have hrest := adds_readDerivations ns own
    rw [readDerivations]
    split
    · refine .bind (yields_ofExcept _) fun base _ => .bind (adds_readType n _ _ ?_) hrest
      split
      · exact ht
      · exact K.addReference _ _ ht
    · exact .bind (adds_readType n _ _ ht) hrest
    · exact .bind (.pure ht) hrest

end

theorem yields_noteSimpleTypes : ∀ ns : List Node, Yields K (noteSimpleTypes ns) fun _ => True
  | [] => .pure trivial
  | n :: ns => by
    have hnote : ∀ name node, Yields K
        (modify fun s => { s with nodes := s.nodes.insert name node } : XsdM PUnit)
        fun _ => True := fun _ _ _ hs => ReadM.Yields.pure ⟨hs, trivial⟩
    rw [noteSimpleTypes]
    dsimp only
    split
    · refine .bind (yields_ofExcept _) fun name _ => .bind (hnote _ _) fun _ _ => ?_
      exact yields_noteSimpleTypes ns
    · exact yields_noteSimpleTypes ns

theorem adds_readGlobal : ∀ n : Node, Adds K (readGlobal · n)
  | .element head children => by
    intro own start hs
    beta_reduce
    have hdefine : ∀ {name : String} {body : ElementPattern}, K.Tree name body →
        Yields K (ReadM.define name body : XsdM Unit) fun _ => True :=
      fun hb => .lift (ReadM.yields_define hb)
    rw [readGlobal]
    dsimp only
    split
    · refine .bind (yields_ofExcept _) fun name _ => ?_
      refine .bind (yields_readElement (adds_readTypeChild children) _ _) fun e he => ?_
      have hbody : K.Tree name { name, elements := [e] } :=
        K.addElement (K.empty name {}) he.choose_spec
      exact .bind (hdefine hbody) fun _ _ => .pure (K.addReference _ _ hs)
    · refine .bind (yields_ofExcept _) fun name _ => ?_
      refine .bind (adds_readType _ _ _ (K.empty _ _)) fun body hb => ?_
      exact .bind (hdefine hb) fun _ _ => .pure hs
    · refine .bind (yields_ofExcept _) fun name _ => ?_
      refine .bind (adds_readParticles {} _ _ _ (K.empty _ _)) fun body hb => ?_
      exact .bind (hdefine hb) fun _ _ => .pure hs
    · refine .bind (yields_ofExcept _) fun name _ => ?_
      refine .bind (adds_readAttributes _ _ _ (K.empty _ _)) fun body hb => ?_
      exact .bind (hdefine hb) fun _ _ => .pure hs
    · exact .pure hs
    · exact .pure hs
    all_goals exact .bind (yields_tell _) fun _ _ => .pure hs
  | .text _ | .comment _ | .instruction => fun _ _ hs => .pure hs

theorem adds_readGlobals : ∀ ns : List Node, Adds K (readGlobals · ns)
  | [] => fun _ _ hs => .pure hs
  | n :: ns => by
    intro own start hs
    beta_reduce
    rw [readGlobals]
    exact .bind (adds_readGlobal n _ _ hs) (adds_readGlobals ns own)

theorem adds_readSchemas : ∀ ns : List Node, Adds K (readSchemas · ns)
  | [] => fun _ _ hs => .pure hs
  | n :: ns => by
    intro own start hs
    beta_reduce
    rw [readSchemas]
    refine .bind ?_ (adds_readSchemas ns own)
    exact .bind (yields_noteSimpleTypes _) fun _ _ => adds_readGlobals _ _ _ hs

theorem Yields.run' {α : Type} {P : α → Prop} {x : XsdM α} (h : Yields K x P) :
    ReadM.Yields K (x.run' {}) P :=
  ReadM.Yields.bind (h {} fun _ _ hget => by cases hget) fun _ hp => ReadM.Yields.pure hp.2

end Xsd

/-! ## Grammars -/

theorem Dialect.yields_reader (dialect : Dialect) (root : Node) :
    ReadM.Yields K (dialect.reader root) (K.Tree "") := by
  cases dialect with
  | relaxNg => exact RelaxNg.yields_read root
  | xsd => exact (Xsd.adds_readSchemas _ _ _ (K.empty "" {})).run'
  | wsdl => exact (Xsd.adds_readSchemas _ _ _ (K.empty "" {})).run'

/-- **What readers keep holds of the grammars that are read**, in whatever
    language they are written. -/
theorem readGrammar_kept (K : Kept) {dialect : Option Dialect} {root : Node} {g : Grammar}
    (h : (readGrammar dialect root).1 = .ok g) : K.Tree "" g.start ∧ K.Bodies g.definitions := by
  rw [readGrammar] at h
  split at h
  · cases h
  · rename_i d _
    rcases hr : (d.reader root).run {} with ⟨e | start, r⟩ <;> rw [hr] at h
    · cases h
    · cases h
      have hnone : K.Bodies {} := fun _ _ hd => by cases hd
      obtain ⟨hdefs, hstart⟩ := d.yields_reader root {} start r hnone hr
      exact ⟨hstart, hdefs⟩

end Bindery.Schema
