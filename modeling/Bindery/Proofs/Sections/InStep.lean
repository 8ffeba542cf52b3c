/-
  Readers of schemas that stay in step.

  Two readers are in step if, wherever they start, both fail, or both give the
  same and leave the same definitions and choices behind, and the same notices
  where these matter too.  The tables in which they look simple types up may
  differ (`Xsd.InStep`), as long as the names that are used resolve to the same
  types (`Resolves`).

  There is one rule for each way in which readers are put together, and one
  lemma for each reader: reading a node is in step with reading it without
  places, if the names of types that the node uses resolve alike.  Readers in
  step give the same grammar, or none (`ReadM.InStep.grammar?_eq`).
-/
import Bindery.Proofs.Declaration.Xsd
import Bindery.Proofs.Sections.Places

namespace Bindery.Schema

open Markup (Node Head)

/-! ## Rules -/

/-- Two readers that start with what `E` relates, of which both fail, or both give
    results that `R` relates and leave behind what `E` relates. -/
def ReadM.InStep {α β : Type} (E : Reading → Reading → Prop) (R : α → β → Prop) (x : ReadM α)
    (y : ReadM β) : Prop :=
  ∀ r r', E r r' →
    (∃ a b r₁ r₁', x.run r = (.ok a, r₁) ∧ y.run r' = (.ok b, r₁') ∧ R a b ∧ E r₁ r₁') ∨
    ∃ e e' r₁ r₁', x.run r = (.error e, r₁) ∧ y.run r' = (.error e', r₁')

def Reading.Same (r r' : Reading) : Prop :=
  r'.definitions = r.definitions ∧ r'.choices = r.choices

namespace ReadM

variable {α β γ δ : Type} {E : Reading → Reading → Prop} {R : α → β → Prop} {S : γ → δ → Prop}

theorem InStep.pure {a : α} {b : β} (h : R a b) : InStep E R (Pure.pure a) (Pure.pure b) :=
  fun r r' hr => .inl ⟨a, b, r, r', rfl, rfl, h, hr⟩

theorem InStep.bind {x : ReadM α} {y : ReadM β} {f : α → ReadM γ} {f' : β → ReadM δ}
    (h : InStep E R x y) (hf : ∀ a b, R a b → InStep E S (f a) (f' b)) :
    InStep E S (x >>= f) (y >>= f') := by
  intro r r' hr
  rw [run_bind, run_bind]
  rcases h r r' hr with ⟨a, b, r₁, r₁', hx, hy, hab, hr₁⟩ | ⟨e, e', r₁, r₁', hx, hy⟩
  · rw [hx, hy]
    exact hf a b hab r₁ r₁' hr₁
  · rw [hx, hy]
    exact .inr ⟨e, e', r₁, r₁', rfl, rfl⟩

theorem InStep.refl (x : ReadM α) : InStep Eq Eq x x := by
  rintro r _ rfl
  rcases hx : x.run r with ⟨e | a, r'⟩
  · exact .inr ⟨e, e, r', r', rfl, rfl⟩
  · exact .inl ⟨a, a, r', r', rfl, rfl, rfl, rfl⟩

theorem InStep.ofExcept {x y : Except SchemaError α} (h : y.toOption = x.toOption) :
    InStep E Eq (ReadM.ofExcept x) (ReadM.ofExcept y) := by
  cases x with
  | ok a =>
    cases y with
    | ok b =>
      cases h
      exact .pure rfl
    | error e => cases h
  | error e =>
    cases y with
    | ok b => cases h
    | error e' => exact fun r r' _ => .inr ⟨e, e', r, r', rfl, rfl⟩

theorem inStep_tell (n : Notice) : InStep Reading.Same Eq (ReadM.tell n) (ReadM.tell n) :=
  fun _ _ hr => .inl ⟨_, _, _, _, rfl, rfl, rfl, hr⟩

theorem inStep_define (name : String) (body : ElementPattern) :
    InStep Reading.Same Eq (define name body) (define name body) :=
  fun _ _ hr => .inl ⟨_, _, _, _, rfl, rfl, rfl, congrArg (·.add name body) hr.1, hr.2⟩

theorem inStep_nextChoice : InStep Reading.Same Eq nextChoice nextChoice :=
  fun _ _ hr => .inl ⟨_, _, _, _, rfl, rfl, (congrArg (· + 1) hr.2).symm, hr.1,
    congrArg (· + 1) hr.2⟩

end ReadM

def ReadM.grammar? (x : ReadM ElementPattern) : Option Grammar :=
  (x.run {}).1.toOption.map fun start => { start, definitions := (x.run {}).2.definitions }

theorem readGrammar_toOption (dialect : Dialect) (root : Node) :
    (readGrammar (some dialect) root).1.toOption = (dialect.reader root).grammar? := by
  rcases h : (dialect.reader root).run {} with ⟨e | start, r⟩
  · simp [readGrammar, ReadM.grammar?, h, Except.map, Except.toOption]
  · simp [readGrammar, ReadM.grammar?, h, Except.map, Except.toOption]

theorem ReadM.InStep.grammar?_eq_of_same {x y : ReadM ElementPattern}
    (h : InStep Reading.Same Eq x y) : x.grammar? = y.grammar? := by
  rcases h {} {} ⟨rfl, rfl⟩ with ⟨a, b, r, r', hx, hy, rfl, hr⟩ | ⟨e, e', r₁, r₂, hx, hy⟩
  · rw [grammar?, grammar?, hx, hy, hr.1]
  · rw [grammar?, grammar?, hx, hy]
    rfl

theorem ReadM.InStep.grammar?_eq {x y : ReadM ElementPattern} (h : InStep Eq Eq x y) :
    x.grammar? = y.grammar? := by
  rcases h {} {} rfl with ⟨a, b, r, r', hx, hy, rfl, rfl⟩ | ⟨e, e', r₁, r₂, hx, hy⟩
  · rw [grammar?, grammar?, hx, hy]
  · rw [grammar?, grammar?, hx, hy]
    rfl

namespace Xsd

/-- Two readers of schemas that are in step, and keep `K` between the tables of
    simple types of the one and of the other. -/
def InStep {α : Type} (K : Simple → Simple → Prop) (x y : XsdM α) : Prop :=
  ∀ s s', K s s' → ReadM.InStep Reading.Same (fun a b => b.1 = a.1 ∧ K a.2 b.2) (x.run s) (y.run s')

section
variable {α β : Type} {K : Simple → Simple → Prop}

theorem InStep.pure (a : α) : InStep K (Pure.pure a) (Pure.pure a) :=
  fun _ _ hs => ReadM.InStep.pure ⟨rfl, hs⟩

theorem InStep.bind {x y : XsdM α} {f f' : α → XsdM β} (h : InStep K x y)
    (hf : ∀ a, InStep K (f a) (f' a)) : InStep K (x >>= f) (y >>= f') := by
  intro s s' hs
  refine ReadM.InStep.bind (h s s' hs) ?_
  rintro ⟨a, s₁⟩ ⟨b, s₁'⟩ ⟨rfl, hs₁⟩
  exact hf _ s₁ s₁' hs₁

theorem InStep.lift {x y : ReadM α} (h : ReadM.InStep Reading.Same Eq x y) :
    InStep K (liftM x : XsdM α) (liftM y) := by
  intro s s' hs
  refine ReadM.InStep.bind h ?_
  rintro a _ rfl
  exact ReadM.InStep.pure ⟨rfl, hs⟩

theorem InStep.ofExcept {x y : Except SchemaError α} (h : y.toOption = x.toOption) :
    InStep K (ofExcept x) (ofExcept y) :=
  .lift (.ofExcept h)

theorem inStep_tell (n : Notice) : InStep K (tell n) (tell n) :=
  .lift (ReadM.inStep_tell n)

theorem run_tellAll (s : Simple) : ∀ (ns : List Notice) (r : Reading), ∃ r', r.Same r' ∧
    ((forIn ns PUnit.unit fun n _ => do
      tell n
      return .yield PUnit.unit : XsdM PUnit).run s).run r = (.ok (PUnit.unit, s), r')
  | [], r => ⟨r, ⟨rfl, rfl⟩, rfl⟩
  | n :: ns, r => by
    obtain ⟨r', hsame, hrun⟩ := run_tellAll s ns { r with notices := r.notices ++ [n] }
    refine ⟨r', hsame, ?_⟩
    rw [List.forIn_cons]
    exact hrun

theorem inStep_tellAll (ns ms : List Notice) : InStep K
    (forIn ns PUnit.unit fun n _ => do tell n; return .yield PUnit.unit)
    (forIn ms PUnit.unit fun n _ => do tell n; return .yield PUnit.unit) := by
  intro s s' hs r r' hr
  obtain ⟨r₁, hsame, hrun⟩ := run_tellAll s ns r
  obtain ⟨r₁', hsame', hrun'⟩ := run_tellAll s' ms r'
  refine .inl ⟨_, _, r₁, r₁', hrun, hrun', ⟨rfl, hs⟩, ?_⟩
  exact ⟨hsame'.1.trans (hr.1.trans hsame.1.symm), hsame'.2.trans (hr.2.trans hsame.2.symm)⟩

theorem InStep.resolving {step step' : Table Node → SimpleM α}
    (h : ∀ s s', K s s' →
      (step' s'.nodes { known := s'.known }).1 = (step s.nodes { known := s.known }).1 ∧
      K { s with known := (step s.nodes { known := s.known }).2.known }
        { s' with known := (step' s'.nodes { known := s'.known }).2.known }) :
    InStep K (resolving step) (resolving step') := by
  intro s s' hs
  obtain ⟨hresult, hs'⟩ := h s s' hs
  rw [run_resolving, run_resolving, hresult]
  exact (InStep.bind (inStep_tellAll _ _) fun _ => .pure _) _ _ hs'

end

/-! ## Readers -/

/-- Whether simple types are looked up in step with those without places, for the
    names that are used. -/
structure Resolves (used : String → Prop) (K : Simple → Simple → Prop) : Prop where
  /-- A name that an element uses itself. -/
  simpleNamed : ∀ {n : Node}, InUse used n → ∀ {label name : String},
    label ∈ ["type", "base", "itemType"] → n.attribute? label = some name →
      InStep K (simpleNamed n name) (simpleNamed n.unplaced name)
  simpleType : ∀ {n : Node}, InUse used n →
    InStep K (simpleType n) (simpleType n.unplaced)

/-- Whether the tables of declarations are these, and what is known is the same. -/
def Declares (nodes nodes' : Table Node) (s s' : Simple) : Prop :=
  s.nodes = nodes ∧ s'.nodes = nodes' ∧ s'.known = s.known

theorem resolves_of_agreeing {used : String → Prop} {nodes nodes' : Table Node}
    (h : Agreeing used nodes nodes') : Resolves used (Declares nodes nodes') where
  simpleNamed {n} hn {label name} ha hname := by
    refine .resolving ?_
    rintro ⟨_, known⟩ ⟨_, _⟩ ⟨rfl, rfl, rfl⟩
    rw [(named_unplaced h []).own hn ha hname]
    exact ⟨rfl, rfl, rfl, rfl⟩
  simpleType {n} hn := by
    refine .resolving ?_
    rintro ⟨_, known⟩ ⟨_, _⟩ ⟨rfl, rfl, rfl⟩
    rw [simpleTypeWith_unplaced (named_unplaced h []) n hn]
    exact ⟨rfl, rfl, rfl, rfl⟩

theorem requiredAttribute_unplaced (n : Node) (name : String) :
    (requiredAttribute n.unplaced name).toOption = (requiredAttribute n name).toOption := by
  simp only [requiredAttribute, Node.attribute?_unplaced]
  cases n.attribute? name <;> rfl

theorem boundOf_unplaced (n : Node) (value : String) :
    (boundOf n.unplaced value).toOption = (boundOf n value).toOption := by
  delta boundOf
  cases readCount (Text.trim value) <;> rfl

theorem toOption_bind {α β : Type} {x y : Except SchemaError α} {f g : α → Except SchemaError β}
    (h : y.toOption = x.toOption) (hf : ∀ a, (g a).toOption = (f a).toOption) :
    (y >>= g).toOption = (x >>= f).toOption := by
  cases x with
  | ok a =>
    cases y with
    | ok b =>
      cases h
      exact hf a
    | error e => cases h
  | error e =>
    cases y with
    | ok b => cases h
    | error e' => rfl

theorem occursPattern_unplaced (n : Node) :
    (occursPattern n.unplaced).toOption = (occursPattern n).toOption := by
  have hmany : ∀ value, ((decide <| · > 1) <$> boundOf n.unplaced value).toOption =
      ((decide <| · > 1) <$> boundOf n value).toOption := by
    intro value
    rw [map_eq_pure_bind, map_eq_pure_bind]
    exact toOption_bind (boundOf_unplaced n value) fun _ => rfl
  simp only [occursPattern, Node.attribute?_unplaced]
  -- the upper bound is read behind the lower one
  cases n.attribute? "maxOccurs" with
  | none =>
    cases n.attribute? "minOccurs" with
    | none => rfl
    | some value => exact toOption_bind (boundOf_unplaced n value) fun _ => rfl
  | some many =>
    by_cases hu : Text.trim many = "unbounded"
    · simp only [if_pos hu]
      cases n.attribute? "minOccurs" with
      | none => rfl
      | some value => exact toOption_bind (boundOf_unplaced n value) fun _ => rfl
    · simp only [if_neg hu]
      cases n.attribute? "minOccurs" with
      | none => exact toOption_bind rfl fun _ => toOption_bind (hmany many) fun _ => rfl
      | some value =>
        exact toOption_bind (boundOf_unplaced n value) fun _ =>
          toOption_bind (hmany many) fun _ => rfl

theorem markMixed_unplaced (n : Node) (target : ElementPattern) :
    markMixed n.unplaced target = markMixed n target := by
  simp only [markMixed, Node.attribute?_unplaced]

section
variable {used : String → Prop} {K : Simple → Simple → Prop} (h : Resolves used K)
include h

-- in a mutual block only some of the theorems name `h` themselves
set_option linter.unusedSectionVars false

theorem inStep_readAttribute {n : Node} (hn : InUse used n) :
    InStep K (readAttribute n) (readAttribute n.unplaced) := by
  simp only [readAttribute, Node.attribute?_unplaced, Node.child?_unplaced]
  split
  · exact .pure _
  · refine .bind (.ofExcept ?_) fun name => ?_
    · cases n.attribute? "name" <;> cases n.attribute? "ref" <;> rfl
    · cases htype : n.attribute? "type" with
      | some type => exact .bind (h.simpleNamed hn (by decide) htype) fun _ => .pure _
      | none =>
        cases hchild : n.child? "simpleType" with
        | none => exact .pure _
        | some child =>
          have htype : InStep K (some <$> simpleType child)
              (some <$> simpleType child.unplaced) :=
            .bind (h.simpleType (hn.child hchild)) fun _ => .pure _
          exact .bind htype fun _ => .pure _

theorem inStep_readAttributes : ∀ (ns : List Node) (target : ElementPattern), AllInUse used ns →
    InStep K (readAttributes target ns) (readAttributes target (Node.unplacedAll ns))
  | [], _, _ => .pure _
  | n :: ns, target, hn => by
    have hrest : ∀ e : ElementPattern, InStep K (readAttributes e ns)
        (readAttributes e (Node.unplacedAll ns)) :=
      fun e => inStep_readAttributes ns e hn.tail
    simp only [Node.unplacedAll, readAttributes, Node.name_unplaced]
    split
    · refine .bind (inStep_readAttribute h hn.head) fun found => ?_
      cases found with
      | none => exact .bind (.pure _) hrest
      | some a => exact .bind (.pure _) hrest
    · exact .bind (.ofExcept (requiredAttribute_unplaced n "ref")) fun ref => .bind (.pure _) hrest
    · exact .bind (inStep_tell _) fun _ => .bind (.pure _) hrest
    · exact .bind (.pure _) hrest

theorem inStep_readElement {n : Node} (hn : InUse used n)
    {complexType complexType' : ElementPattern → XsdM ElementPattern}
    (hc : ∀ e, InStep K (complexType e) (complexType' e)) (pattern : Pattern) :
    InStep K (readElement complexType pattern n) (readElement complexType' pattern n.unplaced) := by
  simp only [readElement, Node.attribute?_unplaced, Node.child?_unplaced, Option.isSome_map]
  refine .bind (.ofExcept (requiredAttribute_unplaced n "name")) fun name => ?_
  cases htype : n.attribute? "type" with
  | some type =>
    refine .bind (h.simpleNamed hn (by decide) htype) fun found => ?_
    cases found with
    | none => exact .pure _
    | some simple => exact .pure _
  | none =>
    dsimp only
    split
    · exact hc _
    · cases hchild : n.child? "simpleType" with
      | none => exact .pure _
      | some child =>
        exact .bind (h.simpleType (hn.child hchild)) fun _ => .pure _

theorem inStep_readSimpleDerivation {n : Node} (hn : InUse used n) (target : ElementPattern) :
    InStep K (readSimpleDerivation target n) (readSimpleDerivation target n.unplaced) := by
  have hrest : ∀ e : ElementPattern, InStep K
      (readAttributes { e with facet := enumerationFacet n <|> e.facet } n.children)
      (readAttributes { e with facet := enumerationFacet n <|> e.facet }
        (n.children.map Node.unplaced)) := by
    intro e
    rw [← Node.unplacedAll_eq_map]
    exact inStep_readAttributes h _ _ hn.children
  simp only [readSimpleDerivation, Node.attribute?_unplaced, Node.children_unplaced,
    enumerationFacet_unplaced]
  cases hbase : n.attribute? "base" with
  | none => exact .bind (.pure _) hrest
  | some base =>
    refine .bind (h.simpleNamed hn (by decide) hbase) fun found => ?_
    cases found with
    | none => exact .bind (.pure _) hrest
    | some simple => exact .bind (.pure _) hrest

theorem inStep_readSimpleContent : ∀ (ns : List Node) (target : ElementPattern), AllInUse used ns →
    InStep K (readSimpleContent target ns) (readSimpleContent target (Node.unplacedAll ns))
  | [], _, _ => .pure _
  | n :: ns, target, hn => by
    have hrest : ∀ e : ElementPattern, InStep K (readSimpleContent e ns)
        (readSimpleContent e (Node.unplacedAll ns)) :=
      fun e => inStep_readSimpleContent ns e hn.tail
    simp only [Node.unplacedAll, readSimpleContent, Node.name_unplaced]
    split
    · exact .bind (inStep_readSimpleDerivation h hn.head target) hrest
    · exact .bind (.pure _) hrest

mutual

theorem inStep_readParticle (pattern : Pattern) (target : ElementPattern) : ∀ n, InUse used n →
    InStep K (readParticle pattern target n) (readParticle pattern target n.unplaced)
  | .element head children, hn => by
    have hoccurs := occursPattern_unplaced (.element head children)
    have href := requiredAttribute_unplaced (.element head children) "ref"
    have hattribute := Node.attribute?_unplaced (.element head children) "ref"
    have hparticles : ∀ p, InStep K (readParticles p target children)
        (readParticles p target (Node.unplacedAll children)) :=
      fun p => inStep_readParticles p target children hn.children
    have helement : ∀ p, InStep K
        (readElement (fun e => readTypeChild e children) p (.element head children))
        (readElement (fun e => readTypeChild e (Node.unplacedAll children)) p
          (Node.element head children).unplaced) :=
      fun p => inStep_readElement h hn (fun e => inStep_readTypeChild e children hn.children) p
    rw [Node.unplaced] at hoccurs href hattribute helement
    rw [Node.unplaced, readParticle, readParticle]
    simp only [hattribute]
    split
    · refine .bind (.ofExcept hoccurs) fun p => ?_
      split
      · exact .pure _
      · exact .bind (helement _) fun e => .pure _
    · exact .bind (.ofExcept hoccurs) fun p => hparticles _
    · exact .bind (.ofExcept hoccurs) fun p => hparticles _
    · exact .bind (.lift ReadM.inStep_nextChoice) fun group =>
        .bind (.ofExcept hoccurs) fun p => hparticles _
    · exact .bind (.ofExcept hoccurs) fun p => .bind (.ofExcept href) fun ref => .pure _
    · exact .pure _
    · exact .bind (inStep_tell _) fun _ => .pure _
    · exact .bind (inStep_tell _) fun _ => .pure _
  | .text _, _ | .comment _, _ | .instruction, _ => .pure _

theorem inStep_readParticles (pattern : Pattern) (target : ElementPattern) : ∀ ns, AllInUse used ns →
    InStep K (readParticles pattern target ns) (readParticles pattern target (Node.unplacedAll ns))
  | [], _ => .pure _
  | n :: ns, hn => by
    rw [Node.unplacedAll, readParticles, readParticles]
    exact .bind (inStep_readParticle pattern target n hn.head) fun e =>
      inStep_readParticles pattern e ns hn.tail

theorem inStep_readTypeChild (target : ElementPattern) : ∀ ns, AllInUse used ns →
    InStep K (readTypeChild target ns) (readTypeChild target (Node.unplacedAll ns))
  | [], _ => .pure _
  | n :: ns, hn => by
    rw [Node.unplacedAll, readTypeChild, readTypeChild, Node.name_unplaced]
    split
    · exact inStep_readType target n hn.head
    · exact inStep_readTypeChild target ns hn.tail

theorem inStep_readType (target : ElementPattern) : ∀ n, InUse used n →
    InStep K (readType target n) (readType target n.unplaced)
  | .element head children, hn => by
    have hmixed := markMixed_unplaced (.element head children) target
    rw [Node.unplaced] at hmixed
    rw [Node.unplaced, readType, readType, hmixed]
    exact .bind (inStep_readTypeParts _ children hn.children) fun e =>
      inStep_readAttributes h children e hn.children
  | .text _, _ | .comment _, _ | .instruction, _ => .pure _

theorem inStep_readTypeParts (target : ElementPattern) : ∀ ns, AllInUse used ns →
    InStep K (readTypeParts target ns) (readTypeParts target (Node.unplacedAll ns))
  | [], _ => .pure _
  | n :: ns, hn => by
    have hrest : ∀ e : ElementPattern, InStep K (readTypeParts e ns)
        (readTypeParts e (Node.unplacedAll ns)) :=
      fun e => inStep_readTypeParts e ns hn.tail
    have hparticle := inStep_readParticle {} target n hn.head
    rw [Node.unplacedAll, readTypeParts, readTypeParts]
    simp only [Node.name_unplaced, Node.isElement_unplaced]
    split
    · exact .bind hparticle hrest
    · exact .bind hparticle hrest
    · exact .bind hparticle hrest
    · exact .bind hparticle hrest
    · rw [Node.children_unplaced, ← Node.unplacedAll_eq_map]
      exact .bind (inStep_readSimpleContent h _ _ hn.head.children) hrest
    · exact .bind (inStep_readComplexContent target n hn.head) hrest
    · exact .bind (.pure _) hrest
    · exact .bind (.pure _) hrest
    · exact .bind (.pure _) hrest
    · exact .bind (.pure _) hrest
    · split
      · exact .bind (inStep_tell _) fun _ => .bind (.pure _) hrest
      · exact .bind (.pure _) hrest

theorem inStep_readComplexContent (target : ElementPattern) : ∀ n, InUse used n →
    InStep K (readComplexContent target n) (readComplexContent target n.unplaced)
  | .element head children, hn => by
    have hmixed := markMixed_unplaced (.element head children) target
    rw [Node.unplaced] at hmixed
    rw [Node.unplaced, readComplexContent, readComplexContent, hmixed]
    exact inStep_readDerivations _ children hn.children
  | .text _, _ | .comment _, _ | .instruction, _ => .pure _

theorem inStep_readDerivations (target : ElementPattern) : ∀ ns, AllInUse used ns →
    InStep K (readDerivations target ns) (readDerivations target (Node.unplacedAll ns))
  | [], _ => .pure _
  | n :: ns, hn => by
    have hrest : ∀ e : ElementPattern, InStep K (readDerivations e ns)
        (readDerivations e (Node.unplacedAll ns)) :=
      fun e => inStep_readDerivations e ns hn.tail
    rw [Node.unplacedAll, readDerivations, readDerivations]
    simp only [Node.name_unplaced]
    split
    · refine .bind (.ofExcept (requiredAttribute_unplaced n "base")) fun base => ?_
      exact .bind (inStep_readType _ n hn.head) hrest
    · exact .bind (inStep_readType target n hn.head) hrest
    · exact .bind (.pure _) hrest

end

theorem inStep_readGlobal (start : ElementPattern) : ∀ n, InUse used n →
    InStep K (readGlobal start n) (readGlobal start n.unplaced)
  | .element head children, hn => by
    have hname := requiredAttribute_unplaced (.element head children) "name"
    have hattribute := Node.attribute?_unplaced (.element head children) "schemaLocation"
    have helement := inStep_readElement h hn
      (fun e => inStep_readTypeChild h e children hn.children) {}
    have htype : ∀ e, InStep K (readType e (.element head children))
        (readType e (Node.element head children).unplaced) :=
      fun e => inStep_readType h e _ hn
    rw [Node.unplaced] at hname hattribute helement htype
    rw [Node.unplaced, readGlobal, readGlobal]
    simp only [hattribute]
    split
    · refine .bind (.ofExcept hname) fun name => .bind helement fun e => ?_
      exact .bind (.lift (ReadM.inStep_define _ _)) fun _ => .pure _
    · refine .bind (.ofExcept hname) fun name => .bind (htype _) fun e => ?_
      exact .bind (.lift (ReadM.inStep_define _ _)) fun _ => .pure _
    · refine .bind (.ofExcept hname) fun name => ?_
      refine .bind (inStep_readParticles h {} _ children hn.children) fun e => ?_
      exact .bind (.lift (ReadM.inStep_define _ _)) fun _ => .pure _
    · refine .bind (.ofExcept hname) fun name => ?_
      refine .bind (inStep_readAttributes h children _ hn.children) fun e => ?_
      exact .bind (.lift (ReadM.inStep_define _ _)) fun _ => .pure _
    · exact .pure _
    · exact .pure _
    all_goals exact .bind (inStep_tell _) fun _ => .pure _
  | .text _, _ | .comment _, _ | .instruction, _ => .pure _

/-- **Declarations are read in step**, if the tables agree in the names of types
    that they use. -/
theorem inStep_readGlobals : ∀ (ns : List Node) (start : ElementPattern), AllInUse used ns →
    InStep K (readGlobals start ns) (readGlobals start (ns.map Node.unplaced))
  | [], _, _ => .pure _
  | n :: ns, start, hn => by
    rw [List.map_cons, readGlobals, readGlobals]
    exact .bind (inStep_readGlobal h start n hn.head) fun e =>
      inStep_readGlobals ns e hn.tail

end

end Xsd

end Bindery.Schema
