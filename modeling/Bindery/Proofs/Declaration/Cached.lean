/-
  Simple types with and without those that are kept.

  Simple types that were resolved are kept, names that are being resolved count
  as strings, and what a type that is derived from itself comes to depends on
  where it was met first.  `plainNamed` keeps nothing: it follows a name to its
  declaration, and that to what it is derived from, for as long as there is
  something to follow.

  * `named_of_acyclic`: a name from which no type is reached that is derived from
    itself stands for the type of plain recursion, whatever is kept (`Sound`);
  * `named_akin`: and types that are kept of such names change no other lookup;
  * `kept_types_plain`: so a schema is read as if they were known from the start.
-/
import Bindery.Proofs.Sections.OneSchema

namespace Bindery.Markup

open Schema

/-! ## Plain recursion -/

/-- The restriction, list or union that says what simple type the element declares. -/
def Node.derivation? (n : Node) : Option Node :=
  n.children.find? (·.name ∈ ["restriction", "list", "union"])

mutual

/-- The simple type with the name `name` at the element `context`, unless that is
    a complex type; `none` stands for a recursion without end. -/
def Node.plainNamed (nodes : Table Node) (context : Node) (name : String) :
    Option (Option SimpleType) :=
  if isBuiltin context name then
    if localName name = "anyType" then some none
    else some (some { dataType := (DataType.ofName? (localName name)).getD .string })
  else
    match nodes.get? (localName name) with
    | none => some none
    | some node => do
      let type ← node |>.plainType nodes
      return some type
partial_fixpoint

/-- The simple type that the element declares.  A restriction keeps the type of its
    base and overrides the values if it lists any, a list is a string with the
    values of its items, now combinable, and a union is a string. -/
def Node.plainType (nodes : Table Node) (n : Node) : Option SimpleType :=
  match n.derivation? with
  | none => some {}
  | some d =>
    if d.name = "restriction" then do
      let base ← d |>.plainOrigin nodes "base"
      return { base with facet := enumerationFacet d <|> base.facet }
    else if d.name = "list" then do
      let item ← d |>.plainOrigin nodes "itemType"
      return { facet := item.facet.map ({ · with combinable := true }) }
    else some {}
partial_fixpoint

/-- The simple type that a restriction or list is made from: that with the name in
    its attribute `label`, or the one declared inside. -/
def Node.plainOrigin (nodes : Table Node) (d : Node) (label : String) : Option SimpleType :=
  match d.attribute? label with
  | some name => do
    let type ← d |>.plainNamed nodes name
    return type.getD {}
  | none =>
    match d.child? "simpleType" with
    | some inner => inner |>.plainType nodes
    | none => some {}
partial_fixpoint

end

end Bindery.Markup

namespace Bindery.Schema

open Markup (Node)
open Markup.Node (derivation? plainNamed plainType plainOrigin)

/-! ## Derivation -/

/-- The name, at an element, that the declaration of a simple type leads to: that of
    the base of a restriction or of the items of a list, also through the types
    declared inside. -/
inductive Uses : Node → Node → String → Prop
  | own {n d : Node} {label name : String} : derivation? n = some d →
      (d.name, label) ∈ [("restriction", "base"), ("list", "itemType")] →
      d.attribute? label = some name → Uses n d name
  | inner {n d inner e : Node} {label name : String} : derivation? n = some d →
      (d.name, label) ∈ [("restriction", "base"), ("list", "itemType")] →
      d.attribute? label = none → d.child? "simpleType" = some inner → Uses inner e name →
      Uses n e name

/-- Whether the declaration of the simple type `a` leads to the name `b`. -/
def DerivedFrom (nodes : Table Node) (a b : String) : Prop :=
  ∃ node context name, nodes.get? a = some node ∧ Uses node context name ∧
    isBuiltin context name = false ∧ b = localName name

/-- Whether no simple type that is derived from itself is reached from `a`. -/
def Acyclic (nodes : Table Node) (a : String) : Prop :=
  ∀ b, Relation.ReflTransGen (DerivedFrom nodes) a b → ¬ Relation.TransGen (DerivedFrom nodes) b b

theorem Acyclic.step {nodes : Table Node} {a b : String} (h : Acyclic nodes a)
    (hab : DerivedFrom nodes a b) : Acyclic nodes b :=
  fun c hbc => h c (hbc.head hab)

/-! ## Declarations -/

/-- Whether a type is made of the type of one name that is used, or of none, and
    by plain recursion in the same way. -/
def Made (uses : Node → String → Prop) (x : Lookup → SimpleM SimpleType)
    (plain : Table Node → Option SimpleType) : Prop :=
  (∃ context name f, uses context name ∧ (∀ lookup, x lookup = f <$> lookup context name) ∧
    ∀ nodes, plain nodes = (plainNamed nodes context name).map f) ∨
  ∃ type, (∀ lookup s, ∃ notices, (x lookup).run s = (type, { s with notices })) ∧
    ∀ nodes, plain nodes = some type

theorem Made.map {uses uses' : Node → String → Prop} {x x' : Lookup → SimpleM SimpleType}
    {plain plain' : Table Node → Option SimpleType} (h : Made uses x plain)
    (huses : ∀ context name, uses context name → uses' context name)
    {g : SimpleType → SimpleType} (hx' : ∀ lookup, x' lookup = g <$> x lookup)
    (hplain' : ∀ nodes, plain' nodes = (plain nodes).map g) : Made uses' x' plain' := by
  rcases h with ⟨context, name, f, hname, hx, hplain⟩ | ⟨type, hx, hplain⟩
  · refine .inl ⟨context, name, g ∘ f, huses _ _ hname, fun lookup => ?_, fun nodes => ?_⟩
    · rw [hx', hx, comp_map]
    · rw [hplain', hplain, Option.map_map]
  · refine .inr ⟨g type, fun lookup s => ?_, fun nodes => ?_⟩
    · obtain ⟨notices, hrun⟩ := hx lookup s
      exact ⟨notices, by rw [hx', StateT.run_map, hrun]; rfl⟩
    · rw [hplain', hplain, Option.map_some]

theorem Made.pure {uses : Node → String → Prop} {type : SimpleType}
    {plain : Table Node → Option SimpleType} (hplain : ∀ nodes, plain nodes = some type) :
    Made uses (fun _ => Pure.pure type) plain :=
  .inr ⟨type, fun _ s => ⟨s.notices, rfl⟩, hplain⟩

/-- Whether the type declared by the first `simpleType` among the nodes is made of
    what that uses. -/
def InlineMade (ns : List Node) : Prop :=
  (∃ inner, ns.find? (·.name == "simpleType") = some inner ∧
    Made (Uses inner) (inlineType · ns) (plainType · inner)) ∨
  ns.find? (·.name == "simpleType") = none ∧ ∀ lookup, inlineType lookup ns = pure {}

/-- The simple type that a restriction or list is made from. -/
def originWith (lookup : Lookup) (d : Node) (label : String) : SimpleM SimpleType :=
  match d.attribute? label with
  | some name => (·.getD {}) <$> lookup d name
  | none => inlineType lookup d.children

theorem made_origin {n d : Node} {label : String} (hn : derivation? n = some d)
    (hlabel : (d.name, label) ∈ [("restriction", "base"), ("list", "itemType")])
    (hinline : InlineMade d.children) :
    Made (Uses n) (originWith · d label) (plainOrigin · d label) := by
  simp only [originWith]
  cases hattribute : d.attribute? label with
  | some name =>
    refine .inl ⟨d, name, (·.getD {}), .own hn hlabel hattribute, fun _ => rfl, fun nodes => ?_⟩
    show plainOrigin nodes d label = _
    rw [plainOrigin, hattribute, Option.map_eq_bind]
    rfl
  | none =>
    rcases hinline with ⟨inner, hinner, hmade⟩ | ⟨hnone, hinline⟩
    · refine hmade.map (fun _ _ huses => .inner hn hlabel hattribute hinner huses)
        (g := id) (fun _ => (id_map _).symm) fun nodes => ?_
      rw [plainOrigin, hattribute, Node.child?, hinner, Option.map_id_apply]
    · simp only [hinline]
      refine .pure fun nodes => ?_
      rw [plainOrigin, hattribute, Node.child?, hnone]

mutual

theorem made_simpleType : ∀ n : Node, Made (Uses n) (simpleTypeWith · n) (plainType · n)
  | .element head children => made_derivation (.element head children) children rfl
  | .text _ | .comment _ | .instruction => .pure fun nodes => by
    rw [plainType]
    rfl

theorem made_derivation (n : Node) : ∀ ns : List Node,
    derivation? n = ns.find? (·.name ∈ ["restriction", "list", "union"]) →
    Made (Uses n) (derivation · ns) (plainType · n)
  | [], hn => .pure fun nodes => by
    rw [plainType, hn]
    rfl
  | .element head children :: rest, hn => by
    have hhead : (Node.element head children).name = head.name := rfl
    have hfirst : head.name ∈ ["restriction", "list", "union"] →
        derivation? n = some (.element head children) :=
      fun h => hn.trans (List.find?_cons_of_pos (by simpa [hhead] using h))
    have horigin : ∀ label, (head.name, label) ∈ [("restriction", "base"), ("list", "itemType")] →
        derivation? n = some (.element head children) →
          Made (Uses n) (originWith · (.element head children) label)
            (plainOrigin · (.element head children) label) :=
      fun label hlabel hn => made_origin hn hlabel (made_inline children)
    by_cases hrestriction : head.name = "restriction"
    · have hn := hfirst (by simp [hrestriction])
      refine (horigin "base" (by simp [hrestriction]) hn).map (fun _ _ h => h)
        (g := fun base => { base with facet := enumerationFacet (.element head children) <|>
          base.facet }) (fun lookup => ?_) fun nodes => ?_
      · rw [map_eq_pure_bind, derivation, hrestriction, originWith]
        cases (Node.element head children).attribute? "base" <;> rfl
      · rw [plainType, hn, Option.map_eq_bind]
        simp only [hhead, hrestriction, if_true]
        rfl
    by_cases hlist : head.name = "list"
    · have hn := hfirst (by simp [hlist])
      refine (horigin "itemType" (by simp [hlist]) hn).map (fun _ _ h => h)
        (g := fun item => { facet := item.facet.map ({ · with combinable := true }) })
        (fun lookup => ?_) fun nodes => ?_
      · rw [map_eq_pure_bind, derivation, hlist, originWith]
        cases (Node.element head children).attribute? "itemType" <;> rfl
      · rw [plainType, hn, Option.map_eq_bind]
        simp only [hhead, hlist, if_true]
        rfl
    by_cases hunion : head.name = "union"
    · refine .inr ⟨{}, fun lookup s => ⟨s.notices ++ [.unionType], ?_⟩, fun nodes => ?_⟩
      · show (derivation lookup _).run s = _
        rw [derivation, hunion]
        rfl
      · show plainType nodes n = _
        rw [plainType, hfirst (by simp [hunion])]
        simp only [hhead, hrestriction, if_false, hlist]
    · have hrest : derivation? n = rest.find? (·.name ∈ ["restriction", "list", "union"]) := by
        rw [hn, List.find?_cons_of_neg]
        simp [hhead, hrestriction, hlist, hunion]
      refine (made_derivation n rest hrest).map (fun _ _ h => h) (g := id) (fun lookup => ?_)
        fun nodes => (Option.map_id_apply ..).symm
      rw [derivation, id_map]
      split
      · contradiction
      · contradiction
      · contradiction
      · rfl
  | .text _ :: rest, hn | .comment _ :: rest, hn | .instruction :: rest, hn =>
    made_derivation n rest hn

theorem made_inline : ∀ ns : List Node, InlineMade ns
  | [] => .inr ⟨rfl, fun _ => rfl⟩
  | n :: ns => by
    simp only [InlineMade, inlineType]
    by_cases h : n.name = "simpleType"
    · rw [List.find?_cons_of_pos (by simpa using h)]
      simp only [if_pos h]
      exact .inl ⟨n, rfl, made_simpleType n⟩
    · rw [List.find?_cons_of_neg (by simpa using h)]
      simp only [if_neg h]
      exact made_inline ns

end

/-! ## Lookups -/

section
variable {nodes : Table Node} {resolving : List String} {context : Node} {name : String}
  {s s' : SimpleTypes}

theorem run_named_builtin (nodes : Table Node) (resolving : List String)
    (hb : isBuiltin context name = true) : ∃ found,
    plainNamed nodes context name = some found ∧
      ∀ s, ∃ notices, (named nodes resolving context name).run s = (found, { s with notices }) := by
  rw [plainNamed, named, if_pos hb, if_pos hb]
  by_cases hany : localName name = "anyType"
  · rw [if_pos hany, if_pos hany]
    exact ⟨none, rfl, fun s => ⟨s.notices, rfl⟩⟩
  · rw [if_neg hany, if_neg hany]
    refine ⟨_, rfl, fun s => ?_⟩
    rw [SimpleM.dataType]
    cases DataType.ofName? (localName name) with
    | none => exact ⟨_, rfl⟩
    | some type => exact ⟨s.notices, rfl⟩

theorem run_named (hb : isBuiltin context name = false) (s : SimpleTypes) :
    (named nodes resolving context name).run s =
      match s.known.get? (localName name), nodes.get? (localName name) with
      | some type, _ => (some type, s)
      | none, none => (none, s)
      | none, some node =>
        if localName name ∈ resolving then
          (some {}, { s with notices := s.notices ++ [.selfDerived (localName name)] })
        else
          let found := (simpleTypeWith (named nodes (localName name :: resolving)) node).run s
          (some found.1,
            { found.2 with known := found.2.known.insert (localName name) found.1 }) := by
  rw [named, if_neg (by simp [hb]), StateT.run_bind, StateT.run_get, pure_bind]
  cases s.known.get? (localName name) with
  | some type => rfl
  | none =>
    dsimp only
    split
    · rename_i hnone
      rw [hnone]
      rfl
    · rename_i node hnode
      rw [hnode]
      split <;> rfl

/-! ## What is kept -/

/-- Whether the types that are kept of names without circles are those of plain
    recursion. -/
def Sound (nodes : Table Node) (known : Table SimpleType) : Prop :=
  ∀ key type, known.get? key = some type → Acyclic nodes key →
    ∃ node, nodes.get? key = some node ∧ plainType nodes node = some type

/-- Whether two tables of types differ at most in what is kept of names without
    circles. -/
structure Akin (nodes : Table Node) (known known' : Table SimpleType) : Prop where
  sound : Sound nodes known
  sound' : Sound nodes known'
  same : ∀ key, ¬ Acyclic nodes key → known'.get? key = known.get? key

theorem Akin.refl {known : Table SimpleType} (h : Sound nodes known) : Akin nodes known known :=
  ⟨h, h, fun _ _ => rfl⟩

theorem Akin.trans {known known' known'' : Table SimpleType} (h : Akin nodes known known')
    (h' : Akin nodes known' known'') : Akin nodes known known'' :=
  ⟨h.sound, h'.sound', fun key hkey => (h'.same key hkey).trans (h.same key hkey)⟩

theorem Akin.symm {known known' : Table SimpleType} (h : Akin nodes known known') :
    Akin nodes known' known :=
  ⟨h.sound', h.sound, fun key hkey => (h.same key hkey).symm⟩

/-- Whether a step gives the same from two states, and keeps what they know alike. -/
def SameFrom {α : Type} (nodes : Table Node) (s s' : SimpleTypes) (x : SimpleM α) : Prop :=
  (x.run s').1 = (x.run s).1 ∧ Akin nodes (x.run s).2.known (x.run s').2.known

theorem Sound.insert {known : Table SimpleType} (h : Sound nodes known) {key : String}
    {type : SimpleType} (hkey : Acyclic nodes key →
      ∃ node, nodes.get? key = some node ∧ plainType nodes node = some type) :
    Sound nodes (known.insert key type) := by
  intro k t hk ha
  rcases Table.get?_insert_cases hk with ⟨rfl, rfl⟩ | ⟨-, hk⟩
  · exact hkey ha
  · exact h k t hk ha

theorem derivedFrom_of_uses {key : String} {node : Node} (hn : nodes.get? key = some node)
    (huses : Uses node context name) (hb : isBuiltin context name = false) :
    DerivedFrom nodes key (localName name) :=
  ⟨node, context, name, hn, huses, hb, rfl⟩

/-- The names that are being resolved lead to the name that is looked up. -/
def Leading (nodes : Table Node) (resolving : List String) (context : Node) (name : String) :
    Prop :=
  isBuiltin context name = false →
    ∀ r ∈ resolving, Relation.TransGen (DerivedFrom nodes) r (localName name)

theorem Leading.nil : Leading nodes [] context name :=
  fun _ _ hr => by cases hr

theorem Leading.cons {key : String} {node : Node}
    (h : ∀ r ∈ resolving, Relation.TransGen (DerivedFrom nodes) r key)
    (hn : nodes.get? key = some node) (huses : Uses node context name) :
    Leading nodes (key :: resolving) context name := by
  intro hb r hr
  have hlast := derivedFrom_of_uses hn huses hb
  rcases List.mem_cons.1 hr with rfl | hr
  · exact .single hlast
  · exact (h r hr).tail hlast

theorem simpleTypeWith_plain {lookup : Lookup} {node : Node} (hs : Sound nodes s.known)
    (h : ∀ other used, Uses node other used →
      plainNamed nodes other used = some ((lookup other used).run s).1 ∧
        Akin nodes s.known ((lookup other used).run s).2.known) :
    plainType nodes node = some ((simpleTypeWith lookup node).run s).1 ∧
      Akin nodes s.known ((simpleTypeWith lookup node).run s).2.known := by
  rcases made_simpleType node with
    ⟨other, used, f, huses, hmade, hplain⟩ | ⟨type, hmade, hplain⟩
  · obtain ⟨hused, hkeeps⟩ := h other used huses
    have hmade : simpleTypeWith lookup node = f <$> lookup other used := hmade lookup
    refine ⟨(hplain nodes).trans ?_, ?_⟩
    · rw [hused, hmade]
      rfl
    · rw [hmade]
      exact hkeeps
  · obtain ⟨notices, hrun⟩ := hmade lookup s
    refine ⟨(hplain nodes).trans ?_, ?_⟩
    · rw [hrun]
    · rw [hrun]
      exact .refl hs

theorem simpleTypeWith_akin {lookup : Lookup} {node : Node} (hs : Akin nodes s.known s'.known)
    (h : ∀ other used, Uses node other used → SameFrom nodes s s' (lookup other used)) :
    SameFrom nodes s s' (simpleTypeWith lookup node) := by
  rw [SameFrom]
  rcases made_simpleType node with ⟨other, used, f, huses, hmade, -⟩ | ⟨type, hmade, -⟩
  · have hmade : simpleTypeWith lookup node = f <$> lookup other used := hmade lookup
    rw [hmade]
    exact ⟨congrArg f (h other used huses).1, (h other used huses).2⟩
  · obtain ⟨notices, hrun⟩ := hmade lookup s
    obtain ⟨notices', hrun'⟩ := hmade lookup s'
    rw [hrun, hrun']
    exact ⟨rfl, hs⟩

/-- **A name without circles stands for the type of plain recursion**, whatever is
    kept, and looking it up keeps nothing else. -/
theorem named_of_acyclic (hlead : Leading nodes resolving context name)
    (ha : isBuiltin context name = false → Acyclic nodes (localName name))
    (hs : Sound nodes s.known) :
    plainNamed nodes context name = some ((named nodes resolving context name).run s).1 ∧
      Akin nodes s.known ((named nodes resolving context name).run s).2.known := by
  -- on the declared names that are not being resolved
  induction hm : remaining nodes.keys resolving using Nat.strongRecOn
    generalizing resolving context name with
  | ind m ih =>
    subst hm
    cases hb : isBuiltin context name with
    | true =>
      obtain ⟨found, hplain, hrun⟩ := run_named_builtin nodes resolving hb
      obtain ⟨notices, hrun⟩ := hrun s
      rw [hrun]
      exact ⟨hplain, .refl hs⟩
    | false =>
      have hacyclic := ha hb
      rw [plainNamed, if_neg (by simp [hb]), run_named hb]
      cases hk : s.known.get? (localName name) with
      | some type =>
        obtain ⟨node, hn, hplain⟩ := hs _ type hk hacyclic
        simp only [hn, hplain]
        exact ⟨rfl, .refl hs⟩
      | none =>
        cases hn : nodes.get? (localName name) with
        | none => exact ⟨rfl, .refl hs⟩
        | some node =>
          have hr : localName name ∉ resolving := fun hr => hacyclic _ .refl (hlead hb _ hr)
          obtain ⟨htype, hkeeps⟩ := simpleTypeWith_plain hs fun other used huses =>
            ih _ (remaining_cons_lt (Table.mem_keys_of_get? hn) hr) (.cons (hlead hb) hn huses)
              (fun hb => hacyclic.step (derivedFrom_of_uses hn huses hb)) rfl
          simp only [if_neg hr, htype]
          refine ⟨rfl, hkeeps.trans ⟨hkeeps.sound', ?_, fun key hkey => ?_⟩⟩
          · exact hkeeps.sound'.insert fun _ => ⟨node, hn, htype⟩
          · refine Table.get?_insert_of_ne _ _ ?_
            rintro rfl
            exact hkey hacyclic

/-- **What is kept of names without circles changes no lookup.** -/
theorem named_akin (hlead : Leading nodes resolving context name)
    (h : Akin nodes s.known s'.known) : SameFrom nodes s s' (named nodes resolving context name) := by
  induction hm : remaining nodes.keys resolving using Nat.strongRecOn
    generalizing resolving context name with
  | ind m ih =>
    subst hm
    by_cases ha : isBuiltin context name = false → Acyclic nodes (localName name)
    · obtain ⟨hplain, hkeeps⟩ := named_of_acyclic hlead ha h.sound
      obtain ⟨hplain', hkeeps'⟩ := named_of_acyclic hlead ha h.sound'
      exact ⟨Option.some.inj (hplain'.symm.trans hplain), hkeeps.symm.trans (h.trans hkeeps')⟩
    · -- a name with a circle is looked up in both tables alike
      obtain ⟨hb, hcyclic⟩ := Classical.not_imp.1 ha
      rw [SameFrom, run_named hb, run_named hb, h.same _ hcyclic]
      cases hk : s.known.get? (localName name) with
      | some type => exact ⟨rfl, h⟩
      | none =>
        cases hn : nodes.get? (localName name) with
        | none => exact ⟨rfl, h⟩
        | some node =>
          dsimp only
          by_cases hr : localName name ∈ resolving
          · rw [if_pos hr, if_pos hr]
            exact ⟨rfl, h⟩
          · rw [if_neg hr, if_neg hr]
            obtain ⟨htype, hkeeps⟩ := simpleTypeWith_akin h fun other used huses =>
              ih _ (remaining_cons_lt (Table.mem_keys_of_get? hn) hr) (.cons (hlead hb) hn huses)
                rfl
            rw [htype]
            refine ⟨rfl, hkeeps.sound.insert fun hc => absurd hc hcyclic,
              hkeeps.sound'.insert fun hc => absurd hc hcyclic, fun key hkey => ?_⟩
            by_cases heq : key = localName name
            · rw [heq, Table.get?_insert_self, Table.get?_insert_self]
            · rw [Table.get?_insert_of_ne _ _ heq, Table.get?_insert_of_ne _ _ heq]
              exact hkeeps.same key hkey

end

/-! ## Reading schemas -/

/-- The states that lookups lead to, one after the other and in any order: of names,
    also within the lookup of another one, and of types declared where they are
    used. -/
inductive Arises (nodes : Table Node) : SimpleTypes → Prop
  | start : Arises nodes {}
  | named {s : SimpleTypes} {resolving : List String} {context : Node} {name : String} :
      Arises nodes s → Leading nodes resolving context name →
      Arises nodes ((named nodes resolving context name).run s).2
  | declared {s : SimpleTypes} (node : Node) : Arises nodes s →
      Arises nodes ((simpleTypeWith (Schema.named nodes []) node).run s).2

theorem declared_akin {nodes : Table Node} {s s' : SimpleTypes}
    (h : Akin nodes s.known s'.known) (node : Node) :
    SameFrom nodes s s' (simpleTypeWith (named nodes []) node) :=
  simpleTypeWith_akin h fun _ _ _ => named_akin .nil h

theorem Arises.sound {nodes : Table Node} {s : SimpleTypes} (h : Arises nodes s) :
    Sound nodes s.known := by
  induction h with
  | start => exact fun _ _ hk => by cases hk
  | named _ hlead ih => exact (named_akin hlead (.refl ih)).2.sound
  | declared node _ ih => exact (declared_akin (.refl ih) node).2.sound

theorem named_isSome {nodes : Table Node} (resolving : List String) {context : Node} {name : String}
    (hb : isBuiltin context name = false) (hn : nodes.contains (localName name) = true)
    (s : SimpleTypes) : ((named nodes resolving context name).run s).1.isSome = true := by
  obtain ⟨node, hnode⟩ := Option.isSome_iff_exists.1 hn
  rw [run_named hb, hnode]
  cases s.known.get? (localName name) with
  | some type => rfl
  | none =>
    dsimp only
    split <;> rfl

namespace Xsd

/-- Whether the tables of declarations are these, and what is known differs at most
    in names without circles. -/
def Fills (nodes nodes' : Table Node) (s s' : Simple) : Prop :=
  s.nodes = nodes ∧ s'.nodes = nodes' ∧ Akin nodes s.known s'.known

theorem resolves_of_akin {nodes nodes' : Table Node} (h : Agreeing (fun _ => True) nodes nodes') :
    Resolves (fun _ => True) (Fills nodes nodes') where
  simpleNamed {n} hn {label name} ha hname := by
    refine .resolving ?_
    rintro ⟨_, known⟩ ⟨_, known'⟩ ⟨rfl, rfl, hakin⟩
    rw [(named_unplaced h []).own hn ha hname]
    exact ⟨(named_akin .nil hakin).1, rfl, rfl, (named_akin .nil hakin).2⟩
  simpleType {n} hn := by
    refine .resolving ?_
    rintro ⟨_, known⟩ ⟨_, known'⟩ ⟨rfl, rfl, hakin⟩
    rw [simpleTypeWith_unplaced (named_unplaced h []) n hn]
    exact ⟨(declared_akin hakin n).1, rfl, rfl, (declared_akin hakin n).2⟩

theorem readGlobals_akin {nodes : Table Node} {known known' : Table SimpleType}
    (h : Akin nodes known known') (start : ElementPattern) (ns : List Node) :
    ((readGlobals start ns).run' { nodes, known }).grammar? =
      ((readGlobals start ns).run' { nodes, known := known' }).grammar? := by
  obtain ⟨nodes', hplain⟩ := exists_unplaced nodes
  have hagree : Agreeing (fun _ => True) nodes nodes' :=
    { get := fun key _ => hplain key, closed := fun _ _ _ _ _ _ => trivial }
  -- both are in step with reading without places
  have hstep : ∀ {known known' : Table SimpleType}, Akin nodes known known' →
      ((readGlobals start ns).run' { nodes, known }).grammar? =
        ((readGlobals start (ns.map Node.unplaced)).run'
          { nodes := nodes', known := known' }).grammar? := by
    intro known known' hakin
    refine ReadM.InStep.grammar?_eq_of_same (.bind (inStep_readGlobals (resolves_of_akin hagree) ns
      start (fun _ _ => trivial) _ _ ⟨rfl, rfl, hakin⟩) fun a b hab => .pure hab.1.symm)
  exact (hstep h).trans (hstep (.refl h.sound')).symm

theorem read_eq {schema : Node} {nodes : Table Node} (h : noted {} schema.children = some nodes) :
    read schema = (readGlobals {} schema.children).run' { nodes } := by
  rcases run_noteSimpleTypes {} schema.children {} with ⟨found, hfound, hrun⟩ | ⟨hnone, -⟩
  · obtain rfl : nodes = found := Option.some.inj (h.symm.trans hfound)
    have hread : (readSchemas {} [schema]).run {} =
        (readGlobals {} schema.children >>= pure).run { nodes } := by
      rw [readSchemas, readSchema, bind_assoc, StateT.run_bind, hrun, pure_bind]
      rfl
    rw [bind_pure] at hread
    exact congrArg (fun x => (·.1) <$> x) hread
  · rw [h] at hnone
    cases hnone

end Xsd

/-- **Simple types that are kept are those of plain recursion.**  Take any schema,
    with simple types that are derived from themselves or without.  Whatever was
    looked up before, and also within the lookup of another type, looking up a name
    that is declared gives a type, and for a name without circles plain recursion
    ends with the type that it gives.  So the schema is read to the same grammar if
    the types of such names are known from the start, by plain recursion. -/
theorem kept_types_plain {schema : Node} {nodes : Table Node}
    (hnoted : Xsd.noted {} schema.children = some nodes) :
    (∀ s, Arises nodes s → ∀ resolving context name, Leading nodes resolving context name →
      (isBuiltin context name = false → nodes.contains (localName name) = true →
        ((named nodes resolving context name).run s).1.isSome = true) ∧
      ((isBuiltin context name = false → Acyclic nodes (localName name)) →
        plainNamed nodes context name =
          some ((named nodes resolving context name).run s).1)) ∧
    ∀ known : Table SimpleType, (∀ key type, known.get? key = some type → Acyclic nodes key ∧
        ∃ node, nodes.get? key = some node ∧ plainType nodes node = some type) →
      (readGrammar (some .xsd) schema).1.toOption =
        ((Xsd.readGlobals {} schema.children).run' { nodes, known }).grammar? := by
  refine ⟨fun s hs resolving context name hlead => ⟨fun hb hn => named_isSome resolving hb hn s,
    fun ha => (named_of_acyclic hlead ha hs.sound).1⟩, fun known hknown => ?_⟩
  have hakin : Akin nodes {} known :=
    { sound := Arises.start.sound
      sound' := fun key type hk _ => (hknown key type hk).2
      same := fun key hkey => Option.eq_none_iff_forall_ne_some.2
        fun type hk => hkey (hknown key type hk).1 }
  rw [readGrammar_toOption, ← Xsd.readGlobals_akin hakin]
  exact congrArg ReadM.grammar? (Xsd.read_eq hnoted)

theorem Uses.eq_of_own {n d context : Node} {name used : String} (label : String)
    (hd : derivation? n = some d)
    (hlabel : (d.name, label) ∈ [("restriction", "base"), ("list", "itemType")])
    (hname : d.attribute? label = some name) (h : Uses n context used) :
    context = d ∧ used = name := by
  have hsame : ∀ {label' : String},
      (d.name, label') ∈ [("restriction", "base"), ("list", "itemType")] → label' = label := by
    intro label' hlabel'
    simp only [List.mem_cons, Prod.mk.injEq, List.not_mem_nil, or_false] at hlabel hlabel'
    rcases hlabel with ⟨h₁, rfl⟩ | ⟨h₁, rfl⟩ <;> rcases hlabel' with ⟨h₂, rfl⟩ | ⟨h₂, rfl⟩
    · rfl
    · exact absurd (h₁.symm.trans h₂) (by decide)
    · exact absurd (h₁.symm.trans h₂) (by decide)
    · rfl
  cases h with
  | own hd' hlabel' hname' =>
    obtain rfl := Option.some.inj (hd'.symm.trans hd)
    obtain rfl := hsame hlabel'
    exact ⟨rfl, Option.some.inj (hname'.symm.trans hname)⟩
  | inner hd' hlabel' hnone =>
    obtain rfl := Option.some.inj (hd'.symm.trans hd)
    obtain rfl := hsame hlabel'
    rw [hname] at hnone
    cases hnone

def codesNode : Node :=
  xsNode "simpleType" [("name", "Codes")] [xsNode "list" [("itemType", "Code")] []]

def knotNode : Node :=
  xsNode "simpleType" [("name", "Knot")] [xsNode "restriction" [("base", "Knot")] []]

def tagSchema : Node :=
  xsNode "schema" [] [codeNode, codesNode, knotNode,
    xsNode "element" [("name", "tag"), ("type", "Codes")] [],
    xsNode "element" [("name", "string"), ("type", "Knot")] []]

def tagTypes : Table Node :=
  ⟨[("Code", codeNode), ("Codes", codesNode), ("Knot", knotNode)]⟩

theorem Acyclic.of_step {nodes : Table Node} {a : String}
    (h : ∀ b, DerivedFrom nodes a b → Acyclic nodes b) : Acyclic nodes a := by
  intro c hac hcc
  rcases hac.cases_head with rfl | ⟨b, hab, hbc⟩
  · obtain ⟨b, hab, hba⟩ := Relation.TransGen.head'_iff.1 hcc
    exact h b hab _ hba hcc
  · exact h b hab c hbc hcc

theorem tagTypes_acyclic : Acyclic tagTypes "Codes" := by
  have hcode : Acyclic tagTypes "Code" := by
    refine .of_step ?_
    rintro b ⟨node, context, name, hnode, huses, hb, rfl⟩
    obtain rfl : codeNode = node := Option.some.inj hnode
    obtain ⟨rfl, rfl⟩ := huses.eq_of_own "base" rfl (by decide) rfl
    exact absurd hb (by decide)
  refine .of_step ?_
  rintro b ⟨node, context, name, hnode, huses, hb, rfl⟩
  obtain rfl : codesNode = node := Option.some.inj hnode
  obtain ⟨rfl, rfl⟩ := huses.eq_of_own "itemType" rfl (by decide) rfl
  exact hcode

/-- Several codes are a string with the letters of a code, now combinable, after a
    knot was looked up, and they may be known from the start. -/
theorem tag_types_plain :
    Xsd.noted {} tagSchema.children = some tagTypes ∧ DerivedFrom tagTypes "Knot" "Knot" ∧
    (let s := ((named tagTypes [] knotNode "Knot").run {}).2
     Arises tagTypes s ∧ s.known.get? "Knot" = some {} ∧
      ((named tagTypes [] codesNode "Codes").run s).1 =
        some { facet := some { values := ["A", "B"], combinable := true } } ∧
      plainNamed tagTypes codesNode "Codes" =
        some ((named tagTypes [] codesNode "Codes").run s).1) ∧
    (readGrammar (some .xsd) tagSchema).1.toOption =
      ((Xsd.readGlobals {} tagSchema.children).run'
        { nodes := tagTypes
          known := ⟨[("Codes", {
            facet := some { values := ["A", "B"], combinable := true } })]⟩ }).grammar? := by
  have hnoted : Xsd.noted {} tagSchema.children = some tagTypes := rfl
  obtain ⟨hlookups, hgrammar⟩ := kept_types_plain hnoted
  have hs : Arises tagTypes ((named tagTypes [] knotNode "Knot").run {}).2 :=
    Arises.start.named .nil
  have hlocal : localName "Codes" = "Codes" := by decide
  have hplain := (hlookups _ hs [] codesNode "Codes" .nil).2 fun _ => by
    rw [hlocal]
    exact tagTypes_acyclic
  have hcodes : ((named tagTypes [] codesNode "Codes").run
      ((named tagTypes [] knotNode "Knot").run {}).2).1 =
        some { facet := some { values := ["A", "B"], combinable := true } } := by
    decide +kernel
  refine ⟨hnoted, ?_, ⟨hs, by decide +kernel, hcodes, hplain⟩, hgrammar _ fun key type hk => ?_⟩
  · exact ⟨knotNode, xsNode "restriction" [("base", "Knot")] [], "Knot", rfl,
      .own rfl List.mem_cons_self rfl, by decide, by decide⟩
  · rw [hcodes, plainNamed, if_neg (by decide), hlocal] at hplain
    obtain ⟨made, hmade, heq⟩ := Option.bind_eq_some_iff.1 hplain
    cases heq
    obtain ⟨rfl, rfl⟩ := Prod.mk.inj (List.mem_singleton.1 (Table.mem_entries_of_get? hk))
    exact ⟨tagTypes_acyclic, codesNode, rfl, hmade⟩

end Bindery.Schema
