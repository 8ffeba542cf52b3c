/-
  The nodes that patterns are read from.

  Every element, attribute and reference that is read comes from a node of the
  grammar, and stands under the modifiers on the path of that node.

  * `items`, `content`: the nodes that the patterns within an element or a
    definition are read from;
  * `Traced`: patterns that come from nodes, with the modifiers on their paths;
  * `Meets`: a reader that counts choices, each at an address of its own;
  * `meets_readPattern`, `meets_readPart`: what the readers give is traced to
    the nodes they read;
  * `cardinality_traced`: so is a grammar that is read.
-/
import Bindery.Proofs.Document.Licensed
import Bindery.Proofs.Occurrence.Reading
import Bindery.Proofs.Path.Address

namespace Bindery.Schema.RelaxNg

open Markup (Node Head)

/-! ## The nodes of patterns -/

/-- Whether the construct is read as a pattern of its own. -/
def Construct.isItem : Construct → Bool
  | element | attr | ref => true
  | _ => false

/-- Whether the construct stands for the patterns in it. -/
def Construct.isTransparent : Construct → Bool
  | optional | zeroOrMore | oneOrMore | choice | group | interleave | mixed | list => true
  | _ => false

mutual

/-- The elements, attributes and references of a pattern at `a`, in order. -/
def items (a : Address) : Node → List Address
  | .element head children =>
    if (Construct.ofHead head).isItem then [a]
    else if (Construct.ofHead head).isTransparent then itemsFrom a 0 children
    else []
  | _ => []

/-- The elements, attributes and references among the children of `a` from
    number `i` on. -/
def itemsFrom (a : Address) (i : Nat) : List Node → List Address
  | [] => []
  | n :: ns => items (i :: a) n ++ itemsFrom a (i + 1) ns

end

/-- The elements, attributes and references in the content of the node at `a`. -/
def content (root : Node) (a : Address) : List Address :=
  (nodeAt root a).elim [] fun n => itemsFrom a 0 n.children

theorem content_eq {root : Node} {a : Address} {head : Head} {children : List Node}
    (h : nodeAt root a = some (.element head children)) :
    content root a = itemsFrom a 0 children := by
  rw [content, h]
  rfl

/-- Whether these are the children of the node at `a` from number `i` on. -/
def ChildrenFrom (root : Node) (a : Address) (i : Nat) (ns : List Node) : Prop :=
  ∀ k, nodeAt root ((i + k) :: a) = ns[k]?

theorem childrenFrom_zero {root : Node} {a : Address} {head : Head} {children : List Node}
    (h : nodeAt root a = some (.element head children)) : ChildrenFrom root a 0 children := by
  intro k
  rw [Nat.zero_add, nodeAt_child h]
  rfl

theorem ChildrenFrom.tail {root : Node} {a : Address} {i : Nat} {n : Node} {ns : List Node}
    (h : ChildrenFrom root a i (n :: ns)) : ChildrenFrom root a (i + 1) ns := by
  intro k
  rw [Nat.add_assoc, Nat.add_comm 1 k]
  exact h (k + 1)

mutual

/-- The starts and definitions of a part of a grammar at `a`, in order. -/
def parts (a : Address) : Node → List Address
  | .element head children =>
    match Construct.ofHead head with
    | .start | .define => [a]
    | .div => partsFrom a 0 children
    | _ => []
  | _ => []

def partsFrom (a : Address) (i : Nat) : List Node → List Address
  | [] => []
  | n :: ns => parts (i :: a) n ++ partsFrom a (i + 1) ns

end

/-- Whether the element or attribute at `a` has the name. -/
def Named (root : Node) (a : Address) (name : String) : Prop :=
  ∃ n, nodeAt root a = some n ∧ patternName n = .ok name

/-- Whether the attribute `name` of the node at `a` has the value. -/
def hasKey (root : Node) (value : String) (a : Address) : Bool :=
  (nodeAt root a).any (·.attribute? "name" == some value)

theorem hasKey_iff {root : Node} {a : Address} {n : Node} {name : String}
    (hnode : nodeAt root a = some n) (hname : requiredAttribute n "name" = .ok name)
    (key : String) : hasKey root key a = true ↔ key = name := by
  rw [requiredAttribute] at hname
  split at hname
  · rename_i hvalue
    cases hname
    rw [hasKey, hnode, Option.any_some, hvalue, beq_iff_eq, Option.some_inj]
    exact eq_comm
  · cases hname

/-- The starts and definitions of a grammar, in order. -/
def grammarParts (root : Node) : List Address :=
  if isA .grammar root then partsFrom [] 0 root.children else []

/-- Whether a definition of the name stands at the address. -/
def defines (root : Node) (name : String) (a : Address) : Bool :=
  stands root .define a && hasKey root name a

/-- The elements, attributes and references of the starts of a grammar, or its
    root if that is an element. -/
def startItems (root : Node) : List Address :=
  if isA .element root then [[]]
  else ((grammarParts root).filter (stands root .start)).flatMap (content root)

/-- **Whether an element pattern holds what the nodes at these addresses
    declare**, in order: the elements, with their content, the attributes and the
    references, all with the modifiers on their paths. -/
inductive Traced (root : Node) (number : Address → Nat) : List Address → ElementPattern → Prop
  | intro {found : List Address} {e : ElementPattern} :
      List.Forall₂ (fun a c => Named root a c.name ∧ c.pattern = under root number a)
        (found.filter (stands root .element)) e.elements →
      List.Forall₂ (fun a c => Traced root number (content root a) c)
        (found.filter (stands root .element)) e.elements →
      List.Forall₂ (fun a x => Named root a x.name ∧
        x.pattern = (under root number a).forAttribute)
        (found.filter (stands root .attr)) e.attributes →
      List.Forall₂ (fun a r => hasKey root r.name a = true ∧ r.pattern = under root number a)
        (found.filter (stands root .ref)) e.references →
      Traced root number found e

/-- Whether two element patterns differ in their text at most. -/
structure Alike (e e' : ElementPattern) : Prop where
  name : e'.name = e.name
  pattern : e'.pattern = e.pattern
  elements : e'.elements = e.elements
  attributes : e'.attributes = e.attributes
  references : e'.references = e.references

namespace Traced

variable {root : Node} {number : Address → Nat} {found : List Address} {e e' : ElementPattern}
  {a : Address} {head : Head} {children : List Node}

theorem nil (he : e.elements = []) (ha : e.attributes = []) (hr : e.references = []) :
    Traced root number [] e := by
  refine .intro ?_ ?_ ?_ ?_ <;> simp [he, ha, hr]

theorem of_alike (h : Traced root number found e) (ha : Alike e e') :
    Traced root number found e' := by
  cases h with
  | intro h₁ h₂ h₃ h₄ =>
    exact .intro (ha.elements ▸ h₁) (ha.elements ▸ h₂) (ha.attributes ▸ h₃) (ha.references ▸ h₄)

theorem filter_append (found : List Address) (h : nodeAt root a = some (.element head children))
    (c : Construct) : (found ++ [a]).filter (stands root c) =
      found.filter (stands root c) ++ if Construct.ofHead head = c then [a] else [] := by
  rw [List.filter_append, List.filter_singleton, stands_eq h]
  simp

theorem addElement (h : Traced root number found e)
    (hnode : nodeAt root a = some (.element head children))
    (hc : Construct.ofHead head = .element) {c : ElementPattern} (hname : Named root a c.name)
    (hpattern : c.pattern = under root number a) (htraced : Traced root number (content root a) c) :
    Traced root number (found ++ [a]) { e with elements := e.elements ++ [c] } := by
  have hfilter := filter_append found hnode
  cases h with
  | intro h₁ h₂ h₃ h₄ =>
    refine .intro ?_ ?_ ?_ ?_ <;> rw [hfilter, hc]
    · exact List.rel_append h₁ (.cons ⟨hname, hpattern⟩ .nil)
    · exact List.rel_append h₂ (.cons htraced .nil)
    · simpa using h₃
    · simpa using h₄

theorem addAttribute (h : Traced root number found e)
    (hnode : nodeAt root a = some (.element head children))
    (hc : Construct.ofHead head = .attr) {x : AttributePattern} (hname : Named root a x.name)
    (hpattern : x.pattern = (under root number a).forAttribute) :
    Traced root number (found ++ [a]) { e with attributes := e.attributes ++ [x] } := by
  have hfilter := filter_append found hnode
  cases h with
  | intro h₁ h₂ h₃ h₄ =>
    refine .intro ?_ ?_ ?_ ?_ <;> rw [hfilter, hc]
    · simpa using h₁
    · simpa using h₂
    · exact List.rel_append h₃ (.cons ⟨hname, hpattern⟩ .nil)
    · simpa using h₄

theorem addReference (h : Traced root number found e)
    (hnode : nodeAt root a = some (.element head children))
    (hc : Construct.ofHead head = .ref) {r : Reference} (hname : hasKey root r.name a = true)
    (hpattern : r.pattern = under root number a) :
    Traced root number (found ++ [a]) { e with references := e.references ++ [r] } := by
  have hfilter := filter_append found hnode
  cases h with
  | intro h₁ h₂ h₃ h₄ =>
    refine .intro ?_ ?_ ?_ ?_ <;> rw [hfilter, hc]
    · simpa using h₁
    · simpa using h₂
    · simpa using h₃
    · exact List.rel_append h₄ (.cons ⟨hname, hpattern⟩ .nil)

end Traced

/-! ## Counting choices -/

/-- Whether the numbers of the addresses follow `k`, one after the other. -/
def Follow (number : Address → Nat) (k : Nat) (as : List Address) : Prop :=
  as.map number = List.range' (k + 1) as.length

theorem follow_append {number : Address → Nat} {k : Nat} {as bs : List Address} :
    Follow number k (as ++ bs) ↔ Follow number k as ∧ Follow number (k + as.length) bs := by
  have hrange : List.range' (k + 1) (as ++ bs).length =
      List.range' (k + 1) as.length ++ List.range' (k + as.length + 1) bs.length := by
    rw [List.length_append, ← List.range'_append_1, Nat.add_right_comm]
  rw [Follow, List.map_append, hrange]
  exact ⟨fun h => List.append_inj h (by simp), fun h => by rw [h.1, h.2]⟩

theorem exists_follow {as : List Address} (h : as.Nodup) :
    ∃ number : Address → Nat, Function.Injective number ∧ Follow number 0 as := by
  refine ⟨fun a => if a ∈ as then as.idxOf a + 1 else as.length + 1 + Encodable.encode a, ?_, ?_⟩
  · intro a b hab
    have hlt : ∀ {c}, c ∈ as → as.idxOf c < as.length := List.idxOf_lt_length_of_mem
    by_cases ha : a ∈ as <;> by_cases hb : b ∈ as <;> simp only [ha, hb, if_true, if_false] at hab
    · exact (List.idxOf_inj ha).1 (by omega)
    · have := hlt ha
      omega
    · have := hlt hb
      omega
    · exact Encodable.encode_injective (by omega)
  · refine List.ext_getElem (by simp) fun i hi _ => ?_
    rw [List.length_map] at hi
    rw [List.getElem_map, if_pos (List.getElem_mem hi), h.idxOf_getElem, List.getElem_range']
    omega

/-- A reader that counts choices, each at an address of its own that has `S`.
    With the numbers of these choices, `Q` says what is read and what becomes of
    the definitions. -/
def Meets {α : Type} (x : ReadM α) (S : Address → Prop)
    (Q : (Address → Nat) → Definitions → α → Definitions → Prop) : Prop :=
  ∀ r v r', x.run r = (.ok v, r') → ∃ met : List Address, met.Nodup ∧ (∀ a ∈ met, S a) ∧
    r'.choices = r.choices + met.length ∧
    ∀ number, Follow number r.choices met → Q number r.definitions v r'.definitions

namespace Meets

variable {α β : Type} {x : ReadM α} {f : α → ReadM β} {S T U : Address → Prop}
  {P : (Address → Nat) → Definitions → α → Definitions → Prop}
  {Q : (Address → Nat) → Definitions → β → Definitions → Prop}

theorem bind (hx : Meets x S P)
    (hf : ∀ v, Meets (f v) T fun number ds₁ w ds' => ∀ ds, P number ds v ds₁ → Q number ds w ds')
    (hapart : ∀ a, S a → ¬ T a) (hS : ∀ a, S a → U a) (hT : ∀ a, T a → U a) :
    Meets (x >>= f) U Q := by
  intro r w r' hrun
  obtain ⟨v, r₁, hv, hw⟩ := ReadM.exists_of_run_bind hrun
  obtain ⟨met, hnodup, hmet, hcount, hP⟩ := hx r v r₁ hv
  obtain ⟨met', hnodup', hmet', hcount', hQ⟩ := hf v r₁ w r' hw
  refine ⟨met ++ met', List.nodup_append.2 ⟨hnodup, hnodup', ?_⟩, ?_, ?_, ?_⟩
  · rintro a ha _ ha' rfl
    exact hapart a (hmet a ha) (hmet' a ha')
  · intro a ha
    rcases List.mem_append.1 ha with ha | ha
    · exact hS a (hmet a ha)
    · exact hT a (hmet' a ha)
  · rw [hcount', hcount, List.length_append, Nat.add_assoc]
  · intro number hnumber
    obtain ⟨hfirst, hrest⟩ := follow_append.1 hnumber
    exact hQ number (hcount ▸ hrest) _ (hP number hfirst)

theorem mono (hf : Meets x S P) (hS : ∀ a, S a → U a) {P' : _ → _ → α → _ → Prop}
    (hP : ∀ number ds v ds', P number ds v ds' → P' number ds v ds') : Meets x U P' := by
  intro r v r' hrun
  obtain ⟨met, hnodup, hmet, hcount, hv⟩ := hf r v r' hrun
  exact ⟨met, hnodup, fun a ha => hS a (hmet a ha), hcount,
    fun number hnumber => hP _ _ _ _ (hv number hnumber)⟩

theorem before (hx : Meets x S P) (hf : ∀ v, Meets (f v) (fun _ => False)
      fun number ds₁ w ds' => ∀ ds, P number ds v ds₁ → Q number ds w ds')
    (hS : ∀ a, S a → U a) : Meets (x >>= f) U Q :=
  hx.bind hf (fun _ _ h => h) hS fun _ h => h.elim

theorem after (hx : Meets x (fun _ => False) P)
    (hf : ∀ v, Meets (f v) T fun number ds₁ w ds' => ∀ ds, P number ds v ds₁ → Q number ds w ds') :
    Meets (x >>= f) T Q :=
  hx.bind hf (fun _ h => h.elim) (fun _ h => h.elim) fun _ h => h

theorem pure {v : α} (h : ∀ number ds, P number ds v ds) : Meets (Pure.pure v) S P := by
  intro r w r' hrun
  cases hrun
  exact ⟨[], .nil, fun _ h => absurd h List.not_mem_nil, rfl, fun number _ => h number _⟩

end Meets

/-- Whether the definitions stay as they are. -/
abbrev Unchanged {α : Type} (Q : α → Prop) :
    (Address → Nat) → Definitions → α → Definitions → Prop :=
  fun _ ds v ds' => ds' = ds ∧ Q v

theorem meets_tell (n : Notice) : Meets (ReadM.tell n) (fun _ => False) (Unchanged fun _ => True) := by
  intro r v r' hrun
  cases hrun
  exact ⟨[], .nil, fun _ h => absurd h List.not_mem_nil, rfl, fun _ _ => ⟨rfl, trivial⟩⟩

theorem meets_throw {α : Type} (e : SchemaError) {S : Address → Prop}
    {Q : (Address → Nat) → Definitions → α → Definitions → Prop} : Meets (throw e) S Q := by
  intro r v r' hrun
  cases hrun

theorem meets_ofExcept {α : Type} (x : Except SchemaError α) :
    Meets (ReadM.ofExcept x) (fun _ => False) (Unchanged fun v => x = .ok v) := by
  cases x with
  | ok v => exact .pure fun _ _ => ⟨rfl, rfl⟩
  | error e => exact meets_throw e

theorem meets_dataType (name : String) :
    Meets (ReadM.dataType name) (fun _ => False) (Unchanged fun _ => True) := by
  rw [ReadM.dataType]
  split
  · exact .pure fun _ _ => ⟨rfl, trivial⟩
  · exact .after (meets_tell _) fun _ => .pure fun _ _ _ h => ⟨h.1, trivial⟩

theorem meets_nextChoice (a : Address) :
    Meets ReadM.nextChoice (· = a) fun number ds k ds' => ds' = ds ∧ k = number a := by
  intro r v r' hrun
  cases hrun
  refine ⟨[a], List.nodup_singleton a, fun _ h => List.mem_singleton.1 h, rfl, ?_⟩
  intro number hnumber
  exact ⟨rfl, (List.cons.inj hnumber).1.symm⟩

theorem meets_foldAttribute (name : String) (pattern : Pattern) (e : ElementPattern) :
    Meets (foldAttribute name pattern e) (fun _ => False)
      (Unchanged fun x => x.name = name ∧ x.pattern = pattern.forAttribute) := by
  rw [foldAttribute]
  split
  · refine .after (meets_tell _) fun _ => ?_
    split
    · exact .after (meets_tell _) fun _ => .pure fun _ _ _ h _ h' => ⟨h.1.trans h'.1, rfl, rfl⟩
    · exact .pure fun _ _ _ h => ⟨h.1, rfl, rfl⟩
  · split
    · exact .after (meets_tell _) fun _ => .pure fun _ _ _ h => ⟨h.1, rfl, rfl⟩
    · exact .pure fun _ _ => ⟨rfl, rfl, rfl⟩

/-! ## Reading patterns -/

/-- Whether reading nodes that stand under `p`, according to `h`, has added what
    the nodes at the addresses declare. -/
structure Grown (root : Node) (number : Address → Nat) (h : Prop) (added : List Address)
    (target out : ElementPattern) : Prop where
  name : out.name = target.name
  pattern : out.pattern = target.pattern
  traced : h → ∀ found, Traced root number found target → Traced root number (found ++ added) out

section
variable {root : Node} {number : Address → Nat} {h h' : Prop} {added added' : List Address}
  {target middle out : ElementPattern}

theorem Grown.refl (ha : Alike target out) : Grown root number h [] target out where
  name := ha.name
  pattern := ha.pattern
  traced _ found ht := by
    rw [List.append_nil]
    exact ht.of_alike ha

theorem Grown.trans (hg : Grown root number h added target middle)
    (hg' : Grown root number h added' middle out) :
    Grown root number h (added ++ added') target out where
  name := hg'.name.trans hg.name
  pattern := hg'.pattern.trans hg.pattern
  traced hh found ht := by
    rw [← List.append_assoc]
    exact hg'.traced hh _ (hg.traced hh found ht)

theorem Grown.of_alike (hg : Grown root number h added middle out) (ha : Alike target middle) :
    Grown root number h added target out := Grown.trans (.refl ha) hg

theorem Grown.to_alike (hg : Grown root number h added target middle) (ha : Alike middle out) :
    Grown root number h added target out := by
  rw [← List.append_nil added]
  exact hg.trans (.refl ha)

theorem Grown.content {a : Address} {head : Head} {children : List Node} {name : String}
    {p : Pattern} (hg : Grown root number (∀ j, {} = under root number (j :: a))
      (itemsFrom a 0 children) { name, pattern := p } out)
    (hnode : nodeAt root a = some (.element head children))
    (hanew : ∀ group q, (Construct.ofHead head).passOn group q = {}) :
    Traced root number (RelaxNg.content root a) out := by
  have h := hg.traced (fun j => by rw [under_child number hnode, hanew]) [] (.nil rfl rfl rfl)
  rwa [List.nil_append, ← content_eq hnode] at h

theorem Grown.imp (hg : Grown root number h added target out) (himp : h' → h) :
    Grown root number h' added target out :=
  { hg with traced := fun hh => hg.traced (himp hh) }

end

def Below (a b : Address) : Prop := a <:+ b

/-- Whether the address is at or below a child of `a` from number `i` on. -/
def BelowFrom (a : Address) (i : Nat) (b : Address) : Prop := ∃ j, i ≤ j ∧ Below (j :: a) b

theorem Below.apart {a b : Address} {i : Nat} (h : Below (i :: a) b) : ¬ BelowFrom a (i + 1) b := by
  rintro ⟨j, hij, hj⟩
  have hsame : i :: a = j :: a :=
    (List.suffix_of_suffix_length_le h hj (Nat.le_refl _)).eq_of_length rfl
  have := (List.cons.inj hsame).1
  omega

theorem BelowFrom.below {a b : Address} {i : Nat} (h : BelowFrom a i b) : Below a b := by
  obtain ⟨j, -, hj⟩ := h
  exact (List.suffix_cons j a).trans hj

theorem BelowFrom.ne {a b : Address} {i : Nat} (h : BelowFrom a i b) : b ≠ a := by
  rintro rfl
  obtain ⟨j, -, hj⟩ := h
  have := hj.length_le
  simp at this

mutual

/-- **A pattern is read to what its nodes declare.** -/
theorem meets_readPattern (root : Node) (p : Pattern) (target : ElementPattern) (a : Address) :
    ∀ n : Node, nodeAt root a = some n → Meets (readPattern p target n) (Below a)
      fun number ds out ds' => ds' = ds ∧
        Grown root number (p = under root number a) (items a n) target out
  | .element head children, hnode => by
    have hinner := fun number => under_child number hnode
    have hread := fun q t => meets_readPatterns root q t a 0 children (childrenFrom_zero hnode)
    -- a construct that stands for the patterns in it, which stand under `q`
    have hpass : (Construct.ofHead head).isItem = false →
        (Construct.ofHead head).isTransparent = true → ∀ q,
        (∀ number, p = under root number a → ∀ j, q = under root number (j :: a)) →
        Meets (readPatterns q target children) (Below a) fun number ds out ds' => ds' = ds ∧
          Grown root number (p = under root number a) (items a (.element head children))
            target out := by
      intro hitem htransparent q hq
      rw [items, hitem, htransparent, if_neg Bool.false_ne_true, if_pos rfl]
      exact (hread q target).mono (fun _ h => h.below) fun number _ _ _ h =>
        ⟨h.1, h.2.imp (hq number)⟩
    rw [readPattern]
    split
    case h_1 hc =>
      refine .after (meets_ofExcept _) fun name => ?_
      refine (hread {} { name, pattern := p }).before (fun c => .pure ?_) fun _ h => h.below
      rintro number ds' ds₁ ⟨hds', hgrown⟩ ds ⟨hds, hname⟩
      refine ⟨hds'.trans hds, rfl, rfl, fun hp found ht => ?_⟩
      rw [items, hc]
      exact ht.addElement hnode hc ⟨_, hnode, hgrown.name ▸ hname⟩ (hgrown.pattern.trans hp)
        (hgrown.content hnode (by rw [hc]; intros; rfl))
    case h_2 hc =>
      refine .after (meets_ofExcept _) fun name => ?_
      refine (hread {} { name }).before
        (fun inner => .after (meets_foldAttribute _ _ _) fun x => .pure ?_) fun _ h => h.below
      rintro number ds' ds₂ ⟨hds', hx, hpattern⟩ ds₁ ⟨hds₂, -⟩ ds ⟨hds₁, hname⟩
      refine ⟨hds'.trans (hds₂.trans hds₁), rfl, rfl, fun hp found ht => ?_⟩
      rw [items, hc]
      exact ht.addAttribute hnode hc ⟨_, hnode, hx ▸ hname⟩ (hp ▸ hpattern)
    case h_3 hc =>
      refine .after (meets_ofExcept _) fun name => .pure ?_
      rintro number ds' ds ⟨hds, hname⟩
      refine ⟨hds, rfl, rfl, fun hp found ht => ?_⟩
      rw [items, hc]
      exact ht.addReference hnode hc ((hasKey_iff hnode hname name).2 rfl) hp
    case h_6 hc | h_7 hc | h_8 hc | h_10 hc | h_11 hc =>
      refine hpass (by rw [hc]; rfl) (by rw [hc]; rfl) _ fun number hp j => ?_
      rw [hinner, hc, hp]
      rfl
    case h_9 hc =>
      refine (meets_nextChoice a).bind (fun group => (hread _ target).mono (fun _ h => h) ?_)
        (fun b hb h => h.ne hb) (fun _ h => h ▸ List.suffix_refl a) fun _ h => h.below
      rintro number ds₁ out ds' ⟨hds', hgrown⟩ ds ⟨hds, rfl⟩
      rw [items, hc]
      refine ⟨hds'.trans hds, hgrown.imp fun hp j => ?_⟩
      rw [hinner, hc, hp]
      rfl
    case h_12 hc =>
      refine (hread p _).mono (fun _ h => h.below) ?_
      rintro number ds out ds' ⟨hds, hgrown⟩
      rw [items, hc]
      refine ⟨hds, (hgrown.imp fun hp j => ?_).of_alike ⟨rfl, rfl, rfl, rfl, rfl⟩⟩
      rw [hinner, hc, hp]
      rfl
    case h_13 hc =>
      have hlist := hpass (by rw [hc]; rfl) (by rw [hc]; rfl) p fun number hp j => by
        rw [hinner, hc, hp]
        rfl
      refine hlist.before (fun out => ?_) fun _ h => h
      split
      · exact .pure fun number ds' ds h => ⟨h.1, h.2.to_alike ⟨rfl, rfl, rfl, rfl, rfl⟩⟩
      · exact .pure fun number ds' ds h => ⟨h.1, h.2.to_alike ⟨rfl, rfl, rfl, rfl, rfl⟩⟩
    case h_14 hc =>
      refine .after (meets_ofExcept _) fun type => .after (meets_dataType _) fun dataType => .pure ?_
      rintro number ds' ds₁ ⟨hds', -⟩ ds ⟨hds, -⟩
      rw [items, hc]
      exact ⟨hds'.trans hds, .refl ⟨rfl, rfl, rfl, rfl, rfl⟩⟩
    case h_4 hc | h_5 hc | h_15 hc | h_16 hc | h_17 hc =>
      rw [items, hc]
      exact .pure fun _ _ => ⟨rfl, .refl ⟨rfl, rfl, rfl, rfl, rfl⟩⟩
    -- the other constructs are skipped with a notice
    all_goals
      rename_i hc
      rw [items, hc]
      exact .after (meets_tell _) fun _ => .pure fun _ _ _ h =>
        ⟨h.1, .refl ⟨rfl, rfl, rfl, rfl, rfl⟩⟩
  | .text _, _ | .comment _, _ | .instruction, _ =>
    .pure fun _ _ => ⟨rfl, .refl ⟨rfl, rfl, rfl, rfl, rfl⟩⟩

theorem meets_readPatterns (root : Node) (p : Pattern) (target : ElementPattern) (a : Address)
    (i : Nat) : ∀ ns : List Node, ChildrenFrom root a i ns →
      Meets (readPatterns p target ns) (BelowFrom a i) fun number ds out ds' => ds' = ds ∧
        Grown root number (∀ j, p = under root number (j :: a)) (itemsFrom a i ns) target out
  | [], _ => by
    rw [readPatterns, itemsFrom]
    exact .pure fun _ _ => ⟨rfl, .refl ⟨rfl, rfl, rfl, rfl, rfl⟩⟩
  | n :: ns, hns => by
    rw [readPatterns, itemsFrom]
    refine (meets_readPattern root p target (i :: a) n (hns 0)).bind
      (fun middle => (meets_readPatterns root p middle a (i + 1) ns hns.tail).mono (fun _ h => h) ?_)
      (fun _ h => h.apart) (fun _ h => ⟨i, Nat.le_refl _, h⟩) ?_
    · rintro number ds₁ out ds' ⟨hds', hgrown'⟩ ds ⟨hds, hgrown⟩
      exact ⟨hds'.trans hds, (hgrown.imp fun h => h i).trans hgrown'⟩
    · rintro b ⟨j, hj, hb⟩
      exact ⟨j, Nat.le_of_succ_le hj, hb⟩

end

/-! ## Reading grammars -/

/-- Whether reading parts of a grammar has added what the starts and definitions
    at the addresses declare. -/
structure Gathered (root : Node) (number : Address → Nat) (added : List Address)
    (start : Option ElementPattern) (ds : Definitions) (out : Option ElementPattern)
    (ds' : Definitions) : Prop where
  start : ∀ found, Traced root number found (start.getD {}) →
    Traced root number (found ++ (added.filter (stands root .start)).flatMap (content root))
      (out.getD {})
  bodies : ∀ name found,
    List.Forall₂ (fun a => Traced root number (content root a)) found
      ((ds.get? name).getD []) →
    List.Forall₂ (fun a => Traced root number (content root a))
      (found ++ added.filter (defines root name)) ((ds'.get? name).getD [])
  keys : ds.keys.Nodup → ds'.keys.Nodup

section
variable {root : Node} {number : Address → Nat} {added added' : List Address}
  {start middle out : Option ElementPattern} {ds ds₁ ds' : Definitions} {a : Address}
  {head : Head} {children : List Node}

theorem Gathered.refl : Gathered root number [] start ds start ds where
  start found h := by rwa [List.filter_nil, List.flatMap_nil, List.append_nil]
  bodies name found h := by rwa [List.filter_nil, List.append_nil]
  keys h := h

theorem Gathered.trans (hg : Gathered root number added start ds middle ds₁)
    (hg' : Gathered root number added' middle ds₁ out ds') :
    Gathered root number (added ++ added') start ds out ds' where
  start found h := by
    rw [List.filter_append, List.flatMap_append, ← List.append_assoc]
    exact hg'.start _ (hg.start found h)
  bodies name found h := by
    rw [List.filter_append, ← List.append_assoc]
    exact hg'.bodies name _ (hg.bodies name found h)
  keys h := hg'.keys (hg.keys h)

theorem Gathered.of_start (hnode : nodeAt root a = some (.element head children))
    (hc : Construct.ofHead head = .start) {e : ElementPattern}
    (he : ∀ found, Traced root number found (start.getD {}) →
      Traced root number (found ++ content root a) e) :
    Gathered root number [a] start ds (some e) ds where
  start found h := by
    simpa [stands_eq hnode, hc] using he found h
  bodies name found h := by
    simpa [defines, stands_eq hnode, hc] using h
  keys h := h

theorem Gathered.of_define (hnode : nodeAt root a = some (.element head children))
    (hc : Construct.ofHead head = .define) {name : String}
    (hname : requiredAttribute (.element head children) "name" = .ok name)
    {body : ElementPattern} (hbody : Traced root number (content root a) body) :
    Gathered root number [a] start ds start (ds.add name body) where
  start found h := by
    simpa [stands_eq hnode, hc] using h
  bodies key found h := by
    have hkey := hasKey_iff hnode hname key
    by_cases heq : key = name
    · have hfilter : [a].filter (defines root key) = [a] := by
        simp [defines, stands_eq hnode, hc, hkey.2 heq]
      rw [hfilter, heq, Definitions.add, Table.get?_insert_self]
      exact List.rel_append (heq ▸ h) (.cons hbody .nil)
    · have hfilter : [a].filter (defines root key) = [] := by
        simp [defines, mt hkey.1 heq]
      rw [hfilter, List.append_nil, Definitions.add, Table.get?_insert_of_ne _ _ heq]
      exact h
  keys := Table.nodup_keys_insert

end

theorem meets_define (name : String) (body : ElementPattern) :
    Meets (ReadM.define name body) (fun _ => False) fun _ ds _ ds' => ds' = ds.add name body := by
  intro r v r' hrun
  cases hrun
  exact ⟨[], .nil, fun _ h => absurd h List.not_mem_nil, rfl, fun _ _ => rfl⟩

theorem meets_readDefine {root : Node} {a : Address} {head : Head} {children : List Node}
    (hnode : nodeAt root a = some (.element head children))
    (hc : Construct.ofHead head = .define) :
    Meets (readDefine (.element head children)) (Below a) fun number ds _ ds' =>
      ∀ start, Gathered root number [a] start ds start ds' := by
  rw [readDefine]
  refine .after (meets_ofExcept _) fun name => ?_
  refine (meets_readPatterns root {} { name } a 0 children (childrenFrom_zero hnode)).before
    (fun body => .after (meets_tell _) fun _ => (meets_define name body).mono (fun _ h => h) ?_)
    fun _ h => h.below
  rintro number ds₂ - ds' rfl ds₁ ⟨rfl, -⟩ ds₀ ⟨rfl, hgrown⟩ ds ⟨rfl, hname⟩ start
  exact .of_define hnode hc hname (hgrown.content hnode (by rw [hc]; intros; rfl))

mutual

theorem meets_readPart (root : Node) (start : Option ElementPattern) (a : Address) :
    ∀ n : Node, nodeAt root a = some n → Meets (readPart start n) (Below a)
      fun number ds out ds' => Gathered root number (parts a n) start ds out ds'
  | .element head children, hnode => by
    have hat := childrenFrom_zero hnode
    rw [readPart]
    split
    case h_1 hc =>
      rw [parts, hc, map_eq_pure_bind]
      refine (meets_readPatterns root {} (start.getD {}) a 0 children hat).before
        (fun e => .pure ?_) fun _ h => h.below
      rintro number ds' ds ⟨rfl, hgrown⟩
      refine .of_start hnode hc fun found ht => ?_
      rw [content_eq hnode]
      exact hgrown.traced (fun j => by rw [under_child number hnode, hc]; rfl) found ht
    case h_2 hc =>
      rw [parts, hc]
      exact (meets_readDefine hnode hc).before (fun _ => .pure fun _ _ _ h => h start) fun _ h => h
    case h_3 hc =>
      rw [parts, hc]
      exact (meets_readParts root start a 0 children hat).mono (fun _ h => h.below)
        fun _ _ _ _ h => h
    case h_4 hc =>
      rw [parts, hc]
      exact .pure fun _ _ => .refl
    case h_5 hc =>
      rw [parts, hc]
      refine .after (meets_tell _) fun _ => .pure ?_
      rintro number ds' ds ⟨rfl, -⟩
      exact .refl
    case h_6 =>
      have hparts : parts a (.element head children) = [] := by
        rw [parts]
        split <;> first | rfl | (exfalso; simp_all)
      rw [hparts]
      refine .after (meets_tell _) fun _ => .pure ?_
      rintro number ds' ds ⟨rfl, -⟩
      exact .refl
  | .text _, _ | .comment _, _ | .instruction, _ => .pure fun _ _ => .refl

theorem meets_readParts (root : Node) (start : Option ElementPattern) (a : Address) (i : Nat) :
    ∀ ns : List Node, ChildrenFrom root a i ns →
      Meets (readParts start ns) (BelowFrom a i) fun number ds out ds' =>
        Gathered root number (partsFrom a i ns) start ds out ds'
  | [], _ => by
    rw [readParts, partsFrom]
    exact .pure fun _ _ => .refl
  | n :: ns, hns => by
    rw [readParts, partsFrom]
    refine (meets_readPart root start (i :: a) n (hns 0)).bind
      (fun middle => (meets_readParts root middle a (i + 1) ns hns.tail).mono (fun _ h => h) ?_)
      (fun _ h => h.apart) (fun _ h => ⟨i, Nat.le_refl _, h⟩) ?_
    · rintro number ds₁ out ds' hg' ds hg
      exact hg.trans hg'
    · rintro b ⟨j, hj, hb⟩
      exact ⟨j, Nat.le_of_succ_le hj, hb⟩

end

/-- Whether a grammar holds what its starts and definitions declare, under every
    name once. -/
structure GrammarTraced (root : Node) (number : Address → Nat) (g : Grammar) : Prop where
  start : Traced root number (startItems root) g.start
  bodies : ∀ name, List.Forall₂ (fun a => Traced root number (content root a))
    ((grammarParts root).filter (defines root name)) ((g.definitions.get? name).getD [])
  keys : g.definitions.keys.Nodup

theorem meets_read (root : Node) : Meets (read root) (fun _ => True) fun number ds start ds' =>
    ds = {} → GrammarTraced root number { start, definitions := ds' } := by
  cases root with
  | element head children =>
    rw [read]
    split
    case h_1 hc =>
      have hread := meets_readParts (.element head children) none [] 0 children
        (childrenFrom_zero rfl)
      have hstart : startItems (.element head children) =
          ((partsFrom [] 0 children).filter (stands (.element head children) .start)).flatMap
            (content (.element head children)) := by
        simp [startItems, grammarParts, isA, hc, Node.children]
      have hparts : grammarParts (.element head children) = partsFrom [] 0 children := by
        simp [grammarParts, isA, hc, Node.children]
      refine hread.before (fun out => ?_) fun _ _ => trivial
      cases out with
      | none => exact meets_throw _
      | some start =>
        refine .pure ?_
        rintro number ds' ds hg rfl
        refine ⟨hstart ▸ hg.start [] (.nil rfl rfl rfl), fun name => ?_, hg.keys List.nodup_nil⟩
        exact hparts ▸ hg.bodies name [] .nil
    case h_2 hc =>
      refine (meets_readPattern (.element head children) {} {} [] _ rfl).mono
        (fun _ _ => trivial) ?_
      rintro number ds out ds' ⟨rfl, hgrown⟩ rfl
      have hstart : startItems (.element head children) = items [] (.element head children) := by
        simp [startItems, isA, hc, items, Construct.isItem]
      have hparts : grammarParts (.element head children) = [] := by
        simp [grammarParts, isA, hc]
      refine ⟨hstart ▸ hgrown.traced rfl [] (.nil rfl rfl rfl), fun name => ?_, List.nodup_nil⟩
      rw [hparts]
      exact .nil
    case h_3 => exact meets_throw _
  | _ => exact meets_throw _

theorem exists_grammarTraced {dialect : Option Dialect} {root : Node} {g : Grammar}
    (hdialect : (dialect <|> Dialect.ofRoot? root) = some .relaxNg)
    (h : (readGrammar dialect root).1 = .ok g) :
    ∃ number : Address → Nat, GrammarTraced root number g ∧ Function.Injective number := by
  rcases hrun : (read root).run {} with ⟨result, reading⟩
  have hg : result.map (fun start => { start, definitions := reading.definitions }) = .ok g := by
    simpa only [readGrammar, hdialect, Dialect.reader, hrun] using h
  cases result with
  | error e => cases hg
  | ok start =>
    cases hg
    obtain ⟨met, hnodup, -, -, htraced⟩ := meets_read root _ _ _ hrun
    obtain ⟨number, hinjective, hfollow⟩ := exists_follow hnodup
    exact ⟨number, htraced number hfollow rfl, hinjective⟩

/-- **The modifiers of every pattern are those on the path of its node** up to the
    nearest element, definition or start: the elements and references that are
    read have them as they are, the attributes as for attributes.  There is a
    group where there is a choice on the path, and groups are equal where the
    outermost choices are the same node. -/
theorem cardinality_traced {dialect : Option Dialect} {root : Node} {g : Grammar}
    (hdialect : (dialect <|> Dialect.ofRoot? root) = some .relaxNg)
    (h : (readGrammar dialect root).1 = .ok g) :
    ∃ number : Address → Nat, GrammarTraced root number g ∧
      (∀ a, (under root number a).group.isSome = true ↔
        ∃ w ∈ enclosing root a, stands root .choice w = true) ∧
      ∀ a b, (under root number a).group = (under root number b).group ↔
        outermostChoice root a = outermostChoice root b := by
  obtain ⟨number, hg, hinjective⟩ := exists_grammarTraced hdialect h
  exact ⟨number, hg, group_isSome_iff root number, group_eq_iff hinjective root⟩

/-- A shelf of books or boxes, with choices in choices and under modifiers. -/
def shelfRoot : Node :=
  plainNode "grammar"
    [plainNode "start" [plainNode "choice"
      [plainNode "optional" [namedNode "ref" "book" []],
      plainNode "choice" [namedNode "element" "box" [plainNode "zeroOrMore"
        [plainNode "choice" [namedNode "attribute" "label" [], namedNode "ref" "book" []]]]]]],
    plainNode "div" [namedNode "define" "book"
      [plainNode "group" [plainNode "oneOrMore" [namedNode "element" "title" []]]]]]

def shelfGrammar : Grammar where
  start :=
    { elements := [{
        name := "box"
        pattern := { choice := true, group := some 1 }
        attributes := [{
          name := "label"
          pattern := { optional := true, zeroOrMore := true } }]
        references := [{
          name := "book"
          pattern := { zeroOrMore := true, choice := true, group := some 3 } }] }]
      references := [{
        name := "book"
        pattern := { optional := true, choice := true, group := some 1 } }] }
  definitions := ⟨[("book", [{
    name := "book"
    elements := [{ name := "title", pattern := { oneOrMore := true } }] }])]⟩

theorem cardinality_shelf : (readGrammar none shelfRoot).1 = .ok shelfGrammar ∧
    ∃ number : Address → Nat, GrammarTraced shelfRoot number shelfGrammar ∧
      (∀ a, (under shelfRoot number a).group.isSome = true ↔
        ∃ w ∈ enclosing shelfRoot a, stands shelfRoot .choice w = true) ∧
      ∀ a b, (under shelfRoot number a).group = (under shelfRoot number b).group ↔
        outermostChoice shelfRoot a = outermostChoice shelfRoot b := by
  have hread : (readGrammar none shelfRoot).1 = .ok shelfGrammar := by rfl
  exact ⟨hread, cardinality_traced rfl hread⟩

end Bindery.Schema.RelaxNg
