/-
  Types of finite size.

  The member that leads back to an element whose class is being made is boxed.
  Elements are told apart by their identifiers, classes by their names, so that
  a class may hold itself where several elements have its name.

  * `Contested`: the class names for which this can matter: two elements have
    the name, and, where the class made first wins, one leads to the other;
  * `Uncontested`, `kept_uncontested`: classes of all other names come after those of
    such names that they hold directly;
  * `generate_finite`: no class holds itself, directly or through other classes,
    if no contested name is one that relations lead back to;
  * `folder_holds_itself`: otherwise it may.
-/
import Bindery.Proofs.Binding.Conflicts

namespace Bindery

namespace Schema

open Code (className)

/-- Whether an element that becomes a class has the class name `n` and a relation
    to a different one of the class name `m`, which does not repeat, or is one of
    a choice. -/
def Document.HoldsName (d : Document) (n m : String) : Prop :=
  ∃ id e r target, d.Classed id ∧ d.elements.get? id = some e ∧ className e.name = n ∧
    r ∈ e.elementRelations ∧ r.target ≠ id ∧ d.elements.get? r.target = some target ∧
    target.isTextOnly = false ∧ className target.name = m ∧ (r.choice = none → r.isList = false)

end Schema

namespace Binding

open Schema
open Code (className)

/-- Whether an element may be referred to by the class name while the class of
    another one stands under it that is not finished or will be replaced. -/
def Contested (d : Document) (policy : ConflictPolicy) (name : String) : Prop :=
  policy ≠ .error ∧ ∃ a b, d.Rivals name a b ∧ (policy = .keep → Relation.TransGen d.Leads a b)

/-! ## What is held directly -/

section
variable {d : Document} {path : List String} {all rs : List Relation}
  {groups taken taken' : List String} {slots : List Slot} {hs : List Holding} {name : String}

/-- Whether one of the relations leads to an element of the class name that is
    not on `path` and whose values may be held directly. -/
def HeldBy (d : Document) (path : List String) (rs : List Relation) (name : String) : Prop :=
  ∃ r ∈ rs, ∃ target, r.target ∉ path ∧ d.elements.get? r.target = some target ∧
    target.isTextOnly = false ∧ className target.name = name ∧
    (r.choice = none → r.isList = false)

theorem Typed.heldBy (hd : d.Keyed) {label : String} {r : Relation} {target : Element}
    {type : ValueType} (h : Typed path label true target type hs)
    (ht : d.elements.get? r.target = some target) (hr : r ∈ rs)
    (hlist : r.choice = none → r.isList = false) (hname : type.direct? = some name) :
    HeldBy d path rs name := by
  obtain ⟨htext, hclass, hpath, -⟩ := h.of_direct hname
  rw [hd _ _ ht] at hpath
  exact ⟨r, hr, target, hpath, ht, htext, hclass, hlist⟩

/-- **What slots hold directly is what their relations lead to.** -/
theorem ElementSlotsFor.heldBy (hd : d.Keyed)
    (h : ElementSlotsFor d path all groups taken rs slots taken' hs) (hrs : rs ⊆ all)
    {s : Slot} (hslot : s ∈ slots) (hname : name ∈ s.direct) : HeldBy d path all name := by
  cases h.slotFor hslot with
  | @child r _ _ _ hr _ ht hfor =>
    obtain ⟨type, hplace, htyped⟩ := hfor.place
    rw [Slot.direct, hplace] at hname
    dsimp only at hname
    split at hname
    · cases hname
    · rename_i hlist
      have hsingle : r.isList = false := by simpa using mt hfor.list.2 hlist
      rw [hsingle] at htyped
      exact htyped.heldBy hd ht (hrs hr) (fun _ => hsingle) (Option.mem_toList.1 hname)
  | choice hfor =>
    obtain ⟨union, as, hs', hplace, -, has⟩ := hfor.place
    rw [Slot.direct, hplace] at hname
    obtain ⟨a, ha, haname⟩ := List.mem_filterMap.1 hname
    rcases has.exists_relation ha with hnil | ⟨r, hr, _, _, _, ht, -, -, htyped, -⟩
    · cases hnil
    · obtain ⟨hr, hgroup⟩ := List.mem_filter.1 hr
      exact htyped.heldBy hd ht hr (fun hnone => by simp [hnone] at hgroup) haname

end

/-! ## Uncontested names -/

/-- What holds of class names that are not contested, while classes are made for
    the elements of `path`, which hold `held`. -/
structure Uncontested (site : Site) (path : List String) (held : List Holding) (p : Planning) :
    Prop extends
    Orderly site.document (fun name => ¬ Contested site.document site.policy name) path held p where
  classed : ∀ {name id}, p.owners.get? name = some id → site.document.Classed id

section
variable {site : Site} {path : List String} {held : List Holding} {p p' : Planning} {id : String}
  {e : Element}

theorem Uncontested.of_same (h : Uncontested site path held p) (hs : SameClasses p p') :
    Uncontested site path held p' :=
  ⟨h.toOrderly.of_same hs, fun ho => h.classed (hs.2 ▸ ho)⟩

/-- Another owner of a name that is not contested keeps it, and its class is
    made. -/
theorem Uncontested.rival (h : Uncontested site path held p) {name previous : String}
    (he : site.document.elements.get? id = some e) (hname : className e.name = name)
    (htrail : site.document.Trail site.document.roots (id :: path))
    (hfree : ¬ Contested site.document site.policy name)
    (ho : p.owners.get? name = some previous) (hne : previous ≠ id)
    (hpolicy : site.policy ≠ .error) : site.policy = .keep ∧ name ∈ p.classes.keys := by
  have hrivals : site.document.Rivals name previous id :=
    ⟨hne, ⟨h.classed ho, h.owner ho⟩, htrail.classed he, e, he, hname⟩
  have hkeep : site.policy = .keep := by
    by_contra hother
    exact hfree ⟨hpolicy, previous, id, hrivals, fun hkeep => absurd hkeep hother⟩
  refine ⟨hkeep, h.made ho hfree fun hmem => hfree ⟨hpolicy, previous, id, hrivals, fun _ => ?_⟩⟩
  exact htrail.leads hmem

theorem Uncontested.begin (h : Uncontested site path held p) {name : String}
    (he : site.document.elements.get? id = some e) (hname : className e.name = name)
    (htrail : site.document.Trail site.document.roots (id :: path))
    (hclaim : ∀ owner, p.owners.get? name = some owner → owner ≠ id ∧ site.policy = .replace) :
    Uncontested site (id :: path) held { p with owners := p.owners.insert name id } := by
  refine ⟨h.toOrderly.begin he hname fun hfree => ?_, fun ho => ?_⟩
  · rw [Option.eq_none_iff_forall_ne_some]
    intro owner ho
    obtain ⟨hne, hreplace⟩ := hclaim owner ho
    obtain ⟨hkeep, -⟩ := h.rival he hname htrail hfree ho hne (by simp [hreplace])
    rw [hreplace] at hkeep
    cases hkeep
  · rcases Table.get?_insert_cases ho with ⟨-, rfl⟩ | ⟨-, ho⟩
    · exact htrail.classed he
    · exact h.classed ho

end

/-- **Planning goes on in order for names that are not contested.** -/
theorem kept_uncontested (site : Site) (hd : site.document.Keyed) :
    Kept site site.document.roots (Uncontested site) fun id e p =>
      ¬ Contested site.document site.policy (className e.name) →
        p.owners.get? (className e.name) = some id ∨ className e.name ∈ p.classes.keys where
  tell _ hp := hp.of_same ⟨rfl, rfl⟩
  drop hp := ⟨hp.weaken (List.subset_append_left _ _), hp.classed⟩
  take _ _ _ hp := (ensures_takeTypeName _ _).mono fun _ _ hs =>
    ⟨(hp.of_same hs).hold fun h => (by cases h), (hp.of_same hs).classed⟩
  object boxable he hp hdone := ⟨hp.toOrderly.object boxable hdone, hp.classed⟩
  onPath he hmem hp hfree := .inl (hp.onPath hmem he hfree).1
  claim {path id e held p free p'} he hid htrail hp hclaimed := by
    have hp' : Uncontested site path held p' :=
      hp.of_same (by cases hclaimed <;> exact ⟨rfl, rfl⟩)
    constructor
    · rintro rfl
      refine hp'.begin he rfl htrail fun owner ho => ?_
      cases hclaimed with
      | free hnone =>
        rw [hnone] at ho
        cases ho
      | replace _ hpolicy ho' hne | release _ hpolicy _ ho' hne =>
        obtain rfl := Option.some.inj (ho'.symm.trans ho)
        exact ⟨hne, hpolicy⟩
    · rintro rfl
      refine ⟨hp', fun hfree => ?_⟩
      cases hclaimed with
      | own ho => exact .inl ho
      | keep _ hpolicy ho hne =>
        exact .inr (hp.rival he rfl htrail hfree ho hne (by simp [hpolicy])).2
  enter he hid _ hp hc := ⟨⟨hp.toOrderly.enter hd he rfl hid hc, hp.classed⟩,
    fun _ => .inr (Table.mem_keys_insert.2 (.inl rfl))⟩

theorem Uncontested.start (site : Site) : Uncontested site [] [] (Planning.start site.document) :=
  ⟨Orderly.start _ _, fun h => by cases h⟩

/-! ## Generated files -/

theorem transGen_of_cycle {α : Type} {r : α → α → Prop} {x y : α} (h : Relation.TransGen r x y)
    (hback : Relation.ReflTransGen r y x) :
    Relation.TransGen (fun b a => r b a ∧ Relation.TransGen r b b ∧ Relation.TransGen r a a)
      x y := by
  induction h with
  | single hxy => exact .single ⟨hxy, .head' hxy hback, .tail' hback hxy⟩
  | tail hxy hyz ih =>
    have hback' := hback.trans hxy.to_reflTransGen
    exact (ih (.head hyz hback)).tail ⟨hyz, .head' hyz hback', .tail' hback' hyz⟩

theorem holdsName_of_direct (site : Site) (hd : site.document.Keyed) {classes : List Class}
    (hok : (plan site).1 = .ok classes) {c : Class} (hc : c ∈ classes) {name : String}
    (hname : name ∈ c.direct) : site.document.HoldsName c.name name := by
  obtain ⟨id, e, path, hs, hid, he, hfor⟩ := plan_rooted site hd hok hc
  obtain ⟨taken, taken', hs₁, hs₂, hs₃, -, helements, -, -⟩ := hfor.slots
  obtain ⟨s, hslot, hname⟩ := List.mem_flatMap.1 hname
  obtain ⟨r, hr, target, hpath, hheld⟩ := helements.heldBy hd (List.Subset.refl _) hslot hname
  exact ⟨id, e, r, target, hid, he, hfor.name.symm, hr, (List.ne_of_not_mem_cons hpath), hheld⟩

/-- **No class holds itself.**  In a generated file, the code of the classes of the
    plan, no class holds itself by the types of its members and variants, neither in
    a box nor in a list, or through other classes that are held so.  This takes that
    relations of elements to different ones, outside of lists, do not lead from a
    contested class name back to it. -/
theorem generate_finite {d : Document} (hd : d.Keyed) {o : Code.Options}
    (hcontested : ∀ name, Contested d o.policy name → ¬ Relation.TransGen d.HoldsName name name)
    {file : Code.File} (hok : (Code.generate d o).1 = .ok file) :
    ∃ rt classes, (plan (o.site d)).1 = .ok classes ∧ file = Code.fileOf o rt d classes ∧
      (file.classes.map (·.name)).Nodup ∧
      ∀ c, ¬ Relation.TransGen (Contains file.classes) c c := by
  obtain ⟨rt, classes, -, hplan, rfl⟩ := exists_plan hok
  obtain ⟨p, rfl, hp⟩ := (kept_uncontested (o.site d) hd).plan hd (Uncontested.start _) hplan
  refine ⟨rt, p.classes.values, hplan, rfl, ?_, fun c hcycle => ?_⟩
  · rw [Code.fileOf, List.map_map]
    exact (map_name_values hp.named).symm ▸ hp.keys
  change Relation.TransGen (Contains (p.classes.values.map (Code.classOf o.runtime rt))) c c at hcycle
  generalize hcontains : Contains (p.classes.values.map (Code.classOf o.runtime rt)) = contains
    at hcycle
  have hdirect : ∀ {b a}, contains b a → ∃ c ∈ p.classes.values, c.name = a.name ∧
      b.name ∈ c.direct := by
    intro b a h
    rw [← hcontains] at h
    exact h.exists_direct hplan hd
  -- a name on a cycle of classes is one that relations lead back to
  have hfree : ∀ a, Relation.TransGen contains a a → ¬ Contested d o.policy a.name := by
    intro a ha hname
    have hback : Relation.TransGen (Function.swap d.HoldsName) a.name a.name := by
      refine ha.lift (·.name) fun b a h => ?_
      obtain ⟨c, hc, hname, hmem⟩ := hdirect h
      have hholds := holdsName_of_direct (o.site d) hd hplan hc hmem
      rwa [hname] at hholds
    exact hcontested a.name hname (Relation.transGen_swap.1 hback)
  have hstep : ∀ {x y}, contains x y ∧ Relation.TransGen contains x x ∧
      Relation.TransGen contains y y →
      p.classes.keys.idxOf x.name < p.classes.keys.idxOf y.name := by
    rintro x y ⟨hxy, hx, hy⟩
    obtain ⟨c, hc, hname, hmem⟩ := hdirect hxy
    rw [← hname]
    exact hp.idxOf_lt hc hmem (hfree x hx) (hname ▸ hfree y hy)
  have hlt := (transGen_of_cycle hcycle .refl).lift (p.classes.keys.idxOf ·.name) fun _ _ => hstep
  rw [Relation.transGen_eq_self] at hlt
  exact Nat.lt_irrefl _ hlt

/-- Guides: sections that stand in sections, and two kinds of notes, one of which
    holds a list of the other. -/
def guideDocument : Document :=
  { roots := ["guide"]
    elements := ⟨[
      ("guide", {
        identifier := "guide", name := "guide"
        elementRelations := [{ target := "section" }, { target := "note" }] }),
      ("section", {
        identifier := "section", name := "section"
        elementRelations := [{ target := "section", occurs := { min := 0 } },
          { target := "Note" }] }),
      ("note", {
        identifier := "note", name := "note"
        elementRelations := [{ target := "Note", occurs := { max := .unbounded } }] }),
      ("Note", {
        identifier := "Note", name := "Note", attributeRelations := [{ target := "Note@by" }] })]⟩
    attributes := ⟨[("Note@by", { identifier := "Note@by", name := "by" })]⟩ }

set_option maxRecDepth 10000 in
theorem guide_names :
    (∀ x ∈ guideDocument.elements.entries, ∀ y ∈ guideDocument.elements.entries,
      className x.2.name = className y.2.name → x.1 ≠ y.1 → className x.2.name = "Note") ∧
    (∀ x ∈ guideDocument.elements.entries, className x.2.name = "Note" →
      ∀ r ∈ x.2.elementRelations, r.choice = none ∧ r.isList = true) ∧
    className "note" = "Note" ∧ className "Note" = "Note" := by
  decide

theorem guide_contested {policy : ConflictPolicy} {name : String}
    (h : Contested guideDocument policy name) :
    ¬ Relation.TransGen guideDocument.HoldsName name name := by
  obtain ⟨hnames, hlists, -⟩ := guide_names
  obtain ⟨-, a, b, ⟨hne, ⟨-, ea, hea, rfl⟩, -, eb, heb, hname⟩, -⟩ := h
  have hnote := hnames (a, ea) (Table.mem_entries_of_get? hea) (b, eb)
    (Table.mem_entries_of_get? heb) hname.symm hne
  intro hcycle
  rw [hnote] at hcycle
  obtain ⟨_, ⟨id, e, r, target, -, he, hclass, hr, -, -, -, -, hlist⟩, -⟩ :=
    Relation.TransGen.head'_iff.1 hcycle
  obtain ⟨hchoice, hlist'⟩ := hlists (id, e) (Table.mem_entries_of_get? he) hclass r hr
  rw [hlist hchoice] at hlist'
  cases hlist'

set_option maxRecDepth 10000 in
theorem guide_finite : guideDocument.Keyed ∧ Contested guideDocument .keep "Note" ∧
    ∀ policy ∈ [ConflictPolicy.replace, .keep],
      (∀ name, Contested guideDocument policy name →
        ¬ Relation.TransGen guideDocument.HoldsName name name) ∧
      ∃ file, (Code.generate guideDocument { policy }).1 = .ok file ∧
        file.classes.map (·.name) = ["Note", "Section", "Guide"] ∧
        ∃ rt classes, (plan (Code.Options.site { policy } guideDocument)).1 = .ok classes ∧
          file = Code.fileOf { policy } rt guideDocument classes ∧
          (file.classes.map (·.name)).Nodup ∧
          ∀ c, ¬ Relation.TransGen (Contains file.classes) c c := by
  have hkeyed : guideDocument.Keyed := Document.keyed_of_entries (by decide)
  refine ⟨hkeyed, ?_, fun policy hpolicy => ⟨fun name => guide_contested, ?_⟩⟩
  · obtain ⟨-, -, hnote, hNote⟩ := guide_names
    have hroot : guideDocument.Classed "guide" := .root (by decide) rfl
    have hclassed : guideDocument.Classed "note" :=
      hroot.child (r := { target := "note" }) rfl (by decide) rfl rfl
    have hleads : guideDocument.Leads "note" "Note" :=
      ⟨_, { target := "Note", occurs := { max := .unbounded } }, _, rfl, by decide, rfl, rfl, rfl⟩
    have hclassed' : guideDocument.Classed "Note" :=
      hclassed.child (r := { target := "Note", occurs := { max := .unbounded } }) rfl (by decide)
        rfl rfl
    have hrivals : guideDocument.Rivals "Note" "note" "Note" :=
      ⟨by decide, ⟨hclassed, _, rfl, hnote⟩, hclassed', _, rfl, hNote⟩
    exact ⟨by decide, "note", "Note", hrivals, fun _ => .single hleads⟩
  · refine exists_file ?_ fun _ hok _ => generate_finite hkeyed (fun _ => guide_contested) hok
    revert policy
    decide +kernel

/-- Folders: one in another, told apart by case. -/
def folderDocument : Document :=
  { roots := ["folder"]
    elements := ⟨[
      ("folder", {
        identifier := "folder", name := "folder", elementRelations := [{ target := "Folder" }] }),
      ("Folder", {
        identifier := "Folder", name := "Folder"
        attributeRelations := [{ target := "Folder@path" }] })]⟩
    attributes := ⟨[("Folder@path", { identifier := "Folder@path", name := "path" })]⟩ }

set_option maxRecDepth 10000 in
/-- The class of folders holds itself, neither in a box nor in a list, whether the
    folder inside is replaced or not made at all. -/
theorem folder_holds_itself : folderDocument.Keyed ∧ folderDocument.validate = .ok () ∧
    ∀ policy ∈ [ConflictPolicy.replace, .keep],
      ∃ file, (Code.generate folderDocument { policy }).1 = .ok file ∧
        file.classes.map (fun c => (c.name, c.types, c.ownTypes)) =
          [("Folder", ["Folder"], ["String", "i64", "i32", "f64", "bool"])] ∧
        ∃ c, Contains file.classes c c := by
  refine ⟨Document.keyed_of_entries (by decide), by decide, fun policy hpolicy => ?_⟩
  refine exists_file ?_ fun file hok hfile => ?_
  · revert policy
    decide +kernel
  · obtain ⟨c, rest, heq, hc, -⟩ := List.map_eq_cons_iff.1 hfile
    obtain ⟨hname, htypes⟩ := Prod.mk.inj hc
    obtain ⟨htypes, hown⟩ := Prod.mk.inj htypes
    refine ⟨c, heq ▸ List.mem_cons_self, heq ▸ List.mem_cons_self, ?_⟩
    rw [Code.Class.Holds, hname, htypes, hown]
    exact ⟨by decide, "Folder", by decide, by decide, .inl rfl⟩

end Binding

end Bindery
