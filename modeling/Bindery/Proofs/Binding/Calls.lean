/-
  Asking for classes again and again.

  Classes can be asked for one by one, and what was made before a failure is
  kept.  A class name goes to an element before its class is made, and it is not
  given back if the class is given up.

  * `createClass_again`: a second call for an element changes no class;
  * `bazaar_class_changed`: where an element is replaced below itself, it does;
  * `Owned`, `reported_calls`: a class name that is taken is that of a class, or
    of an element whose class was given up by a call that failed;
  * `calls_reported`: so the class that a call reports exists, unless one of its
    name was given up;
  * `bazaar_class_missing`: otherwise it need not.
-/
import Bindery.Proofs.Binding.Conflicts

namespace Bindery

namespace Schema

open Code (className)

/-- Whether the element leads to no different one of its class name. -/
def Document.ApartBelow (d : Document) (id : String) : Prop :=
  ∀ b e eb, Relation.TransGen d.Leads id b → d.elements.get? id = some e →
    d.elements.get? b = some eb → className e.name = className eb.name → id = b

theorem Document.Trail.reaches {d : Document} {top id : String} {path : List String}
    (h : d.Trail [top] (id :: path)) : Relation.ReflTransGen d.Leads top id := by
  generalize hl : id :: path = l at h
  induction h generalizing id path with
  | root hid =>
    cases hl
    rw [List.mem_singleton.1 hid]
  | @child own rest e target r _ he hr ht htext ih =>
    cases hl
    exact (ih rfl).tail ⟨e, r, target, he, hr, rfl, ht, htext⟩

end Schema

namespace Binding

open Schema
open Code (className)

/-- The state after the classes of elements were asked for, one by one.  What was
    made before a failure is kept. -/
def calls (site : Site) (ids : List String) : Planning :=
  ids.foldl (fun p id => ((createClass site [] id).run p).2) (Planning.start site.document)

theorem calls_append (site : Site) (ids : List String) (id : String) :
    calls site (ids ++ [id]) = ((createClass site [] id).run (calls site ids)).2 :=
  List.foldl_append ..

theorem Outcome.exists_run {α : Type} {x : PlanM α} {p : Planning} {Q : α → Planning → Prop}
    (h : Outcome x p Q fun _ _ => False) : ∃ a p', x.run p = (.ok a, p') ∧ Q a p' := by
  rcases hrun : x.run p with ⟨fault | a, p'⟩
  · exact (h.fails fault p' hrun).elim
  · exact ⟨a, p', rfl, h.ok a p' hrun⟩

/-! ## A second call -/

/-- Whether there is no class to make for an element with the class name: it has
    it, or another one has it and keeps it. -/
def Settled (policy : ConflictPolicy) (name id : String) (p : Planning) : Prop :=
  p.owners.get? name = some id ∨
    policy = .keep ∧ ∃ previous, p.owners.get? name = some previous ∧ previous ≠ id

theorem kept_owned {site : Site} {top : String} {etop : Element}
    (htop : site.document.elements.get? top = some etop)
    (hapart : site.policy = .replace → site.document.ApartBelow top) :
    Kept site [top] (fun path _ p => top ∈ path → p.owners.get? (className etop.name) = some top)
      fun id _ p => id = top → Settled site.policy (className etop.name) top p where
  tell _ hp := hp
  drop hp := hp
  take _ _ _ hp := (ensures_takeTypeName _ _).mono fun _ _ hs hmem => hs.2 ▸ hp hmem
  object _ _ hp _ := hp
  onPath _ hmem hp hid := .inl (hp (hid ▸ hmem))
  claim {path id e _ p free p'} he hid htrail hp hclaimed := by
    have hsame : p'.owners = p.owners := by cases hclaimed <;> rfl
    constructor
    · rintro rfl hmem
      rcases List.mem_cons.1 hmem with rfl | hmem
      · obtain rfl := Option.some.inj (he.symm.trans htop)
        exact Table.get?_insert_self _ _ _
      · rw [Table.get?_insert_of_ne, hsame]
        · exact hp hmem
        · -- the claim would replace the element, which leads to another of its name
          intro hname
          have hleads := htrail.leads hmem
          have ho := hp hmem
          rw [hname] at ho
          have hreplace : site.policy = .replace := by
            cases hclaimed with
            | free hnone =>
              rw [ho] at hnone
              cases hnone
            | replace _ h | release _ h => exact h
          exact hid ((hapart hreplace id etop e hleads htop he hname) ▸ hmem)
    · rintro rfl
      rw [hsame]
      refine ⟨hp, ?_⟩
      rintro rfl
      obtain rfl := Option.some.inj (he.symm.trans htop)
      rw [Settled, hsame]
      cases hclaimed with
      | own ho => exact .inl ho
      | keep _ h ho hne => exact .inr ⟨h, _, ho, hne⟩
  enter _ _ _ hp _ :=
    ⟨fun hmem => hp (List.mem_cons_of_mem _ hmem), fun hid => .inl (hp (hid ▸ List.mem_cons_self))⟩

theorem createClass_settled {site : Site} {id : String} {e : Element} {p : Planning}
    (he : site.document.elements.get? id = some e)
    (h : Settled site.policy (className e.name) id p) :
    ∃ notices, (createClass site [] id).run p =
      (.ok (some (className e.name)), { p with notices := notices }) := by
  have hother : ∀ {previous}, p.owners.get? (className e.name) = some previous → previous ≠ id →
      site.policy = .keep := by
    rintro previous ho hne
    rcases h with ho' | ⟨hkeep, -⟩
    · rw [ho] at ho'
      exact absurd (Option.some.inj ho') hne
    · exact hkeep
  have hrun : Outcome (createClass site [] id) p (fun found p' =>
      found = some (className e.name) ∧ ∃ notices, p' = { p with notices := notices })
      fun _ _ => False := by
    rw [createClass_some he, if_neg List.not_mem_nil]
    refine .bind (outcome_claimName fun previous herror ho hne => ?_) fun free p₁ hclaimed => ?_
    · rw [hother ho hne] at herror
      cases herror
    · cases hclaimed with
      | free hnone =>
        rcases h with ho | ⟨-, _, ho, -⟩ <;>
        · rw [hnone] at ho
          cases ho
      | own => exact .pure ⟨rfl, p.notices, rfl⟩
      | keep notices => exact .pure ⟨rfl, notices, rfl⟩
      | replace _ hreplace ho hne | release _ hreplace _ ho hne =>
        rw [hother ho hne] at hreplace
        cases hreplace
  obtain ⟨_, _, hrun, rfl, notices, rfl⟩ := hrun.exists_run
  exact ⟨notices, hrun⟩

/-- **A second call changes no class.**  If the class of an element is asked for
    with success and then asked for again, the same name is given, and all but
    the notices stays as it is.  Where a class replaces another of its name, this
    takes that the element leads to no different one of its class name. -/
theorem createClass_again {site : Site} (hd : site.document.Keyed) {id : String}
    (hapart : site.policy = .replace → site.document.ApartBelow id) {p p' : Planning}
    {found : Option String} (hrun : (createClass site [] id).run p = (.ok found, p')) :
    ∃ notices, (createClass site [] id).run p' = (.ok found, { p' with notices := notices }) := by
  cases he : site.document.elements.get? id with
  | none =>
    rw [createClass_none he] at hrun ⊢
    cases hrun
    exact ⟨_, rfl⟩
  | some e =>
    have hstart : id ∈ ([] : List String) → p.owners.get? (className e.name) = some id :=
      fun hmem => by cases hmem
    obtain ⟨rfl, -, hdone⟩ := ((kept_owned he hapart).createClass (faults_true ..) hd [] [] id e p
      he (.root List.mem_cons_self) hstart).ok _ _ hrun
    exact createClass_settled he (hdone rfl)

/-- Bazaars: two elements share the class name of items, and a booth stands in a
    bazaar and leads to a different bazaar. -/
def bazaarDocument : Document :=
  { roots := ["bazaar"]
    elements := ⟨[
      ("bazaar", {
        identifier := "bazaar", name := "bazaar"
        elementRelations := [{ target := "item" }, { target := "booth" }] }),
      ("item", {
        identifier := "item", name := "item", attributeRelations := [{ target := "item@price" }] }),
      ("booth", {
        identifier := "booth", name := "booth"
        elementRelations := [{ target := "Item" }, { target := "Bazaar" }] }),
      ("Item", {
        identifier := "Item", name := "Item", attributeRelations := [{ target := "Item@size" }] }),
      ("Bazaar", {
        identifier := "Bazaar", name := "Bazaar"
        attributeRelations := [{ target := "Bazaar@street" }] })]⟩
    attributes := ⟨[
      ("item@price", { identifier := "item@price", name := "price" }),
      ("Item@size", { identifier := "Item@size", name := "size" }),
      ("Bazaar@street", { identifier := "Bazaar@street", name := "street" })]⟩ }

theorem bazaarDocument_keyed : bazaarDocument.Keyed := Document.keyed_of_entries (by decide)

def bazaarSite (policy : ConflictPolicy) : Site :=
  ({ policy } : Code.Options).site bazaarDocument

/-- The name that a call reports for the element, after others. -/
def reported (site : Site) (ids : List String) (id : String) :
    Except GenerateError (Option String) :=
  ((createClass site [] id).run (calls site ids)).1

def Planning.members (p : Planning) (name : String) : List String :=
  (p.classes.get? name).elim [] fun c => c.slots.map (·.member)

set_option maxRecDepth 10000 in
theorem bazaar_runs :
    (reported (bazaarSite .replace) ["item"] "booth" = .ok (some "Booth") ∧
      (calls (bazaarSite .replace) ["item"]).members "Item" = ["price"] ∧
      (calls (bazaarSite .replace) ["item", "booth"]).members "Item" = ["size"]) ∧
    (reported (bazaarSite .replace) [] "bazaar" = .ok (some "Bazaar") ∧
      (calls (bazaarSite .replace) ["bazaar"]).members "Item" = ["size"] ∧
      reported (bazaarSite .replace) ["bazaar"] "bazaar" = .ok (some "Bazaar") ∧
      (calls (bazaarSite .replace) ["bazaar", "bazaar"]).members "Item" = ["price"]) ∧
    reported (bazaarSite .error) [] "bazaar" = .error (.conflict "Item" "item" "Item") ∧
    reported (bazaarSite .error) ["bazaar"] "item" = .ok (some "Item") ∧
    reported (bazaarSite .error) ["bazaar"] "bazaar" = .ok (some "Bazaar") ∧
    (calls (bazaarSite .error) ["bazaar", "bazaar"]).classes.values.map (·.name) = ["Item"] ∧
    ((createRoots (bazaarSite .error)).run (calls (bazaarSite .error) ["bazaar"])).1 = .ok () ∧
    ((createRoots (bazaarSite .error)).run
      (calls (bazaarSite .error) ["bazaar"])).2.classes.values.map (·.name) = ["Item"] := by
  decide +kernel

set_option maxRecDepth 10000 in
/-- The class of a booth is asked for twice.  With it one kind of items replaces
    the other, which does not happen again. -/
theorem booth_again : bazaarDocument.Keyed ∧ bazaarDocument.ApartBelow "booth" ∧
    (calls (bazaarSite .replace) ["item"]).members "Item" = ["price"] ∧
    ∃ p notices, (createClass (bazaarSite .replace) [] "booth").run
        (calls (bazaarSite .replace) ["item"]) = (.ok (some "Booth"), p) ∧
      p.members "Item" = ["size"] ∧
      (createClass (bazaarSite .replace) [] "booth").run p =
        (.ok (some "Booth"), { p with notices := notices }) := by
  obtain ⟨⟨hname, hbefore, hafter⟩, -⟩ := bazaar_runs
  have hapart : bazaarDocument.ApartBelow "booth" := by
    have hnames : ∀ x ∈ bazaarDocument.elements.entries, ∀ y ∈ bazaarDocument.elements.entries,
        x.1 = "booth" → className x.2.name = className y.2.name → x.1 = y.1 := by decide
    intro b e eb _ he heb hsame
    exact hnames ("booth", e) (Table.mem_entries_of_get? he) (b, eb)
      (Table.mem_entries_of_get? heb) rfl hsame
  have hrun : (createClass (bazaarSite .replace) [] "booth").run
      (calls (bazaarSite .replace) ["item"]) =
        (.ok (some "Booth"), calls (bazaarSite .replace) ["item", "booth"]) := Prod.ext hname rfl
  have hagain : ∃ notices, (createClass (bazaarSite .replace) [] "booth").run
      (calls (bazaarSite .replace) ["item", "booth"]) = (.ok (some "Booth"), _) :=
    createClass_again bazaarDocument_keyed (fun _ => hapart) hrun
  obtain ⟨notices, hagain⟩ := hagain
  exact ⟨bazaarDocument_keyed, hapart, hbefore, _, notices, hrun, hafter, hagain⟩

/-- The bazaar below takes the class name, so the class is made once more at the
    second call, and the class of items with it. -/
theorem bazaar_class_changed : bazaarDocument.Keyed ∧ bazaarDocument.validate = .ok () ∧
    ∃ p p', (createClass (bazaarSite .replace) [] "bazaar").run (Planning.start bazaarDocument) =
        (.ok (some "Bazaar"), p) ∧
      (createClass (bazaarSite .replace) [] "bazaar").run p = (.ok (some "Bazaar"), p') ∧
      p.members "Item" = ["size"] ∧ p'.members "Item" = ["price"] := by
  obtain ⟨-, ⟨hfirst, hmembers, hsecond, hmembers'⟩, -⟩ := bazaar_runs
  exact ⟨bazaarDocument_keyed, by decide, _, _, Prod.ext hfirst rfl, Prod.ext hsecond rfl,
    hmembers, hmembers'⟩

/-! ## Reported classes -/

/-- Whether the class of `x` was being made when the class of `top` was given up
    for the fault.  A conflict arises at an element below. -/
def GivenUp (site : Site) (top : String) (fault : GenerateError) (x : String) : Prop :=
  Relation.ReflTransGen site.document.Leads top x ∧
    ∀ cls a b, fault = .conflict cls a b →
      site.policy = .error ∧ Relation.TransGen site.document.Leads x b

/-- Whether the class of `x` was given up by one of the calls. -/
def Lost (site : Site) (ids : List String) (x : String) : Prop :=
  ∃ before top after fault p, ids = before ++ top :: after ∧
    (createClass site [] top).run (calls site before) = (.error fault, p) ∧
    GivenUp site top fault x

/-- Whether a class name is taken only for an element of that class name, whose
    class is being made, or was made, or was lost. -/
structure Owned (d : Document) (lost : String → Prop) (path : List String) (held : List Holding)
    (p : Planning) : Prop where
  owner : ∀ {name id}, p.owners.get? name = some id → ∃ e, d.elements.get? id = some e ∧
    className e.name = name ∧ (id ∈ path ∨ name ∈ p.classes.keys ∨ lost id)
  onPath : ∀ {id e}, id ∈ path → d.elements.get? id = some e →
    (p.owners.get? (className e.name)).isSome
  known : ∀ {id name direct}, Holding.object id name direct ∈ held → (p.owners.get? name).isSome
  named : ∀ entry ∈ p.classes.entries, entry.2.name = entry.1

section
variable {d : Document} {lost lost' : String → Prop} {path : List String} {held : List Holding}
  {p p' : Planning} {id : String} {e : Element}

theorem Owned.of_same (h : Owned d lost path held p) (hs : SameClasses p p') :
    Owned d lost path held p' := by
  cases p
  cases p'
  obtain ⟨rfl, rfl⟩ := hs
  exact { h with }

theorem Owned.mono (h : Owned d lost path held p) (hlost : ∀ x, lost x → lost' x) :
    Owned d lost' path held p := by
  refine { h with owner := fun ho => ?_ }
  obtain ⟨e, he, hname, hcases⟩ := h.owner ho
  exact ⟨e, he, hname, hcases.imp_right (.imp_right (hlost _))⟩

theorem Owned.hold (h : Owned d lost path held p) {x : Holding}
    (hx : ∀ {id name direct}, x = .object id name direct → (p.owners.get? name).isSome) :
    Owned d lost path (held ++ [x]) p := by
  refine { h with known := fun hmem => ?_ }
  rcases List.mem_append.1 hmem with hmem | hmem
  · exact h.known hmem
  · exact hx (List.mem_singleton.1 hmem).symm

theorem Owned.drop {x : Holding} (h : Owned d lost path (held ++ [x]) p) :
    Owned d lost path held p :=
  { h with known := fun hmem => h.known (List.mem_append_left _ hmem) }

theorem isSome_insert {owners : Table String} {name : String} (key id : String)
    (h : (owners.get? name).isSome) : ((owners.insert key id).get? name).isSome := by
  by_cases hname : name = key
  · rw [hname, Table.get?_insert_self]
    rfl
  · rwa [Table.get?_insert_of_ne _ _ hname]

theorem Owned.begin (h : Owned d lost path held p) (he : d.elements.get? id = some e) :
    Owned d lost (id :: path) held
      { p with owners := p.owners.insert (className e.name) id } where
  owner {name owner} ho := by
    rcases Table.get?_insert_cases ho with ⟨hname, rfl⟩ | ⟨-, ho⟩
    · exact ⟨e, he, hname.symm, .inl List.mem_cons_self⟩
    · obtain ⟨e', he', hname', hcases⟩ := h.owner ho
      exact ⟨e', he', hname', hcases.imp_left (List.mem_cons_of_mem _)⟩
  onPath {x e'} hmem he' := by
    rcases List.mem_cons.1 hmem with rfl | hmem
    · obtain rfl := Option.some.inj (he.symm.trans he')
      dsimp only
      rw [Table.get?_insert_self]
      rfl
    · exact isSome_insert _ _ (h.onPath hmem he')
  known hmem := isSome_insert _ _ (h.known hmem)
  named := h.named

theorem Owned.enter (h : Owned d lost (id :: path) held p) (he : d.elements.get? id = some e)
    {c : Class} (hc : c.name = className e.name) :
    Owned d lost path held { p with classes := p.classes.insert (className e.name) c } where
  owner {name owner} ho := by
    obtain ⟨e', he', hname, hcases⟩ := h.owner ho
    refine ⟨e', he', hname, ?_⟩
    rw [Table.mem_keys_insert]
    rcases hcases with hmem | hkey | hlost
    · rcases List.mem_cons.1 hmem with rfl | hmem
      · obtain rfl := Option.some.inj (he.symm.trans he')
        exact .inr (.inl (.inl hname.symm))
      · exact .inl hmem
    · exact .inr (.inl (.inr hkey))
    · exact .inr (.inr hlost)
  onPath hmem := h.onPath (List.mem_cons_of_mem _ hmem)
  known := h.known
  named entry hentry := by
    rcases Table.mem_entries_insert hentry with hnew | hentry
    · rw [hnew, hc]
    · exact h.named entry hentry

theorem Owned.unwind (h : Owned d lost (id :: path) held p) (hid : lost id) :
    Owned d lost path held p where
  owner {name owner} ho := by
    obtain ⟨e, he, hname, hcases⟩ := h.owner ho
    refine ⟨e, he, hname, ?_⟩
    rcases hcases with hmem | hcases
    · rcases List.mem_cons.1 hmem with rfl | hmem
      · exact .inr (.inr hid)
      · exact .inl hmem
    · exact .inr hcases
  onPath hmem := h.onPath (List.mem_cons_of_mem _ hmem)
  known := h.known
  named := h.named

/-- A name that is taken, while no class is being made, is that of a class or of
    an element that was lost. -/
theorem Owned.exists_class (h : Owned d lost [] held p) {name : String}
    (ho : (p.owners.get? name).isSome) :
    (∃ c ∈ p.classes.values, c.name = name) ∨
      ∃ x e, d.elements.get? x = some e ∧ className e.name = name ∧ lost x := by
  obtain ⟨x, ho⟩ := Option.isSome_iff_exists.1 ho
  obtain ⟨e, he, hname, hmem | hkey | hlost⟩ := h.owner ho
  · cases hmem
  · obtain ⟨entry, hentry, rfl⟩ := List.mem_map.1 hkey
    exact .inl ⟨entry.2, List.mem_map.2 ⟨entry, hentry, rfl⟩, h.named entry hentry⟩
  · exact .inr ⟨x, e, he, hname, hlost⟩

end

theorem kept_reported (site : Site) (starts : List String) (lost : String → Prop) :
    Kept site starts (Owned site.document lost)
      fun _ e p => (p.owners.get? (className e.name)).isSome where
  tell _ hp := hp.of_same ⟨rfl, rfl⟩
  drop hp := hp.drop
  take _ _ _ hp := (ensures_takeTypeName _ _).mono fun _ _ hs =>
    (hp.of_same hs).hold fun h => by cases h
  object _ _ hp hdone := hp.hold fun h => by
    cases h
    exact hdone
  onPath he hmem hp := hp.onPath hmem he
  claim {path _ e held p _ p'} he _ _ hp hclaimed := by
    have hp' : Owned site.document lost path held p' :=
      hp.of_same (by cases hclaimed <;> exact ⟨rfl, rfl⟩)
    refine ⟨fun _ => hp'.begin he, ?_⟩
    rintro rfl
    refine ⟨hp', ?_⟩
    cases hclaimed with
    | own ho | keep _ _ ho => simp [ho]
  enter he _ _ hp hc :=
    have hp' := { hp with known := fun hmem => hp.known (List.mem_append_left _ hmem) }
    ⟨hp'.enter he hc.name, hp.onPath List.mem_cons_self he⟩

/-- A call that fails loses the classes that were being made. -/
theorem faults_reported (site : Site) (top : String) (lost : String → Prop) :
    Faults site [top] (Owned site.document lost) fun path fault p =>
      Owned site.document (fun x => lost x ∨ GivenUp site top fault x) path [] p ∧
        ∀ cls a b, fault = .conflict cls a b → site.policy = .error ∧
          ∀ x ∈ path, Relation.TransGen site.document.Leads x b where
  illegal _ _ hp := by
    refine ⟨{ hp.mono fun _ => .inl with known := fun h => by cases h }, ?_⟩
    rintro _ _ _ ⟨⟩
  conflict _ htrail hp hpolicy _ _ := by
    refine ⟨{ hp.mono fun _ => .inl with known := fun h => by cases h }, ?_⟩
    intro _ _ _ hfault
    obtain ⟨-, -, rfl⟩ := GenerateError.conflict.inj hfault
    exact ⟨hpolicy, fun x hx => htrail.leads hx⟩
  unwind _ _ htrail h := by
    obtain ⟨hp, hconflict⟩ := h
    refine ⟨hp.unwind (.inr ⟨htrail.reaches, fun cls a b hfault => ?_⟩), fun cls a b hfault => ?_⟩
    · obtain ⟨hpolicy, hbelow⟩ := hconflict cls a b hfault
      exact ⟨hpolicy, hbelow _ List.mem_cons_self⟩
    · obtain ⟨hpolicy, hbelow⟩ := hconflict cls a b hfault
      exact ⟨hpolicy, fun x hx => hbelow x (List.mem_cons_of_mem _ hx)⟩

theorem Lost.append {site : Site} {ids : List String} {x : String} (h : Lost site ids x)
    (id : String) : Lost site (ids ++ [id]) x := by
  obtain ⟨before, top, after, fault, p, rfl, hrun, hgiven⟩ := h
  exact ⟨before, top, after ++ [id], fault, p, by simp, hrun, hgiven⟩

theorem reported_calls {site : Site} (hd : site.document.Keyed) (ids : List String) :
    Owned site.document (Lost site ids) [] [] (calls site ids) := by
  induction ids using List.reverseRecOn with
  | nil =>
    exact {
      owner := fun h => by cases h
      onPath := fun h => by cases h
      known := fun h => by cases h
      named := fun _ h => by cases h }
  | append_singleton ids id ih =>
    have ih' := ih.mono fun x hx => hx.append id
    rw [calls_append]
    cases he : site.document.elements.get? id with
    | none =>
      rw [createClass_none he]
      exact ih'.of_same ⟨rfl, rfl⟩
    | some e =>
      have houtcome := (kept_reported site [id] (Lost site ids)).createClass
        (faults_reported site id _) hd [] [] id e (calls site ids) he (.root List.mem_cons_self) ih
      rcases hrun : (createClass site [] id).run (calls site ids) with ⟨fault | found, p⟩
      · refine (houtcome.fails _ _ hrun).1.mono fun x hx => ?_
        rcases hx with hx | hx
        · exact hx.append id
        · exact ⟨ids, id, [], fault, p, rfl, hrun, hx⟩
      · exact (houtcome.ok _ _ hrun).2.1.mono fun x hx => hx.append id

def LostName (site : Site) (ids : List String) (name : String) : Prop :=
  ∃ x e, site.document.elements.get? x = some e ∧ className e.name = name ∧ Lost site ids x

theorem createClass_reported (site : Site) (hd : site.document.Keyed) (ids : List String)
    {id name : String} {p : Planning}
    (hrun : (createClass site [] id).run (calls site ids) = (.ok (some name), p))
    (hlost : ¬ LostName site ids name) : ∃ c ∈ p.classes.values, c.name = name := by
  cases he : site.document.elements.get? id with
  | none =>
    rw [createClass_none he] at hrun
    cases hrun
  | some e =>
    obtain ⟨hname, hp, ho⟩ := ((kept_reported site [id] (Lost site ids)).createClass
      (faults_true ..) hd [] [] id e _ he (.root List.mem_cons_self)
      (reported_calls hd ids)).ok _ _ hrun
    rw [Option.some.inj hname] at hlost ⊢
    exact (hp.exists_class ho).resolve_right hlost

/-- The roots have their classes, once all of them were made. -/
theorem createRoots_reported (site : Site) (hd : site.document.Keyed) (ids : List String)
    {p : Planning} (hrun : (createRoots site).run (calls site ids) = (.ok (), p)) {root : String}
    (hroot : root ∈ site.document.roots) {e : Element}
    (he : site.document.elements.get? root = some e)
    (hlost : ¬ LostName site ids (className e.name)) :
    ∃ c ∈ p.classes.values, c.name = className e.name := by
  have hp := ((kept_reported site site.document.roots (Lost site ids)).createRoots
    (faults_true ..) hd _ (fun _ hr => hr) (reported_calls hd ids)).ok _ _ hrun
  have hmem : Holding.object root (className e.name) false ∈
      [] ++ Kept.rootHoldings site.document site.document.roots :=
    List.mem_append_right _ (List.mem_filterMap.2 ⟨root, hroot, by simp [he]⟩)
  exact (hp.exists_class (hp.known hmem)).resolve_right hlost

/-- **A class that is reported exists.**  Let the classes of elements be asked for
    one by one, some of them without success.  Whenever a class is then asked for
    and a name is given, there is a class of that name; and if the classes of all
    roots are made then, those of the roots are there.  Both take that no element
    of the class name was lost, that is, had its class being made when one of the
    calls failed further down.  A file that is generated has the classes of all
    roots in any case. -/
theorem calls_reported {d : Document} (hd : d.Keyed) (o : Code.Options) (ids : List String) :
    (∀ id name p, (createClass (o.site d) [] id).run (calls (o.site d) ids) = (.ok (some name), p) →
      ¬ LostName (o.site d) ids name → ∃ c ∈ p.classes.values, c.name = name) ∧
    (∀ p, (createRoots (o.site d)).run (calls (o.site d) ids) = (.ok (), p) →
      ∀ root ∈ d.roots, ∀ e, d.elements.get? root = some e →
        ¬ LostName (o.site d) ids (className e.name) →
        ∃ c ∈ p.classes.values, c.name = className e.name) ∧
    ∀ file, (Code.generate d o).1 = .ok file → ∀ root ∈ d.roots, ∀ e,
      d.elements.get? root = some e → className e.name ∈ file.classes.map (·.name) := by
  refine ⟨fun _ _ _ hrun hlost => createClass_reported (o.site d) hd ids hrun hlost,
    fun _ hrun _ hroot _ he hlost => createRoots_reported (o.site d) hd ids hrun hroot he hlost,
    fun file hok root hroot e he => ?_⟩
  obtain ⟨rt, classes, -, hplan, rfl⟩ := exists_plan hok
  obtain ⟨p, hrun, rfl⟩ := exists_run_of_ok hplan
  have hnone : ¬ LostName (o.site d) [] (className e.name) := by
    rintro ⟨_, _, -, -, before, _, _, _, _, hnil, -⟩
    cases before <;> cases hnil
  obtain ⟨c, hc, hname⟩ := createRoots_reported (o.site d) hd [] hrun hroot he hnone
  exact List.mem_map.2 ⟨_, List.mem_map.2 ⟨c, hc, rfl⟩, hname⟩

theorem bazaarDocument_leads {a b : String} (h : bazaarDocument.Leads a b) :
    a = "bazaar" ∨ a = "booth" := by
  obtain ⟨e, r, target, he, hr, -⟩ := h
  have hentries : ∀ entry ∈ bazaarDocument.elements.entries,
      entry.2.elementRelations ≠ [] → entry.1 = "bazaar" ∨ entry.1 = "booth" := by decide
  exact hentries (a, e) (Table.mem_entries_of_get? he) (List.ne_nil_of_mem hr)

set_option maxRecDepth 10000 in
theorem bazaar_item_reported : bazaarDocument.Keyed ∧
    ∃ p, (createClass (bazaarSite .error) [] "item").run (calls (bazaarSite .error) ["bazaar"]) =
        (.ok (some "Item"), p) ∧
      ¬ LostName (bazaarSite .error) ["bazaar"] "Item" ∧
      ∃ c ∈ p.classes.values, c.name = "Item" := by
  obtain ⟨-, -, hfails, hitem, -⟩ := bazaar_runs
  have hlost : ¬ LostName (bazaarSite .error) ["bazaar"] "Item" := by
    rintro ⟨x, e, he, hname, before, top, after, fault, p, hids, hrun, -, hbelow⟩
    obtain ⟨rfl, rfl⟩ : before = [] ∧ top = "bazaar" := by
      cases before with
      | nil => exact ⟨rfl, (List.cons.inj hids).1.symm⟩
      | cons _ before => cases before <;> cases hids
    rw [reported, hrun] at hfails
    obtain ⟨-, hleads⟩ := hbelow _ _ _ (Except.error.inj hfails)
    obtain ⟨_, hstep, -⟩ := Relation.TransGen.head'_iff.1 hleads
    have hnames : ∀ entry ∈ bazaarDocument.elements.entries,
        entry.1 = "bazaar" ∨ entry.1 = "booth" → className entry.2.name ≠ "Item" := by decide
    exact hnames (x, e) (Table.mem_entries_of_get? he) (bazaarDocument_leads hstep) hname
  have hrun : (createClass (bazaarSite .error) [] "item").run
      (calls (bazaarSite .error) ["bazaar"]) = (.ok (some "Item"), _) := Prod.ext hitem rfl
  exact ⟨bazaarDocument_keyed, _, hrun, hlost,
    (calls_reported bazaarDocument_keyed { policy := .error } ["bazaar"]).1 _ _ _ hrun hlost⟩

/-- A bazaar is asked for once more after its class was given up: it is reported
    and there is none, neither then nor after the classes of all roots were
    made. -/
theorem bazaar_class_missing : bazaarDocument.Keyed ∧ bazaarDocument.validate = .ok () ∧
    (∃ p, (createClass (bazaarSite .error) [] "bazaar").run (Planning.start bazaarDocument) =
      (.error (.conflict "Item" "item" "Item"), p)) ∧
    (∃ p, (createClass (bazaarSite .error) [] "bazaar").run (calls (bazaarSite .error) ["bazaar"]) =
      (.ok (some "Bazaar"), p) ∧ p.classes.values.map (·.name) = ["Item"]) ∧
    ∃ p, (createRoots (bazaarSite .error)).run (calls (bazaarSite .error) ["bazaar"]) =
      (.ok (), p) ∧ p.classes.values.map (·.name) = ["Item"] := by
  obtain ⟨-, -, hfails, -, hbazaar, hclasses, hroots, hfile⟩ := bazaar_runs
  exact ⟨bazaarDocument_keyed, by decide, ⟨_, Prod.ext hfails rfl⟩,
    ⟨_, Prod.ext hbazaar rfl, hclasses⟩, _, Prod.ext hroots rfl, hfile⟩

end Binding

end Bindery
