/-
  Conflicts of class names.

  Two elements that become classes are rivals if they have one class name.
  Where rivals are an error, planning either finds two of them or makes the
  class of every element that becomes one.

  * `Rooted`, `kept_rooted`: class names are taken only for elements that become
    classes, and only by names they have;
  * `plan_rivals`: so planning fails at rivals, if all names can be written;
  * `InOrder.owns`: where it does not fail, every element that becomes a class
    has its name for itself;
  * `generate_conflict_iff`: a conflict is reported exactly if there are rivals,
    and otherwise there is one class for each element that becomes one.
-/
import Bindery.Proofs.Binding.Order
import Bindery.Proofs.Binding.TypeNames

namespace Bindery

namespace Schema

open Code (className)

/-- Whether `a` and `b` are different elements that become classes and have the
    class name `cls`. -/
structure Document.Rivals (d : Document) (cls a b : String) : Prop where
  ne : a ≠ b
  first : d.Classed a ∧ ∃ e, d.elements.get? a = some e ∧ className e.name = cls
  second : d.Classed b ∧ ∃ e, d.elements.get? b = some e ∧ className e.name = cls

theorem Document.Trail.classed {d : Document} {id : String} {path : List String} {e : Element}
    (h : d.Trail d.roots (id :: path)) (he : d.elements.get? id = some e) : d.Classed id := by
  generalize hl : id :: path = l at h
  induction h generalizing id path e with
  | root hroot =>
    cases hl
    exact .root hroot he
  | child _ hown hr ht htext ih =>
    cases hl
    exact (ih hown rfl).child hown hr ht htext

end Schema

namespace Binding

open Schema
open Code (className)

/-! ## Where names and classes come from -/

/-- Whether names are taken and classes are made only for elements that become
    classes. -/
structure Rooted (site : Site) (p : Planning) : Prop where
  owner : ∀ {name id}, p.owners.get? name = some id → site.document.Classed id ∧
    ∃ e, site.document.elements.get? id = some e ∧ className e.name = name
  classes : ∀ c ∈ p.classes.values, ∃ id e path hs, site.document.Classed id ∧
    site.document.elements.get? id = some e ∧ ClassFor site (id :: path) e c hs

theorem kept_rooted (site : Site) :
    Kept site site.document.roots (fun _ _ p => Rooted site p) fun _ _ _ => True where
  tell _ hp := ⟨hp.owner, hp.classes⟩
  drop hp := hp
  take _ _ _ hp := (ensures_takeTypeName _ _).mono fun _ _ hs =>
    ⟨hs.2 ▸ hp.owner, hs.1 ▸ hp.classes⟩
  object _ _ hp _ := hp
  onPath _ _ _ := trivial
  claim {_ id e _ p _ p'} he _ htrail hp hclaimed := by
    have hsame : p'.owners = p.owners ∧ p'.classes = p.classes := by
      cases hclaimed <;> exact ⟨rfl, rfl⟩
    refine ⟨fun _ => ⟨?_, hsame.2 ▸ hp.classes⟩,
      fun _ => ⟨⟨hsame.1 ▸ hp.owner, hsame.2 ▸ hp.classes⟩, trivial⟩⟩
    intro name owner ho
    rw [hsame.1] at ho
    rcases Table.get?_insert_cases ho with ⟨hname, rfl⟩ | ⟨-, ho⟩
    · exact ⟨htrail.classed he, e, he, hname.symm⟩
    · exact hp.owner ho
  enter {path id e _ hs _ c} he _ htrail hp hc := by
    refine ⟨⟨hp.owner, fun c' hc' => ?_⟩, trivial⟩
    obtain ⟨entry, hentry, rfl⟩ := List.mem_map.1 hc'
    rcases Table.mem_entries_insert hentry with rfl | hentry
    · exact ⟨id, e, path, hs, htrail.classed he, he, hc⟩
    · exact hp.classes _ (List.mem_map.2 ⟨entry, hentry, rfl⟩)

theorem Rooted.start (site : Site) : Rooted site (Planning.start site.document) where
  owner h := by cases h
  classes _ h := by cases h

/-- **Every class of a plan is that of an element that becomes one.** -/
theorem plan_rooted (site : Site) (hd : site.document.Keyed) {classes : List Class}
    (hok : (plan site).1 = .ok classes) {c : Class} (hc : c ∈ classes) :
    ∃ id e path hs, site.document.Classed id ∧ site.document.elements.get? id = some e ∧
      ClassFor site (id :: path) e c hs := by
  obtain ⟨p, rfl, hp⟩ := (kept_rooted site).plan hd (Rooted.start site) hok
  exact hp.classes c hc

theorem faults_rooted (site : Site) :
    Faults site site.document.roots (fun _ _ p => Rooted site p) fun _ fault _ =>
      site.document.LegalNames → ∃ cls a b, fault = .conflict cls a b ∧
        site.document.Rivals cls a b where
  illegal _ hillegal _ hlegal := absurd hlegal hillegal
  conflict {_ id e _ _ previous} he htrail hp _ ho hne _ :=
    ⟨_, previous, id, rfl, hne, hp.owner ho, htrail.classed he, e, he, rfl⟩
  unwind _ _ _ h := h

theorem plan_rivals (site : Site) (hd : site.document.Keyed) (hlegal : site.document.LegalNames)
    {fault : GenerateError} (herror : (plan site).1 = .error fault) :
    ∃ cls a b, fault = .conflict cls a b ∧ site.document.Rivals cls a b := by
  obtain ⟨p, hp⟩ := (kept_rooted site).plan_fails (faults_rooted site) hd (Rooted.start site) herror
  exact hp hlegal

/-! ## Plans without rivals -/

/-- **Every element that becomes a class owns its class name**, once the classes
    of the roots are made in order. -/
theorem InOrder.owns {d : Document} {p : Planning}
    (h : InOrder d [] (Kept.rootHoldings d d.roots) p) {id : String} (hc : d.Classed id)
    {e : Element} (he : d.elements.get? id = some e) :
    p.owners.get? (className e.name) = some id := by
  induction hc generalizing e with
  | @root id _ hroot _ =>
    have hmem : Holding.object id (className e.name) false ∈ Kept.rootHoldings d d.roots :=
      List.mem_filterMap.2 ⟨id, hroot, by simp [he]⟩
    exact h.owners hmem
  | child _ howner hr ht htext ih =>
    -- the class of the parent has a slot for the child, so the child was asked for
    obtain rfl := Option.some.inj (he.symm.trans ht)
    have ho := ih howner
    obtain ⟨entry, hentry, hkey⟩ := List.mem_map.1 (h.made ho trivial List.not_mem_nil)
    have helement := h.owned entry hentry trivial
    rw [hkey, ho] at helement
    rw [Option.some.inj helement] at howner
    exact (h.covered entry hentry _ howner _ hr _ ht htext).1

theorem InOrder.not_rivals {d : Document} {p : Planning}
    (h : InOrder d [] (Kept.rootHoldings d d.roots) p) {cls a b : String} :
    ¬ d.Rivals cls a b := by
  rintro ⟨hne, ⟨ha, ea, hea, rfl⟩, hb, eb, heb, hname⟩
  have hoa := h.owns ha hea
  have hob := h.owns hb heb
  rw [hname, hoa] at hob
  exact hne (Option.some.inj hob)

theorem InOrder.nodup_elements {d : Document} {p : Planning}
    (h : InOrder d [] (Kept.rootHoldings d d.roots) p) :
    (p.classes.values.map (·.element)).Nodup := by
  -- classes of one element would have one name
  refine List.Nodup.of_map (fun id => (d.elements.get? id).elim "" (className ·.name)) ?_
  rw [List.map_map]
  have hnames : p.classes.values.map ((fun id => (d.elements.get? id).elim "" (className ·.name)) ∘
      (·.element)) = p.classes.values.map (·.name) := by
    refine List.map_congr_left fun c hc => ?_
    obtain ⟨e, he, hname⟩ := h.exists_element hc
    simp [he, hname]
  rw [hnames, map_name_values h.named]
  exact h.keys

/-! ## Generated files -/

theorem generate_eq {d : Document} {o : Code.Options} {rt : Code.Units}
    (hrt : o.runtimeUnits = .ok rt) :
    (Code.generate d o).1 = (plan (o.site d)).1.map (Code.fileOf o rt d) := by
  rw [Code.generate, hrt]

/-- **Conflicts are reported exactly where there are rivals.**  Let the names of
    the document and the path of the runtime be such that they can be written,
    and rivals an error.  Then an error that is reported names two rivals; one is
    reported if and only if there are any; and if there are none, a file is
    generated, with one class for each element that becomes a class, which is
    named after it, and no other class. -/
theorem generate_conflict_iff {d : Document} (hd : d.Keyed) (hlegal : d.LegalNames)
    {o : Code.Options} (hpolicy : o.policy = .error) {rt : Code.Units}
    (hrt : o.runtimeUnits = .ok rt) :
    ((∃ cls a b, (Code.generate d o).1 = .error (.conflict cls a b)) ↔
      ∃ cls a b, d.Rivals cls a b) ∧
    (∀ fault, (Code.generate d o).1 = .error fault →
      ∃ cls a b, fault = .conflict cls a b ∧ d.Rivals cls a b) ∧
    ((¬ ∃ cls a b, d.Rivals cls a b) → ∃ file, ∃ classes : List Binding.Class,
      (Code.generate d o).1 = .ok file ∧
      file.classes = classes.map (Code.classOf o.runtime rt) ∧
      (classes.map (·.element)).Nodup ∧
      (∀ id, id ∈ classes.map (·.element) ↔ d.Classed id) ∧
      ∀ c ∈ classes, ∃ e, d.elements.get? c.element = some e ∧
        (Code.classOf o.runtime rt c).name = className e.name) := by
  have hkept : Kept (o.site d) d.roots (InOrder d)
      fun id e p => p.owners.get? (className e.name) = some id := kept_inOrder hd hpolicy _
  rw [generate_eq hrt]
  cases hplan : (plan (o.site d)).1 with
  | error fault =>
    obtain ⟨cls, a, b, rfl, hrivals⟩ := plan_rivals (o.site d) hd hlegal hplan
    refine ⟨⟨fun _ => ⟨cls, a, b, hrivals⟩, fun _ => ⟨cls, a, b, rfl⟩⟩, ?_,
      fun hnone => absurd ⟨cls, a, b, hrivals⟩ hnone⟩
    rintro _ ⟨⟩
    exact ⟨cls, a, b, rfl, hrivals⟩
  | ok classes =>
    obtain ⟨p, rfl, hp⟩ := hkept.plan hd (InOrder.start d) hplan
    have hclassed : ∀ c ∈ p.classes.values, d.Classed c.element := by
      intro c hc
      obtain ⟨id, e, _, _, hid, he, hfor⟩ := plan_rooted (o.site d) hd hplan hc
      rw [hfor.element, hd _ _ he]
      exact hid
    refine ⟨⟨?_, ?_⟩, ?_, fun _ => ⟨_, _, rfl, rfl, hp.nodup_elements, fun id => ?_, fun c hc => ?_⟩⟩
    · rintro ⟨_, _, _, ⟨⟩⟩
    · rintro ⟨_, _, _, hrivals⟩
      exact absurd hrivals hp.not_rivals
    · rintro _ ⟨⟩
    · constructor
      · intro hid
        obtain ⟨c, hc, rfl⟩ := List.mem_map.1 hid
        exact hclassed c hc
      · intro hid
        obtain ⟨e, he⟩ : ∃ e, d.elements.get? id = some e := by
          cases hid with
          | root _ he => exact ⟨_, he⟩
          | child _ _ _ ht _ => exact ⟨_, ht⟩
        obtain ⟨c, hc, helement, -⟩ := hp.exists_class (hp.owns hid he)
        exact List.mem_map.2 ⟨c, hc, helement⟩
    · exact hp.exists_element hc

set_option maxRecDepth 10000 in
/-- Novels have no rivals, although chapters lead back to them; the two kinds of
    books of a library are rivals. -/
theorem novel_library_conflicts :
    (novelDocument.Keyed ∧ novelDocument.LegalNames ∧
      (¬ ∃ cls a b, novelDocument.Rivals cls a b) ∧
      ∃ file rt, ∃ classes : List Binding.Class,
        (Code.generate novelDocument { policy := .error }).1 = .ok file ∧
        file.classes = classes.map (Code.classOf "sb_builtins" rt) ∧
        (classes.map (·.element)).Nodup ∧
        (∀ id, id ∈ classes.map (·.element) ↔ novelDocument.Classed id) ∧
        ∀ c ∈ classes, ∃ e, novelDocument.elements.get? c.element = some e ∧
          (Code.classOf "sb_builtins" rt c).name = className e.name) ∧
    (libraryDocument.Keyed ∧ libraryDocument.LegalNames ∧
      (Code.generate libraryDocument { policy := .error }).1 =
        .error (.conflict "Book" "book" "Book") ∧
      libraryDocument.Rivals "Book" "book" "Book") := by
  have hnovel : novelDocument.Keyed := Document.keyed_of_entries (by decide)
  have hlibrary : libraryDocument.Keyed := Document.keyed_of_entries (by decide)
  have hruns : novelDocument.LegalNames ∧ libraryDocument.LegalNames ∧
      (Code.generate novelDocument { policy := .error }).1.toOption.map
        (fun file => file.classes.length) = some 4 ∧
      (Code.generate libraryDocument { policy := .error }).1.map (fun _ => ()) =
        .error (.conflict "Book" "book" "Book") := by
    decide +kernel
  obtain ⟨hnovelLegal, hlibraryLegal, hnovelRun, hlibraryRun⟩ := hruns
  obtain ⟨file, hok, -, rt, -, hrt, -⟩ := exists_file hnovelRun fun _ hok _ => exists_plan hok
  refine ⟨⟨hnovel, hnovelLegal, ?_⟩, hlibrary, hlibraryLegal, ?_⟩
  · obtain ⟨hiff, -, hfile⟩ := generate_conflict_iff hnovel hnovelLegal rfl hrt
    have hnone : ¬ ∃ cls a b, novelDocument.Rivals cls a b := by
      intro hrivals
      obtain ⟨cls, a, b, herror⟩ := hiff.2 hrivals
      rw [hok] at herror
      cases herror
    obtain ⟨file, classes, h⟩ := hfile hnone
    exact ⟨hnone, file, rt, classes, h⟩
  · have herror : (Code.generate libraryDocument { policy := .error }).1 =
        .error (.conflict "Book" "book" "Book") := by
      cases hrun : (Code.generate libraryDocument { policy := .error }).1 with
      | ok file =>
        rw [hrun] at hlibraryRun
        cases hlibraryRun
      | error fault =>
        rw [hrun] at hlibraryRun
        cases hlibraryRun
        rfl
    obtain ⟨cls, a, b, hfault, hrivals⟩ :=
      (generate_conflict_iff hlibrary hlibraryLegal rfl hrt).2.1 _ herror
    cases hfault
    exact ⟨herror, hrivals⟩

end Binding

end Bindery
