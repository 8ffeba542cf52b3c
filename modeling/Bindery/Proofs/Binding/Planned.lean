/-
  Planned classes fit together.

  Where no two elements that become classes have one class name, planning goes
  the same way as where that is an error, so that every element has its class
  for itself (`InOrder`).  The slots of a class take their tags from different
  relations, and where those tags differ, a child has one slot.

  * `Kept.of_sole`: what is kept where a second owner of a name is an error is
    kept where there is none;
  * `plan_coherent`: the classes of a plan fit together.
-/
import Bindery.Proofs.Binding.Enumerations

namespace Bindery.Binding

open Schema
open Code (className)

/-! ## Names with one owner -/

theorem ClassFor.of_policy {site : Site} {policy : ConflictPolicy} {path : List String} {e : Element}
    {c : Class} {hs : List Holding} (h : ClassFor site path e c hs) :
    ClassFor { site with policy } path e c hs :=
  ⟨h.name, h.element, h.tag, h.root, h.slots⟩

theorem Kept.of_sole {site : Site} {starts : List String}
    {I J : List String → List Holding → Planning → Prop} {Done : String → Element → Planning → Prop}
    (h : Kept { site with policy := .error } starts I Done)
    (hJ : Kept site starts J fun _ _ _ => True)
    (hsole : ∀ {path id e held p previous}, site.document.elements.get? id = some e →
      site.document.Trail starts (id :: path) → J path held p →
      p.owners.get? (className e.name) = some previous → previous = id) :
    Kept site starts (fun path held p => I path held p ∧ J path held p) Done where
  tell notices hp := ⟨h.tell notices hp.1, hJ.tell notices hp.2⟩
  drop hp := ⟨h.drop hp.1, hJ.drop hp.2⟩
  take he htrail haffix hp name p' hrun :=
    ⟨h.take he htrail haffix hp.1 name p' hrun, hJ.take he htrail haffix hp.2 name p' hrun⟩
  object boxable he hp hdone := ⟨h.object boxable he hp.1 hdone, hJ.object boxable he hp.2 trivial⟩
  onPath he hmem hp := h.onPath he hmem hp.1
  claim {path id e held p free p'} he hid htrail hp hclaimed := by
    obtain ⟨hbegun, hleft⟩ := hJ.claim he hid htrail hp.2 hclaimed
    have hsame : Claimed .error (className e.name) id p free p' := by
      cases hclaimed with
      | free hnone => exact .free hnone
      | own howned => exact .own howned
      | keep _ _ ho hne | replace _ _ ho hne | release _ _ _ ho hne =>
        exact absurd (hsole he htrail hp.2 ho) hne
    obtain ⟨hbegun', hleft'⟩ := h.claim he hid htrail hp.1 hsame
    exact ⟨fun hfree => ⟨hbegun' hfree, hbegun hfree⟩,
      fun hfree => ⟨⟨(hleft' hfree).1, (hleft hfree).1⟩, (hleft' hfree).2⟩⟩
  enter he hid htrail hp hc := by
    obtain ⟨hI, hdone⟩ := h.enter he hid htrail hp.1 hc.of_policy
    exact ⟨⟨hI, (hJ.enter he hid htrail hp.2 hc).1⟩, hdone⟩

theorem plan_inOrder {site : Site} (hd : site.document.Keyed)
    (hnames : site.document.DistinctClassNames) {classes : List Class}
    (hok : (plan site).1 = .ok classes) :
    ∃ p, classes = p.classes.values ∧
      InOrder site.document [] (Kept.rootHoldings site.document site.document.roots) p := by
  have herror := @kept_inOrder { site with policy := .error } hd rfl site.document.roots
  have hkept := herror.of_sole (kept_rooted site) fun he htrail hp ho => by
    obtain ⟨hprevious, e', he', hname⟩ := hp.owner ho
    exact hnames hprevious (htrail.classed he) he' he hname
  obtain ⟨p, hclasses, hp, -⟩ := hkept.plan hd ⟨InOrder.start _, Rooted.start site⟩ hok
  exact ⟨p, hclasses, hp⟩

/-! ## Tags -/

section
variable {d : Document} {path : List String} {all rs : List Relation}
  {groups taken taken' : List String} {slots : List Slot} {s : Slot} {hs : List Holding}

def Source.relations (all : List Relation) : Source → List Relation
  | child r => [r]
  | choice group => choiceOf all group

theorem AlternativesFor.tags {made as : List Alternative}
    (h : AlternativesFor d path made rs as hs) :
    ∃ tags, as.map (·.tag) = made.map (·.tag) ++ tags ∧ tags.Sublist (rs.map d.childTag) := by
  induction h with
  | nil => exact ⟨[], by simp, .slnil⟩
  | dangling _ _ ih =>
    obtain ⟨tags, heq, hsub⟩ := ih
    exact ⟨tags, heq, hsub.cons _⟩
  | @cons _ _ r _ target _ _ _ ht _ _ ih =>
    obtain ⟨tags, heq, hsub⟩ := ih
    have htag : d.childTag r = target.name := by simp [Document.childTag, ht]
    refine ⟨target.name :: tags, by simp [heq], ?_⟩
    rw [List.map_cons, htag]
    exact hsub.cons_cons _

theorem Source.Gives.tags {source : Source} (h : source.Gives d path all s) :
    (s.children.map (·.1)).Sublist ((source.relations all).map d.childTag) := by
  cases source with
  | child r =>
    obtain ⟨-, target, _, _, ht, hfor⟩ := h
    obtain ⟨type, hplace, -⟩ := hfor.place
    simp [Slot.children, hplace, Source.relations, Document.childTag, ht]
  | choice group =>
    obtain ⟨_, _, hfor⟩ := h
    obtain ⟨union, as, _, hplace, -, has⟩ := hfor.place
    obtain ⟨tags, heq, hsub⟩ := has.tags
    have htags : s.children.map (·.1) = tags := by
      rw [Slot.children, hplace, List.map_map]
      exact heq
    rwa [htags]

theorem Source.Differ.disjoint {a b : Source} {t : Slot} (h : Source.Differ (· ≠ ·) a b)
    (ha : a.Gives d path all s) (hb : b.Gives d path all t) :
    (a.relations all).Disjoint (b.relations all) := by
  have hchoice : ∀ {r group}, r ∈ choiceOf all group → r.choice = some group :=
    fun hr => by simpa using (List.mem_filter.1 hr).2
  intro r hra hrb
  cases a with
  | child q =>
    obtain rfl := List.mem_singleton.1 hra
    cases b with
    | child q => exact h (List.mem_singleton.1 hrb)
    | choice group =>
      have hnone := ha.1
      rw [hchoice hrb] at hnone
      cases hnone
  | choice group =>
    cases b with
    | child q =>
      obtain rfl := List.mem_singleton.1 hrb
      have hnone := hb.1
      rw [hchoice hra] at hnone
      cases hnone
    | choice group' => exact h (Option.some.inj ((hchoice hra).symm.trans (hchoice hrb)))

theorem Source.Among.sublist {source : Source} (h : source.Among groups rs) (hrs : rs ⊆ all) :
    (source.relations all).Sublist all := by
  cases source with
  | child r => exact List.singleton_sublist.2 (hrs h)
  | choice group => exact List.filter_sublist

/-- **No tag has two slots**, if the children of the element have different tags. -/
theorem ElementSlotsFor.childTags_nodup
    (h : ElementSlotsFor d path all groups taken rs slots taken' hs) (hrs : rs.Sublist all)
    (htags : (all.map d.childTag).Nodup) : (slots.flatMap (·.children.map (·.1))).Nodup := by
  obtain ⟨pairs, hpairs⟩ := h.exists_sourced (P := (· ≠ ·)) ((List.Nodup.of_map _ htags).sublist hrs)
  refine List.nodup_flatMap.2 ⟨fun s hs => ?_, hpairs.pairwise ?_⟩
  · obtain ⟨source, hgives, hamong⟩ := hpairs.exists_source hs
    exact (hgives.tags.trans ((hamong.sublist hrs.subset).map _)).nodup htags
  · intro s t a b ha hb hsa htb hdiffer tag hs ht
    obtain ⟨r, hr, rfl⟩ := List.mem_map.1 (hsa.tags.subset hs)
    obtain ⟨q, hq, htag⟩ := List.mem_map.1 (htb.tags.subset ht)
    obtain rfl := List.inj_on_of_nodup_map htags ((hb.sublist hrs.subset).subset hq)
      ((ha.sublist hrs.subset).subset hr) htag
    exact hdiffer.disjoint hsa htb hr hq

end

/-! ## Plans -/

section
variable {site : Site} (hd : site.document.Keyed) (hnames : site.document.DistinctClassNames)
  {classes : List Class} (hok : (plan site).1 = .ok classes)

include hd hnames hok

theorem plan_tag {id : String} {e : Element} (hid : site.document.Classed id)
    (he : site.document.elements.get? id = some e) :
    ∃ c, Instance.Classes.get? classes (className e.name) = some c ∧ c.tag = e.name := by
  obtain ⟨p, rfl, hp⟩ := plan_inOrder hd hnames hok
  obtain ⟨c, hc, helement, hname⟩ := hp.exists_class (hp.owns hid he)
  obtain ⟨id', e', _, _, -, he', hfor⟩ := plan_rooted site hd hok hc
  have hid' : id' = id := (hd _ _ he').symm.trans (hfor.element.symm.trans helement)
  obtain rfl := Option.some.inj ((hid' ▸ he').symm.trans he)
  exact ⟨c, hname ▸ plan_found hd hok hc, hfor.tag⟩

theorem plan_apart {c : Class} (hc : c ∈ classes) {s : Slot} (hs : s ∈ c.elements)
    (hone : s.cardinality = .one) : ∀ x ∈ s.children, x.2.class? ≠ some c.name := by
  obtain ⟨id, e, path, hs', -, -, hfor⟩ := plan_rooted site hd hok hc
  obtain ⟨_, _, _, _, _, -, helements, -, -⟩ := hfor.slots
  cases helements.slotFor hs with
  | @child _ target _ _ _ _ _ hslot =>
    obtain ⟨type, hplace, -⟩ := hslot.place
    intro x hx hclass
    obtain rfl : x = (target.name, type) := by simpa [Slot.children, hplace] using hx
    have hdirect : c.name ∈ c.direct := by
      refine List.mem_flatMap.2 ⟨s, hs, ?_⟩
      cases type with
      | object name boxed =>
        cases boxed with
        | true => exact absurd hplace (hslot.unboxed hone _ _)
        | false => simpa [Slot.direct, hplace, hone, ValueType.direct?, ValueType.class?] using
            hclass.symm
      | _ => cases hclass
    -- it would lead from its element to a different one of the same class name
    obtain ⟨a, ea, r, b, ha, hea, hna, hr, hne, hb, htext, hnb, -⟩ :=
      holdsName_of_direct site hd hok hc hdirect
    exact hne (hnames (ha.child hea hr hb htext) ha hb hea (hnb.trans hna.symm))
  | choice hslot => exact absurd hone hslot.many

end

/-- **The classes of a plan fit together**, where elements that become classes
    have different class names and the children and attributes of an element
    can be told apart. -/
theorem plan_coherent {site : Site} (hd : site.document.Proper)
    (hnames : site.document.DistinctClassNames) (htags : site.document.DistinctTags)
    {classes : List Class} (h : (plan site).1 = .ok classes) :
    Instance.Classes.Coherent classes where
  found c hc := plan_found hd.keyed h hc
  each c hc := by
    obtain ⟨id, e, path, hs, hid, he, hfor⟩ := plan_rooted site hd.keyed h hc
    obtain ⟨hchildren, hattributes⟩ := htags id e he
    obtain ⟨_, _, _, _, _, -, helements, -, -⟩ := hfor.slots
    refine { hfor.shaped hattributes with
      childTags := helements.childTags_nodup (List.Sublist.refl _) hchildren
      bears := fun s hs x hx => ?_
      apart := fun s hs => plan_apart hd.keyed hnames h hc hs }
    obtain ⟨r, hr, target, _, _, _, ht, htag, htyped⟩ := (hfor.leads hs).2 x hx
    rcases htyped.kind with ⟨-, hnone, -⟩ | ⟨htext, hclass, -⟩
    · rw [ValueType.bears, hnone]
    · obtain ⟨c', hget, htag'⟩ := plan_tag hd.keyed hnames h (hid.child he hr ht htext) ht
      rw [ValueType.bears, hclass, htag]
      simpa [hget] using htag'
  values c hc e he := by
    obtain ⟨id, element, path, hs, helement, hfor⟩ := plan_faithful hd.keyed h hc
    exact (hfor.listed hd helement e he).2

end Bindery.Binding
