/-
  Writing and reading are inverse.

  For the classes of a plan whose elements can be told apart, every value whose
  literals lose nothing (`LosslessIn`), and in which no value is hidden where
  its absence means something else, is read back from the tree that it is
  written as.
-/
import Bindery.Proofs.Binding.Planned
import Bindery.Proofs.Instance.Literal
import Bindery.Proofs.Instance.RoundTrip

namespace Bindery.Instance

open Binding Schema

/-- Whether the value loses nothing when it is written as a literal in the
    place. -/
def LosslessIn (p : Place) (d : Datum) : Prop :=
  ∃ type, literalType? p = some type ∧ d.Lossless type

theorem Datum.Lossless.isLiteral : ∀ {type : ValueType} {d : Datum}, d.Lossless type →
    type.isLiteral = true
  | .scalar _, _, _ => rfl
  | .enumeration _, _, _ => rfl

theorem Classes.Coherent.returns_of_losslessIn {cs : Classes} (hcs : cs.Coherent)
    {c : Binding.Class} (hc : c ∈ cs) {s : Slot} (hs : s ∈ c.slots) :
    Weaker LosslessIn Returns s.place := by
  rintro q hq d ⟨type, htype, hd⟩
  refine ⟨type, htype, hd.isLiteral, readValue_writeValue hd ?_⟩
  rintro e rfl
  have he : e ∈ s.place.enumerations :=
    List.mem_filterMap.2 ⟨.enumeration e, mem_types hq htype, rfl⟩
  refine hcs.values c hc e (List.mem_flatMap.2 ⟨s, ?_, he⟩)
  simp only [Class.slots, List.mem_append] at hs ⊢
  tauto

/-- **Writing and reading are inverse.**  In a document whose entities are kept
    under their identifiers and whose facets list no value twice, let no two
    elements that become classes share a class name, and let the children of
    every element have different tags and its attributes different names.  Then
    a value of a class of the plan is read back, the order of its lists
    included, from the one tree that it is written as, if its literals are
    lossless and neither it nor an entry of a list, an optional value or an
    alternative inside it is left out for being empty.

    Empty values of list-shaped classes that must be present are left out as
    well: reading makes up for them. -/
theorem plan_readObject_contentOf {site : Site} (hdocument : site.document.Proper)
    (hnames : site.document.DistinctClassNames) (htags : site.document.DistinctTags)
    {classes : List Binding.Class} (hplan : (plan site).1 = .ok classes) {c : Binding.Class}
    (hc : c ∈ classes) {v : Datum} (hv : v.IsOf classes LosslessIn c)
    (hshown : isHidden classes v = false) (hwithin : ShownWithin classes v) :
    ∃ tree, contentOf classes v = [tree] ∧ readObject classes c.name tree.node = .ok v := by
  have hcs := plan_coherent hdocument hnames htags hplan
  have hmono := fun {c} hc s hs => hcs.returns_of_losslessIn (c := c) hc (s := s) hs
  obtain ⟨fields, rfl, hfit⟩ := hv
  have hret : Datum.IsOf classes Returns c (.object c.name fields) :=
    ⟨fields, rfl, hfit.mono (fun c hc => hmono hc) (hmono hc)⟩
  obtain ⟨tree, htree, hread⟩ := contentOf_written hcs hc hret hshown hwithin
  exact ⟨tree, htree, hread tree.node tree.shows_node⟩

def albumDocument : Document :=
  let many : Occurs := { min := 0, max := .unbounded }
  let mood : Facet := { values := ["calm", "loud"], combinable := true }
  { roots := ["album"]
    elements := ⟨[
      ("album", {
        identifier := "album", name := "album"
        elementRelations := [{ target := "sides" }, { target := "notes" }]
        attributeRelations := [{ target := "mood" }] }),
      ("sides", {
        identifier := "sides", name := "sides"
        elementRelations := [{ target := "side", occurs := many }] }),
      ("side", { identifier := "side", name := "side", text := true, dataType := some .int }),
      ("notes", {
        identifier := "notes", name := "notes"
        elementRelations := [{ target := "note", occurs := many }] }),
      ("note", { identifier := "note", name := "note", text := true })]⟩
    attributes := ⟨[("mood", { identifier := "mood", name := "mood", facet := some mood })]⟩ }

def albumClass : Binding.Class :=
  let mood : Enumeration :=
    { name := "AlbumMood", label := "mood", values := ["calm", "loud"], combinable := true }
  { name := "Album", element := "album", tag := "album", root := true
    attributes := [⟨"mood", "mood", .one, .attr "mood" (.enumeration mood)⟩]
    elements := [
      ⟨"sides", "sides", .one, .child "sides" (.object "Sides" false)⟩,
      ⟨"notes", "notes", .one, .child "notes" (.object "Notes" false)⟩] }

def albumClasses : List Binding.Class := [
  { name := "Sides", element := "sides", tag := "sides"
    elements := [⟨"side_list", "side", .list, .child "side" (.scalar .int)⟩] },
  { name := "Notes", element := "notes", tag := "notes"
    elements := [⟨"note_list", "note", .list, .child "note" (.scalar .string)⟩] },
  albumClass]

def album : Datum :=
  .object "Album" [
    .list [.variant "Loud", .variant "Calm"],
    .object "Sides" [.list [.scalar (.integer 2), .scalar (.integer (-1))]],
    .object "Notes" [.list []]]

theorem album_isOf : album.IsOf albumClasses LosslessIn albumClass := by
  refine ⟨_, rfl, ⟨_, rfl, rfl, ?_⟩, ⟨⟨_, _, rfl⟩, ?_⟩, ⟨⟨_, _, rfl⟩, trivial, trivial⟩, trivial⟩
  · intro d hd
    rcases List.mem_pair.1 hd with rfl | rfl
    · exact ⟨"Loud", "loud", rfl, by decide, by decide, by decide⟩
    · exact ⟨"Calm", "calm", rfl, by decide, by decide, by decide⟩
  · have hint : ∀ n : Int, Number.inRange 32 n = true →
        LosslessIn (.child "side" (.scalar .int)) (.scalar (.integer n)) :=
      fun n h => ⟨_, rfl, h⟩
    exact ⟨⟨hint 2 rfl, hint (-1) rfl, trivial⟩, trivial⟩

theorem album_readObject_contentOf :
    albumDocument.Proper ∧ albumDocument.DistinctClassNames ∧ albumDocument.DistinctTags ∧
      (plan { document := albumDocument }).1 = .ok albumClasses ∧
      album.IsOf albumClasses LosslessIn albumClass ∧ isHidden albumClasses album = false ∧
      ShownWithin albumClasses album ∧
      ∃ tree, contentOf albumClasses album = [tree] ∧
        readObject albumClasses albumClass.name tree.node = .ok album := by
  have helements : ∀ x ∈ albumDocument.elements.entries,
      x.2.identifier = x.1 ∧ (∀ f ∈ x.2.facet, f.values.Nodup) ∧
        (x.2.elementRelations.map albumDocument.childTag).Nodup ∧
        (x.2.attributeRelations.map albumDocument.attributeName).Nodup := by decide
  have hattributes : ∀ x ∈ albumDocument.attributes.entries, ∀ f ∈ x.2.facet, f.values.Nodup := by
    decide
  have hclasses : ∀ x ∈ albumDocument.elements.entries, ∀ y ∈ albumDocument.elements.entries,
      Code.className x.2.name = Code.className y.2.name → x.1 = y.1 := by decide
  have hproper : albumDocument.Proper :=
    ⟨fun _ _ h => (helements _ (Table.mem_entries_of_get? h)).1,
      fun _ _ h => (helements _ (Table.mem_entries_of_get? h)).2.1,
      fun _ _ h => hattributes _ (Table.mem_entries_of_get? h)⟩
  have hnames : albumDocument.DistinctClassNames := by
    intro a b ea eb _ _ ha hb
    exact hclasses (a, ea) (Table.mem_entries_of_get? ha) (b, eb) (Table.mem_entries_of_get? hb)
  have htags : albumDocument.DistinctTags := fun _ _ h =>
    (helements _ (Table.mem_entries_of_get? h)).2.2
  have hplan : (plan { document := albumDocument }).1 = .ok albumClasses := by decide +kernel
  have hshown : isHidden albumClasses album = false := by decide
  have hwithin : ShownWithin albumClasses album := by
    simp [album, ShownWithin, FieldsShown, EntriesShown, isHidden]
  exact ⟨hproper, hnames, htags, hplan, album_isOf, hshown, hwithin,
    plan_readObject_contentOf hproper hnames htags hplan (by decide) album_isOf hshown hwithin⟩

/-- The mood of a song is calm, or calm. -/
def songDocument : Document where
  roots := ["song"]
  elements := ⟨[("song",
    { identifier := "song", name := "song", attributeRelations := [{ target := "mood" }] })]⟩
  attributes := ⟨[("mood",
    { identifier := "mood", name := "mood", facet := some { values := ["calm", "calm"] } })]⟩

def songClass : Binding.Class where
  name := "Song"
  element := "song"
  tag := "song"
  root := true
  attributes := [⟨"mood", "mood", .one, .attr "mood"
    (.enumeration { name := "SongMood", label := "mood", values := ["calm", "calm"] })⟩]

/-- **Where a facet lists a value twice, the second variant is lost**: both are
    written with the same text, from which the first is read. -/
theorem second_calm_lost :
    songDocument.Keyed ∧ songDocument.validate = .ok () ∧ songDocument.DistinctClassNames ∧
      songDocument.DistinctTags ∧ (plan { document := songDocument }).1 = .ok [songClass] ∧
      (Datum.object "Song" [.variant "Calm1"]).IsOf [songClass] LosslessIn songClass ∧
      isHidden [songClass] (.object "Song" [.variant "Calm1"]) = false ∧
      ShownWithin [songClass] (.object "Song" [.variant "Calm1"]) ∧
      ∃ tree, contentOf [songClass] (.object "Song" [.variant "Calm1"]) = [tree] ∧
        readObject [songClass] "Song" tree.node = .ok (.object "Song" [.variant "Calm"]) := by
  have honly : ∀ id e, songDocument.elements.get? id = some e → id = "song" ∧
      (e.elementRelations.map songDocument.childTag).Nodup ∧
      (e.attributeRelations.map songDocument.attributeName).Nodup := by
    intro id e h
    cases List.mem_singleton.1 (Table.mem_entries_of_get? h)
    decide
  refine ⟨Document.keyed_of_entries (by decide), by decide,
    fun _ _ ha hb _ => (honly _ _ ha).1.trans (honly _ _ hb).1.symm,
    fun id e h => (honly id e h).2, by decide +kernel, ?_, rfl, ?_, _, rfl, rfl⟩
  · exact ⟨_, rfl, ⟨_, rfl, rfl, "calm", by decide, by decide⟩, trivial⟩
  · simp [ShownWithin, FieldsShown]

end Bindery.Instance
