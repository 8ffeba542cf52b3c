/-
  Documents are built properly.

  The loop that builds a document enters every entity under its own identifier,
  with the values that its pattern lists, and relations are all that it changes
  afterwards.  So a document is proper (`Document.Proper`) at every turn of the
  loop, if the grammar lists no value twice.

  * `build_proper`: the document of a grammar is proper;
  * `readDocument_proper`: so is the document of any schema that is read.
-/
import Bindery.Proofs.Binding.Steps
import Bindery.Proofs.Document.Entity
import Bindery.Proofs.Resolution.Distinct

namespace Bindery

theorem Table.exists_of_get?_modify {α : Type} {t : Table α} {key other : String} {f : α → α}
    {found : α} (h : (t.modify key f).get? other = some found) :
    ∃ old, t.get? other = some old ∧ (found = old ∨ found = f old) := by
  unfold Table.modify at h
  split at h
  · rename_i old hget
    rcases Table.get?_insert_cases h with ⟨rfl, rfl⟩ | ⟨-, hold⟩
    · exact ⟨old, hget, .inr rfl⟩
    · exact ⟨found, hold, .inl rfl⟩
  · exact ⟨found, h, .inl rfl⟩

namespace Schema

open ElementPattern

/-! ## Content -/

section
variable {ds : Definitions} {e : ElementPattern} (hds : ds.Distinct) (he : e.Distinct)
include hds he

theorem distinct_of_content {c : ElementPattern} {p : Pattern}
    (h : (c, p) ∈ contentElements ds e) : c.Distinct := by
  rcases mem_contentElements.1 h with ⟨hc, -⟩ | ⟨r, -, body, hb, hc, -⟩
  · exact (distinct_iff.1 he).2.2 c hc
  · exact (distinct_iff.1 (hds.body hb)).2.2 c hc

theorem distinct_of_contentAttribute {a : AttributePattern} {p : Pattern}
    (h : (a, p) ∈ contentAttributes ds e) : Facet.Distinct a.facet := by
  rcases mem_contentAttributes.1 h with ⟨ha, -⟩ | ⟨r, -, body, hb, ha, -⟩
  · exact (distinct_iff.1 he).2.1 a ha
  · exact (distinct_iff.1 (hds.body hb)).2.1 a ha

end

/-! ## The loop -/

section
variable {ds : Definitions} {b : Building} {e : ElementPattern}

theorem Document.Proper.enter (h : b.document.Proper) (hds : ds.Distinct) (he : e.Distinct) :
    (b.enter ds e).document.Proper := by
  have hentity : ∀ id entity, (b.enter ds e).document.elements.get? id = some entity →
      entity = enteredEntity e id ∨ b.document.elements.get? id = some entity := by
    intro id entity hget
    rcases Table.get?_insert_cases hget with ⟨rfl, rfl⟩ | ⟨-, hold⟩
    · exact .inl rfl
    · exact .inr hold
  refine ⟨fun id entity hget => ?_, fun id entity hget => ?_, fun id a hget => ?_⟩
  · rcases hentity id entity hget with rfl | hold
    · rfl
    · exact h.keyed id entity hold
  · rcases hentity id entity hget with rfl | hold
    · exact (distinct_iff.1 he).1.proper
    · exact h.elementFacet id entity hold
  · have hadded : (b.enter ds e).document.attributes.get? id =
        (addAttributes (b.built.fresh e) (contentAttributes ds e)
          b.document.attributes).1.get? id := rfl
    rw [hadded, get?_addAttributes, Option.or_eq_some_iff] at hget
    rcases hget with hold | ⟨-, hnew⟩
    · exact h.attributeFacet id a hold
    · obtain ⟨⟨pattern, p⟩, hfind, rfl⟩ := Option.map_eq_some_iff.1 hnew
      exact (distinct_of_contentAttribute hds he (List.mem_of_find?_eq_some hfind)).proper

theorem Document.Proper.complete (h : b.document.Proper) :
    (b.complete ds e).document.Proper := by
  have hentity : ∀ id entity, (b.complete ds e).document.elements.get? id = some entity →
      ∃ old, b.document.elements.get? id = some old ∧ entity.identifier = old.identifier ∧
        entity.facet = old.facet := by
    intro id entity hget
    obtain ⟨old, hold, rfl | rfl⟩ := Table.exists_of_get?_modify hget
    · exact ⟨entity, hold, rfl, rfl⟩
    · exact ⟨old, hold, rfl, rfl⟩
  refine ⟨fun id entity hget => ?_, fun id entity hget => ?_, h.attributeFacet⟩
  · obtain ⟨old, hold, hidentifier, -⟩ := hentity id entity hget
    rw [hidentifier]
    exact h.keyed id old hold
  · obtain ⟨old, hold, -, hfacet⟩ := hentity id entity hget
    rw [hfacet]
    exact h.elementFacet id old hold

end

theorem build_proper {g : Grammar} (hstart : g.start.Distinct) (hdefs : g.definitions.Distinct) :
    g.build.1.Proper := by
  let I : List (Task g) → Building → Prop := fun agenda b =>
    (∀ s, .visit s ∈ agenda → s.val.Distinct) ∧ b.document.Proper
  have hfinished : I [] g.finished := by
    refine build_invariant (I := I) ?_ ?_ ?_ _ _ ⟨?_, ?_⟩
    · rintro s rest b ⟨hvisits, hproper⟩
      exact ⟨fun t ht => hvisits t (List.mem_cons_of_mem _ ht), hproper.complete⟩
    · rintro s rest b - ⟨hvisits, hproper⟩
      exact ⟨fun t ht => hvisits t (List.mem_cons_of_mem _ ht), hproper⟩
    · rintro s rest b - ⟨hvisits, hproper⟩
      have hs := hvisits s List.mem_cons_self
      refine ⟨fun t ht => ?_, hproper.enter hdefs hs⟩
      rcases List.mem_append.1 ht with ht | ht
      · obtain ⟨c, hc, heq⟩ := List.mem_map.1 ht
        cases heq
        obtain ⟨⟨⟨c, p⟩, hm⟩, -, rfl⟩ := List.mem_map.1 hc
        exact distinct_of_content hdefs hs hm
      · exact hvisits t (List.mem_cons_of_mem _ ((List.mem_cons.1 ht).resolve_left nofun))
    · intro s hs
      obtain ⟨c, hc, heq⟩ := List.mem_map.1 hs
      cases heq
      obtain ⟨⟨⟨c, p⟩, hm⟩, -, rfl⟩ := List.mem_map.1 hc
      exact distinct_of_content hdefs hstart hm
    · exact ⟨(fun _ _ h => by cases h), (fun _ _ h => by cases h), (fun _ _ h => by cases h)⟩
  exact ⟨hfinished.2.keyed, hfinished.2.elementFacet, hfinished.2.attributeFacet⟩

theorem exists_grammar {dialect : Option Dialect} {allowDtd : Bool} {text : String}
    {d : Document} (h : (readDocument dialect allowDtd text).1 = .ok d) :
    ∃ root g, (readGrammar dialect root).1 = .ok g ∧ d = g.resolve.1.build.1 := by
  delta readDocument at h
  split at h
  · cases h
  · rename_i root _
    delta readSchema at h
    split at h
    · cases h
    · rename_i g notices hgrammar
      delta buildDocument at h
      dsimp only at h
      split at h
      · cases h
      · cases h
        exact ⟨root, g, congrArg Prod.fst hgrammar, rfl⟩

/-- The grammar of a schema in markup, if it is read. -/
def grammarOf (text : String) : Option Grammar :=
  (readRoot false text).toOption.bind fun root => (readGrammar none root).1.toOption

theorem eq_ok_of_toOption {ε α : Type} {x : Except ε α} {a : α} (h : x.toOption = some a) :
    x = .ok a := by
  cases x with
  | error e => cases h
  | ok b => exact congrArg Except.ok (Option.some.inj h)

theorem readDocument_eq {text : String} {grammar : Grammar} {document : Document}
    (hgrammar : grammarOf text = some grammar) (hbuild : grammar.resolve.1.build.1 = document)
    (hvalid : document.validate.isOk = true) :
    (readDocument none false text).1 = .ok document := by
  obtain ⟨root, hroot, hread⟩ := Option.bind_eq_some_iff.1 hgrammar
  have hdocument : (buildDocument grammar.resolve.1).1 = .ok document := by
    unfold buildDocument
    cases hv : document.validate with
    | error e => rw [hv] at hvalid; cases hvalid
    | ok => simp only [hbuild, hv]
  have hpair := eq_ok_of_toOption hread
  delta readDocument
  rw [eq_ok_of_toOption hroot]
  dsimp only
  unfold readSchema
  split
  · next heq => rw [heq] at hpair; cases hpair
  · next heq =>
    rw [heq] at hpair
    cases hpair
    exact hdocument

/-- The characters of a text are at hand once it is given by them: reading a
    long text is evaluated on these. -/
theorem toList_eq_of_ofList {s : String} {cs : List Char} (h : s = String.ofList cs) :
    s.toList = cs := by
  rw [h, String.toList_ofList]

/-- **The document of a schema is proper**, in whatever language the schema is
    written. -/
theorem readDocument_proper {dialect : Option Dialect} {allowDtd : Bool} {text : String}
    {d : Document} (h : (readDocument dialect allowDtd text).1 = .ok d) : d.Proper := by
  obtain ⟨root, g, hgrammar, rfl⟩ := exists_grammar h
  obtain ⟨hstart, hdefs⟩ := readGrammar_distinct hgrammar
  obtain ⟨hstart', hdefs'⟩ := resolve_distinct hstart hdefs
  exact build_proper hstart' hdefs'

end Schema

end Bindery
