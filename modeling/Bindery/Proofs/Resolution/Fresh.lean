/-
  Grammars as they are read are fresh.

  The readers of the grammar languages only add references that nothing has
  dealt with yet, at any depth of the start and of the definitions
  (`ElementPattern.Fresh`, `Definitions.Fresh`), and a body has the name of its
  definition (`Definitions.FreshAs`).

  * `keptFresh`: the steps of readers keep trees fresh;
  * `readGrammar_freshAs`: the bodies of a grammar that is read are fresh and
    have the names of their definitions;
  * `readGrammar_fresh`: a grammar that is read is fresh.
-/
import Bindery.Proofs.Resolution.Kept

namespace Bindery.Schema

/-- No reference of the element, or of an element below it, has been dealt
    with. -/
def ElementPattern.Fresh (e : ElementPattern) : Prop :=
  ∀ x ∈ e.walk, ∀ r ∈ x.references, r.substituted = false

/-- A fresh element that has the name `own`. -/
def ElementPattern.FreshAs (own : String) (e : ElementPattern) : Prop :=
  e.Fresh ∧ e.name = own

def Definitions.Fresh (ds : Definitions) : Prop :=
  ∀ name bodies, ds.get? name = some bodies → ∀ body ∈ bodies, body.Fresh

/-- The bodies of all definitions are fresh and have the names of their
    definitions. -/
def Definitions.FreshAs (ds : Definitions) : Prop :=
  ∀ name bodies, ds.get? name = some bodies → ∀ body ∈ bodies, body.FreshAs name

namespace ElementPattern

theorem fresh_iff {e : ElementPattern} :
    e.Fresh ↔ (∀ r ∈ e.references, r.substituted = false) ∧ ∀ c ∈ e.elements, c.Fresh :=
  forall_mem_walk

variable {own : String} {e e' c : ElementPattern}

theorem FreshAs.of_eq (h : e.FreshAs own) (hn : e'.name = e.name)
    (hr : e'.references = e.references) (hc : e'.elements = e.elements) : e'.FreshAs own := by
  refine ⟨?_, hn.trans h.2⟩
  rw [fresh_iff, hr, hc]
  exact fresh_iff.1 h.1

theorem FreshAs.addElement (h : e.FreshAs own) (hc : c.Fresh) :
    FreshAs own { e with elements := e.elements ++ [c] } := by
  obtain ⟨hr, he⟩ := fresh_iff.1 h.1
  refine ⟨fresh_iff.2 ⟨hr, fun x hx => ?_⟩, h.2⟩
  rcases List.mem_append.1 hx with hx | hx
  · exact he x hx
  · rw [List.mem_singleton.1 hx]
    exact hc

theorem FreshAs.addReference (h : e.FreshAs own) (name : String) (pattern : Pattern) :
    FreshAs own { e with references := e.references ++ [{ name, pattern }] } := by
  obtain ⟨hr, he⟩ := fresh_iff.1 h.1
  refine ⟨fresh_iff.2 ⟨fun r hm => ?_, he⟩, h.2⟩
  rcases List.mem_append.1 hm with hm | hm
  · exact hr r hm
  · rw [List.mem_singleton.1 hm]

theorem freshAs_of_nil (hr : e.references = []) (hc : e.elements = []) : e.FreshAs e.name := by
  refine ⟨?_, rfl⟩
  rw [fresh_iff, hr, hc]
  exact ⟨nofun, nofun⟩

end ElementPattern

/-- Readers add references that nothing has dealt with, and name bodies after
    their definitions. -/
def keptFresh : Kept where
  Tree := ElementPattern.FreshAs
  Values _ := True
  free := trivial
  blank := trivial
  push _ _ := trivial
  combinable _ := trivial
  proper _ := trivial
  empty _ _ := ElementPattern.freshAs_of_nil rfl rfl
  values _ := trivial
  retype h hname hreferences helements _ _ := h.of_eq hname hreferences helements
  addElement h hc := h.addElement hc.1
  addAttribute h _ := h.of_eq rfl rfl rfl
  addReference name pattern h := h.addReference name pattern

theorem readGrammar_freshAs {dialect : Option Dialect} {root : Markup.Node} {g : Grammar}
    (h : (readGrammar dialect root).1 = .ok g) : g.start.FreshAs "" ∧ g.definitions.FreshAs :=
  readGrammar_kept keptFresh h

theorem readGrammar_fresh {dialect : Option Dialect} {root : Markup.Node} {g : Grammar}
    (h : (readGrammar dialect root).1 = .ok g) : g.start.Fresh ∧ g.definitions.Fresh := by
  obtain ⟨hstart, hdefs⟩ := readGrammar_freshAs h
  exact ⟨hstart.1, fun name bodies hd body hb => (hdefs name bodies hd body hb).1⟩

end Bindery.Schema
