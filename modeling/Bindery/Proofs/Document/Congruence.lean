/-
  What a document depends on.

  Building looks at a grammar only through content: the element patterns and
  the attributes that its definitions give the start and the patterns reached
  from it.  Grammars that agree in these have the same document, whatever else
  they define.

  * `build_congr_loop`: the loops of two such grammars stay in step;
  * `build_congr`: their documents are equal.
-/
import Bindery.Proofs.Document.Visits

namespace Bindery.Schema

open ElementPattern

def Task.view {g : Grammar} : Task g → Bool × ElementPattern
  | .visit s => (true, s.val)
  | .complete s => (false, s.val)

theorem Site.content_val {g : Grammar} (s : Site g) :
    s.content.map (·.val) = (contentElements g.definitions s.val).map (·.1) := by
  simp only [Site.content, List.map_map]
  exact List.attach_map_val (f := Prod.fst)

theorem Grammar.startContent_val (g : Grammar) :
    g.startContent.map (·.val) = (contentElements g.definitions g.start).map (·.1) := by
  simp only [Grammar.startContent, List.map_map]
  exact List.attach_map_val (f := Prod.fst)

theorem view_visits {g : Grammar} (ss : List (Site g)) :
    (ss.map Task.visit).map Task.view = (ss.map (·.val)).map fun x => (true, x) := by
  simp only [List.map_map]
  rfl

def SameContentIn (ds ds' : Definitions) (x : ElementPattern) : Prop :=
  contentElements ds x = contentElements ds' x ∧ contentAttributes ds x = contentAttributes ds' x

structure Building.Same (b b' : Building) : Prop where
  document : b.document = b'.document
  built : b.built = b'.built

section
variable {ds ds' : Definitions} {b b' : Building} {x : ElementPattern}

theorem Building.Same.enter (h : b.Same b') (hx : SameContentIn ds ds' x) :
    (b.enter ds x).Same (b'.enter ds' x) where
  document := by simp only [Building.enter, h.document, h.built, hx.2]
  built := by simp only [Building.enter, h.built]

theorem Building.Same.complete (h : b.Same b') (hx : SameContentIn ds ds' x) :
    (b.complete ds x).Same (b'.complete ds' x) where
  document := by simp only [Building.complete, h.document, h.built, hx.1, hx.2]
  built := h.built

end

section
variable {g g' : Grammar}

/-- **Loops over the same tasks stay in step**, if the definitions give the same
    content to what is reached. -/
theorem build_congr_loop
    (hsame : ∀ x, g.Reached x → SameContentIn g.definitions g'.definitions x)
    (agenda : List (Task g)) (b : Building) :
    ∀ (agenda' : List (Task g')) (b' : Building), (∀ t ∈ agenda, g.Reached t.view.2) →
      agenda.map Task.view = agenda'.map Task.view → b.Same b' →
      (build g agenda b).Same (build g' agenda' b') := by
  fun_induction build g agenda b with
  | case1 b =>
    intro agenda' b' _ hviews hb
    cases List.map_eq_nil_iff.1 hviews.symm
    rw [build]
    exact hb
  | case2 b s rest ih =>
    intro agenda' b' hreached hviews hb
    obtain ⟨t, rest', rfl, ht, hrest⟩ := List.map_eq_cons_iff.1 hviews.symm
    have hs : g.Reached s.val := hreached (.complete s) List.mem_cons_self
    cases t with
    | visit t => cases congrArg Prod.fst ht
    | complete t =>
      have hval : t.val = s.val := congrArg Prod.snd ht
      rw [build, hval]
      exact ih rest' _ (fun t ht => hreached t (List.mem_cons_of_mem _ ht)) hrest.symm
        (hb.complete (hsame _ hs))
  | case3 b s rest id hid ih =>
    intro agenda' b' hreached hviews hb
    obtain ⟨t, rest', rfl, ht, hrest⟩ := List.map_eq_cons_iff.1 hviews.symm
    cases t with
    | complete t => cases congrArg Prod.fst ht
    | visit t =>
      have hval : t.val = s.val := congrArg Prod.snd ht
      rw [build]
      split
      · exact ih rest' b' (fun t ht => hreached t (List.mem_cons_of_mem _ ht)) hrest.symm hb
      · rename_i hnone
        rw [hval, ← hb.built, hid] at hnone
        cases hnone
  | case4 b s rest hnone ih =>
    intro agenda' b' hreached hviews hb
    obtain ⟨t, rest', rfl, ht, hrest⟩ := List.map_eq_cons_iff.1 hviews.symm
    have hs : g.Reached s.val := hreached (.visit s) List.mem_cons_self
    cases t with
    | complete t => cases congrArg Prod.fst ht
    | visit t =>
      have hval : t.val = s.val := congrArg Prod.snd ht
      rw [build]
      split
      · rename_i id hid
        rw [hval, ← hb.built, hnone] at hid
        cases hid
      · rw [hval]
        refine ih _ _ (fun task htask => ?_) ?_ (hb.enter (hsame _ hs))
        · rcases List.mem_append.1 htask with htask | htask
          · obtain ⟨c, hc, rfl⟩ := List.mem_map.1 htask
            obtain ⟨p, hp⟩ := Site.of_mem_content hc
            exact hs.content hp
          · rcases List.mem_cons.1 htask with rfl | htask
            · exact hs
            · exact hreached task (List.mem_cons_of_mem _ htask)
        · have hcontent : s.content.map (·.val) = t.content.map (·.val) := by
            rw [Site.content_val, Site.content_val, hval, (hsame _ hs).1]
          rw [List.map_append, List.map_append, view_visits, view_visits, hcontent, List.map_cons,
            List.map_cons, hrest]
          exact congrArg (fun x => _ ++ (false, x) :: _) hval.symm

/-- **A document depends on content**: grammars with the same content of the
    start and of what is reached from it have the same document. -/
theorem build_congr
    (hstart : contentElements g.definitions g.start = contentElements g'.definitions g'.start)
    (hsame : ∀ x, g.Reached x → SameContentIn g.definitions g'.definitions x) :
    g.build.1 = g'.build.1 := by
  have hvals : g.startContent.map (·.val) = g'.startContent.map (·.val) := by
    rw [Grammar.startContent_val, Grammar.startContent_val, hstart]
  have hreached : ∀ t ∈ g.startContent.map Task.visit, g.Reached t.view.2 := by
    intro t ht
    obtain ⟨s, hs, rfl⟩ := List.mem_map.1 ht
    obtain ⟨p, hp⟩ := Grammar.of_mem_startContent hs
    exact .start hp
  have hloop : g.finished.Same g'.finished :=
    build_congr_loop hsame _ _ _ _ hreached (by rw [view_visits, view_visits, hvals]) ⟨rfl, rfl⟩
  have hroots : ∀ g : Grammar, g.build.1.roots = distinct
      ((g.startContent.map (·.val)).map fun x => (g.finished.built.identifier? x).getD x.name) := by
    intro g
    rw [List.map_map]
    rfl
  have hbuild : ∀ g : Grammar, g.build.1 = { g.finished.document with roots := g.build.1.roots } :=
    fun _ => rfl
  rw [hbuild g, hbuild g', hroots g, hroots g', hloop.document, hloop.built, hvals]

end

end Bindery.Schema
