/-
  Building depth first.

  A document can be built by a recursion: to visit an element that is new is to
  enter it, to visit its content, and to give it relations to the identifiers
  that these visits return.  References lead from a pattern back into the bodies
  of definitions, so that nothing becomes smaller from visit to visit, and the
  recursion is a least fixed point, in which `none` stands for a visit without
  end.

  * `visit_ends`: a visit ends, since there are fewer patterns that are not built
    for every visit inside it, and leaves what the loop over the agenda leaves;
  * `build_depth_first`: the recursion ends for every grammar with its document,
    which has at most as many elements as the grammar has element patterns.
-/
import Bindery.Proofs.Document.Entity

namespace Bindery.Schema

/-- The identifier that an element has when all is built. -/
def Building.identifier (b : Building) (e : ElementPattern) : String :=
  (b.built.identifier? e).getD e.name

/-- Gives the element `id` the relations of `e`, to these targets. -/
def Building.relate (ds : Definitions) (e : ElementPattern) (id : String)
    (targets : List (String × Pattern)) (b : Building) : Building :=
  { b with
    document := { b.document with
      elements := b.document.elements.modify id fun entity =>
        { entity with
          elementRelations := elementRelations targets
          attributeRelations := attributeRelations id (contentAttributes ds e) } } }

def ElementPattern.visit (ds : Definitions) (e : ElementPattern) :
    StateT Building Option String := do
  let b ← get
  match b.built.identifier? e with
  | some id => return id
  | none =>
    let id := b.built.fresh e
    set (b.enter ds e)
    let targets ← (contentElements ds e).mapM fun c => do
      let target ← c.1 |>.visit ds
      return (target, c.2)
    modify (Building.relate ds e id targets)
    return id
partial_fixpoint

def visitAll (ds : Definitions) (content : List (ElementPattern × Pattern)) :
    StateT Building Option (List (String × Pattern)) :=
  content.mapM fun c => do
    let target ← c.1.visit ds
    return (target, c.2)

/-- The document of a grammar by visits to the content of its start, and what
    there is to tell. -/
def Grammar.buildDepthFirst (g : Grammar) : Option (Document × List Notice) := do
  let found ← (visitAll g.definitions (contentElements g.definitions g.start)).run
    { notices := contentNotices g.definitions g.start }
  return ({ found.2.document with roots := distinct (found.1.map (·.1)) }, found.2.notices)

/-! ## Visits -/

def Building.Keeps (b b' : Building) : Prop :=
  ∀ x id, b.built.identifier? x = some id → b'.built.identifier? x = some id

theorem Building.Keeps.trans {b b' b'' : Building} (h : b.Keeps b') (h' : b'.Keeps b'') :
    b.Keeps b'' :=
  fun x id hx => h' x id (h x id hx)

theorem Building.Keeps.unbuilt_le {b b' : Building} (h : b.Keeps b') (es : List ElementPattern) :
    unbuilt b'.built es ≤ unbuilt b.built es := by
  induction es with
  | nil => exact Nat.le_refl _
  | cons e es ih =>
    rw [unbuilt, unbuilt]
    cases he : b.built.identifier? e with
    | none => cases (b'.built.identifier? e).isSome <;> simp <;> omega
    | some id =>
      rw [h e id he]
      simpa using ih

theorem Building.keeps_enter (ds : Definitions) (e : ElementPattern) (b : Building) :
    b.Keeps (b.enter ds e) := by
  intro x id hx
  simp only [Building.enter, Built.identifier?_append, hx, Option.some_or]

variable {g : Grammar}

/-- Whether a visit to the element ends, and with what the loop makes of it. -/
def Ends (s : Site g) (b : Building) : Prop :=
  ∃ b', (s.val.visit g.definitions).run b = some (b'.identifier s.val, b') ∧
    (b'.built.identifier? s.val).isSome ∧ b.Keeps b' ∧
    ∀ rest, build g (.visit s :: rest) b = build g rest b'

/-- **Visits end one after the other**, if each of them does while not more
    patterns are unbuilt than in the beginning. -/
theorem visits_end : ∀ (ss : List (Site g × Pattern)) (b : Building),
    (∀ (b' : Building) (s : Site g),
      unbuilt b'.built (patterns g) ≤ unbuilt b.built (patterns g) → Ends s b') →
    ∃ b', (visitAll g.definitions (ss.map fun x => (x.1.val, x.2))).run b =
        some (ss.map fun x => (b'.identifier x.1.val, x.2), b') ∧ b.Keeps b' ∧
      ∀ rest, build g (ss.map (.visit ·.1) ++ rest) b = build g rest b'
  | [], b, _ => ⟨b, rfl, fun _ _ h => h, fun _ => rfl⟩
  | x :: ss, b, h => by
    obtain ⟨b₁, hx, hsome, hkeeps, hbuild⟩ := h b x.1 (Nat.le_refl _)
    obtain ⟨b₂, hss, hkeeps', hbuild'⟩ := visits_end ss b₁
      fun b' s hle => h b' s (Nat.le_trans hle (hkeeps.unbuilt_le _))
    have hid : b₂.identifier x.1.val = b₁.identifier x.1.val := by
      obtain ⟨id, hid⟩ := Option.isSome_iff_exists.1 hsome
      rw [Building.identifier, Building.identifier, hid, hkeeps' _ _ hid]
    refine ⟨b₂, ?_, hkeeps.trans hkeeps', fun rest => ?_⟩
    · rw [visitAll] at hss
      simp only [visitAll, List.map_cons, List.mapM_cons, StateT.run_bind, StateT.run_pure,
        Option.bind_eq_bind, Option.pure_def, Option.bind_some, hx, hss, hid]
    · rw [List.map_cons, List.cons_append, hbuild, hbuild']

theorem exists_sites {cs : List (ElementPattern × Pattern)}
    (h : ∀ c p, (c, p) ∈ cs → c ∈ patterns g) : ∃ ss : List (Site g × Pattern),
      cs = ss.map (fun x => (x.1.val, x.2)) ∧
      ss.map (·.1) = cs.attach.map fun ⟨(c, p), hc⟩ => ⟨c, h c p hc⟩ := by
  refine ⟨cs.attach.map fun c => (⟨c.1.1, h _ _ c.2⟩, c.1.2), ?_, ?_⟩
  · rw [List.map_map]
    exact (List.attach_map_subtype_val cs).symm
  · rw [List.map_map]
    exact List.map_congr_left fun c _ => rfl

theorem visit_new {ds : Definitions} {e : ElementPattern} {b : Building}
    (h : b.built.identifier? e = none) :
    (e.visit ds).run b = ((visitAll ds (contentElements ds e)).run (b.enter ds e)).map fun x =>
      (b.built.fresh e, x.2.relate ds e (b.built.fresh e) x.1) := by
  rw [ElementPattern.visit]
  simp only [StateT.run_bind, StateT.run_get, StateT.run_set, StateT.run_modify, StateT.run_pure,
    pure_bind, h, visitAll]
  exact Option.map_eq_bind.symm

theorem visit_ends (s : Site g) (b : Building) : Ends s b := by
  -- on the patterns that are not built, of which there are fewer once the element is entered
  induction hn : unbuilt b.built (patterns g) using Nat.strongRecOn generalizing s b with
  | ind n ih =>
    subst hn
    cases hs : b.built.identifier? s.val with
    | some id =>
      refine ⟨b, ?_, Option.isSome_of_eq_some hs, fun _ _ h => h, fun rest => ?_⟩
      · rw [ElementPattern.visit, StateT.run_bind, StateT.run_get, pure_bind, Building.identifier]
        simp only [hs]
        rfl
      · rw [build]
        split
        · rfl
        · rename_i hnone
          rw [hs] at hnone
          cases hnone
    | none =>
      obtain ⟨ss, hcontent, hsites⟩ := exists_sites fun _ _ hc =>
        mem_patterns_of_content (fun _ hm => mem_patterns_child s.property hm) hc
      have hfewer := unbuilt_append_lt (b.built.fresh s.val) s.property hs
      obtain ⟨b₁, hrun, hkeeps, hbuild⟩ := visits_end ss (b.enter g.definitions s.val)
        fun b' s' hle => ih _ (Nat.lt_of_le_of_lt hle hfewer) s' b' rfl
      have hid : b₁.built.identifier? s.val = some (b.built.fresh s.val) := by
        refine hkeeps _ _ ?_
        simp only [Building.enter, Built.identifier?_append, hs, sameContent_self, Option.none_or,
          if_true]
      have hcomplete : b₁.complete g.definitions s.val =
          b₁.relate g.definitions s.val (b.built.fresh s.val)
            (ss.map fun x => (b₁.identifier x.1.val, x.2)) := by
        simp only [Building.complete, Building.relate, hid, hcontent, List.map_map]
        rfl
      refine ⟨b₁.complete g.definitions s.val, ?_, Option.isSome_of_eq_some hid,
        (b.keeps_enter g.definitions s.val).trans hkeeps, fun rest => ?_⟩
      · have hown : (b₁.complete g.definitions s.val).identifier s.val = b.built.fresh s.val :=
          congrArg (Option.getD · s.val.name) hid
        rw [visit_new hs, hcontent, hrun, hown, hcomplete, Option.map_some]
      · rw [build]
        split
        · rename_i id hsome
          rw [hs] at hsome
          cases hsome
        · rw [Site.content, ← hsites, List.map_map]
          exact (hbuild _).trans (by rw [build])

/-! ## The number of elements -/

theorem unbuilt_le_length (built : Built) (es : List ElementPattern) :
    unbuilt built es ≤ es.length := by
  induction es with
  | nil => exact Nat.le_refl _
  | cons e es ih =>
    rw [unbuilt, List.length_cons]
    split <;> omega

theorem built_le_patterns (g : Grammar) :
    g.finished.document.elements.size ≤ g.finished.built.length ∧
      g.finished.built.length ≤ (patterns g).length := by
  have hinvariant := build_invariant (g := g) (I := fun _ b =>
      b.document.elements.keys.length ≤ b.built.length ∧
        b.built.length + unbuilt b.built (patterns g) ≤ (patterns g).length)
    (fun s rest b h => ?_) (fun s rest b _ h => h) (fun s rest b hs h => ?_)
    (g.startContent.map .visit) { notices := contentNotices g.definitions g.start } ?_
  · rw [Table.size, ← List.length_map]
    exact ⟨hinvariant.1, Nat.le_trans (Nat.le_add_right _ _) hinvariant.2⟩
  · rw [Building.complete, Table.keys_modify]
    exact h
  · have hfewer := unbuilt_append_lt (b.built.fresh s.val) s.property hs
    refine ⟨?_, ?_⟩
    · simp only [Building.enter, Table.keys_insert, List.length_append, List.length_singleton]
      split
      · exact Nat.le_succ_of_le h.1
      · simpa using h.1
    · simp only [Building.enter, List.length_append, List.length_singleton]
      omega
  · exact ⟨Nat.le_refl _, by simpa using unbuilt_le_length [] (patterns g)⟩

/-- **Building ends for every grammar.**  Whatever the start and the definitions
    are, resolved or not, and however patterns lead back to themselves, visiting
    depth first has an end.  It ends with the document of the grammar and tells
    the same.  No more elements are built than there are element patterns in the
    content of the start and in the bodies of the definitions. -/
theorem build_depth_first (g : Grammar) :
    g.buildDepthFirst = some g.build ∧
      g.build.1.elements.size ≤ g.finished.built.length ∧
      g.finished.built.length ≤ (patterns g).length := by
  refine ⟨?_, built_le_patterns g⟩
  obtain ⟨ss, hcontent, hsites⟩ := exists_sites (g := g) fun _ _ hc =>
    mem_patterns_of_content
      (fun _ hm => List.mem_append_left _ (ElementPattern.mem_walkList_of_mem hm)) hc
  obtain ⟨b, hrun, -, hbuild⟩ := visits_end ss { notices := contentNotices g.definitions g.start }
    fun b' s _ => visit_ends s b'
  have hfinished : g.finished = b := by
    have hend := hbuild []
    rw [List.append_nil, build] at hend
    rw [Grammar.finished, Grammar.startContent, ← hsites, List.map_map]
    exact hend
  have hroots : g.startContent.map (fun s => b.identifier s.val) =
      (ss.map fun x => (b.identifier x.1.val, x.2)).map (·.1) := by
    rw [Grammar.startContent, ← hsites, List.map_map, List.map_map]
    rfl
  have hresult : g.build = ({ g.finished.document with
      roots := distinct (g.startContent.map fun s => g.finished.identifier s.val) },
    g.finished.notices) := rfl
  rw [hresult, hfinished, hroots, Grammar.buildDepthFirst, hcontent, hrun]
  rfl

end Bindery.Schema
