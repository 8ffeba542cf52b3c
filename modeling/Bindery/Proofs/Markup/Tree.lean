/-
  Content, and the trees that show it.

  `Content.node` is the tree that content describes.  A tree that is read from
  a text has namespaces and positions besides; `Content.Shows` says that a tree
  has the tags, attributes and texts of the content, whatever else it has.
-/
import Bindery.Markup.Node
import Bindery.Markup.Writer

namespace Bindery.Markup

mutual

def Content.node : Content → Node
  | .text s => .text s
  | .element tag attributes content =>
    .element { name := tag, attributes := attributes.map fun (name, value) => { name, value } }
      (nodes content)

def nodes : List Content → List Node
  | [] => []
  | c :: cs => c.node :: nodes cs

end

mutual

def Content.Shows : Content → Node → Prop
  | .text s, .text t => s = t
  | .element tag attributes content, .element head children =>
    head.name = tag ∧ head.attributes.map (fun a => (a.name, a.value)) = attributes ∧
      ShowsAll content children
  | _, _ => False

def ShowsAll : List Content → List Node → Prop
  | [], [] => True
  | c :: cs, n :: ns => c.Shows n ∧ ShowsAll cs ns
  | _, _ => False

end

mutual

theorem Content.shows_node : ∀ c : Content, c.Shows c.node
  | .text _ => rfl
  | .element _ attributes content => by
    refine ⟨rfl, ?_, showsAll_nodes content⟩
    rw [List.map_map]
    exact List.map_id attributes

theorem showsAll_nodes : ∀ cs : List Content, ShowsAll cs (nodes cs)
  | [] => trivial
  | c :: cs => ⟨c.shows_node, showsAll_nodes cs⟩

end

def Content.isElement : Content → Bool
  | .element .. => true
  | .text _ => false

theorem Content.Shows.isElement : ∀ {c : Content} {n : Node}, c.Shows n →
    n.isElement = c.isElement
  | .text _, .text _, _ => rfl
  | .element .., .element .., _ => rfl

theorem ShowsAll.nil_left {ns : List Node} (h : ShowsAll [] ns) : ns = [] := by
  cases ns with
  | nil => rfl
  | cons => exact h.elim

theorem ShowsAll.singleton_left {c : Content} {ns : List Node} (h : ShowsAll [c] ns) :
    ∃ n, ns = [n] ∧ c.Shows n := by
  match ns, h with
  | [n], h => exact ⟨n, rfl, h.1⟩
  | _ :: _ :: _, h => exact h.2.elim

theorem ShowsAll.append_left : ∀ {cs ds : List Content} {ns : List Node}, ShowsAll (cs ++ ds) ns →
    ∃ ns₁ ns₂, ns = ns₁ ++ ns₂ ∧ ShowsAll cs ns₁ ∧ ShowsAll ds ns₂
  | [], _, ns, h => ⟨[], ns, rfl, trivial, h⟩
  | _ :: _, _, n :: _, h => by
    obtain ⟨ns₁, ns₂, rfl, h₁, h₂⟩ := ShowsAll.append_left h.2
    exact ⟨n :: ns₁, ns₂, rfl, ⟨h.1, h₁⟩, h₂⟩

theorem ShowsAll.exists_shows : ∀ {cs : List Content} {ns : List Node}, ShowsAll cs ns →
    ∀ n ∈ ns, ∃ c ∈ cs, c.Shows n
  | [], [], _, _, hn => by cases hn
  | c :: _, _ :: _, h, n, hn => by
    rcases List.mem_cons.1 hn with rfl | hn
    · exact ⟨c, List.mem_cons_self, h.1⟩
    · obtain ⟨d, hd, hshows⟩ := h.2.exists_shows n hn
      exact ⟨d, List.mem_cons_of_mem _ hd, hshows⟩

/-! ## Texts -/

def joinTexts (acc : String) (ns : List Node) : String :=
  ns.foldl (fun acc child => match child with
    | .text content => acc ++ content
    | _ => acc) acc

theorem textContent_eq (head : Head) (ns : List Node) :
    (Node.element head ns).textContent = joinTexts "" ns := rfl

theorem joinTexts_append (acc : String) (ns ms : List Node) :
    joinTexts acc (ns ++ ms) = joinTexts (joinTexts acc ns) ms :=
  List.foldl_append

theorem joinTexts_elements {cs : List Content} (hcs : ∀ c ∈ cs, c.isElement = true) :
    ∀ {ns : List Node}, ShowsAll cs ns → ∀ acc, joinTexts acc ns = acc := by
  induction cs with
  | nil =>
    intro ns h acc
    rw [h.nil_left]
    rfl
  | cons c cs ih =>
    intro ns h acc
    match c, ns, h, hcs c List.mem_cons_self with
    | .element .., .element .. :: ns, h, _ =>
      exact ih (fun d hd => hcs d (List.mem_cons_of_mem _ hd)) h.2 acc

end Bindery.Markup
