/-
  What a reader of grammars gives.

  `read_filter` says for all readers that go through the children of a node that
  only the elements among these matter.
  `ReadM.Gives x k a k'` says that `x` succeeds with `a` and counts the choices
  from `k` to `k'`; it may tell something, and it leaves the definitions as they
  are.  `Xsd.Gives` says the same of a reader of schemas, which besides leaves
  the simple types as they are.
-/
import Bindery.Proofs.Resolution.Fresh

namespace Bindery.Schema

open Markup (Node)

/-- A reader that takes nodes one by one and skips what is no element reads the
    elements among the nodes. -/
theorem read_filter {σ β : Type} {f : σ → List Node → β}
    (hcongr : ∀ t n ns ms, (∀ t, f t ns = f t ms) → f t (n :: ns) = f t (n :: ms))
    (hskip : ∀ t ns, (∀ s, f t (.text s :: ns) = f t ns) ∧ (∀ s, f t (.comment s :: ns) = f t ns) ∧
      f t (.instruction :: ns) = f t ns) (t : σ) (ns : List Node) :
    f t (ns.filter (·.isElement)) = f t ns := by
  induction ns generalizing t with
  | nil => rfl
  | cons n ns ih =>
    obtain ⟨htext, hcomment, hinstruction⟩ := hskip t ns
    cases n with
    | element head children => exact hcongr t _ _ _ ih
    | text s => exact (ih t).trans (htext s).symm
    | comment s => exact (ih t).trans (hcomment s).symm
    | instruction => exact (ih t).trans hinstruction.symm

/-- A reader that gives `a` and counts the choices from `k` to `k'`. -/
def ReadM.Gives {α : Type} (x : ReadM α) (k : Nat) (a : α) (k' : Nat) : Prop :=
  ∀ r : Reading, r.choices = k → ∃ notices, x.run r = (.ok a, { r with choices := k', notices })

namespace ReadM

variable {α β : Type} {a : α} {b : β} {k k' k'' : Nat}

theorem Gives.pure : Gives (Pure.pure a) k a k := by
  rintro r rfl
  exact ⟨r.notices, rfl⟩

theorem Gives.bind {x : ReadM α} {f : α → ReadM β} (hx : x.Gives k a k')
    (hf : (f a).Gives k' b k'') : (x >>= f).Gives k b k'' := by
  intro r hr
  obtain ⟨told, hx⟩ := hx r hr
  obtain ⟨further, hf⟩ := hf { r with choices := k', notices := told } rfl
  refine ⟨further, ?_⟩
  rw [run_bind, hx]
  exact hf

theorem gives_tell (n : Notice) : Gives (tell n) k () k := by
  rintro r rfl
  exact ⟨r.notices ++ [n], rfl⟩

theorem gives_nextChoice : Gives nextChoice k (k + 1) (k + 1) := by
  rintro r rfl
  exact ⟨r.notices, rfl⟩

theorem gives_ofExcept : Gives (ofExcept (.ok a)) k a k := .pure

theorem gives_dataType (name : String) : Gives (dataType name) k (DataType.ofName name) k := by
  rw [dataType, DataType.ofName]
  cases DataType.ofName? name with
  | some type => exact .pure
  | none => exact .bind (gives_tell _) .pure

end ReadM

/-- A reader of schemas that gives `a` and counts the choices from `k` to `k'`. -/
def Xsd.Gives {α : Type} (x : Xsd.XsdM α) (k : Nat) (a : α) (k' : Nat) : Prop :=
  ∀ s : Xsd.Simple, ReadM.Gives (x.run s) k (a, s) k'

namespace Xsd

variable {α β : Type} {a : α} {b : β} {k k' k'' : Nat}

theorem Gives.pure : Gives (Pure.pure a) k a k :=
  fun _ => ReadM.Gives.pure

theorem Gives.bind {x : XsdM α} {f : α → XsdM β} (hx : Gives x k a k')
    (hf : Gives (f a) k' b k'') : Gives (x >>= f) k b k'' :=
  fun s => ReadM.Gives.bind (hx s) (hf s)

theorem Gives.lift {x : ReadM α} (hx : x.Gives k a k') : Gives (liftM x) k a k' :=
  fun _ => ReadM.Gives.bind hx ReadM.Gives.pure

theorem gives_tell (n : Notice) : Gives (tell n) k () k :=
  .lift (ReadM.gives_tell n)

theorem gives_ofExcept : Gives (ofExcept (.ok a)) k a k :=
  .lift ReadM.gives_ofExcept

theorem gives_tellAll : ∀ ns : List Notice,
    Gives (forIn ns PUnit.unit fun n _ => do tell n; return .yield PUnit.unit) k PUnit.unit k
  | [] => .pure
  | n :: ns => by
    rw [List.forIn_cons]
    exact .bind (.bind (gives_tell n) .pure) (gives_tellAll ns)

/-- A step that finds a simple type without those declared. -/
theorem gives_resolving {step : Table Node → SimpleM α} (notices : List Notice)
    (h : ∀ nodes known, step nodes { known } = (a, { known, notices })) :
    Gives (resolving step) k a k := by
  intro s
  have hrun : (resolving step).run s = ((do
      forIn notices PUnit.unit fun n _ => do tell n; return .yield PUnit.unit
      return a : XsdM α).run s) := by
    simp only [resolving, StateT.run_bind, StateT.run_get, StateT.run_set, pure_bind, h]
  rw [hrun]
  exact .bind (gives_tellAll notices s) ReadM.Gives.pure

end Xsd

end Bindery.Schema
