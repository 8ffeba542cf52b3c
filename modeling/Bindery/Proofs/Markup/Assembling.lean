/-
  Written content is read back.

  The tokens for readable content are put together to trees that show what the
  content is read as (`Content.received`).  Behind a reference stands the
  character that was escaped (`chunk_escape`); without prefixes and
  declarations no namespace comes in (`Assembly.Plain`), and every end tag meets
  the start tag it was written for.

  * `Assembly.Takes`: tokens add nodes to what has been read, and leave the
    rest alone;
  * `Content.takes_spelled`: the tokens for content add a tree that shows what
    it is read as;
  * `read_written`: a written element that is legal is read as a tree that shows it.
-/
import Bindery.Proofs.Markup.Received

namespace Bindery.Markup

open Cursor

/-! ## Escaped characters -/

theorem reference_named {s : String} (hs : isLocalName s = true) {c : Cursor} {tail : List Char}
    (hc : c.rest = '&' :: (s.toList ++ ';' :: tail)) :
    ∃ d, reference c = some (reference.named s, d) ∧ d.rest = tail := by
  obtain ⟨x, cs, hx, hstart, -⟩ := isLocalName_cons hs
  have hhash : '#' ≠ x := ne_of_isNameStart hstart (by decide)
  have hbody : (c.drop 1).rest = s.toList ++ ';' :: tail := by simp [hc]
  unfold reference
  generalize c.drop 1 = b at hbody ⊢
  have hcode : ∀ t : String, t.toList.head? = some '#' → b.startsWith t = false := by
    intro t ht
    obtain ⟨ts, hts⟩ := List.head?_eq_some_iff.1 ht
    simp [startsWith, hbody, hx, hts, List.isPrefixOf, hhash]
  obtain ⟨d, hname, hd⟩ := name_eq hs hbody (by decide)
  obtain ⟨e, hend, he⟩ := require_eq hd
  have hread : reference.body b = some (reference.named s, d) := by
    simp [reference.body, hcode "#x" rfl, hcode "#" rfl, hname, Except.toOption]
  exact ⟨e, by simp [hread, hend, Except.toOption], he⟩

/-- The step through a text that a written character is. -/
def chunkOf (ch : Char) : Chunk := if isMarked ch then .char ch else .plain ch

theorem chunk_escape {ch : Char} {c : Cursor} {tail : List Char}
    (hc : c.rest = escapeMarkup ch ++ tail) :
    ∃ d, d.rest = tail ∧ chunk [] c = .ok (some (chunkOf ch, d)) := by
  by_cases hm : isMarked ch = true
  · obtain ⟨s, hs, hnamed, hescape⟩ := escapeMarkup_of_isMarked hm
    have hc : c.rest = '&' :: (s.toList ++ ';' :: tail) := by simp [hc, hescape]
    obtain ⟨d, href, hd⟩ := reference_named hs hc
    exact ⟨d, hd, by simp [chunk, hc, href, hnamed, chunkOf, hm]⟩
  · rw [escapeMarkup_of_not_isMarked (by simpa using hm), List.singleton_append] at hc
    refine ⟨c.drop 1, by simp [hc], ?_⟩
    unfold chunk
    split
    case h_1 heq => rw [hc] at heq; cases heq
    case h_2 heq => rw [hc] at heq; cases heq; exact absurd rfl hm
    case h_3 heq => rw [hc] at heq; cases heq; simp [chunkOf, hm]

theorem chunk_nil (entities : Entities) {c : Cursor} (hc : c.rest = []) :
    chunk entities c = .ok none := by
  simp [chunk, hc]

theorem valueChar_escaped (ch : Char) (s : List Char) :
    valueChar ch (s.flatMap escapeMarkup).head? = valueChar ch s.head? := by
  have hfeed : (s.flatMap escapeMarkup).head? = some '\n' ↔ s.head? = some '\n' :=
    head?_escaped (by decide) (by decide)
  simp [valueChar, hfeed]

theorem valueChars_escaped (expand : Position → Fragment → Nat → Except Error (List Char × Nat))
    (count : Nat) : ∀ {s : List Char} {c : Cursor}, c.rest = s.flatMap escapeMarkup →
      valueChars [] expand false count c = .ok (receivedValue s, count)
  | [], c, hc => by
    have hchunk := chunk_nil [] hc
    rw [valueChars]
    split <;> simp_all [receivedValue]
  | ch :: s, c, hc => by
    obtain ⟨d, hd, hchunk⟩ := chunk_escape hc
    have hd : d.rest = s.flatMap escapeMarkup := hd
    have ih := valueChars_escaped expand count hd
    rw [valueChars]
    by_cases hm : isMarked ch = true
    · have hkept := valueChar_of_isKept (isKeptInValue_of_isMarked hm) s.head?
      rw [chunkOf, if_pos hm] at hchunk
      split <;> simp_all [bind, Except.bind, receivedValue]
    · have hplain : valueChar ch d.rest.head? = valueChar ch s.head? := by
        rw [hd, valueChar_escaped]
      rw [chunkOf, if_neg hm] at hchunk
      split <;> simp_all [bind, Except.bind, receivedValue]

section
variable (expand : Position → Fragment → Assembly → Except Error Assembly) {st : Assembly}
  (hst : st.entities = []) {ch : Char} {s : List Char} {c : Cursor}
  (hc : c.rest = escapeMarkup ch ++ s.flatMap escapeMarkup)

include hst hc

/-- A reference adds its character, whatever comes before it. -/
theorem assembleText_marked (hm : isMarked ch = true) (buffer : List Char) (verbatim : Bool) :
    ∃ d, d.rest = s.flatMap escapeMarkup ∧ assembleText expand false st buffer verbatim c =
      assembleText expand false st (ch :: buffer) true d := by
  obtain ⟨d, hd, hchunk⟩ := chunk_escape hc
  rw [chunkOf, if_pos hm, ← hst] at hchunk
  refine ⟨d, hd, ?_⟩
  rw [assembleText]
  split <;> rename_i heq <;> rw [hchunk] at heq <;> cases heq
  rfl

theorem assembleText_plain (hm : isMarked ch = false) (buffer : List Char) (verbatim : Bool) :
    ∃ d, d.rest = s.flatMap escapeMarkup ∧ assembleText expand false st buffer verbatim c =
      assembleText expand false st
        (if verbatim then ch :: buffer else pushText buffer ch s.isEmpty) false d := by
  obtain ⟨d, hd, hchunk⟩ := chunk_escape hc
  rw [chunkOf, if_neg (by simp [hm]), ← hst] at hchunk
  refine ⟨d, hd, ?_⟩
  rw [assembleText]
  split <;> rename_i heq <;> rw [hchunk] at heq <;> cases heq
  rw [hd, isEmpty_escaped]

end

theorem pushText_eq (buffer : List Char) (hb : buffer.head? ≠ some '\r') (ch : Char)
    (atEnd : Bool) :
    pushText buffer ch atEnd = if atEnd && ch = '\r' then '\n' :: buffer else ch :: buffer := by
  unfold pushText
  split
  · exact absurd rfl hb
  · rfl

theorem pushText_return {ch : Char} (h : ch ≠ '\n') (buffer : List Char) (atEnd : Bool) :
    pushText ('\r' :: buffer) ch atEnd = pushText ('\n' :: buffer) ch atEnd := by
  rw [pushText_eq ('\n' :: buffer) (by simp)]
  simp [pushText, h]

/-- What the rest `s` of a text adds to a buffer.  A carriage return waits in
    the buffer for what comes behind it; at the end of the text it is only there
    if a reference came before it. -/
structure AddsText (expand : Position → Fragment → Assembly → Except Error Assembly)
    (st : Assembly) (s : List Char) (c : Cursor) : Prop where
  behind : ∀ (buffer : List Char) (verbatim : Bool), buffer.head? ≠ some '\r' →
    assembleText expand false st buffer verbatim c =
      .ok (st.flush ((receivedText verbatim s).reverse ++ buffer))
  waiting : ∀ (buffer : List Char) (marked : Bool), (s = [] → marked = true) →
    assembleText expand false st ('\r' :: buffer) false c =
      .ok (st.flush ((receivedText marked ('\r' :: s)).reverse ++ buffer))

section
variable {expand : Position → Fragment → Assembly → Except Error Assembly} {st : Assembly}
  {ch : Char} {s : List Char} {c : Cursor}

theorem addsText_nil (hc : c.rest = []) : AddsText expand st [] c := by
  have hend : ∀ buffer verbatim,
      assembleText expand false st buffer verbatim c = .ok (st.flush buffer) := by
    intro buffer verbatim
    have hchunk := chunk_nil st.entities hc
    rw [assembleText]
    split <;> simp_all
  refine ⟨fun buffer verbatim _ => hend buffer verbatim, fun buffer marked hmarked => ?_⟩
  rw [hend, hmarked rfl]
  rfl

/-- A character that is no reference joins the buffer: it is read with what
    comes behind it. -/
theorem AddsText.push (h : AddsText expand st s c) (hm : isMarked ch = false) (buffer : List Char)
    (verbatim : Bool) (hb : buffer.head? ≠ some '\r') :
    assembleText expand false st
        (if verbatim then ch :: buffer else pushText buffer ch s.isEmpty) false c =
      .ok (st.flush ((receivedText verbatim (ch :: s)).reverse ++ buffer)) := by
  rw [pushText_eq buffer hb]
  by_cases hch : ch = '\r'
  · subst hch
    by_cases hwait : s = [] → verbatim = true
    · have hbuffer : (if verbatim then '\r' :: buffer
          else if s.isEmpty && '\r' = '\r' then '\n' :: buffer else '\r' :: buffer) =
            '\r' :: buffer := by
        cases verbatim <;> simp_all
      rw [hbuffer, h.waiting buffer verbatim hwait]
    · obtain ⟨rfl, hverbatim⟩ : s = [] ∧ verbatim = false := by simpa using hwait
      subst hverbatim
      exact h.behind ('\n' :: buffer) false (by simp)
  · have hbuffer : (if verbatim then ch :: buffer
        else if s.isEmpty && ch = '\r' then '\n' :: buffer else ch :: buffer) =
          ch :: buffer := by simp [hch]
    rw [hbuffer, h.behind (ch :: buffer) false (by simpa using hch), receivedText_cons hch, hm]
    simp

section
variable (hst : st.entities = []) (hc : c.rest = escapeMarkup ch ++ s.flatMap escapeMarkup)
  (h : ∀ d : Cursor, d.rest = s.flatMap escapeMarkup → AddsText expand st s d)

include hst hc h

theorem AddsText.marked (hm : isMarked ch = true) : AddsText expand st (ch :: s) c := by
  have hne : ch ≠ '\r' ∧ ch ≠ '\n' := by
    constructor <;> rintro rfl <;> cases hm
  have hadd : ∀ buffer verbatim, assembleText expand false st buffer verbatim c =
      .ok (st.flush ((ch :: receivedText true s).reverse ++ buffer)) := by
    intro buffer verbatim
    obtain ⟨d, hd, hstep⟩ := assembleText_marked expand hst hc hm buffer verbatim
    rw [hstep, (h d hd).behind (ch :: buffer) true (by simpa using hne.1)]
    simp
  refine ⟨fun buffer verbatim _ => ?_, fun buffer marked _ => ?_⟩
  · rw [hadd, receivedText_cons hne.1, hm]
  · rw [hadd, receivedText_return, receivedText_cons hne.1, hm]
    simp [receivedReturn, hne.2, hm]

theorem AddsText.plain (hm : isMarked ch = false) : AddsText expand st (ch :: s) c := by
  refine ⟨fun buffer verbatim hb => ?_, fun buffer marked _ => ?_⟩
  · obtain ⟨d, hd, hstep⟩ := assembleText_plain expand hst hc hm buffer verbatim
    rw [hstep, (h d hd).push hm buffer verbatim hb]
  · obtain ⟨d, hd, hstep⟩ := assembleText_plain expand hst hc hm ('\r' :: buffer) false
    rw [hstep, if_neg Bool.false_ne_true, receivedText_return]
    by_cases hfeed : ch = '\n'
    · -- the two are one line feed
      subst hfeed
      have hpushed : pushText ('\r' :: buffer) '\n' s.isEmpty = '\n' :: buffer := by simp [pushText]
      rw [hpushed, (h d hd).behind ('\n' :: buffer) false (by simp),
        receivedText_cons (by decide), hm]
      simp [receivedReturn]
    · have hpushed := (h d hd).push hm ('\n' :: buffer) false (by simp)
      rw [if_neg Bool.false_ne_true] at hpushed
      rw [pushText_return hfeed, hpushed]
      simp [receivedReturn, hfeed, hm]

end

theorem addsText_escaped (hst : st.entities = []) (s : List Char) :
    ∀ c : Cursor, c.rest = s.flatMap escapeMarkup → AddsText expand st s c := by
  induction s with
  | nil => exact fun c hc => addsText_nil hc
  | cons ch s ih =>
    intro c hc
    cases hm : isMarked ch with
    | true => exact .marked hst hc ih hm
    | false => exact .plain hst hc ih hm

end

/-! ## What has been read -/

section
variable {σ τ : Type} {f : σ → τ → Except Error σ} {s s' : σ}

theorem foldlM_cons_ok {t : τ} {ts : List τ} (h : f s t = .ok s') :
    (t :: ts).foldlM f s = ts.foldlM f s' := by
  rw [List.foldlM_cons, h]
  rfl

theorem foldlM_append_ok {ts us : List τ} (h : ts.foldlM f s = .ok s') :
    (ts ++ us).foldlM f s = us.foldlM f s' := by
  rw [List.foldlM_append, h]
  rfl

end

namespace Assembly

/-- No entity, prefix or namespace has been declared, and no attribute waits
    for the end of its tag. -/
structure Plain (st : Assembly) : Prop where
  entities : st.entities = []
  declared : st.declared = []
  pending : st.pending = []
  scopes : ∀ o ∈ st.opened, o.head.scope = []

/-- The nodes have been added after the latest one, and nothing else. -/
def Grown (st st' : Assembly) (ns : List Node) : Prop :=
  match st.opened with
  | [] => st'.opened = [] ∧ st'.top = ns.reverse ++ st.top
  | o :: os => st'.opened = { o with children := ns.reverse ++ o.children } :: os ∧ st'.top = st.top

/-- Putting the tokens together adds the nodes. -/
structure Takes (st : Assembly) (ts : List Token) (st' : Assembly) (ns : List Node) : Prop where
  run : ts.foldlM (Assembly.token maxDepth (expandText maxDepth)) st = .ok st'
  plain : st'.Plain
  grown : st.Grown st' ns
  label : st.label.isSome = true → st'.label.isSome = true

theorem scope_eq_nil {st : Assembly} (hdeclared : st.declared = [])
    (hscopes : ∀ o ∈ st.opened, o.head.scope = []) : st.scope = [] := by
  unfold Assembly.scope
  cases ho : st.opened with
  | nil => exact hdeclared
  | cons o os => simp [hdeclared, hscopes o (by simp [ho])]

theorem Grown.trans {st st' st'' : Assembly} {ns ms : List Node} (h : st.Grown st' ns)
    (h' : st'.Grown st'' ms) : st.Grown st'' (ns ++ ms) := by
  unfold Grown at h h' ⊢
  cases ho : st.opened with
  | nil =>
    rw [ho] at h
    obtain ⟨hopened, htop⟩ := h
    rw [hopened] at h'
    exact ⟨h'.1, by simp [h'.2, htop]⟩
  | cons o os =>
    rw [ho] at h
    obtain ⟨hopened, htop⟩ := h
    rw [hopened] at h'
    exact ⟨by simp [h'.1], h'.2.trans htop⟩

/-- Only where the nodes go matters, and what is there. -/
theorem Grown.of_eq {st st₀ st' : Assembly} {ns : List Node} (h : st₀.Grown st' ns)
    (hopened : st₀.opened = st.opened) (htop : st₀.top = st.top) : st.Grown st' ns := by
  unfold Grown at h ⊢
  rwa [hopened, htop] at h

theorem Takes.nil {st : Assembly} (h : st.Plain) : st.Takes [] st [] where
  run := rfl
  plain := h
  grown := by
    unfold Grown
    cases ho : st.opened <;> simp
  label := id

theorem Takes.append {st st' st'' : Assembly} {ts us : List Token} {ns ms : List Node}
    (h : st.Takes ts st' ns) (h' : st'.Takes us st'' ms) : st.Takes (ts ++ us) st'' (ns ++ ms) where
  run := by rw [foldlM_append_ok h.run, h'.run]
  plain := h'.plain
  grown := h.grown.trans h'.grown
  label := fun hl => h'.label (h.label hl)

theorem grown_append (st : Assembly) (n : Node) : st.Grown (st.append n) [n] := by
  unfold Grown append
  cases ho : st.opened <;> simp

theorem Plain.append {st : Assembly} (h : st.Plain) (n : Node) : (st.append n).Plain := by
  obtain ⟨hentities, hdeclared, hpending, hscopes⟩ := h
  unfold Assembly.append
  cases ho : st.opened with
  | nil => exact ⟨hentities, hdeclared, hpending, by simp⟩
  | cons o os =>
    rw [ho] at hscopes
    exact ⟨hentities, hdeclared, hpending, by simpa using hscopes⟩

theorem label_append (st : Assembly) (n : Node) : (st.append n).label = st.label := by
  unfold Assembly.append
  split <;> rfl

theorem afterText_append (st : Assembly) (n : Node) : (st.append n).afterText = false := by
  unfold Assembly.append
  split <;> rfl

theorem takes_text {st : Assembly} (hst : st.Plain) (hafter : st.afterText = false) {s : String}
    (hne : s ≠ "") (p : Position) :
    st.Takes [.text ⟨(escaped s).toList, p⟩]
      { st.append (.text (textReceived s)) with afterText := true } [.text (textReceived s)] where
  run := by
    have htext : assembleText (expandText maxDepth) false st [] false ⟨(escaped s).toList, p⟩ =
        .ok (st.flush ((receivedText false s.toList).reverse ++ [])) :=
      (addsText_escaped hst.entities s.toList _ (by simp [escaped])).behind [] false (by simp)
    have hchars : receivedText false s.toList ≠ [] :=
      receivedText_ne_nil (mt String.toList_eq_nil_iff.1 hne) false
    have hflush : st.flush ((receivedText false s.toList).reverse ++ []) =
        { st.append (.text (textReceived s)) with afterText := true } := by
      simp [flush, hchars, appendText, hafter, textReceived]
    rw [hflush] at htext
    exact foldlM_cons_ok htext
  plain := by
    obtain ⟨hentities, hdeclared, hpending, hscopes⟩ := hst.append (.text (textReceived s))
    exact ⟨hentities, hdeclared, hpending, hscopes⟩
  grown := st.grown_append (.text (textReceived s))
  label := fun h => by rwa [← st.label_append (.text (textReceived s))] at h

end Assembly

/-! ## Tags -/

section
variable (expand : Position → Fragment → Assembly → Except Error Assembly)

theorem foldlM_attributes {attributes : List (String × String)} {as : List Token}
    (has : List.Forall₂ SpellsAttribute attributes as)
    (h : ∀ a ∈ attributes, a.1 ≠ "xmlns") (st : Assembly) (hst : st.entities = []) :
    ∃ noted, noted.map (fun x => (x.1.qualifier, x.1.name, x.2.1)) =
        attributes.map (fun a => ("", a.1, valueReceived a.2)) ∧
      as.foldlM (Assembly.token maxDepth expand) st =
        .ok { st with pending := st.pending ++ noted } := by
  induction has generalizing st with
  | nil => exact ⟨[], rfl, by simp; rfl⟩
  | @cons a t attributes as ht _ ih =>
    obtain ⟨p, q, rfl⟩ := ht
    have hname := h a List.mem_cons_self
    have hstep : Assembly.token maxDepth expand st
        (.attribute ⟨"", a.1⟩ ⟨(escaped a.2).toList, p⟩ q) =
          .ok { st with pending := st.pending ++ [(⟨"", a.1⟩, valueReceived a.2, q)] } := by
      have hchars : valueChars [] (expandValue [] maxDepth) false st.count
          ⟨(escaped a.2).toList, p⟩ = .ok (receivedValue a.2.toList, st.count) :=
        valueChars_escaped _ _ (by simp [escaped])
      simp [Assembly.token, hst, hchars, Assembly.declare, hname, bind, Except.bind, valueReceived]
    obtain ⟨noted, hnoted, hrun⟩ := ih (fun b hb => h b (List.mem_cons_of_mem _ hb))
      { st with pending := st.pending ++ [(⟨"", a.1⟩, valueReceived a.2, q)] } hst
    refine ⟨(⟨"", a.1⟩, valueReceived a.2, q) :: noted, by simp [hnoted], ?_⟩
    rw [foldlM_cons_ok hstep, hrun]
    simp

theorem resolveAttributes_plain (scope : List Binding) :
    ∀ {noted : List (Label × String × Position)} {done : List Attribute},
      (∀ x ∈ noted, x.1.qualifier = "") → (done.map (·.name) ++ noted.map (·.1.name)).Nodup →
      resolveAttributes scope done noted =
        .ok (done ++ noted.map fun x => { name := x.1.name, value := x.2.1 })
  | [], done, _, _ => by simp [resolveAttributes]
  | (label, value, pos) :: noted, done, hq, hnodup => by
    have hlabel : label.qualifier = "" := hq _ List.mem_cons_self
    have hfresh : ∀ a ∈ done, a.space = none → ¬ a.name = label.name := fun a ha _ =>
      (List.nodup_append.1 hnodup).2.2 _ (List.mem_map_of_mem ha) _ (by simp)
    have ih : resolveAttributes scope (done ++ [{ name := label.name, value }]) noted = _ :=
      resolveAttributes_plain scope (fun x hx => hq x (List.mem_cons_of_mem _ hx))
        (by simpa using hnodup)
    simpa [resolveAttributes, hlabel, bind, Except.bind, ih] using hfresh

end

namespace Assembly

theorem head_plain {st : Assembly} (hscope : st.scope = []) {tag : String}
    {attributes : List (String × String)}
    (hpending : st.pending.map (fun x => (x.1.qualifier, x.1.name, x.2.1)) =
      attributes.map fun a => ("", a.1, a.2))
    (hnodup : (attributes.map (·.1)).Nodup) (p : Position) :
    ∃ head : Head, st.head ⟨"", tag⟩ p = .ok head ∧ head.name = tag ∧ head.scope = [] ∧
      head.attributes.map (fun a => (a.name, a.value)) = attributes := by
  have hquals : ∀ x ∈ st.pending, x.1.qualifier = "" := by
    intro x hx
    have hmem := List.mem_map_of_mem (f := fun x => (x.1.qualifier, x.1.name, x.2.1)) hx
    rw [hpending, List.mem_map] at hmem
    obtain ⟨a, -, ha⟩ := hmem
    exact (congrArg Prod.fst ha).symm
  have hpairs : st.pending.map (fun x => (x.1.name, x.2.1)) = attributes := by
    have := congrArg (List.map Prod.snd) hpending
    simpa [Function.comp_def] using this
  have hnames : st.pending.map (·.1.name) = attributes.map (·.1) := by
    rw [← hpairs, List.map_map]
    rfl
  have hresolved : resolveAttributes [] [] st.pending = .ok ([] ++ _) :=
    resolveAttributes_plain [] hquals (by simpa [hnames] using hnodup)
  let found : List Attribute := st.pending.map fun x => { name := x.1.name, value := x.2.1 }
  have hhead : st.head ⟨"", tag⟩ p = .ok { name := tag, attributes := found, pos := p } := by
    simp [Assembly.head, hscope, hresolved, found, resolve, bind, Except.bind]
  exact ⟨_, hhead, rfl, rfl, by simpa [found, Function.comp_def] using hpairs⟩

theorem foldlM_startTag (tag : String) {attributes : List (String × String)} {as : List Token}
    (has : List.Forall₂ SpellsAttribute attributes as)
    (h : ∀ a ∈ attributes, a.1 ≠ "xmlns") (hnodup : (attributes.map (·.1)).Nodup) {st : Assembly}
    (hst : st.Plain) (p q : Position) :
    ∃ head : Head, head.name = tag ∧ head.scope = [] ∧
      head.attributes.map (fun a => (a.name, a.value)) =
        attributes.map (fun a => (a.1, valueReceived a.2)) ∧
      (Token.tagStart ⟨"", tag⟩ p :: (as ++ [.tagEnd .opening q])).foldlM
          (Assembly.token maxDepth (expandText maxDepth)) st =
        .ok { st with label := some (⟨"", tag⟩, p), afterText := false,
                      opened := { label := ⟨"", tag⟩, head } :: st.opened } := by
  obtain ⟨hentities, hdeclared, hpending, hscopes⟩ := hst
  let started : Assembly := { st with label := some (⟨"", tag⟩, p), afterText := false }
  have hstart : Assembly.token maxDepth (expandText maxDepth) st (.tagStart ⟨"", tag⟩ p) =
      .ok started := by
    simp [Assembly.token, started]
  obtain ⟨noted, hnoted, hrun⟩ := foldlM_attributes (expandText maxDepth) has h started hentities
  rw [show started.pending ++ noted = noted by simp [started, hpending]] at hrun
  generalize hready : { started with pending := noted } = ready at hrun
  have hscope : ready.scope = [] := by
    rw [← hready]
    exact scope_eq_nil hdeclared hscopes
  obtain ⟨head, hhead, hname, hscope, hattributes⟩ : ∃ head : Head,
      ready.head ⟨"", tag⟩ p = .ok head ∧ head.name = tag ∧ head.scope = [] ∧
      head.attributes.map (fun a => (a.name, a.value)) =
        attributes.map (fun a => (a.1, valueReceived a.2)) := by
    refine head_plain hscope ?_ ?_ p
    · rw [← hready, List.map_map]
      exact hnoted
    · rw [List.map_map]
      exact hnodup
  refine ⟨head, hname, hscope, hattributes, ?_⟩
  have hend : Assembly.token maxDepth (expandText maxDepth) ready (.tagEnd .opening q) =
      .ok { ready with declared := [], pending := [], afterText := false,
                       opened := { label := ⟨"", tag⟩, head } :: ready.opened } := by
    have hlabel : ready.label = some (⟨"", tag⟩, p) := by rw [← hready]
    simp [Assembly.token, Assembly.tagEnd, hlabel, hhead, bind, Except.bind]
  rw [foldlM_cons_ok hstart, foldlM_append_ok hrun, foldlM_cons_ok hend, ← hready]
  simp [started, hdeclared, hpending]
  rfl

theorem token_endTag {st : Assembly} (hst : st.Plain) (hlabel : st.label.isSome = true)
    {label : Label} {head : Head} {ns : List Node} {os : List Open}
    (hopened : st.opened = { label, head, children := ns } :: os) (p : Position) :
    Assembly.token maxDepth (expandText maxDepth) st (.tagEnd (.closing label) p) =
      .ok ({ st with opened := os }.append (.element head ns.reverse)) := by
  obtain ⟨start, hstart⟩ := Option.isSome_iff_exists.1 hlabel
  simp [Assembly.token, Assembly.tagEnd, hstart, hst.pending, hst.declared, resolveAttributes, bind,
    Except.bind, hopened]

end Assembly

/-! ## Content -/

theorem Assembly.takes_element {tag : String} {attributes : List (String × String)}
    {xs : List Content} (h : (Content.element tag attributes xs).Readable) {as : List Token}
    (has : List.Forall₂ SpellsAttribute attributes as) {body : List Token}
    (hbody : ∀ {st : Assembly}, st.Plain → st.afterText = false →
      ∃ ns st', st.Takes body st' ns ∧ ShowsAll (receivedAll xs) ns)
    {st : Assembly} (hst : st.Plain) (p q r : Position) :
    ∃ n st', st.Takes (.tagStart ⟨"", tag⟩ p :: (as ++ .tagEnd .opening q ::
        (body ++ [.tagEnd (.closing ⟨"", tag⟩) r]))) st' [n] ∧
      (Content.element tag attributes xs).received.Shows n ∧ st'.afterText = false := by
  obtain ⟨-, hattributes, hnodup, -⟩ := h
  obtain ⟨head, hname, hscope, hvalues, hstart⟩ :=
    foldlM_startTag tag has (fun a ha => (hattributes a ha).2.1) hnodup hst p q
  generalize hopen : { st with label := some (⟨"", tag⟩, p), afterText := false,
                               opened := { label := ⟨"", tag⟩, head } :: st.opened } = st₁ at hstart
  have hplain : st₁.Plain := by
    rw [← hopen]
    exact ⟨hst.entities, hst.declared, hst.pending, by simpa [hscope] using hst.scopes⟩
  obtain ⟨ns, st₂, htakes, hshows⟩ := hbody hplain (by rw [← hopen])
  obtain ⟨hopened, htop⟩ : st₂.opened = ⟨⟨"", tag⟩, head, ns.reverse⟩ :: st.opened ∧
      st₂.top = st.top := by
    have := htakes.grown
    rw [← hopen] at this
    simpa [Grown] using this
  have hlabel : st₂.label.isSome = true := htakes.label (by rw [← hopen]; rfl)
  have hend := token_endTag htakes.plain hlabel hopened r
  rw [List.reverse_reverse] at hend
  have hclosed : { st₂ with opened := st.opened }.Plain :=
    ⟨htakes.plain.entities, htakes.plain.declared, htakes.plain.pending, hst.scopes⟩
  refine ⟨.element head ns, { st₂ with opened := st.opened }.append (.element head ns),
    ⟨?_, hclosed.append _, ?_, ?_⟩, ⟨hname, hvalues, hshows⟩, afterText_append _ _⟩
  · have hsplit : Token.tagStart ⟨"", tag⟩ p :: (as ++ .tagEnd .opening q ::
        (body ++ [.tagEnd (.closing ⟨"", tag⟩) r])) =
        (.tagStart ⟨"", tag⟩ p :: (as ++ [.tagEnd .opening q])) ++
          (body ++ [.tagEnd (.closing ⟨"", tag⟩) r]) := by simp
    rw [hsplit, foldlM_append_ok hstart, foldlM_append_ok htakes.run, foldlM_cons_ok hend]
    rfl
  · have hgrown := grown_append { st₂ with opened := st.opened } (.element head ns)
    exact hgrown.of_eq rfl htop
  · intro _
    rw [label_append]
    exact hlabel

mutual

theorem Content.takes_spelled : ∀ {x : Content}, x.Readable → ∀ {ts : List Token}, x.Spells ts →
    ∀ {st : Assembly}, st.Plain → (x.isElement = true ∨ st.afterText = false) →
      ∃ n st', st.Takes ts st' [n] ∧ x.received.Shows n ∧
        (x.isElement = true → st'.afterText = false)
  | .text s, ⟨hne, _⟩, _, ⟨p, rfl⟩, _, hst, hafter =>
    ⟨.text (textReceived s), _, Assembly.takes_text hst (hafter.resolve_left nofun) hne p, rfl,
      nofun⟩
  | .element tag attributes xs, h, _, ⟨p, q, r, as, body, rfl, has, hbody⟩, st, hst, _ => by
    obtain ⟨n, st', htakes, hshows, hafter⟩ := Assembly.takes_element h has
      (fun hst hafter => takes_spelledAll h.2.2.2 hbody hst (.inl hafter)) hst p q r
    exact ⟨n, st', htakes, hshows, fun _ => hafter⟩

theorem takes_spelledAll : ∀ {xs : List Content}, SpelledAll isXmlChar isXmlChar xs →
    ∀ {ts : List Token}, SpellsAll xs ts → ∀ {st : Assembly}, st.Plain →
      (st.afterText = false ∨ ∀ d ∈ xs.head?, d.isElement = true) →
      ∃ ns st', st.Takes ts st' ns ∧ ShowsAll (receivedAll xs) ns
  | [], _, _, rfl, st, hst, _ => ⟨[], st, .nil hst, trivial⟩
  | x :: xs, ⟨hx, hnext, hxs⟩, _, ⟨us, vs, rfl, hus, hvs⟩, st, hst, hafter => by
    obtain ⟨n, st', htakes, hshows, hafter'⟩ := Content.takes_spelled hx hus hst
      (hafter.symm.imp_left fun h => h x rfl)
    obtain ⟨ns, st'', htakes', hshows'⟩ := takes_spelledAll hxs hvs htakes.plain
      (hnext.imp_left hafter')
    exact ⟨n :: ns, st'', htakes.append htakes', hshows, hshows'⟩

end

theorem read_received (allowDtd : Bool) {x : Content} (h : x.Readable) (hx : x.isElement = true) :
    ∃ n, x.received.Shows n ∧ read allowDtd x.written = .ok n := by
  obtain ⟨ts, hspells, hdocument⟩ :=
    document_written allowDtd h hx (c := { rest := x.written.toList }) rfl
  have hempty : ({} : Assembly).Plain := ⟨rfl, rfl, rfl, nofun⟩
  obtain ⟨n, st, htakes, hshows, -⟩ := x.takes_spelled h hspells hempty (.inl hx)
  obtain ⟨hopened, htop⟩ : st.opened = [] ∧ st.top = [n] := htakes.grown
  have hn : n.isElement = true := by rw [hshows.isElement, x.isElement_received, hx]
  refine ⟨n, hshows, ?_⟩
  simp [read, hdocument, Assembly.tokens, htakes.run, bind, Except.bind, hopened, htop, hn]

theorem read_written (allowDtd : Bool) {x : Content} (h : x.Legal) (hx : x.isElement = true) :
    ∃ n, x.Shows n ∧ read allowDtd x.written = .ok n := by
  have hread := read_received allowDtd h.readable hx
  rwa [h.received_eq] at hread

theorem read_empty (allowDtd : Bool) : read allowDtd "" = .error .noRoot := by
  have hmisc : misc { rest := [] } = .pure { rest := [] } := misc_nil rfl
  have hdocument : document allowDtd { rest := [] } = .pure () := by
    simp [document, Cursor.startsWith, Lexed.pure_bind, hmisc]
  rw [read, show "".toList = [] from rfl, hdocument]
  rfl

end Bindery.Markup
