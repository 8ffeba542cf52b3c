/-
  The tokens of written content.

  `Content.Spelled` says how content is written: with names without a prefix,
  attributes with names of their own, and values and texts of given characters.
  Content is `Content.Readable` if a document may hold them, and `Content.Legal`
  if a reader does not change any of them.  `Content.Spells` says which tokens
  stand for content, wherever they stand.

  * `Content.passes_written`: what is written for content is cut into tokens for
    it, and content goes on behind them;
  * `document_written`: the same for a whole document.
-/
import Mathlib.Data.List.Forall2
import Bindery.Markup.Token
import Bindery.Proofs.Markup.Tree

namespace Bindery.Markup

open Cursor

/-! ## Legal content -/

def isLocalName (s : String) : Bool :=
  s.toList.head?.any isNameStart && s.toList.all fun ch => isNameChar ch && ch != ':'

/-- Whether a text may hold the character: carriage returns are read as line
    feeds. -/
def isTextChar (ch : Char) : Bool := isXmlChar ch && ch != '\r'

/-- Whether a value may hold the character: line ends and tabulators are read
    as spaces. -/
def isValueChar (ch : Char) : Bool := isTextChar ch && ch != '\n' && ch != '\t'

mutual

/-- Whether content is spelled with names without a prefix, values of the
    characters `value` and texts of the characters `text`. -/
def Content.Spelled (value text : Char → Bool) : Content → Prop
  | .text s => s ≠ "" ∧ s.toList.all text = true
  | .element tag attributes content =>
    isLocalName tag = true ∧
      (∀ a ∈ attributes, isLocalName a.1 = true ∧ a.1 ≠ "xmlns" ∧ a.2.toList.all value = true) ∧
      (attributes.map (·.1)).Nodup ∧ SpelledAll value text content

/-- Whether pieces of content are spelled so.  No two texts may follow each
    other, since they would be read as one. -/
def SpelledAll (value text : Char → Bool) : List Content → Prop
  | [] => True
  | c :: cs =>
    c.Spelled value text ∧ (c.isElement = true ∨ ∀ d ∈ cs.head?, d.isElement = true) ∧
      SpelledAll value text cs

end

/-- Whether content can be read from its text. -/
abbrev Content.Readable (c : Content) : Prop := c.Spelled isXmlChar isXmlChar

abbrev Content.Legal (c : Content) : Prop := c.Spelled isValueChar isTextChar

theorem all_of_all {p q : Char → Bool} (h : ∀ ch, p ch = true → q ch = true) {s : String}
    (hs : s.toList.all p = true) : s.toList.all q = true :=
  List.all_eq_true.2 fun ch hch => h ch (List.all_eq_true.1 hs ch hch)

mutual

theorem Content.Spelled.mono {value value' text text' : Char → Bool}
    (hvalue : ∀ ch, value ch = true → value' ch = true)
    (htext : ∀ ch, text ch = true → text' ch = true) :
    ∀ {c : Content}, c.Spelled value text → c.Spelled value' text'
  | .text _, h => ⟨h.1, all_of_all htext h.2⟩
  | .element .., h =>
    ⟨h.1, fun a ha => ⟨(h.2.1 a ha).1, (h.2.1 a ha).2.1, all_of_all hvalue (h.2.1 a ha).2.2⟩,
      h.2.2.1, SpelledAll.mono hvalue htext h.2.2.2⟩

theorem SpelledAll.mono {value value' text text' : Char → Bool}
    (hvalue : ∀ ch, value ch = true → value' ch = true)
    (htext : ∀ ch, text ch = true → text' ch = true) :
    ∀ {cs : List Content}, SpelledAll value text cs → SpelledAll value' text' cs
  | [], _ => trivial
  | _ :: _, h => ⟨h.1.mono hvalue htext, h.2.1, SpelledAll.mono hvalue htext h.2.2⟩

end

theorem isXmlChar_of_isTextChar {ch : Char} (h : isTextChar ch = true) : isXmlChar ch = true := by
  simp only [isTextChar, Bool.and_eq_true] at h
  exact h.1

theorem isTextChar_of_isValueChar {ch : Char} (h : isValueChar ch = true) :
    isTextChar ch = true := by
  simp only [isValueChar, Bool.and_eq_true] at h
  exact h.1.1

theorem Content.Legal.readable {c : Content} (h : c.Legal) : c.Readable :=
  h.mono (fun _ hch => isXmlChar_of_isTextChar (isTextChar_of_isValueChar hch))
    fun _ hch => isXmlChar_of_isTextChar hch

/-! ## Tokens for content -/

def SpellsAttribute (a : String × String) (t : Token) : Prop :=
  ∃ p q, t = .attribute ⟨"", a.1⟩ ⟨(escaped a.2).toList, p⟩ q

mutual

def Content.Spells : Content → List Token → Prop
  | .text s, ts => ∃ p, ts = [.text ⟨(escaped s).toList, p⟩]
  | .element tag attributes content, ts => ∃ p q r as body,
      ts = .tagStart ⟨"", tag⟩ p :: (as ++ .tagEnd .opening q ::
        (body ++ [.tagEnd (.closing ⟨"", tag⟩) r])) ∧
      List.Forall₂ SpellsAttribute attributes as ∧ SpellsAll content body

def SpellsAll : List Content → List Token → Prop
  | [], ts => ts = []
  | c :: cs, ts => ∃ us vs, ts = us ++ vs ∧ c.Spells us ∧ SpellsAll cs vs

end

/-! ## Names -/

theorem isLocalName_cons {s : String} (h : isLocalName s = true) :
    ∃ x cs, s.toList = x :: cs ∧ isNameStart x = true ∧
      ∀ ch ∈ s.toList, isNameChar ch = true ∧ ch ≠ ':' := by
  rw [isLocalName, Bool.and_eq_true, List.all_eq_true] at h
  cases hs : s.toList with
  | nil => simp [hs] at h
  | cons x cs =>
    rw [hs] at h
    exact ⟨x, cs, rfl, by simpa using h.1, fun ch hch => by simpa using h.2 ch hch⟩

theorem isSpace_of_isNameStart {x : Char} (h : isNameStart x = true) : isSpace x = false := by
  rw [Bool.eq_false_iff]
  intro hs
  simp only [isSpace, Bool.or_eq_true, beq_iff_eq] at hs
  rcases hs with ((rfl | rfl) | rfl) | rfl <;> exact absurd h (by decide)

namespace Cursor

theorem skipSpaces_eq {c : Cursor} {x : Char} {cs : List Char} (hc : c.rest = x :: cs)
    (hx : isSpace x = false) : c.skipSpaces = c := by
  simp [skipSpaces, skipWhile, hc, hx, drop]

theorem label_eq {c : Cursor} {s : String} {x : Char} {tail : List Char} (hs : isLocalName s = true)
    (hc : c.rest = s.toList ++ x :: tail) (hx : isNameChar x = false) :
    ∃ d, c.label = .ok (⟨"", s⟩, d) ∧ d.rest = x :: tail := by
  obtain ⟨y, cs, hy, hstart, hchars⟩ := isLocalName_cons hs
  have hwritten : c.rest.takeWhile isNameChar = s.toList := by
    rw [hc, List.takeWhile_append_of_pos fun ch hch => (hchars ch hch).1,
      List.takeWhile_cons_of_neg (by simp [hx]), List.append_nil]
  have hsplit : s.toList.splitOnP (· == ':') = [s.toList] :=
    List.splitOnP_eq_singleton fun ch hch => by simpa using (hchars ch hch).2
  have hvalid : s.toList.head?.any isNameStart = true := by simp [hy, hstart]
  refine ⟨c.drop s.toList.length, ?_, by simp [hc]⟩
  simp [label, hwritten, hsplit, hvalid]

theorem name_eq {c : Cursor} {s : String} {x : Char} {tail : List Char} (hs : isLocalName s = true)
    (hc : c.rest = s.toList ++ x :: tail) (hx : isNameChar x = false) :
    ∃ d, c.name = .ok (s, d) ∧ d.rest = x :: tail := by
  obtain ⟨y, cs, hy, hstart, hchars⟩ := isLocalName_cons hs
  have htail : (cs ++ x :: tail).takeWhile isNameChar = cs := by
    rw [List.takeWhile_append_of_pos fun ch hch => (hchars ch (by simp [hy, hch])).1,
      List.takeWhile_cons_of_neg (by simp [hx]), List.append_nil]
  refine ⟨c.drop (cs.length + 1), ?_, by simp [hc, hy]⟩
  rw [hy, List.cons_append] at hc
  simp only [name, hc, if_pos hstart, htail, ← hy, String.ofList_toList]

theorem scan_eq {stop : List Char → Bool} {c : Cursor} {taken tail : List Char} {x : Char}
    (hc : c.rest = taken ++ x :: tail)
    (htaken : ∀ ch ∈ taken, isXmlChar ch = true ∧ ∀ cs, stop (ch :: cs) = false)
    (hx : isXmlChar x = true) (hstop : stop (x :: tail) = true) :
    ∃ d, c.scan stop = .ok (taken, d) ∧ d.rest = x :: tail := by
  have hlength : ∀ taken : List Char,
      (∀ ch ∈ taken, isXmlChar ch = true ∧ ∀ cs, stop (ch :: cs) = false) →
      scanLength stop (taken ++ x :: tail) = (taken.length, none) := by
    intro taken htaken
    induction taken with
    | nil => simp [scanLength, hx, hstop]
    | cons ch taken ih =>
      obtain ⟨hxml, hgo⟩ := htaken ch List.mem_cons_self
      have ih := ih fun ch hch => htaken ch (List.mem_cons_of_mem _ hch)
      simp [scanLength, hxml, hgo, ih]
  refine ⟨c.drop taken.length, ?_, by simp [hc]⟩
  simp [scan, hc, hlength taken htaken]

theorem require_eq {c : Cursor} {x : Char} {tail : List Char} (hc : c.rest = x :: tail) :
    ∃ d, c.require x = .ok d ∧ d.rest = tail :=
  ⟨c.drop 1, by simp [require, hc], by simp [hc]⟩

end Cursor

/-! ## Tags -/

def attributeChars (a : String × String) : List Char :=
  a.1.toList ++ '=' :: '"' :: ((escaped a.2).toList ++ ['"'])

theorem toList_openTag (tag : String) (attributes : List (String × String)) :
    (openTag tag attributes).toList =
      '<' :: (tag.toList ++ (attributes.flatMap (' ' :: attributeChars ·) ++ ['>'])) := by
  simp [openTag, String.toList_join, List.flatMap_map, attributeChars]

theorem all_escapeMarkup {x : Char} (hx : isXmlChar x = true) : (escapeMarkup x).all
    (fun ch => isXmlChar ch && ch != '<' && ch != '>' && ch != '"') = true := by
  unfold escapeMarkup
  split
  case h_6 hlt hgt _ _ hquot => simpa [hx] using ⟨⟨hlt, hgt⟩, hquot⟩
  all_goals decide

theorem mem_escaped {s : String} (hs : ∀ ch ∈ s.toList, isXmlChar ch = true) :
    ∀ ch ∈ (escaped s).toList, isXmlChar ch = true ∧ ch ≠ '<' ∧ ch ≠ '>' ∧ ch ≠ '"' := by
  intro ch hch
  simp only [escaped, String.toList_ofList, List.mem_flatMap] at hch
  obtain ⟨x, hx, hch⟩ := hch
  simpa [and_assoc] using List.all_eq_true.1 (all_escapeMarkup (hs x hx)) ch hch

theorem attr_written {a : String × String} (hname : isLocalName a.1 = true)
    (hvalue : ∀ ch ∈ a.2.toList, isXmlChar ch = true) {c : Cursor} {tail : List Char}
    (hc : c.rest = attributeChars a ++ tail) :
    ∃ p d, attr c = .ok (⟨"", a.1⟩, ⟨(escaped a.2).toList, p⟩, d) ∧ d.rest = tail := by
  simp only [attributeChars, List.append_assoc, List.cons_append, List.nil_append] at hc
  obtain ⟨d₁, hlabel, hd₁⟩ := label_eq hname hc (by decide)
  obtain ⟨d₂, hequals, hd₂⟩ := require_eq hd₁
  have hquote : d₂.requireQuote = .ok ('"', d₂.drop 1) := by simp [requireQuote, hd₂]
  obtain ⟨d₃, hscan, hd₃⟩ : ∃ d, (d₂.drop 1).scan
      (fun cs => cs.head? == some '"' || cs.head? == some '<') = .ok ((escaped a.2).toList, d) ∧
        d.rest = '"' :: tail := by
    refine scan_eq (by simp [hd₂]) (fun ch hch => ?_) (by decide) (by simp)
    obtain ⟨hxml, hlt, -, hquot⟩ := mem_escaped hvalue ch hch
    simp [hxml, hlt, hquot]
  obtain ⟨d₄, hend, hd₄⟩ := require_eq hd₃
  refine ⟨(d₂.drop 1).pos, d₄, ?_, hd₄⟩
  simp only [attr, hlabel, skipSpaces_eq hd₁ (by decide), hequals, skipSpaces_eq hd₂ (by decide),
    hquote, hscan, hend, bind, Except.bind]

theorem skipSpaces_blank {c : Cursor} {s : String} (hs : isLocalName s = true) {tail : List Char}
    (hc : c.rest = ' ' :: (s.toList ++ tail)) : c.skipSpaces.rest = s.toList ++ tail := by
  obtain ⟨x, cs, hx, hstart, -⟩ := isLocalName_cons hs
  have hspace := isSpace_of_isNameStart hstart
  have hblank : isSpace ' ' = true := rfl
  simp [skipSpaces, skipWhile, hc, hx, hspace, hblank]

theorem tagRest_attribute {c e : Cursor} {x : Char} {cs xs : List Char} {label : Label}
    {value : Fragment} (hc : c.rest = ' ' :: cs) (hx : c.skipSpaces.rest = x :: xs)
    (hstart : isNameStart x = true) (hattr : attr c.skipSpaces = .ok (label, value, e)) :
    tagRest c = (tagRest e).cons [.attribute label value c.skipSpaces.pos] := by
  rw [tagRest]
  simp only [hc]
  split
  case h_1 hnil => simp [hx] at hnil
  case h_2 hslash => rw [hx] at hslash; cases hslash; exact absurd hstart (by decide)
  case h_3 hangle => rw [hx] at hangle; cases hangle; exact absurd hstart (by decide)
  case h_4 =>
    rw [if_pos (by decide)]
    split
    case h_1 herror => rw [hattr] at herror; cases herror
    case h_2 hok => rw [hattr] at hok; cases hok; rfl

theorem tagRest_written {attributes : List (String × String)} {tail : List Char}
    (h : ∀ a ∈ attributes, isLocalName a.1 = true ∧ ∀ ch ∈ a.2.toList, isXmlChar ch = true) :
    ∀ {c : Cursor}, c.rest = attributes.flatMap (' ' :: attributeChars ·) ++ '>' :: tail →
      ∃ as q d, List.Forall₂ SpellsAttribute attributes as ∧
        tagRest c = ⟨as ++ [.tagEnd .opening q], .ok (true, d)⟩ ∧ d.rest = tail := by
  induction attributes with
  | nil =>
    intro c hc
    have hc : c.rest = '>' :: tail := hc
    refine ⟨[], c.pos, c.drop 1, .nil, ?_, by simp [hc]⟩
    rw [tagRest]
    simp only [hc, skipSpaces_eq hc (by decide)]
    rfl
  | cons a attributes ih =>
    intro c hc
    obtain ⟨hname, hvalue⟩ := h a List.mem_cons_self
    obtain ⟨x, cs, hx, hstart, -⟩ := isLocalName_cons hname
    have hblank : c.rest = ' ' :: (a.1.toList ++ ('=' :: '"' :: ((escaped a.2).toList ++ ['"']) ++
        (attributes.flatMap (' ' :: attributeChars ·) ++ '>' :: tail))) := by
      simp [hc, attributeChars]
    have hspaces := skipSpaces_blank hname hblank
    have hchars : c.skipSpaces.rest = attributeChars a ++
        (attributes.flatMap (' ' :: attributeChars ·) ++ '>' :: tail) := by
      simp [hspaces, attributeChars]
    obtain ⟨p, d, hattr, hd⟩ := attr_written hname hvalue hchars
    obtain ⟨as, q, e, has, hrest, he⟩ := ih (fun b hb => h b (List.mem_cons_of_mem _ hb)) hd
    refine ⟨_ :: as, q, e, .cons ⟨p, c.skipSpaces.pos, rfl⟩ has, ?_, he⟩
    rw [hx] at hspaces
    rw [tagRest_attribute hblank hspaces hstart hattr, hrest]
    rfl

theorem tag_written {tag : String} {attributes : List (String × String)} {tail : List Char}
    (htag : isLocalName tag = true)
    (h : ∀ a ∈ attributes, isLocalName a.1 = true ∧ ∀ ch ∈ a.2.toList, isXmlChar ch = true)
    {c : Cursor} (hc : c.rest = (openTag tag attributes).toList ++ tail) :
    ∃ p as q d, List.Forall₂ SpellsAttribute attributes as ∧
      Markup.tag c = ⟨.tagStart ⟨"", tag⟩ p :: (as ++ [.tagEnd .opening q]), .ok (true, d)⟩ ∧
      d.rest = tail := by
  have hname : (c.drop 1).rest =
      tag.toList ++ (attributes.flatMap (' ' :: attributeChars ·) ++ '>' :: tail) := by
    simp [hc, toList_openTag]
  obtain ⟨d, hlabel, hd⟩ : ∃ d, (c.drop 1).label = .ok (⟨"", tag⟩, d) ∧
      d.rest = attributes.flatMap (' ' :: attributeChars ·) ++ '>' :: tail := by
    cases attributes with
    | nil => exact label_eq htag hname (by decide)
    | cons a attributes => exact label_eq htag hname (by decide)
  obtain ⟨as, q, e, has, hrest, he⟩ := tagRest_written h hd
  refine ⟨c.pos, as, q, e, has, ?_, he⟩
  have hparts : Markup.tag c = (tagRest d).cons [.tagStart ⟨"", tag⟩ c.pos] := by
    rw [Markup.tag, hlabel]
    rfl
  rw [hparts, hrest]
  rfl

theorem endTag_written {tag : String} (htag : isLocalName tag = true) {c : Cursor}
    {tail : List Char} (hc : c.rest = (closeTag tag).toList ++ tail) :
    ∃ p d, endTag c = .ok (.tagEnd (.closing ⟨"", tag⟩) p, d) ∧ d.rest = tail := by
  have hname : (c.drop 2).rest = tag.toList ++ '>' :: tail := by simp [hc, closeTag]
  obtain ⟨d, hlabel, hd⟩ := label_eq htag hname (by decide)
  obtain ⟨e, hend, he⟩ := require_eq hd
  refine ⟨c.pos, e, ?_, he⟩
  simp only [endTag, hlabel, skipSpaces_eq hd (by decide), hend, bind, Except.bind]

theorem hasInfix_eq_false {needle cs : List Char} {x : Char} (hx : x ∈ needle) (h : x ∉ cs) :
    hasInfix needle cs = false := by
  induction cs with
  | nil =>
    rw [hasInfix, List.isEmpty_eq_false_iff]
    exact List.ne_nil_of_mem hx
  | cons ch cs ih =>
    rw [hasInfix, Bool.or_eq_false_iff]
    refine ⟨?_, ih fun hmem => h (List.mem_cons_of_mem _ hmem)⟩
    rw [Bool.eq_false_iff]
    intro hp
    exact h ((List.isPrefixOf_iff_prefix.1 hp).subset hx)

theorem text_written {s : String} (hs : ∀ ch ∈ s.toList, isXmlChar ch = true) {c : Cursor}
    {tail : List Char} (hc : c.rest = (escaped s).toList ++ '<' :: tail) :
    ∃ p d, text c = .ok (.text ⟨(escaped s).toList, p⟩, d) ∧ d.rest = '<' :: tail := by
  obtain ⟨d, hscan, hd⟩ : ∃ d, c.scanTo "<" = .ok ((escaped s).toList, d) ∧
      d.rest = '<' :: tail := by
    refine scan_eq hc (fun ch hch => ?_) (by decide) (by simp)
    obtain ⟨hxml, hlt, -, -⟩ := mem_escaped hs ch hch
    simp [hxml, List.isPrefixOf, Ne.symm hlt]
  have hinfix : hasInfix "]]>".toList (escaped s).toList = false :=
    hasInfix_eq_false (x := '>') (by decide) fun hmem => (mem_escaped hs _ hmem).2.2.1 rfl
  refine ⟨c.pos, d, ?_, hd⟩
  simp only [text, hscan, bind, Except.bind, hinfix]
  rfl

/-! ## Content -/

section
variable {c d : Cursor} {ts : List Token} {t : Token} {x : Char} {cs : List Char}

theorem item_tag (hc : c.rest = '<' :: x :: cs) (hx : isNameStart x = true)
    (h : tag c = ⟨ts, .ok (true, d)⟩) : item c = ⟨ts, .ok (.into, d)⟩ := by
  unfold item
  split
  case h_1 heq => rw [hc] at heq; cases heq; exact absurd hx (by decide)
  case h_2 heq => rw [hc] at heq; cases heq; exact absurd hx (by decide)
  case h_3 heq => rw [hc] at heq; cases heq; exact absurd hx (by decide)
  case h_4 =>
    rw [h]
    exact congrArg (Lexed.mk · _) (List.append_nil ts)
  case h_5 heq => rw [hc] at heq; cases heq
  case h_6 hother _ => exact absurd hc (hother x cs)

theorem item_endTag (hc : c.rest = '<' :: '/' :: cs) (h : endTag c = .ok (t, d)) :
    item c = ⟨[t], .ok (.outOf, d)⟩ := by
  unfold item
  simp only [hc]
  rw [h, single]

theorem item_text (hc : c.rest = x :: cs) (hx : x ≠ '<') (h : text c = .ok (t, d)) :
    item c = ⟨[t], .ok (.along, d)⟩ := by
  unfold item
  split
  case h_6 => rw [h, single]
  all_goals
    next heq => rw [hc] at heq; cases heq; exact absurd rfl hx

theorem content_into (hc : c.rest ≠ []) (h : item c = ⟨ts, .ok (.into, d)⟩) (depth : Nat) :
    content depth c = (content (depth + 1) d).cons ts := by
  rw [content, dif_neg hc]
  dsimp only
  split <;> simp_all

theorem content_along (hc : c.rest ≠ []) (h : item c = ⟨ts, .ok (.along, d)⟩) (depth : Nat) :
    content depth c = (content depth d).cons ts := by
  rw [content, dif_neg hc]
  dsimp only
  split <;> simp_all

theorem content_outOf (hc : c.rest ≠ []) (h : item c = ⟨ts, .ok (.outOf, d)⟩) (depth : Nat) :
    content (depth + 1) c = (content depth d).cons ts := by
  rw [content, dif_neg hc]
  dsimp only
  split <;> simp_all

theorem content_end (hc : c.rest ≠ []) (h : item c = ⟨ts, .ok (.outOf, d)⟩) :
    content 0 c = ⟨ts, .ok d⟩ := by
  rw [content, dif_neg hc]
  dsimp only
  split <;> simp_all

end

/-- Content goes on at `d` behind the tokens. -/
def Passes (c : Cursor) (ts : List Token) (d : Cursor) : Prop :=
  ∀ depth, content depth c = (content depth d).cons ts

theorem Passes.refl (c : Cursor) : Passes c [] c := fun _ => rfl

theorem Passes.trans {c d e : Cursor} {ts us : List Token} (h : Passes c ts d)
    (h' : Passes d us e) : Passes c (ts ++ us) e := by
  intro depth
  rw [h depth, h' depth]
  simp [Lexed.cons]

theorem element_written {tag : String} {attributes : List (String × String)} {xs : List Content}
    (h : (Content.element tag attributes xs).Readable)
    (hxs : ∀ {c : Cursor} {tail : List Char}, c.rest = (writtenAll xs).toList ++ '<' :: tail →
      ∃ ts d, SpellsAll xs ts ∧ d.rest = '<' :: tail ∧ Passes c ts d)
    {c : Cursor} {tail : List Char}
    (hc : c.rest = (Content.element tag attributes xs).written.toList ++ tail) :
    ∃ start body stop d e f, (Content.element tag attributes xs).Spells (start ++ (body ++ stop)) ∧
      Markup.tag c = ⟨start, .ok (true, d)⟩ ∧ item c = ⟨start, .ok (.into, d)⟩ ∧ Passes d body e ∧
      e.rest ≠ [] ∧ item e = ⟨stop, .ok (.outOf, f)⟩ ∧ f.rest = tail := by
  obtain ⟨htag, hattributes, -, -⟩ := h
  obtain ⟨x, cs, hx, hstart, -⟩ := isLocalName_cons htag
  have hopen : c.rest = (openTag tag attributes).toList ++
      ((writtenAll xs).toList ++ '<' :: '/' :: (tag.toList ++ '>' :: tail)) := by
    simp [hc, Content.written, closeTag]
  have hchars : ∀ a ∈ attributes, isLocalName a.1 = true ∧ ∀ ch ∈ a.2.toList, isXmlChar ch = true :=
    fun a ha => ⟨(hattributes a ha).1, List.all_eq_true.1 (hattributes a ha).2.2⟩
  obtain ⟨p, as, q, d, has, htagc, hd⟩ := tag_written htag hchars hopen
  obtain ⟨body, e, hbody, he, hpass⟩ := hxs hd
  have hclose : e.rest = (closeTag tag).toList ++ tail := by simp [he, closeTag]
  obtain ⟨r, f, hend, hf⟩ := endTag_written htag hclose
  have hfirst : c.rest = '<' :: x :: (cs ++ (attributes.flatMap (' ' :: attributeChars ·) ++ '>' ::
      ((writtenAll xs).toList ++ '<' :: '/' :: (tag.toList ++ '>' :: tail)))) := by
    simp [hopen, toList_openTag, hx]
  refine ⟨_, body, _, d, e, f, ⟨p, q, r, as, body, ?_, has, hbody⟩, htagc,
    item_tag hfirst hstart htagc, hpass, by simp [he], item_endTag he hend, hf⟩
  simp

theorem escaped_ne_nil {s : String} (hs : s ≠ "") : (escaped s).toList ≠ [] := by
  have hchar : ∀ x, escapeMarkup x ≠ [] := by
    intro x
    unfold escapeMarkup
    split <;> simp
  intro hnil
  simp only [escaped, String.toList_ofList, List.flatMap_eq_nil_iff] at hnil
  obtain ⟨x, xs, hx⟩ := List.exists_cons_of_ne_nil (mt String.toList_eq_nil_iff.1 hs)
  exact hchar x (hnil x (by simp [hx]))

/-- A tag comes next unless a text does. -/
theorem writtenAll_eq_cons {xs : List Content} (h : ∀ d ∈ xs.head?, d.isElement = true)
    (tail : List Char) : ∃ cs, (writtenAll xs).toList ++ '<' :: tail = '<' :: cs := by
  match xs, h with
  | [], _ => exact ⟨tail, by simp [writtenAll]⟩
  | .element tag attributes content :: _, _ =>
    exact ⟨_, by rw [writtenAll, Content.written]; simp [toList_openTag]; rfl⟩
  | .text s :: _, h => cases h (.text s) rfl

mutual

theorem Content.passes_written : ∀ {x : Content}, x.Readable → ∀ {c : Cursor} {tail : List Char},
    c.rest = x.written.toList ++ tail → (x.isElement = true ∨ ∃ cs, tail = '<' :: cs) →
      ∃ ts d, x.Spells ts ∧ d.rest = tail ∧ Passes c ts d
  | .text s, h, c, tail, hc, ht => by
    obtain ⟨cs, rfl⟩ : ∃ cs, tail = '<' :: cs := ht.resolve_left nofun
    obtain ⟨hne, hs⟩ := h
    have hs := List.all_eq_true.1 hs
    obtain ⟨p, d, htext, hd⟩ := text_written hs hc
    obtain ⟨x, xs, hx⟩ := List.exists_cons_of_ne_nil (escaped_ne_nil hne)
    have hlt : x ≠ '<' := (mem_escaped hs x (by simp [hx])).2.1
    have hfirst : c.rest = x :: (xs ++ '<' :: cs) := by simp [hc, Content.written, hx]
    exact ⟨_, d, ⟨p, rfl⟩, hd, content_along (by simp [hfirst]) (item_text hfirst hlt htext)⟩
  | .element tag attributes xs, h, c, tail, hc, _ => by
    obtain ⟨start, body, stop, d, e, f, hspells, -, hinto, hpass, he, hout, hf⟩ :=
      element_written h (passes_writtenAll h.2.2.2) hc
    have hc : c.rest ≠ [] := by simp [hc, Content.written, toList_openTag]
    refine ⟨_, f, hspells, hf, fun depth => ?_⟩
    rw [content_into hc hinto, hpass, content_outOf he hout]
    simp [Lexed.cons]

theorem passes_writtenAll : ∀ {xs : List Content}, SpelledAll isXmlChar isXmlChar xs →
    ∀ {c : Cursor} {tail : List Char}, c.rest = (writtenAll xs).toList ++ '<' :: tail →
      ∃ ts d, SpellsAll xs ts ∧ d.rest = '<' :: tail ∧ Passes c ts d
  | [], _, c, _, hc => ⟨[], c, rfl, hc, .refl c⟩
  | x :: xs, h, c, tail, hc => by
    obtain ⟨hx, hnext, hxs⟩ := h
    have hfirst : c.rest = x.written.toList ++ ((writtenAll xs).toList ++ '<' :: tail) := by
      simp [hc, writtenAll]
    obtain ⟨ts, d, hts, hd, hpass⟩ :=
      Content.passes_written hx hfirst (hnext.imp_right (writtenAll_eq_cons · tail))
    obtain ⟨us, e, hus, he, hpass'⟩ := passes_writtenAll hxs hd
    exact ⟨ts ++ us, e, ⟨ts, us, rfl, hts, hus⟩, he, hpass.trans hpass'⟩

end

/-! ## Documents -/

section
variable {c : Cursor} {x : Char} {cs : List Char}

theorem startsWith_eq_false (hc : c.rest = '<' :: x :: cs) (s : String) {y : Char} {ys : List Char}
    (hs : s.toList = '<' :: y :: ys) (hxy : y ≠ x) : c.startsWith s = false := by
  simp [startsWith, hc, hs, List.isPrefixOf, hxy]

theorem ne_of_isNameStart {y : Char} (hx : isNameStart x = true) (hy : isNameStart y = false) :
    y ≠ x := by
  rintro rfl
  rw [hy] at hx
  cases hx

theorem misc_tag (hc : c.rest = '<' :: x :: cs) (hx : isNameStart x = true) : misc c = .pure c := by
  rw [misc]
  simp [skipSpaces_eq hc (by decide), hc,
    startsWith_eq_false hc "<!--" rfl (ne_of_isNameStart hx (by decide)),
    startsWith_eq_false hc "<?" rfl (ne_of_isNameStart hx (by decide))]

theorem misc_nil (hc : c.rest = []) : misc c = .pure c := by
  have hspaces : c.skipSpaces = c := by simp [skipSpaces, skipWhile, hc, drop]
  rw [misc]
  simp [hspaces, hc]

theorem Lexed.pure_bind {α β : Type} (a : α) (f : α → Lexed β) : (Lexed.pure a >>= f) = f a := rfl

theorem Lexed.ok_bind {α β : Type} (ts : List Token) (a : α) (f : α → Lexed β) :
    ((⟨ts, .ok a⟩ : Lexed α) >>= f) = (f a).cons ts := rfl

theorem document_tag (allowDtd : Bool) (hc : c.rest = '<' :: x :: cs) (hx : isNameStart x = true)
    {ts : List Token} {d : Cursor} (h : element c = ⟨ts, .ok d⟩) (hd : d.rest = []) :
    document allowDtd c = ⟨ts, .ok ()⟩ := by
  have hopen : c.startsWith "<" = true := by simp [startsWith, hc]
  have hmark : ¬ c.rest.head? = some '\ufeff' := by simp [hc]
  simp only [document, if_neg hmark, hopen, h, hd, misc_tag hc hx, misc_nil hd, Lexed.pure_bind,
    Lexed.ok_bind, startsWith_eq_false hc "<?xml " rfl (ne_of_isNameStart hx (by decide)),
    startsWith_eq_false hc "<!DOCTYPE" rfl (ne_of_isNameStart hx (by decide)),
    if_true, if_false, Bool.false_eq_true]
  exact congrArg (Lexed.mk · _) (List.append_nil ts)

end

/-- **A written element is a document**, whose tokens are ones for it. -/
theorem document_written (allowDtd : Bool) {x : Content} (h : x.Readable) (hx : x.isElement = true)
    {c : Cursor} (hc : c.rest = x.written.toList) :
    ∃ ts, x.Spells ts ∧ document allowDtd c = ⟨ts, .ok ()⟩ := by
  match x, h with
  | .element tag attributes xs, h =>
  obtain ⟨start, body, stop, d, e, f, hspells, htag, -, hpass, he, hout, hf⟩ :=
    element_written h (passes_writtenAll h.2.2.2) (hc.trans (List.append_nil _).symm)
  obtain ⟨y, ys, hy, hstart, -⟩ := isLocalName_cons h.1
  obtain ⟨cs, hfirst⟩ : ∃ cs, c.rest = '<' :: y :: cs :=
    ⟨_, by rw [hc, Content.written]; simp [toList_openTag, hy]; rfl⟩
  have helement : element c = ⟨start ++ (body ++ stop), .ok f⟩ := by
    simp [element, htag, Lexed.ok_bind, hpass 0, content_end he hout, Lexed.cons]
  exact ⟨_, hspells, document_tag allowDtd hfirst hstart helement hf⟩

end Bindery.Markup
