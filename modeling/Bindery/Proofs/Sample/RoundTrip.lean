/-
  Outlines, books and playlists are read from their texts.

  `Admissible` says which values the members of the samples may have: any text
  that markup can hold as it is, any number of its type, and any variant, the
  invalid one included.  The classes are found by evaluating the steps from a
  grammar to them one by one (`classesOf_eq`), and every such value of a sample
  class is read from the text that it is written as (`samples_parse_write`).
-/
import Mathlib
import Bindery.Proofs.Document.Proper
import Bindery.Proofs.Instance.Legible
import Bindery.Proofs.Instance.Literal
import Bindery.Sample

namespace Bindery.Sample

open Binding Instance Markup Schema Text

/-! ## Values of the members -/

/-- Whether the value is one of the type: any text, any number of 32 bits, any
    variant. -/
def HasType : ValueType → Datum → Prop
  | .scalar .string, .scalar (.text _) => True
  | .scalar .int, .scalar (.integer n) => Number.inRange 32 n = true
  | .enumeration e, .variant name => name = Code.invalidVariant ∨ name ∈ e.variants.map (·.1)
  | _, _ => False

def textChars : Datum → List Char
  | .scalar (.text s) => s.toList
  | _ => []

/-- Whether the value may stand in the place: it is one of the type, and a text
    holds only characters of markup, in attributes no tabulators and line ends,
    elsewhere no carriage returns. -/
def Admissible : Place → Datum → Prop
  | .attr _ type, d => HasType type d ∧ (textChars d).all isValueChar = true
  | .text type, d | .child _ type, d => HasType type d ∧ (textChars d).all isTextChar = true
  | .choice .., _ => False

/-- Whether every value of the type is read from its literal.  The texts of an
    enumeration have to be their own collapsed forms, and the empty one is left
    to the invalid variant. -/
def isOrdinary : ValueType → Bool
  | .scalar .string | .scalar .int => true
  | .enumeration e => !e.combinable && decide e.values.Nodup && e.values.all fun text =>
      text != "" && Whitespace.collapse.normalize text == text && text.toList.all isValueChar
  | _ => false

theorem lookup_variants {e : Enumeration} {name : String}
    (h : name = Code.invalidVariant ∨ name ∈ e.variants.map (·.1)) :
    (∃ text ∈ e.values, e.variants.lookup name = some text) ∨
      name = Code.invalidVariant ∧ e.variants.lookup name = none := by
  cases hl : e.variants.lookup name with
  | none =>
    refine .inr ⟨h.resolve_right fun hmem => ?_, rfl⟩
    obtain ⟨x, hx, rfl⟩ := List.mem_map.1 hmem
    simpa using List.lookup_eq_none_iff.1 hl x hx
  | some text =>
    obtain ⟨before, after, heq, -⟩ := List.lookup_eq_some_iff.1 hl
    refine .inl ⟨text, ?_, rfl⟩
    rw [← Enumeration.variants_texts e, heq]
    simp

theorem isOrdinary_enumeration {e : Enumeration} (h : isOrdinary (.enumeration e) = true) :
    e.combinable = false ∧ e.values.Nodup ∧ ∀ text ∈ e.values, text ≠ "" ∧
      Whitespace.collapse.normalize text = text ∧ text.toList.all isValueChar = true := by
  simp only [isOrdinary, Bool.and_eq_true, Bool.not_eq_true', decide_eq_true_eq,
    List.all_eq_true, bne_iff_ne, beq_iff_eq, and_assoc] at h
  simpa only [List.all_eq_true] using h

theorem variant_readValue {e : Enumeration} (ho : isOrdinary (.enumeration e) = true)
    {name : String} (h : HasType (.enumeration e) (.variant name)) :
    readValue (.enumeration e) (writeValue (.enumeration e) (.variant name)) =
        .ok (.variant name) ∧
      (writeValue (.enumeration e) (.variant name)).toList.all isValueChar = true := by
  obtain ⟨hc, hnodup, htexts⟩ := isOrdinary_enumeration ho
  rcases lookup_variants h with ⟨text, hmem, hl⟩ | ⟨rfl, hl⟩
  · obtain ⟨-, hcollapsed, hchars⟩ := htexts text hmem
    refine ⟨readValue_writeValue ⟨hc, text, hl, hcollapsed⟩ fun e' he' => ?_, ?_⟩
    · cases he'
      exact hnodup
    · rw [writeValue, variantLiteral, textOf_eq hl]
      · exact hchars
      · intro _ h
        cases h
  · have hwritten : writeValue (.enumeration e) (.variant Code.invalidVariant) = "" := by
      simp [writeValue, variantLiteral, textOf, hl]
    have hempty : e.variants.find? (·.2 == "") = none := by
      refine List.find?_eq_none.2 fun x hx => ?_
      have hvalue : x.2 ∈ e.values := by
        rw [← Enumeration.variants_texts e]
        exact List.mem_map_of_mem hx
      simpa using (htexts x.2 hvalue).1
    have hblank : Whitespace.collapse.normalize "" = "" := by decide
    rw [hwritten]
    exact ⟨by simp [readValue, hc, hblank, variantOf, hempty], rfl⟩

theorem isValueChar_of_isDigit {c : Char} (h : c = '-' ∨ c.isDigit = true) :
    isValueChar c = true := by
  rcases h with rfl | h
  · decide
  · have hc : 48 ≤ c.toNat ∧ c.toNat ≤ 57 := by
      simpa [Char.isDigit, UInt32.le_iff_toNat_le] using h
    have hne : ∀ x : Char, x.isDigit = false → c ≠ x := by
      rintro x hx rfl
      rw [hx] at h
      cases h
    have hxml : isXmlChar c = true := by
      rw [isXmlChar, if_neg (by omega)]
      simp
      omega
    simp [isValueChar, isTextChar, hxml, hne '\r' rfl, hne '\n' rfl, hne '\t' rfl]

theorem hasType_readValue {type : ValueType} (ho : isOrdinary type = true) {d : Datum}
    (h : HasType type d) : readValue type (writeValue type d) = .ok d ∧
      ∀ allowed : Char → Bool, (∀ ch, isValueChar ch = true → allowed ch = true) →
        (textChars d).all allowed = true → (writeValue type d).toList.all allowed = true := by
  match type, d, h with
  | .scalar .string, .scalar (.text s), _ => exact ⟨rfl, fun _ _ hchars => hchars⟩
  | .scalar .int, .scalar (.integer n), h =>
    have hl : (Datum.scalar (.integer n)).Lossless (.scalar .int) := h
    refine ⟨readValue_writeValue hl nofun, fun _ hallowed _ => List.all_eq_true.2 fun ch hch => ?_⟩
    exact hallowed ch (isValueChar_of_isDigit (Number.mem_writeInteger hch))
  | .enumeration e, .variant name, h =>
    obtain ⟨hread, hchars⟩ := variant_readValue ho h
    exact ⟨hread, fun _ hallowed _ => List.all_eq_true.2 fun ch hch =>
      hallowed ch (List.all_eq_true.1 hchars ch hch)⟩

theorem HasType.isLiteral : ∀ {type : ValueType} {d : Datum}, HasType type d →
    type.isLiteral = true
  | .scalar _, _, _ => rfl
  | .enumeration _, _, _ => rfl

theorem Admissible.legible {p : Place} (hp : ∀ type, literalType? p = some type →
    type.isLiteral = true → isOrdinary type = true) {d : Datum} (h : Admissible p d) :
    Returns p d ∧ Legible isValueChar isTextChar p d := by
  cases p with
  | choice => exact h.elim
  | attr tag type =>
    obtain ⟨htype, hchars⟩ := h
    obtain ⟨hread, hwritten⟩ := hasType_readValue (hp type rfl htype.isLiteral) htype
    exact ⟨⟨type, rfl, htype.isLiteral, hread⟩, hwritten isValueChar (fun _ => id) hchars⟩
  | text type | child tag type =>
    obtain ⟨htype, hchars⟩ := h
    obtain ⟨hread, hwritten⟩ := hasType_readValue (hp type rfl htype.isLiteral) htype
    exact ⟨⟨type, rfl, htype.isLiteral, hread⟩,
      hwritten isTextChar (fun _ => isTextChar_of_isValueChar) hchars⟩

/-- Whether the members of the classes are objects or of ordinary types. -/
def Ordinary (cs : Classes) : Prop :=
  ∀ c ∈ cs, ∀ s ∈ c.slots, ∀ type ∈ s.place.types, type.isLiteral = true → isOrdinary type = true

instance (cs : Classes) : Decidable (Ordinary cs) :=
  inferInstanceAs (Decidable (∀ c ∈ cs, ∀ s ∈ c.slots, ∀ type ∈ s.place.types,
    type.isLiteral = true → isOrdinary type = true))

theorem parse_write_admissible {cs : Classes} (hcs : cs.Coherent) (hspell : cs.Spellable)
    (hshown : cs.AlwaysShown) (hordinary : Ordinary cs) {c : Binding.Class} (hc : c ∈ cs)
    (hroot : c.isListShaped = false) {v : Datum} (hv : v.IsOf cs Admissible c) :
    parse cs c.name (write cs v) = .ok v := by
  have hweaker : ∀ c ∈ cs, ∀ s ∈ c.slots,
      Weaker Admissible (fun p d => Returns p d ∧ Legible isValueChar isTextChar p d) s.place := by
    intro c hc s hs q hq d hd
    exact hd.legible fun type htype hl => hordinary c hc s hs type (mem_types hq htype) hl
  obtain ⟨fields, rfl, hfit⟩ := hv
  exact parse_write hcs hspell hshown hc hroot ⟨fields, rfl, hfit.mono hweaker (hweaker c hc)⟩

/-! ## The classes of the samples -/

theorem classesOf_eq {text : String} {grammar : Grammar} {document : Document}
    {classes : List Binding.Class} (hgrammar : grammarOf text = some grammar)
    (hbuild : grammar.resolve.1.build.1 = document) (hvalid : document.validate.isOk = true)
    (hplan : (plan { document }).1.toOption = some classes) : classesOf text = classes := by
  unfold classesOf
  rw [readDocument_eq hgrammar hbuild hvalid]
  dsimp only
  rw [hplan, Option.getD_some]

def many : Occurs := { min := 0, max := .unbounded }

/-! ### Outlines -/

def outlinePattern : Pattern := { zeroOrMore := true, choice := true, group := some 1 }

def outlineRead : Grammar :=
  let sections : ElementPattern :=
    { name := "section"
      elements := [{ name := "para", hasText := true, pattern := outlinePattern }]
      attributes := [{ name := "title" }]
      references := [{ name := "section", pattern := outlinePattern }] }
  { start := { references := [{ name := "section" }] }
    definitions := ⟨[("section", [{ name := "section", elements := [sections] }])]⟩ }

def outlineDocument : Document :=
  { roots := ["section"]
    elements := ⟨[
      ("section", {
        identifier := "section", name := "section"
        elementRelations := [
          { target := "para", occurs := many, choice := some "para+section" },
          { target := "section", occurs := many, choice := some "para+section" }]
        attributeRelations := [{ target := "section@title" }] }),
      ("para", { identifier := "para", name := "para", text := true })]⟩
    attributes := ⟨[("section@title", { identifier := "section@title", name := "title" })]⟩ }

def sectionClass : Binding.Class :=
  { name := "Section", element := "section", tag := "section", root := true
    attributes := [⟨"title", "title", .one, .attr "title" (.scalar .string)⟩]
    elements := [⟨"choice_list", "choice", .list, .choice "SectionChoice" "para+section"
      [⟨"Para", "para", .scalar .string⟩, ⟨"Section", "section", .object "Section" true⟩]⟩] }

theorem build_outline : outlineRead.resolve.1.build.1 = outlineDocument := by
  cbv

set_option maxRecDepth 10000 in
theorem classesOf_outline : classesOf outlineGrammar = [sectionClass] := by
  have hgrammar : grammarOf outlineGrammar = some outlineRead := by
    unfold grammarOf readRoot Markup.read outlineGrammar
    rw [toList_eq_of_ofList rfl]
    decide +kernel
  have hplan : (plan { document := outlineDocument }).1.toOption = some [sectionClass] := by
    decide +kernel
  exact classesOf_eq hgrammar build_outline rfl hplan

/-! ### Books -/

def bindingFacet : Facet := { values := ["hardcover", "paperback"] }

def bookRead : Grammar :=
  let book : ElementPattern :=
    { name := "book"
      elements := [
        { name := "title", hasText := true },
        { name := "author", hasText := true, pattern := { zeroOrMore := true } },
        { name := "pages", hasText := true, dataType := some .int
          pattern := { optional := true } }]
      attributes := [
        { name := "isbn" },
        { name := "binding", pattern := { optional := true }, facet := some bindingFacet }] }
  { start := { elements := [book] } }

def bookDocument : Document :=
  let atMostOne : Occurs := { min := 0 }
  { roots := ["book"]
    elements := ⟨[
      ("book", {
        identifier := "book", name := "book"
        elementRelations := [{ target := "title" }, { target := "author", occurs := many },
          { target := "pages", occurs := atMostOne }]
        attributeRelations := [{ target := "book@isbn" },
          { target := "book@binding", occurs := atMostOne }] }),
      ("title", { identifier := "title", name := "title", text := true }),
      ("author", { identifier := "author", name := "author", text := true }),
      ("pages", { identifier := "pages", name := "pages", text := true, dataType := some .int })]⟩
    attributes := ⟨[
      ("book@isbn", { identifier := "book@isbn", name := "isbn" }),
      ("book@binding",
        { identifier := "book@binding", name := "binding", facet := some bindingFacet })]⟩ }

def bindingEnumeration : Enumeration :=
  { name := "BookBinding", label := "binding", values := ["hardcover", "paperback"] }

def bookClass : Binding.Class :=
  { name := "Book", element := "book", tag := "book", root := true
    attributes := [
      ⟨"isbn", "isbn", .one, .attr "isbn" (.scalar .string)⟩,
      ⟨"binding", "binding", .optional, .attr "binding" (.enumeration bindingEnumeration)⟩]
    elements := [
      ⟨"title", "title", .one, .child "title" (.scalar .string)⟩,
      ⟨"author_list", "author", .list, .child "author" (.scalar .string)⟩,
      ⟨"pages", "pages", .optional, .child "pages" (.scalar .int)⟩] }

theorem build_book : bookRead.resolve.1.build.1 = bookDocument := by
  cbv

set_option maxRecDepth 10000 in
theorem classesOf_book : classesOf bookGrammar = [bookClass] := by
  have hgrammar : grammarOf bookGrammar = some bookRead := by
    unfold grammarOf readRoot Markup.read bookGrammar
    rw [toList_eq_of_ofList rfl]
    decide +kernel
  have hplan : (plan { document := bookDocument }).1.toOption = some [bookClass] := by
    decide +kernel
  exact classesOf_eq hgrammar build_book rfl hplan

/-! ### Playlists -/

def playlistRead : Grammar :=
  let track : ElementPattern :=
    { name := "track", attributes := [{ name := "title" }], pattern := { zeroOrMore := true } }
  let playlist : ElementPattern :=
    { name := "playlist"
      elements := [{ name := "tracks", elements := [track] }]
      attributes := [{ name := "name" }] }
  { start := { elements := [playlist] } }

def playlistDocument : Document :=
  { roots := ["playlist"]
    elements := ⟨[
      ("playlist", {
        identifier := "playlist", name := "playlist"
        elementRelations := [{ target := "tracks" }]
        attributeRelations := [{ target := "playlist@name" }] }),
      ("tracks", {
        identifier := "tracks", name := "tracks"
        elementRelations := [{ target := "track", occurs := many }] }),
      ("track", {
        identifier := "track", name := "track"
        attributeRelations := [{ target := "track@title" }] })]⟩
    attributes := ⟨[
      ("playlist@name", { identifier := "playlist@name", name := "name" }),
      ("track@title", { identifier := "track@title", name := "title" })]⟩ }

def playlistClass : Binding.Class :=
  { name := "Playlist", element := "playlist", tag := "playlist", root := true
    attributes := [⟨"name", "name", .one, .attr "name" (.scalar .string)⟩]
    elements := [⟨"tracks", "tracks", .one, .child "tracks" (.object "Tracks" false)⟩] }

/-- The classes of playlists.  Nothing is written for tracks if there are
    none. -/
def playlistClasses : List Binding.Class := [
  { name := "Track", element := "track", tag := "track"
    attributes := [⟨"title", "title", .one, .attr "title" (.scalar .string)⟩] },
  { name := "Tracks", element := "tracks", tag := "tracks"
    elements := [⟨"track_list", "track", .list, .child "track" (.object "Track" false)⟩] },
  playlistClass]

theorem build_playlist : playlistRead.resolve.1.build.1 = playlistDocument := by
  cbv

set_option maxRecDepth 10000 in
theorem classesOf_playlist : classesOf playlistGrammar = playlistClasses := by
  have hgrammar : grammarOf playlistGrammar = some playlistRead := by
    unfold grammarOf readRoot Markup.read playlistGrammar
    rw [toList_eq_of_ofList rfl]
    decide +kernel
  have hplan : (plan { document := playlistDocument }).1.toOption = some playlistClasses := by
    decide +kernel
  exact classesOf_eq hgrammar build_playlist rfl hplan

/-! ## Texts of the samples -/

/-- **Outlines, books and playlists are read from the texts that they are
    written as.**  Sections may nest to any depth, with paragraphs and sections
    in any order; a binding may be invalid; a playlist may have no tracks. -/
theorem samples_parse_write :
    (∀ v : Datum, v.IsOf (classesOf outlineGrammar) Admissible sectionClass →
      parse (classesOf outlineGrammar) "Section" (write (classesOf outlineGrammar) v) = .ok v) ∧
    (∀ v : Datum, v.IsOf (classesOf bookGrammar) Admissible bookClass →
      parse (classesOf bookGrammar) "Book" (write (classesOf bookGrammar) v) = .ok v) ∧
    (∀ v : Datum, v.IsOf (classesOf playlistGrammar) Admissible playlistClass →
      parse (classesOf playlistGrammar) "Playlist" (write (classesOf playlistGrammar) v) =
        .ok v) := by
  rw [classesOf_outline, classesOf_book, classesOf_playlist]
  refine ⟨fun v hv => ?_, fun v hv => ?_, fun v hv => ?_⟩
  · exact parse_write_admissible (by decide) (by decide) (by decide)
      (by decide) (by decide) (by decide) hv
  · exact parse_write_admissible (by decide) (by decide) (by decide)
      (by decide) (by decide) (by decide) hv
  · exact parse_write_admissible (by decide) (by decide) (by decide)
      (by decide) (by decide) (by decide) hv

def outline : Datum :=
  .object "Section" [
    .scalar (.text "a < \"b\" & 'c'"),
    .list [
      .alternative "Para" (.scalar (.text "]]>\n\tend ")),
      .alternative "Section" (.object "Section" [.scalar (.text ""), .list []]),
      .alternative "Para" (.scalar (.text ""))]]

def book : Datum :=
  .object "Book" [
    .scalar (.text "0-19"), .present (.variant "Invalid"), .scalar (.text "<title>"),
    .list [.scalar (.text "B"), .scalar (.text "A")],
    .present (.scalar (.integer (-2147483648)))]

def playlist : Datum :=
  .object "Playlist" [.scalar (.text "Quiet"), .object "Tracks" [.list []]]

theorem outline_book_playlist_parse_write :
    (outline.IsOf (classesOf outlineGrammar) Admissible sectionClass ∧
      parse (classesOf outlineGrammar) "Section" (write (classesOf outlineGrammar) outline) =
        .ok outline) ∧
    (book.IsOf (classesOf bookGrammar) Admissible bookClass ∧
      parse (classesOf bookGrammar) "Book" (write (classesOf bookGrammar) book) = .ok book) ∧
    (playlist.IsOf (classesOf playlistGrammar) Admissible playlistClass ∧
      parse (classesOf playlistGrammar) "Playlist" (write (classesOf playlistGrammar) playlist) =
        .ok playlist) := by
  have houtline : outline.IsOf (classesOf outlineGrammar) Admissible sectionClass := by
    rw [classesOf_outline]
    refine ⟨_, rfl, ⟨trivial, by decide⟩, ⟨⟨trivial, by decide⟩, ⟨⟨_, _, rfl⟩,
      ⟨trivial, by decide⟩, trivial, trivial⟩, ⟨trivial, by decide⟩, trivial⟩, trivial⟩
  have hbook : book.IsOf (classesOf bookGrammar) Admissible bookClass := by
    rw [classesOf_book]
    exact ⟨_, rfl, ⟨trivial, by decide⟩, ⟨.inl rfl, rfl⟩, ⟨trivial, by decide⟩,
      ⟨⟨trivial, by decide⟩, ⟨trivial, by decide⟩, trivial⟩, ⟨rfl, rfl⟩, trivial⟩
  have hplaylist : playlist.IsOf (classesOf playlistGrammar) Admissible playlistClass := by
    rw [classesOf_playlist]
    exact ⟨_, rfl, ⟨trivial, by decide⟩, ⟨⟨_, _, rfl⟩, trivial, trivial⟩, trivial⟩
  exact ⟨⟨houtline, samples_parse_write.1 outline houtline⟩,
    ⟨hbook, samples_parse_write.2.1 book hbook⟩,
    ⟨hplaylist, samples_parse_write.2.2 playlist hplaylist⟩⟩

end Bindery.Sample
