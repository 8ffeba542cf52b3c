/-
  Sample grammars, and the classes planned for them.

  They cover the three grammar languages and every kind of slot.
-/
import Bindery.Binding.Plan
import Bindery.Instance.Datum
import Bindery.Schema.Dialect

namespace Bindery.Sample

/-- A book: attributes, text, a list and an optional number. -/
def bookGrammar : String := r#"<?xml version="1.0" encoding="UTF-8"?>
<element name="book" xmlns="http://relaxng.org/ns/structure/1.0"
         datatypeLibrary="http://www.w3.org/2001/XMLSchema-datatypes">
  <attribute name="isbn"><text/></attribute>
  <optional>
    <attribute name="binding">
      <choice>
        <value>hardcover</value>
        <value>paperback</value>
      </choice>
    </attribute>
  </optional>
  <element name="title"><text/></element>
  <zeroOrMore>
    <element name="author"><text/></element>
  </zeroOrMore>
  <optional>
    <element name="pages"><data type="int"/></element>
  </optional>
</element>
"#

/-- Sections inside sections, mixed with paragraphs. -/
def outlineGrammar : String := r#"<?xml version="1.0" encoding="UTF-8"?>
<grammar xmlns="http://relaxng.org/ns/structure/1.0">
  <start>
    <ref name="section"/>
  </start>
  <define name="section">
    <element name="section">
      <attribute name="title"/>
      <zeroOrMore>
        <choice>
          <element name="para"><text/></element>
          <ref name="section"/>
        </choice>
      </zeroOrMore>
    </element>
  </define>
</grammar>
"#

/-- A catalog of items with typed members and flags. -/
def catalogGrammar : String := r#"<?xml version="1.0" encoding="UTF-8"?>
<xs:schema xmlns:xs="http://www.w3.org/2001/XMLSchema">
  <xs:element name="catalog">
    <xs:complexType>
      <xs:sequence>
        <xs:element name="item" type="ItemType" minOccurs="0" maxOccurs="unbounded"/>
      </xs:sequence>
      <xs:attribute name="version" type="xs:int" use="required"/>
    </xs:complexType>
  </xs:element>

  <xs:simpleType name="Tag">
    <xs:restriction base="xs:token">
      <xs:enumeration value="new"/>
      <xs:enumeration value="sale"/>
    </xs:restriction>
  </xs:simpleType>

  <xs:complexType name="ItemType">
    <xs:sequence>
      <xs:element name="name" type="xs:token"/>
      <xs:element name="price" type="xs:decimal"/>
    </xs:sequence>
    <xs:attribute name="id" type="xs:integer" use="required"/>
    <xs:attribute name="available" type="xs:boolean"/>
    <xs:attribute name="tags">
      <xs:simpleType>
        <xs:list itemType="Tag"/>
      </xs:simpleType>
    </xs:attribute>
  </xs:complexType>
</xs:schema>
"#

/-- A list inside an element that is left out when it is empty. -/
def playlistGrammar : String := r#"<?xml version="1.0" encoding="UTF-8"?>
<element name="playlist" xmlns="http://relaxng.org/ns/structure/1.0">
  <attribute name="name"/>
  <element name="tracks">
    <zeroOrMore>
      <element name="track">
        <attribute name="title"/>
      </element>
    </zeroOrMore>
  </element>
</element>
"#

/-- Every scalar type, as a child and as an attribute. -/
def typesGrammar : String := r#"<xs:schema xmlns:xs="http://www.w3.org/2001/XMLSchema">
  <xs:simpleType name="Level">
    <xs:restriction base="xs:token">
      <xs:enumeration value="low"/>
      <xs:enumeration value="high"/>
      <xs:enumeration value="very high"/>
      <xs:enumeration value=""/>
      <xs:enumeration value="invalid"/>
    </xs:restriction>
  </xs:simpleType>
  <xs:simpleType name="Levels"><xs:list itemType="Level"/></xs:simpleType>
  <xs:simpleType name="Numbers"><xs:list itemType="xs:int"/></xs:simpleType>
  <xs:element name="types">
    <xs:complexType>
      <xs:sequence>
        <xs:element name="string" type="xs:string" minOccurs="0"/>
        <xs:element name="normalized" type="xs:normalizedString" minOccurs="0"/>
        <xs:element name="token" type="xs:token" minOccurs="0"/>
        <xs:element name="integer" type="xs:long" minOccurs="0"/>
        <xs:element name="int" type="xs:int" minOccurs="0"/>
        <xs:element name="decimal" type="xs:double" minOccurs="0"/>
        <xs:element name="boolean" type="xs:boolean" minOccurs="0"/>
        <xs:element name="date" type="xs:date" minOccurs="0"/>
        <xs:element name="dateTime" type="xs:dateTime" minOccurs="0"/>
        <xs:element name="level" type="Level" minOccurs="0"/>
        <xs:element name="levels" type="Levels" minOccurs="0"/>
        <xs:element name="numbers" type="Numbers" minOccurs="0"/>
        <xs:element name="flag" type="xs:boolean" minOccurs="0" maxOccurs="unbounded"/>
        <xs:element name="levelItem" type="Level" minOccurs="0" maxOccurs="7"/>
      </xs:sequence>
      <xs:attribute name="s" type="xs:string"/>
      <xs:attribute name="n" type="xs:normalizedString"/>
      <xs:attribute name="t" type="xs:NMTOKEN"/>
      <xs:attribute name="i" type="xs:integer"/>
      <xs:attribute name="b" type="xs:boolean" use="required"/>
      <xs:attribute name="d" type="xs:decimal" use="required"/>
      <xs:attribute name="l" type="Level"/>
      <xs:attribute name="ls" type="Levels" use="required"/>
    </xs:complexType>
  </xs:element>
</xs:schema>
"#

/-- Mixed content with choices. -/
def shapesGrammar : String := r#"<element name="drawing" xmlns="http://relaxng.org/ns/structure/1.0">
  <mixed>
    <optional><attribute name="unit"><choice><value>mm</value><value>px</value></choice></attribute></optional>
    <choice>
      <element name="title"><text/></element>
      <element name="caption"><attribute name="lang"/><text/></element>
    </choice>
    <zeroOrMore>
      <choice>
        <element name="circle"><attribute name="r"><data type="decimal"/></attribute></element>
        <element name="color"><choice><value>red</value><value>green</value></choice></element>
        <element name="count"><data type="int"/></element>
        <element name="br"><empty/></element>
      </choice>
    </zeroOrMore>
    <element name="style"><list><oneOrMore><choice><value>bold</value><value>dim</value></choice></oneOrMore></list></element>
  </mixed>
</element>
"#

/-- Folders inside folders and behind links. -/
def treeGrammar : String := r#"<grammar xmlns="http://relaxng.org/ns/structure/1.0">
  <start><ref name="folder"/></start>
  <define name="folder">
    <element name="folder">
      <attribute name="name"/>
      <optional><ref name="link"/></optional>
      <zeroOrMore><ref name="file"/></zeroOrMore>
      <zeroOrMore><ref name="folder"/></zeroOrMore>
    </element>
  </define>
  <define name="file">
    <element name="file"><attribute name="size"><data type="long"/></attribute><text/></element>
  </define>
  <define name="link">
    <element name="link"><ref name="folder"/></element>
  </define>
</grammar>
"#

/-- Names that are keywords of the generated language. -/
def keywordsGrammar : String := r#"<element name="match" xmlns="http://relaxng.org/ns/structure/1.0">
  <attribute name="type"/>
  <attribute name="self"/>
  <attribute name="value"/>
  <optional><attribute name="title"/></optional>
  <optional><attribute name="xml:lang"/></optional>
  <optional><attribute name="mode"><choice><value>Self</value><value>1.0</value><value>1_0</value><value>fn</value><value>+5</value></choice></attribute></optional>
  <element name="title"><text/></element>
  <optional><element name="crate"><attribute name="fn"/></element></optional>
  <zeroOrMore><element name="box"><attribute name="if"/><text/></element></zeroOrMore>
  <text/>
</element>
"#

def nestedGrammar : String := r#"<element name="library" xmlns="http://relaxng.org/ns/structure/1.0">
  <element name="books">
    <zeroOrMore>
      <element name="book">
        <element name="title"><attribute name="lang"/><text/></element>
        <oneOrMore><element name="author"><text/></element></oneOrMore>
      </element>
    </zeroOrMore>
  </element>
  <element name="magazines">
    <zeroOrMore>
      <element name="magazine"><element name="title"><attribute name="issue"><data type="int"/></attribute></element></element>
    </zeroOrMore>
    <zeroOrMore><element name="journal"><text/></element></zeroOrMore>
  </element>
  <element name="row"><element name="cell"><text/></element><optional><element name="cell"><text/></element></optional></element>
</element>
"#

def serviceGrammar : String := r#"<wsdl:definitions xmlns:wsdl="http://schemas.xmlsoap.org/wsdl/" xmlns:xs="http://www.w3.org/2001/XMLSchema">
  <wsdl:types>
    <xs:schema>
      <xs:element name="request">
        <xs:complexType><xs:sequence>
          <xs:element name="id" type="xs:int"/>
          <xs:element ref="option" minOccurs="0" maxOccurs="unbounded"/>
        </xs:sequence></xs:complexType>
      </xs:element>
      <xs:element name="option">
        <xs:complexType><xs:attribute name="key" use="required"/><xs:attribute name="on" type="xs:boolean"/></xs:complexType>
      </xs:element>
    </xs:schema>
    <xs:schema>
      <xs:element name="response">
        <xs:complexType><xs:choice>
          <xs:element name="error" type="xs:string"/>
          <xs:element name="result" type="xs:decimal"/>
        </xs:choice></xs:complexType>
      </xs:element>
    </xs:schema>
  </wsdl:types>
</wsdl:definitions>
"#

/-- Types derived from one another, groups and references. -/
def derivedGrammar : String := r#"<xs:schema xmlns:xs="http://www.w3.org/2001/XMLSchema" xmlns:t="urn:t" targetNamespace="urn:t">
  <xs:element name="order" type="t:Order"/>
  <xs:complexType name="Base">
    <xs:sequence><xs:element name="note" type="xs:string" minOccurs="0"/></xs:sequence>
    <xs:attributeGroup ref="t:common"/>
  </xs:complexType>
  <xs:complexType name="Order">
    <xs:complexContent><xs:extension base="t:Base">
      <xs:sequence>
        <xs:group ref="t:lines" maxOccurs="unbounded"/>
        <xs:element name="total" type="t:Money"/>
        <xs:element name="parent" type="t:Order" minOccurs="0"/>
      </xs:sequence>
      <xs:attribute name="status" type="t:Status"/>
    </xs:extension></xs:complexContent>
  </xs:complexType>
  <xs:complexType name="Money"><xs:simpleContent><xs:extension base="xs:decimal"><xs:attribute name="currency" use="required"/></xs:extension></xs:simpleContent></xs:complexType>
  <xs:simpleType name="Status"><xs:restriction base="xs:string"><xs:enumeration value="open"/><xs:enumeration value="closed"/></xs:restriction></xs:simpleType>
  <xs:group name="lines"><xs:sequence><xs:element name="line" type="xs:token"/><xs:element name="qty" type="xs:short"/></xs:sequence></xs:group>
  <xs:attributeGroup name="common"><xs:attribute name="id" type="xs:ID" use="required"/></xs:attributeGroup>
</xs:schema>
"#

def grammars : List (String × String) :=
  [("book", bookGrammar), ("outline", outlineGrammar), ("catalog", catalogGrammar),
    ("playlist", playlistGrammar), ("types", typesGrammar), ("shapes", shapesGrammar),
    ("tree", treeGrammar), ("keywords", keywordsGrammar), ("nested", nestedGrammar),
    ("service", serviceGrammar), ("derived", derivedGrammar)]

/-- The classes planned for a grammar, none if it is not one. -/
def classesOf (grammar : String) : Instance.Classes :=
  match (Schema.readDocument none false grammar).1 with
  | .ok document => ((Binding.plan { document }).1.toOption).getD []
  | .error _ => []

def classes? (name : String) : Option Instance.Classes :=
  (grammars.lookup name).map classesOf

end Bindery.Sample
