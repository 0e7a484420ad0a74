import Manuscript.Dict

namespace Manuscript

inductive Style where
  | bold
  | italic
  | monospace
  | marked
  | subscript
  | superscript
  deriving DecidableEq, Repr

inductive QuoteMark where
  | single
  | double
  deriving DecidableEq, Repr

inductive Shield where
  | singlePlus
  | triplePlus
  | bracketed
  deriving DecidableEq, Repr

inductive BlockKind where
  | exampleBlock
  | quote
  | sidebar
  | verse
  | fenced
  | listing
  | literal
  | passthrough
  | comment
  | markdownQuote
  deriving DecidableEq, Repr

inductive Count where
  | number (n : Int64)
  | character (c : Char)
  | text (s : String)
  deriving DecidableEq, Repr

structure CounterUse where
  name : String
  hidden : Bool
  pinned : Option Count
  deriving DecidableEq, Repr

structure Author where
  fullName : String
  email : Option String
  deriving DecidableEq, Repr

structure Revision where
  number : String
  date : String
  remark : String
  deriving DecidableEq, Repr

structure Location (α : Type) where
  scheme : String
  path : List α
  deriving DecidableEq, Repr

inductive Marker where
  | ordered (level : UInt8)
  | unordered (level : UInt8)
  | callout (reference : UInt32)
  deriving DecidableEq, Repr

mutual

inductive Element where
  | text (s : String)
  | placeholder (reference : UInt32)
  | special (name : String)
  | symbol (name : String)
  | lineBreak
  | callout (reference : UInt32)
  | attributeReference (name : String)
  | counter (use : CounterUse)
  | quoted (style : Style) (attributes : Dict Value) (content : List Element)
  | quotation (mark : QuoteMark) (content : List Element)
  | passthrough (shield : Shield) (content : List Element)
  | link (location : Location Element) (attributes : Dict Value)
  | image (location : Location Element) (attributes : Dict Value)
  | icon (name : String) (attributes : Dict Value)
  | crossReference (id : String) (label : Option String)
  | documentReference (location : Location Element) (label : List Element)
  | footnote (reference : Option String) (content : List Element)
  | footnoteReference (id : Int32) (reference : Option String) (duplicate : Bool)
  | indexTerm (term : List Element)
  | hiddenIndexTerm (first : String) (second third : Option String)
  | sectionBlock (level : UInt8) (attributes : Dict Value) (title elements : List Element)
  | paragraph (attributes : Dict Value) (lines : List (List Element))
  | lineBlock (kind : BlockKind) (attributes : Dict Value) (lines : List (List Element))
  | elementBlock (kind : BlockKind) (attributes : Dict Value) (elements : List Element)
  | imageBlock (location : Location Element) (attributes : Dict Value)
  | listItem (marker : Marker) (attributes : Dict Value) (elements : List Element)
  | labeledItem (level : UInt8) (term : List Element) (attributes : Dict Value)
      (elements : List Element)
  | continued (offset : Int32) (element : Element)
  | declaration (name : String) (value : Value)
  | reset (name : String)
  | blankLine
  | thematicBreak
  | comment (s : String)

inductive Value where
  | nil
  | string (s : String)
  | bool (b : Bool)
  | elements (content : List Element)
  | roles (names : List String)
  | authors (people : List Author)
  | revision (r : Revision)

end

abbrev Attributes := Dict Value

abbrev Line := List Element

structure Note where
  reference : Option String
  content : List Element

namespace BlockKind

def name : BlockKind → String
  | exampleBlock => "example"
  | quote => "quote"
  | sidebar => "sidebar"
  | verse => "verse"
  | fenced => "fenced"
  | listing => "listing"
  | literal => "literal"
  | passthrough => "passthrough"
  | comment => "comment"
  | markdownQuote => "markdown_quote"

def all : List BlockKind :=
  [exampleBlock, quote, sidebar, verse, fenced, listing, literal, passthrough, comment,
   markdownQuote]

def ofName? (name : String) : Option BlockKind :=
  all.find? (·.name == name)

theorem ofName?_name (kind : BlockKind) : ofName? kind.name = some kind := by
  cases kind <;> decide

end BlockKind

end Manuscript
