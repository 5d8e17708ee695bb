import LostUpdate.Syntax.Parsed
import LostUpdate.Text.Lines

namespace LostUpdate

/-- The character sets that programs are usually in. -/
inductive Charset
  | utf8 | latin1 | ascii
  deriving DecidableEq, Repr

namespace Charset

def latin1Text (bytes : ByteArray) : String :=
  bytes.foldl (fun out b => out.push (Char.ofNat b.toNat)) ""

def decode? : Charset → ByteArray → Option String
  | utf8, bytes => String.fromUTF8? bytes
  | latin1, bytes => some (latin1Text bytes)
  | ascii, bytes =>
    if bytes.foldl (fun ok b => ok && b < 128) true then some (latin1Text bytes) else none

/-- The names that comments usually give. Only the first twelve characters of a name count. -/
def standard? (name : String) : Option Charset :=
  let short := String.ofList ((name.toList.take 12).map fun c => if c = '_' then '-' else c.toLower)
  let isNamed (n : String) := short = n || short.startsWith (n ++ "-")
  if isNamed "utf-8" then some utf8
  else if isNamed "latin-1" || isNamed "iso-8859-1" || isNamed "iso-latin-1" then some latin1
  else none

def aliases : Charset → List String
  | utf8 => ["utf_8", "u8", "utf", "utf8", "utf8_ucs2", "utf8_ucs4", "cp65001"]
  | latin1 => ["latin_1", "8859", "cp819", "csisolatin1", "ibm819", "iso8859", "iso8859_1",
      "iso_8859_1", "iso_8859_1_1987", "iso_ir_100", "l1", "latin", "latin1"]
  | ascii => ["ascii", "646", "ansi_x3.4_1968", "ansi_x3_4_1968", "ansi_x3.4_1986", "cp367",
      "csascii", "ibm367", "iso646_us", "iso_646.irv_1991", "iso_ir_6", "us", "us_ascii"]

/-- In other names upper and lower case are the same, and so are all runs of dashes and
underscores, which do not count at either end. -/
def ofAlias? (name : String) : Option Charset :=
  let words := (name.map fun c => if c = '-' then '_' else c.toLower).splitOn "_"
  let plain := "_".intercalate (words.filter (· ≠ ""))
  [utf8, latin1, ascii].find? fun c =>
    plain ∈ c.aliases || plain.map (fun c => if c = '.' then '_' else c) ∈ c.aliases

end Charset

/-- How a file says which character set it uses: not at all, by a name, or in a line that cannot be
read. -/
inductive Declaration
  | none
  | named (name : String)
  | unreadable
  deriving DecidableEq

namespace Declaration

private def isSpace (c : Char) : Bool := c = ' ' || c = '\t'

private def isIndent (c : Char) : Bool := isSpace c || c = '\x0c'

private def isNameChar (c : Char) : Bool := c.isAlphanum || c = '-' || c = '_' || c = '.'

/-- The name in `coding: name` or `coding=name` at the very start. -/
private def nameAt (cs : List Char) : Option String :=
  if "coding".toList.isPrefixOf cs then
    match cs.drop 6 with
    | c :: rest =>
      let name := (rest.dropWhile isSpace).takeWhile isNameChar
      if (c = ':' || c = '=') && !name.isEmpty then some (String.ofList name) else Option.none
    | [] => Option.none
  else Option.none

private def nameIn : List Char → Option String
  | [] => Option.none
  | c :: rest =>
    if c = '\n' then Option.none
    else match nameAt (c :: rest) with
      | some name => some name
      | Option.none => nameIn rest

def ofLine (line : ByteArray) : Declaration :=
  match String.fromUTF8? line with
  | Option.none => unreadable
  | some s =>
    match s.toList.dropWhile isIndent with
    | '#' :: comment =>
      match nameIn comment with
      | some name => named name
      | Option.none => none
    | _ => none

/-- Whether a line holds nothing, or only a comment. -/
def isIdle (bytes : ByteArray) : Bool :=
  match bytes.findIdx? fun b => !isIndent (Char.ofNat b.toNat) with
  | Option.none => true
  | some i => match bytes[i]? with
    | Option.none => true
    | some b => b = '#'.toUInt8 || b = '\r'.toUInt8 || b = '\n'.toUInt8

/-- The end of the line that starts at a place; only `\n` ends a line here. -/
private def lineEnd (bytes : ByteArray) (start : Nat) : Nat :=
  match bytes.findIdx? (· = '\n'.toUInt8) start with
  | some i => i + 1
  | Option.none => bytes.size

/-- What the first line declares, or the second if the first is idle. -/
def ofBytes (bytes : ByteArray) : Declaration :=
  let firstEnd := lineEnd bytes 0
  let first := bytes.extract 0 firstEnd
  match ofLine first with
  | none => if isIdle first then ofLine (bytes.extract firstEnd (lineEnd bytes firstEnd)) else none
  | declaration => declaration

end Declaration

/-- Further character sets, by the names that files give them. One makes a text of the bytes that fit
it; a name may also stand for something that is no character set of texts, and fail. -/
abbrev Codecs := String → Option (ByteArray → Except ParseError (Option String))

/-- A text read from bytes. It is a fallback if the bytes are not what they are declared to be. -/
structure Decoded where
  text : String
  isFallback : Bool

namespace Decoded

/-- The byte order mark of UTF-8. -/
private def markLength (bytes : ByteArray) : Nat :=
  if (bytes.extract 0 3).toList = [0xef, 0xbb, 0xbf] then 3 else 0

/-- The text that the bytes are declared to be. A program is UTF-8, unless a comment in one of its
first two lines names another character set. Behind a byte order mark only UTF-8 may be named, and
only by its usual names. -/
def declaredText? (codecs : Codecs) (bytes : ByteArray) : Except ParseError (Option String) :=
  let mark := markLength bytes
  let body := bytes.extract mark bytes.size
  match Declaration.ofBytes body with
  | .none => .ok (Charset.utf8.decode? body)
  | .unreadable => .ok none
  | .named name =>
    match Charset.standard? name with
    | some c => .ok (if mark = 0 ∨ c = .utf8 then c.decode? body else none)
    | none =>
      if mark ≠ 0 then .ok none
      else match Charset.ofAlias? name with
        | some c => .ok (c.decode? body)
        | none => match codecs name with
          | some decode => decode body
          | none => .ok none

/-- Bytes that have no text in the character set that they are declared to be in are taken as
Latin-1, in which every byte is a character. -/
def ofBytes (codecs : Codecs) (bytes : ByteArray) : Except ParseError Decoded :=
  (declaredText? codecs bytes).map fun
    | some s => ⟨Text.universalNewlines s, false⟩
    | none => ⟨Text.universalNewlines (Charset.latin1Text bytes), true⟩

end Decoded

end LostUpdate
